/-
Lowering leaves no block-scoped loop behind.

The argument follows the two repetitions of the library.  Within a region each step takes
one loop away, so that after as many steps as there were loops none is left outside
closures.  From region to region, loops turn into functions at worst, so that loops and
regions together do not grow in number; each step inwards passes one region, and with as
many steps as there were loops and regions every region is reached.

Loops could still hide in places that belong to no region: in parameters, in keys, in the
initialisers of a class.  A calm category is one whose nodes hold statements inside regions
of their own only, and all of these places are calm.
-/
import LoopLowering.Proofs.Splice

namespace LoopLowering

/-! ### Places that belong to no region -/

/-- Whether the nodes of a category hold statements inside regions of their own only. -/
def Category.isCalm (category : Category) : Bool := category.isQuiet || category == .member

theorem Form.isCalm_slots {form : Form} (hcalm : form.category.isCalm = true)
    (howner : form.ownsRegion = false) :
    form.shape.slots.all (·.categories.all (·.isCalm)) = true := by
  have htable : (!form.category.isCalm || form.ownsRegion ||
      form.shape.slots.all (·.categories.all (·.isCalm))) = true := by
    cases form with
    | ident role => cases role <;> rfl
    | _ => rfl
  rw [hcalm, howner] at htable
  exact htable

theorem Form.isCalm_of_isClosure {form : Form} (h : form.isClosure = true) :
    form.category.isCalm = true ∧ form ≠ .list := by
  unfold Form.isClosure at h
  split at h
  · exact ⟨rfl, by simp⟩
  · exact ⟨rfl, by simp⟩
  · exact ⟨rfl, by simp⟩
  · exact ⟨rfl, by simp⟩
  · exact ⟨rfl, by simp⟩
  · exact ⟨rfl, by simp⟩
  · cases h

theorem Form.category_ne_stmt_of_ownsRegion {form : Form} (h : form.ownsRegion = true) :
    form.category ≠ .stmt := by
  intro hstmt
  unfold Form.ownsRegion at h
  split at h
  · cases hstmt
  · cases hstmt
  · cases hstmt
  · cases hstmt
  · cases hstmt
  · cases hstmt
  · cases hstmt
  · cases h

theorem Node.isBlockLoop_of_category {node : Node} (h : node.form.category ≠ .stmt) :
    node.isBlockLoop = false := by
  by_contra hloop
  rw [Bool.not_eq_false] at hloop
  exact h (Node.category_of_isCandidate (Node.isCandidate_of_isBlockLoop hloop))

theorem Node.loopWeight_eq_zero {node : Node} (h : node.isBlockLoop = false) :
    node.landmark.loopWeight = 0 := by
  rw [Landmark.loopWeight_landmark, h]
  rfl

/-- In a calm node there is no loop outside regions. -/
theorem Node.tally_outside_of_calm {node : Node} (hwf : node.isWellFormed = true)
    (hcalm : node.allAre (·.isCalm) = true) : node.tally .outside = 0 := by
  induction node using Node.inductionOn with
  | step form span parts ih =>
      cases howner : form.ownsRegion with
      | true => exact Node.tally_of_stop howner
      | false =>
          have hcategory : form ≠ .list → form.category.isCalm = true := by
            intro hform
            rw [Node.allAre, if_neg (by simpa [Node.form] using hform)] at hcalm
            exact hcalm
          have hloop : (Node.mk form span parts).isBlockLoop = false := by
            refine Node.isBlockLoop_of_category fun hstmt => ?_
            have hform : form ≠ .list := by
              rintro rfl
              cases hstmt
            have hnot := hcategory hform
            rw [show form.category = .stmt from hstmt] at hnot
            cases hnot
          have hparts : tallyIn .outside parts = 0 := tallyIn_eq_zero fun part hmem => by
            refine ih part hmem (Node.isWellFormed_part hwf hmem) ?_
            exact Node.allAre_part rfl rfl hwf hcalm
              (fun hform => Form.isCalm_slots (hcategory hform) howner) hmem
          rw [Node.tally_of_not_stop howner]
          exact Nat.add_eq_zero_iff.mpr ⟨Node.loopWeight_eq_zero hloop, hparts⟩

/-- In a region without loops all loops are inside other regions. -/
theorem Node.tally_outside_of_inRegion {node : Node} (hwf : node.isWellFormed = true)
    (h : node.tally .inRegion = 0) : node.tally .outside = 0 := by
  induction node using Node.inductionOn with
  | step form span parts ih =>
      cases hclosure : form.isClosure with
      | true =>
          obtain ⟨hcalm, hform⟩ := Form.isCalm_of_isClosure hclosure
          refine Node.tally_outside_of_calm hwf ?_
          rw [Node.allAre, if_neg (by simpa [Node.form] using hform)]
          exact hcalm
      | false =>
          rw [Node.tally_of_not_stop hclosure] at h
          obtain ⟨hweight, hzero⟩ := Nat.add_eq_zero_iff.mp h
          have hparts : tallyIn .outside parts = 0 := tallyIn_eq_zero fun part hmem => by
            refine ih part hmem (Node.isWellFormed_part hwf hmem) ?_
            have hle : part.tally .inRegion ≤ tallyIn .inRegion parts := tally_le_tallyIn hmem
            have hnone : tallyIn .inRegion parts = 0 := hzero
            omega
          cases howner : form.ownsRegion with
          | true => exact Node.tally_of_stop howner
          | false =>
              rw [Node.tally_of_not_stop howner]
              exact Nat.add_eq_zero_iff.mpr ⟨hweight, hparts⟩

/-! ### One region -/

/-- A region and what lowering makes of it. -/
structure Node.LoweredTo (region region' : Node) : Prop where
  form : region'.form = region.form
  fits : region.FitsIn (fun _ => true) region'
  inRegion : region'.tally .inRegion = 0
  withRegions : region'.tally .withRegions ≤ region.tally .withRegions

/-- A step takes one loop away from a region, and adds no more than one function. -/
theorem Node.Spliced.counts {stmt region region' : Node} {replacement : List Node}
    (h : Node.Spliced stmt replacement region region') (hreplaced : stmt.ReplacedBy replacement) :
    region'.tally .inRegion + 1 ≤ region.tally .inRegion ∧
      region'.tally .withRegions ≤ region.tally .withRegions := by
  constructor
  · have htally : region'.tally .inRegion + stmt.tally .inRegion =
        region.tally .inRegion + tallyIn .inRegion replacement := h.tally fun _ => id
    obtain ⟨span, hle⟩ := hreplaced.tally .inRegion fun _ => rfl
    have hweight : tallyIn .inRegion replacement + 1 ≤ stmt.tally .inRegion := hle
    omega
  · have htally : region'.tally .withRegions + stmt.tally .withRegions =
        region.tally .withRegions + tallyIn .withRegions replacement := h.tally fun _ _ => rfl
    obtain ⟨span, hle⟩ := hreplaced.tally .withRegions fun _ => rfl
    have hweight : tallyIn .withRegions replacement + 1 ≤ stmt.tally .withRegions + 1 := hle
    omega

/-- With as many steps as there are loops, none is left in the region. -/
theorem Node.LoweredTo.lowerRegionTo {options : Options} {loops : Nat} {region region' : Node}
    {reports reports' : List Report} {names names' : Registry}
    (hwf : region.isWellFormed = true) (hcategory : region.form.category ≠ .stmt)
    (hloops : region.tally .inRegion ≤ loops)
    (h : (lowerRegionTo options loops region).Gives reports names region' reports' names') :
    region.LoweredTo region' := by
  induction loops generalizing region reports names with
  | zero =>
      obtain ⟨rfl, -, -⟩ := ProgramLowering.gives_pure.mp h
      exact ⟨rfl, .refl hwf, Nat.le_zero.mp hloops, Nat.le_refl _⟩
  | succ loops ih =>
      unfold LoopLowering.lowerRegionTo at h
      split at h
      · next hnone =>
        obtain ⟨rfl, -, -⟩ := ProgramLowering.gives_pure.mp h
        have hcandidate : region.isCandidate = false := by
          by_contra hcandidate
          exact hcategory (Node.category_of_isCandidate (Bool.not_eq_false _ ▸ hcandidate))
        exact ⟨rfl, .refl hwf, Node.tally_inRegion_of_firstCandidate? hcandidate hnone,
          Nat.le_refl _⟩
      · next stmt hstmt =>
        simp only [ProgramLowering.gives_bind, ProgramLowering.gives_liftM,
          ProgramLowering.gives_modify] at h
        obtain ⟨⟨replacement, report⟩, _, _, ⟨hlower, -⟩, _, _, _, -, h⟩ := h
        obtain ⟨spliced, hsplice, hspliced⟩ := Node.exists_spliced hstmt replacement
        rw [hsplice] at h
        have hreplaced := Node.ReplacedBy.lowerLoop (hspliced.isWellFormed_stmt hwf) hlower
        have hfits := hspliced.fitsIn hreplaced.stmts hwf
        obtain ⟨hfewer, hregions⟩ := hspliced.counts hreplaced
        have hrest := ih hfits.wellFormed (hspliced.form_eq ▸ hcategory) (by omega) h
        exact ⟨hrest.form.trans hspliced.form_eq, hfits.trans hrest.fits, hrest.inRegion,
          Nat.le_trans hrest.withRegions hregions⟩

theorem Node.LoweredTo.lowerRegion {options : Options} {region region' : Node}
    {reports reports' : List Report} {names names' : Registry}
    (hwf : region.isWellFormed = true) (hcategory : region.form.category ≠ .stmt)
    (h : (lowerRegion options region).Gives reports names region' reports' names') :
    region.LoweredTo region' :=
  .lowerRegionTo hwf hcategory (Nat.le_of_eq region.candidates_eq_tally.symm) h

/-! ### The node around a region -/

/-- The region of a node that is no program is one of its parts, and the others are calm. -/
structure Node.HasRegion (node : Node) (before : List Node) (region : Node) (after : List Node) :
    Prop where
  parts : node.parts = before ++ region :: after
  category : region.form.category ≠ .stmt
  calm : ∀ part ∈ before ++ after, part.allAre (·.isCalm) = true

theorem Node.category_ne_stmt_of_admits {slot : Slot} {node : Node}
    (hslot : Category.stmt ∉ slot.categories) (h : slot.admits node = true) :
    node.form.category ≠ .stmt := by
  intro hstmt
  have hlist : (node.form == .list) = false := by
    rw [beq_eq_false_iff_ne]
    intro e
    rw [e] at hstmt
    cases hstmt
  have habsent : node.isAbsent = false := by
    rw [Node.isAbsent, beq_eq_false_iff_ne]
    intro e
    rw [e] at hstmt
    cases hstmt
  cases slot <;>
    simp_all [Slot.admits, Slot.categories, Node.isListOf]

theorem fillSlots_append {slots more : List Slot} {nodes others : List Node}
    (hlength : nodes.length = slots.length) :
    fillSlots (slots ++ more) (nodes ++ others) = true ↔
      fillSlots slots nodes = true ∧ fillSlots more others = true := by
  induction slots generalizing nodes with
  | nil =>
      rw [List.length_eq_zero_iff.mp hlength]
      simp [fillSlots]
  | cons slot slots ih =>
      obtain ⟨node, rest, rfl⟩ := List.exists_cons_of_length_eq_add_one hlength
      have hrest : rest.length = slots.length := by simpa using hlength
      simp only [List.cons_append, fillSlots, Bool.and_eq_true, ih hrest, and_assoc]

/-- Slots made for calm nodes. -/
def Slot.isCalm (slot : Slot) : Bool :=
  slot.categories.all (·.isCalm) && !slot.categories.contains .list

theorem allAre_of_fillSlots {slots : List Slot} {nodes : List Node}
    (hslots : slots.all Slot.isCalm = true) (h : fillSlots slots nodes = true) :
    ∀ node ∈ nodes, node.allAre (·.isCalm) = true := by
  intro node hmem
  obtain ⟨slot, hslot, hadmits⟩ := exists_slot_of_fillSlots h hmem
  have hcalm := List.all_eq_true.mp hslots slot hslot
  rw [Slot.isCalm, Bool.and_eq_true, Bool.not_eq_true'] at hcalm
  exact Slot.allAre_of_admits rfl hcalm.1 (by simpa using hcalm.2) hadmits

/-- The region stands in a slot for a block or an expression, the other parts in calm
slots. -/
theorem Node.HasRegion.of_shape {node region : Node} {before after : List Node}
    (hwf : node.isWellFormed = true) (hform : node.form ≠ .list)
    (hparts : node.parts = before ++ region :: after) (slots more : List Slot) {slot : Slot}
    (hshape : node.form.shape = .fixed (slots ++ slot :: more))
    (hlength : before.length = slots.length) (hslot : slot.categories.contains .stmt = false)
    (hslots : slots.all Slot.isCalm = true) (hmore : more.all Slot.isCalm = true) :
    node.HasRegion before region after := by
  obtain ⟨form, span, parts⟩ := node
  have hadmits := (Node.isWellFormed_mk.mp hwf).1.resolve_left hform
  simp only [Node.form, Node.parts] at hshape hparts
  rw [hshape, hparts, Shape.admits, fillSlots_append hlength, fillSlots,
    Bool.and_eq_true] at hadmits
  obtain ⟨hbefore, hregion, hafter⟩ := hadmits
  refine ⟨hparts, Node.category_ne_stmt_of_admits (by simpa using hslot) hregion,
    fun part hmem => ?_⟩
  rcases List.mem_append.mp hmem with hmem | hmem
  · exact allAre_of_fillSlots hslots hbefore part hmem
  · exact allAre_of_fillSlots hmore hafter part hmem

/-- A program is its own region; any other node that owns a region changes in that region
only. -/
theorem Node.changeRegion_cases (change : Node → ProgramLowering Node) {node : Node}
    (howner : node.form.ownsRegion = true) (hwf : node.isWellFormed = true) :
    (node.form.category = .program ∧ node.changeRegion change = change node) ∨
      ∃ before region after, node.HasRegion before region after ∧
        node.changeRegion change =
          (do return .mk node.form node.ownSpan (before ++ (← change region) :: after)) := by
  obtain ⟨form, span, parts⟩ := node
  change form.ownsRegion = true at howner
  unfold Form.ownsRegion at howner
  split at howner
  · exact Or.inl ⟨rfl, rfl⟩
  · next generator async =>
    obtain ⟨params, decorators, region, ascription, rfl⟩ :=
      List.length_eq_four.mp (Node.length_parts hwf (by simp) rfl)
    exact Or.inr ⟨[params, decorators], region, [ascription],
      .of_shape hwf (by simp [Node.form]) rfl [_, _] [_] rfl rfl rfl rfl rfl, rfl⟩
  · next async generator =>
    obtain ⟨params, region, ascription, rfl⟩ :=
      List.length_eq_three.mp (Node.length_parts hwf (by simp) rfl)
    exact Or.inr ⟨[params], region, [ascription],
      .of_shape hwf (by simp [Node.form]) rfl [_] [_] rfl rfl rfl rfl rfl, rfl⟩
  · obtain ⟨key, params, region, rfl⟩ :=
      List.length_eq_three.mp (Node.length_parts hwf (by simp) rfl)
    exact Or.inr ⟨[key, params], region, [],
      .of_shape hwf (by simp [Node.form]) rfl [_, _] [] rfl rfl rfl rfl rfl, rfl⟩
  · obtain ⟨key, region, rfl⟩ := List.length_eq_two.mp (Node.length_parts hwf (by simp) rfl)
    exact Or.inr ⟨[key], region, [],
      .of_shape hwf (by simp [Node.form]) rfl [_] [] rfl rfl rfl rfl rfl, rfl⟩
  · obtain ⟨key, param, region, rfl⟩ :=
      List.length_eq_three.mp (Node.length_parts hwf (by simp) rfl)
    exact Or.inr ⟨[key, param], region, [],
      .of_shape hwf (by simp [Node.form]) rfl [_, _] [] rfl rfl rfl rfl rfl, rfl⟩
  · obtain ⟨region, rfl⟩ := List.length_eq_one_iff.mp (Node.length_parts hwf (by simp) rfl)
    exact Or.inr ⟨[], region, [],
      .of_shape hwf (by simp [Node.form]) rfl [] [] rfl rfl rfl rfl rfl, rfl⟩
  · cases howner

/-- After its region is lowered, what is left of a node's loops is inside other regions. -/
theorem Node.gives_changeRegion_lowerRegion {options : Options} {node node' : Node}
    {reports reports' : List Report} {names names' : Registry}
    (howner : node.form.ownsRegion = true) (hwf : node.isWellFormed = true)
    (h : (node.changeRegion (lowerRegion options)).Gives reports names node' reports' names') :
    node'.form = node.form ∧ node.FitsIn (fun _ => true) node' ∧
      node'.tally .withRegions ≤ node.tally .withRegions ∧
      ∀ part ∈ node'.parts, part.tally .outside = 0 := by
  rcases Node.changeRegion_cases (lowerRegion options) howner hwf with ⟨hprogram, heq⟩ |
    ⟨before, region, after, ⟨hparts, hcategory, hcalm⟩, heq⟩
  · rw [heq] at h
    have hlowered := Node.LoweredTo.lowerRegion hwf (by rw [hprogram]; simp) h
    refine ⟨hlowered.form, hlowered.fits, hlowered.withRegions, fun part hmem => ?_⟩
    rw [← hlowered.form] at hprogram
    obtain ⟨form, span, parts⟩ := node'
    have hclosure : form.isClosure = false := by
      by_contra hclosure
      have hcalm := (Form.isCalm_of_isClosure (Bool.not_eq_false _ ▸ hclosure)).1
      rw [show form.category = .program from hprogram] at hcalm
      cases hcalm
    have hwf' := hlowered.fits.wellFormed
    refine Node.tally_outside_of_inRegion (Node.isWellFormed_part hwf' hmem) ?_
    have hzero := hlowered.inRegion
    rw [Node.tally_of_not_stop hclosure] at hzero
    have hle : part.tally .inRegion ≤ tallyIn .inRegion parts := tally_le_tallyIn hmem
    have hnone : tallyIn .inRegion parts = 0 := (Nat.add_eq_zero_iff.mp hzero).2
    omega
  · rw [heq] at h
    obtain ⟨region', _, _, hlower, h⟩ := ProgramLowering.gives_bind.mp h
    obtain ⟨rfl, rfl, rfl⟩ := ProgramLowering.gives_pure.mp h
    obtain ⟨form, span, parts⟩ := node
    simp only [Node.parts] at hparts
    subst hparts
    have hregionWf := Node.isWellFormed_part hwf (show region ∈ before ++ region :: after by simp)
    have hlowered := Node.LoweredTo.lowerRegion hregionWf hcategory hlower
    have hfits := Node.FitsIn.replacePart rfl hwf hlowered.fits
    refine ⟨rfl, hfits, ?_, fun part hmem => ?_⟩
    · have hmark : (Node.mk form span (before ++ region' :: after)).landmark =
          (Node.mk form span (before ++ region :: after)).landmark :=
        Node.landmark_replacePart (by unfold Node.isLexicalDecl; rw [hlowered.form])
      refine Node.tally_mono hmark ?_
      simp only [Node.parts, tallyIn_append, tallyIn_cons]
      have hle := hlowered.withRegions
      omega
    · have hpartWf := Node.isWellFormed_part hfits.wellFormed hmem
      simp only [Node.parts, List.mem_append, List.mem_cons] at hmem
      rcases hmem with hmem | rfl | hmem
      · exact Node.tally_outside_of_calm hpartWf (hcalm part (by simp [hmem]))
      · exact Node.tally_outside_of_inRegion hpartWf hlowered.inRegion
      · exact Node.tally_outside_of_calm hpartWf (hcalm part (by simp [hmem]))

/-! ### Regions inside regions -/

/-- A tree and the same tree without loops. -/
structure Node.ClearedTo (node node' : Node) : Prop where
  form : node'.form = node.form
  fits : node.FitsIn (fun _ => true) node'
  all : node'.tally .all = 0

theorem Node.ClearedTo.node {form : Form} {span : Span} {parts parts' : List Node}
    (hwf : (Node.mk form span parts).isWellFormed = true)
    (hloop : (Node.mk form span parts).isBlockLoop = false)
    (h : List.Forall₂ Node.ClearedTo parts parts') :
    (Node.mk form span parts).ClearedTo (.mk form span parts') := by
  have hlexical : List.Forall₂ (fun a b => b.isLexicalDecl = a.isLexicalDecl) parts parts' :=
    h.imp fun _ _ hc => by unfold Node.isLexicalDecl; rw [hc.form]
  have hloop' : (Node.mk form span parts').isBlockLoop = false := by
    by_contra hloop'
    have hback : (Node.mk form span parts).isBlockLoop = true :=
      Node.isBlockLoop_of_forall₂ (hlexical.flip.imp fun _ _ e => e.symm)
        (Bool.not_eq_false _ ▸ hloop')
    exact Bool.false_ne_true (hloop.symm.trans hback)
  refine ⟨rfl, .node rfl hwf (h.imp fun _ _ hc => hc.fits), ?_⟩
  have hparts : tallyIn .all parts' = 0 := by
    clear hlexical hloop hloop' hwf
    induction h with
    | nil => rfl
    | cons hhead _ ih => rw [tallyIn_cons, hhead.all, ih]
  rw [Node.tally_all_mk, hloop', hparts]
  rfl

/-- What changing owners does to each tree of a list, it does to the list. -/
theorem forall₂_changeOwnersIn {change : Node → ProgramLowering Node} {related : Node → Node → Prop}
    {nodes nodes' : List Node} {reports reports' : List Report} {names names' : Registry}
    (hnode : ∀ node ∈ nodes, ∀ {node' reports reports' names names'},
      (node.changeOwners change).Gives reports names node' reports' names' → related node node')
    (h : (changeOwnersIn change nodes).Gives reports names nodes' reports' names') :
    List.Forall₂ related nodes nodes' := by
  induction nodes generalizing nodes' reports names with
  | nil =>
      obtain ⟨rfl, -, -⟩ := ProgramLowering.gives_pure.mp h
      exact .nil
  | cons node nodes ih =>
      obtain ⟨node', _, _, hfirst, h⟩ := ProgramLowering.gives_bind.mp h
      obtain ⟨rest', _, _, hrest, h⟩ := ProgramLowering.gives_bind.mp h
      obtain ⟨rfl, rfl, rfl⟩ := ProgramLowering.gives_pure.mp h
      refine .cons (hnode node List.mem_cons_self hfirst) ?_
      exact ih (fun other hother => hnode other (List.mem_cons_of_mem node hother)) hrest

/-- Where all loops are inside regions, a tree is cleared by clearing these. -/
theorem Node.ClearedTo.changeOwners {change : Node → ProgramLowering Node} {depth : Nat}
    (hchange : ∀ {owner owner' : Node} {reports reports' : List Report} {names names' : Registry},
      owner.form.ownsRegion = true → owner.isWellFormed = true →
      owner.tally .withRegions ≤ depth →
      (change owner).Gives reports names owner' reports' names' → owner.ClearedTo owner')
    {node node' : Node} (hwf : node.isWellFormed = true) (hdepth : node.tally .withRegions ≤ depth)
    (houtside : node.tally .outside = 0) {reports reports' : List Report} {names names' : Registry}
    (h : (node.changeOwners change).Gives reports names node' reports' names') :
    node.ClearedTo node' := by
  induction node using Node.inductionOn generalizing node' reports reports' names names' with
  | step form span parts ih =>
      unfold Node.changeOwners at h
      split at h
      · next howner => exact hchange howner hwf hdepth h
      · next howner =>
        rw [Bool.not_eq_true] at howner
        obtain ⟨parts', _, _, hparts, h⟩ := ProgramLowering.gives_bind.mp h
        obtain ⟨rfl, rfl, rfl⟩ := ProgramLowering.gives_pure.mp h
        rw [Node.tally_of_not_stop howner] at houtside
        rw [Node.tally_of_not_stop rfl] at hdepth
        obtain ⟨hweight, hzero⟩ := Nat.add_eq_zero_iff.mp houtside
        have hloop : (Node.mk form span parts).isBlockLoop = false := by
          have hzero : (Node.mk form span parts).landmark.loopWeight = 0 := hweight
          rw [Landmark.loopWeight_landmark] at hzero
          simpa using hzero
        refine Node.ClearedTo.node hwf hloop (forall₂_changeOwnersIn ?_ hparts)
        intro part hmem part' _ _ _ _ hpart
        have hregions : part.tally .withRegions ≤ tallyIn .withRegions parts :=
          tally_le_tallyIn hmem
        have hall : tallyIn .withRegions parts ≤ depth := Nat.le_trans (Nat.le_add_left _ _) hdepth
        have hloops : part.tally .outside ≤ tallyIn .outside parts := tally_le_tallyIn hmem
        have hnone : tallyIn .outside parts = 0 := hzero
        exact ih part hmem (Node.isWellFormed_part hwf hmem) (by omega) (by omega) hpart

/-- A node that owns a region counts as one more than its parts. -/
theorem Node.tallyIn_parts_lt {owner : Node} (howner : owner.form.ownsRegion = true) :
    1 + tallyIn .withRegions owner.parts ≤ owner.tally .withRegions := by
  have hweight : 1 ≤ owner.landmark.regionWeight := by
    unfold Landmark.regionWeight
    rw [show owner.landmark.owner = true from howner]
    exact Nat.le_add_right 1 _
  rw [Node.tally_of_not_stop rfl]
  exact Nat.add_le_add_right hweight _

/-- With as many steps inwards as there are regions and loops, no loop is left. -/
theorem Node.ClearedTo.lowerOwnerTo {options : Options} {depth : Nat} {node node' : Node}
    {reports reports' : List Report} {names names' : Registry}
    (howner : node.form.ownsRegion = true) (hwf : node.isWellFormed = true)
    (hdepth : node.tally .withRegions ≤ depth)
    (h : (lowerOwnerTo options depth node).Gives reports names node' reports' names') :
    node.ClearedTo node' := by
  induction depth generalizing node node' reports reports' names names' with
  | zero =>
      have hone := Node.tallyIn_parts_lt howner
      omega
  | succ depth ih =>
      obtain ⟨lowered, _, _, hlowered, h⟩ := ProgramLowering.gives_bind.mp h
      obtain ⟨parts', _, _, hparts, h⟩ := ProgramLowering.gives_bind.mp h
      obtain ⟨rfl, rfl, rfl⟩ := ProgramLowering.gives_pure.mp h
      obtain ⟨hform, hfits, hregions, houtside⟩ :=
        Node.gives_changeRegion_lowerRegion howner hwf hlowered
      have hone := Node.tallyIn_parts_lt (hform ▸ howner)
      have hloop := Node.isBlockLoop_of_category
        (hform ▸ Form.category_ne_stmt_of_ownsRegion howner)
      obtain ⟨form, span, parts⟩ := lowered
      have hcleared := Node.ClearedTo.node hfits.wellFormed hloop
        (forall₂_changeOwnersIn (fun part hmem _ _ _ _ _ hpart => by
          have hle : part.tally .withRegions ≤ tallyIn .withRegions parts := tally_le_tallyIn hmem
          have hall : tallyIn .withRegions parts ≤ depth := by
            simp only [Node.parts] at hone
            omega
          exact Node.ClearedTo.changeOwners ih (Node.isWellFormed_part hfits.wellFormed hmem)
            (Nat.le_trans hle hall) (houtside part hmem) hpart) hparts)
      exact ⟨hcleared.form.trans hform, hfits.trans hcleared.fits, hcleared.all⟩

/-! ### A program without loops stays as it is -/

theorem Node.tally_inRegion_le_all (node : Node) : node.tally .inRegion ≤ node.tally .all := by
  induction node using Node.inductionOn with
  | step form span parts ih =>
      cases hclosure : form.isClosure with
      | true =>
          rw [Node.tally_of_stop hclosure]
          exact Nat.zero_le _
      | false =>
          rw [Node.tally_of_not_stop hclosure, Node.tally_of_not_stop rfl]
          refine Nat.add_le_add_left (tallyIn_le_tallyIn fun part hmem => ?_) _
          exact ih part hmem

theorem lowerRegion_eq_pure (options : Options) {region : Node} (h : region.tally .all = 0) :
    lowerRegion options region = pure region := by
  have hnone : region.candidates = 0 := by
    have hle := region.tally_inRegion_le_all
    rw [Node.candidates_eq_tally]
    omega
  rw [lowerRegion, hnone]
  rfl

theorem Node.changeRegion_eq_pure {change : Node → ProgramLowering Node}
    (hchange : ∀ {region : Node}, region.tally .all = 0 → change region = pure region) {node : Node}
    (h : node.tally .all = 0) : node.changeRegion change = pure node := by
  have hpart : ∀ part ∈ node.parts, change part = pure part := by
    intro part hmem
    obtain ⟨form, span, parts⟩ := node
    exact hchange (Node.tally_all_part_eq_zero hmem h)
  unfold Node.changeRegion
  split
  · exact hchange h
  · rw [hpart _ (by simp [Node.parts]), pure_bind]
  · rw [hpart _ (by simp [Node.parts]), pure_bind]
  · rw [hpart _ (by simp [Node.parts]), pure_bind]
  · rw [hpart _ (by simp [Node.parts]), pure_bind]
  · rw [hpart _ (by simp [Node.parts]), pure_bind]
  · rw [hpart _ (by simp [Node.parts]), pure_bind]
  · rfl

theorem changeOwnersIn_eq_pure {change : Node → ProgramLowering Node} {nodes : List Node}
    (h : ∀ node ∈ nodes, node.changeOwners change = pure node) :
    changeOwnersIn change nodes = pure nodes := by
  induction nodes with
  | nil => rfl
  | cons node nodes ih =>
      rw [changeOwnersIn, h node List.mem_cons_self, pure_bind,
        ih fun other hother => h other (List.mem_cons_of_mem node hother), pure_bind]

theorem Node.changeOwners_eq_pure {change : Node → ProgramLowering Node}
    (hchange : ∀ {owner : Node}, owner.tally .all = 0 → change owner = pure owner) {node : Node}
    (h : node.tally .all = 0) : node.changeOwners change = pure node := by
  induction node using Node.inductionOn with
  | step form span parts ih =>
      unfold Node.changeOwners
      split
      · exact hchange h
      · rw [changeOwnersIn_eq_pure fun part hmem =>
          ih part hmem (Node.tally_all_part_eq_zero hmem h), pure_bind]

/-- A tree without loops is lowered to itself, and nothing is reported. -/
theorem lowerOwnerTo_eq_pure (options : Options) (depth : Nat) {node : Node}
    (h : node.tally .all = 0) : lowerOwnerTo options depth node = pure node := by
  induction depth generalizing node with
  | zero => rfl
  | succ depth ih =>
      rw [lowerOwnerTo, Node.changeRegion_eq_pure (lowerRegion_eq_pure options) h, pure_bind]
      obtain ⟨form, span, parts⟩ := node
      have hparts : changeOwnersIn (lowerOwnerTo options depth) parts = pure parts :=
        changeOwnersIn_eq_pure fun part hmem =>
          Node.changeOwners_eq_pure ih (Node.tally_all_part_eq_zero hmem h)
      simp only [Node.parts, hparts, pure_bind]
      rfl

theorem Node.lowerWith_of_tally_all {program : Node} (h : program.tally .all = 0)
    (options : Options) (names : Registry) : (program.lowerWith options).run.run names =
      (.ok (program, []), names) := by
  rw [Node.lowerWith, lowerOwnerTo_eq_pure options _ h]
  rfl

/-! ### The whole program -/

theorem Form.ownsRegion_of_category {form : Form} (h : form.category = .program) :
    form.ownsRegion = true := by
  have htable : (form.category != .program || form.ownsRegion) = true := by
    cases form with
    | ident role => cases role <;> rfl
    | _ => rfl
  simpa [h] using htable

/-- A program that is lowered is a program again, without loops. -/
theorem Node.ClearedTo.lower {program lowered : Node} {options : Options}
    (hprogram : program.IsProgram) (h : program.lower options = .ok lowered) :
    program.ClearedTo lowered := by
  unfold Node.lower at h
  rcases hrun : (program.lowerWith options).run.run (.ofTree program) with
    ⟨refusal | ⟨node, reports⟩, names⟩
  · rw [hrun] at h
    cases h
  · rw [hrun] at h
    cases h
    exact Node.ClearedTo.lowerOwnerTo (Form.ownsRegion_of_category hprogram.1) hprogram.2
      (Nat.le_of_eq program.regionsAndLoops_eq_tally.symm) hrun

/-- A program that was lowered has no block-scoped loop anywhere, in functions new and old,
in classes or in parameters.  Lowering it again changes nothing and reports nothing. -/
theorem Node.lower_leaves_no_loop {program lowered : Node} {options : Options}
    (hprogram : program.IsProgram) (h : program.lower options = .ok lowered) :
    (∀ stmt : Node, stmt.Within lowered → stmt.isCandidate = false) ∧
      lowered.lower options = .ok lowered ∧
      ∀ (again : Options) (names : Registry),
        (lowered.lowerWith again).run.run names = (.ok (lowered, []), names) := by
  have hall := (Node.ClearedTo.lower hprogram h).all
  refine ⟨fun stmt hstmt => Node.isCandidate_eq_false_of_within hstmt hall, ?_,
    fun again names => ?_⟩
  · rw [Node.lower, Node.lowerWith_of_tally_all hall]
    rfl
  · exact Node.lowerWith_of_tally_all hall again names

/-- A program whose loop body is called later, around a loop whose body is called later. -/
def nestedClosures : Node :=
  let at0 := Span.generated
  let declare (name : String) (init : Node) :=
    Node.varDecl (.lexical false) false at0
      [.declarator false at0 (.binding name false at0 .absent) init]
  let call (callee : String) (arg : Node) :=
    Node.exprStmt (.mk .call at0 [.use callee at0, .list [.mk (.arg none) at0 [arg]]])
  let arrow (body : Node) := Node.mk (.arrow false false) at0 [.list [], body, .absent]
  .mk (.program none) at0
    [.forStmt at0 (declare "i" (.mk (.number 0 none) at0 []))
      (.mk (.binary "<") at0 [.use "i" at0, .use "n" at0])
      (.mk (.update "++" false) at0 [.use "i" at0])
      (.block at0
        [.forOfStmt false at0 (declare "x" .absent) (.use "xs" at0)
          (.block at0 [call "later"
            (arrow (.mk (.binary "+") at0 [.use "x" at0, .use "i" at0]))])])]

theorem nestedClosures_leaves_no_loop :
    nestedClosures.isCandidate = false ∧ nestedClosures.tally .all = 2 ∧
      ∃ lowered, nestedClosures.lower {} = .ok lowered ∧
        (∀ stmt : Node, stmt.Within lowered → stmt.isCandidate = false) ∧
        lowered.lower {} = .ok lowered ∧
        ∀ (again : Options) (names : Registry),
          (lowered.lowerWith again).run.run names = (.ok (lowered, []), names) := by
  have hprogram : nestedClosures.IsProgram := by decide +kernel
  have hok : (nestedClosures.lower {}).isOk = true := by decide +kernel
  cases hlowered : nestedClosures.lower {} with
  | error refusal =>
      rw [hlowered] at hok
      cases hok
  | ok lowered =>
      exact ⟨rfl, by decide +kernel, lowered, rfl, Node.lower_leaves_no_loop hprogram hlowered⟩

end LoopLowering
