/-
What a region does not mention, it does not bind around its first loop.

A loop variable keeps its name if the rest of the region does not mention it.  That is enough to
say what the name means in the statements that take the place of the loop: every scope of the
region around the loop would mention the name if it bound it.  What takes the place of the loop
binds nothing there itself.
-/
import LoopLowering.Proofs.Copies
import LoopLowering.Proofs.Openings

namespace LoopLowering

/-! ### What is introduced is mentioned -/

/-- The names a node declares in the scope it stands in, or binds as a pattern there. -/
def Node.introduced (node : Node) : List String := node.declared true ++ node.bindingNames

theorem Node.introduced_subset (node : Node) : node.introduced ⊆ node.names :=
  List.append_subset.mpr ⟨node.declared_subset true, node.bindingNames_subset⟩

section

variable {name : String} {form : Form} {span : Span} {parts : List Node}

/-- A node that is no loop and no closure mentions what one of its parts mentions, unless it is a
function with a name. -/
theorem Node.mentions_of_part (hclosure : form.isClosure = false)
    (hcandidate : (Node.mk form span parts).isCandidate = false)
    (hexpr : ∀ own, form ≠ .functionExpr own) {part : Node} (hmem : part ∈ parts)
    (h : part.mentions name = true) : (Node.mk form span parts).mentions name = true := by
  have hany : mentionsIn name parts = true := by
    rw [mentionsIn_eq_any]
    exact List.any_eq_true.mpr ⟨part, hmem, h⟩
  rw [Node.mentions_of_not_isCandidate hclosure hcandidate, hany]
  unfold Form.finds
  split
  · exact Bool.or_true _
  · exact absurd rfl (hexpr _)
  · rfl

theorem Node.mentions_of_mem_bindingNames {node : Node} (h : name ∈ node.bindingNames) :
    node.mentions name = true := by
  induction node using Node.inductionOn with
  | step form span parts ih =>
      cases form with
      | ident role =>
          cases role with
          | bind =>
              rw [Node.bindingNames, List.mem_singleton] at h
              rw [Node.mentions_of_not_isCandidate rfl rfl, h]
              simp [Form.finds]
          | _ => cases h
      | list =>
          rw [Node.bindingNames, bindingNamesOf_eq_flatMap] at h
          obtain ⟨part, hmem, h⟩ := List.mem_flatMap.mp h
          exact Node.mentions_of_part rfl rfl (by simp) hmem (ih part hmem h)
      | arrayPat | objectPat | rest | assignPat | assignPatProp | declarator =>
          rcases parts with _ | ⟨first, _ | ⟨_, _ | _⟩⟩
          · cases h
          · cases h
          · exact Node.mentions_of_part rfl rfl (by simp) List.mem_cons_self
              (ih first List.mem_cons_self h)
          · cases h
      | keyValuePat | parameter | parameterProperty =>
          rcases parts with _ | ⟨first, _ | ⟨second, _ | _⟩⟩
          · cases h
          · cases h
          · have hmem : second ∈ [first, second] := List.mem_cons_of_mem first List.mem_cons_self
            exact Node.mentions_of_part rfl rfl (by simp) hmem (ih second hmem h)
          · cases h
      | _ => cases h

/-- The title of a declaration is mentioned where it stands. -/
theorem Node.mentions_of_title {title : Node} (hwf : title.isWellFormed = true)
    (htitle : title.form.category = .title) (h : name ∈ title.names) :
    title.mentions name = true := by
  obtain ⟨form, span, parts⟩ := title
  cases form with
  | ident role used =>
      cases role with
      | title =>
          obtain rfl := Node.parts_eq_nil rfl (by simp) hwf
          obtain rfl : name = used := by simpa [Node.names, namesOf, Form.names] using h
          rw [Node.mentions_of_not_isCandidate rfl rfl]
          simp [Form.finds]
      | _ => cases htitle
  | _ => cases htitle

theorem Node.mentions_of_mem_declared {node : Node} (hwf : node.isWellFormed = true)
    (h : name ∈ node.declared true) : node.mentions name = true := by
  induction node using Node.inductionOn with
  | step form span parts ih =>
      have hbinding : name ∈ bindingNamesOf parts → ∃ part ∈ parts, part.mentions name = true := by
        rw [bindingNamesOf_eq_flatMap, List.mem_flatMap]
        exact fun ⟨part, hmem, hname⟩ => ⟨part, hmem, Node.mentions_of_mem_bindingNames hname⟩
      have hdeclared : name ∈ declaredIn parts → ∃ part ∈ parts, part.mentions name = true := by
        rw [declaredIn_eq_flatMap, List.mem_flatMap]
        exact fun ⟨part, hmem, hname⟩ =>
          ⟨part, hmem, ih part hmem (Node.isWellFormed_part hwf hmem) hname⟩
      have htitle : ∀ {title rest}, parts = title :: rest → title.form.category = .title →
          name ∈ title.names → ∃ part ∈ parts, part.mentions name = true := by
        rintro title rest rfl hcategory hname
        exact ⟨title, List.mem_cons_self,
          Node.mentions_of_title (Node.isWellFormed_part hwf List.mem_cons_self) hcategory hname⟩
      have hshape := (Node.isWellFormed_mk.mp hwf).1
      cases form with
      | varDecl kind =>
          cases kind with
          | var => cases h
          | lexical =>
              obtain ⟨part, hmem, hpart⟩ := hbinding h
              exact Node.mentions_of_part rfl rfl (by simp) hmem hpart
      | usingDecl =>
          obtain ⟨part, hmem, hpart⟩ := hbinding h
          exact Node.mentions_of_part rfl rfl (by simp) hmem hpart
      | classDecl | functionDecl =>
          rcases parts with _ | ⟨title, rest⟩
          · cases h
          · have hfirst := (Bool.and_eq_true_iff.mp (hshape.resolve_left (by simp))).1
            obtain ⟨part, hmem, hpart⟩ := htitle rfl (by simpa [Slot.admits] using hfirst) h
            exact Node.mentions_of_part rfl rfl (by simp) hmem hpart
      | list | switchCase | caseBody =>
          obtain ⟨part, hmem, hpart⟩ := hdeclared h
          exact Node.mentions_of_part rfl rfl (by simp) hmem hpart
      | _ => cases h

theorem Node.mentions_of_mem_introduced {node : Node} (hwf : node.isWellFormed = true)
    (h : name ∈ node.introduced) : node.mentions name = true :=
  (List.mem_append.mp h).elim (Node.mentions_of_mem_declared hwf) Node.mentions_of_mem_bindingNames

/-- What a node around statements introduces or binds, one of its parts introduces. -/
theorem Node.exists_introduced (hclosure : form.isClosure = false)
    (hslots : form ≠ .list → form.shape.slots.all Slot.isQuiet = false)
    (h : name ∈ (Node.mk form span parts).introduced ∨
      name ∈ (Node.mk form span parts).bound true) :
    ∃ part ∈ parts, name ∈ part.introduced := by
  have hdeclared : name ∈ parts.flatMap (Node.declared true) → ∃ part ∈ parts,
      name ∈ part.introduced := by
    rw [List.mem_flatMap]
    exact fun ⟨part, hmem, hname⟩ => ⟨part, hmem, List.mem_append_left _ hname⟩
  have hbinding : name ∈ bindingNamesOf parts → ∃ part ∈ parts, name ∈ part.introduced := by
    rw [bindingNamesOf_eq_flatMap, List.mem_flatMap]
    exact fun ⟨part, hmem, hname⟩ => ⟨part, hmem, List.mem_append_right _ hname⟩
  rw [Node.introduced, List.mem_append] at h
  cases form with
  | list =>
      rcases h with (h | h) | h
      · rw [Node.declared, declaredIn_eq_flatMap] at h
        exact hdeclared h
      · exact hbinding h
      · cases h
  | switchCase | caseBody =>
      rcases h with (h | h) | h
      · rw [Node.declared, declaredIn_eq_flatMap] at h
        exact hdeclared h
      · cases h
      · cases h
  | block | switchStmt | forStmt | forInStmt | forOfStmt | whileStmt | doWhileStmt =>
      rcases h with (h | h) | h
      · cases h
      · cases h
      · exact hdeclared h
  | catchClause =>
      rcases h with (h | h) | h
      · cases h
      · cases h
      · rcases parts with _ | ⟨param, rest⟩
        · cases h
        · exact ⟨param, List.mem_cons_self, List.mem_append_right _ h⟩
  | function | arrow | classBody | constructor | getter | setter => cases hclosure
  | ident role => cases role <;> cases hslots (by simp)
  | arrayPat | objectPat | rest | assignPat | assignPatProp | declarator | keyValuePat | parameter
  | parameterProperty | varDecl | usingDecl | classDecl | functionDecl => cases hslots (by simp)
  | _ =>
      rcases h with (h | h) | h
      · cases h
      · cases h
      · cases h

end

/-! ### Around the place of a loop -/

theorem Node.exists_mem_partScopes {node part : Node} (h : part ∈ node.parts) :
    ∃ names, (part, names) ∈ node.partScopes := by
  rw [← node.map_fst_partScopes] at h
  obtain ⟨⟨part, names⟩, hmem, rfl⟩ := List.mem_map.mp h
  exact ⟨names, hmem⟩

theorem Node.isQuiet_of_isCandidate {stmt : Node} (h : stmt.isCandidate = true) :
    stmt.isQuiet = false := by
  have hcategory := Node.category_of_isCandidate h
  have hlist : (stmt.form == .list) = false := by
    rw [beq_eq_false_iff_ne]
    intro e
    rw [e] at hcategory
    cases hcategory
  rw [Node.isQuiet, Node.allAre, hlist, hcategory]
  rfl

/-- A node around statements that is no member of a class. -/
structure Frame.Open (frame : Frame) : Prop where
  closure : frame.form.isClosure = false
  member : frame.form.category ≠ .member
  slots : frame.form ≠ .list → frame.form.shape.slots.all Slot.isQuiet = false

namespace Frame

variable {frame : Frame} {part : Node}

theorem Clear.open (h : frame.Clear) (hwf : (frame.around [part]).isWellFormed = true)
    (hkind : (frame.around [part]).allAre (·.isFreestanding) = true)
    (hquiet : part.isQuiet = false) :
    frame.Open := by
  refine ⟨h.closure, fun hmember => ?_, fun hform => ?_⟩
  · have hlist : frame.form ≠ .list := fun e => by
      rw [e] at hmember
      cases hmember
    rw [Node.allAre, if_neg (by simpa [Frame.around, Node.form] using hlist)] at hkind
    rw [show (frame.around [part]).form.category = .member from hmember] at hkind
    cases hkind
  · exact Node.slots_not_quiet hwf (by simp) hquiet hform

/-- What stands in the gap of a frame is no member of a class. -/
theorem Open.isFreestanding (h : frame.Open) (hwf : (frame.around [part]).isWellFormed = true)
    (hkind : (frame.around [part]).allAre (·.isFreestanding) = true) :
    part.allAre (·.isFreestanding) = true := by
  refine Node.allAre_part rfl rfl hwf hkind
    (fun _ => Form.isFreestanding_slots fun e => ?_) (by simp)
  have hblock := Form.boundary_bne_block frame.form
  rw [h.closure, e] at hblock
  cases hblock

theorem Open.ne_functionExpr (h : frame.Open) (own : Option Name) :
    frame.form ≠ .functionExpr own := by
  intro e
  have hslots := h.slots (by simp [e])
  rw [e] at hslots
  cases hslots

/-- What a frame introduces or binds comes from what is around the gap, or from the gap. -/
theorem Open.shows (h : frame.Open) {nodes nodes' originals : List Node} {name : String}
    (hwf : ∀ part ∈ frame.before ++ frame.after, part.isWellFormed = true)
    (hcandidate : (frame.around nodes').isCandidate = false)
    (hgap : ∀ node ∈ nodes, name ∈ node.introduced →
      (∃ original ∈ originals, name ∈ original.names) ∧ ∃ node' ∈ nodes',
      node'.mentions name = true)
    (hname : name ∈ (frame.around nodes).introduced ∨ name ∈ (frame.around nodes).bound true) :
    name ∈ (frame.around originals).names ∧ (frame.around nodes').mentions name = true := by
  have hmentions : ∀ {part}, part ∈ frame.before ++ nodes' ++ frame.after →
      part.mentions name = true →
      (frame.around nodes').mentions name = true :=
    Node.mentions_of_part h.closure hcandidate h.ne_functionExpr
  obtain ⟨part, hmem, hpart⟩ := Node.exists_introduced h.closure h.slots hname
  have haround : part ∈ frame.before ++ frame.after →
      name ∈ (frame.around originals).names ∧ (frame.around nodes').mentions name = true := by
    intro hmem
    refine ⟨Node.names_subset_of_mem ?_ (part.introduced_subset hpart), hmentions ?_
      (Node.mentions_of_mem_introduced (hwf part hmem) hpart)⟩
    · grind
    · grind
  rcases List.mem_append.mp hmem with hmem | hmem
  · rcases List.mem_append.mp hmem with hmem | hmem
    · exact haround (List.mem_append_left _ hmem)
    · obtain ⟨⟨original, horiginal, hnames⟩, node', hnode', hmentioned⟩ := hgap part hmem hpart
      exact ⟨Node.names_subset_of_mem (by simp [horiginal]) hnames,
        hmentions (by simp [hnode']) hmentioned⟩
  · exact haround (List.mem_append_right _ hmem)

end Frame

/-- Statements stand in a place for them in a scope that binds nothing, or in none. -/
theorem Form.exists_lies_standing (form : Form) {replacement : List Node} {node : Node}
    (hsilent : ∀ node ∈ replacement, node.introduced = []) (hmem : node ∈ replacement) :
    ∃ part ∈ form.standing replacement, ∃ around, node.LiesUnder around part ∧
      ∀ scope ∈ around, scope = [] := by
  unfold Form.standing
  split
  · exact ⟨node, hmem, [], .here, fun scope hscope => absurd hscope List.not_mem_nil⟩
  · have hblock : (node, blockNames replacement) ∈ (Node.block .generated replacement).partScopes :=
      List.mem_map.mpr ⟨node, hmem, rfl⟩
    refine ⟨_, List.mem_cons_self, _, .inside hblock .here, List.forall_mem_singleton.mpr ?_⟩
    refine List.eq_nil_iff_forall_not_mem.mpr fun name hname => ?_
    obtain ⟨other, hother, hname⟩ := List.mem_flatMap.mp (blockNames_subset_declared _ hname)
    have hintroduced : name ∈ other.introduced := List.mem_append_left _ hname
    rw [hsilent other hother] at hintroduced
    cases hintroduced

namespace Opening

/-- The place is that of the first loop of a region. -/
structure Leads (opening : Opening) (stmt : Node) : Prop where
  first : opening.IsFirst
  candidate : stmt.isCandidate = true
  wellFormed : (opening.fill [stmt]).isWellFormed = true
  freestanding : (opening.fill [stmt]).allAre (·.isFreestanding) = true
  outside : (opening.fill [stmt]).isCandidate = false

variable {frame : Frame} {opening : Opening} {stmt : Node} {replacement : List Node}

theorem Leads.isQuiet_eq_false (hfirst : opening.IsFirst) (hcandidate : stmt.isCandidate = true)
    (hwf : (opening.fill [stmt]).isWellFormed = true) : (opening.fill [stmt]).isQuiet = false := by
  induction opening with
  | here frame =>
      by_contra hquiet
      have hstmt : stmt.isQuiet = true :=
        Node.isQuiet_part hwf (Bool.not_eq_false _ ▸ hquiet) hfirst.closure (by simp)
      rw [Node.isQuiet_of_isCandidate hcandidate] at hstmt
      cases hstmt
  | inside frame opening ih =>
      by_contra hquiet
      have hpart : (opening.fill [stmt]).isQuiet = true :=
        Node.isQuiet_part hwf (Bool.not_eq_false _ ▸ hquiet) hfirst.1.closure (by simp)
      rw [ih hfirst.2.1 (Node.isWellFormed_part hwf (by simp))] at hpart
      cases hpart

theorem Leads.isOpen_here (h : (here frame).Leads stmt) : frame.Open :=
  h.first.open h.wellFormed h.freestanding (Node.isQuiet_of_isCandidate h.candidate)

theorem Leads.isOpen_inside (h : (inside frame opening).Leads stmt) : frame.Open :=
  h.first.1.open h.wellFormed h.freestanding
    (isQuiet_eq_false h.first.2.1 h.candidate (Node.isWellFormed_part h.wellFormed (by simp)))

theorem Leads.inner (h : (inside frame opening).Leads stmt) : opening.Leads stmt where
  first := h.first.2.1
  candidate := h.candidate
  wellFormed := Node.isWellFormed_part h.wellFormed (by simp)
  freestanding := h.isOpen_inside.isFreestanding h.wellFormed h.freestanding
  outside := h.first.2.2 stmt h.candidate

/-- The region names the name, and not only in the loop. -/
def Shows (opening : Opening) (stmt : Node) (name : String) : Prop :=
  name ∈ (opening.fill [stmt]).names ∧
    (opening.fill (opening.holder.form.standing [])).mentions name = true

theorem Leads.standing (h : opening.Leads stmt) :
    (opening.fill (opening.holder.form.standing [])).isCandidate = false :=
  Node.isCandidate_of_splice? h.outside (h.first.splice?_fill h.candidate [])

/-- What a region introduces or binds it shows, if what takes the place of the loop introduces
nothing. -/
theorem Leads.shows (h : opening.Leads stmt) (hsilent : ∀ node ∈ replacement, node.introduced = [])
    {name : String}
    (hname : name ∈ (opening.fill (opening.holder.form.standing replacement)).introduced ∨
      name ∈ (opening.fill (opening.holder.form.standing replacement)).bound true) :
    opening.Shows stmt name := by
  have hparts : ∀ {frame : Frame} {part : Node}, (frame.around [part]).isWellFormed = true →
      ∀ other ∈ frame.before ++ frame.after, other.isWellFormed = true := by
    intro frame part hwf other hmem
    exact Node.isWellFormed_part hwf (by grind)
  induction opening with
  | here frame =>
      refine h.isOpen_here.shows (hparts h.wellFormed) h.standing (fun node hmem hnode => ?_) hname
      have hnone : node.introduced = [] := by
        change node ∈ frame.form.standing replacement at hmem
        unfold Form.standing at hmem
        split at hmem
        · exact hsilent node hmem
        · rw [List.mem_singleton.mp hmem]
          rfl
      rw [hnone] at hnode
      cases hnode
  | inside frame opening ih =>
      refine h.isOpen_inside.shows (hparts h.wellFormed) h.standing
        (fun node hmem hnode => ?_) hname
      obtain rfl := List.mem_singleton.mp hmem
      obtain ⟨hnames, hmentions⟩ := ih h.inner (Or.inl hnode)
      exact ⟨⟨_, List.mem_cons_self, hnames⟩, _, List.mem_cons_self, hmentions⟩

/-- No scope around the statements that take the place of a loop binds what the region does not
show. -/
theorem Leads.exists_lies (h : opening.Leads stmt)
    (hsilent : ∀ node ∈ replacement, node.introduced = [])
    (hwf : (opening.fill (opening.holder.form.standing replacement)).isWellFormed = true)
    {node : Node} (hmem : node ∈ replacement) :
    ∃ around, node.LiesUnder around (opening.fill (opening.holder.form.standing replacement)) ∧
      ∀ scope ∈ around, ∀ name ∈ scope, opening.Shows stmt name := by
  induction opening with
  | here frame =>
      have hopen := h.isOpen_here
      obtain ⟨part, hpart, around, hlies, hempty⟩ := frame.form.exists_lies_standing hsilent hmem
      have hgap : part ∈ (frame.around (frame.form.standing replacement)).parts :=
        List.mem_append_left _ (List.mem_append_right _ hpart)
      obtain ⟨names, hpart⟩ := Node.exists_mem_partScopes hgap
      refine ⟨around ++ [names], .inside hpart hlies, List.forall_mem_append.mpr
        ⟨fun scope hmem name hname => ?_, List.forall_mem_singleton.mpr fun name hname => ?_⟩⟩
      · rw [hempty scope hmem] at hname
        cases hname
      · exact h.shows hsilent
          (Or.inr (Node.mem_bound_of_mem_partScopes hwf hopen.closure hopen.member
            hopen.slots hpart hname))
  | inside frame opening ih =>
      have hopen := h.isOpen_inside
      have hgap : ∀ nodes, opening.fill nodes ∈ ((inside frame opening).fill nodes).parts :=
        fun nodes =>
        List.mem_append_left _ (List.mem_append_right _ List.mem_cons_self)
      obtain ⟨around, hlies, hshows⟩ := ih h.inner (Node.isWellFormed_part hwf (hgap _))
      obtain ⟨names, hpart⟩ := Node.exists_mem_partScopes (hgap _)
      refine ⟨around ++ [names], .inside hpart hlies, List.forall_mem_append.mpr
        ⟨fun scope hmem name hname => ?_, List.forall_mem_singleton.mpr fun name hname => ?_⟩⟩
      · obtain ⟨hnames, hmentions⟩ := hshows scope hmem name hname
        exact ⟨Node.names_subset_of_mem (hgap _) hnames,
          Node.mentions_of_part hopen.closure h.standing hopen.ne_functionExpr (hgap _) hmentions⟩
      · exact h.shows hsilent
          (Or.inr (Node.mem_bound_of_mem_partScopes hwf hopen.closure hopen.member
            hopen.slots hpart hname))

end Opening

end LoopLowering
