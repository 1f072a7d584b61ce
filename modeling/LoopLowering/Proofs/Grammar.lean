/-
What can stand where in a tree.

A rewriting step is harmless to a tree if every node it puts somewhere can stand there.
`Node.Fits` says so of two trees: the second can stand in every place the first can, is
well formed, and shows the same landmarks.  It is kept by building equal nodes from parts
that fit for each other, so a step has to be checked only where it changes a node itself.
`Node.Stands` adds what is needed in the head of a loop.

Statements occur in few places.  A quiet category is one whose nodes hold statements only
inside closures; expressions, patterns and types are quiet, and so are `let`, `const` and
`var` declarations.
-/
import LoopLowering.Proofs.Landmarks
import LoopLowering.Tree.Grammar

namespace LoopLowering

/-! ### Slots -/

/-- The categories a slot is made for. -/
def Slot.categories : Slot → List Category
  | one categories | optional categories | many categories | optionalMany categories => categories

/-- The slots of a shape. -/
def Shape.slots : Shape → List Slot
  | fixed slots => slots
  | repeated slot => [slot]

theorem exists_of_fillSlots_cons {slot : Slot} {slots : List Slot} {parts : List Node}
    (h : fillSlots (slot :: slots) parts = true) :
    ∃ part rest, parts = part :: rest ∧ slot.admits part = true ∧ fillSlots slots rest = true := by
  cases parts with
  | nil => cases h
  | cons part rest =>
      rw [fillSlots, Bool.and_eq_true] at h
      exact ⟨part, rest, rfl, h⟩

theorem eq_nil_of_fillSlots_nil {parts : List Node} (h : fillSlots [] parts = true) :
    parts = [] := by
  cases parts with
  | nil => rfl
  | cons => cases h

theorem length_of_fillSlots {slots : List Slot} {parts : List Node}
    (h : fillSlots slots parts = true) : parts.length = slots.length := by
  induction slots generalizing parts with
  | nil => rw [eq_nil_of_fillSlots_nil h, List.length_nil, List.length_nil]
  | cons slot slots ih =>
      obtain ⟨part, rest, rfl, -, hrest⟩ := exists_of_fillSlots_cons h
      rw [List.length_cons, List.length_cons, ih hrest]

theorem fillSlots_of_forall₂ {slots : List Slot} :
    ∀ {parts parts' : List Node},
      List.Forall₂ (fun a b => ∀ slot ∈ slots, slot.admits a = true → slot.admits b = true)
        parts parts' →
      fillSlots slots parts = true → fillSlots slots parts' = true := by
  induction slots with
  | nil =>
      intro parts parts' h hfill
      cases h with
      | nil => rfl
      | cons => cases hfill
  | cons slot slots ih =>
      intro parts parts' h hfill
      cases h with
      | nil => exact hfill
      | cons hhead htail =>
          rw [fillSlots, Bool.and_eq_true] at hfill ⊢
          exact ⟨hhead slot List.mem_cons_self hfill.1,
            ih (htail.imp fun _ _ himp s hs => himp s (List.mem_cons_of_mem slot hs)) hfill.2⟩

theorem Shape.admits_of_forall₂ {shape : Shape} {parts parts' : List Node}
    (h : List.Forall₂ (fun a b => ∀ slot ∈ shape.slots, slot.admits a = true → slot.admits b = true)
      parts parts') (hadmits : shape.admits parts = true) : shape.admits parts' = true := by
  cases shape with
  | fixed slots => exact fillSlots_of_forall₂ h hadmits
  | repeated slot =>
      induction h with
      | nil => rfl
      | cons hhead _ ih =>
          rw [Shape.admits, List.all_cons, Bool.and_eq_true] at hadmits ⊢
          exact ⟨hhead slot List.mem_cons_self hadmits.1, ih hadmits.2⟩

/-- A single node fits a slot by its category. -/
theorem Slot.admits_of_category {slot : Slot} {a b : Node} (hlist : a.form ≠ .list)
    (habsent : a.form ≠ .absent)
    (h : a.form.category ∈ slot.categories → b.form.category ∈ slot.categories)
    (hadmits : slot.admits a = true) : slot.admits b = true := by
  have hnotList : (a.form == .list) = false := by simpa using hlist
  have hnotAbsent : a.isAbsent = false := by simpa [Node.isAbsent] using habsent
  cases slot with
  | one categories =>
      have hmem : a.form.category ∈ categories := by simpa [Slot.admits] using hadmits
      have hb : b.form.category ∈ categories := h hmem
      simp [Slot.admits, hb]
  | optional categories =>
      have hmem : a.form.category ∈ categories := by simpa [Slot.admits, hnotAbsent] using hadmits
      have hb : b.form.category ∈ categories := h hmem
      simp [Slot.admits, hb]
  | many categories => simp [Slot.admits, Node.isListOf, hnotList] at hadmits
  | optionalMany categories =>
      simp [Slot.admits, Node.isListOf, hnotList, hnotAbsent] at hadmits

/-! ### Well-formed nodes -/

theorem areWellFormed_iff {nodes : List Node} :
    areWellFormed nodes = true ↔ ∀ node ∈ nodes, node.isWellFormed = true := by
  induction nodes with
  | nil => simp [areWellFormed]
  | cons node nodes ih => rw [areWellFormed, Bool.and_eq_true, ih, List.forall_mem_cons]

theorem Node.isWellFormed_mk {form : Form} {span : Span} {parts : List Node} :
    (Node.mk form span parts).isWellFormed = true ↔
      (form = .list ∨ form.shape.admits parts = true) ∧
        ∀ part ∈ parts, part.isWellFormed = true := by
  rw [Node.isWellFormed, Bool.and_eq_true, Bool.or_eq_true, beq_iff_eq, areWellFormed_iff]

/-- A node has as many parts as its form has slots. -/
theorem Node.length_parts {form : Form} {span : Span} {parts : List Node} {slots : List Slot}
    (hwf : (Node.mk form span parts).isWellFormed = true) (hform : form ≠ .list)
    (hshape : form.shape = .fixed slots) : parts.length = slots.length := by
  have hadmits := (Node.isWellFormed_mk.mp hwf).1.resolve_left hform
  rw [hshape] at hadmits
  exact length_of_fillSlots hadmits

theorem Node.isWellFormed_part {form : Form} {span : Span} {parts : List Node} {part : Node}
    (h : (Node.mk form span parts).isWellFormed = true) (hmem : part ∈ parts) :
    part.isWellFormed = true :=
  (Node.isWellFormed_mk.mp h).2 part hmem

theorem Node.Within.isWellFormed {node tree : Node} (h : node.Within tree)
    (hwf : tree.isWellFormed = true) : node.isWellFormed = true := by
  induction h with
  | self => exact hwf
  | part hmem _ ih => exact ih (Node.isWellFormed_part hwf hmem)

/-- A node of a form without parts has none. -/
theorem Node.parts_eq_nil {form : Form} {span : Span} {parts : List Node}
    (hshape : form.shape = .fixed []) (hform : form ≠ .list)
    (hwf : (Node.mk form span parts).isWellFormed = true) : parts = [] := by
  have hadmits := (Node.isWellFormed_mk.mp hwf).1.resolve_left hform
  rw [hshape] at hadmits
  exact eq_nil_of_fillSlots_nil hadmits

theorem Node.category_of_isLexicalDecl {node : Node} (h : node.isLexicalDecl = true) :
    node.form.category = .varDecl := by
  obtain ⟨constant, declare, span, ds, rfl⟩ := Node.isLexicalDecl_iff.mp h
  rfl

theorem Node.tally_of_isAbsent {node : Node} (hwf : node.isWellFormed = true)
    (h : node.isAbsent = true) (gauge : Gauge) : node.tally gauge = 0 := by
  obtain ⟨form, span, parts⟩ := node
  have hform : form = .absent := by simpa [Node.isAbsent, Node.form] using h
  subst hform
  rw [Node.parts_eq_nil rfl (by simp) hwf]
  exact Node.tally_of_plain rfl

/-! ### Standing for a node -/

/-- `b` can stand among the parts of a node of the given forms wherever `a` can. -/
structure Node.FitsIn (places : Form → Bool) (a b : Node) : Prop where
  category : ∀ form, places form = true → ∀ slot ∈ form.shape.slots,
    a.form.category ∈ slot.categories → b.form.category ∈ slot.categories
  slot : ∀ form, places form = true → ∀ slot ∈ form.shape.slots,
    slot.admits a = true → slot.admits b = true
  wellFormed : b.isWellFormed = true

/-- `b` can take the place of `a` in any tree, and the loops and regions in it are those of
`a`. -/
structure Node.Fits (a b : Node) : Prop extends Node.FitsIn (fun _ => true) a b where
  tally : ∀ gauge : Gauge, b.tally gauge = a.tally gauge

/-- `b` fits where `a` does, and is a `let` or `const` if `a` is, so that it makes the same
loop when it stands in the head of one. -/
structure Node.Stands (a b : Node) : Prop extends Node.Fits a b where
  lexical : b.isLexicalDecl = a.isLexicalDecl

namespace Node.FitsIn

variable {places : Form → Bool}

theorem refl {node : Node} (h : node.isWellFormed = true) : node.FitsIn places node :=
  ⟨fun _ _ _ _ => id, fun _ _ _ _ => id, h⟩

theorem trans {a b c : Node} (hab : a.FitsIn places b) (hbc : b.FitsIn places c) :
    a.FitsIn places c where
  category form h slot hslot := hbc.category form h slot hslot ∘ hab.category form h slot hslot
  slot form h slot hslot := hbc.slot form h slot hslot ∘ hab.slot form h slot hslot
  wellFormed := hbc.wellFormed

/-- A node fits for a single node of a category that admits its own. -/
theorem of_category {a b : Node} (hlist : a.form ≠ .list) (habsent : a.form ≠ .absent)
    (hcategory : ∀ form, places form = true → ∀ slot ∈ form.shape.slots,
      a.form.category ∈ slot.categories → b.form.category ∈ slot.categories)
    (hwf : b.isWellFormed = true) : a.FitsIn places b :=
  ⟨hcategory, fun form hplace slot hslot =>
    Slot.admits_of_category hlist habsent (hcategory form hplace slot hslot), hwf⟩

/-- A list of trees fits for another if each tree fits for its counterpart. -/
theorem admits_list {slot : Slot} {form : Form} (hplace : places form = true)
    (hslot : slot ∈ form.shape.slots) {span span' : Span} {parts parts' : List Node}
    (hparts : List.Forall₂ (Node.FitsIn places) parts parts')
    (h : slot.admits (.mk .list span parts) = true) :
    slot.admits (.mk .list span' parts') = true := by
  have hall : ∀ categories, categories = slot.categories →
      parts.all (categories.contains ·.form.category) = true →
      parts'.all (categories.contains ·.form.category) = true := by
    rintro categories rfl
    clear h
    induction hparts with
    | nil => exact id
    | cons hhead _ ih =>
        intro h
        rw [List.all_cons, Bool.and_eq_true, List.contains_iff_mem] at h ⊢
        exact ⟨hhead.category form hplace slot hslot h.1, ih h.2⟩
  cases slot with
  | one categories => exact h
  | optional categories => exact h
  | many categories =>
      simp only [Slot.admits, Node.isListOf, Node.form, Node.parts, Bool.and_eq_true] at h ⊢
      exact ⟨h.1, hall _ rfl h.2⟩
  | optionalMany categories =>
      simp only [Slot.admits, Node.isListOf, Node.isAbsent, Node.form, Node.parts,
        Bool.or_eq_true, Bool.and_eq_true] at h ⊢
      exact h.imp id fun h => ⟨h.1, hall _ rfl h.2⟩

theorem wellFormed_of_forall₂ {nodes others : List Node}
    (h : List.Forall₂ (Node.FitsIn places) nodes others) :
    ∀ other ∈ others, other.isWellFormed = true := by
  induction h with
  | nil => simp
  | cons hhead _ ih => exact List.forall_mem_cons.mpr ⟨hhead.wellFormed, ih⟩

/-- The same node around parts that fit for its parts. -/
theorem node {form : Form} (hplace : places form = true) {span : Span} {parts parts' : List Node}
    (hwf : (Node.mk form span parts).isWellFormed = true)
    (hparts : List.Forall₂ (Node.FitsIn places) parts parts') :
    (Node.mk form span parts).FitsIn places (.mk form span parts') where
  category _ _ _ _ := id
  slot owner howner slot hslot h := by
    by_cases hform : form = .list
    · subst hform
      exact admits_list howner hslot hparts h
    by_cases habsent : form = .absent
    · subst habsent
      cases slot with
      | one categories => exact h
      | optional categories => exact h
      | many categories => simp [Slot.admits, Node.isListOf, Node.form] at h
      | optionalMany categories => rfl
    · exact Slot.admits_of_category (a := .mk form span parts) hform habsent id h
  wellFormed := by
    obtain ⟨hshape, -⟩ := Node.isWellFormed_mk.mp hwf
    refine Node.isWellFormed_mk.mpr ⟨hshape.imp id fun h => ?_, wellFormed_of_forall₂ hparts⟩
    exact Shape.admits_of_forall₂ (hparts.imp fun _ _ hs => hs.slot form hplace) h

end Node.FitsIn

namespace Node.Fits

theorem refl {node : Node} (h : node.isWellFormed = true) : node.Fits node :=
  ⟨.refl h, fun _ => rfl⟩

theorem trans {a b c : Node} (hab : a.Fits b) (hbc : b.Fits c) : a.Fits c :=
  ⟨hab.toFitsIn.trans hbc.toFitsIn, fun gauge => (hbc.tally gauge).trans (hab.tally gauge)⟩

/-- A node fits for a single node of the same category. -/
theorem of_category {a b : Node} (hlist : a.form ≠ .list) (habsent : a.form ≠ .absent)
    (hcategory : b.form.category = a.form.category) (hwf : b.isWellFormed = true)
    (htally : ∀ gauge : Gauge, b.tally gauge = a.tally gauge) : a.Fits b :=
  ⟨.of_category hlist habsent (fun _ _ _ _ h => hcategory ▸ h) hwf, htally⟩

/-- The same node around parts that fit for its parts.  In a loop they have to agree on
what is a `let` or `const`. -/
theorem node {form : Form} {span : Span} {parts parts' : List Node}
    (hwf : (Node.mk form span parts).isWellFormed = true)
    (hparts : List.Forall₂ Node.Fits parts parts')
    (hmark : (Node.mk form span parts').landmark = (Node.mk form span parts).landmark) :
    (Node.mk form span parts).Fits (.mk form span parts') :=
  ⟨.node rfl hwf (hparts.imp fun _ _ hs => hs.toFitsIn), fun gauge =>
    Node.tally_congr hmark (tallyIn_eq_of_forall₂ (hparts.imp fun _ _ hs => hs.tally gauge))⟩

theorem wellFormed_of_forall₂ {nodes others : List Node} (h : List.Forall₂ Node.Fits nodes others) :
    ∀ other ∈ others, other.isWellFormed = true :=
  FitsIn.wellFormed_of_forall₂ (h.imp fun _ _ hs => hs.toFitsIn)

theorem tallyIn_of_forall₂ {nodes others : List Node} (h : List.Forall₂ Node.Fits nodes others)
    (gauge : Gauge) : tallyIn gauge others = tallyIn gauge nodes :=
  tallyIn_eq_of_forall₂ (h.imp fun _ _ hs => hs.tally gauge)

theorem forall₂_trans {nodes others more : List Node} (h : List.Forall₂ Node.Fits nodes others)
    (h' : List.Forall₂ Node.Fits others more) : List.Forall₂ Node.Fits nodes more := by
  induction h generalizing more with
  | nil => exact h'
  | cons hhead _ ih =>
      cases h' with
      | cons hhead' htail' => exact .cons (hhead.trans hhead') (ih htail')

end Node.Fits

namespace Node.Stands

theorem refl {node : Node} (h : node.isWellFormed = true) : node.Stands node :=
  ⟨.refl h, rfl⟩

theorem trans {a b c : Node} (hab : a.Stands b) (hbc : b.Stands c) : a.Stands c :=
  ⟨hab.toFits.trans hbc.toFits, hbc.lexical.trans hab.lexical⟩

/-- The same node around parts that stand for its parts. -/
theorem node {form : Form} {span : Span} {parts parts' : List Node}
    (hwf : (Node.mk form span parts).isWellFormed = true)
    (hparts : List.Forall₂ Node.Stands parts parts') :
    (Node.mk form span parts).Stands (.mk form span parts') :=
  ⟨.node hwf (hparts.imp fun _ _ hs => hs.toFits)
    (Node.landmark_congr (hparts.imp fun _ _ hs => hs.lexical)), rfl⟩

/-- The same node around mapped parts. -/
theorem node_map {form : Form} {span : Span} {parts : List Node} {f : Node → Node}
    (hwf : (Node.mk form span parts).isWellFormed = true)
    (hparts : ∀ part ∈ parts, part.Stands (f part)) :
    (Node.mk form span parts).Stands (.mk form span (parts.map f)) :=
  node hwf (List.forall₂_map_right_iff.mpr (List.forall₂_same.mpr hparts))

end Node.Stands

/-! ### Quiet nodes -/

/-- Whether the nodes of a category hold statements inside closures only.  Of a list
nothing is known. -/
def Category.isQuiet : Category → Bool
  | list | block | stmt | decl | item | program | moduleBlock | switchCase | caseBody
  | catchClause | member => false
  | _ => true

/-- Whether a node, or each node of a list, belongs to a category of some kind. -/
def Node.allAre (kind : Category → Bool) (node : Node) : Bool :=
  if node.form == .list then node.parts.all (kind ·.form.category)
  else kind node.form.category

/-- A node in a slot made for one kind of node is of that kind. -/
theorem Slot.allAre_of_admits {kind : Category → Bool} (habsent : kind .absent = true)
    {slot : Slot} {node : Node} (hslot : slot.categories.all kind = true)
    (hlist : Category.list ∉ slot.categories) (h : slot.admits node = true) :
    node.allAre kind = true := by
  rw [List.all_eq_true] at hslot
  have hlisted : ∀ categories, categories = slot.categories →
      node.isListOf categories = true → node.allAre kind = true := by
    rintro categories rfl h
    rw [Node.isListOf, Bool.and_eq_true] at h
    rw [Node.allAre, if_pos h.1, List.all_eq_true]
    intro part hpart
    have hmem := List.all_eq_true.mp h.2 part hpart
    exact hslot _ (List.contains_iff_mem.mp hmem)
  have hsingle : node.form.category ∈ slot.categories → node.allAre kind = true := by
    intro hmem
    have hform : (node.form == .list) = false := by
      rw [beq_eq_false_iff_ne]
      intro e
      rw [e] at hmem
      exact hlist hmem
    rw [Node.allAre, hform]
    exact hslot _ hmem
  have hgone : node.isAbsent = true → node.allAre kind = true := by
    intro e
    have hform : node.form = .absent := by simpa [Node.isAbsent] using e
    rw [Node.allAre, hform]
    exact habsent
  cases slot with
  | one categories => exact hsingle (List.contains_iff_mem.mp h)
  | optional categories =>
      rw [Slot.admits, Bool.or_eq_true] at h
      exact h.elim hgone fun h => hsingle (List.contains_iff_mem.mp h)
  | many categories => exact hlisted _ rfl h
  | optionalMany categories =>
      rw [Slot.admits, Bool.or_eq_true] at h
      exact h.elim hgone (hlisted _ rfl)

theorem exists_slot_of_fillSlots {part : Node} :
    ∀ {slots : List Slot} {parts : List Node}, fillSlots slots parts = true → part ∈ parts →
      ∃ slot ∈ slots, slot.admits part = true := by
  intro slots
  induction slots with
  | nil =>
      intro parts hfill hmem
      cases parts with
      | nil => exact absurd hmem List.not_mem_nil
      | cons => cases hfill
  | cons slot slots ih =>
      intro parts hfill hmem
      cases parts with
      | nil => exact absurd hmem List.not_mem_nil
      | cons first rest =>
          rw [fillSlots, Bool.and_eq_true] at hfill
          rcases List.mem_cons.mp hmem with rfl | hrest
          · exact ⟨slot, List.mem_cons_self, hfill.1⟩
          · obtain ⟨other, hother, hadmits⟩ := ih hfill.2 hrest
            exact ⟨other, List.mem_cons_of_mem slot hother, hadmits⟩

/-- Every part of a node stands in one of the slots of its form. -/
theorem Shape.exists_slot {shape : Shape} {parts : List Node} {part : Node}
    (h : shape.admits parts = true) (hmem : part ∈ parts) :
    ∃ slot ∈ shape.slots, slot.admits part = true := by
  cases shape with
  | fixed slots => exact exists_slot_of_fillSlots h hmem
  | repeated slot => exact ⟨slot, List.mem_cons_self, List.all_eq_true.mp h part hmem⟩

/-- Lists are put into slots by what they hold, never by their own category. -/
theorem Form.list_not_mem_slots (form : Form) :
    form.shape.slots.all (!·.categories.contains .list) = true := by
  cases form with
  | ident role => cases role <;> rfl
  | _ => rfl

/-- The parts of a quiet node that is not a closure are quiet. -/
theorem Form.isQuiet_slots {form : Form} (hquiet : form.category.isQuiet = true)
    (hclosure : form.isClosure = false) :
    form.shape.slots.all (·.categories.all (·.isQuiet)) = true := by
  have htable : (!form.category.isQuiet || form.isClosure ||
      form.shape.slots.all (·.categories.all (·.isQuiet))) = true := by
    cases form with
    | ident role => cases role <;> rfl
    | _ => rfl
  rw [hquiet, hclosure] at htable
  exact htable

/-- The parts of a node are of a kind if its form says so of its slots; a list says so of
its parts itself. -/
theorem Node.allAre_part {kind : Category → Bool} (habsent : kind .absent = true)
    (hlist : kind .list = false) {form : Form} {span : Span} {parts : List Node} {part : Node}
    (hwf : (Node.mk form span parts).isWellFormed = true)
    (hkind : (Node.mk form span parts).allAre kind = true)
    (hslots : form ≠ .list → form.shape.slots.all (·.categories.all kind) = true)
    (hmem : part ∈ parts) : part.allAre kind = true := by
  by_cases hform : form = .list
  · subst hform
    have hpart : kind part.form.category = true := List.all_eq_true.mp hkind part hmem
    have hsingle : (part.form == .list) = false := by
      rw [beq_eq_false_iff_ne]
      intro e
      rw [e] at hpart
      exact Bool.false_ne_true (hlist.symm.trans hpart)
    rw [Node.allAre, hsingle]
    exact hpart
  · have hadmits := (Node.isWellFormed_mk.mp hwf).1.resolve_left hform
    obtain ⟨slot, hslot, hpart⟩ := Shape.exists_slot hadmits hmem
    refine Slot.allAre_of_admits habsent (List.all_eq_true.mp (hslots hform) slot hslot) ?_ hpart
    have hnot := List.all_eq_true.mp form.list_not_mem_slots slot hslot
    simpa using hnot

/-- A node is quiet if it holds statements inside closures only. -/
def Node.isQuiet (node : Node) : Bool := node.allAre (·.isQuiet)

theorem Node.isQuiet_part {form : Form} {span : Span} {parts : List Node} {part : Node}
    (hwf : (Node.mk form span parts).isWellFormed = true)
    (hquiet : (Node.mk form span parts).isQuiet = true) (hclosure : form.isClosure = false)
    (hmem : part ∈ parts) : part.isQuiet = true := by
  refine Node.allAre_part rfl rfl hwf hquiet (fun hform => ?_) hmem
  have hcategory : form.category.isQuiet = true := by
    rw [Node.isQuiet, Node.allAre, if_neg (by simpa [Node.form] using hform)] at hquiet
    exact hquiet
  exact Form.isQuiet_slots hcategory hclosure

/-- Types are made of types and titles. -/
theorem Node.category_part_of_type {form : Form} {span : Span} {parts : List Node} {part : Node}
    (hwf : (Node.mk form span parts).isWellFormed = true)
    (hcategory : form.category ∈ [.absent, .ascription, .type, .title]) (hmem : part ∈ parts) :
    part.form.category ∈ [.absent, .ascription, .type, .title] := by
  have hslots : form ≠ .list ∧ ∀ slot ∈ form.shape.slots, slot.admits part = true →
      part.form.category ∈ [.absent, .ascription, .type, .title] := by
    cases form with
    | absent | keywordType => exact ⟨by simp, by simp [Form.shape, Shape.slots]⟩
    | ascription | arrayType | typeReference =>
        refine ⟨by simp, ?_⟩
        simp +contextual [Form.shape, Shape.slots, Slot.admits]
    | ident role => cases role with
      | title => exact ⟨by simp, by simp [Form.shape, Shape.slots]⟩
      | _ => simp [Form.category] at hcategory
    | _ => simp [Form.category] at hcategory
  obtain ⟨slot, hslot, hadmits⟩ :=
    Shape.exists_slot ((Node.isWellFormed_mk.mp hwf).1.resolve_left hslots.1) hmem
  exact hslots.2 slot hslot hadmits

end LoopLowering
