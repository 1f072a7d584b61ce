/-
Moving statements about keeps the verdicts on loops.

Hoisting makes assignments of `var` declarations, and redirecting makes returns of jumps.  Both
stay outside closures, where a name tells nothing, so what has to be followed is what remains of
a declaration and where the jumps that are left go.

A declaration by a pattern cannot be hoisted; a loop whose body has one is refused before.  And
a loop over keys or values keeps nothing but the pattern of its head, which is all there is to
it in source text.
-/
import LoopLowering.Proofs.Alike
import LoopLowering.Proofs.Resolution

namespace LoopLowering

variable {judged : Bool}

/-! ### Statements around statements -/

/-- Whether the node looks at its first part: the head of a loop, the parameter of a handler. -/
def Form.readsFirst : Form → Bool
  | .catchClause | .forStmt | .forInStmt | .forOfStmt _ => true
  | _ => false

/-- What stands in front of a body is quiet. -/
theorem Node.exists_of_readsFirst {form : Form} {span : Span} {parts : List Node}
    (hwf : (Node.mk form span parts).isWellFormed = true) (hreads : form.readsFirst = true) :
    ∃ first rest, parts = first :: rest ∧ first.isWellFormed = true ∧ first.isQuiet = true := by
  obtain ⟨hadmits, hparts⟩ := Node.isWellFormed_mk.mp hwf
  have hquiet : ∀ {slot slots}, fillSlots (slot :: slots) parts = true → slot.isQuiet = true →
      ∃ first rest, parts = first :: rest ∧ first.isWellFormed = true ∧ first.isQuiet = true := by
    intro slot slots hfill hslot
    obtain ⟨first, rest, rfl, hfirst, -⟩ := exists_of_fillSlots_cons hfill
    rw [Slot.isQuiet, Bool.and_eq_true, Bool.not_eq_true'] at hslot
    exact ⟨first, rest, rfl, hparts first List.mem_cons_self,
      Slot.allAre_of_admits rfl hslot.1 (by simpa using hslot.2) hfirst⟩
  cases form with
  | catchClause | forStmt | forInStmt | forOfStmt =>
      exact hquiet (hadmits.resolve_left (by simp)) rfl
  | _ => cases hreads

/-- What a node that is no closure reads of its parts by itself: what stands in front of its body,
and what its statements declare. -/
theorem Node.reads_congr {form : Form} {span : Span} {parts parts' : List Node}
    (hclosure : form.isClosure = false)
    (hfirst : form.readsFirst = true → parts'.head? = parts.head?)
    (hblock : form = .block → lexicalNamesOf parts' = lexicalNamesOf parts) :
    (Node.mk form span parts').headIsBare = (Node.mk form span parts).headIsBare ∧
      (Node.mk form span parts').scopeNames = (Node.mk form span parts).scopeNames := by
  cases form with
  | block => exact ⟨rfl, hblock rfl⟩
  | catchClause | forStmt | forInStmt | forOfStmt =>
      match parts, parts', hfirst rfl with
      | [], [], _ => exact ⟨rfl, rfl⟩
      | first :: rest, first' :: rest', hsame =>
          cases hsame
          exact ⟨rfl, rfl⟩
  | functionExpr name => cases name <;> exact ⟨rfl, rfl⟩
  | function | arrow | classBody | constructor | getter | setter => cases hclosure
  | _ => exact ⟨rfl, rfl⟩

/-- What is left to see of a statement that is no declaration, if names stay as they are. -/
theorem Node.Keeps.stmt {pass : Pass} {form : Form} {span : Span} {parts parts' : List Node}
    (havoided : pass.avoided = []) (hclosure : form.isClosure = false)
    (hdecl : ∀ kind declare, form ≠ .varDecl kind declare)
    (hcovers : ∀ label ∈ (Node.mk form span parts).outerLabels, pass.Covers label)
    (hjumps : ∀ label ∈ form.jumpLabels, pass.keeps label = true)
    (hreads : (Node.mk form span parts').headIsBare = (Node.mk form span parts).headIsBare ∧
      (Node.mk form span parts').scopeNames = (Node.mk form span parts).scopeNames) :
    (Node.mk form span parts).Keeps judged pass (.mk form span parts') where
  enters _ := hclosure
  covers := hcovers
  jumps := hjumps
  head := hreads.1
  declares := by
    cases form with
    | varDecl => exact absurd rfl (hdecl _ _)
    | _ => rfl
  vars declare h := by
    cases h
    exact absurd rfl (hdecl _ _)
  scope _ := hreads.2
  avoids _ name hmem := by
    rw [havoided] at hmem
    cases hmem

/-! ### Nodes without statements -/

/-- Whether the nodes of a category hold no statement outside closures, and are none. -/
def Category.isStill (category : Category) : Bool := category.isQuiet && category != .varDecl

theorem Form.isStill_slots {form : Form} (hstill : form.category.isStill = true)
    (hclosure : form.isClosure = false) :
    form.shape.slots.all (·.categories.all (·.isStill)) = true := by
  have htable : (!form.category.isStill || form.isClosure ||
      form.shape.slots.all (·.categories.all (·.isStill))) = true := by
    cases form with
    | ident role => cases role <;> rfl
    | _ => rfl
  rw [hstill, hclosure] at htable
  exact htable

/-- Hoisting changes nothing where there are no statements. -/
theorem Node.hoist_of_isStill {node : Node} (hwf : node.isWellFormed = true)
    (hstill : node.allAre (·.isStill) = true) : node.hoist = node := by
  induction node using Node.inductionOn with
  | step form span parts ih =>
      have hcategory : form ≠ .list → form.category.isStill = true := by
        intro hform
        rw [Node.allAre, if_neg (by simpa [Node.form] using hform)] at hstill
        exact hstill
      cases hclosure : form.isClosure with
      | true =>
          unfold Node.hoist
          rw [if_pos hclosure]
      | false =>
          have hparts : hoistIn parts = parts := by
            rw [hoistIn_eq_map]
            calc parts.map Node.hoist
                _ = parts.map id := List.map_congr_left fun part hmem =>
                    ih part hmem (Node.isWellFormed_part hwf hmem)
                      (Node.allAre_part rfl rfl hwf hstill
                        (fun hform => Form.isStill_slots (hcategory hform) hclosure) hmem)
                _ = parts := List.map_id parts
          unfold Node.hoist
          rw [hclosure]
          simp only [Bool.false_eq_true, if_false]
          split
          · cases hcategory (by simp)
          · cases hcategory (by simp)
          · cases hcategory (by simp)
          · cases hcategory (by simp)
          · cases hcategory (by simp)
          · have hholds : form.holdsStmts = false := by
              cases form with
              | block | caseBody => cases hcategory (by simp)
              | _ => rfl
            rw [hholds, hparts]
            rfl

theorem Slot.hoist_of_admits {slot : Slot} {node : Node}
    (hslot : slot.categories.all (·.isStill) = true) (hlist : Category.list ∉ slot.categories)
    (hadmits : slot.admits node = true) (hwf : node.isWellFormed = true) : node.hoist = node :=
  Node.hoist_of_isStill hwf (Slot.allAre_of_admits rfl hslot hlist hadmits)

/-- Hoisting changes nothing in a node whose slots are for nodes without statements. -/
theorem Node.hoist_of_isStill_slots {form : Form} {span : Span} {parts : List Node}
    (hwf : (Node.mk form span parts).isWellFormed = true) (hform : form ≠ .list)
    (hslots : form.shape.slots.all (·.categories.all (·.isStill)) = true) :
    ∀ part ∈ parts, part.hoist = part := by
  intro part hmem
  obtain ⟨slot, hslot, hadmits⟩ :=
    Shape.exists_slot ((Node.isWellFormed_mk.mp hwf).1.resolve_left hform) hmem
  refine Slot.hoist_of_admits (List.all_eq_true.mp hslots slot hslot) ?_ hadmits
    (Node.isWellFormed_part hwf hmem)
  simpa using List.all_eq_true.mp form.list_not_mem_slots slot hslot

theorem Node.hoist_lexicalDecl {constant declare : Bool} {span : Span} {declarators : List Node}
    (hwf : (Node.varDecl (.lexical constant) declare span declarators).isWellFormed = true) :
    (Node.varDecl (.lexical constant) declare span declarators).hoist =
      .varDecl (.lexical constant) declare span declarators := by
  have hparts := Node.hoist_of_isStill_slots hwf (by simp) rfl
  unfold Node.hoist
  rw [if_neg (by simp [Form.isClosure])]
  simp only [Form.holdsStmts, Bool.false_eq_true, if_false, hoistIn_eq_map]
  rw [List.map_congr_left hparts, List.map_id']

/-- Whether statements of the form may declare a name in the block around them. -/
def Form.declaresInBlock : Form → Bool
  | .varDecl (.lexical _) _ | .functionDecl _ | .classDecl _ => true
  | _ => false

theorem Node.lexicalNames_eq_nil {node : Node} (h : node.form.declaresInBlock = false) :
    node.lexicalNames = [] := by
  obtain ⟨form, span, parts⟩ := node
  cases form with
  | varDecl kind => cases kind with
    | var => rfl
    | lexical => cases h
  | functionDecl | classDecl => cases h
  | _ => rfl

/-- The second statement declares in the block around it what the first does: one that declares
names there stays as it is, and no other becomes one. -/
structure Node.DeclaresAs (a b : Node) : Prop where
  same : a.form.declaresInBlock = true → b = a
  other : a.form.declaresInBlock = false → b.form.declaresInBlock = false

/-- What is read off the statements that declare names in a block stays as it is. -/
theorem Node.DeclaresAs.read {a b : Node} (h : a.DeclaresAs b) {read : Node → List String}
    (hread : ∀ node : Node, node.form.declaresInBlock = false → read node = []) :
    read b = read a := by
  cases hform : a.form.declaresInBlock with
  | true => rw [h.same hform]
  | false => rw [hread a hform, hread b (h.other hform)]

theorem Node.DeclaresAs.lexicalNames {a b : Node} (h : a.DeclaresAs b) :
    b.lexicalNames = a.lexicalNames :=
  h.read fun _ => Node.lexicalNames_eq_nil

/-- A statement that declares names in a block holds statements inside closures only. -/
theorem Form.slots_of_declaresInBlock {form : Form} (h : form.declaresInBlock = true) :
    (form ≠ .list ∧ form.isJump = false) ∧
      form.shape.slots.all (·.categories.all (·.isStill)) = true ∧
      form.shape.slots.all Slot.isQuiet = true := by
  unfold Form.declaresInBlock at h
  split at h
  · exact ⟨⟨by simp, rfl⟩, rfl, rfl⟩
  · exact ⟨⟨by simp, rfl⟩, rfl, rfl⟩
  · exact ⟨⟨by simp, rfl⟩, rfl, rfl⟩
  · cases h

theorem Node.DeclaresAs.hoist {node : Node} (hwf : node.isWellFormed = true) :
    node.DeclaresAs node.hoist := by
  obtain ⟨form, span, parts⟩ := node
  refine ⟨fun hform => ?_, fun hform => ?_⟩
  · obtain ⟨⟨hlist, -⟩, hslots, -⟩ := Form.slots_of_declaresInBlock hform
    have hparts := Node.hoist_of_isStill_slots hwf hlist hslots
    cases form with
    | varDecl kind => cases kind with
      | var => cases hform
      | lexical => exact Node.hoist_lexicalDecl hwf
    | functionDecl | classDecl =>
        unfold Node.hoist
        rw [if_neg (by simp [Form.isClosure])]
        simp only [Form.holdsStmts, Bool.false_eq_true, if_false, hoistIn_eq_map]
        rw [List.map_congr_left hparts, List.map_id']
    | _ => cases hform
  · by_cases hvar : ∃ declare, form = .varDecl .var declare
    · obtain ⟨declare, rfl⟩ := hvar
      change (hoistVar span parts).form.declaresInBlock = false
      unfold hoistVar
      split <;> rfl
    · have hsame : (Node.mk form span parts).hoist.form = form :=
        Node.form_hoist fun declare h => hvar ⟨declare, h⟩
      rw [hsame]
      exact hform

/-- Hoisting leaves the names of a block alone. -/
theorem Node.lexicalNames_hoist {node : Node} (hwf : node.isWellFormed = true) :
    node.hoist.lexicalNames = node.lexicalNames :=
  (DeclaresAs.hoist hwf).lexicalNames

theorem lexicalNamesOf_hoistIn {stmts : List Node}
    (hwf : ∀ stmt ∈ stmts, stmt.isWellFormed = true) :
    lexicalNamesOf (hoistIn stmts) = lexicalNamesOf stmts := by
  rw [hoistIn_eq_map, lexicalNamesOf, lexicalNamesOf, List.flatMap_map]
  exact List.flatMap_congr fun stmt hmem => Node.lexicalNames_hoist (hwf stmt hmem)

/-- Nothing that is read off statements is lost with those that do nothing. -/
theorem flatMap_withoutEmpty {α : Type} {read : Node → List α} {stmts : List Node}
    (h : ∀ stmt ∈ stmts, stmt.form = .empty → read stmt = []) :
    (withoutEmpty stmts).flatMap read = stmts.flatMap read := by
  induction stmts with
  | nil => rfl
  | cons stmt stmts ih =>
      rw [List.forall_mem_cons] at h
      have hrest := ih h.2
      unfold withoutEmpty at hrest ⊢
      rw [List.filter_cons, List.flatMap_cons]
      split
      · rw [List.flatMap_cons, hrest]
      · next hempty => rw [h.1 (by simpa using hempty), List.nil_append, hrest]

theorem lexicalNamesOf_withoutEmpty (stmts : List Node) :
    lexicalNamesOf (withoutEmpty stmts) = lexicalNamesOf stmts :=
  flatMap_withoutEmpty fun _ _ hform => Node.lexicalNames_eq_nil (by rw [hform]; rfl)

/-! ### What remains of a declaration -/

/-- The `var` declarations of a tree outside closures declare single names. -/
def Node.VarsNamed (node : Node) : Prop :=
  ∃ ctx : Capture.Context, ctx.inBody = true ∧ ctx.inClosure = false ∧
    ∀ span, .destructuringVar span ∉ Capture.findings ctx node

theorem Node.VarsNamed.part {form : Form} {span : Span} {parts : List Node} {part : Node}
    (h : (Node.mk form span parts).VarsNamed) (hclosure : form.isClosure = false)
    (hmem : part ∈ parts) : part.VarsNamed := by
  obtain ⟨ctx, hbody, hin, hnone⟩ := h
  have hclear : Pass.stmts.Clear ctx := ⟨fun _ _ _ h => absurd h List.not_mem_nil, fun _ => hin⟩
  have hentered : Pass.stmts.Clear (ctx.enter (.mk form span parts)) :=
    hclear.enter (fun _ => hclosure) fun _ h => absurd h List.not_mem_nil
  refine ⟨ctx.enter (.mk form span parts), ?_, hentered.closure rfl, fun where' hfound =>
    hnone where' ?_⟩
  · rw [Capture.Context.inBody_enter, hbody]
  · rw [Capture.findings, Capture.findingsIn_eq_flatMap]
    exact List.mem_append_right _ (List.mem_flatMap.mpr ⟨part, hmem, hfound⟩)

theorem Node.VarsNamed.declarators {declare : Bool} {span : Span} {declarators : List Node}
    (h : (Node.varDecl .var declare span declarators).VarsNamed) :
    ∀ declarator ∈ declarators, declarator.declaresName = true := by
  intro declarator hmem
  obtain ⟨ctx, hbody, hin, hnone⟩ := h
  rcases Capture.Context.varDeclarator_cases span declarator with ⟨hnames, -⟩ | ⟨-, heq⟩
  · exact hnames
  · refine absurd ?_ (hnone span)
    rw [Capture.findings, Capture.Context.own, hbody, hin]
    exact List.mem_append_left _ (List.mem_map.mpr ⟨declarator, hmem, heq⟩)

/-- Types and titles tell nothing outside closures. -/
theorem Node.isSilent_type {node : Node} (hwf : node.isWellFormed = true)
    (hcategory : node.form.category ∈ [.absent, .ascription, .type, .title]) :
    node.IsSilent judged .stmts := by
  induction node using Node.inductionOn with
  | step form span parts ih =>
      have hform : form.isInert = true ∧ ((∃ name optional, form = .ident .title name optional) ∨
          ∀ ctx : Capture.Context,
            (ctx.own (.mk form span parts)).filter Capture.Finding.isTelling = []) := by
        cases form with
        | absent | keywordType | ascription | arrayType | typeReference =>
          exact ⟨rfl, Or.inr fun _ => rfl⟩
        | ident role => cases role with
          | title => exact ⟨rfl, Or.inl ⟨_, _, rfl⟩⟩
          | _ => simp [Node.form, Form.category] at hcategory
        | _ => simp [Node.form, Form.category] at hcategory
      obtain ⟨hinert, hown⟩ := hform
      refine (Node.isInert_mk hinert span parts).isSilent (fun _ ctx hclear => ?_)
        fun part hmem => ?_
      · rcases hown with ⟨name, optional, rfl⟩ | hown
        · exact hclear.filter_isTelling_reference (Or.inl rfl)
        · exact hown ctx
      · exact ih part hmem (Node.isWellFormed_part hwf hmem)
          (Node.category_part_of_type hwf hcategory hmem)

/-- A declarator of a single name: the name with its type, and an initialiser. -/
structure Node.NamedDeclarator (judged : Bool) (ascription : List Node) (init : Node) : Prop where
  ascription : ∀ part ∈ ascription, part.IsSilent judged .stmts
  wellFormed : init.isWellFormed = true

theorem Node.exists_namedDeclarator (judged : Bool) {node : Node} (hwf : node.isWellFormed = true)
    (hnames : node.declaresName = true) :
    ∃ definite span name optional bindSpan ascription init,
      node = .mk (.declarator definite) span
        [.mk (.ident .bind name optional) bindSpan ascription, init] ∧
      Node.NamedDeclarator judged ascription init := by
  unfold Node.declaresName at hnames
  split at hnames
  · next definite span name optional bindSpan ascription rest =>
    obtain ⟨hadmits, hparts⟩ := Node.isWellFormed_mk.mp hwf
    obtain ⟨_, _, heq, -, hrest⟩ := exists_of_fillSlots_cons (hadmits.resolve_left (by simp))
    cases heq
    obtain ⟨init, _, rfl, -, hnil⟩ := exists_of_fillSlots_cons hrest
    obtain rfl := eq_nil_of_fillSlots_nil hnil
    refine ⟨definite, span, name, optional, bindSpan, ascription, init, rfl, fun part hmem => ?_,
      hparts init (by simp)⟩
    have hbind := hparts _ List.mem_cons_self
    obtain ⟨slot, hslot, hadmits⟩ :=
      Shape.exists_slot ((Node.isWellFormed_mk.mp hbind).1.resolve_left (by simp)) hmem
    obtain rfl : slot = .optional [.ascription] := by simpa [Form.shape, Shape.slots] using hslot
    refine Node.isSilent_type (Node.isWellFormed_part hbind hmem) ?_
    rw [Slot.admits, Bool.or_eq_true] at hadmits
    rcases hadmits with habsent | hcategory
    · rw [show part.form = .absent by simpa [Node.isAbsent] using habsent]
      simp [Form.category]
    · rw [show part.form.category = .ascription by simpa using hcategory]
      simp
  · cases hnames

/-- A declarator of a single name is its initialiser, as far as is told. -/
theorem Node.NamedDeclarator.isSilent {ascription : List Node} {init : Node}
    (h : Node.NamedDeclarator judged ascription init) (habsent : init.isAbsent = true)
    (definite : Bool) (span : Span) (name : String) (optional : Bool) (bindSpan : Span) :
    (Node.mk (.declarator definite) span
      [.mk (.ident .bind name optional) bindSpan ascription, init]).IsSilent judged .stmts := by
  obtain ⟨initSpan, rfl⟩ := Node.eq_absent_of_isAbsent h.wellFormed habsent
  refine (Node.isInert_mk rfl _ _).isSilent (fun _ _ _ => rfl) ?_
  simp only [Node.parts, List.forall_mem_cons]
  exact ⟨Node.isSilent_ident (Or.inl rfl) h.ascription, Node.isSilent_leaf rfl _ fun _ => rfl,
    fun _ hmem => absurd hmem List.not_mem_nil⟩

theorem Node.NamedDeclarator.alike_assignTo {ascription : List Node} {init : Node}
    (h : Node.NamedDeclarator judged ascription init) (definite : Bool)
    (span : Span) (name : String) (optional : Bool) (bindSpan : Span) :
    (Node.mk (.declarator definite) span
        [.mk (.ident .bind name optional) bindSpan ascription, init]).Alike judged .stmts
      (.assignTo name init span) := by
  have hinit : init.Alike judged .stmts init := .refl (fun _ => rfl) rfl init
  have habsent : Node.absent.IsSilent judged .stmts := Node.isSilent_leaf rfl _ fun _ => rfl
  have htarget : (Node.binding name false span .absent).IsSilent judged .stmts :=
    Node.isSilent_ident (Or.inl rfl) (List.forall_mem_singleton.mpr habsent)
  refine .inert (Node.isInert_mk rfl _ _) (Node.isInert_mk rfl _ _)
    (.silent_left (.silent_right (AlikeIn.nil.cons hinit) htarget)
      (Node.isSilent_ident (Or.inl rfl) h.ascription)) fun _ ctx _ => ?_
  exact (ctx.filter_isTelling_writes _).trans rfl

/-- The assignments that remain of declarators of single names. -/
theorem AlikeIn.initAssignments {declarators : List Node}
    (hwf : ∀ declarator ∈ declarators, declarator.isWellFormed = true)
    (hnames : ∀ declarator ∈ declarators, declarator.declaresName = true) :
    AlikeIn judged .stmts declarators (declarators.filterMap Node.initAssignment?) := by
  induction declarators with
  | nil => exact .nil
  | cons declarator declarators ih =>
      rw [List.forall_mem_cons] at hwf hnames
      have hrest := ih hwf.2 hnames.2
      obtain ⟨definite, span, name, optional, bindSpan, ascription, init, rfl, hnamed⟩ :=
        Node.exists_namedDeclarator judged hwf.1 hnames.1
      rw [List.filterMap_cons, Node.initAssignment?]
      split
      · next hnone =>
        have habsent : init.isAbsent = true := by
          by_contra hpresent
          simp [hpresent] at hnone
        exact hrest.silent_left (hnamed.isSilent habsent _ _ _ _ _)
      · next expr hsome =>
        have hpresent : init.isAbsent = false := by
          by_contra habsent
          simp [Bool.not_eq_false _ ▸ habsent] at hsome
        simp only [hpresent, Bool.false_eq_true, if_false, Option.some.injEq] at hsome
        subst hsome
        exact hrest.cons (hnamed.alike_assignTo _ _ _ _ _)

/-- The same, as one expression. -/
theorem AlikeIn.initAssignments? (span : Span) {declarators : List Node}
    (hwf : ∀ declarator ∈ declarators, declarator.isWellFormed = true)
    (hnames : ∀ declarator ∈ declarators, declarator.declaresName = true) :
    AlikeIn judged .stmts declarators (initAssignments? span declarators).toList ∧
      ∀ expr, LoopLowering.initAssignments? span declarators = some expr → expr.IsInert := by
  have hall : AlikeIn judged .stmts declarators (declarators.filterMap Node.initAssignment?) :=
    AlikeIn.initAssignments hwf hnames
  have hform : ∀ expr ∈ declarators.filterMap Node.initAssignment?, expr.IsInert := by
    intro expr hmem
    obtain ⟨declarator, -, hassign⟩ := List.mem_filterMap.mp hmem
    unfold Node.initAssignment? at hassign
    split at hassign
    · split at hassign
      · cases hassign
      · cases hassign
        exact Node.isInert_mk rfl _ _
    · cases hassign
  unfold LoopLowering.initAssignments? Node.sequence?
  split
  · next heq =>
    rw [heq] at hall
    exact ⟨hall, fun _ h => by cases h⟩
  · next expr heq =>
    rw [heq] at hall hform
    exact ⟨hall, fun _ h => by cases h; exact hform _ (by simp)⟩
  · have hinert := @Node.isInert_mk .sequence rfl span
      (declarators.filterMap Node.initAssignment?)
    exact ⟨hall.wrap_right hinert fun _ _ _ => rfl, fun _ h => by cases h; exact hinert⟩

theorem Capture.Context.filter_isTelling_own_var (ctx : Capture.Context) {declare : Bool}
    {span : Span} {declarators : List Node}
    (hnames : ∀ declarator ∈ declarators, declarator.declaresName = true) :
    (ctx.own (.varDecl .var declare span declarators)).filter Capture.Finding.isTelling = [] := by
  have hnone : (declarators.map Node.declaresName).filter (!·) = [] := by
    simpa [List.filter_eq_nil_iff] using hnames
  simp only [Capture.Context.own]
  split
  · rw [Capture.Context.filter_isTelling_varDeclarator, hnone]
    rfl
  · rfl

section

variable {declare : Bool} {span : Span} {declarators : List Node}

/-- What remains of a `var` statement. -/
theorem Node.Alike.hoistVar
    (hwf : ∀ declarator ∈ declarators, declarator.isWellFormed = true)
    (hnames : ∀ declarator ∈ declarators, declarator.declaresName = true) :
    (Node.varDecl .var declare span declarators).Alike judged .stmts
      (hoistVar span declarators) := by
  obtain ⟨hall, -⟩ := @AlikeIn.initAssignments? judged span _ hwf hnames
  have hdecl : (Node.varDecl .var declare span declarators).IsInert := Node.isInert_mk rfl _ _
  have hown : judged = true → ∀ ctx, Pass.stmts.Clear ctx →
      (ctx.own (.varDecl .var declare span declarators)).filter Capture.Finding.isTelling = [] :=
    fun _ ctx _ => ctx.filter_isTelling_own_var hnames
  unfold LoopLowering.hoistVar
  split
  · next expr heq =>
    rw [heq] at hall
    have hstmt : expr.exprStmt.IsInert := Node.isInert_mk rfl _ _
    exact .of_parts hdecl hstmt hown (hall.wrap_right hstmt fun _ _ _ => rfl)
  · next heq =>
    rw [heq] at hall
    exact .of_parts hdecl (Node.isInert_mk rfl _ _) hown
      (hall.silent_right (Node.isSilent_leaf rfl _ fun _ => rfl))

end

/-- What remains of the first part of a plain loop head. -/
theorem Node.Alike.hoistInit {init : Node} (hwf : init.isWellFormed = true)
    (hnamed : init.VarsNamed) : init.Alike judged .stmts init.hoistInit := by
  unfold Node.hoistInit
  split
  · next declare span declarators =>
    have hnames := hnamed.declarators
    obtain ⟨hall, hexpr⟩ := @AlikeIn.initAssignments? judged span _
      (fun declarator hmem => Node.isWellFormed_part hwf hmem) hnames
    have hown : judged = true → ∀ ctx, Pass.stmts.Clear ctx →
        (ctx.own (.varDecl .var declare span declarators)).filter Capture.Finding.isTelling = [] :=
      fun _ ctx _ => ctx.filter_isTelling_own_var hnames
    refine .of_parts (Node.isInert_mk rfl _ _) ?_ hown ?_
    · cases heq : initAssignments? span declarators with
      | none => exact Node.isInert_mk rfl _ _
      | some expr => exact hexpr expr heq
    · cases heq : initAssignments? span declarators with
      | none =>
          rw [heq] at hall
          exact hall.silent_right (Node.isSilent_leaf rfl _ fun _ => rfl)
      | some expr =>
          rw [heq] at hall
          exact hall
  · exact .refl (fun _ => rfl) rfl _

/-- What remains of the left side of a loop over keys or values, if there was no initialiser. -/
theorem Node.Alike.hoistLeft {left : Node} (hwf : left.isWellFormed = true)
    (hnamed : left.VarsNamed) (hbare : left.isBareDecl = true) :
    left.Alike judged .stmts left.hoistLeft ∧ left.hoistLeft.isBareDecl = true := by
  unfold Node.hoistLeft
  split
  · next declare span definite declSpan pattern init =>
    have hnames := hnamed.declarators
    have hdeclarator : (Node.declarator definite declSpan pattern init).isWellFormed = true :=
      Node.isWellFormed_part hwf (by simp)
    obtain ⟨_, _, name, optional, bindSpan, ascription, _, heq, hparts⟩ :=
      Node.exists_namedDeclarator judged hdeclarator (hnames _ (by simp))
    cases heq
    refine ⟨.of_parts (Node.isInert_mk rfl _ _) (Node.isInert_mk rfl _ _)
      (fun _ ctx _ => ctx.filter_isTelling_own_var hnames) ?_, rfl⟩
    exact (AlikeIn.nil.silent_right
      (Node.isSilent_ident (Or.inl rfl) hparts.ascription)).silent_left
      (hparts.isSilent hbare _ _ _ _ _)
  · exact ⟨.refl (fun _ => rfl) rfl _, hbare⟩

/-! ### Whole statements -/

theorem AlikeIn.trans_stmts {nodes others more : List Node} (h : AlikeIn judged .stmts nodes others)
    (h' : AlikeIn judged .stmts others more) : AlikeIn judged .stmts nodes more where
  labels := by rw [h'.labels, h.labels, List.filter_filter]; simp
  sound := h'.sound.trans h.sound
  tellings hjudged ctx hclear :=
    (h'.tellings hjudged ctx hclear).trans (h.tellings hjudged ctx hclear)
  verdicts around hunder := by
    have hfirst := h.verdicts around hunder
    have hsecond := h'.verdicts around hunder
    simp only [Pass.rest, List.append_nil] at hfirst hsecond ⊢
    rw [hsecond, hfirst]

theorem AlikeIn.withoutEmpty {stmts : List Node}
    (hwf : ∀ stmt ∈ stmts, stmt.isWellFormed = true) :
    AlikeIn judged .stmts stmts (withoutEmpty stmts) := by
  induction stmts with
  | nil => exact .nil
  | cons stmt stmts ih =>
      rw [List.forall_mem_cons] at hwf
      have hrest := ih hwf.2
      unfold LoopLowering.withoutEmpty at hrest ⊢
      rw [List.filter_cons]
      split
      · exact hrest.cons (.refl (fun _ => rfl) rfl stmt)
      · next hempty =>
        obtain ⟨form, span, parts⟩ := stmt
        obtain rfl : form = .empty := by simpa [Node.form] using hempty
        obtain rfl := Node.parts_eq_nil rfl (by simp) hwf.1
        exact hrest.silent_left (Node.isSilent_leaf rfl _ fun _ => rfl)

/-- A block, or the statements of a case, around statements that are alike taken together. -/
theorem Node.Alike.of_holdsStmts {form : Form} (hform : form.holdsStmts = true) {span : Span}
    {stmts stmts' : List Node} (h : AlikeIn judged .stmts stmts stmts')
    (hlexical : lexicalNamesOf stmts' = lexicalNamesOf stmts) :
    (Node.mk form span stmts).Alike judged .stmts (.mk form span stmts') := by
  obtain rfl | rfl := Form.eq_of_holdsStmts hform
  · have hblock : ∀ stmts, Loop.ofNode? (.mk .block span stmts) = none := fun _ => rfl
    have hscope : (Node.mk .block span stmts').scopeNames =
        (Node.mk .block span stmts).scopeNames :=
      hlexical
    refine ⟨rfl, rfl, ?_, ?_, fun hjudged ctx hclear => ?_, fun _ => rfl, fun around hunder => ?_⟩
    · rw [Node.outerLabels_mk rfl (by simp), Node.outerLabels_mk rfl (by simp), h.labels]
      rfl
    · rw [Node.everywhere, Node.everywhere, h.sound, Node.isSound, Node.isSound,
        Node.keepsArguments, Node.keepsArguments, hscope]
      rfl
    · have hin : Pass.stmts.Clear (ctx.enter (.mk .block span stmts)) :=
        hclear.enter (fun _ => rfl) fun _ hmem => absurd hmem List.not_mem_nil
      have henter : ctx.enter (.mk .block span stmts') = ctx.enter (.mk .block span stmts) := by
        simp only [Capture.Context.enter, hscope]
      rw [Capture.tellings_mk, Capture.tellings_mk, henter, h.tellings hjudged _ hin]
      simp only [Capture.Context.own, Capture.Context.filter_isTelling_declarations]
    · rw [Node.verdicts_mk rfl (by simp), Node.verdicts_mk rfl (by simp), hblock, hblock,
        h.verdicts around hunder]
      rfl
  · exact .inert (Node.isInert_mk rfl _ _) (Node.isInert_mk rfl _ _) h fun _ _ _ => rfl

theorem Node.headIsBare_of_everywhere {node : Node}
    (h : node.everywhere (Node.isSound judged) = true) : node.headIsBare = true := by
  have hself := Node.passes_of_everywhere h
  rw [Node.isSound, Bool.and_eq_true] at hself
  exact hself.1

/-- A node that reads its first part, but has not the parts of a loop, is a catch clause. -/
theorem Node.eq_catchClause_of_readsFirst {form : Form} {span : Span} {parts : List Node}
    (hwf : (Node.mk form span parts).isWellFormed = true)
    (hfor : ∀ init test update body, form = .forStmt → parts = [init, test, update, body] → False)
    (hforIn : ∀ left right body, form = .forInStmt → parts = [left, right, body] → False)
    (hforOf : ∀ isAwait left right body,
      form = .forOfStmt isAwait → parts = [left, right, body] → False)
    (hreads : form.readsFirst = true) : form = .catchClause := by
  unfold Form.readsFirst at hreads
  split at hreads
  · rfl
  · obtain ⟨init, test, update, body, rfl⟩ :=
      List.length_eq_four.mp (Node.length_parts hwf (by simp) rfl)
    exact absurd rfl (hfor init test update body rfl)
  · obtain ⟨left, right, body, rfl⟩ :=
      List.length_eq_three.mp (Node.length_parts hwf (by simp) rfl)
    exact absurd rfl (hforIn left right body rfl)
  · obtain ⟨left, right, body, rfl⟩ :=
      List.length_eq_three.mp (Node.length_parts hwf (by simp) rfl)
    exact absurd rfl (hforOf _ left right body rfl)
  · cases hreads

/-- A node of no special kind reads the same of what remains of its parts. -/
theorem Node.reads_hoistIn {form : Form} {span : Span} {parts : List Node}
    (hclosure : form.isClosure = false) (hreads : form.readsFirst = true → form = .catchClause)
    (hwf : (Node.mk form span parts).isWellFormed = true) :
    (Node.mk form span (hoistIn parts)).headIsBare = (Node.mk form span parts).headIsBare ∧
      (Node.mk form span (hoistIn parts)).scopeNames = (Node.mk form span parts).scopeNames := by
  refine Node.reads_congr hclosure (fun hform => ?_) fun _ =>
    lexicalNamesOf_hoistIn fun part hmem => Node.isWellFormed_part hwf hmem
  obtain rfl := hreads hform
  obtain ⟨param, rest, rfl, hadmits, -⟩ :=
    exists_of_fillSlots_cons ((Node.isWellFormed_mk.mp hwf).1.resolve_left (by simp))
  rw [hoistIn, List.head?_cons, List.head?_cons,
    Slot.hoist_of_admits rfl (by decide) hadmits (Node.isWellFormed_part hwf (by simp))]

/-- A node of no special kind around what remains of its parts. -/
theorem Node.Alike.hoist_node {form : Form} {span : Span} {parts : List Node}
    (hclosure : form.isClosure = false) (hdecl : ∀ kind declare, form ≠ .varDecl kind declare)
    (hreads : form.readsFirst = true → form = .catchClause)
    (hwf : (Node.mk form span parts).isWellFormed = true)
    (hparts : ∀ part ∈ parts, part.Alike judged .stmts part.hoist) :
    (Node.mk form span parts).Alike judged .stmts (.mk form span (hoistIn parts)) := by
  refine .node (.stmt rfl hclosure hdecl (fun _ _ => Or.inl rfl) (fun _ _ => rfl)
    (Node.reads_hoistIn hclosure hreads hwf)) ?_
  rw [hoistIn_eq_map]
  exact List.forall₂_map_right_iff.mpr (List.forall₂_same.mpr hparts)

theorem Node.blockScopedNames_congr {a b : Node} (hlexical : b.isLexicalDecl = a.isLexicalDecl)
    (hsame : a.isLexicalDecl = true → b = a) : b.blockScopedNames = a.blockScopedNames := by
  have hnone : ∀ node : Node, node.isLexicalDecl = false → node.blockScopedNames = [] := by
    intro node h
    unfold Node.blockScopedNames
    split
    · cases h
    · rfl
  cases ha : a.isLexicalDecl with
  | true => rw [hsame ha]
  | false => rw [hnone a ha, hnone b (hlexical.trans ha)]

/-- What remains of a loop head that is no `var` is the head. -/
theorem Node.blockScopedNames_hoistInit {init : Node}
    (hlexical : init.hoistInit.isLexicalDecl = init.isLexicalDecl) :
    init.hoistInit.blockScopedNames = init.blockScopedNames := by
  refine Node.blockScopedNames_congr hlexical fun hlexical => ?_
  obtain ⟨_, _, _, _, rfl⟩ := Node.isLexicalDecl_iff.mp hlexical
  rfl

theorem Node.blockScopedNames_hoistLeft {left : Node}
    (hlexical : left.hoistLeft.isLexicalDecl = left.isLexicalDecl) :
    left.hoistLeft.blockScopedNames = left.blockScopedNames := by
  refine Node.blockScopedNames_congr hlexical fun hlexical => ?_
  obtain ⟨_, _, _, _, rfl⟩ := Node.isLexicalDecl_iff.mp hlexical
  rfl

/-- A plain loop around what remains of its head and body. -/
theorem Node.Alike.hoist_forStmt {span : Span} {init test update body : Node}
    (hinit : init.Alike judged .stmts init.hoistInit)
    (hbody : body.Alike judged .stmts body.hoist) :
    (Node.forStmt span init test update body).Alike judged .stmts
      (.forStmt span init.hoistInit test update body.hoist) := by
  have hnames := Node.blockScopedNames_hoistInit hinit.lexical
  have hself : ∀ node : Node, node.Alike judged .stmts node := .refl (fun _ => rfl) rfl
  exact .node (.stmt rfl rfl (by simp) (fun _ _ => Or.inl rfl) (fun _ _ => rfl)
    ⟨rfl, hnames⟩) (.cons hinit (.cons (hself test) (.cons (hself update) (.cons hbody .nil))))

/-- A loop over keys or values around the pattern of its head and what remains of its body. -/
theorem Node.Alike.hoist_overStmt {form : Form}
    (hform : form = .forInStmt ∨ ∃ isAwait, form = .forOfStmt isAwait) {span : Span}
    {left right body : Node} (hwf : left.isWellFormed = true) (hnamed : left.VarsNamed)
    (hsound : (Node.mk form span [left, right, body]).everywhere (Node.isSound judged) = true)
    (hbody : body.Alike judged .stmts body.hoist) :
    (Node.mk form span [left, right, body]).Alike judged .stmts
      (.mk form span [left.hoistLeft, right, body.hoist]) := by
  have hhead := Node.headIsBare_of_everywhere hsound
  have hbare : left.isBareDecl = true := by
    rcases hform with rfl | ⟨isAwait, rfl⟩ <;> exact hhead
  obtain ⟨hleft, hbare'⟩ := @Node.Alike.hoistLeft judged left hwf hnamed hbare
  have hright : right.Alike judged .stmts right := .refl (fun _ => rfl) rfl right
  have hnames := Node.blockScopedNames_hoistLeft hleft.lexical
  have hreads : (Node.mk form span [left.hoistLeft, right, body.hoist]).headIsBare =
        (Node.mk form span [left, right, body]).headIsBare ∧
      (Node.mk form span [left.hoistLeft, right, body.hoist]).scopeNames =
        (Node.mk form span [left, right, body]).scopeNames := by
    rcases hform with rfl | ⟨isAwait, rfl⟩ <;> exact ⟨hbare'.trans hbare.symm, hnames⟩
  have hplain : form.isClosure = false ∧ ∀ kind declare, form ≠ .varDecl kind declare := by
    rcases hform with rfl | ⟨isAwait, rfl⟩ <;> exact ⟨rfl, by simp⟩
  refine .node (.stmt rfl hplain.1 hplain.2 (fun _ _ => Or.inl rfl) (fun _ _ => rfl) hreads) ?_
  exact .cons hleft (.cons hright (.cons hbody .nil))

/-- Hoisting keeps the verdicts on the loops of a tree. -/
theorem Node.Alike.hoist {node : Node} (hwf : node.isWellFormed = true)
    (hsound : node.everywhere (Node.isSound judged) = true) (hnamed : node.VarsNamed) :
    node.Alike judged .stmts node.hoist := by
  induction node using Node.inductionOn with
  | step form span parts ih =>
      have hpartWf : ∀ part ∈ parts, part.isWellFormed = true :=
        fun part hmem => Node.isWellFormed_part hwf hmem
      have hself : (Node.mk form span parts).Alike judged .stmts (.mk form span parts) :=
        .refl (fun _ => rfl) rfl _
      cases hclosure : form.isClosure with
      | true =>
          unfold Node.hoist
          rw [if_pos hclosure]
          exact hself
      | false =>
          have hparts : ∀ part ∈ parts, part.Alike judged .stmts part.hoist := fun part hmem =>
            ih part hmem (hpartWf part hmem) ((Node.everywhere_mk.mp hsound).2 part hmem)
              (hnamed.part hclosure hmem)
          by_cases hlexical : ∃ constant declare, form = .varDecl (.lexical constant) declare
          · obtain ⟨constant, declare, rfl⟩ := hlexical
            rw [Node.hoist_lexicalDecl hwf]
            exact hself
          unfold Node.hoist
          rw [hclosure]
          simp only [Bool.false_eq_true, if_false]
          split
          · exact .hoistVar hpartWf hnamed.declarators
          · exact hself
          · exact .hoist_forStmt (.hoistInit (hpartWf _ (by simp)) (hnamed.part rfl (by simp)))
              (hparts _ (by simp))
          · exact .hoist_overStmt (Or.inl rfl) (hpartWf _ (by simp)) (hnamed.part rfl (by simp))
              hsound (hparts _ (by simp))
          · exact .hoist_overStmt (Or.inr ⟨_, rfl⟩) (hpartWf _ (by simp))
              (hnamed.part rfl (by simp)) hsound (hparts _ (by simp))
          · next hvar hexport hfor hforIn hforOf =>
            have hdecl : ∀ kind declare, form ≠ .varDecl kind declare := by
              rintro kind declare rfl
              cases kind with
              | var => exact hvar declare rfl
              | lexical constant => exact hlexical ⟨constant, declare, rfl⟩
            have hreads := Node.eq_catchClause_of_readsFirst hwf hfor hforIn hforOf
            split
            · next hholds =>
              have hafter : ∀ stmt ∈ hoistIn parts, stmt.isWellFormed = true := by
                rw [hoistIn_eq_map]
                exact wellFormed_map_hoist hpartWf
              have hall : AlikeIn judged .stmts parts (hoistIn parts) := by
                rw [hoistIn_eq_map]
                exact .of_forall₂ (List.forall₂_map_right_iff.mpr (List.forall₂_same.mpr hparts))
              refine .of_holdsStmts hholds (hall.trans_stmts (.withoutEmpty hafter)) ?_
              rw [lexicalNamesOf_withoutEmpty, lexicalNamesOf_hoistIn hpartWf]
            · exact .hoist_node hclosure hdecl hreads hwf hparts

/-- Hoisting keeps the verdicts on the loops of a statement list. -/
theorem AlikeIn.hoistStmts {stmts : List Node} (hwf : ∀ stmt ∈ stmts, stmt.isWellFormed = true)
    (hsound : ∀ stmt ∈ stmts, stmt.everywhere (Node.isSound judged) = true)
    (hnamed : ∀ stmt ∈ stmts, stmt.VarsNamed) :
    AlikeIn judged .stmts stmts (hoistStmts stmts) := by
  have hall : AlikeIn judged .stmts stmts (hoistIn stmts) := by
    rw [hoistIn_eq_map]
    refine .of_forall₂ (List.forall₂_map_right_iff.mpr (List.forall₂_same.mpr fun stmt hmem => ?_))
    exact .hoist (hwf stmt hmem) (hsound stmt hmem) (hnamed stmt hmem)
  refine hall.trans_stmts (.withoutEmpty ?_)
  rw [hoistIn_eq_map]
  exact wellFormed_map_hoist hwf

/-! ### Redirecting -/

theorem JumpContext.inside_enter (ctx : JumpContext) (rest : List (String × Bool)) (form : Form) :
    (Pass.jumps ctx.inner rest).inside form = .jumps (ctx.enter form).inner rest := by
  unfold JumpContext.enter
  split
  · rfl
  · rfl
  · next hlabel _ =>
    rw [Pass.inside_of_ne_labeled hlabel]
    split <;> rfl

theorem JumpContext.own_enter (ctx : JumpContext) (form : Form) :
    (ctx.enter form).own = ctx.own := by
  unfold JumpContext.enter
  split
  · rfl
  · rfl
  · split <;> rfl

theorem Form.jumpLabels_of_isJump {form : Form} (h : form.isJump = false) :
    form.jumpLabels = [] := by
  cases form with
  | breakStmt | continueStmt => cases h
  | _ => rfl

/-- A jump out of a part leaves the node too, unless the node is what it goes to. -/
theorem Node.mem_outerLabels_of_mem_part {form : Form} (hclosure : form.isClosure = false)
    {span : Span} {parts : List Node} {part : Node} (hmem : part ∈ parts) {label : String}
    (h : label ∈ part.outerLabels) :
    (∃ name, form = .labeled name ∧ name.text = label) ∨
      label ∈ (Node.mk form span parts).outerLabels := by
  have hin : label ∈ outerLabelsIn parts := by
    rw [outerLabelsIn_eq_flatMap]
    exact List.mem_flatMap.mpr ⟨part, hmem, h⟩
  by_cases hlabel : ∃ name, form = .labeled name
  · obtain ⟨name, rfl⟩ := hlabel
    by_cases hname : name.text = label
    · exact Or.inl ⟨name, rfl, hname⟩
    · rw [Node.outerLabels_labeled]
      exact Or.inr (List.mem_filter.mpr ⟨hin, by simpa using fun e => hname e.symm⟩)
  · rw [Node.outerLabels_mk hclosure fun name e => hlabel ⟨name, e⟩]
    exact Or.inr (List.mem_append_right _ hin)

theorem Node.isSound_block {span : Span} {stmts : List Node} :
    (Node.block span stmts).isSound judged = true ↔
      (judged = true → "arguments" ∉ lexicalNamesOf stmts) := by
  cases judged with
  | false => exact ⟨fun _ => nofun, fun _ => rfl⟩
  | true =>
      refine ⟨fun h _ => Node.notMem_scopeNames_of_isSound h, fun h => ?_⟩
      have hnone : "arguments" ∉ (Node.block span stmts).scopeNames := h rfl
      have hkeeps : (Node.block span stmts).keepsArguments = true := by
        rw [Node.keepsArguments, decide_eq_false hnone]
        rfl
      rw [Node.isSound, hkeeps]
      rfl

/-- A block that declares nothing is silent if its statements are. -/
theorem Node.isSilent_block {pass : Pass} {span : Span} {stmts : List Node}
    (hlexical : lexicalNamesOf stmts = []) (hstmts : ∀ stmt ∈ stmts, stmt.IsSilent judged pass) :
    (Node.block span stmts).IsSilent judged pass where
  labels := by
    rw [Node.outerLabels_mk rfl (by simp), outerLabelsIn_eq_flatMap]
    exact List.flatMap_eq_nil_iff.mpr fun stmt hmem => (hstmts stmt hmem).labels
  sound := by
    refine Node.everywhere_mk.mpr ⟨?_, fun stmt hmem => (hstmts stmt hmem).sound⟩
    exact Node.isSound_block.mpr fun _ => by simp [hlexical]
  tellings hjudged ctx hclear := by
    have hscope : (Node.block span stmts).scopeNames = [] := hlexical
    have hin : pass.Clear (ctx.enter (.block span stmts)) :=
      hclear.enter (fun _ => rfl) (by simp [hscope])
    rw [Capture.tellings_mk, Capture.Context.own, Capture.Context.filter_isTelling_declarations,
      List.nil_append, Capture.tellingsIn, List.flatMap_eq_nil_iff]
    exact fun stmt hmem => (hstmts stmt hmem).tellings hjudged _ hin
  verdicts around := by
    rw [Node.verdicts_of_not_isCandidate rfl (by simp) rfl, verdictsIn, List.flatMap_eq_nil_iff]
    exact fun stmt hmem => (hstmts stmt hmem).verdicts around

section

variable {pass : Pass} {span : Span}

/-- The statement tells nothing; it may jump to one of the labels. -/
structure Node.JumpsTo (judged : Bool) (pass : Pass) (labels : List String)
    (node : Node) : Prop where
  lexical : node.isLexicalDecl = false
  declares : node.declaresNames = true
  labels : node.outerLabels = labels
  sound : node.everywhere (Node.isSound judged) = true
  tellings : judged = true → ∀ ctx, pass.Clear ctx → Capture.tellings ctx node = []
  extracts : node.extracts = false
  verdicts : ∀ around, node.verdicts judged around = []

theorem Node.jumpsTo_mk {form : Form} (hform : form.isJump = true) :
    (Node.mk form span []).JumpsTo judged pass form.jumpLabels := by
  cases form with
  | breakStmt label | continueStmt label =>
      refine ⟨rfl, rfl, ?_, by cases judged <;> rfl, fun _ _ _ => rfl, rfl, fun _ => rfl⟩
      cases label <;> rfl
  | returnStmt =>
      exact ⟨rfl, rfl, rfl, by cases judged <;> rfl, fun _ _ _ => rfl, rfl, fun _ => rfl⟩
  | _ => cases hform

theorem Node.IsSilent.jumpsTo {stmt : Node} (h : stmt.IsSilent judged pass)
    (hform : stmt.form = .returnStmt ∨ stmt.form = .block) : stmt.JumpsTo judged pass [] := by
  have hplain : stmt.isLexicalDecl = false ∧ stmt.declaresNames = true ∧ stmt.extracts = false := by
    obtain ⟨form, span, parts⟩ := stmt
    simp only [Node.form] at hform
    rcases hform with rfl | rfl <;> exact ⟨rfl, rfl, rfl⟩
  exact ⟨hplain.1, hplain.2.1, h.labels, h.sound, h.tellings, hplain.2.2, h.verdicts⟩

/-- Statements that do nothing but jump are alike if the second keeps the jumps it has to. -/
theorem Node.JumpsTo.alike {labels : List String} {a b : Node} (ha : a.JumpsTo judged pass labels)
    (hb : b.JumpsTo judged pass (labels.filter pass.keeps)) : a.Alike judged pass b where
  lexical := by rw [hb.lexical, ha.lexical]
  declares := by rw [hb.declares, ha.declares]
  labels := by rw [hb.labels, ha.labels]
  sound := by rw [hb.sound, ha.sound]
  tellings hjudged ctx hclear := by
    rw [hb.tellings hjudged ctx hclear, ha.tellings hjudged ctx hclear]
  extracts _ := by rw [hb.extracts, ha.extracts]
  verdicts _ _ := by rw [hb.verdicts, ha.verdicts]

/-- A `return` says what it returned. -/
theorem Node.Alike.toReturn {parts : List Node} (options : Options)
    (hwf : (Node.mk .returnStmt span parts).isWellFormed = true) :
    (Node.mk .returnStmt span parts).Alike judged pass
      ((Completion.result (parts.find? (!·.isAbsent))).toReturn options span) := by
  obtain ⟨argument, rest, rfl, hslot, hrest⟩ :=
    exists_of_fillSlots_cons ((Node.isWellFormed_mk.mp hwf).1.resolve_left (by simp))
  obtain rfl := eq_nil_of_fillSlots_nil hrest
  have hargument : argument.isWellFormed = true := Node.isWellFormed_part hwf (by simp)
  have hleaf : ∀ {form : Form}, form.isInert = true →
      (∀ ctx : Capture.Context, ctx.own (.mk form span []) = []) →
        (Node.mk form span []).IsSilent judged pass :=
    fun h hown => Node.isSilent_leaf h span fun ctx => by rw [hown ctx]; rfl
  have hvalue : AlikeIn judged pass [argument]
      [([argument].find? (!·.isAbsent)).getD (.undefined span)] := by
    cases habsent : argument.isAbsent with
    | false =>
        have hquiet : argument.isQuiet = true := Slot.allAre_of_admits rfl rfl (by decide) hslot
        simpa [habsent] using AlikeIn.nil.cons (.of_isQuiet hargument hquiet)
    | true =>
        obtain ⟨absentSpan, rfl⟩ := Node.eq_absent_of_isAbsent hargument habsent
        have hundefined : (Node.undefined span).IsSilent judged pass :=
          (Node.isInert_mk rfl _ _).isSilent (fun _ _ _ => rfl)
            (List.forall_mem_singleton.mpr (hleaf rfl fun _ => rfl))
        exact (AlikeIn.nil.silent_right hundefined).silent_left
          (Node.isSilent_leaf rfl _ fun _ => rfl)
  refine .inert (Node.isInert_mk rfl _ _) (Node.isInert_mk rfl _ _) ?_ fun _ _ _ => rfl
  refine .wrap_right (Node.isInert_mk rfl _ _) (fun _ _ _ => rfl) ?_
  refine .wrap_right (Node.isInert_mk rfl _ _) (fun _ _ _ => rfl) ?_
  exact hvalue.silent_right (hleaf rfl fun _ => rfl)

end

theorem JumpContext.mem_inner_enter (ctx : JumpContext) {form : Form} {label : String}
    (h : label ∈ ctx.inner) : label ∈ (ctx.enter form).inner := by
  unfold JumpContext.enter
  split
  · exact List.mem_cons_of_mem _ h
  · exact h
  · split <;> exact h

section

variable {redirection : Redirection}

theorem Node.DeclaresAs.redirect (ctx : JumpContext) {node : Node}
    (hwf : node.isWellFormed = true) :
    node.DeclaresAs (node.redirect redirection ctx) := by
  obtain ⟨form, span, parts⟩ := node
  refine ⟨fun hform => ?_, fun hform => ?_⟩
  · obtain ⟨hplain, -, hslots⟩ := Form.slots_of_declaresInBlock hform
    exact Node.redirect_of_isQuiet_slots redirection ctx hplain hslots hwf
  · unfold Node.redirect
    split
    · exact hform
    split
    · split <;> rfl
    · split
      · unfold Redirection.continueStmt
        split <;> rfl
      · rfl
    · rfl
    · exact hform

/-- Redirecting leaves the names of a block alone. -/
theorem Node.lexicalNames_redirect (ctx : JumpContext) {node : Node}
    (hwf : node.isWellFormed = true) :
    (node.redirect redirection ctx).lexicalNames = node.lexicalNames :=
  (DeclaresAs.redirect ctx hwf).lexicalNames

/-- Redirecting leaves what stands in front of a body alone. -/
theorem Node.head?_redirect (ctx : JumpContext) {form : Form} {span : Span} {parts : List Node}
    (hwf : (Node.mk form span parts).isWellFormed = true) (hreads : form.readsFirst = true) :
    (parts.map (Node.redirect redirection ctx)).head? = parts.head? := by
  obtain ⟨first, rest, rfl, hfirst, hquiet⟩ := Node.exists_of_readsFirst hwf hreads
  rw [List.map_cons, List.head?_cons, List.head?_cons,
    Node.redirect_of_isQuiet redirection ctx hfirst hquiet]

variable {ctx : JumpContext} {rest : List (String × Bool)}

/-- The statement that takes the place of a `continue` tells nothing. -/
theorem Redirection.isSilent_continueStmt {pass : Pass}
    (hback : ∀ stmt ∈ redirection.writeBack, stmt.IsSilent judged pass ∧ stmt.lexicalNames = [])
    (span : Span) :
    ((redirection.continueStmt span).form = .returnStmt ∨
        (redirection.continueStmt span).form = .block) ∧
      (redirection.continueStmt span).IsSilent judged pass := by
  have hreturn : (Completion.normal.toReturn redirection.options span).IsSilent judged pass :=
    (Node.isInert_mk rfl _ _).isSilent (fun _ _ _ => rfl)
      (List.forall_mem_singleton.mpr (Node.isSilent_leaf rfl _ fun _ => rfl))
  unfold Redirection.continueStmt
  split
  · exact ⟨Or.inl rfl, hreturn⟩
  · refine ⟨Or.inr rfl, Node.isSilent_block ?_ ?_⟩
    · rw [lexicalNamesOf, List.flatMap_eq_nil_iff]
      intro stmt hmem
      rcases List.mem_append.mp hmem with hmem | hmem
      · exact (hback stmt hmem).2
      · rw [List.mem_singleton.mp hmem]
        rfl
    · intro stmt hmem
      rcases List.mem_append.mp hmem with hmem | hmem
      · exact (hback stmt hmem).1
      · rw [List.mem_singleton.mp hmem]
        exact hreturn

/-- A jump is kept if and only if it does not go to the loop whose body it is in. -/
theorem JumpContext.filter_keeps {ctx : JumpContext} {label? : Option Name}
    (hlabel : ∀ label ∈ label?.map (·.text), label ∈ ctx.inner ∨ label ∈ ctx.own) (stopped : Bool) :
    (label?.map (·.text)).toList.filter (Pass.jumps ctx.inner rest).keeps =
      if ctx.target label? stopped = .loop then [] else (label?.map (·.text)).toList := by
  cases label? with
  | none => exact (ite_self []).symm
  | some name =>
      have hname := hlabel name.text rfl
      have hkeeps : (Pass.jumps ctx.inner rest).keeps name.text =
          decide (name.text ∈ ctx.inner) := rfl
      simp only [Option.map_some, Option.toList_some, JumpContext.target]
      by_cases hinner : name.text ∈ ctx.inner
      · simp [hkeeps, hinner]
      · simp [hkeeps, hinner, hname.resolve_left hinner]

/-- A jump to the loop may become a statement that tells nothing. -/
theorem Node.Alike.target {form : Form} (hform : form.isJump = true) {label? : Option Name}
    (hlabels : form.jumpLabels = (label?.map (·.text)).toList) {span : Span} {parts : List Node}
    (hwf : (Node.mk form span parts).isWellFormed = true) (hparts : form.shape = .fixed [])
    (hjumps : ∀ label ∈ (Node.mk form span parts).outerLabels, label ∈ ctx.inner ∨ label ∈ ctx.own)
    {stmt : Node} (hsort : stmt.form = .returnStmt ∨ stmt.form = .block)
    (hstmt : stmt.IsSilent judged (.jumps ctx.inner rest)) (stopped : Bool) :
    (Node.mk form span parts).Alike judged (.jumps ctx.inner rest)
      (if ctx.target label? stopped = .loop then stmt else .mk form span parts) := by
  obtain rfl := Node.parts_eq_nil hparts (by rintro rfl; cases hform) hwf
  have hself : (Node.mk form span []).JumpsTo judged (.jumps ctx.inner rest) form.jumpLabels :=
    Node.jumpsTo_mk hform
  rw [hself.labels, hlabels] at hjumps
  have hfilter : form.jumpLabels.filter (Pass.jumps ctx.inner rest).keeps =
      if ctx.target label? stopped = .loop then [] else form.jumpLabels := by
    rw [hlabels]
    exact JumpContext.filter_keeps (fun label hmem => hjumps label (by simpa using hmem)) stopped
  refine hself.alike ?_
  rw [hfilter]
  split
  · exact hstmt.jumpsTo hsort
  · exact hself

/-- Redirecting a jump, if it goes to the loop or stays in its body. -/
theorem Node.Alike.redirect_jump
    (hback : ∀ stmt ∈ redirection.writeBack,
      stmt.IsSilent judged (.jumps ctx.inner rest) ∧ stmt.lexicalNames = [])
    {form : Form} (hform : form.isJump = true) {span : Span} {parts : List Node}
    (hwf : (Node.mk form span parts).isWellFormed = true)
    (hjumps : ∀ label ∈ (Node.mk form span parts).outerLabels, label ∈ ctx.inner ∨
      label ∈ ctx.own) :
    (Node.mk form span parts).Alike judged (.jumps ctx.inner rest)
      ((Node.mk form span parts).redirect redirection ctx) := by
  cases form with
  | breakStmt label? =>
      have hleave : (Completion.leave.toReturn redirection.options span).IsSilent judged
          (.jumps ctx.inner rest) :=
        (Node.isInert_mk rfl _ _).isSilent (fun _ _ _ => rfl)
          (List.forall_mem_singleton.mpr (Node.isSilent_leaf rfl _ fun _ => rfl))
      exact .target rfl (by cases label? <;> rfl) hwf rfl hjumps (Or.inl rfl) hleave _
  | continueStmt label? =>
      obtain ⟨hsort, hnext⟩ := redirection.isSilent_continueStmt hback span
      exact .target rfl (by cases label? <;> rfl) hwf rfl hjumps hsort hnext _
  | returnStmt => exact .toReturn redirection.options hwf
  | _ => cases hform

/-- Redirecting keeps the verdicts on the loops of a tree, if every jump out of the body goes to
the loop whose body it is. -/
theorem Node.Alike.redirect
    (hback : ∀ pass : Pass, pass.staysOutside = true →
      ∀ stmt ∈ redirection.writeBack, stmt.IsSilent judged pass ∧ stmt.lexicalNames = [])
    {node : Node} (hwf : node.isWellFormed = true) (ctx : JumpContext)
    (hown : ∀ label ∈ ctx.own, rest.lookup label = some true)
    (hjumps : ∀ label ∈ node.outerLabels, label ∈ ctx.inner ∨ label ∈ ctx.own) :
    node.Alike judged (.jumps ctx.inner rest) (node.redirect redirection ctx) := by
  induction node using Node.inductionOn generalizing ctx with
  | step form span parts ih =>
      have hpartWf : ∀ part ∈ parts, part.isWellFormed = true :=
        fun part hmem => Node.isWellFormed_part hwf hmem
      cases hquiet : (Node.mk form span parts).isQuiet with
      | true =>
          rw [Node.redirect_of_isQuiet redirection ctx hwf hquiet]
          exact .of_isQuiet hwf hquiet
      | false =>
      cases hclosure : form.isClosure with
      | true =>
          unfold Node.redirect
          rw [if_pos hclosure]
          exact .of_isClosure hclosure
      | false =>
      cases hjump : form.isJump with
      | true => exact .redirect_jump (hback _ rfl) hjump hwf hjumps
      | false =>
          rw [Node.redirect_mk redirection ctx hclosure hjump]
          have hparts : List.Forall₂ (Node.Alike judged ((Pass.jumps ctx.inner rest).inside form))
              parts (parts.map (Node.redirect redirection (ctx.enter form))) := by
            rw [ctx.inside_enter]
            refine List.forall₂_map_right_iff.mpr (List.forall₂_same.mpr fun part hmem => ?_)
            refine ih part hmem (hpartWf part hmem) (ctx.enter form) (by rwa [ctx.own_enter])
              fun label hlabel => ?_
            rw [ctx.own_enter]
            rcases Node.mem_outerLabels_of_mem_part hclosure hmem hlabel with
              ⟨name, rfl, rfl⟩ | houter
            · exact Or.inl List.mem_cons_self
            · exact (hjumps label houter).imp_left ctx.mem_inner_enter
          have hdecl : ∀ kind declare, form ≠ .varDecl kind declare := by
            rintro kind declare rfl
            cases hquiet
          have hcovers : ∀ label ∈ (Node.mk form span parts).outerLabels,
              (Pass.jumps ctx.inner rest).Covers label := fun label hmem =>
            (hjumps label hmem).imp (by simp [Pass.keeps]) (hown label)
          refine .node (.stmt rfl hclosure hdecl hcovers ?_ ?_) hparts
          · rw [Form.jumpLabels_of_isJump hjump]
            exact fun _ hmem => absurd hmem List.not_mem_nil
          · refine Node.reads_congr hclosure (Node.head?_redirect _ hwf) fun _ => ?_
            rw [lexicalNamesOf, lexicalNamesOf, List.flatMap_map]
            exact List.flatMap_congr fun part hmem =>
              Node.lexicalNames_redirect _ (hpartWf part hmem)

end

end LoopLowering
