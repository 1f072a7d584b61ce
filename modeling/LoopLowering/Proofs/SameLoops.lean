/-
A loop body on its way into a function, or flattened in place.

What is done to the body of a loop that is lowered keeps the verdicts on the loops in it,
whatever labels stand around them: hoisting, renaming, naming `this` and `arguments`.  That
leaves flattening, which declares by `var` what was declared in blocks.  It leaves loops as
they are but for names, and a block that declares less tells no more.

`SameLoops` is what all these steps have in common, so that they can be put one after the
other.
-/
import LoopLowering.Proofs.AlikeNames
import LoopLowering.Proofs.AlikeStmts

namespace LoopLowering

/-- The loops of the second list are those of the first, with the same verdicts under whatever
labels, and the jumps out of it go to the same labels. -/
structure SameLoops (judged : Bool) (nodes others : List Node) : Prop where
  labels : outerLabelsIn others = outerLabelsIn nodes
  sound : everywhereIn (Node.isSound judged) nodes = true →
    everywhereIn (Node.isSound judged) others = true
  verdicts : ∀ around, verdictsIn judged around others = verdictsIn judged around nodes

variable {judged : Bool} {names names' : Registry}

namespace SameLoops

variable {nodes others more : List Node}

theorem refl (nodes : List Node) : SameLoops judged nodes nodes := ⟨rfl, id, fun _ => rfl⟩

theorem trans (h : SameLoops judged nodes others) (hmore : SameLoops judged others more) :
    SameLoops judged nodes more :=
  ⟨hmore.labels.trans h.labels, hmore.sound ∘ h.sound,
    fun around => (hmore.verdicts around).trans (h.verdicts around)⟩

theorem cons {node other : Node} (hhead : SameLoops judged [node] [other])
    (h : SameLoops judged nodes others) : SameLoops judged (node :: nodes) (other :: others) where
  labels := by
    have hlabels := hhead.labels
    simp only [outerLabelsIn, List.append_nil] at hlabels ⊢
    rw [hlabels, h.labels]
  sound := by
    have hsound := hhead.sound
    simp only [everywhereIn, Bool.and_true, Bool.and_eq_true] at hsound ⊢
    exact And.imp hsound h.sound
  verdicts around := by
    have hverdicts := hhead.verdicts around
    simp only [verdictsIn_cons, verdictsIn_nil, List.append_nil] at hverdicts ⊢
    rw [hverdicts, h.verdicts around]

theorem of_forall₂ (h : List.Forall₂ (fun a b => SameLoops judged [a] [b]) nodes others) :
    SameLoops judged nodes others := by
  induction h with
  | nil => exact refl []
  | cons hhead _ ih => exact hhead.cons ih

/-- A rewriting that changes no jump keeps the loops. -/
theorem of_alikeIn {pass : Pass} (h : AlikeIn judged pass nodes others)
    (hkeeps : ∀ label, pass.keeps label = true) (hrest : pass.rest = [])
    (hunder : ∀ around, pass.Under around) : SameLoops judged nodes others where
  labels := h.labels.trans (List.filter_eq_self.mpr fun label _ => hkeeps label)
  sound hsound := h.sound.trans hsound
  verdicts around := by
    have hverdicts := h.verdicts around (hunder around)
    rwa [hrest, List.append_nil] at hverdicts

theorem of_stmts (h : AlikeIn judged .stmts nodes others) : SameLoops judged nodes others :=
  of_alikeIn h (fun _ => rfl) rfl fun _ => trivial

theorem of_renames {avoided : List String}
    (h : List.Forall₂ (Node.Renames judged avoided) nodes others) : SameLoops judged nodes others :=
  of_alikeIn (Node.Renames.alikeIn h) (fun _ => rfl) rfl fun _ => trivial

theorem map_of_renames (avoided : List String) {f : Node → Node}
    (h : ∀ node ∈ nodes, node.Renames judged avoided (f node)) :
    SameLoops judged nodes (nodes.map f) :=
  of_renames (List.forall₂_map_right_iff.mpr (List.forall₂_same.mpr h))

/-- Renaming to a name that is not known. -/
theorem rename (hwf : ∀ node ∈ nodes, node.isWellFormed = true)
    (hknown : ∀ node ∈ nodes, node.Known names) {old new : String} (hnew : new ∉ names.taken) :
    SameLoops judged nodes (nodes.map (·.rename old new)) := by
  exact map_of_renames [old, new] fun node hmem =>
    .rename (hwf node hmem) ((hknown node hmem).notMem hnew)

/-- The same node around parts with the same loops, if it is no loop itself. -/
theorem node {form : Form} (hclosure : form.isClosure = false) {span : Span}
    {parts parts' : List Node} (hbefore : (Node.mk form span parts).isCandidate = false)
    (hafter : (Node.mk form span parts').isCandidate = false)
    (hsound : (Node.mk form span parts).isSound judged = true →
      (Node.mk form span parts').isSound judged = true)
    (h : SameLoops judged parts parts') :
    SameLoops judged [.mk form span parts] [.mk form span parts'] := by
  have hwhole : everywhereIn (Node.isSound judged) [.mk form span parts] = true →
      everywhereIn (Node.isSound judged) [.mk form span parts'] = true := by
    simp only [everywhereIn, Node.everywhere, Bool.and_true, Bool.and_eq_true]
    exact And.imp hsound h.sound
  by_cases hlabel : ∃ label, form = .labeled label
  · obtain ⟨label, rfl⟩ := hlabel
    refine ⟨?_, hwhole, fun around => ?_⟩
    · simp only [outerLabelsIn, Node.outerLabels_labeled, h.labels]
    · simp only [verdictsIn_cons, verdictsIn_nil, Node.verdicts_labeled,
        Node.extracts_of_not_isCandidate hbefore,
        Node.extracts_of_not_isCandidate hafter, h.verdicts]
  · have hlabel : ∀ label, form ≠ .labeled label := fun label e => hlabel ⟨label, e⟩
    refine ⟨?_, hwhole, fun around => ?_⟩
    · simp only [outerLabelsIn, Node.outerLabels_mk hclosure hlabel, h.labels]
    · simp only [verdictsIn_cons, verdictsIn_nil,
        Node.verdicts_of_not_isCandidate hclosure hlabel hbefore,
        Node.verdicts_of_not_isCandidate hclosure hlabel hafter, h.verdicts]

end SameLoops

/-! ### Declarations -/

/-- A declaration is its declarators, however it scopes their names. -/
theorem SameLoops.varDecl {kind kind' : VarKind} {declare : Bool} {span : Span}
    {declarators declarators' : List Node} (h : SameLoops judged declarators declarators') :
    SameLoops judged [.varDecl kind declare span declarators]
      [.varDecl kind' declare span declarators'] := by
  have hlabels : ∀ kind ds, (Node.varDecl kind declare span ds).outerLabels = outerLabelsIn ds :=
    fun kind ds => Node.outerLabels_mk rfl (by simp) span ds
  have hverdicts : ∀ kind ds around, (Node.varDecl kind declare span ds).verdicts judged around =
      verdictsIn judged around ds :=
    fun kind ds around => Node.verdicts_of_not_isCandidate rfl (by simp) rfl
  refine ⟨?_, ?_, fun around => ?_⟩
  · simp only [outerLabelsIn, hlabels, h.labels]
  · simp only [everywhereIn, Node.everywhere, Bool.and_true, Bool.and_eq_true]
    exact And.imp (fun _ => by cases judged <;> rfl) h.sound
  · simp only [verdictsIn_cons, verdictsIn_nil, hverdicts, h.verdicts]

theorem SameLoops.resetInit {declarator : Node} (hwf : declarator.isWellFormed = true) :
    SameLoops judged [declarator] [declarator.resetInit] := by
  unfold Node.resetInit
  split
  · next definite span pattern init =>
    cases habsent : init.isAbsent with
    | false => exact .refl _
    | true =>
        obtain ⟨initSpan, rfl⟩ :=
          Node.eq_absent_of_isAbsent (Node.isWellFormed_part hwf (by simp)) habsent
        have hzero : (Node.mk (.number 0 none) span []).IsSilent judged .stmts :=
          Node.isSilent_leaf rfl _ fun _ => rfl
        have hundefined : (Node.undefined span).IsSilent judged .stmts :=
          (Node.isInert_mk rfl _ _).isSilent (fun _ _ _ => rfl)
          (List.forall_mem_singleton.mpr hzero)
        have hinits : AlikeIn judged .stmts [.mk .absent initSpan []] [.undefined span] :=
          (AlikeIn.nil.silent_right hundefined).silent_left (Node.isSilent_leaf rfl _ fun _ => rfl)
        refine .of_stmts (AlikeIn.nil.cons
          (.inert (Node.isInert_mk rfl _ _) (Node.isInert_mk rfl _ _)
          (hinits.cons (.refl (fun _ => rfl) rfl pattern)) fun _ _ _ => rfl))
  · exact .refl _

/-- Declaring by `var` what was declared by `let` or `const`. -/
theorem SameLoops.flattenDecl (reset : Bool) {node : Node} (hwf : node.isWellFormed = true) :
    SameLoops judged [node] [node.flattenDecl reset] := by
  unfold Node.flattenDecl
  split
  · refine .varDecl ?_
    split
    · refine .of_forall₂ (List.forall₂_map_right_iff.mpr (List.forall₂_same.mpr fun d hmem => ?_))
      exact .resetInit (Node.isWellFormed_part hwf hmem)
    · exact .refl _
  · exact .refl _

theorem Node.blockScopedNames_subset_lexicalNames (node : Node) :
    node.blockScopedNames ⊆ node.lexicalNames := by
  unfold Node.blockScopedNames
  split
  · exact List.Subset.refl _
  · exact List.nil_subset _

/-- What is flattened declares no more than before. -/
theorem Node.lexicalNames_flattenDecl (reset : Bool) (node : Node) :
    (node.flattenDecl reset).lexicalNames ⊆ node.lexicalNames := by
  unfold Node.flattenDecl
  split
  · exact List.nil_subset _
  · exact List.Subset.refl _

/-! ### Clashing names -/

/-- A suffixed name is none without the sign before the suffix. -/
theorem Registry.suffixed_ne {name : String} (h : '$' ∉ name.toList) (base : String) (n : Nat) :
    Registry.suffixed base n ≠ name := by
  rintro rfl
  simp [Registry.suffixed] at h

/-- A suffixed name is not `arguments`. -/
theorem Registry.suffixed_ne_arguments (base : String) (n : Nat) :
    Registry.suffixed base n ≠ "arguments" :=
  Registry.suffixed_ne (by decide) base n

/-- Renaming clashing names keeps the loops of a statement list, and declares `arguments` only if
it was declared. -/
theorem SameLoops.renameClashing (clashes : String → Bool) {vars : List String} {stmts : List Node}
    (hwf : ∀ stmt ∈ stmts, stmt.isWellFormed = true) (hknown : ∀ stmt ∈ stmts, stmt.Known names) :
    SameLoops judged stmts ((renameClashing clashes vars stmts).run names).1 ∧
      ("arguments" ∉ vars → "arguments" ∉ lexicalNamesOf stmts →
        "arguments" ∉ lexicalNamesOf
          ((LoopLowering.renameClashing clashes vars stmts).run names).1) := by
  induction vars generalizing stmts names with
  | nil => exact ⟨.refl stmts, fun _ => id⟩
  | cons name vars ih =>
      unfold LoopLowering.renameClashing
      split
      · have hnew : (names.rename name).1 ∉ names.taken := Registry.rename_notMem names name
        have hsub := (Naming.draws_rename name).subset names
        have htaken : (names.rename name).1 ∈ (names.rename name).2.taken :=
          Registry.taken_rename names name ▸ List.mem_cons_self
        have hrenames : List.Forall₂ (Node.Renames judged [name, (names.rename name).1]) stmts
            (stmts.map (·.rename name (names.rename name).1)) :=
          List.forall₂_map_right_iff.mpr (List.forall₂_same.mpr fun stmt hmem =>
            .rename (hwf stmt hmem) ((hknown stmt hmem).notMem hnew))
        have hfits := (forall₂_stands_rename name (names.rename name).1 hwf).imp
          fun _ _ hs => hs.toFits
        have hafter : ∀ stmt ∈ stmts.map (·.rename name (names.rename name).1),
            stmt.Known (names.rename name).2 := by
          simpa using fun stmt hmem => ((hknown stmt hmem).mono hsub).rename htaken
        obtain ⟨hrest, hdeclared⟩ := ih (Node.Fits.wellFormed_of_forall₂ hfits) hafter
        refine ⟨(of_renames hrenames).trans hrest, fun hvars hlexical => ?_⟩
        rw [List.mem_cons, not_or] at hvars
        refine hdeclared hvars.2 fun hmem => ?_
        have hkept := Node.BindsLike.lexicalNamesOf (hrenames.imp fun _ _ h => h.binds)
        rcases hkept.mem _ hmem with hmem | hmem
        · exact hlexical hmem
        · simp only [List.mem_cons, List.not_mem_nil, or_false] at hmem
          exact hmem.elim hvars.1 fun h => Registry.suffixed_ne_arguments _ _ h.symm
      · obtain ⟨hrest, hdeclared⟩ := ih hwf hknown
        exact ⟨hrest, fun hvars => hdeclared fun hmem => hvars (List.mem_cons_of_mem _ hmem)⟩

/-! ### The blocks of a body -/

/-- A change of statement lists that draws its names keeps the loops in them, and does not make
them declare `arguments`. -/
structure KeepsLoopsIn (judged : Bool) (change : List Node → Naming (List Node)) : Prop where
  draws : ∀ stmts, (change stmts).Draws
  keeps : ∀ {stmts names}, (∀ stmt ∈ stmts, stmt.isWellFormed = true) →
    (∀ stmt ∈ stmts, stmt.Known names) →
      SameLoops judged stmts ((change stmts).run names).1 ∧
        ("arguments" ∉ lexicalNamesOf stmts →
          "arguments" ∉ lexicalNamesOf ((change stmts).run names).1)

section Blocks

variable {change : Bool → List Node → Naming (List Node)} {again : Bool}

theorem changeBlocksIn_eq_self {nodes : List Node}
    (h : ∀ node ∈ nodes, ∀ names, (node.changeBlocks change again).run names = (node, names))
    (names : Registry) : (changeBlocksIn change again nodes).run names = (nodes, names) := by
  induction nodes with
  | nil => rfl
  | cons node nodes ih =>
      rw [List.forall_mem_cons] at h
      simp only [changeBlocksIn, Naming.run_bind, Naming.run_pure, h.1, ih h.2]

/-- A quiet node has no blocks outside closures. -/
theorem Node.changeBlocks_of_isQuiet {node : Node} (hwf : node.isWellFormed = true)
    (hquiet : node.isQuiet = true) (names : Registry) :
    (node.changeBlocks change again).run names = (node, names) := by
  induction node using Node.inductionOn generalizing again names with
  | step form span parts ih =>
      unfold Node.changeBlocks
      split
      · rfl
      · next hstop =>
        simp only [Bool.or_eq_true, not_or, Bool.not_eq_true] at hstop
        split
        · cases hquiet
        · have hsame : (changeBlocksIn change (again || form.isLoop) parts).run names =
              (parts, names) :=
            changeBlocksIn_eq_self (fun part hmem => ih part hmem
              (Node.isWellFormed_part hwf hmem) (Node.isQuiet_part hwf hquiet hstop.1 hmem)) names
          simp only [Naming.run_bind, Naming.run_pure, hsame]

/-- Changing blocks leaves what stands in front of a body alone. -/
theorem Node.head?_changeBlocksIn {form : Form} {span : Span} {parts : List Node}
    (hwf : (Node.mk form span parts).isWellFormed = true) (hreads : form.readsFirst = true)
    (names : Registry) :
    ((changeBlocksIn change again parts).run names).1.head? = parts.head? := by
  obtain ⟨first, rest, rfl, hfirst, hquiet⟩ := Node.exists_of_readsFirst hwf hreads
  simp only [changeBlocksIn, Naming.run_bind, Naming.run_pure, List.head?_cons,
    Node.changeBlocks_of_isQuiet hfirst hquiet]

theorem Node.DeclaresAs.changeBlocks {node : Node} (hwf : node.isWellFormed = true)
    (names : Registry) : node.DeclaresAs ((node.changeBlocks change again).run names).1 := by
  obtain ⟨form, span, parts⟩ := node
  refine ⟨fun hform => ?_, fun hform => ?_⟩
  · obtain ⟨⟨hlist, -⟩, -, hslots⟩ := Form.slots_of_declaresInBlock hform
    obtain ⟨hshape, hparts⟩ := Node.isWellFormed_mk.mp hwf
    have hquiet : ∀ part ∈ parts, part.isQuiet = true := by
      intro part hmem
      obtain ⟨slot, hslot, hadmits⟩ := Shape.exists_slot (hshape.resolve_left hlist) hmem
      have hkind := List.all_eq_true.mp hslots slot hslot
      rw [Slot.isQuiet, Bool.and_eq_true, Bool.not_eq_true'] at hkind
      exact Slot.allAre_of_admits rfl hkind.1 (by simpa using hkind.2) hadmits
    have hsame : ∀ again, (changeBlocksIn change again parts).run names = (parts, names) :=
      fun again => changeBlocksIn_eq_self (fun part hmem =>
        Node.changeBlocks_of_isQuiet (hparts part hmem) (hquiet part hmem)) names
    unfold Node.changeBlocks
    split
    · rfl
    · split
      · cases hform
      · simp only [Naming.run_bind, Naming.run_pure, hsame]
  · unfold Node.changeBlocks
    split
    · exact hform
    · split
      · rfl
      · exact hform

/-- Changing blocks leaves the names a statement declares alone. -/
theorem Node.lexicalNames_changeBlocks {node : Node} (hwf : node.isWellFormed = true)
    (names : Registry) :
    ((node.changeBlocks change again).run names).1.lexicalNames = node.lexicalNames :=
  (DeclaresAs.changeBlocks hwf names).lexicalNames

/-- What changing blocks does to each tree of a list it does after names were drawn for the trees
before it. -/
theorem forall₂_changeBlocksIn_of_grows {related : Node → Node → Prop} {nodes : List Node}
    (hdraws : ∀ node ∈ nodes, (node.changeBlocks change again).Draws)
    (h : ∀ node ∈ nodes, ∀ names' : Registry, names.taken ⊆ names'.taken →
      related node ((node.changeBlocks change again).run names').1) :
    List.Forall₂ related nodes ((changeBlocksIn change again nodes).run names).1 := by
  induction nodes generalizing names with
  | nil => exact .nil
  | cons node nodes ih =>
      rw [List.forall_mem_cons] at hdraws h
      refine .cons (h.1 names (List.Subset.refl _)) (ih hdraws.2 fun other hother names' hsub => ?_)
      exact h.2 other hother names' (List.Subset.trans (hdraws.1.subset names) hsub)

theorem forall₂_changeBlocksIn_of_known {related : Node → Node → Prop} {nodes : List Node}
    (hdraws : ∀ node ∈ nodes, (node.changeBlocks change again).Draws)
    (h : ∀ node ∈ nodes, ∀ names, node.Known names →
      related node ((node.changeBlocks change again).run names).1)
    (hknown : ∀ node ∈ nodes, node.Known names) :
    List.Forall₂ related nodes ((changeBlocksIn change again nodes).run names).1 :=
  forall₂_changeBlocksIn_of_grows hdraws fun node hmem names' hsub =>
    h node hmem names' ((hknown node hmem).mono hsub)

/-- The second node has the loops of the first, and is one of them if the first is. -/
structure Node.KeepsLoops (judged : Bool) (a b : Node) : Prop where
  candidate : b.isCandidate = a.isCandidate
  lexical : b.isLexicalDecl = a.isLexicalDecl
  loops : SameLoops judged [a] [b]

theorem Node.KeepsLoops.refl (node : Node) : node.KeepsLoops judged node := ⟨rfl, rfl, .refl _⟩

/-- The same node, unless it is a block, around parts with the same loops. -/
theorem Node.KeepsLoops.node {form : Form} (hclosure : form.isClosure = false)
    (hblock : form ≠ .block) {span : Span} {parts parts' : List Node}
    (hcandidate : (Node.mk form span parts).isCandidate = false)
    (hfirst : form.readsFirst = true → parts'.head? = parts.head?)
    (h : List.Forall₂ (Node.KeepsLoops judged) parts parts') :
    (Node.mk form span parts).KeepsLoops judged (.mk form span parts') := by
  have hlexical : List.Forall₂ (fun a b => b.isLexicalDecl = a.isLexicalDecl) parts parts' :=
    h.imp fun _ _ hpart => hpart.lexical
  have hafter : (Node.mk form span parts').isCandidate = false := by
    by_cases hlabel : ∃ label, form = .labeled label
    · obtain ⟨label, rfl⟩ := hlabel
      match parts, parts', h with
      | [], [], _ => rfl
      | [part], [part'], .cons hpart .nil =>
          rw [Node.isCandidate_labeled] at hcandidate ⊢
          rw [hpart.candidate, hcandidate]
      | _ :: _ :: _, _ :: _ :: _, _ => rfl
    · rw [Node.isCandidate_eq_false] at hcandidate ⊢
      exact Node.ofNode?_eq_none (fun label e => hlabel ⟨label, e⟩) hlexical hcandidate
  obtain ⟨hhead, hscope⟩ := @Node.reads_congr form span parts parts' hclosure hfirst
    fun e => absurd e hblock
  refine ⟨hafter.trans hcandidate.symm, rfl, .node hclosure hcandidate hafter ?_
    (.of_forall₂ (h.imp fun _ _ hpart => hpart.loops))⟩
  rw [Node.isSound, Node.isSound, Node.keepsArguments, Node.keepsArguments, hhead, hscope]
  exact id

/-- Changing the blocks of a tree keeps its loops. -/
theorem Node.KeepsLoops.changeBlocks (hchange : ∀ again, KeepsLoopsIn judged (change again))
    {node : Node} (hwf : node.isWellFormed = true) (hknown : node.Known names) :
    node.KeepsLoops judged ((node.changeBlocks change again).run names).1 := by
  induction node using Node.inductionOn generalizing again names with
  | step form span parts ih =>
      have hpartWf : ∀ part ∈ parts, part.isWellFormed = true :=
        fun part hmem => Node.isWellFormed_part hwf hmem
      have hpartKnown : ∀ part ∈ parts, part.Known names := fun part hmem => hknown.part hmem
      unfold Node.changeBlocks
      split
      · exact .refl _
      · next hstop =>
        simp only [Bool.or_eq_true, not_or, Bool.not_eq_true] at hstop
        split
        · obtain ⟨hloops, harguments⟩ := (hchange again).keeps hpartWf hpartKnown
          refine ⟨rfl, rfl, .node rfl rfl rfl (fun hsound => ?_) hloops⟩
          exact Node.isSound_block.mpr fun hjudged =>
            harguments (Node.isSound_block.mp hsound hjudged)
        · next hblock =>
          refine .node hstop.1 hblock hstop.2
            (fun hreads => Node.head?_changeBlocksIn hwf hreads names) ?_
          refine forall₂_changeBlocksIn_of_known
            (fun part _ => part.draws_changeBlocks (fun again => (hchange again).draws) _)
            (fun part hmem names hpart => ih part hmem (hpartWf part hmem) hpart) hpartKnown

end Blocks

/-- Declaring by `var` the names of a statement list, after those that clash are renamed. -/
theorem SameLoops.flattenDecls (clashes : String → Bool) (again : Bool) {stmts : List Node}
    (hwf : ∀ stmt ∈ stmts, stmt.isWellFormed = true) (hknown : ∀ stmt ∈ stmts, stmt.Known names) :
    let result :=
  (LoopLowering.renameClashing clashes (stmts.flatMap Node.blockScopedNames) stmts).run
      names
    let flat := result.1.map (·.flattenDecl again)
    ((∀ stmt ∈ flat, stmt.isWellFormed = true) ∧ ∀ stmt ∈ flat, stmt.Known result.2) ∧
      SameLoops judged stmts flat ∧
      ("arguments" ∉ lexicalNamesOf stmts → "arguments" ∉ lexicalNamesOf flat) := by
  intro result flat
  have hfits := forall₂_fits_renameClashing clashes (stmts.flatMap Node.blockScopedNames) hwf names
  have hrenamedWf : ∀ stmt ∈ result.1, stmt.isWellFormed = true :=
    Node.Fits.wellFormed_of_forall₂ hfits
  have hrenamedKnown : ∀ stmt ∈ result.1, stmt.Known result.2 :=
    keeps_renameClashing clashes _ stmts names hknown
  obtain ⟨hrename, harguments⟩ : SameLoops judged stmts result.1 ∧ _ :=
    SameLoops.renameClashing clashes hwf hknown
  have hflat : SameLoops judged result.1 flat :=
    .of_forall₂ (List.forall₂_map_right_iff.mpr
      (List.forall₂_same.mpr fun stmt hmem => .flattenDecl again (hrenamedWf stmt hmem)))
  refine ⟨⟨?_, ?_⟩, hrename.trans hflat, fun hnone hmem => ?_⟩
  · exact List.forall_mem_map.mpr fun stmt hmem =>
      (Node.Fits.flattenDecl again (hrenamedWf stmt hmem)).wellFormed
  · exact List.forall_mem_map.mpr fun stmt hmem => (hrenamedKnown stmt hmem).flattenDecl again
  · refine harguments (fun hdeclared => hnone ?_) hnone ?_
    · obtain ⟨stmt, hstmt, hname⟩ := List.mem_flatMap.mp hdeclared
      exact List.mem_flatMap.mpr ⟨stmt, hstmt, stmt.blockScopedNames_subset_lexicalNames hname⟩
    · obtain ⟨_, hmap, hname⟩ := List.mem_flatMap.mp hmem
      obtain ⟨stmt, hstmt, rfl⟩ := List.mem_map.mp hmap
      exact List.mem_flatMap.mpr ⟨stmt, hstmt, stmt.lexicalNames_flattenDecl again hname⟩

/-- What is read off each of two lists of trees is the same if it is the same for each two trees. -/
theorem flatMap_congr_of_forall₂ {α : Type} {read : Node → List α} {nodes others : List Node}
    (h : List.Forall₂ (fun a b => read b = read a) nodes others) :
    others.flatMap read = nodes.flatMap read := by
  induction h with
  | nil => rfl
  | cons hhead _ ih => rw [List.flatMap_cons, List.flatMap_cons, hhead, ih]

theorem lexicalNamesOf_congr {stmts stmts' : List Node}
    (h : List.Forall₂ (fun a b => b.lexicalNames = a.lexicalNames) stmts stmts') :
    lexicalNamesOf stmts' = lexicalNamesOf stmts :=
  flatMap_congr_of_forall₂ h

/-- Flattening a statement list keeps the loops in it. -/
theorem keepsLoopsIn_flattenTo (clashes : String → Bool) (depth : Nat) (again : Bool) :
    KeepsLoopsIn judged (flattenTo clashes depth again) := by
  induction depth generalizing again with
  | zero => exact ⟨fun _ => Naming.draws_pure _, fun _ _ => ⟨.refl _, id⟩⟩
  | succ depth ih =>
      refine ⟨draws_flattenTo clashes _ again, fun {stmts names} hwf hknown => ?_⟩
      obtain ⟨⟨hflatWf, hflatKnown⟩, hflat, harguments⟩ :=
        @SameLoops.flattenDecls judged names clashes again stmts hwf hknown
      have hblocks : List.Forall₂ (fun a b =>
          SameLoops judged [a] [b] ∧ b.lexicalNames = a.lexicalNames) _ _ :=
        forall₂_changeBlocksIn_of_known
          (fun stmt _ => stmt.draws_changeBlocks (draws_flattenTo clashes depth) again)
          (fun stmt hmem names hstmt =>
            ⟨(Node.KeepsLoops.changeBlocks ih (hflatWf stmt hmem) hstmt).loops,
              Node.lexicalNames_changeBlocks (hflatWf stmt hmem) names⟩) hflatKnown
      refine ⟨hflat.trans (.of_forall₂ (hblocks.imp fun _ _ h => h.1)), fun hnone => ?_⟩
      have hnames := lexicalNamesOf_congr (hblocks.imp fun _ _ h => h.2)
      intro hmem
      exact harguments hnone (hnames ▸ hmem)

theorem SameLoops.flattenStmts {clashes : String → Bool} {again : Bool} {stmts stmts' : List Node}
    (hwf : ∀ stmt ∈ stmts, stmt.isWellFormed = true) (hknown : ∀ stmt ∈ stmts, stmt.Known names)
    (hrun : (flattenStmts clashes again stmts).run names = (stmts', names')) :
    SameLoops judged stmts stmts' := by
  have hkept : SameLoops judged stmts _ :=
    ((keepsLoopsIn_flattenTo clashes (blockDepthOf stmts + 1) again).keeps hwf hknown).1
  unfold LoopLowering.flattenStmts at hrun
  rwa [hrun] at hkept

theorem SameLoops.flatten {clashes : String → Bool} {body body' : Node}
    (hwf : body.isWellFormed = true) (hknown : body.Known names)
    (hrun : (body.flatten clashes).run names = (body', names')) :
    SameLoops judged [body] [body'] := by
  unfold Node.flatten at hrun
  have hkept := (Node.KeepsLoops.changeBlocks (keepsLoopsIn_flattenTo clashes body.blockDepth) hwf
    hknown : body.KeepsLoops judged
      ((body.changeBlocks (flattenTo clashes body.blockDepth) true).run names).1).loops
  rwa [hrun] at hkept

/-! ### Loop variables -/

/-- The parts of the head of a loop. -/
def Loop.headParts (loop : Loop) : List Node := loop.decl.declarators ++ loop.head.exprs

theorem Loop.WellFormed.headParts {loop : Loop} (h : loop.WellFormed) :
    ∀ part ∈ loop.headParts, part.isWellFormed = true :=
  List.forall_mem_append.mpr ⟨fun _ hmem => Node.isWellFormed_part h.decl hmem,
    fun expr hmem => (h.exprs expr hmem).2⟩

theorem Loop.Known.headParts {loop : Loop} (h : loop.Known names) :
    ∀ part ∈ loop.headParts, part.Known names :=
  List.forall_mem_append.mpr ⟨h.declarators, h.exprs⟩

/-- Renaming loop variables keeps the loops in the head of a loop, and those in a tree in which
they are renamed in the same way. -/
theorem Loop.sameLoops_renameMentioned (mentioned : String → Bool)
    (vars : List String) {loop : Loop} (hwf : loop.WellFormed)
    (hknown : loop.Known names) {node : Node}
    (hnode : node.isWellFormed = true) (hnodeKnown : node.Known names) :
    let result := ((loop.renameMentioned mentioned vars).run names).1
    SameLoops judged loop.headParts result.2.headParts ∧
      SameLoops judged [node] [renameAll (vars.zip result.1) node] := by
  induction vars generalizing loop names node with
  | nil => exact ⟨.refl _, .refl _⟩
  | cons name vars ih =>
      unfold Loop.renameMentioned
      split
      · have hnew : (names.rename name).1 ∉ names.taken := Registry.rename_notMem names name
        have hsub := (Naming.draws_rename name).subset names
        have htaken : (names.rename name).1 ∈ (names.rename name).2.taken :=
          Registry.taken_rename names name ▸ List.mem_cons_self
        have hhead : SameLoops judged loop.headParts
            (loop.renameHead name (names.rename name).1).headParts := by
          have hrename : SameLoops judged loop.headParts
              (loop.headParts.map (·.rename name (names.rename name).1)) :=
            .rename hwf.headParts hknown.headParts hnew
          simpa [Loop.headParts, Loop.renameHead] using hrename
        have hbody : SameLoops judged [node] [node.rename name (names.rename name).1] :=
          .rename (by simpa using hnode) (by simpa using hnodeKnown) hnew
        obtain ⟨hheadRest, hbodyRest⟩ := ih
          (Loop.Renamed.renameHead name (names.rename name).1 hwf).wellFormed
          ((hknown.mono hsub).renameHead name htaken)
          (Node.Stands.rename name (names.rename name).1 hnode).wellFormed
          ((hnodeKnown.mono hsub).rename htaken)
        exact ⟨hhead.trans hheadRest, hbody.trans hbodyRest⟩
      · obtain ⟨hhead, hbody⟩ := ih hwf hknown hnode hnodeKnown
        refine ⟨hhead, ?_⟩
        change SameLoops judged [node] [renameAll (vars.zip _) (node.rename name name)]
        rw [Node.rename_self]
        exact hbody

/-- Choosing parameters keeps the loops of a statement list. -/
theorem SameLoops.chooseParams (writtenBack : String → Bool) (vars : List (String × String))
    {stmts : List Node} (hwf : ∀ stmt ∈ stmts, stmt.isWellFormed = true)
    (hknown : ∀ stmt ∈ stmts, stmt.Known names) :
    SameLoops judged stmts ((chooseParams writtenBack vars stmts).run names).1.stmts := by
  induction vars generalizing stmts names with
  | nil => exact .refl _
  | cons var vars ih =>
      obtain ⟨name, outer⟩ := var
      unfold LoopLowering.chooseParams
      split
      · have hnew : (names.fresh name).1 ∉ names.taken := Registry.fresh_notMem names name
        have hsub := (Naming.draws_fresh name).subset names
        have htaken : (names.fresh name).1 ∈ (names.fresh name).2.taken :=
          Registry.taken_fresh names name ▸ List.mem_cons_self
        have hrename := (forall₂_stands_rename name (names.fresh name).1 hwf).imp
          fun _ _ hs => hs.toFits
        have hafter : ∀ stmt ∈ stmts.map (·.rename name (names.fresh name).1),
            stmt.Known (names.fresh name).2 := by
          simpa using fun stmt hmem => ((hknown stmt hmem).mono hsub).rename htaken
        exact (SameLoops.rename hwf hknown hnew).trans
          (ih (Node.Fits.wellFormed_of_forall₂ hrename) hafter)
      · exact ih hwf hknown

/-- A write-back tells nothing outside closures. -/
theorem isSilent_writeBack {writtenBack : String → Bool} {vars : List (String × String)}
    {stmts : List Node} {function : LoopFunction}
    (hrun : ((chooseParams writtenBack vars stmts).run names).1 = function) {pass : Pass}
    (houtside : pass.staysOutside = true) :
    ∀ stmt ∈ function.writeBack, stmt.IsSilent judged pass ∧ stmt.lexicalNames = [] := by
  subst hrun
  induction vars generalizing stmts names with
  | nil => exact fun _ hmem => absurd hmem List.not_mem_nil
  | cons var vars ih =>
      obtain ⟨name, outer⟩ := var
      unfold chooseParams
      split
      · refine List.forall_mem_cons.mpr ⟨⟨?_, rfl⟩, ih⟩
        have habsent : Node.absent.IsSilent judged pass := Node.isSilent_leaf rfl _ fun _ => rfl
        have htarget : (Node.binding outer false .generated .absent).IsSilent judged pass :=
          Node.isSilent_ident (Or.inl houtside) (List.forall_mem_singleton.mpr habsent)
        have hvalue : (Node.use (names.fresh name).1 .generated).IsSilent judged pass :=
          Node.isSilent_ident (Or.inl houtside) (by simp)
        have hassign : (Node.assignTo outer (.use (names.fresh name).1 .generated)
            .generated).IsSilent judged pass :=
          (Node.isInert_mk rfl _ _).isSilent
            (fun _ ctx _ => Capture.Context.filter_isTelling_writes ctx _)
            (List.forall_mem_cons.mpr ⟨htarget, List.forall_mem_singleton.mpr hvalue⟩)
        exact (Node.isInert_mk rfl _ _).isSilent (fun _ _ _ => rfl)
          (List.forall_mem_singleton.mpr hassign)
      · exact ih

/-! ### The statements of a function -/

theorem aliasFor_notMem {needed : Bool} {base : String} {alias? : Option String}
    (h : (aliasFor needed base).run names = (alias?, names')) :
    ∀ name ∈ alias?.toList, name ∉ names.taken := by
  unfold aliasFor at h
  split at h
  · have hrun : (some (names.freshSuffixed base).1, (names.freshSuffixed base).2) =
      (alias?, names') := h
    obtain ⟨rfl, -⟩ := Prod.mk.injEq .. ▸ hrun
    simpa using Registry.freshSuffixed_notMem names base
  · have hrun : ((none : Option String), names) = (alias?, names') := h
    obtain ⟨rfl, -⟩ := Prod.mk.injEq .. ▸ hrun
    simp

/-- Naming `this` and `arguments` by new names keeps the loops of a statement list. -/
theorem SameLoops.useAliasesIn {aliases : Aliases} {stmts : List Node}
    (hwf : ∀ stmt ∈ stmts, stmt.isWellFormed = true) (hknown : ∀ stmt ∈ stmts, stmt.Known names)
    (hnew : ∀ name ∈ aliases.this?.toList ++ aliases.arguments?.toList, name ∉ names.taken)
    (hsound : everywhereIn (Node.isSound judged) stmts = true) :
    SameLoops judged stmts (useAliasesIn aliases stmts) := by
  rw [everywhereIn_eq_all, List.all_eq_true] at hsound
  rw [useAliasesIn_eq_map]
  refine .map_of_renames (Node.Renames.aliasNames aliases) fun stmt hmem => ?_
  exact .useAliases (hwf stmt hmem) (fun name hname => (hknown stmt hmem).notMem (hnew name hname))
    (hsound stmt hmem)

theorem SameLoops.bodyStmts (body : Node) : SameLoops judged [body] body.bodyStmts := by
  unfold Node.bodyStmts
  split
  · next span stmts =>
    refine ⟨?_, fun hsound => ?_, fun around => ?_⟩
    · rw [outerLabelsIn, outerLabelsIn, List.append_nil, Node.outerLabels_mk rfl (by simp)]
      rfl
    · simp only [everywhereIn, Node.everywhere, Bool.and_true, Bool.and_eq_true] at hsound
      exact hsound.2
    · rw [verdictsIn_cons, verdictsIn_nil, List.append_nil,
        Node.verdicts_of_not_isCandidate rfl (by simp) rfl]
  · exact .refl _

theorem Node.VarsNamed.bodyStmts {body : Node} (h : body.VarsNamed) :
    ∀ stmt ∈ body.bodyStmts, stmt.VarsNamed := by
  unfold Node.bodyStmts
  split
  · exact fun stmt hmem => h.part rfl hmem
  · simpa using h

/-- Taking the declarations out of a body keeps its loops. -/
theorem SameLoops.hoistStmts {body : Node} (hbody : body.IsStmt)
    (hsound : body.everywhere (Node.isSound judged) = true) (hnamed : body.VarsNamed) :
    SameLoops judged [body] (hoistStmts body.bodyStmts) := by
  have hbodyStmts : SameLoops judged [body] body.bodyStmts := .bodyStmts body
  have hsoundIn := hbodyStmts.sound (by simpa [everywhereIn] using hsound)
  rw [everywhereIn_eq_all, List.all_eq_true] at hsoundIn
  refine hbodyStmts.trans (.of_stmts (.hoistStmts ?_ hsoundIn hnamed.bodyStmts))
  exact fun stmt hmem => (Node.isStmt_bodyStmts hbody stmt hmem).2

/-- Statements on their way into a function: they have the loops of the body they are made of, and
their names are known. -/
structure MadeOf (judged : Bool) (body : Node) (names : Registry) (stmts : List Node) : Prop where
  wellFormed : ∀ stmt ∈ stmts, stmt.isWellFormed = true
  known : ∀ stmt ∈ stmts, stmt.Known names
  loops : SameLoops judged [body] stmts

namespace MadeOf

variable {body : Node} {stmts : List Node}

theorem hoistStmts (hbody : body.IsStmt) (hknown : body.Known names)
    (hsound : body.everywhere (Node.isSound judged) = true) (hnamed : body.VarsNamed) :
    MadeOf judged body names (hoistStmts body.bodyStmts) :=
  ⟨fun stmt hmem => ((hoistStmts_spec (Node.isStmt_bodyStmts hbody)).1 stmt hmem).2,
    known_hoistStmts hknown.bodyStmts, .hoistStmts hbody hsound hnamed⟩

theorem flattenStmts (h : MadeOf judged body names stmts) {clashes : String → Bool} {again : Bool}
    {stmts' : List Node} (hrun : (flattenStmts clashes again stmts).run names = (stmts', names')) :
    MadeOf judged body names' stmts' := by
  have hfits := forall₂_fits_flattenStmts clashes again h.wellFormed names
  rw [hrun] at hfits
  exact ⟨Node.Fits.wellFormed_of_forall₂ hfits, known_flattenStmts h.known hrun,
    h.loops.trans (.flattenStmts h.wellFormed h.known hrun)⟩

theorem chooseParams (h : MadeOf judged body names stmts) {writtenBack : String → Bool}
    {vars : List (String × String)}
    (hvars : ∀ var ∈ vars, var.1 ∈ names.taken ∧ var.2 ∈ names.taken) {function : LoopFunction}
    (hrun : (chooseParams writtenBack vars stmts).run names = (function, names')) :
    MadeOf judged body names' function.stmts := by
  have hfits := (chooseParams_fits writtenBack vars h.wellFormed names).1
  have hknown := (known_chooseParams writtenBack hvars h.known).2.2
  have hloops : SameLoops judged stmts _ := .chooseParams writtenBack vars h.wellFormed h.known
  rw [hrun] at hfits hknown hloops
  exact ⟨Node.Fits.wellFormed_of_forall₂ hfits, hknown, h.loops.trans hloops⟩

end MadeOf

/-- The body of a loop is made ready to become a function: only the jumps in it are still to be
replaced. -/
inductive Loop.PreparesTo (loop : Loop) (loopVars outer : List String) (record : Capture.Record)
    (names : Registry) : LoopFunction → Aliases → Prop
  | intro {function : LoopFunction} {this? arguments? : Option String} {stmts : List Node}
      {flattened drawn withArguments withThis : Registry}
      (hflatten : (flattenStmts (bodyClash record loopVars) false
        (hoistStmts loop.body.bodyStmts)).run names = (stmts, flattened))
      (hparams : (chooseParams (fun name => loop.head.isPlain && record.needsWriteBack name)
        (loopVars.zip outer) stmts).run flattened = (function, drawn))
      (harguments : (aliasFor record.argumentsCaptured "arguments").run drawn =
        (arguments?, withArguments))
      (hthis : (aliasFor record.thisCaptured "this").run withArguments = (this?, withThis)) :
      PreparesTo loop loopVars outer record names function ⟨this?, arguments?⟩

theorem Loop.ExtractsTo.preparesTo {loop : Loop} {loopVars outer : List String}
    {record : Capture.Record} {options : Options} {extraction : Extraction}
    (h : loop.ExtractsTo loopVars outer record options names extraction names') :
    loop.PreparesTo loopVars outer record names extraction.function
      ⟨extraction.this?, extraction.arguments?⟩ := by
  obtain ⟨-, hflatten, hparams, harguments, hthis, -, -, -⟩ := h
  exact .intro hflatten hparams harguments hthis

section

variable {loop : Loop} {loopVars outer : List String} {record : Capture.Record}
  {function : LoopFunction} {aliases : Aliases}

/-- What is made ready to become a function has the loops of the body. -/
theorem Loop.PreparesTo.sameLoops
    (h : loop.PreparesTo loopVars outer record names function aliases) (hbody : loop.body.IsStmt)
    (hknown : loop.body.Known names) (hvars : ∀ name ∈ loopVars, name ∈ names.taken)
    (houter : ∀ name ∈ outer, name ∈ names.taken)
    (hsound : loop.body.everywhere (Node.isSound judged) = true) (hnamed : loop.body.VarsNamed) :
    (∀ stmt ∈ useAliasesIn aliases function.stmts, stmt.isWellFormed = true) ∧
      SameLoops judged [loop.body] (useAliasesIn aliases function.stmts) := by
  obtain ⟨hflatten, hparams, harguments, hthis⟩ := h
  have hsub := (draws_flattenStmts _ _ _).subset_of_run hflatten
  have hmade : MadeOf judged loop.body _ function.stmts :=
    ((MadeOf.hoistStmts hbody hknown hsound hnamed).flattenStmts hflatten).chooseParams
      (fun var hmem => ⟨hsub (hvars _ (List.of_mem_zip hmem).1),
        hsub (houter _ (List.of_mem_zip hmem).2)⟩) hparams
  have hsoundIn := hmade.loops.sound (by simpa [everywhereIn] using hsound)
  refine ⟨Node.Fits.wellFormed_of_forall₂
    ((forall₂_stands_useAliasesIn _ hmade.wellFormed).imp fun _ _ hs => hs.toFits),
    hmade.loops.trans (.useAliasesIn hmade.wellFormed hmade.known (fun name hmem => ?_) hsoundIn)⟩
  rcases List.mem_append.mp hmem with hmem | hmem
  · have hafter := (draws_aliasFor _ _).subset_of_run harguments
    exact fun htaken => aliasFor_notMem hthis name hmem (hafter htaken)
  · exact aliasFor_notMem harguments name hmem

theorem Loop.PreparesTo.isSilent_writeBack
    (h : loop.PreparesTo loopVars outer record names function aliases) {pass : Pass}
    (houtside : pass.staysOutside = true) :
    ∀ stmt ∈ function.writeBack, stmt.IsSilent judged pass ∧ stmt.lexicalNames = [] := by
  obtain ⟨-, hparams, -, -⟩ := h
  exact LoopLowering.isSilent_writeBack (congrArg Prod.fst hparams) houtside

end

end LoopLowering
