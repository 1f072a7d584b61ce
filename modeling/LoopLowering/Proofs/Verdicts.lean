/-
What lowering one loop does to the verdicts.

The loops in a loop that is lowered go into the statements that take its place: the head and
the flattened body, or the function that is made of the body.  The verdicts on them do not
change on the way, so the verdict on the loop itself is the only one that is lost, and it is
not that the loop is refused.

Labels make this more than a matter of moving loops.  An inner loop may jump to the label of
the one that is lowered.  If the outer body becomes a function, the jump is a return from then
on, and the label was marked for that; if it does not, the label stays where it was.
-/
import LoopLowering.Proofs.SameLoops

namespace LoopLowering

variable {judged : Bool} {around : List (String × Bool)}

/-! ### A loop and its labels -/

/-- The labels of a loop, innermost first, each with whether the body becomes a function. -/
def Loop.marks (loop : Loop) : List (String × Bool) :=
  (loop.labelNames.map (·, loop.capture.needsExtraction)).reverse

theorem verdictsIn_toNode (decl : Declaration) (nodes : List Node) :
    verdictsIn judged around (decl.toNode :: nodes) =
      verdictsIn judged around (decl.declarators ++ nodes) := by
  have hdecl : decl.toNode.verdicts judged around = verdictsIn judged around decl.declarators :=
    Node.verdicts_of_not_isCandidate rfl (by simp) rfl
  rw [verdictsIn_cons, hdecl, verdictsIn_append]

theorem Loop.verdictsIn_parts (loop : Loop) :
    verdictsIn judged around (loop.decl.toNode :: (loop.head.exprs ++ [loop.body])) =
      verdictsIn judged around loop.headParts ++ loop.body.verdicts judged around := by
  rw [verdictsIn_toNode, Loop.headParts, ← List.append_assoc, verdictsIn_append, verdictsIn_cons,
    verdictsIn_nil, List.append_nil]

/-- The verdicts on a loop and on the loops in it. -/
theorem Loop.verdicts_of_ofNode? {stmt : Node} {loop : Loop} (h : Loop.ofNode? stmt = some loop) :
    stmt.verdicts judged around =
      Place.verdict judged ⟨loop, loop.marks ++ around⟩ ::
        (verdictsIn judged (loop.marks ++ around) loop.headParts ++
          loop.body.verdicts judged (loop.marks ++ around)) := by
  fun_induction Loop.ofNode? stmt generalizing loop around with
  | case1 label span body ih =>
      obtain ⟨inner, hinner, rfl⟩ := Option.map_eq_some_iff.mp h
      have hextracts : (Node.labeled label span body).extracts = inner.capture.needsExtraction := by
        rw [Node.extracts_labeled, Node.extracts, hinner]
        rfl
      have hmarks : Loop.marks { inner with labels := label :: inner.labels } ++ around =
          inner.marks ++ (label.text, inner.capture.needsExtraction) :: around := by
        simp only [Loop.marks, Loop.labelNames, List.map_cons, List.reverse_cons,
          List.append_assoc]
        rfl
      rw [Node.verdicts_labeled, verdictsIn_cons, verdictsIn_nil, List.append_nil, hextracts,
        ih hinner, hmarks]
      rfl
  | case2 | case3 | case4 =>
      cases h
      rw [Node.verdicts_mk rfl (by simp), ← Loop.verdictsIn_parts]
      rfl
  | case5 => cases h

/-- The mark found for a label is one of the marks. -/
theorem mem_of_lookup_eq_some {marks : List (String × Bool)} {label : String} {mark : Bool}
    (h : marks.lookup label = some mark) : (label, mark) ∈ marks := by
  obtain ⟨before, after, rfl, -⟩ := List.lookup_eq_some_iff.mp h
  simp

/-- The labels of a loop are marked as it is. -/
theorem Loop.lookup_marks {loop : Loop} {label : String} (h : label ∈ loop.labelNames) :
    (loop.marks ++ around).lookup label = some loop.capture.needsExtraction := by
  have hmem : ∀ mark, (label, mark) ∈ loop.marks ↔ mark = loop.capture.needsExtraction := by
    intro mark
    simp [Loop.marks, h, eq_comm]
  rw [List.lookup_append]
  cases hlookup : loop.marks.lookup label with
  | none =>
      have hnone := List.lookup_eq_none_iff.mp hlookup _ ((hmem _).mpr rfl)
      simp at hnone
  | some mark =>
      rw [(hmem mark).mp (mem_of_lookup_eq_some hlookup)]
      rfl

/-- Labels around a statement that is no loop are those of no loop. -/
theorem Node.verdicts_foldr_labeled {stmt : Node} (h : stmt.isCandidate = false) (span : Span)
    (labels : List Name) :
    (labels.foldr (fun label stmt => .labeled label span stmt) stmt).verdicts judged around =
      stmt.verdicts judged ((labels.map fun label => (label.text, false)).reverse ++ around) := by
  have hcandidate : ∀ labels : List Name,
      (labels.foldr (fun label stmt => .labeled label span stmt) stmt).isCandidate = false := by
    intro labels
    induction labels with
    | nil => exact h
    | cons label labels ih => rw [List.foldr_cons, Node.isCandidate_labeled, ih]
  induction labels generalizing around with
  | nil => rfl
  | cons label labels ih =>
      have hextracts := Node.extracts_of_not_isCandidate (hcandidate (label :: labels))
      rw [List.foldr_cons] at hextracts ⊢
      rw [Node.verdicts_labeled, hextracts, verdictsIn_cons, verdictsIn_nil, List.append_nil, ih,
        List.map_cons, List.reverse_cons, List.append_assoc]
      rfl

/-- A loop over a `var` has no verdict of its own. -/
theorem Loop.verdicts_withVarHead (loop : Loop) :
    loop.withVarHead.toNode.verdicts judged around =
      verdictsIn judged ((loop.labelNames.map (·, false)).reverse ++ around) loop.headParts ++
        loop.body.verdicts judged ((loop.labelNames.map (·, false)).reverse ++ around) := by
  have hcandidate : loop.withVarHead.toUnlabeled.isCandidate = false := by
    obtain ⟨labels, span, decl, head, body⟩ := loop
    cases head <;> rfl
  have hplain : loop.withVarHead.head.form.isClosure = false ∧
      ∀ label, loop.withVarHead.head.form ≠ .labeled label := by
    cases loop.withVarHead.head <;> exact ⟨rfl, by simp [LoopHead.form]⟩
  have hlabels : (loop.labels.map fun label => (label.text, false)) =
      loop.labelNames.map (·, false) := by
    rw [Loop.labelNames, List.map_map]
    rfl
  rw [Loop.toNode, Node.verdicts_foldr_labeled hcandidate]
  rw [Loop.toUnlabeled_eq] at hcandidate ⊢
  rw [Node.verdicts_of_not_isCandidate hplain.1 hplain.2 hcandidate,
    Loop.verdictsIn_parts, ← hlabels]
  rfl

/-! ### What takes the place of a loop -/

theorem Node.IsPlainStmt.verdicts {stmt : Node} (h : stmt.IsPlainStmt) :
    stmt.verdicts judged around = [] :=
  Node.verdicts_of_tally_all (h.tally .all) judged around

theorem verdictsIn_of_isPlainStmt {stmts : List Node} (h : ∀ stmt ∈ stmts, stmt.IsPlainStmt) :
    verdictsIn judged around stmts = [] :=
  List.flatMap_eq_nil_iff.mpr fun stmt hmem => (h stmt hmem).verdicts

/-- The loops of a function are those of its statements. -/
theorem Node.verdicts_functionOf (params : List String) (stmts : List Node) (span : Span) :
    (Node.functionOf params stmts span).verdicts judged around = verdictsIn judged [] stmts := by
  have hparam : ∀ name,
      (Node.mk .parameter span [.list [], .binding name false span .absent]).verdicts
      judged [] = [] := fun _ => rfl
  have hparams : (Node.list (params.map fun name =>
      .mk .parameter span [.list [], .binding name false span .absent])).verdicts
      judged [] = [] := by
    rw [Node.list, Node.verdicts_of_not_isCandidate rfl (by simp) rfl, verdictsIn, List.flatMap_map]
    exact List.flatMap_eq_nil_iff.mpr fun name _ => hparam name
  have hdecorators : (Node.list []).verdicts judged [] = [] := rfl
  have habsent : Node.absent.verdicts judged [] = [] := rfl
  have hblock : (Node.block span stmts).verdicts judged [] = verdictsIn judged [] stmts :=
    Node.verdicts_of_not_isCandidate rfl (by simp) rfl
  rw [Node.functionOf, Node.verdicts_of_not_isCandidate rfl (by simp) rfl, verdictsIn_cons,
    verdictsIn_nil, Node.verdicts_of_isClosure rfl]
  simp only [verdictsIn_cons, verdictsIn_nil, hparams, hdecorators, hblock,
    habsent, List.append_nil, List.nil_append]

theorem Node.verdicts_varStmt (name : String) (init : Node) (span : Span) :
    (Node.varStmt span [(name, init)]).verdicts judged around = init.verdicts judged around := by
  have hbinding : (Node.binding name false span .absent).verdicts judged around = [] := rfl
  have hdeclarator : (Node.declarator false span (.binding name false span .absent) init).verdicts
      judged around = init.verdicts judged around := by
    rw [Node.verdicts_of_not_isCandidate rfl (by simp) rfl]
    simp [hbinding]
  rw [Node.varStmt, Node.verdicts_of_not_isCandidate rfl (by simp) rfl]
  simp [hdeclarator]

/-- Head parts hold statements inside closures only. -/
theorem Loop.WellFormed.isQuiet_headParts {loop : Loop} (h : loop.WellFormed) :
    ∀ part ∈ loop.headParts, part.isQuiet = true := by
  refine List.forall_mem_append.mpr ⟨fun declarator hmem => ?_, fun expr hmem => ?_⟩
  · have hall := (Node.isWellFormed_mk.mp h.decl).1.resolve_left (by simp)
    exact Slot.allAre_of_admits rfl rfl (by decide) (List.all_eq_true.mp hall declarator hmem)
  · have hslot : loop.head.slot.categories.all (·.isQuiet) = true ∧
        Category.list ∉ loop.head.slot.categories := by
      cases loop.head <;> exact ⟨rfl, by simp [LoopHead.slot, Slot.categories, Category.exprs]⟩
    exact Slot.allAre_of_admits rfl hslot.1 hslot.2 (h.exprs expr hmem).1

/-- The labels around a loop do not matter to the loops in its head. -/
theorem Loop.WellFormed.verdictsIn_headParts {loop : Loop} (h : loop.WellFormed)
    (around around' : List (String × Bool)) :
    verdictsIn judged around loop.headParts = verdictsIn judged around' loop.headParts :=
  List.flatMap_congr fun part hmem =>
    Node.verdicts_of_isQuiet (h.headParts part hmem) (h.isQuiet_headParts part hmem) judged around
      around'

/-- A loop whose variables got names of their own: they are called `outer` in its head now. -/
structure Loop.HasOwnNames (judged : Bool) (loop : Loop) (outer : List String) (renamed : Loop)
    (names : Registry) : Prop extends loop.Renamed renamed where
  known : renamed.Known names
  vars : ∀ name ∈ loop.decl.names, name ∈ names.taken
  outerNames : ∀ name ∈ outer, name ∈ names.taken
  headLoops : SameLoops judged loop.headParts renamed.headParts
  bodyLoops : SameLoops judged [loop.body] [renameAll (loop.decl.names.zip outer) loop.body]

section

variable {names names' between : Registry} {loop renamed : Loop} {mentioned : String → Bool}
  {options : Options} {outer : List String} {replacement : List Node} {report : Report}

theorem Loop.HasOwnNames.renameMentioned (hwf : loop.WellFormed) (hknown : loop.Known names)
    (h : (loop.renameMentioned mentioned loop.decl.names).run names = ((outer, renamed), between)) :
    loop.HasOwnNames judged outer renamed between := by
  have hrenamed := Loop.Renamed.renameMentioned mentioned loop.decl.names hwf names
  obtain ⟨houter, hrenamedKnown⟩ := hknown.renameMentioned mentioned hknown.declNames
  have hsub := (Loop.draws_renameMentioned mentioned loop.decl.names loop).subset names
  obtain ⟨hhead, hbody⟩ := @Loop.sameLoops_renameMentioned judged names mentioned
    loop.decl.names loop hwf hknown loop.body hwf.body.2 hknown.body
  rw [h] at hrenamed houter hrenamedKnown hsub hhead hbody
  exact ⟨hrenamed, hrenamedKnown, fun name hmem => hsub (hknown.declNames name hmem), houter, hhead,
    hbody⟩

theorem Loop.HasOwnNames.labelNames (h : loop.HasOwnNames judged outer renamed names) :
    renamed.labelNames = loop.labelNames :=
  congrArg (List.map Name.text) h.labels

/-- The loop over a `var` that remains has the verdicts on its parts. -/
theorem Loop.HasOwnNames.verdicts_withVarHead (h : loop.HasOwnNames judged outer renamed names)
    (body : Node) :
    ({ renamed.withVarHead with body }.toNode).verdicts judged around =
      verdictsIn judged ((loop.labelNames.map (·, false)).reverse ++ around) loop.headParts ++
        body.verdicts judged ((loop.labelNames.map (·, false)).reverse ++ around) := by
  have hloop := @Loop.verdicts_withVarHead judged around { renamed with body }
  have hparts : Loop.headParts { renamed with body } = renamed.headParts := rfl
  have hlabels : Loop.labelNames { renamed with body } = loop.labelNames := h.labelNames
  rw [hparts, hlabels, h.headLoops.verdicts] at hloop
  exact hloop

/-- A loop that is flattened leaves the verdicts on the loops in it. -/
theorem Loop.HasOwnNames.verdicts_flattened (h : loop.HasOwnNames judged outer renamed between)
    (hflatten : (renamed.flattened loop.decl.names outer loop.capture mentioned).run between =
      ((replacement, report), names')) :
    (report.span = loop.span ∧ report.outcome = .flattened) ∧
      verdictsIn judged around replacement =
        verdictsIn judged ((loop.labelNames.map (·, false)).reverse ++ around) loop.headParts ++
          loop.body.verdicts judged ((loop.labelNames.map (·, false)).reverse ++ around) := by
  obtain ⟨body, hbody, rfl, rfl⟩ := Loop.run_flattened hflatten
  have hknown : (renameAll (loop.decl.names.zip outer) renamed.body).Known between :=
    h.known.body.renameAll fun pair hmem => h.outerNames pair.2 (List.of_mem_zip hmem).2
  have hwf := (Node.Stands.renameAll (loop.decl.names.zip outer) h.wellFormed.body.2).wellFormed
  have hflat : SameLoops judged [renameAll (loop.decl.names.zip outer) renamed.body] [body] :=
    .flatten hwf hknown hbody
  rw [h.body] at hflat
  have hverdicts : ∀ around, body.verdicts judged around = loop.body.verdicts judged around := by
    intro around
    simpa using (h.bodyLoops.trans hflat).verdicts around
  refine ⟨⟨h.span, rfl⟩, ?_⟩
  rw [verdictsIn_cons, verdictsIn_nil, List.append_nil, h.verdicts_withVarHead, hverdicts]

theorem extractionRefusal?_eq_none {record : Capture.Record} {span : Span} :
    extractionRefusal? record span = none ↔ record.isBound = false := by
  unfold extractionRefusal? Capture.Record.isBound
  split <;> simp_all

/-- A body that can become a function declares no `var` by a pattern. -/
theorem Loop.varsNamed_body (h : loop.capture.isBound = false) : loop.body.VarsNamed := by
  simp only [Capture.Record.isBound, Bool.or_eq_false_iff, Option.isSome_eq_false_iff,
    Option.isNone_iff_eq_none] at h
  have hnone := List.findSome?_eq_none_iff.mp h.2
  refine ⟨loop.context true, rfl, rfl, fun span hfound => ?_⟩
  cases hnone (.destructuringVar span) (List.mem_append_right _ hfound)

/-- Redirecting the jumps of a body keeps the verdicts on its loops, which are in a function from
then on, if all jumps out of it go to the loop. -/
theorem verdictsIn_redirectIn {redirection : Redirection} {own : List String} {stmts : List Node}
    (hwf : ∀ stmt ∈ stmts, stmt.isWellFormed = true)
    (hback : ∀ pass : Pass, pass.staysOutside = true →
      ∀ stmt ∈ redirection.writeBack, stmt.IsSilent judged pass ∧ stmt.lexicalNames = [])
    (hjumps : ∀ label ∈ outerLabelsIn stmts, label ∈ own)
    (hown : ∀ label ∈ own, around.lookup label = some true) :
    verdictsIn judged [] (redirectIn redirection (.top own) stmts) =
      verdictsIn judged around stmts := by
  have halike : AlikeIn judged (.jumps [] around) stmts
      (redirectIn redirection (.top own) stmts) := by
    rw [redirectIn_eq_map]
    refine .of_forall₂ (List.forall₂_map_right_iff.mpr (List.forall₂_same.mpr fun stmt hmem => ?_))
    refine .redirect hback (hwf stmt hmem) (.top own) hown fun label hlabel =>
      Or.inr (hjumps label ?_)
    rw [outerLabelsIn_eq_flatMap]
    exact List.mem_flatMap.mpr ⟨stmt, hmem, hlabel⟩
  exact halike.verdicts [] rfl

theorem firstStray?_of_redirectJumps {redirection : Redirection} {own : List String} {span : Span}
    {stmts : List Node} :
    (∃ sites, (redirectJumps redirection own span stmts).2 = .ok sites) ↔
      firstStray? (jumpsIn (.top own) stmts) = none := by
  simp only [redirectJumps]
  split <;> simp_all

/-- What stands for a loop whose body became a function: the function, and the loop that calls
it. -/
theorem Loop.HasOwnNames.verdicts_replacement (h : loop.HasOwnNames judged outer renamed names)
    (extraction : Extraction) (record : Capture.Record) :
    verdictsIn judged around (extraction.replacement renamed outer record options) =
      verdictsIn judged [] (extraction.stmts renamed.labelNames options ++
          extraction.function.writeBack) ++
        verdictsIn judged ((loop.labelNames.map (·, false)).reverse ++ around) loop.headParts := by
  have harguments : ∀ stmt ∈ aliasStmt extraction.arguments? (.use "arguments" .generated),
      stmt.IsPlainStmt := isPlainStmt_aliasStmt _ (Node.isExpr_use _) (by simp)
  have hthis : ∀ stmt ∈ aliasStmt extraction.this? (.this .generated), stmt.IsPlainStmt :=
    isPlainStmt_aliasStmt _ Node.isExpr_this (by simp)
  have hhoisted := Extraction.isPlainStmt_hoisted record
  have hbody : (extraction.body outer options).IsPlainStmt :=
    JumpSites.isPlainStmt_dispatch _ (Node.isExpr_callOf _ _) (by simp) _ _
  rw [Extraction.replacement, verdictsIn_append, verdictsIn_append, verdictsIn_append,
    verdictsIn_append, verdictsIn_of_isPlainStmt harguments, verdictsIn_of_isPlainStmt hthis,
    verdictsIn_of_isPlainStmt hhoisted]
  simp only [verdictsIn_cons, verdictsIn_nil, List.nil_append, List.append_nil,
    Node.verdicts_varStmt, Extraction.functionExpr, Node.verdicts_functionOf,
    h.verdicts_withVarHead, hbody.verdicts]

/-- What is made of a body that can become a function has its loops, and the jumps out of it. -/
theorem Loop.HasOwnNames.prepared (h : loop.HasOwnNames judged outer renamed between)
    (hbound : loop.capture.isBound = false)
    (hsound : loop.body.everywhere (Node.isSound judged) = true) {function : LoopFunction}
    {aliases : Aliases}
    (hprepares : renamed.PreparesTo loop.decl.names outer loop.capture between function aliases) :
    (∀ stmt ∈ useAliasesIn aliases function.stmts, stmt.isWellFormed = true) ∧
      outerLabelsIn (useAliasesIn aliases function.stmts) = loop.body.outerLabels ∧
      ∀ around, verdictsIn judged around (useAliasesIn aliases function.stmts) =
        loop.body.verdicts judged around := by
  rw [← h.body] at hsound
  have hnamed : renamed.body.VarsNamed := h.body ▸ Loop.varsNamed_body hbound
  obtain ⟨hwf, hsame⟩ := hprepares.sameLoops h.wellFormed.body h.known.body
    h.vars h.outerNames hsound hnamed
  rw [h.body] at hsame
  exact ⟨hwf, by simpa [outerLabelsIn] using hsame.labels, by simpa using hsame.verdicts⟩

/-- A body that becomes a function leaves the verdicts on the loops in it, inside the function. -/
theorem Loop.HasOwnNames.verdicts_extracted (h : loop.HasOwnNames judged outer renamed between)
    (hwfLoop : loop.WellFormed)
    (hneeds : loop.capture.needsExtraction = true)
    (hsound : loop.body.everywhere (Node.isSound judged) = true)
    (hextract : (renamed.extracted loop.decl.names outer loop.capture options).Gives between
      (replacement, report) names') :
    ((report.span = loop.span ∧ ∃ name, report.outcome = .extracted name) ∧
        loop.capture.isBound = false ∧ ∀ label ∈ loop.body.outerLabels, label ∈ loop.labelNames) ∧
      verdictsIn judged around replacement =
        loop.body.verdicts judged (loop.marks ++ around) ++
          verdictsIn judged (loop.marks ++ around) loop.headParts := by
  obtain ⟨extraction, hextracts, rfl, rfl⟩ := Loop.extractsTo_of_gives hextract
  have hprepares := hextracts.preparesTo
  obtain ⟨hrefusal, -, -, -, -, hsites, -, -⟩ := hextracts
  have hbound := extractionRefusal?_eq_none.mp hrefusal
  obtain ⟨hwf, hlabels, hverdicts⟩ := h.prepared hbound hsound hprepares
  have hjumps : ∀ label ∈ loop.body.outerLabels, label ∈ renamed.labelNames := by
    rw [← hlabels]
    exact (firstStray?_eq_none hwf).mp (firstStray?_of_redirectJumps.mp ⟨_, hsites⟩)
  have hown : ∀ label ∈ renamed.labelNames, (loop.marks ++ around).lookup label = some true := by
    rw [h.labelNames, ← hneeds]
    exact fun label => Loop.lookup_marks
  have hback : ∀ pass : Pass, pass.staysOutside = true → ∀ stmt ∈ extraction.function.writeBack,
      stmt.IsSilent judged pass ∧ stmt.lexicalNames = [] := fun _ => hprepares.isSilent_writeBack
  have hwritten : verdictsIn judged [] extraction.function.writeBack = [] :=
    List.flatMap_eq_nil_iff.mpr fun stmt hmem => ((hback .stmts rfl) stmt hmem).1.verdicts []
  have hfunction : verdictsIn judged [] (extraction.stmts renamed.labelNames options ++
      extraction.function.writeBack) = loop.body.verdicts judged (loop.marks ++ around) := by
    rw [verdictsIn_append, hwritten, List.append_nil, Extraction.stmts,
      verdictsIn_redirectIn hwf hback (hlabels ▸ hjumps) hown, hverdicts]
  refine ⟨⟨⟨h.span, _, rfl⟩, hbound, h.labelNames ▸ hjumps⟩, ?_⟩
  rw [h.verdicts_replacement, hfunction, hwfLoop.verdictsIn_headParts (loop.marks ++ around)
    ((loop.labelNames.map (·, false)).reverse ++ around)]

/-! ### One loop is lowered, or refused -/

/-- A loop that is lowered declares no pattern, and no closure reaches a binding of a loop in
it. -/
theorem Loop.keeps_of_gives
    (h : (loop.lower mentioned options).Gives names (replacement, report) names') :
    (∀ declarator ∈ loop.decl.declarators, declarator.declaresName = true) ∧
      loop.capture.innerLoopBindingCaptured = false := by
  unfold Loop.lower at h
  split at h
  · simp at h
  · next hhead =>
    simp only at h
    split at h
    · simp at h
    · next hinner => exact ⟨by simpa using hhead, by simpa using hinner⟩

/-- Why a loop is refused: for its head, for a loop in it, or because its body cannot become a
function. -/
theorem Loop.fails_lower {refusal : Refusal}
    (h : (loop.lower mentioned options).Fails names refusal names') :
    (refusal = .destructuringHead loop.span ∧
        ∃ declarator ∈ loop.decl.declarators, declarator.declaresName = false) ∨
      (refusal = .innerLoopCapture loop.span ∧ loop.capture.innerLoopBindingCaptured = true) ∨
      loop.capture.needsExtraction = true ∧ ∃ outer renamed between,
        (loop.renameMentioned mentioned loop.decl.names).run names = ((outer, renamed), between) ∧
        (renamed.extracted loop.decl.names outer loop.capture options).Fails between refusal
          names' := by
  unfold Loop.lower at h
  split at h
  · next hhead =>
    simp only [Lowering.fails_bind, Lowering.fails_throw, Lowering.gives_throw, false_and,
      exists_false, or_false] at h
    exact Or.inl ⟨h.1.symm, by simpa using hhead⟩
  · simp only at h
    split at h
    · next hinner =>
      simp only [Lowering.fails_bind, Lowering.fails_throw, Lowering.gives_throw, false_and,
        exists_false, or_false] at h
      exact Or.inr (Or.inl ⟨h.1.symm, hinner⟩)
    · simp only [Lowering.fails_bind, Lowering.fails_liftM, Lowering.gives_liftM, false_or] at h
      obtain ⟨⟨outer, renamed⟩, between, hrename, h⟩ := h
      split at h
      · next hextract => exact Or.inr (Or.inr ⟨hextract, outer, renamed, between, hrename, h⟩)
      · exact absurd h Lowering.fails_liftM

/-- Why a body does not become a function: for what is in it, or for a jump that cannot be
kept. -/
theorem Loop.fails_extracted {loopVars : List String} {record : Capture.Record} {refusal : Refusal}
    (h : (loop.extracted loopVars outer record options).Fails names refusal names') :
    extractionRefusal? record loop.span = some refusal ∨ ∃ function aliases label,
      refusal = .outerLabel label loop.span ∧
        loop.PreparesTo loopVars outer record names function aliases ∧
        firstStray? (jumpsIn (.top loop.labelNames) (useAliasesIn aliases function.stmts)) =
          some label := by
  unfold Loop.extracted at h
  cases hrefusal : extractionRefusal? record loop.span with
  | some thrown =>
      rw [hrefusal] at h
      simp only [Lowering.fails_bind, Lowering.fails_throw, Lowering.gives_throw, false_and,
        exists_false, or_false] at h
      exact Or.inl (congrArg some h.1)
  | none =>
      rw [hrefusal] at h
      simp only [Lowering.fails_bind, Lowering.fails_liftM, Lowering.gives_liftM, false_or] at h
      obtain ⟨stmts, flattened, hflatten, function, drawn, hparams, arguments?, withArguments,
        harguments, this?, withThis, hthis, h⟩ := h
      refine Or.inr ⟨function, ⟨this?, arguments?⟩, ?_⟩
      cases hstray : firstStray? (jumpsIn (.top loop.labelNames)
          (useAliasesIn ⟨this?, arguments?⟩ function.stmts)) with
      | some label =>
          simp only [redirectJumps, hstray, Lowering.fails_ofExcept, Lowering.gives_ofExcept,
            reduceCtorEq, false_and, exists_false, or_false, Except.error.injEq] at h
          exact ⟨label, h.1.symm, .intro hflatten hparams harguments hthis, rfl⟩
      | none =>
          obtain ⟨sites, hsites⟩ := (@firstStray?_of_redirectJumps ⟨function.writeBack, options⟩ _
            loop.span _).mpr hstray
          simp only [hsites, Lowering.fails_ofExcept, Lowering.gives_ofExcept, reduceCtorEq,
            false_and, false_or] at h
          obtain ⟨_, _, -, _, _, -, h⟩ := h
          split at h
          · simp only [Lowering.fails_bind, Lowering.fails_liftM, Lowering.fails_pure, false_or,
              and_false, exists_false] at h
          · simp only [Lowering.fails_bind, Lowering.fails_pure, false_or, and_false,
              exists_false] at h

theorem Loop.everywhere_body {test : Node → Bool} (h : loop.toUnlabeled.everywhere test = true) :
    loop.body.everywhere test = true := by
  rw [Loop.toUnlabeled_eq, Node.everywhere_mk] at h
  exact h.2 loop.body (by simp)

theorem Loop.everywhere_body_of_ofNode? {test : Node → Bool} {stmt : Node} {loop : Loop}
    (hloop : Loop.ofNode? stmt = some loop) (h : stmt.everywhere test = true) :
    loop.body.everywhere test = true := by
  fun_induction Loop.ofNode? stmt generalizing loop with
  | case1 label span body ih =>
      obtain ⟨inner, hinner, rfl⟩ := Option.map_eq_some_iff.mp hloop
      show inner.body.everywhere test = true
      exact ih hinner ((Node.everywhere_mk.mp h).2 body (by simp))
  | case2 | case3 | case4 =>
      cases hloop
      exact (Node.everywhere_mk.mp h).2 _ (by simp)
  | case5 => cases hloop

/-- The report is on a loop with this verdict: it was not refused, and if it was judged, its body
became a function if and only if a binding that each iteration renews is captured. -/
structure Report.Answers (judged : Bool) (report : Report) (verdict : Verdict) : Prop where
  span : verdict.span = report.span
  kept : ¬ verdict.refused
  outcome : judged = true → ((∃ name, report.outcome = .extracted name) ↔
    verdict.captures .loopVariable ∨ verdict.captures .iteration)

/-- A body needs a function of its own if and only if a binding that each iteration renews is
captured. -/
theorem Loop.needsExtraction_iff (loop : Loop) :
    loop.capture.needsExtraction = true ↔
      .captured .loopVariable ∈ loop.findings ∨ .captured .iteration ∈ loop.findings := by
  simp [Loop.capture, Capture.Record.needsExtraction, Capture.Record.ofFindings]

/-- A loop that is lowered is not refused where it stands. -/
theorem Loop.not_refusedUnder_of_gives
    (h : (loop.lower mentioned options).Gives names (replacement, report) names')
    (hextracts : loop.capture.needsExtraction = true → loop.capture.isBound = false ∧
      ∀ label ∈ loop.body.outerLabels, label ∈ loop.labelNames) :
    ¬ loop.RefusedUnder (loop.marks ++ around) := by
  obtain ⟨hhead, hinner⟩ := Loop.keeps_of_gives h
  rintro (⟨declarator, hmem, hpattern⟩ | hcaptured | ⟨hneeds, hbound | ⟨label, hlabel, hlookup⟩⟩)
  · rw [hhead declarator hmem] at hpattern
    cases hpattern
  · rw [hinner] at hcaptured
    cases hcaptured
  · rw [(hextracts hneeds).1] at hbound
    cases hbound
  · rw [Loop.lookup_marks ((hextracts hneeds).2 label hlabel), hneeds] at hlookup
    exact hlookup rfl

/-- What lowering a loop leaves: the verdicts on the loops in its head, and those on the loops in
its body, in the order in which they come. -/
theorem Loop.verdicts_lower {stmt : Node} (hwf : stmt.isWellFormed = true)
    (hknown : stmt.Known names) (hloop : Loop.ofNode? stmt = some loop)
    (hsound : loop.body.everywhere (Node.isSound judged) = true)
    (h : (loop.lower mentioned options).Gives names (replacement, report) names') :
    report.Answers judged (Place.verdict judged ⟨loop, loop.marks ++ around⟩) ∧
      (verdictsIn judged around replacement =
          loop.body.verdicts judged (loop.marks ++ around) ++
            verdictsIn judged (loop.marks ++ around) loop.headParts ∨
        verdictsIn judged around replacement =
          verdictsIn judged (loop.marks ++ around) loop.headParts ++
            loop.body.verdicts judged (loop.marks ++ around)) := by
  have hwfLoop := Loop.wellFormed_of_ofNode? hloop hwf
  have hknownLoop := Loop.known_of_ofNode? hloop hknown
  obtain ⟨outer, renamed, between, hrename, hcases⟩ := Loop.gives_lower h
  have hown : loop.HasOwnNames judged outer renamed between :=
    .renameMentioned hwfLoop hknownLoop hrename
  have hneedsIff : judged = true → (loop.capture.needsExtraction = true ↔
      (Place.verdict judged ⟨loop, loop.marks ++ around⟩).captures .loopVariable ∨
        (Place.verdict judged ⟨loop, loop.marks ++ around⟩).captures .iteration) := by
    intro hjudged
    simp [Place.verdict, hjudged, loop.needsExtraction_iff]
  rcases hcases with ⟨hneeds, hextract⟩ | ⟨hneeds, hflatten⟩
  · obtain ⟨⟨⟨hspan, houtcome⟩, hbound⟩, hverdicts⟩ :=
      hown.verdicts_extracted hwfLoop hneeds hsound hextract
    refine ⟨⟨hspan.symm, fun hnot => ?_, fun hjudged => ?_⟩, Or.inl hverdicts⟩
    · exact Loop.not_refusedUnder_of_gives h (fun _ => hbound) hnot.2
    · rw [← hneedsIff hjudged]
      exact iff_of_true houtcome hneeds
  · obtain ⟨⟨hspan, houtcome⟩, hverdicts⟩ := hown.verdicts_flattened hflatten
    refine ⟨⟨hspan.symm, fun hnot => ?_, fun hjudged => ?_⟩, Or.inr ?_⟩
    · refine Loop.not_refusedUnder_of_gives h (fun hneeds' => ?_) hnot.2
      rw [hneeds] at hneeds'
      cases hneeds'
    · rw [← hneedsIff hjudged, houtcome, hneeds]
      simp
    · rw [hverdicts, Loop.marks, hneeds]

/-- Lowering a loop takes the verdict on it off the list. -/
theorem Node.verdicts_lowerLoop {stmt : Node} (hwf : stmt.isWellFormed = true)
    (hknown : stmt.Known names)
    (hsound : ∀ verdict ∈ stmt.verdicts judged around, verdict.sound = true)
    (h : (stmt.lowerLoop mentioned options).Gives names (replacement, report) names') :
    ∃ verdict : Verdict, report.Answers judged verdict ∧
      (stmt.verdicts judged around).Perm (verdict :: verdictsIn judged around replacement) := by
  unfold Node.lowerLoop at h
  split at h
  · next loop hloop =>
    rw [Loop.verdicts_of_ofNode? hloop] at hsound ⊢
    have hbody : loop.body.everywhere (Node.isSound judged) = true :=
      Loop.everywhere_body (hsound _ List.mem_cons_self)
    obtain ⟨hanswers, hverdicts⟩ :=
      @Loop.verdicts_lower judged around _ _ _ _ _ _ _ _ hwf hknown hloop hbody h
    refine ⟨_, hanswers, List.Perm.cons _ ?_⟩
    rcases hverdicts with hverdicts | hverdicts
    · rw [hverdicts]
      exact List.perm_append_comm
    · rw [hverdicts]
  · simp at h

/-- A loop that is refused while no loop around it becomes a function any more has the verdict
that it is. -/
theorem Node.refused_of_fails {stmt : Node} (hwf : stmt.isWellFormed = true)
    (hcandidate : stmt.isCandidate = true) (hknown : stmt.Known names)
    (hsound : ∀ verdict ∈ stmt.verdicts true around, verdict.sound = true)
    (haround : ∀ mark ∈ around, mark.2 = false) {refusal : Refusal}
    (h : (stmt.lowerLoop mentioned options).Fails names refusal names') :
    ∃ verdict ∈ stmt.verdicts true around, verdict.refused := by
  obtain ⟨loop, hloop⟩ := Option.isSome_iff_exists.mp hcandidate
  unfold Node.lowerLoop at h
  rw [hloop] at h
  rw [Loop.verdicts_of_ofNode? hloop] at hsound ⊢
  refine ⟨_, List.mem_cons_self, rfl, ?_⟩
  have hbody : loop.body.everywhere (Node.isSound true) = true :=
    Loop.everywhere_body (hsound _ List.mem_cons_self)
  rcases Loop.fails_lower h with hhead | hinner | ⟨hneeds, outer, renamed, between, hrename, h⟩
  · exact Or.inl hhead.2
  · exact Or.inr (Or.inl hinner.2)
  · refine Or.inr (Or.inr ⟨hneeds, ?_⟩)
    have hown : loop.HasOwnNames true outer renamed between :=
      .renameMentioned (Loop.wellFormed_of_ofNode? hloop hwf) (Loop.known_of_ofNode? hloop hknown)
        hrename
    cases hbound : loop.capture.isBound with
    | true => exact Or.inl rfl
    | false =>
      rcases Loop.fails_extracted h with hrefusal | ⟨function, aliases, _, -, hprepares, hstray⟩
      · rw [extractionRefusal?_eq_none.mpr hbound] at hrefusal
        cases hrefusal
      · obtain ⟨hwfStmts, hlabels, -⟩ := hown.prepared hbound hbody hprepares
        have hsome := Option.ne_none_iff_exists'.mpr ⟨_, hstray⟩
        rw [Ne, firstStray?_eq_none hwfStmts, hlabels, hown.labelNames] at hsome
        push Not at hsome
        obtain ⟨label, hlabel, hnot⟩ := hsome
        refine Or.inr ⟨label, hlabel, fun hlookup => ?_⟩
        rcases List.mem_append.mp (mem_of_lookup_eq_some hlookup) with hmem | hmem
        · simp only [Loop.marks, List.mem_reverse, List.mem_map, Prod.mk.injEq] at hmem
          obtain ⟨_, hown, rfl, -⟩ := hmem
          exact hnot hown
        · cases haround _ hmem

end

end LoopLowering
