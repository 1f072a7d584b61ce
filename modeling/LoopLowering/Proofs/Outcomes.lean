/-
Every block-scoped loop is reported once, and the program as it is written decides whether it
is refused.

A loop is looked at only when its turn comes, after the loops around it have been hoisted,
flattened, renamed or made functions of.  None of that changes the verdict on it.  So each step
of a run takes one verdict off the list: that on the loop it lowers, which is not a refusal.
The verdicts taken off and those still there are always those on the program at the start.

At the end of a lowering no verdict is left, so the reports are on the loops of the program,
each once.  And if the next loop is refused, its verdict was on the list from the start.
-/
import LoopLowering.Proofs.Verdicts

namespace LoopLowering

variable {judged : Bool} {around : List (String × Bool)}

/-! ### The path to the loop -/

/-- The labels around the parts of a node that is no loop. -/
def Form.marksInside (around : List (String × Bool)) : Form → List (String × Bool)
  | .labeled label => (label.text, false) :: around
  | form => if form.isClosure then [] else around

/-- No label belongs to a loop whose body becomes a function. -/
def NoneExtracts (around : List (String × Bool)) : Prop := ∀ mark ∈ around, mark.2 = false

theorem NoneExtracts.inside (h : NoneExtracts around) (form : Form) :
    NoneExtracts (form.marksInside around) := by
  unfold Form.marksInside
  split
  · exact List.forall_mem_cons.mpr ⟨rfl, h⟩
  · split
    · exact fun _ hmem => absurd hmem List.not_mem_nil
    · exact h

/-- A node that is no loop has the verdicts on its parts. -/
theorem Node.verdicts_eq_verdictsIn {form : Form} {span : Span} {parts : List Node}
    (h : (Node.mk form span parts).isCandidate = false) :
    (Node.mk form span parts).verdicts judged around =
      verdictsIn judged (form.marksInside around) parts := by
  unfold Form.marksInside
  split
  · rw [Node.verdicts_labeled, Node.extracts_of_not_isCandidate h]
  · next hlabel =>
    split
    · next hclosure => rw [Node.verdicts_of_isClosure hclosure]
    · next hclosure =>
      exact Node.verdicts_of_not_isCandidate (Bool.not_eq_true _ ▸ hclosure) hlabel h

/-- Wherever the two trees stand, the verdicts on the one are those on the other, but for those
on a statement: there stand the ones on `replacement`. -/
def Node.Exchanges (judged : Bool) (stmt : Node) (replacement : List Node) (node node' : Node) :
    Prop :=
  ∀ around, NoneExtracts around → ∃ inner before after, NoneExtracts inner ∧
    node.verdicts judged around = before ++ stmt.verdicts judged inner ++ after ∧
    node'.verdicts judged around = before ++ verdictsIn judged inner replacement ++ after

section

variable {form : Form} {span : Span} {before after : List Node} {stmt node node' : Node}
  {replacement : List Node}

/-- What stands for the loop has the verdicts on the replacement. -/
theorem Form.verdictsIn_standing (form : Form) (replacement : List Node) :
    verdictsIn judged around (form.standing replacement) =
      verdictsIn judged around replacement := by
  have hblock : (Node.block .generated replacement).verdicts judged around =
      verdictsIn judged around replacement := Node.verdicts_eq_verdictsIn rfl
  unfold Form.standing
  split
  · rfl
  · rw [verdictsIn_cons, verdictsIn_nil, List.append_nil, hblock]

theorem Node.Exchanges.here
    (h : (Node.mk form span (before ++ stmt :: after)).isCandidate = false)
    (h' : (Node.mk form span (before ++ form.standing replacement ++ after)).isCandidate = false) :
    Node.Exchanges judged stmt replacement (.mk form span (before ++ stmt :: after))
      (.mk form span (before ++ form.standing replacement ++ after)) := by
  intro around hnone
  refine ⟨form.marksInside around, verdictsIn judged (form.marksInside around) before,
    verdictsIn judged (form.marksInside around) after, hnone.inside form, ?_, ?_⟩
  · rw [Node.verdicts_eq_verdictsIn h, verdictsIn_append, verdictsIn_cons, List.append_assoc]
  · rw [Node.verdicts_eq_verdictsIn h', verdictsIn_append, verdictsIn_append,
      Form.verdictsIn_standing]

theorem Node.Exchanges.inside (hpart : Node.Exchanges judged stmt replacement node node')
    (h : (Node.mk form span (before ++ node :: after)).isCandidate = false)
    (h' : (Node.mk form span (before ++ node' :: after)).isCandidate = false) :
    Node.Exchanges judged stmt replacement (.mk form span (before ++ node :: after))
      (.mk form span (before ++ node' :: after)) := by
  intro around hnone
  obtain ⟨inner, first, last, hinner, hverdicts, hverdicts'⟩ :=
    hpart (form.marksInside around) (hnone.inside form)
  refine ⟨inner, verdictsIn judged (form.marksInside around) before ++ first,
    last ++ verdictsIn judged (form.marksInside around) after, hinner, ?_, ?_⟩
  · rw [Node.verdicts_eq_verdictsIn h, verdictsIn_append, verdictsIn_cons, hverdicts]
    simp only [List.append_assoc]
  · rw [Node.verdicts_eq_verdictsIn h', verdictsIn_append, verdictsIn_cons, hverdicts']
    simp only [List.append_assoc]

/-- A node that is no loop itself and has a part that is none is no label in front of one. -/
theorem Node.isCandidate_of_part
    (hloop : (Node.mk form span (before ++ node :: after)).isBlockLoop = false)
    (hpart : node.isCandidate = false) :
    (Node.mk form span (before ++ node :: after)).isCandidate = false := by
  by_contra hcandidate
  rcases Node.isCandidate_cases (Bool.not_eq_false _ ▸ hcandidate) with h | ⟨_, _, body, heq, hbody⟩
  · rw [hloop] at h
    cases h
  · obtain ⟨-, -, hparts⟩ := Node.mk.inj heq
    obtain rfl : node = body := List.mem_singleton.mp (hparts ▸ by simp)
    rw [hpart] at hbody
    cases hbody

/-- Replacing a loop makes no loop of a node around it. -/
theorem Node.Spliced.isCandidate_eq_false (h : Node.Spliced stmt replacement node node')
    (hloop : node.isBlockLoop = false) : node'.isCandidate = false := by
  have hloop' : node'.isBlockLoop = false := Node.isBlockLoop_of_landmark h.landmark_eq hloop
  induction h with
  | @here form span before after hclosure hcandidate =>
      cases hlist : form.isStmtList with
      | true =>
          unfold Form.isStmtList at hlist
          split at hlist
          · rfl
          · rfl
          · rfl
          · rfl
          · cases hlist
      | false =>
          rw [Form.standing, hlist, List.append_assoc] at hloop' ⊢
          exact Node.isCandidate_of_part hloop' rfl
  | inside hclosure hcandidate h ih =>
      have hpart := Node.isBlockLoop_of_not_isCandidate hcandidate
      exact Node.isCandidate_of_part hloop'
        (ih hpart (Node.isBlockLoop_of_landmark h.landmark_eq hpart))

theorem Node.Spliced.exchanges (h : Node.Spliced stmt replacement node node')
    (hnode : node.isCandidate = false) : Node.Exchanges judged stmt replacement node node' := by
  have hnode' := h.isCandidate_eq_false (Node.isBlockLoop_of_not_isCandidate hnode)
  induction h with
  | here => exact .here hnode hnode'
  | inside hclosure hcandidate h ih =>
      exact (ih hcandidate
        (h.isCandidate_eq_false (Node.isBlockLoop_of_not_isCandidate hcandidate))).inside
        hnode hnode'

theorem Node.Spliced.within (h : Node.Spliced stmt replacement node node') : stmt.Within node := by
  induction h with
  | here => exact .part (by simp) .self
  | inside _ _ _ ih => exact .part (by simp) ih

theorem Node.Spliced.isCandidate_stmt (h : Node.Spliced stmt replacement node node') :
    stmt.isCandidate = true := by
  induction h with
  | here _ hcandidate => exact hcandidate
  | inside _ _ _ ih => exact ih

/-! ### The path to the region -/

/-- Nothing around a region that is changed is a loop, before and after. -/
theorem Node.AtRegion.isCandidate_eq_false {change : Node → Node → Prop}
    (hchange : ∀ {region region' : Node}, change region region' → region'.form = region.form)
    (h : node.AtRegion change node') : node.isCandidate = false ∧ node'.isCandidate = false := by
  induction h with
  | program hprogram h =>
      have hstmt : ∀ {node : Node}, node.form.category = .program → node.isCandidate = false :=
        fun h => Node.isCandidate_of_category (by simp [h])
      exact ⟨hstmt hprogram, hstmt (hchange h ▸ hprogram)⟩
  | body howner =>
      have hstmt := Form.category_ne_stmt_of_ownsRegion howner
      exact ⟨Node.isCandidate_of_category hstmt, Node.isCandidate_of_category hstmt⟩
  | inside hloop h ih =>
      exact ⟨Node.isCandidate_of_part hloop ih.1, Node.isCandidate_of_part
        (Node.isBlockLoop_replacePart (Node.AtRegion.form_eq hchange h) hloop) ih.2⟩

/-- If a change replaces a statement of a region, it replaces one of the tree. -/
theorem Node.AtRegion.exchanges {change : Node → Node → Prop} {related : Node → List Node → Prop}
    (hchange : ∀ region region', change region region' →
      ∃ stmt replacement, related stmt replacement ∧ Node.Spliced stmt replacement region region')
    (h : node.AtRegion change node') :
    ∃ stmt replacement, related stmt replacement ∧ stmt.isCandidate = true ∧ stmt.Within node ∧
      Node.Exchanges judged stmt replacement node node' := by
  have hform : ∀ {region region' : Node}, change region region' → region'.form = region.form := by
    intro region region' h
    obtain ⟨_, _, -, hspliced⟩ := hchange _ _ h
    exact hspliced.form_eq
  have hnode := h.isCandidate_eq_false hform
  induction h with
  | program hprogram h =>
      obtain ⟨stmt, replacement, hrelated, hspliced⟩ := hchange _ _ h
      exact ⟨stmt, replacement, hrelated, hspliced.isCandidate_stmt, hspliced.within,
        hspliced.exchanges hnode.1⟩
  | body howner hregion h =>
      obtain ⟨stmt, replacement, hrelated, hspliced⟩ := hchange _ _ h
      have hexchanges : Node.Exchanges judged stmt replacement _ _ :=
        hspliced.exchanges (Node.isCandidate_of_category hregion.category)
      exact ⟨stmt, replacement, hrelated, hspliced.isCandidate_stmt,
        .part (by simp) hspliced.within, hexchanges.inside hnode.1 hnode.2⟩
  | inside hloop h ih =>
      obtain ⟨stmt, replacement, hrelated, hstmt, hwithin, hexchanges⟩ :=
        ih (h.isCandidate_eq_false hform)
      exact ⟨stmt, replacement, hrelated, hstmt, .part (by simp) hwithin,
        hexchanges.inside hnode.1 hnode.2⟩

/-- A region that can be changed in one way can be changed in another. -/
theorem Node.AtRegion.change {change other : Node → Node → Prop}
    (hchange : ∀ region region', change region region' → ∃ region'', other region region'')
    (h : node.AtRegion change node') : ∃ node'', node.AtRegion other node'' := by
  induction h with
  | program hprogram h =>
      obtain ⟨region, hregion⟩ := hchange _ _ h
      exact ⟨region, .program hprogram hregion⟩
  | body howner hregion h =>
      obtain ⟨region, hother⟩ := hchange _ _ h
      exact ⟨_, .body howner hregion hother⟩
  | inside hloop _ ih =>
      obtain ⟨node'', hnode⟩ := ih
      exact ⟨_, .inside hloop hnode⟩

/-- A tree with a region changed stands where the tree did, if the region does. -/
theorem Node.AtRegion.fitsIn {change : Node → Node → Prop}
    (hchange : ∀ {region region' : Node}, change region region' → region.isWellFormed = true →
      region.FitsIn (fun _ => true) region')
    (h : node.AtRegion change node') (hwf : node.isWellFormed = true) :
    node.FitsIn (fun _ => true) node' := by
  induction h with
  | program _ h => exact hchange h hwf
  | body _ _ h =>
      exact Node.FitsIn.replacePart rfl hwf (hchange h (Node.isWellFormed_part hwf (by simp)))
  | inside _ _ ih =>
      exact Node.FitsIn.replacePart rfl hwf (ih (Node.isWellFormed_part hwf (by simp)))

theorem Node.Within.known {names : Registry} (h : stmt.Within node) (hknown : node.Known names) :
    stmt.Known names := by
  induction h with
  | self => exact hknown
  | part hmem _ ih => exact ih (hknown.part hmem)

end

/-! ### Steps and runs -/

namespace Moment

variable {options : Options} {moment next start last : Moment} {report : Report}
  {reports : List Report}

/-- A tree at some point of a lowering: the registry knows its names, and its loops are made as
a reader makes them. -/
structure InOrder (judged : Bool) (moment : Moment) : Prop where
  wellFormed : moment.tree.isWellFormed = true
  known : moment.tree.Known moment.names
  sound : ∀ verdict ∈ moment.tree.verdicts judged [], verdict.sound = true

theorem Step.isWellFormed (h : moment.Step options report next)
    (hwf : moment.tree.isWellFormed = true) : next.tree.isWellFormed = true := by
  refine (Node.AtRegion.fitsIn ?_ h hwf).wellFormed
  rintro region region' ⟨-, hlower, hspliced⟩ hregion
  exact hspliced.fitsIn (Node.ReplacedBy.lowerLoop (hspliced.isWellFormed_stmt hregion)
    hlower).stmts hregion

/-- A step takes one verdict off the list: that on the loop which is reported. -/
theorem Step.verdicts (h : moment.Step options report next) (horder : moment.InOrder judged) :
    ∃ verdict : Verdict, report.Answers judged verdict ∧
      (moment.tree.verdicts judged []).Perm (verdict :: next.tree.verdicts judged []) := by
  have hchange : ∀ region region' : Node,
      region.LowersFirst options moment.names report next.names region' →
      ∃ stmt replacement, (∃ mentioned, (stmt.lowerLoop mentioned options).Gives moment.names
        (replacement, report) next.names) ∧ Node.Spliced stmt replacement region region' := by
    rintro region region' ⟨-, hlower, hspliced⟩
    exact ⟨_, _, ⟨_, hlower⟩, hspliced⟩
  obtain ⟨stmt, replacement, ⟨mentioned, hlower⟩, -, hwithin, hexchanges⟩ :=
    @Node.AtRegion.exchanges judged _ _ _ _ hchange h
  obtain ⟨inner, before, after, -, heq, heq'⟩ := hexchanges [] (fun _ hmem => nomatch hmem)
  have hsound : ∀ verdict ∈ stmt.verdicts judged inner, verdict.sound = true :=
    fun verdict hmem => horder.sound verdict (by simp [heq, hmem])
  obtain ⟨verdict, hanswers, hperm⟩ := Node.verdicts_lowerLoop
    (hwithin.isWellFormed horder.wellFormed) (hwithin.known horder.known) hsound hlower
  refine ⟨verdict, hanswers, ?_⟩
  rw [heq, heq', List.append_assoc, List.append_assoc]
  exact ((hperm.append_right after).append_left before).trans List.perm_middle

theorem Step.inOrder (h : moment.Step options report next) (horder : moment.InOrder judged) :
    next.InOrder judged := by
  obtain ⟨verdict, -, hperm⟩ := h.verdicts horder
  exact ⟨h.isWellFormed horder.wellFormed, h.known horder.known, fun other hmem =>
    horder.sound other (hperm.mem_iff.mpr (List.mem_cons_of_mem verdict hmem))⟩

/-- The verdicts at the start of a run are those on the loops it reports, and those at its
end. -/
theorem Run.verdicts (h : Run options start reports last) (horder : start.InOrder judged) :
    ∃ lowered : List Verdict, List.Forall₂ (Report.Answers judged) reports lowered ∧
      (start.tree.verdicts judged []).Perm (lowered ++ last.tree.verdicts judged []) := by
  induction h with
  | done => exact ⟨[], .nil, .refl _⟩
  | step hstep _ ih =>
      obtain ⟨verdict, hanswers, hperm⟩ := hstep.verdicts horder
      obtain ⟨lowered, hlowered, hrest⟩ := ih (hstep.inOrder horder)
      exact ⟨verdict :: lowered, .cons hanswers hlowered, hperm.trans (hrest.cons verdict)⟩

theorem Run.inOrder (h : Run options start reports last) (horder : start.InOrder judged) :
    last.InOrder judged :=
  h.invariant (fun horder hstep => hstep.inOrder horder) horder

/-- If the next loop cannot be lowered, a verdict is that it is refused. -/
theorem Refuses.verdicts {refusal : Refusal} {names' : Registry}
    (h : moment.Refuses options refusal names') (horder : moment.InOrder true) :
    ∃ verdict ∈ moment.tree.verdicts true [], verdict.refused := by
  -- What would take the place of the loop does not matter, so let it be nothing.
  have hchange : ∀ region same : Node,
      region.RefusesFirst options moment.names refusal names' same →
      ∃ region' stmt replacement,
        (∃ mentioned, (stmt.lowerLoop mentioned options).Fails moment.names
        refusal names') ∧ Node.Spliced stmt replacement region region' := by
    rintro region _ ⟨hfirst, hfails⟩
    obtain ⟨region', -, hspliced⟩ := Node.exists_spliced hfirst []
    exact ⟨region', _, [], ⟨_, hfails⟩, hspliced⟩
  obtain ⟨tree, hregion⟩ := Node.AtRegion.change hchange h
  obtain ⟨stmt, replacement, ⟨mentioned, hfails⟩, hcandidate, hwithin, hexchanges⟩ :=
    @Node.AtRegion.exchanges true _ _ _ _ (fun _ _ => id) hregion
  obtain ⟨inner, before, after, hinner, heq, -⟩ := hexchanges [] (fun _ hmem => nomatch hmem)
  have hsub : stmt.verdicts true inner ⊆ moment.tree.verdicts true [] := by
    rw [heq]
    exact fun verdict hmem => by simp [hmem]
  obtain ⟨verdict, hmem, hrefused⟩ := Node.refused_of_fails (hwithin.isWellFormed horder.wellFormed)
    hcandidate (hwithin.known horder.known) (fun verdict hmem => horder.sound verdict (hsub hmem))
    hinner hfails
  exact ⟨verdict, hsub hmem, hrefused⟩

end Moment

/-! ### The whole program -/

theorem Node.sound_of_everywhere {node : Node} (h : node.everywhere (Node.isSound judged) = true) :
    ∀ verdict ∈ node.verdicts judged around, verdict.sound = true := by
  induction node using Node.inductionOn generalizing around with
  | step form span parts ih =>
      have hparts : ∀ inner, ∀ verdict ∈ verdictsIn judged inner parts, verdict.sound = true := by
        intro inner verdict hmem
        obtain ⟨part, hpart, hverdict⟩ := List.mem_flatMap.mp hmem
        exact ih part hpart ((Node.everywhere_mk.mp h).2 part hpart) verdict hverdict
      rcases Node.verdicts_cases judged around form span parts with ⟨-, inner, heq⟩ |
        ⟨-, loop, hself, heq⟩
      · rw [heq]
        exact hparts inner
      · rw [heq]
        rw [← hself] at h
        exact List.forall_mem_cons.mpr ⟨h, hparts around⟩

section

variable {program tree : Node} {options : Options} {reports : List Report} {names' : Registry}

theorem Node.inOrder_ofTree (hprogram : program.IsProgram)
    (hsound : program.everywhere (Node.isSound judged) = true) :
    Moment.InOrder judged ⟨program, .ofTree program⟩ :=
  ⟨hprogram.2, program.known_ofTree, Node.sound_of_everywhere hsound⟩

theorem Report.Answers.of_forall₂ {lowered : List Verdict}
    (h : List.Forall₂ (Report.Answers judged) reports lowered) :
    lowered.map (·.span) = reports.map (·.span) ∧ ∀ verdict ∈ lowered, ¬ verdict.refused := by
  induction h with
  | nil => exact ⟨rfl, by simp⟩
  | cons hanswers _ ih =>
      rw [List.map_cons, List.map_cons, hanswers.span, ih.1]
      exact ⟨rfl, List.forall_mem_cons.mpr ⟨hanswers.kept, ih.2⟩⟩

/-- The reports on a program that is lowered answer the verdicts on its loops. -/
theorem Node.answers_of_lowerWith {names : Registry} (hprogram : program.IsProgram)
    (hknown : program.Known names) (hsound : program.everywhere (Node.isSound judged) = true)
    (h : (program.lowerWith options).run.run names = (.ok (tree, reports), names')) :
    ∃ lowered : List Verdict, List.Forall₂ (Report.Answers judged) reports lowered ∧
      (program.verdicts judged []).Perm lowered := by
  have hcleared : program.ClearedTo tree :=
    .lowerOwnerTo (Form.ownsRegion_of_category hprogram.1) hprogram.2
      (Nat.le_of_eq program.regionsAndLoops_eq_tally.symm) h
  obtain ⟨_, last, hrun, hends⟩ := Node.lowerWith_runs hprogram options names
  rw [h] at hends
  cases hends
  have horder : Moment.InOrder judged ⟨program, names⟩ :=
    ⟨hprogram.2, hknown, Node.sound_of_everywhere hsound⟩
  obtain ⟨lowered, hlowered, hperm⟩ := hrun.verdicts horder
  rw [Node.verdicts_of_tally_all hcleared.all, List.append_nil] at hperm
  exact ⟨lowered, hlowered, hperm⟩

/-- The loops of a program that is lowered are those that are reported, and none of them is
refused. -/
theorem Node.verdicts_of_lowerWith (hprogram : program.IsProgram)
    (hsound : program.everywhere (Node.isSound judged) = true)
    (h : (program.lowerWith options).run.run (.ofTree program) = (.ok (tree, reports), names')) :
    (∀ verdict ∈ program.verdicts judged [], ¬ verdict.refused) ∧
      ((program.verdicts judged []).map (·.span)).Perm (reports.map (·.span)) := by
  obtain ⟨lowered, hlowered, hperm⟩ :=
    Node.answers_of_lowerWith hprogram program.known_ofTree hsound h
  obtain ⟨hspans, hkept⟩ := Report.Answers.of_forall₂ hlowered
  exact ⟨fun verdict hmem => hkept verdict (hperm.mem_iff.mp hmem), hspans ▸ hperm.map _⟩

/-- If a program is refused, one of its loops is. -/
theorem Node.verdicts_of_refused {refusal : Refusal} (hprogram : program.IsProgram)
    (hsound : program.everywhere (Node.isSound true) = true)
    (h : (program.lowerWith options).run.run (.ofTree program) = (.error refusal, names')) :
    ∃ verdict ∈ program.verdicts true [], verdict.refused := by
  obtain ⟨_, last, hrun, hends⟩ := Node.lowerWith_runs hprogram options (.ofTree program)
  rw [h] at hends
  cases hends with
  | refused hstuck =>
      have horder := Node.inOrder_ofTree hprogram hsound
      obtain ⟨lowered, -, hperm⟩ := hrun.verdicts horder
      obtain ⟨verdict, hmem, hrefused⟩ := hstuck.verdicts (hrun.inOrder horder)
      exact ⟨verdict, hperm.mem_iff.mpr (List.mem_append_right lowered hmem), hrefused⟩

end

mutual

/-- The ranges of the block-scoped loops of a tree, in source order. -/
def Node.loopSpans : Node → List Span
  | .mk form span parts =>
    (if (Node.mk form span parts).isBlockLoop then [span] else []) ++ loopSpansIn parts

/-- The ranges of the block-scoped loops of a list of trees, in source order. -/
def loopSpansIn : List Node → List Span
  | [] => []
  | node :: nodes => node.loopSpans ++ loopSpansIn nodes

end

theorem loopSpansIn_eq_flatMap (nodes : List Node) :
    loopSpansIn nodes = nodes.flatMap Node.loopSpans := by
  induction nodes with
  | nil => rfl
  | cons node nodes ih => rw [loopSpansIn, ih, List.flatMap_cons]

/-- There is one verdict for each block-scoped loop. -/
theorem Node.map_span_verdicts (node : Node) :
    (node.verdicts judged around).map (·.span) = node.loopSpans := by
  induction node using Node.inductionOn generalizing around with
  | step form span parts ih =>
      have hparts : ∀ around,
          (verdictsIn judged around parts).map (·.span) = loopSpansIn parts := by
        intro around
        rw [loopSpansIn_eq_flatMap, verdictsIn, List.map_flatMap]
        exact List.flatMap_congr fun part hmem => ih part hmem
      rcases Node.verdicts_cases judged around form span parts with ⟨hloop, inner, heq⟩ |
        ⟨hloop, loop, hself, heq⟩
      · rw [heq, hparts, Node.loopSpans, hloop]
        rfl
      · rw [Loop.toUnlabeled_eq, Node.mk.injEq] at hself
        rw [heq, List.map_cons, hparts, Node.loopSpans, hloop, ← hself.2.1]
        rfl

/-- Every block-scoped loop of a program that is lowered is reported once, with its own range. -/
theorem Node.each_loop_reported_once {program tree : Node} {options : Options}
    {reports : List Report} {names' : Registry} (hprogram : program.IsProgram)
    (hheads : program.everywhere Node.headIsBare = true)
    (h : (program.lowerWith options).run.run (.ofTree program) = (.ok (tree, reports), names')) :
    (reports.map (·.span)).Perm program.loopSpans := by
  have hsame : Node.isSound false = Node.headIsBare := funext fun node => Bool.and_true _
  have hperm := (Node.verdicts_of_lowerWith hprogram (hsame ▸ hheads) h).2
  rw [Node.map_span_verdicts] at hperm
  exact hperm.symm

/-- A labelled loop around one that jumps to the label.  The inner body is called later, and so is
the outer one if its variable is `captured`. -/
def outerJump (captured : Bool) : Node :=
  let at0 := Span.generated
  let outer : Name := ⟨"outer", false, at0⟩
  let declare (name : String) :=
    Node.varDecl (.lexical false) false at0
      [.declarator false at0 (.binding name false at0 .absent) .absent]
  let later (name : String) :=
    Node.exprStmt (.mk .call at0 [.use "later" at0, .list [.mk (.arg none) at0
      [.mk (.arrow false false) at0 [.list [], .use name at0, .absent]]]])
  .mk (.program none) at0
    [.labeled outer at0
      (.forOfStmt false ⟨7, 99⟩ (declare "x") (.use "xs" at0)
        (.block at0 ((if captured then [later "x"] else []) ++
          [.forOfStmt false ⟨44, 95⟩ (declare "y") (.use "ys" at0)
            (.block at0 [later "y", .mk (.continueStmt (some outer)) at0 []])])))]

/-- The inner loop is in the function of the outer one when its turn comes, and is reported. -/
theorem outerJump_reported_once :
    (outerJump true).IsProgram ∧ (outerJump true).loopSpans = [⟨7, 99⟩, ⟨44, 95⟩] ∧
      ∃ tree reports names',
        ((outerJump true).lowerWith {}).run.run (.ofTree (outerJump true)) =
            (.ok (tree, reports), names') ∧
          (reports.map (·.span)).Perm (outerJump true).loopSpans := by
  have hprogram : (outerJump true).IsProgram := by decide +kernel
  have hok : (((outerJump true).lowerWith {}).run.run (.ofTree (outerJump true))).1.isOk =
      true := by
    decide +kernel
  rcases hrun : ((outerJump true).lowerWith {}).run.run (.ofTree (outerJump true)) with
    ⟨refusal | ⟨tree, reports⟩, names'⟩
  · rw [hrun] at hok
    cases hok
  · exact ⟨hprogram, by decide +kernel, tree, reports, names', rfl,
      Node.each_loop_reported_once hprogram (by decide +kernel) hrun⟩

/-- A program is refused if and only if one of its loops is, taken where it stands in the program
as it is written. -/
theorem Node.lower_refuses_iff {program : Node} (hprogram : program.IsProgram)
    (hheads : program.everywhere Node.headIsBare = true)
    (harguments : program.everywhere Node.keepsArguments = true) (options : Options) :
    (∃ refusal, program.lower options = .error refusal) ↔
      ∃ place ∈ program.loopsUnder [], place.Refused := by
  have hsound : program.everywhere (Node.isSound true) = true :=
    Node.everywhere_and hheads harguments
  have hverdicts : (∃ verdict ∈ program.verdicts true [], verdict.refused) ↔
      ∃ place ∈ program.loopsUnder [], place.Refused := by
    simp [Node.verdicts, Place.verdict]
  rw [← hverdicts, Node.lower]
  rcases hrun : (program.lowerWith options).run.run (.ofTree program) with
    ⟨refusal | ⟨tree, reports⟩, names'⟩
  · exact ⟨fun _ => Node.verdicts_of_refused hprogram hsound hrun, fun _ => ⟨refusal, rfl⟩⟩
  · have hnone := (Node.verdicts_of_lowerWith hprogram hsound hrun).1
    constructor
    · rintro ⟨refusal, ⟨⟩⟩
    · rintro ⟨verdict, hmem, hrefused⟩
      exact absurd hrefused (hnone verdict hmem)

/-- A jump out of a loop whose body becomes a function is refused, unless the loop it goes to
becomes one first. -/
theorem outerJump_refused_unless_captured :
    (¬ ∃ refusal, (outerJump true).lower {} = .error refusal) ∧
      ∃ refusal, (outerJump false).lower {} = .error refusal := by
  have hkept : ¬ ∃ place ∈ (outerJump true).loopsUnder [], place.Refused := by decide +kernel
  have hrefused : ∃ place ∈ (outerJump false).loopsUnder [], place.Refused := by decide +kernel
  rw [Node.lower_refuses_iff (by decide +kernel) (by decide +kernel) (by decide +kernel),
    Node.lower_refuses_iff (by decide +kernel) (by decide +kernel) (by decide +kernel)]
  exact ⟨hkept, hrefused⟩

end LoopLowering
