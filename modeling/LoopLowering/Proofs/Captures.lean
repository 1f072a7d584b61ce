/-
A loop captures the same bindings when its turn comes as in the program as it is written.

By then the loops around it have been lowered.  It was hoisted, flattened, renamed, given aliases
for `this` and `arguments`, its jumps became returns, and it may stand in a function that was made
of an outer body.  The verdict on a loop holds what its closures capture, and none of these steps
changes a verdict, so what remains is to read the verdicts back as loops.

A loop that is lowered leaves one image of each loop in it and no others: those of its head in a
row, those of its body in a row, in the order in which they stood.  Along a whole lowering each
report is on one loop of the program, and says that its body became a function if and only if the
loop, as it is written, needs one.
-/
import LoopLowering.Proofs.Outcomes

namespace LoopLowering

/-! ### The loops of a tree -/

mutual

/-- The block-scoped loops of a tree, those in closures included, in source order. -/
def Node.loops : Node → List Loop
  | .mk form span parts =>
    (if form.isLoop then (Loop.ofNode? (.mk form span parts)).toList else []) ++ loopsIn parts

/-- The block-scoped loops of a list of trees, those in closures included, in source order. -/
def loopsIn : List Node → List Loop
  | [] => []
  | node :: nodes => node.loops ++ loopsIn nodes

end

/-- The loops that have a place are the loops there are. -/
theorem Node.map_loop_loopsUnder (around : List (String × Bool)) (node : Node) :
    (node.loopsUnder around).map Place.loop = node.loops := by
  induction node using Node.inductionOn generalizing around with
  | step form span parts ih =>
      have hparts : ∀ around, (loopsUnderIn around parts).map Place.loop = loopsIn parts := by
        intro around
        clear * - ih
        induction parts with
        | nil => rfl
        | cons part parts hrest =>
            rw [loopsUnderIn, loopsIn, List.map_append, ih part List.mem_cons_self,
              hrest fun other hother => ih other (List.mem_cons_of_mem part hother)]
      unfold Node.loopsUnder Node.loops
      split
      · next hclosure =>
        have hnone :=
          Node.isCandidate_eq_false.mp (Node.isCandidate_of_isClosure hclosure span parts)
        rw [hnone, hparts]
        split <;> rfl
      · split
        · rw [hparts]
          rfl
        · next hlabel =>
          simp only [List.map_append, List.map_map, hparts, Function.comp_def, List.map_id']
          by_cases hloop : form.isLoop = true
          · rw [if_pos hloop]
          · have hnone := Node.isLoop_and_isCandidate form span parts
            rw [Bool.not_eq_true _ |>.mp hloop, Bool.false_and] at hnone
            rw [if_neg hloop, Loop.ofNode?_of_not_isBlockLoop hlabel hnone.symm]
            rfl

theorem map_loop_loopsUnderIn (around : List (String × Bool)) (nodes : List Node) :
    (loopsUnderIn around nodes).map Place.loop = loopsIn nodes := by
  induction nodes with
  | nil => rfl
  | cons node nodes ih =>
      rw [loopsUnderIn, loopsIn, List.map_append, Node.map_loop_loopsUnder, ih]

/-! ### Images -/

/-- The second loop has the range of the first, and its closures capture bindings of the same
kinds. -/
structure Loop.CapturesAs (loop image : Loop) : Prop where
  span : image.span = loop.span
  variableCaptured : image.capture.variableCaptured = loop.capture.variableCaptured
  bodyBindingCaptured : image.capture.bodyBindingCaptured = loop.capture.bodyBindingCaptured
  innerLoopBindingCaptured :
    image.capture.innerLoopBindingCaptured = loop.capture.innerLoopBindingCaptured

/-- Loops with the same verdict capture the same. -/
theorem Loop.CapturesAs.of_verdict {place image : Place}
    (h : Place.verdict true image = Place.verdict true place) :
    place.loop.CapturesAs image.loop := by
  have hmem : ∀ origin, Capture.Finding.captured origin ∈ image.loop.findings ↔
      Capture.Finding.captured origin ∈ place.loop.findings := by
    intro origin
    have hcaptures := congrArg (fun verdict => verdict.captures origin) h
    simpa [Place.verdict] using hcaptures
  refine ⟨congrArg Verdict.span h, ?_, ?_, ?_⟩
  · simp only [Loop.capture, Capture.Record.ofFindings, hmem]
  · simp only [Loop.capture, Capture.Record.ofFindings, hmem]
  · simp only [Loop.capture, Capture.Record.ofFindings, hmem]

/-- Places with the same verdicts are those of loops and their images. -/
theorem forall₂_capturesAs_of_map_verdict {places images : List Place}
    (h : images.map (Place.verdict true) = places.map (Place.verdict true)) :
    List.Forall₂ Loop.CapturesAs (places.map Place.loop) (images.map Place.loop) := by
  rw [← List.forall₂_eq_eq_eq, List.forall₂_map_left_iff, List.forall₂_map_right_iff] at h
  rw [List.forall₂_map_left_iff, List.forall₂_map_right_iff]
  exact h.flip.imp fun _ _ hverdict => .of_verdict hverdict

/-- If verdicts fall into two parts, so do the loops they are on. -/
theorem exists_images_of_verdictsIn {replacement first last : List Node}
    {around inFirst inLast : List (String × Bool)}
    (h : verdictsIn true around replacement =
      verdictsIn true inFirst first ++ verdictsIn true inLast last) :
    ∃ firstImages lastImages, loopsIn replacement = firstImages ++ lastImages ∧
      List.Forall₂ Loop.CapturesAs (loopsIn first) firstImages ∧
      List.Forall₂ Loop.CapturesAs (loopsIn last) lastImages := by
  simp only [verdictsIn_eq_map] at h
  obtain ⟨firstPlaces, lastPlaces, hplaces, hfirst, hlast⟩ := List.map_eq_append_iff.mp h
  refine ⟨firstPlaces.map Place.loop, lastPlaces.map Place.loop, ?_, ?_, ?_⟩
  · rw [← map_loop_loopsUnderIn around, hplaces, List.map_append]
  · rw [← map_loop_loopsUnderIn inFirst]
    exact forall₂_capturesAs_of_map_verdict hfirst
  · rw [← map_loop_loopsUnderIn inLast]
    exact forall₂_capturesAs_of_map_verdict hlast

/-- A loop that is lowered leaves one image of each loop in its head and in its body. -/
theorem Loop.exists_images {stmt : Node} {loop : Loop} {mentioned : String → Bool}
    {options : Options} {names names' : Registry} {replacement : List Node} {report : Report}
    (hwf : stmt.isWellFormed = true) (hloop : Loop.ofNode? stmt = some loop)
    (hknown : stmt.Known names) (hsound : stmt.everywhere (Node.isSound true) = true)
    (h : (stmt.lowerLoop mentioned options).Gives names (replacement, report) names') :
    ∃ before images after, loopsIn replacement = before ++ images ++ after ∧
      List.Forall₂ Loop.CapturesAs loop.body.loops images ∧
      List.Forall₂ Loop.CapturesAs (loopsIn loop.headParts) (before ++ after) := by
  have hbodySound := Loop.everywhere_body_of_ofNode? hloop hsound
  rw [Node.lowerLoop, hloop] at h
  obtain ⟨-, hverdicts⟩ :=
    @Loop.verdicts_lower true [] _ _ _ _ _ _ _ _ hwf hknown hloop hbodySound h
  have hbody : ∀ inner, loop.body.verdicts true inner = verdictsIn true inner [loop.body] := by
    intro inner
    rw [verdictsIn_cons, verdictsIn_nil, List.append_nil]
  have hloops : loopsIn [loop.body] = loop.body.loops := List.append_nil _
  simp only [hbody] at hverdicts
  -- The function stands before the loop that calls it, a flattened body after the head.
  rcases hverdicts with hextracted | hflattened
  · obtain ⟨images, after, heq, himages, hafter⟩ := exists_images_of_verdictsIn hextracted
    exact ⟨[], images, after, heq, hloops ▸ himages, hafter⟩
  · obtain ⟨before, images, heq, hbefore, himages⟩ := exists_images_of_verdictsIn hflattened
    refine ⟨before, images, [], ?_, hloops ▸ himages, ?_⟩
    · rw [heq, List.append_nil]
    · rw [List.append_nil]
      exact hbefore

/-! ### Reports -/

/-- The report is on the loop, and says that its body became a function if and only if the loop
needs one. -/
def Report.IsOn (report : Report) (loop : Loop) : Prop :=
  report.span = loop.span ∧
    ((∃ name, report.outcome = .extracted name) ↔ loop.capture.needsExtraction = true)

theorem Report.Answers.isOn {report : Report} {place : Place}
    (h : report.Answers true (Place.verdict true place)) : report.IsOn place.loop := by
  refine ⟨h.span.symm, ?_⟩
  rw [h.outcome rfl, place.loop.needsExtraction_iff]
  simp [Place.verdict]

/-- The loops of a program can be listed as they are reported. -/
theorem Node.exists_reported {program tree : Node} {options : Options} {reports : List Report}
    {names names' : Registry} (hprogram : program.IsProgram) (hknown : program.Known names)
    (hsound : program.everywhere (Node.isSound true) = true)
    (h : (program.lowerWith options).run.run names = (.ok (tree, reports), names')) :
    ∃ reported, reported.Perm program.loops ∧ List.Forall₂ Report.IsOn reports reported := by
  obtain ⟨lowered, hanswers, hperm⟩ := Node.answers_of_lowerWith hprogram hknown hsound h
  have hlisted : (Relation.Comp (· = List.map (Place.verdict true) ·) List.Perm) lowered
      (program.loopsUnder []) := by
    rw [List.eq_map_comp_perm]
    exact hperm.symm
  obtain ⟨places, rfl, hplaces⟩ := hlisted
  refine ⟨places.map Place.loop, ?_, ?_⟩
  · rw [← Node.map_loop_loopsUnder []]
    exact hplaces.map _
  · rw [List.forall₂_map_right_iff] at hanswers ⊢
    exact hanswers.imp fun _ _ hanswer => hanswer.isOn

/-- Lowering a loop leaves one image of each loop in it, which captures what that loop did.  So in
a program that is lowered the body of a loop is reported to have become a function if and only if
the loop needs one as it is written. -/
theorem Node.captures_survive_lowering (options : Options) (names : Registry) :
    (∀ (stmt : Node) (loop : Loop) (mentioned : String → Bool) (replacement : List Node)
        (report : Report) (names' : Registry),
      stmt.IsStmt → Loop.ofNode? stmt = some loop → stmt.Known names →
      stmt.everywhere Node.headIsBare = true → stmt.everywhere Node.keepsArguments = true →
      (stmt.lowerLoop mentioned options).Gives names (replacement, report) names' →
      ∃ before images after, loopsIn replacement = before ++ images ++ after ∧
        List.Forall₂ Loop.CapturesAs loop.body.loops images ∧
        List.Forall₂ Loop.CapturesAs (loopsIn loop.headParts) (before ++ after)) ∧
    ∀ (program tree : Node) (reports : List Report) (names' : Registry),
      program.IsProgram → program.Known names →
      program.everywhere Node.headIsBare = true → program.everywhere Node.keepsArguments = true →
      (program.lowerWith options).run.run names = (.ok (tree, reports), names') →
      ∃ reported, reported.Perm program.loops ∧ List.Forall₂ Report.IsOn reports reported := by
  constructor
  · intro stmt loop mentioned replacement report names' hstmt hloop hknown hheads harguments h
    exact Loop.exists_images hstmt.2 hloop hknown (Node.everywhere_and hheads harguments) h
  · intro program tree reports names' hprogram hknown hheads harguments h
    exact Node.exists_reported hprogram hknown (Node.everywhere_and hheads harguments) h

/-- The inner loop of a labelled one, which jumps to the label, keeps its captured variable on its
way into the function of the outer body.  Both bodies are reported to have become functions. -/
theorem outerJump_captures_survive :
    (∃ stmt loop replacement report names',
      (outerJump true).firstCandidate? = some stmt ∧ Loop.ofNode? stmt = some loop ∧
        loop.body.loops.map (·.capture.variableCaptured) = [true] ∧
        (stmt.lowerLoop (fun _ => false) {}).Gives (.ofTree (outerJump true))
          (replacement, report) names' ∧
        ∃ before images after, loopsIn replacement = before ++ images ++ after ∧
          List.Forall₂ Loop.CapturesAs loop.body.loops images ∧
          List.Forall₂ Loop.CapturesAs (loopsIn loop.headParts) (before ++ after)) ∧
      (outerJump true).loops.map (·.capture.needsExtraction) = [true, true] ∧
      ∃ tree reports names',
        ((outerJump true).lowerWith {}).run.run (.ofTree (outerJump true)) =
            (.ok (tree, reports), names') ∧
          ∃ reported, reported.Perm (outerJump true).loops ∧
            List.Forall₂ Report.IsOn reports reported := by
  obtain ⟨himages, hreported⟩ := Node.captures_survive_lowering {} (.ofTree (outerJump true))
  refine ⟨?_, by decide +kernel, ?_⟩
  · let stmt := (outerJump true).parts.headD .absent
    have hstmt : stmt.IsStmt := by decide +kernel
    have hok : ((stmt.lowerLoop (fun _ => false) {}).run.run (.ofTree (outerJump true))).1.isOk =
        true := by decide +kernel
    rcases hloop : Loop.ofNode? stmt with _ | loop
    · exact absurd hloop (by decide +kernel)
    rcases hrun : (stmt.lowerLoop (fun _ => false) {}).run.run (.ofTree (outerJump true)) with
      ⟨refusal | ⟨replacement, report⟩, names'⟩
    · rw [hrun] at hok
      cases hok
    · have hcaptured : (Loop.ofNode? stmt).map
          (fun loop => loop.body.loops.map (·.capture.variableCaptured)) = some [true] := by
        decide +kernel
      rw [hloop] at hcaptured
      have hknown : stmt.Known (.ofTree (outerJump true)) :=
        (outerJump true).known_ofTree.part List.mem_cons_self
      exact ⟨stmt, loop, replacement, report, names', rfl, hloop, Option.some.inj hcaptured, hrun,
        himages stmt loop _ replacement report names' hstmt hloop hknown (by decide +kernel)
          (by decide +kernel) hrun⟩
  · have hok : (((outerJump true).lowerWith {}).run.run (.ofTree (outerJump true))).1.isOk =
        true := by decide +kernel
    rcases hrun : ((outerJump true).lowerWith {}).run.run (.ofTree (outerJump true)) with
      ⟨refusal | ⟨tree, reports⟩, names'⟩
    · rw [hrun] at hok
      cases hok
    · exact ⟨tree, reports, names', rfl, hreported _ tree reports names' (by decide +kernel)
        (outerJump true).known_ofTree (by decide +kernel) (by decide +kernel) hrun⟩

end LoopLowering
