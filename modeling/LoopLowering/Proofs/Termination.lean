/-
Lowering comes to an end.

Nothing in the shape of a program says so.  Each step searches its region anew, after the loop was
replaced by something larger, and the walk goes on into functions that were no part of the program
before.  What does fall is the number of loops.  A loop that is lowered leaves the loops in it and
no others, so its region has one loop less outside closures and the tree around it one loop less
altogether.  Only an initialiser in the head of a loop over keys or values can get lost on the way,
with the loops in it, and no reader makes such a head.

The repetitions of the library are bounded by counts taken beforehand.  As the counts fall the
bounds are never met: with any larger bound the results are the same.  So `lowerRegion` repeats
until there is no loop to find, and `lowerOwner` goes into every function it finds, and both are
what they would be if they were written without a bound.
-/
import LoopLowering.Proofs.Captures

namespace LoopLowering

/-! ### Counting loops -/

/-- The loops of a tree are those that are counted. -/
theorem Node.length_loops (node : Node) : node.loops.length = node.tally .all := by
  induction node using Node.inductionOn with
  | step form span parts ih =>
      have hparts : (loopsIn parts).length = tallyIn .all parts := by
        clear * - ih
        induction parts with
        | nil => rfl
        | cons part parts hrest =>
            rw [loopsIn, List.length_append, tallyIn_cons, ih part List.mem_cons_self,
              hrest fun other hother => ih other (List.mem_cons_of_mem part hother)]
      have hself : (if form.isLoop then (Loop.ofNode? (.mk form span parts)).toList
          else []).length = if (Node.mk form span parts).isBlockLoop then 1 else 0 := by
        rw [← Node.isLoop_and_isCandidate, Node.isCandidate]
        cases form.isLoop <;> cases Loop.ofNode? (.mk form span parts) <;> rfl
      rw [Node.loops, List.length_append, hself, hparts, Node.tally_all_mk]

theorem Node.length_verdicts (judged : Bool) (around : List (String × Bool)) (node : Node) :
    (node.verdicts judged around).length = node.loops.length := by
  rw [← Node.map_loop_loopsUnder around node, List.length_map, Node.verdicts, List.length_map]

theorem length_verdictsIn (judged : Bool) (around : List (String × Bool)) (nodes : List Node) :
    (verdictsIn judged around nodes).length = tallyIn .all nodes := by
  induction nodes with
  | nil => rfl
  | cons node nodes ih =>
      rw [verdictsIn_cons, List.length_append, Node.length_verdicts, Node.length_loops, ih,
        tallyIn_cons]

/-- There is something to find only where there is something to count. -/
theorem Node.candidates_pos {region stmt : Node} (h : region.firstCandidate? = some stmt) :
    0 < region.candidates := by
  obtain ⟨region', -, hspliced⟩ := Node.exists_spliced h []
  obtain ⟨loop, hloop⟩ := Option.isSome_iff_exists.mp hspliced.isCandidate_stmt
  have hcount : region'.tally .inRegion + stmt.tally .inRegion =
      region.tally .inRegion + tallyIn .inRegion [] := hspliced.tally fun _ => id
  have hstmt : stmt.tally .inRegion = 1 + _ := Loop.tally_of_ofNode? hloop fun _ => rfl
  rw [Node.candidates_eq_tally]
  rw [tallyIn_nil] at hcount
  omega

/-! ### One step -/

/-- A loop in which all heads are bare leaves the loops in it, all of them. -/
theorem Node.tallyIn_replacement {stmt : Node} (hwf : stmt.isWellFormed = true)
    (hbare : stmt.everywhere Node.headIsBare = true) {mentioned : String → Bool} {options : Options}
    {names names' : Registry} {replacement : List Node} {report : Report}
    (h : (stmt.lowerLoop mentioned options).Gives names (replacement, report) names') :
    tallyIn .all replacement + 1 = stmt.tally .all := by
  unfold Node.lowerLoop at h
  split at h
  · next loop hloop =>
    have hloopWf := Loop.wellFormed_of_ofNode? hloop hwf
    have hwhole : stmt.tally .all = 1 + (loop.headTally .all + loop.body.tally .all) :=
      Loop.tally_of_ofNode? hloop fun _ => rfl
    obtain ⟨-, hflattened | ⟨hrefusal, hextracted⟩⟩ := Loop.replacement_spec hloopWf h
    · have hcount := hflattened .all
      omega
    · have hcount : tallyIn .all replacement = loop.headTally .all +
          (0 + tallyIn .all (hoistStmts loop.body.bodyStmts)) := hextracted .all
      have hsound : loop.body.everywhere (Node.isSound false) = true := by
        rw [Node.isSound_false]
        exact Loop.everywhere_body_of_ofNode? hloop hbare
      have hbody : SameLoops false [loop.body] (hoistStmts loop.body.bodyStmts) :=
        .hoistStmts hloopWf.body hsound
          (Loop.varsNamed_body (extractionRefusal?_eq_none.mp hrefusal))
      have hsame := congrArg List.length (hbody.verdicts [])
      rw [length_verdictsIn, length_verdictsIn, tallyIn_cons, tallyIn_nil] at hsame
      omega
  · simp at h

/-- A step leaves fewer loops in its region, and fewer altogether. -/
theorem Node.LowersFirst.fewer_loops {options : Options} {names names' : Registry} {report : Report}
    {region region' : Node} (h : region.LowersFirst options names report names' region')
    (hwf : region.isWellFormed = true) :
    region'.candidates < region.candidates ∧ region'.tally .all < region.tally .all ∧
      (region.everywhere Node.headIsBare = true →
        region'.tally .all + 1 = region.tally .all) := by
  obtain @⟨stmt, _, _, replacement, -, hlower, hspliced⟩ := h
  have hstmt := hspliced.isWellFormed_stmt hwf
  have hreplaced := Node.ReplacedBy.lowerLoop hstmt hlower
  have hcount : region'.tally .all + stmt.tally .all =
      region.tally .all + tallyIn .all replacement := hspliced.tally fun _ _ => rfl
  obtain ⟨span, hle⟩ := hreplaced.tally .all fun _ => rfl
  have hweight : tallyIn .all replacement + 1 ≤ stmt.tally .all + 0 := hle
  refine ⟨?_, by omega, fun hbare => ?_⟩
  · have hfewer := (hspliced.counts hreplaced).1
    rw [Node.candidates_eq_tally, Node.candidates_eq_tally]
    omega
  · have hexact := Node.tallyIn_replacement hstmt (hspliced.within.everywhere hbare) hlower
    omega

/-- The tree around a region loses the loops that the region loses. -/
theorem Node.AtRegion.tally_all {region region' node node' : Node} {lost : Nat}
    (h : node.AtRegion (fun a b => a = region ∧ b = region') node')
    (hform : region'.form = region.form)
    (hlost : region'.tally .all + lost = region.tally .all) :
    node'.tally .all + lost = node.tally .all := by
  have hnode : ∀ {form : Form} {span : Span} {before after : List Node} {a b : Node},
      b.form = a.form → b.tally .all + lost = a.tally .all →
      (Node.mk form span (before ++ b :: after)).tally .all + lost =
        (Node.mk form span (before ++ a :: after)).tally .all := by
    intro form span before after a b hab hcount
    have hmark : (Node.mk form span (before ++ b :: after)).landmark =
        (Node.mk form span (before ++ a :: after)).landmark :=
      Node.landmark_replacePart (by unfold Node.isLexicalDecl; rw [hab])
    rw [Node.tally_of_not_stop rfl, Node.tally_of_not_stop rfl, hmark]
    simp only [Node.parts, tallyIn_append, tallyIn_cons]
    omega
  induction h with
  | program _ h =>
      obtain ⟨rfl, rfl⟩ := h
      exact hlost
  | body _ _ h =>
      obtain ⟨rfl, rfl⟩ := h
      exact hnode hform hlost
  | inside _ h ih =>
      refine hnode (Node.AtRegion.form_eq ?_ h) ih
      rintro _ _ ⟨rfl, rfl⟩
      exact hform

/-- A change of a region is a change of one region. -/
theorem Node.AtRegion.exists_single {change : Node → Node → Prop} {node node' : Node}
    (h : node.AtRegion change node') :
    ∃ region region', change region region' ∧ region.Within node ∧
      node.AtRegion (fun a b => a = region ∧ b = region') node' := by
  induction h with
  | program hprogram h => exact ⟨_, _, h, .self, .program hprogram ⟨rfl, rfl⟩⟩
  | body howner hregion h =>
      exact ⟨_, _, h, .part (by simp) .self, .body howner hregion ⟨rfl, rfl⟩⟩
  | inside hloop _ ih =>
      obtain ⟨region, region', h, hwithin, hat⟩ := ih
      exact ⟨region, region', h, .part (by simp) hwithin, .inside hloop hat⟩

namespace Moment

variable {options : Options} {start moment last : Moment} {report : Report}
  {reports : List Report}

/-- A step leaves fewer loops in the tree. -/
theorem Step.length_loops_lt (h : moment.Step options report last)
    (hwf : moment.tree.isWellFormed = true) :
    last.tree.loops.length < moment.tree.loops.length := by
  obtain ⟨region, region', hlowers, hwithin, hat⟩ := Node.AtRegion.exists_single h
  obtain ⟨-, hfewer, -⟩ := hlowers.fewer_loops (hwithin.isWellFormed hwf)
  obtain ⟨lost, hlost⟩ := Nat.exists_eq_add_of_lt hfewer
  have hcount : last.tree.tally .all + (lost + 1) = moment.tree.tally .all :=
    hat.tally_all hlowers.form_eq (by omega)
  rw [Node.length_loops, Node.length_loops]
  omega

/-- A run has no more steps than there are loops. -/
theorem Run.length_reports_le (h : Run options start reports last)
    (hwf : start.tree.isWellFormed = true) :
    last.tree.loops.length + reports.length ≤ start.tree.loops.length := by
  induction h with
  | done => exact Nat.le_refl _
  | step hstep _ ih =>
      have hfewer := hstep.length_loops_lt hwf
      have hrest := ih (hstep.isWellFormed hwf)
      rw [List.length_cons]
      omega

/-- In a run from a tree with bare heads and known names every step takes one loop. -/
theorem Run.length_reports_eq (h : Run options start reports last) (horder : start.InOrder false) :
    last.tree.loops.length + reports.length = start.tree.loops.length := by
  obtain ⟨lowered, hlowered, hperm⟩ := h.verdicts horder
  have hlength := hperm.length_eq
  rw [List.length_append, Node.length_verdicts, Node.length_verdicts,
    ← hlowered.length_eq] at hlength
  omega

end Moment

/-! ### The repetitions do not meet their bounds -/

/-- What a step makes of a region in which a loop is found. -/
theorem Node.lowersFirst_of_gives {options : Options} {names names' : Registry} {report : Report}
    {region stmt region' : Node} {replacement : List Node}
    (hfirst : region.firstCandidate? = some stmt)
    (hlower : (stmt.lowerLoop region.mentionsOutside options).Gives names (replacement, report)
      names')
    (hsplice : region.splice? replacement = some region') :
    region.LowersFirst options names report names' region' := by
  obtain ⟨spliced, hspliced, hstep⟩ := Node.exists_spliced hfirst replacement
  obtain rfl : spliced = region' := Option.some.inj (hspliced.symm.trans hsplice)
  exact .intro hfirst hlower hstep

theorem Node.LowersFirst.isWellFormed {options : Options} {names names' : Registry}
    {report : Report} {region region' : Node}
    (h : region.LowersFirst options names report names' region')
    (hwf : region.isWellFormed = true) : region'.isWellFormed = true := by
  obtain ⟨-, hlower, hspliced⟩ := h
  have hreplaced := Node.ReplacedBy.lowerLoop (hspliced.isWellFormed_stmt hwf) hlower
  exact (hspliced.fitsIn hreplaced.stmts hwf).wellFormed

/-- One round in a region: lower the first loop, if there is one, and go on with what the region is
then. -/
def lowerFirst (options : Options) (region : Node) (more : Node → ProgramLowering Node) :
    ProgramLowering Node :=
  match region.firstCandidate? with
  | none => pure region
  | some stmt => do
    let (replacement, report) ← stmt.lowerLoop region.mentionsOutside options
    modify (· ++ [report])
    match region.splice? replacement with
    | some region => more region
    | none => throw (.internal "rewritten loop could not be spliced back" stmt.span)

/-- How a region is lowered further matters for the regions that a step makes of it only. -/
theorem lowerFirst_congr {options : Options} {region : Node}
    {more more' : Node → ProgramLowering Node}
    (h : ∀ {names names' : Registry} {report : Report} {region' : Node},
      region.LowersFirst options names report names' region' → more region' = more' region') :
    lowerFirst options region more = lowerFirst options region more' := by
  unfold lowerFirst
  split
  · rfl
  · next stmt hfirst =>
    apply ProgramLowering.bind_congr
    rintro reports names ⟨replacement, report⟩ reports' names' hlower
    have hlower := (ProgramLowering.gives_liftM.mp hlower).1
    cases hsplice : region.splice? replacement with
    | none => simp only [hsplice]
    | some region' =>
        simp only [hsplice, h (Node.lowersFirst_of_gives hfirst hlower hsplice)]

theorem lowerRegionTo_succ (options : Options) (loops : Nat) (region : Node) :
    lowerRegionTo options (loops + 1) region =
      lowerFirst options region (lowerRegionTo options loops) := rfl

theorem lowerRegionTo_of_firstCandidate? (options : Options) {region : Node}
    (h : region.firstCandidate? = none) (loops : Nat) :
    lowerRegionTo options loops region = pure region := by
  cases loops with
  | zero => rfl
  | succ loops => rw [lowerRegionTo_succ, lowerFirst, h]

/-- With any bound that is large enough a region is lowered in the same way. -/
theorem lowerRegionTo_congr (options : Options) {loops more : Nat} {region : Node}
    (hwf : region.isWellFormed = true) (hloops : region.candidates ≤ loops)
    (hmore : region.candidates ≤ more) :
    lowerRegionTo options loops region = lowerRegionTo options more region := by
  induction loops generalizing more region with
  | zero =>
      have hnone : region.firstCandidate? = none := by
        by_contra hsome
        obtain ⟨stmt, hfirst⟩ := Option.ne_none_iff_exists'.mp hsome
        have hpos := Node.candidates_pos hfirst
        omega
      rw [lowerRegionTo_of_firstCandidate? options hnone,
        lowerRegionTo_of_firstCandidate? options hnone]
  | succ loops ih =>
      by_cases hnone : region.firstCandidate? = none
      · rw [lowerRegionTo_of_firstCandidate? options hnone,
          lowerRegionTo_of_firstCandidate? options hnone]
      · obtain ⟨stmt, hfirst⟩ := Option.ne_none_iff_exists'.mp hnone
        have hpos := Node.candidates_pos hfirst
        obtain ⟨more, rfl⟩ : ∃ n, more = n + 1 := ⟨more - 1, by omega⟩
        rw [lowerRegionTo_succ, lowerRegionTo_succ]
        apply lowerFirst_congr
        intro names names' report region' hstep
        obtain ⟨hfewer, -, -⟩ := hstep.fewer_loops hwf
        exact ih (hstep.isWellFormed hwf) (by omega) (by omega)

/-- A region is lowered until there is no loop to find. -/
theorem lowerRegion_eq (options : Options) {region : Node} (hwf : region.isWellFormed = true) :
    lowerRegion options region = lowerFirst options region (lowerRegion options) := by
  have hbound : lowerRegion options region =
      lowerRegionTo options (region.candidates + 1) region :=
    lowerRegionTo_congr options hwf (Nat.le_refl _) (Nat.le_succ _)
  rw [hbound, lowerRegionTo_succ]
  apply lowerFirst_congr
  intro names names' report region' hstep
  obtain ⟨hfewer, -, -⟩ := hstep.fewer_loops hwf
  exact lowerRegionTo_congr options (hstep.isWellFormed hwf) (by omega) (Nat.le_refl _)

/-- Lower the region of a node, then the regions in it. -/
def lowerOwner (options : Options) (node : Node) : ProgramLowering Node :=
  lowerOwnerTo options node.regionsAndLoops node

/-- One round in a node that owns a region: lower the region, then go on with the owners of regions
among its parts. -/
def lowerOuter (options : Options) (node : Node) (more : Node → ProgramLowering Node) :
    ProgramLowering Node := do
  let node ← node.changeRegion (lowerRegion options)
  return .mk node.form node.ownSpan (← changeOwnersIn more node.parts)

theorem lowerOwnerTo_succ (options : Options) (depth : Nat) (node : Node) :
    lowerOwnerTo options (depth + 1) node =
      lowerOuter options node (lowerOwnerTo options depth) := rfl

theorem changeOwnersIn_congr {change change' : Node → ProgramLowering Node} {nodes : List Node}
    (h : ∀ node ∈ nodes, node.changeOwners change = node.changeOwners change') :
    changeOwnersIn change nodes = changeOwnersIn change' nodes := by
  induction nodes with
  | nil => rfl
  | cons node nodes ih =>
      obtain ⟨hnode, hnodes⟩ := List.forall_mem_cons.mp h
      rw [changeOwnersIn, changeOwnersIn, hnode, ih hnodes]

/-- How owners of regions are changed matters for those in the tree only. -/
theorem Node.changeOwners_congr {change change' : Node → ProgramLowering Node} {node : Node}
    (h : ∀ owner : Node, owner.Within node → owner.form.ownsRegion = true →
      change owner = change' owner) :
    node.changeOwners change = node.changeOwners change' := by
  induction node using Node.inductionOn with
  | step form span parts ih =>
      unfold Node.changeOwners
      split
      · next howner => exact h _ .self howner
      · have hparts : changeOwnersIn change parts = changeOwnersIn change' parts := by
          refine changeOwnersIn_congr fun part hmem => ih part hmem ?_
          exact fun owner hwithin => h owner (.part hmem hwithin)
        rw [hparts]

/-- A part of a tree has no more regions and loops than the tree. -/
theorem Node.Within.tally_withRegions_le {node tree : Node} (h : node.Within tree) :
    node.tally .withRegions ≤ tree.tally .withRegions := by
  induction h with
  | self => exact Nat.le_refl _
  | @part form span parts part hmem _ ih =>
      have hle : part.tally .withRegions ≤ tallyIn .withRegions parts := tally_le_tallyIn hmem
      have hwhole : (Node.mk form span parts).tally .withRegions =
          _ + tallyIn .withRegions parts := Node.tally_of_not_stop rfl
      omega

/-- Inside a node whose region was lowered there are fewer regions and loops than there were in
the node. -/
theorem Node.fewer_regions {options : Options} {owner lowered inner : Node}
    {reports reports' : List Report} {names names' : Registry}
    (howner : owner.form.ownsRegion = true) (hwf : owner.isWellFormed = true)
    (h : (owner.changeRegion (lowerRegion options)).Gives reports names lowered reports' names')
    {part : Node} (hmem : part ∈ lowered.parts) (hinner : inner.Within part) :
    inner.isWellFormed = true ∧ inner.regionsAndLoops < owner.regionsAndLoops := by
  obtain ⟨hform, hfits, hregions, -⟩ := Node.gives_changeRegion_lowerRegion howner hwf h
  have hlowered := Node.tallyIn_parts_lt (hform ▸ howner)
  have hpart : part.tally .withRegions ≤ tallyIn .withRegions lowered.parts := tally_le_tallyIn hmem
  have hle := hinner.tally_withRegions_le
  rw [Node.regionsAndLoops_eq_tally, Node.regionsAndLoops_eq_tally]
  refine ⟨?_, by omega⟩
  obtain ⟨form, span, parts⟩ := lowered
  exact hinner.isWellFormed (Node.isWellFormed_part hfits.wellFormed hmem)

/-- How the regions in a node are lowered matters for those that are there once its own region
is. -/
theorem lowerOuter_congr {options : Options} {owner : Node} (howner : owner.form.ownsRegion = true)
    (hwf : owner.isWellFormed = true) {more more' : Node → ProgramLowering Node}
    (h : ∀ inner : Node, inner.form.ownsRegion = true → inner.isWellFormed = true →
      inner.regionsAndLoops < owner.regionsAndLoops → more inner = more' inner) :
    lowerOuter options owner more = lowerOuter options owner more' := by
  apply ProgramLowering.bind_congr
  intro reports names lowered reports' names' hlowered
  have hparts : changeOwnersIn more lowered.parts = changeOwnersIn more' lowered.parts := by
    refine changeOwnersIn_congr fun part hmem => Node.changeOwners_congr ?_
    intro inner hinner hregion
    obtain ⟨hinnerWf, hfewer⟩ := Node.fewer_regions howner hwf hlowered hmem hinner
    exact h inner hregion hinnerWf hfewer
  rw [hparts]

/-- With any bound that is large enough the regions of a node are lowered in the same way. -/
theorem lowerOwnerTo_congr (options : Options) {depth more : Nat} {owner : Node}
    (howner : owner.form.ownsRegion = true) (hwf : owner.isWellFormed = true)
    (hdepth : owner.regionsAndLoops ≤ depth) (hmore : owner.regionsAndLoops ≤ more) :
    lowerOwnerTo options depth owner = lowerOwnerTo options more owner := by
  have hpos : ∀ owner : Node, owner.form.ownsRegion = true → 0 < owner.regionsAndLoops := by
    intro owner howner
    have hone := Node.tallyIn_parts_lt howner
    rw [Node.regionsAndLoops_eq_tally]
    omega
  induction depth generalizing more owner with
  | zero =>
      have hone := hpos owner howner
      omega
  | succ depth ih =>
      have hone := hpos owner howner
      obtain ⟨more, rfl⟩ : ∃ n, more = n + 1 := ⟨more - 1, by omega⟩
      rw [lowerOwnerTo_succ, lowerOwnerTo_succ]
      apply lowerOuter_congr howner hwf
      intro inner hinner hinnerWf hfewer
      exact ih hinner hinnerWf (by omega) (by omega)

/-- The regions in a node are lowered wherever they are. -/
theorem lowerOwner_eq (options : Options) {owner : Node} (howner : owner.form.ownsRegion = true)
    (hwf : owner.isWellFormed = true) :
    lowerOwner options owner = lowerOuter options owner (lowerOwner options) := by
  have hbound : lowerOwner options owner = lowerOwnerTo options (owner.regionsAndLoops + 1) owner :=
    lowerOwnerTo_congr options howner hwf (Nat.le_refl _) (Nat.le_succ _)
  rw [hbound, lowerOwnerTo_succ]
  apply lowerOuter_congr howner hwf
  intro inner hinner hinnerWf hfewer
  exact lowerOwnerTo_congr options hinner hinnerWf (by omega) (Nat.le_refl _)

/-! ### Lowering ends -/

/-- Each step of the lowering leaves fewer loops in its region, and fewer in the tree around it: one
less, if the heads of the loops are bare.  So a region is lowered by rounds until none is left to
find, and a program by going into all functions there are, old and new; each of these has fewer
regions and loops than what it is in, and there are no more steps than loops in the program. -/
theorem Node.lowering_terminates (options : Options) :
    (∀ (names names' : Registry) (region stmt region' : Node) (replacement : List Node)
        (report : Report),
      region.isWellFormed = true → region.firstCandidate? = some stmt →
      (stmt.lowerLoop region.mentionsOutside options).Gives names (replacement, report) names' →
      region.splice? replacement = some region' →
      region'.candidates < region.candidates ∧
        ∀ tree tree' : Node,
          tree.AtRegion (fun before after => before = region ∧ after = region') tree' →
          tree'.loops.length < tree.loops.length ∧
            (region.everywhere Node.headIsBare = true →
              tree'.loops.length + 1 = tree.loops.length)) ∧
    (∀ region : Node, region.isWellFormed = true →
      lowerRegion options region = lowerFirst options region (lowerRegion options)) ∧
    (∀ owner : Node, owner.form.ownsRegion = true → owner.isWellFormed = true →
      lowerOwner options owner = lowerOuter options owner (lowerOwner options) ∧
        ∀ (reports reports' : List Report) (names names' : Registry) (lowered : Node),
          (owner.changeRegion (lowerRegion options)).Gives reports names lowered reports' names' →
          ∀ part ∈ lowered.parts, ∀ inner : Node, inner.Within part →
            inner.regionsAndLoops < owner.regionsAndLoops) ∧
    ∀ (program : Node) (names : Registry), program.IsProgram →
      program.lowerWith options = (lowerOwner options program).run [] ∧
        ∃ reports last, Moment.Run options ⟨program, names⟩ reports last ∧
          last.Ends options reports ((program.lowerWith options).run.run names) ∧
          last.tree.loops.length + reports.length ≤ program.loops.length ∧
          (program.Known names → program.everywhere Node.headIsBare = true →
            last.tree.loops.length + reports.length = program.loops.length) := by
  refine ⟨?_, fun region => lowerRegion_eq options, ?_, ?_⟩
  · intro names names' region stmt region' replacement report hwf hfirst hlower hsplice
    have hstep := Node.lowersFirst_of_gives hfirst hlower hsplice
    obtain ⟨hregion, hfewer, hexact⟩ := hstep.fewer_loops hwf
    refine ⟨hregion, fun tree tree' hat => ?_⟩
    obtain ⟨lost, hlost⟩ := Nat.exists_eq_add_of_lt hfewer
    have hcount : tree'.tally .all + (lost + 1) = tree.tally .all :=
      hat.tally_all hstep.form_eq (by omega)
    rw [Node.length_loops, Node.length_loops]
    refine ⟨by omega, fun hbare => ?_⟩
    have hone := hexact hbare
    omega
  · intro owner howner hwf
    refine ⟨lowerOwner_eq options howner hwf, ?_⟩
    intro reports reports' names names' lowered hlowered part hmem inner hinner
    exact (Node.fewer_regions howner hwf hlowered hmem hinner).2
  · intro program names hprogram
    refine ⟨rfl, ?_⟩
    obtain ⟨reports, last, hrun, hends⟩ := Node.lowerWith_runs hprogram options names
    refine ⟨reports, last, hrun, hends, hrun.length_reports_le hprogram.2, fun hknown hbare => ?_⟩
    have hsound : program.everywhere (Node.isSound false) = true := Node.isSound_false ▸ hbare
    exact hrun.length_reports_eq ⟨hprogram.2, hknown, Node.sound_of_everywhere hsound⟩

/-- Of two nested loops, each with a body that is called later, the outer one is lowered first. -/
theorem nestedClosures_terminates :
    (∃ stmt replacement report names' region', nestedClosures.firstCandidate? = some stmt ∧
      (stmt.lowerLoop nestedClosures.mentionsOutside {}).Gives (.ofTree nestedClosures)
        (replacement, report) names' ∧
      nestedClosures.splice? replacement = some region' ∧
      region'.candidates < nestedClosures.candidates ∧ region'.loops.length + 1 = 2) ∧
    lowerRegion {} nestedClosures = lowerFirst {} nestedClosures (lowerRegion {}) ∧
    lowerOwner {} nestedClosures = lowerOuter {} nestedClosures (lowerOwner {}) ∧
    (∃ reports names' lowered, (nestedClosures.changeRegion (lowerRegion {})).Gives []
        (.ofTree nestedClosures) lowered reports names' ∧
      ∀ part ∈ lowered.parts, part.regionsAndLoops < 4) ∧
    ∃ reports last, Moment.Run {} ⟨nestedClosures, .ofTree nestedClosures⟩ reports last ∧
      last.tree.loops.length + reports.length = 2 := by
  obtain ⟨hstep, hregion, howner, hprogram⟩ := Node.lowering_terminates {}
  have hnested : nestedClosures.IsProgram := by decide +kernel
  have hbare : nestedClosures.everywhere Node.headIsBare = true := by decide +kernel
  have hloops : nestedClosures.loops.length = 2 := by decide +kernel
  have hregions : nestedClosures.regionsAndLoops = 4 := by decide +kernel
  obtain ⟨hequation, hfewer⟩ := howner nestedClosures rfl hnested.2
  refine ⟨?_, hregion nestedClosures hnested.2, hequation, ?_, ?_⟩
  · let stmt := nestedClosures.parts.headD .absent
    have hok : ((stmt.lowerLoop nestedClosures.mentionsOutside {}).run.run
        (.ofTree nestedClosures)).1.isOk = true := by decide +kernel
    rcases hrun : (stmt.lowerLoop nestedClosures.mentionsOutside {}).run.run
      (.ofTree nestedClosures) with ⟨refusal | ⟨replacement, report⟩, names'⟩
    · rw [hrun] at hok
      cases hok
    · have hfirst : nestedClosures.firstCandidate? = some stmt := rfl
      obtain ⟨region', hsplice, -⟩ := Node.exists_spliced hfirst replacement
      obtain ⟨hcandidates, htree⟩ := hstep _ _ nestedClosures stmt region' replacement report
        hnested.2 hfirst hrun hsplice
      have hexact := (htree nestedClosures region' (.program rfl ⟨rfl, rfl⟩)).2 hbare
      exact ⟨stmt, replacement, report, names', region', hfirst, hrun, hsplice, hcandidates,
        hexact.trans hloops⟩
  · have hok : (((nestedClosures.changeRegion (lowerRegion {})).run []).run.run
        (.ofTree nestedClosures)).1.isOk = true := by decide +kernel
    rcases hrun : ((nestedClosures.changeRegion (lowerRegion {})).run []).run.run
      (.ofTree nestedClosures) with ⟨refusal | ⟨lowered, reports⟩, names'⟩
    · rw [hrun] at hok
      cases hok
    · refine ⟨reports, names', lowered, hrun, fun part hmem => ?_⟩
      rw [← hregions]
      exact hfewer [] reports _ names' lowered hrun part hmem part .self
  · obtain ⟨-, reports, last, hrun, -, -, hexact⟩ :=
      hprogram nestedClosures (.ofTree nestedClosures) hnested
    exact ⟨reports, last, hrun, (hexact nestedClosures.known_ofTree hbare).trans hloops⟩

end LoopLowering
