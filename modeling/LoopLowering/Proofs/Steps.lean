/-
Lowering a program, one loop at a time.

The library lowers a program by two repetitions, one inside the other.  What holds at every
point of such a run is easier to say about the run as a sequence of moments: a tree and the
names in use.  One step lowers the first loop of one region, and leaves the rest of the tree
as it is; a run is any number of steps.

`Node.lowerWith_runs` is all that is used of the repetitions: a program that is lowered comes
to its end by a run, and one that is refused comes by a run to a moment at which the first
loop of a region is refused.  What every step preserves therefore holds throughout.
-/
import LoopLowering.Proofs.LoopFree

namespace LoopLowering

/-! ### Changing one region -/

/-- The second tree is the first with one of its regions changed.  Nothing around the region
is a block-scoped loop. -/
inductive Node.AtRegion (change : Node → Node → Prop) : Node → Node → Prop
  | program {node node' : Node} (hprogram : node.form.category = .program)
      (h : change node node') : AtRegion change node node'
  | body {form : Form} {span : Span} {before after : List Node} {region region' : Node}
      (howner : form.ownsRegion = true)
      (hregion : (Node.mk form span (before ++ region :: after)).HasRegion before region after)
      (h : change region region') :
      AtRegion change (.mk form span (before ++ region :: after))
        (.mk form span (before ++ region' :: after))
  | inside {form : Form} {span : Span} {before after : List Node} {node node' : Node}
      (hloop : (Node.mk form span (before ++ node :: after)).isBlockLoop = false)
      (h : AtRegion change node node') :
      AtRegion change (.mk form span (before ++ node :: after))
        (.mk form span (before ++ node' :: after))

theorem Node.AtRegion.form_eq {change : Node → Node → Prop}
    (hchange : ∀ {region region' : Node}, change region region' → region'.form = region.form)
    {node node' : Node} (h : node.AtRegion change node') : node'.form = node.form := by
  cases h with
  | program _ h => exact hchange h
  | body => rfl
  | inside => rfl

/-- A region of the tree is what is changed. -/
theorem Node.AtRegion.exists_region {change : Node → Node → Prop} {node node' : Node}
    (h : node.AtRegion change node') : ∃ region region', change region region' := by
  induction h with
  | program _ h => exact ⟨_, _, h⟩
  | body _ _ h => exact ⟨_, _, h⟩
  | inside _ _ ih => exact ih

theorem Node.isBlockLoop_of_landmark {node node' : Node} (h : node'.landmark = node.landmark)
    (hloop : node.isBlockLoop = false) : node'.isBlockLoop = false := by
  have hmark := congrArg (·.loop?.isSome) h
  unfold Node.landmark at hmark
  rw [hloop] at hmark
  by_contra hnot
  simp [Bool.not_eq_false _ ▸ hnot] at hmark

theorem Node.isBlockLoop_replacePart {form : Form} {span : Span} {before after : List Node}
    {node node' : Node} (hform : node'.form = node.form)
    (h : (Node.mk form span (before ++ node :: after)).isBlockLoop = false) :
    (Node.mk form span (before ++ node' :: after)).isBlockLoop = false :=
  Node.isBlockLoop_of_landmark
    (Node.landmark_replacePart (by unfold Node.isLexicalDecl; rw [hform])) h

/-- The first loop of a region is lowered. -/
inductive Node.LowersFirst (options : Options) (names : Registry) (report : Report)
    (names' : Registry) : Node → Node → Prop
  | intro {stmt region region' : Node} {replacement : List Node}
      (hfirst : region.firstCandidate? = some stmt)
      (hlower : (stmt.lowerLoop region.mentionsOutside options).Gives names (replacement, report)
        names')
      (hspliced : Node.Spliced stmt replacement region region') :
      LowersFirst options names report names' region region'

theorem Node.LowersFirst.form_eq {options : Options} {names names' : Registry} {report : Report}
    {region region' : Node} (h : region.LowersFirst options names report names' region') :
    region'.form = region.form := by
  obtain ⟨-, -, hspliced⟩ := h
  exact hspliced.form_eq

/-- The first loop of a region is refused. -/
inductive Node.RefusesFirst (options : Options) (names : Registry) (refusal : Refusal)
    (names' : Registry) : Node → Node → Prop
  | intro {stmt region : Node} (hfirst : region.firstCandidate? = some stmt)
      (hfails : (stmt.lowerLoop region.mentionsOutside options).Fails names refusal names') :
      RefusesFirst options names refusal names' region region

/-! ### Moments and runs -/

/-- What there is at one point of the lowering of a program. -/
structure Moment where
  tree : Node
  names : Registry

namespace Moment

/-- One loop is lowered. -/
def Step (options : Options) (moment : Moment) (report : Report) (moment' : Moment) : Prop :=
  moment.tree.AtRegion
    (Node.LowersFirst options moment.names report moment'.names) moment'.tree

/-- The next loop cannot be lowered. -/
def Refuses (options : Options) (moment : Moment) (refusal : Refusal) (names' : Registry) : Prop :=
  moment.tree.AtRegion (Node.RefusesFirst options moment.names refusal names') moment.tree

/-- Loops are lowered one after the other, with these reports. -/
inductive Run (options : Options) : Moment → List Report → Moment → Prop
  | done {moment : Moment} : Run options moment [] moment
  | step {moment next last : Moment} {report : Report} {reports : List Report}
      (hstep : moment.Step options report next) (h : Run options next reports last) :
      Run options moment (report :: reports) last

variable {options : Options} {start moment last : Moment} {reports more : List Report}

theorem Step.form_eq {report : Report} (h : moment.Step options report last) :
    last.tree.form = moment.tree.form :=
  Node.AtRegion.form_eq Node.LowersFirst.form_eq h

namespace Run

theorem trans (h : Run options start reports moment) (hmore : Run options moment more last) :
    Run options start (reports ++ more) last := by
  induction h with
  | done => exact hmore
  | step hstep _ ih => exact .step hstep (ih hmore)

theorem form_eq (h : Run options start reports last) : last.tree.form = start.tree.form := by
  induction h with
  | done => rfl
  | step hstep _ ih => exact ih.trans hstep.form_eq

/-- What every step preserves holds at the end of a run. -/
theorem invariant {holds : Moment → Prop}
    (hstep : ∀ {moment next : Moment} {report : Report}, holds moment →
      moment.Step options report next → holds next)
    (h : Run options start reports last) (hstart : holds start) : holds last := by
  induction h with
  | done => exact hstart
  | step hfirst _ ih => exact ih (hstep hstart hfirst)

end Run

/-! ### Runs inside a tree -/

/-- A run in a part of a node is a run of the node. -/
theorem Run.inside (h : Run options start reports last) {form : Form} {span : Span}
    {before after : List Node}
    (hloop : (Node.mk form span (before ++ start.tree :: after)).isBlockLoop = false) :
    Run options ⟨.mk form span (before ++ start.tree :: after), start.names⟩ reports
      ⟨.mk form span (before ++ last.tree :: after), last.names⟩ := by
  induction h with
  | done => exact .done
  | @step moment next last report reports hstep _ ih =>
      have hfirst : Step options ⟨.mk form span (before ++ moment.tree :: after), moment.names⟩
          report ⟨.mk form span (before ++ next.tree :: after), next.names⟩ := .inside hloop hstep
      exact .step hfirst (ih (Node.isBlockLoop_replacePart hstep.form_eq hloop))

end Moment

/-! ### The repetitions of the library -/

/-- What the computation makes of `a` is, with what stands around it, the result of a run;
and if it refuses, a run comes to a moment at which the next loop is refused. -/
structure ProgramLowering.Runs {α : Type} (options : Options) (around : α → Node)
    (x : ProgramLowering α) (a : α) : Prop where
  gives {reports reports' : List Report} {names names' : Registry} {a' : α}
    (h : x.Gives reports names a' reports' names') :
    ∃ more, reports' = reports ++ more ∧
      Moment.Run options ⟨around a, names⟩ more ⟨around a', names'⟩
  fails {reports : List Report} {names names' : Registry} {refusal : Refusal}
    (h : x.Fails reports names refusal names') :
    ∃ more stuck, Moment.Run options ⟨around a, names⟩ more stuck ∧
      stuck.Refuses options refusal names'

namespace ProgramLowering.Runs

variable {α β : Type} {options : Options} {around : α → Node} {x : ProgramLowering α} {a : α}

theorem pure (around : α → Node) (a : α) : Runs options around (Pure.pure a) a where
  gives h := by
    obtain ⟨rfl, rfl, rfl⟩ := gives_pure.mp h
    exact ⟨[], by simp, .done⟩
  fails h := absurd h fails_pure

/-- A computation that goes on where another one stopped. -/
theorem bind {outer : β → Node} {f : α → ProgramLowering β} {b : β} (hx : Runs options around x a)
    (hstart : outer b = around a)
    (hf : ∀ {reports reports' names names' a'}, x.Gives reports names a' reports' names' →
      ∃ b', outer b' = around a' ∧ Runs options outer (f a') b') :
    Runs options outer (x >>= f) b where
  gives h := by
    obtain ⟨between, _, _, hfirst, hrest⟩ := gives_bind.mp h
    obtain ⟨more, rfl, hrun⟩ := hx.gives hfirst
    obtain ⟨b', heq, hruns⟩ := hf hfirst
    obtain ⟨others, rfl, hlast⟩ := hruns.gives hrest
    rw [heq] at hlast
    rw [hstart]
    exact ⟨more ++ others, by simp, hrun.trans hlast⟩
  fails h := by
    rw [hstart]
    rcases fails_bind.mp h with hfirst | ⟨between, _, _, hfirst, hrest⟩
    · exact hx.fails hfirst
    · obtain ⟨more, -, hrun⟩ := hx.gives hfirst
      obtain ⟨b', heq, hruns⟩ := hf hfirst
      obtain ⟨others, stuck, hlast, hstuck⟩ := hruns.fails hrest
      rw [heq] at hlast
      exact ⟨more ++ others, stuck, hrun.trans hlast, hstuck⟩

theorem map {outer : β → Node} {f : α → β} (hx : Runs options (outer ∘ f) x a) :
    Runs options outer (do return f (← x)) (f a) :=
  hx.bind rfl fun _ => ⟨_, rfl, pure outer _⟩

/-- A run in a part of a node that is no loop is a run of the node. -/
theorem inside {x : ProgramLowering Node} {node : Node} (hx : Runs options id x node) {form : Form}
    {span : Span} {before after : List Node}
    (hloop : (Node.mk form span (before ++ node :: after)).isBlockLoop = false) :
    Runs options (fun node => .mk form span (before ++ node :: after)) x node where
  gives h := by
    obtain ⟨more, heq, hrun⟩ := hx.gives h
    exact ⟨more, heq, hrun.inside hloop⟩
  fails h := by
    obtain ⟨more, stuck, hrun, hstuck⟩ := hx.fails h
    exact ⟨more, _, hrun.inside hloop,
      .inside (Node.isBlockLoop_replacePart hrun.form_eq hloop) hstuck⟩

/-- Lowering loops of a region as often as told. -/
theorem lowerRegionTo {around : Node → Node} {region : Node}
    (haround : ∀ {change : Node → Node → Prop} {a b : Node}, a.form = region.form → change a b →
      (around a).AtRegion change (around b)) (loops : Nat) :
    Runs options around (lowerRegionTo options loops region) region := by
  induction loops generalizing region with
  | zero => exact pure around region
  | succ loops ih =>
      unfold LoopLowering.lowerRegionTo
      split
      · exact pure around region
      · next stmt hfirst =>
        refine ⟨fun {reports reports' names names' region'} h => ?_,
          fun {reports names names' refusal} h => ?_⟩
        · simp only [gives_bind, gives_liftM, gives_modify] at h
          obtain ⟨⟨replacement, report⟩, _, between, ⟨hlower, rfl⟩, _, _, _, ⟨rfl, rfl⟩, h⟩ := h
          obtain ⟨spliced, hsplice, hspliced⟩ := Node.exists_spliced hfirst replacement
          rw [hsplice] at h
          have hform : spliced.form = region.form := hspliced.form_eq
          have hstep : Moment.Step options ⟨around region, names⟩ report
              ⟨around spliced, between⟩ :=
            haround rfl (.intro hfirst hlower hspliced)
          obtain ⟨more, rfl, hrun⟩ := (ih fun ha => haround (ha.trans hform)).gives h
          exact ⟨report :: more, by simp, .step hstep hrun⟩
        · simp only [fails_bind, fails_liftM, gives_liftM, gives_modify,
            fails_modify, false_or] at h
          rcases h with hfails |
            ⟨⟨replacement, report⟩, _, between, ⟨hlower, rfl⟩, _, _, _, ⟨rfl, rfl⟩, h⟩
          · exact ⟨[], ⟨around region, names⟩, .done, haround rfl (.intro hfirst hfails)⟩
          · obtain ⟨spliced, hsplice, hspliced⟩ := Node.exists_spliced hfirst replacement
            rw [hsplice] at h
            have hform : spliced.form = region.form := hspliced.form_eq
            have hstep : Moment.Step options ⟨around region, names⟩ report
                ⟨around spliced, between⟩ := haround rfl (.intro hfirst hlower hspliced)
            obtain ⟨more, stuck, hrun, hstuck⟩ := (ih fun ha => haround (ha.trans hform)).fails h
            exact ⟨report :: more, stuck, .step hstep hrun, hstuck⟩

/-- Lowering the region of a node. -/
theorem changeRegion {node : Node} (howner : node.form.ownsRegion = true)
    (hwf : node.isWellFormed = true) :
    Runs options id (node.changeRegion (lowerRegion options)) node := by
  rcases Node.changeRegion_cases (lowerRegion options) howner hwf with ⟨hprogram, heq⟩ |
    ⟨before, region, after, hregion, heq⟩
  · rw [heq]
    exact lowerRegionTo (fun hform h => .program (hform ▸ hprogram) h) _
  · rw [heq]
    obtain ⟨form, span, parts⟩ := node
    obtain rfl : parts = before ++ region :: after := hregion.parts
    refine map (lowerRegionTo (fun {change a b} hform h => ?_) _)
    have ha : (Node.mk form span (before ++ a :: after)).HasRegion before a after :=
      ⟨rfl, hform ▸ hregion.category, hregion.calm⟩
    exact .body howner ha h

/-- Changing the owners of regions in the parts of a node that is no loop. -/
theorem changeOwnersIn {change : Node → ProgramLowering Node} {form : Form} {span : Span}
    (before : List Node) {nodes : List Node}
    (hloop : (Node.mk form span (before ++ nodes)).isBlockLoop = false)
    (h : ∀ node ∈ nodes, Runs options id (node.changeOwners change) node) :
    Runs options (fun nodes => .mk form span (before ++ nodes)) (changeOwnersIn change nodes)
      nodes := by
  induction nodes generalizing before with
  | nil => exact pure _ _
  | cons node nodes ih =>
      rw [List.forall_mem_cons] at h
      refine (h.1.inside hloop).bind rfl fun {_ _ _ _ node'} hgives => ⟨node' :: nodes, rfl, map ?_⟩
      obtain ⟨_, -, hrun⟩ := h.1.gives hgives
      have hloop' := Node.isBlockLoop_replacePart hrun.form_eq hloop
      rw [← List.singleton_append, ← List.append_assoc] at hloop'
      have hrest := ih (before ++ [node']) hloop' h.2
      simpa [Function.comp_def] using hrest

/-- Changing the owners of regions in a tree whose loops are all inside regions. -/
theorem changeOwners {change : Node → ProgramLowering Node}
    (hchange : ∀ {owner : Node}, owner.form.ownsRegion = true → owner.isWellFormed = true →
      Runs options id (change owner) owner)
    {node : Node} (hwf : node.isWellFormed = true) (houtside : node.tally .outside = 0) :
    Runs options id (node.changeOwners change) node := by
  induction node using Node.inductionOn with
  | step form span parts ih =>
      unfold Node.changeOwners
      split
      · next howner => exact hchange howner hwf
      · next howner =>
        rw [Node.tally_of_not_stop (Bool.not_eq_true _ ▸ howner)] at houtside
        obtain ⟨hweight, hzero⟩ := Nat.add_eq_zero_iff.mp houtside
        have hloop : (Node.mk form span parts).isBlockLoop = false := by
          have hnone : (Node.mk form span parts).landmark.loopWeight = 0 := hweight
          rw [Landmark.loopWeight_landmark] at hnone
          simpa using hnone
        have hnone : tallyIn .outside parts = 0 := hzero
        refine map (changeOwnersIn [] hloop fun part hmem => ?_)
        have hle : part.tally .outside ≤ tallyIn .outside parts := tally_le_tallyIn hmem
        exact ih part hmem (Node.isWellFormed_part hwf hmem) (by omega)

/-- Lowering the regions of a node, down to the given depth. -/
theorem lowerOwnerTo (depth : Nat) {node : Node} (howner : node.form.ownsRegion = true)
    (hwf : node.isWellFormed = true) : Runs options id (lowerOwnerTo options depth node) node := by
  induction depth generalizing node with
  | zero => exact pure id node
  | succ depth ih =>
      refine (changeRegion howner hwf).bind rfl fun {_ _ _ _ lowered} hlowered =>
        ⟨lowered, rfl, ?_⟩
      obtain ⟨hform, hfits, -, houtside⟩ := Node.gives_changeRegion_lowerRegion howner hwf hlowered
      have hloop := Node.isBlockLoop_of_category
        (hform ▸ Form.category_ne_stmt_of_ownsRegion howner)
      obtain ⟨form, span, parts⟩ := lowered
      refine map (changeOwnersIn [] hloop fun part hmem => ?_)
      exact changeOwners ih (Node.isWellFormed_part hfits.wellFormed hmem) (houtside part hmem)

end ProgramLowering.Runs

/-- How the lowering of a program ends at the last moment of a run: with the tree and the
reports, or because the next loop is refused. -/
inductive Moment.Ends (options : Options) (reports : List Report) (last : Moment) :
    Except Refusal (Node × List Report) × Registry → Prop
  | lowered : Ends options reports last (.ok (last.tree, reports), last.names)
  | refused {refusal : Refusal} {names' : Registry} (h : last.Refuses options refusal names') :
      Ends options reports last (.error refusal, names')

/-- The lowering of a program is a run. -/
theorem Node.lowerWith_runs {program : Node} (hprogram : program.IsProgram) (options : Options)
    (names : Registry) :
    ∃ reports last, Moment.Run options ⟨program, names⟩ reports last ∧
      last.Ends options reports ((program.lowerWith options).run.run names) := by
  have hruns : ProgramLowering.Runs options id
      (lowerOwnerTo options program.regionsAndLoops program) program :=
    .lowerOwnerTo _ (Form.ownsRegion_of_category hprogram.1) hprogram.2
  rcases hrun : (program.lowerWith options).run.run names with ⟨refusal | ⟨tree, reports⟩, names'⟩
  · obtain ⟨reports, stuck, hrun, hstuck⟩ := hruns.fails hrun
    exact ⟨reports, stuck, hrun, .refused hstuck⟩
  · obtain ⟨more, heq, hrun⟩ := hruns.gives hrun
    rw [List.nil_append] at heq
    exact ⟨reports, ⟨tree, names'⟩, heq ▸ hrun, .lowered⟩

end LoopLowering
