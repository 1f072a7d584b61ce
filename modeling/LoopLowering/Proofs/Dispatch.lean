/-
One round of a loop whose body became a function.

The loop calls the function and looks at what it returned.  It looks for the sentinel only
if some jump of the body leaves the loop, and for an object only if there is a `return`.
So two facts meet here.  One is that every way a body can end is among the jumps that were
listed, which makes the checks complete.  The other is that the three kinds of returned
values cannot be taken for one another, which makes them exact.
-/
import LoopLowering.Proofs.Evaluator

namespace LoopLowering

variable {Value World : Type}

/-! ### Endings are listed -/

/-- The jump out of the body by which statements ended, as it is listed. -/
def Ending.jumps (ctx : JumpContext) (span : Span) : Ending Value → List Jump
  | breaks label => (ctx.breakTarget label).jump? .leave span
  | continues label => (ctx.continueTarget label).jump? .next span
  | returns _ => [.site ⟨.result, span⟩]
  | _ => []

/-- If statements ended by a jump out of the body, it is one of the given jumps. -/
def Ending.IsListed (ctx : JumpContext) (jumps : List Jump) (ending : Ending Value) : Prop :=
  ∃ span, ending.jumps ctx span ⊆ jumps

/-- All jumps from a point on are given ones. -/
def Phase.IsListed (ctx : JumpContext) (jumps : List Jump) : Phase Value → Prop
  | stmt _ node => node.jumps ctx ⊆ jumps
  | stmts nodes => ∀ node ∈ nodes, node.jumps ctx ⊆ jumps
  | check _ _ body | round _ _ body => body.jumps ctx ⊆ jumps
  | handling handler ending => handler.jumps ctx ⊆ jumps ∧ ending.IsListed ctx jumps

namespace Ending

variable {ctx : JumpContext} {jumps : List Jump} {ending : Ending Value}

theorem isListed_normal : (normal : Ending Value).IsListed ctx jumps :=
  ⟨.generated, List.nil_subset jumps⟩

theorem isListed_throws (value : Value) : (throws value).IsListed ctx jumps :=
  ⟨.generated, List.nil_subset jumps⟩

theorem IsListed.unbroken_loop (h : ending.IsListed { ctx with inLoop := true } jumps)
    (hgoesOn : ending ≠ continues none) : ending.unbroken.IsListed ctx jumps := by
  cases ending with
  | normal => exact isListed_normal
  | throws value => exact isListed_throws value
  | returns value => exact h
  | breaks label =>
      cases label with
      | none => exact isListed_normal
      | some label => exact h
  | continues label =>
      cases label with
      | none => exact absurd rfl hgoesOn
      | some label => exact h

theorem IsListed.unbroken_switch (h : ending.IsListed { ctx with inSwitch := true } jumps) :
    ending.unbroken.IsListed ctx jumps := by
  cases ending with
  | normal => exact isListed_normal
  | throws value => exact isListed_throws value
  | returns value => exact h
  | continues label => exact h
  | breaks label =>
      cases label with
      | none => exact isListed_normal
      | some label => exact h

theorem IsListed.unlabeled {label : Name}
    (h : ending.IsListed { ctx with inner := label.text :: ctx.inner } jumps)
    (hloop : ending.continuesAt label.text = false) :
    (ending.unlabeled label.text).IsListed ctx jumps := by
  cases ending with
  | normal => exact isListed_normal
  | throws value => exact isListed_throws value
  | returns value => exact h
  | breaks target? =>
      cases target? with
      | none => exact h
      | some target =>
          by_cases heq : target.text = label.text
          · rw [Ending.unlabeled, if_pos heq]
            exact isListed_normal
          · rw [Ending.unlabeled, if_neg heq]
            obtain ⟨span, hspan⟩ := h
            refine ⟨span, ?_⟩
            rw [Ending.jumps, JumpContext.breakTarget, target_cons_inner heq] at hspan
            exact hspan
  | continues target? =>
      cases target? with
      | none => exact h
      | some target =>
          have heq : target.text ≠ label.text := by simpa [continuesAt] using hloop
          obtain ⟨span, hspan⟩ := h
          refine ⟨span, ?_⟩
          rw [Ending.jumps, JumpContext.continueTarget, target_cons_inner heq] at hspan
          exact hspan

theorem IsListed.closed (h : ending.IsListed ctx jumps) (answer : Answer Value) :
    (ending.closed answer).IsListed ctx jumps := by
  cases answer with
  | value | done => cases ending <;> exact h
  | thrown value => cases ending <;> exact isListed_throws _

theorem IsListed.finalized {last : Ending Value} (h : ending.IsListed ctx jumps)
    (hlast : last.IsListed ctx jumps) : (ending.finalized last).IsListed ctx jumps := by
  cases last with
  | normal => exact h
  | breaks | continues | returns | throws => exact hlast

end Ending

section Listing

variable {machine : Machine Value World}

theorem Node.jumps_mk (ctx : JumpContext) (form : Form) (span : Span) {parts : List Node}
    (hclosure : form.isClosure = false) (hjump : form.isJump = false) :
    (Node.mk form span parts).jumps ctx = jumpsIn (ctx.enter form) parts := by
  unfold Node.jumps
  rw [hclosure]
  simp only [Bool.false_eq_true, if_false]
  split
  · cases hjump
  · cases hjump
  · cases hjump
  · rfl

theorem Node.jumps_part (ctx : JumpContext) (form : Form) (span : Span) {parts : List Node}
    {part : Node} (hclosure : form.isClosure = false) (hjump : form.isJump = false)
    (hmem : part ∈ parts) : part.jumps (ctx.enter form) ⊆ (Node.mk form span parts).jumps ctx := by
  rw [Node.jumps_mk ctx form span hclosure hjump, jumpsIn_eq_flatMap]
  exact fun jump hjump => List.mem_flatMap.mpr ⟨part, hmem, hjump⟩

theorem Node.jumps_caseStmts (ctx : JumpContext) {node stmt : Node} (hmem : stmt ∈ node.caseStmts) :
    stmt.jumps ctx ⊆ node.jumps ctx := by
  unfold Node.caseStmts at hmem
  split at hmem
  · next span test bodySpan stmts =>
    have hbody : (Node.mk .caseBody bodySpan stmts).jumps ctx ⊆
        (Node.mk .switchCase span [test, .mk .caseBody bodySpan stmts]).jumps ctx :=
      Node.jumps_part ctx .switchCase span rfl rfl (by simp)
    exact List.Subset.trans (Node.jumps_part ctx .caseBody bodySpan rfl rfl hmem) hbody
  · exact absurd hmem List.not_mem_nil

/-- However statements end, they end by one of their jumps. -/
theorem Runs.isListed {phase : Phase Value} {s t : Store Value World} {ending : Ending Value}
    (h : Runs machine phase s ending t) (ctx : JumpContext) {jumps : List Jump}
    (hlisted : phase.IsListed ctx jumps) : ending.IsListed ctx jumps := by
  induction h generalizing ctx with
  | thrown | threw | switchThrown | unbound | updateThrown => exact Ending.isListed_throws _
  | nil | idle | expr | declared | overNothing | testFails | exhausted =>
    exact Ending.isListed_normal
  | cons hfirst hrest ihfirst ihrest => exact ihrest ctx (List.forall_mem_cons.mp hlisted).2
  | stop hfirst habrupt ih => exact ih ctx (List.forall_mem_cons.mp hlisted).1
  | block hstmts ih =>
      exact ih ctx fun node hmem =>
        List.Subset.trans (Node.jumps_part ctx .block _ rfl rfl hmem) hlisted
  | @returned labels span => exact ⟨span, hlisted⟩
  | @broke labels label span => exact ⟨span, hlisted⟩
  | @continued labels label span => exact ⟨span, hlisted⟩
  | chose hasks hbranch ih =>
      refine ih ctx (List.Subset.trans (Node.jumps_part ctx .ifStmt _ rfl rfl ?_) hlisted)
      split <;> simp
  | @labeled labels label span body s t ending hbody hloop ih =>
      have hpart := Node.jumps_part ctx (.labeled label) span rfl rfl (List.mem_singleton_self body)
      exact (ih (ctx.enter (.labeled label)) (List.Subset.trans hpart hlisted)).unlabeled hloop
  | @switched labels span listSpan scrutinee cases chosen s t u v value ending hasks hselect hstmts
      ih =>
      refine Ending.IsListed.unbroken_switch (ih (ctx.enter .switchStmt) fun stmt hmem => ?_)
      obtain ⟨node, hnode, hstmt⟩ := List.mem_flatMap.mp hmem
      have hcase : node ∈ cases :=
        (Machine.mem_of_select hselect node hnode).resolve_left List.not_mem_nil
      calc stmt.jumps (ctx.enter .switchStmt)
          _ ⊆ node.jumps (ctx.enter .switchStmt) := Node.jumps_caseStmts _ hstmt
          _ ⊆ (Node.mk .list listSpan cases).jumps (ctx.enter .switchStmt) :=
              Node.jumps_part (ctx.enter .switchStmt) .list listSpan rfl rfl hcase
          _ ⊆ (Node.mk .switchStmt span [scrutinee, .mk .list listSpan cases]).jumps ctx :=
              Node.jumps_part ctx .switchStmt span rfl rfl (by simp)
          _ ⊆ jumps := hlisted
  | @tried labels span block handler finalizer s t u v ending caught last hblock hhandler hfinalizer
      ihblock ihhandler ihfinalizer =>
      have hpart : ∀ part ∈ [block, handler, finalizer], part.jumps ctx ⊆ jumps := fun part hmem =>
        List.Subset.trans (Node.jumps_part ctx .tryStmt span rfl rfl hmem) hlisted
      have hending := ihblock ctx (hpart block (by simp))
      have hcaught := ihhandler ctx ⟨hpart handler (by simp), hending⟩
      exact hcaught.finalized (ihfinalizer ctx (hpart finalizer (by simp)))
  | passed hpass => exact hlisted.2
  | caught hasks hbody ih =>
      exact ih ctx (List.Subset.trans (Node.jumps_part ctx .catchClause _ rfl rfl (by simp))
        hlisted.1)
  | @whileLoop labels span test body s t ending hloop ih =>
      have hpart := Node.jumps_part ctx .whileStmt span rfl rfl (show body ∈ [test, body] by simp)
      exact (ih _ (List.Subset.trans hpart hlisted)).unbroken_loop (hloop.ne_continues rfl)
  | @doLoop labels span test body s t ending hloop ih =>
      have hpart := Node.jumps_part ctx .doWhileStmt span rfl rfl (show body ∈ [test, body] by simp)
      exact (ih _ (List.Subset.trans hpart hlisted)).unbroken_loop (hloop.ne_continues rfl)
  | @forLoop labels span init test update body s t u value ending hasks hloop ih =>
      have hpart := Node.jumps_part ctx .forStmt span rfl rfl
        (show body ∈ [init, test, update, body] by simp)
      exact (ih _ (List.Subset.trans hpart hlisted)).unbroken_loop (hloop.ne_continues rfl)
  | @overLoop labels form span left right body s t u iterator ending hform hasks hloop ih =>
      have hopen : form.isClosure = false ∧ form.isJump = false := by
        rcases Form.over_of_isOver hform with rfl | ⟨isAwait, rfl⟩ <;> exact ⟨rfl, rfl⟩
      have hpart := Node.jumps_part ctx form span hopen.1 hopen.2
        (show body ∈ [left, right, body] by simp)
      rw [JumpContext.enter_of_isLoop (Form.isLoop_of_isOver hform)] at hpart
      exact (ih _ (List.Subset.trans hpart hlisted)).unbroken_loop (hloop.ne_continues rfl)
  | testHolds hasks htest hround ih => exact ih ctx hlisted
  | bound hasks hbind hround ih => exact ih ctx hlisted
  | again hbody hgoesOn hasks hcheck ihbody ihcheck => exact ihcheck ctx hlisted
  | left hbody hgoesOn hclose ih => exact (ih ctx hlisted).closed _

end Listing

/-! ### What the loop looks at -/

/-- The statement that breaks if the sentinel was returned. -/
def leaveCheck (resultName : String) (options : Options) : Node :=
  .ifStmt
    (.strictEq (.use resultName .generated) (.stringLit options.breakSentinel .generated)
      .generated)
    (.breakStmt .generated) .generated

/-- The statement that returns what an object holds that was returned. -/
def returnCheck (resultName : String) (options : Options) : Node :=
  .ifStmt (.use resultName .generated)
    (.returnStmt (.memberOf (.use resultName .generated) options.returnKey .generated) .generated)
    .generated

/-- The checks that the loop makes after a call. -/
def JumpSites.checks (sites : JumpSites) (resultName : String) (options : Options) : List Node :=
  (if sites.leaves then [leaveCheck resultName options] else []) ++
    (if sites.returns then [returnCheck resultName options] else [])

theorem JumpSites.dispatch_eq (sites : JumpSites) (call : Node) (resultName : String)
    (options : Options) :
    sites.dispatch call resultName options =
      if sites.needDispatch then
        .block .generated (.varStmt .generated [(resultName, call)] :: sites.checks
          resultName options)
      else .exprStmt call := by
  unfold JumpSites.dispatch
  cases sites.needDispatch <;> rfl

section Checks

variable {machine : Machine Value World} {known : List String} (hemits : machine.Emits known)
  {resultName : String} (hknown : resultName ∈ known) {options : Options} {s : Store Value World}
include hemits hknown

theorem Runs.leaveCheck_breaks (hvalue : s.vars resultName = machine.string options.breakSentinel) :
    Runs machine (.stmt [] (leaveCheck resultName options)) s (.breaks none) s := by
  obtain ⟨value, hanswer, htrue⟩ := hemits.eval_strictEq resultName hknown options.breakSentinel
    .generated s
  refine .chose (Machine.asks_singleton.mpr hanswer) ?_
  rw [if_pos (htrue.mpr hvalue)]
  exact .broke

theorem Runs.leaveCheck_passes (hvalue : s.vars resultName ≠ machine.string options.breakSentinel) :
    Runs machine (.stmt [] (leaveCheck resultName options)) s .normal s := by
  obtain ⟨value, hanswer, htrue⟩ := hemits.eval_strictEq resultName hknown options.breakSentinel
    .generated s
  refine .chose (Machine.asks_singleton.mpr hanswer) ?_
  rw [if_neg (mt htrue.mp hvalue)]
  exact .idle rfl

theorem Runs.returnCheck_returns (hkey : options.returnKey ≠ "__proto__") {value : Value}
    (hvalue : s.vars resultName = machine.box options.returnKey value) :
    Runs machine (.stmt [] (returnCheck resultName options)) s (.returns value) s := by
  refine .chose (Machine.asks_singleton.mpr (hemits.eval_use resultName hknown .generated s)) ?_
  rw [hvalue, if_pos (hemits.isTrue_box _ _)]
  refine .returned (Machine.asks_singleton.mpr ?_)
  exact hemits.eval_member resultName hknown options.returnKey value .generated s hkey hvalue

theorem Runs.returnCheck_passes (hvalue : s.vars resultName = machine.undefined) :
    Runs machine (.stmt [] (returnCheck resultName options)) s .normal s := by
  refine .chose (Machine.asks_singleton.mpr (hemits.eval_use resultName hknown .generated s)) ?_
  rw [hvalue, hemits.isTrue_undefined]
  exact .idle rfl

/-- The loop goes on after nothing was returned. -/
theorem Runs.checks_undefined (sites : JumpSites) (hvalue : s.vars resultName = machine.undefined) :
    Runs machine (.stmts (sites.checks resultName options)) s .normal s := by
  have hleave : Runs machine (.stmt [] (leaveCheck resultName options)) s .normal s :=
    leaveCheck_passes hemits hknown (hvalue ▸ (hemits.string_ne_undefined _).symm)
  have hreturn : Runs machine (.stmt [] (returnCheck resultName options)) s .normal s :=
    returnCheck_passes hemits hknown hvalue
  refine .append_stmts (t := s) ?_ ?_
  · split
    · exact .cons hleave .nil
    · exact .nil
  · split
    · exact .cons hreturn .nil
    · exact .nil

/-- The loop is left after the sentinel was returned, whatever the sentinel is. -/
theorem Runs.checks_sentinel {sites : JumpSites} (hleaves : sites.leaves = true)
    (hvalue : s.vars resultName = machine.string options.breakSentinel) :
    Runs machine (.stmts (sites.checks resultName options)) s (.breaks none) s := by
  rw [JumpSites.checks, if_pos hleaves]
  exact .stop (leaveCheck_breaks hemits hknown hvalue) (by simp)

/-- The loop returns what was in the object that was returned. -/
theorem Runs.checks_box {sites : JumpSites} (hkey : options.returnKey ≠ "__proto__")
    (hreturns : sites.returns = true) {value : Value}
    (hvalue : s.vars resultName = machine.box options.returnKey value) :
    Runs machine (.stmts (sites.checks resultName options)) s (.returns value) s := by
  have hleave : Runs machine (.stmt [] (leaveCheck resultName options)) s .normal s :=
    leaveCheck_passes hemits hknown (hvalue ▸ (hemits.string_ne_box _ _ _).symm)
  refine .append_stmts (t := s) ?_ ?_
  · split
    · exact .cons hleave .nil
    · exact .nil
  · rw [if_pos hreturns]
    exact .stop (returnCheck_returns hemits hknown hkey hvalue) (by simp)

end Checks

section Dispatch

variable {machine : Machine Value World} {known : List String} {sites : JumpSites}
  {resultName : String} {options : Options} {call : Node} {labels : List String}
  {s t : Store Value World}

/-- After the call, the loop does as its checks say. -/
theorem Runs.dispatch_value (hemits : machine.Emits known) (hknown : resultName ∈ known)
    (hneed : sites.needDispatch = true) {value : Value} {ending : Ending Value}
    (hcall : machine.answer (.eval call) s = some (.value value, t))
    (hchecks : Runs machine (.stmts (sites.checks resultName options))
      (t.set resultName value) ending (t.set resultName value)) :
    Runs machine (.stmt labels (sites.dispatch call resultName options)) s ending
      (t.set resultName value) := by
  rw [JumpSites.dispatch_eq, if_pos hneed]
  have hdeclare := hemits.declare_var resultName hknown call .generated s t value hcall
  exact .block (.cons (.declared rfl (Machine.asks_singleton.mpr hdeclare)) hchecks)

/-- The loop goes on after a call that returned nothing, whether it looks at the result or
not. -/
theorem Runs.dispatch_undefined (hemits : machine.Emits known) (hknown : resultName ∈ known)
    (hcall : machine.answer (.eval call) s = some (.value machine.undefined, t)) :
    Runs machine (.stmt labels (sites.dispatch call resultName options)) s .normal
      (if sites.needDispatch then t.set resultName machine.undefined else t) := by
  split
  · next hneed =>
    refine Runs.dispatch_value hemits hknown hneed hcall ?_
    exact Runs.checks_undefined hemits hknown sites (t.vars_set resultName machine.undefined)
  · next hneed =>
    rw [JumpSites.dispatch_eq, if_neg hneed]
    exact .expr (Machine.asks_singleton.mpr hcall)

/-- A call that throws ends the round. -/
theorem Runs.dispatch_thrown (hemits : machine.Emits known) (hknown : resultName ∈ known)
    {value : Value} (hcall : machine.answer (.eval call) s = some (.thrown value, t)) :
    Runs machine (.stmt labels (sites.dispatch call resultName options)) s (.throws value) t := by
  rw [JumpSites.dispatch_eq]
  split
  · have hdeclare := hemits.declare_thrown resultName hknown call .generated s t value hcall
    exact .block (.stop (.thrown (Machine.asks_singleton.mpr hdeclare)) (by simp))
  · exact .thrown (Machine.asks_singleton.mpr hcall)

end Dispatch

/-! ### Jumps to the loop -/

/-- What an ending of the body is to the loop with the given labels. -/
def Ending.atLoop (labels : List String) : Ending Value → Ending Value
  | breaks (some label) => if label.text ∈ labels then breaks none else breaks (some label)
  | continues none => normal
  | continues (some label) => if label.text ∈ labels then normal else continues (some label)
  | ending => ending

theorem stray_notMem_of_firstStray? {jumps : List Jump} (h : firstStray? jumps = none)
    (label : String) : Jump.stray label ∉ jumps := by
  intro hmem
  have hnone := List.findSome?_eq_none_iff.mp h _ hmem
  cases hnone

theorem subset_jumpsIn {ctx : JumpContext} {node : Node} {nodes : List Node} (hmem : node ∈ nodes) :
    node.jumps ctx ⊆ jumpsIn ctx nodes := by
  rw [jumpsIn_eq_flatMap]
  exact fun jump hjump => List.mem_flatMap.mpr ⟨node, hmem, hjump⟩

/-- The jumps of a body become returns when none of them is to a label outside. -/
theorem redirectJumps_eq_ok {redirection : Redirection} {labels : List String} {loopSpan : Span}
    {body stmts : List Node} {sites : JumpSites}
    (h : redirectJumps redirection labels loopSpan body = (stmts, .ok sites)) :
    firstStray? (jumpsIn (.top labels) body) = none ∧
      sites = jumpSites (jumpsIn (.top labels) body) := by
  have hsites := congrArg Prod.snd h
  simp only [redirectJumps] at hsites
  split at hsites
  · cases hsites
  · next hstray =>
    cases hsites
    exact ⟨hstray, rfl⟩

theorem mem_jumpSites {jumps : List Jump} {site : JumpSite} :
    site ∈ jumpSites jumps ↔ Jump.site site ∈ jumps := by
  simp only [jumpSites, List.mem_filterMap]
  constructor
  · rintro ⟨jump, hmem, hjump⟩
    cases jump with
    | site other =>
        cases hjump
        exact hmem
    | stray label => cases hjump
  · exact fun hmem => ⟨.site site, hmem, rfl⟩

/-- Where no jump is to a label outside, a jump out of the body is one to the loop. -/
theorem JumpTarget.eq_loop {target : JumpTarget} {kind : JumpKind} {span : Span} {jumps : List Jump}
    (hout : target ≠ .inner) (hlisted : target.jump? kind span ⊆ jumps)
    (hstray : firstStray? jumps = none) : target = .loop ∧ ⟨kind, span⟩ ∈ jumpSites jumps := by
  cases target with
  | loop => exact ⟨rfl, mem_jumpSites.mpr (hlisted (List.mem_singleton_self _))⟩
  | inner => exact absurd rfl hout
  | outer label =>
      exact absurd (hlisted (List.mem_singleton_self _)) (stray_notMem_of_firstStray? hstray label)

theorem JumpContext.target_top_ne_inner (labels : List String) (label : Option Name) :
    (top labels).target label false ≠ .inner := by
  cases label with
  | none => simp [target]
  | some label =>
      by_cases hown : label.text ∈ labels
      · simp [target, top, hown]
      · simp [target, top, hown]

theorem JumpContext.mem_of_target_top {labels : List String} {label : Name}
    (h : (top labels).target (some label) false = .loop) : label.text ∈ labels := by
  by_contra hnot
  simp [target, top, hnot] at h

namespace Ending

variable {labels : List String} {jumps : List Jump}

theorem IsListed.continues_top {label : Option Name}
    (h : (continues label : Ending Value).IsListed (.top labels) jumps)
    (hstray : firstStray? jumps = none) :
    (JumpContext.top labels).continueTarget label = .loop ∧
      (continues label : Ending Value).atLoop labels = normal := by
  obtain ⟨span, hspan⟩ := h
  have hloop := (JumpTarget.eq_loop (JumpContext.target_top_ne_inner labels label) hspan hstray).1
  refine ⟨hloop, ?_⟩
  cases label with
  | none => rfl
  | some label => exact if_pos (JumpContext.mem_of_target_top hloop)

theorem IsListed.breaks_top {label : Option Name}
    (h : (breaks label : Ending Value).IsListed (.top labels) jumps)
    (hstray : firstStray? jumps = none) :
    (JumpContext.top labels).breakTarget label = .loop ∧
      (breaks label : Ending Value).atLoop labels = breaks none ∧
      (jumpSites jumps).leaves = true := by
  obtain ⟨span, hspan⟩ := h
  obtain ⟨hloop, hsite⟩ :=
    JumpTarget.eq_loop (JumpContext.target_top_ne_inner labels label) hspan hstray
  refine ⟨hloop, ?_, List.any_eq_true.mpr ⟨_, hsite, rfl⟩⟩
  cases label with
  | none => rfl
  | some label => exact if_pos (JumpContext.mem_of_target_top hloop)

theorem IsListed.returns_top {value : Value}
    (h : (returns value).IsListed (.top labels) jumps) : (jumpSites jumps).returns = true := by
  obtain ⟨span, hspan⟩ := h
  have hsite := mem_jumpSites.mpr (hspan (List.mem_singleton_self _))
  exact List.any_eq_true.mpr ⟨_, hsite, rfl⟩

end Ending

/-! ### Write-backs -/

/-- The assignments that copy variables, given after the variables they are copied to. -/
def writeBackOf (pairs : List (String × String)) : List Node :=
  pairs.map fun (outer, param) => .exprStmt (.assignTo outer (.use param .generated) .generated)

/-- Copy variables one after the other. -/
def Store.writeBack (pairs : List (String × String)) (store : Store Value World) :
    Store Value World :=
  pairs.foldl (fun store (outer, param) => store.set outer (store.vars param)) store

theorem Store.AgreeOff.writeBack {hidden : List String} {pairs : List (String × String)}
    (h : ∀ pair ∈ pairs, pair.1 ∈ hidden) (s : Store Value World) :
    s.AgreeOff hidden (s.writeBack pairs) := by
  induction pairs generalizing s with
  | nil => exact .refl hidden s
  | cons pair pairs ih =>
      obtain ⟨hpair, hpairs⟩ := List.forall_mem_cons.mp h
      exact (Store.AgreeOff.set hpair s _).trans (ih hpairs _)

/-- The assignments copy the variables. -/
theorem Runs.writeBack {machine : Machine Value World} {known : List String}
    (hemits : machine.Emits known) {pairs : List (String × String)}
    (hknown : ∀ pair ∈ pairs, pair.1 ∈ known ∧ pair.2 ∈ known) (s : Store Value World) :
    Runs machine (.stmts (writeBackOf pairs)) s .normal (s.writeBack pairs) := by
  induction pairs generalizing s with
  | nil => exact .nil
  | cons pair pairs ih =>
      obtain ⟨hpair, hpairs⟩ := List.forall_mem_cons.mp hknown
      have hassign := hemits.eval_assign pair.1 hpair.1 pair.2 hpair.2 .generated s
      exact .cons (.expr (Machine.asks_singleton.mpr hassign)) (ih hpairs _)

/-! ### The round trip -/

/-- To call the function is to run the statements, after it got its parameters. -/
def Machine.Calls (machine : Machine Value World) (call : Node)
    (enter : Store Value World → Store Value World) (stmts : List Node) : Prop :=
  ∀ s ending t answer, Runs machine (.stmts stmts) (enter s) ending t →
    ending.answer? machine = some answer → machine.answer (.eval call) s = some (answer, t)

section RoundTrip

variable {machine : Machine Value World} {known hidden : List String} {options : Options}
  {labels : List String} {loopSpan : Span} {pairs : List (String × String)}
  {body stmts : List Node} {sites : JumpSites}

/-- The function ends as the body does, with the jumps to the loop encoded. -/
theorem Runs.function (hemits : machine.Emits known) (hkey : options.returnKey ≠ "__proto__")
    (hpairs : ∀ pair ∈ pairs, pair.1 ∈ known ∧ pair.2 ∈ known ∧ pair.1 ∈ hidden)
    (hbody : ∀ stmt ∈ body, stmt.isWellFormed = true ∧ machine.IsBlindIn hidden stmt)
    (hsites : redirectJumps ⟨writeBackOf pairs, options⟩ labels loopSpan body = (stmts, .ok sites))
    {s t : Store Value World} {ending : Ending Value} (h : Runs machine (.stmts body) s ending t) :
    ∃ t', Runs machine (.stmts (stmts ++ writeBackOf pairs)) s
        (ending.encoded machine options (.top labels)) t' ∧ t.AgreeOff hidden t' := by
  have hback : ∀ s : Store Value World,
      Runs machine (.stmts (writeBackOf pairs)) s .normal (s.writeBack pairs) ∧
        s.AgreeOff hidden (s.writeBack pairs) := fun s =>
    ⟨Runs.writeBack hemits (fun pair hmem => ⟨(hpairs pair hmem).1, (hpairs pair hmem).2.1⟩) s,
      Store.AgreeOff.writeBack (fun pair hmem => (hpairs pair hmem).2.2) s⟩
  obtain ⟨t', hruns, hagree⟩ := Runs.redirect hemits ⟨writeBackOf pairs, options⟩ hkey
    (fun s => ⟨_, hback s⟩) h (.top labels) hbody (.refl hidden s)
  have hstmts : stmts = body.map (Node.redirect ⟨writeBackOf pairs, options⟩ (.top labels)) := by
    rw [← redirectIn_eq_map]
    exact (congrArg Prod.fst hsites).symm
  rw [hstmts]
  by_cases hnormal : ending = .normal
  · subst hnormal
    exact ⟨t'.writeBack pairs, hruns.append_stmts (hback t').1, hagree.trans (hback t').2⟩
  · have habrupt : ending.encoded machine options (.top labels) ≠ .normal :=
      mt (Ending.encoded_eq_normal_iff machine options).mp hnormal
    exact ⟨t', hruns.append_abrupt habrupt _, hagree⟩

/-- In a round of the loop, calling the function and acting on what it returned ends as the
body does in place, and in no other way: the loop goes on, or is left, or returns the same
value, or throws it. -/
theorem JumpSites.dispatch_ends_as_body {resultName : String} {call : Node}
    {enter : Store Value World → Store Value World} (hemits : machine.Emits known)
    (hkey : options.returnKey ≠ "__proto__") (hresult : resultName ∈ known ∧ resultName ∈ hidden)
    (hpairs : ∀ pair ∈ pairs, pair.1 ∈ known ∧ pair.2 ∈ known ∧ pair.1 ∈ hidden)
    (hbody : ∀ stmt ∈ body, stmt.isWellFormed = true ∧ machine.IsBlindIn hidden stmt)
    (hsites : redirectJumps ⟨writeBackOf pairs, options⟩ labels loopSpan body = (stmts, .ok sites))
    (hcalls : machine.Calls call enter (stmts ++ writeBackOf pairs))
    {s t : Store Value World} {ending : Ending Value}
    (hruns : Runs machine (.stmts body) (enter s) ending t) :
    ∃ t', t.AgreeOff hidden t' ∧ ∀ last u,
      Runs machine (.stmt [] (sites.dispatch call resultName options)) s last u ↔
        last = ending.atLoop labels ∧ u = t' := by
  suffices hexists : ∃ t', t.AgreeOff hidden t' ∧
      Runs machine (.stmt [] (sites.dispatch call resultName options)) s
        (ending.atLoop labels) t' by
    obtain ⟨t', hagree, hround⟩ := hexists
    refine ⟨t', hagree, fun last u => ⟨hround.unique, ?_⟩⟩
    rintro ⟨rfl, rfl⟩
    exact hround
  obtain ⟨t', hfunction, hagree⟩ := Runs.function hemits hkey hpairs hbody hsites hruns
  obtain ⟨hstray, hjumps⟩ := redirectJumps_eq_ok hsites
  have hlisted : ending.IsListed (.top labels) (jumpsIn (.top labels) body) :=
    hruns.isListed (.top labels) fun stmt hmem => subset_jumpsIn hmem
  have hset : ∀ value, t.AgreeOff hidden (t'.set resultName value) := fun value =>
    hagree.trans (Store.AgreeOff.set hresult.2 t' value)
  have hgoesOn : ∀ last, Runs machine (.stmts (stmts ++ writeBackOf pairs)) (enter s) last t' →
      last.answer? machine = some (.value machine.undefined) → ∃ u, t.AgreeOff hidden u ∧
        Runs machine (.stmt [] (sites.dispatch call resultName options)) s .normal u := by
    intro last hlast hanswer
    refine ⟨_, ?_, Runs.dispatch_undefined hemits hresult.1 (hcalls _ _ _ _ hlast hanswer)⟩
    split
    · exact hset machine.undefined
    · exact hagree
  cases ending with
  | normal => exact hgoesOn .normal hfunction rfl
  | continues label =>
      obtain ⟨htarget, hloop⟩ := hlisted.continues_top hstray
      rw [Ending.encoded, if_pos htarget] at hfunction
      rw [hloop]
      exact hgoesOn _ hfunction rfl
  | breaks label =>
      obtain ⟨htarget, hloop, hleaves⟩ := hlisted.breaks_top hstray
      rw [Ending.encoded, if_pos htarget] at hfunction
      rw [← hjumps] at hleaves
      rw [hloop]
      refine ⟨_, hset _, Runs.dispatch_value hemits hresult.1 ?_ (hcalls _ _ _ _ hfunction rfl) ?_⟩
      · rw [JumpSites.needDispatch, hleaves, Bool.true_or]
      · exact Runs.checks_sentinel hemits hresult.1 hleaves (t'.vars_set resultName _)
  | returns value =>
      have hreturns := hlisted.returns_top
      rw [← hjumps] at hreturns
      refine ⟨_, hset _, Runs.dispatch_value hemits hresult.1 ?_ (hcalls _ _ _ _ hfunction rfl) ?_⟩
      · rw [JumpSites.needDispatch, hreturns, Bool.or_true]
      · exact Runs.checks_box hemits hresult.1 hkey hreturns (t'.vars_set resultName _)
  | throws value =>
      exact ⟨t', hagree, Runs.dispatch_thrown hemits hresult.1 (hcalls _ _ _ _ hfunction rfl)⟩

end RoundTrip

/-! ### A round with every kind of ending -/

/-- A body that ends its round in three ways, through a finalizer:

    try { if (stop) break; if (found) return result; continue outer; } finally { last = "seen"; }
-/
def searchBody : List Node :=
  [.mk .tryStmt .generated
    [.block .generated
      [.ifStmt (.use "stop" .generated) (.breakStmt .generated) .generated,
        .ifStmt (.use "found" .generated) (.returnStmt (.use "result" .generated) .generated)
        .generated,
        .mk (.continueStmt (some ⟨"outer", false, .generated⟩)) .generated []],
      .absent,
      .block .generated [.exprStmt (.assignTo "last" (.stringLit "seen" .generated) .generated)]]]

/-- The body of its function. -/
def searchStmts : List Node :=
  [.mk .tryStmt .generated
    [.block .generated
      [.ifStmt (.use "stop" .generated) (.returnStmt (.stringLit "break" .generated) .generated)
          .generated,
        .ifStmt (.use "found" .generated)
          (.returnStmt (.objectOf "v" (.use "result" .generated) .generated) .generated) .generated,
        .block .generated (writeBackOf [("i", "i$1")] ++ [.returnStmt .absent .generated])],
      .absent,
      .block .generated [.exprStmt (.assignTo "last" (.stringLit "seen" .generated) .generated)]]]

/-- The jumps that became returns. -/
def searchSites : JumpSites :=
  [⟨.leave, .generated⟩, ⟨.result, .generated⟩, ⟨.next, .generated⟩]

theorem redirectJumps_searchBody :
    redirectJumps ⟨writeBackOf [("i", "i$1")], {}⟩ ["outer"] .generated searchBody =
      (searchStmts, .ok searchSites) := by
  rfl

/-- The variable of the loop goes to the parameter. -/
def searchEnter (s : Memory) : Memory := s.set "i$1" (s.vars "i")

/-- What a call of the function does. -/
def searchFunction (s : Memory) : Reply :=
  let entered := searchEnter s
  if (entered.vars "stop").isTrue then
    some (.value (.string "break"), entered.set "last" (.string "seen"))
  else if (entered.vars "found").isTrue then
    some (.value (.box "v" (entered.vars "result")), entered.set "last" (.string "seen"))
  else
    some (.value .undefined, (entered.writeBack [("i", "i$1")]).set "last" (.string "seen"))

/-- The machine that can call it. -/
def searchMachine : Machine Datum Unit := evaluator "loop" searchFunction

theorem searchMachine_asks_use (name : String) (s : Memory) :
    searchMachine.asks [.eval (.use name .generated)] s = some (.value (s.vars name), s) :=
  Machine.asks_singleton.mpr
    ((evaluator_emits [name]).eval_use name (List.mem_singleton_self name) .generated s)

/-- The finalizer leaves its mark. -/
theorem searchMachine_runs {block : Node} {rest : List Node} {s t : Memory} {ending : Ending Datum}
    (hblock : Runs searchMachine (.stmt [] block) s ending t) (habrupt : ending ≠ .normal) :
    Runs searchMachine
      (.stmts (.mk .tryStmt .generated [block, .absent, .block .generated
        [.exprStmt (.assignTo "last" (.stringLit "seen" .generated) .generated)]] :: rest)) s ending
      (t.set "last" (.string "seen")) := by
  have hassign : searchMachine.asks
      [.eval (.assignTo "last" (.stringLit "seen" .generated) .generated)] t =
        some (.value (.string "seen"), t.set "last" (.string "seen")) := by
    rw [Machine.asks_singleton]
    simp [searchMachine, evaluator, Node.assignTo, Node.stringLit, evaluate, Reply.followed]
  exact .stop (.tried hblock (.passed (Or.inl rfl)) (.block (.cons (.expr hassign) .nil))) habrupt

theorem searchMachine_calls :
    searchMachine.Calls (.callOf "loop" ["i"] .generated) searchEnter
      (searchStmts ++ writeBackOf [("i", "i$1")]) := by
  intro s ending t answer hruns hanswer
  have hemits : searchMachine.Emits ["i", "i$1"] := evaluator_emits _
  suffices hrun : ∃ last u value, Runs searchMachine
      (.stmts (searchStmts ++ writeBackOf [("i", "i$1")])) (searchEnter s) last u ∧
        last.answer? searchMachine = some value ∧ searchFunction s = some (value, u) by
    obtain ⟨last, u, value, hrun, hvalue, hfunction⟩ := hrun
    obtain ⟨rfl, rfl⟩ := hrun.unique hruns
    rw [hvalue] at hanswer
    cases hanswer
    simpa [searchMachine, evaluator, Node.callOf, evaluate] using hfunction
  have hleave : ∀ {s : Memory}, (s.vars "stop").isTrue = false → Runs searchMachine (.stmt []
      (.ifStmt (.use "stop" .generated) (.returnStmt (.stringLit "break" .generated) .generated)
        .generated)) s .normal s := by
    intro s hstop
    refine .chose (searchMachine_asks_use "stop" s) ?_
    rw [show searchMachine.isTrue _ = false from hstop]
    exact .idle rfl
  cases hstop : ((searchEnter s).vars "stop").isTrue with
  | true =>
      refine ⟨.returns (.string "break"), (searchEnter s).set "last" (.string "seen"), _,
        searchMachine_runs (.block (.stop ?_ (by simp))) (by simp), rfl,
        by simp [searchFunction, hstop]⟩
      refine .chose (searchMachine_asks_use "stop" _) ?_
      rw [show searchMachine.isTrue _ = true from hstop, if_pos rfl]
      exact Runs.leave hemits {}
  | false =>
      cases hfound : ((searchEnter s).vars "found").isTrue with
      | true =>
          refine ⟨.returns (.box "v" ((searchEnter s).vars "result")),
            (searchEnter s).set "last" (.string "seen"), _,
            searchMachine_runs (.block (.cons (hleave hstop) (.stop ?_ (by simp)))) (by simp), rfl,
            by simp [searchFunction, hstop, hfound]⟩
          refine .chose (searchMachine_asks_use "found" _) ?_
          rw [show searchMachine.isTrue _ = true from hfound, if_pos rfl]
          refine .returned (Machine.asks_singleton.mpr ?_)
          simp [searchMachine, evaluator, Node.objectOf, Node.keyValue, evaluate, Reply.followed]
      | false =>
          refine ⟨.returns .undefined,
            ((searchEnter s).writeBack [("i", "i$1")]).set "last" (.string "seen"), _,
            searchMachine_runs (.block (.cons (hleave hstop) (.cons ?_ (.stop (.block
              (.append_stmts (Runs.writeBack hemits (by simp) _) (.stop (.returned rfl) (by simp))))
              (by simp))))) (by simp), rfl, by simp [searchFunction, hstop, hfound]⟩
          refine .chose (searchMachine_asks_use "found" _) ?_
          rw [show searchMachine.isTrue _ = false from hfound]
          exact .idle rfl

/-- Where the search found something, the loop returns it from the function around it. -/
theorem searchBody_dispatched :
    let s : Memory := ⟨fun name => if name = "stop" then .undefined else .string name, ()⟩
    ∃ t, Runs searchMachine (.stmts searchBody) (searchEnter s) (.returns (.string "result")) t ∧
      ∃ t', t.AgreeOff ["i", "returned"] t' ∧ ∀ last u,
        Runs searchMachine
            (.stmt [] (searchSites.dispatch (.callOf "loop" ["i"] .generated) "returned" {}))
            s last u ↔
          last = .returns (.string "result") ∧ u = t' := by
  intro s
  have hruns : Runs searchMachine (.stmts searchBody) (searchEnter s) (.returns (.string "result"))
      ((searchEnter s).set "last" (.string "seen")) := by
    refine searchMachine_runs (.block (.cons (t := searchEnter s) ?_ (.stop ?_ (by simp))))
      (by simp)
    · refine .chose (searchMachine_asks_use "stop" (searchEnter s)) ?_
      exact .idle rfl
    · refine .chose (searchMachine_asks_use "found" (searchEnter s)) ?_
      exact .returned (searchMachine_asks_use "result" (searchEnter s))
  have hbody : ∀ stmt ∈ searchBody, stmt.isWellFormed = true ∧
      searchMachine.IsBlindIn ["i", "returned"] stmt := by
    refine List.forall_mem_singleton.mpr ⟨by decide +kernel, evaluator_isBlindIn ?_⟩
    decide +kernel
  exact ⟨_, hruns, JumpSites.dispatch_ends_as_body (evaluator_emits ["i", "i$1", "returned"])
    (by decide) (by decide) (by decide) hbody redirectJumps_searchBody searchMachine_calls hruns⟩

end LoopLowering
