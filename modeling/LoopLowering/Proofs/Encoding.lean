/-
A loop body and the body of its function end alike.

When jumps are replaced, a run of the statements changes in one respect: where it ended in
a jump to the loop it ends in a `return` now, and a returned value is wrapped.
`Ending.encoded` is that change.  It depends on where the statements stand, since a `break`
in a nested loop is not a jump to the loop, and the whole argument is that the rules for
statements agree with it: what a nested loop, a `switch` or a label stops, it stops before
and after.

The two runs do not take place in quite the same stores.  A `continue` copies parameters
back to loop variables before it returns; these variables are hidden from the statements,
and the stores agree on all others.
-/
import LoopLowering.Proofs.Execution
import LoopLowering.Proofs.Redirect

namespace LoopLowering

variable {Value World : Type}

/-! ### Hidden variables -/

/-- The stores differ in hidden variables only. -/
structure Store.AgreeOff (hidden : List String) (s s' : Store Value World) : Prop where
  vars : ∀ name, name ∉ hidden → s'.vars name = s.vars name
  world : s'.world = s.world

namespace Store.AgreeOff

variable {hidden : List String} {s t u : Store Value World}

theorem refl (hidden : List String) (s : Store Value World) : s.AgreeOff hidden s :=
  ⟨fun _ _ => rfl, rfl⟩

theorem trans (hst : s.AgreeOff hidden t) (htu : t.AgreeOff hidden u) : s.AgreeOff hidden u :=
  ⟨fun name hname => (htu.vars name hname).trans (hst.vars name hname),
    htu.world.trans hst.world⟩

theorem set {name : String} (hname : name ∈ hidden) (s : Store Value World) (value : Value) :
    s.AgreeOff hidden (s.set name value) := by
  refine ⟨fun other hother => ?_, rfl⟩
  have hne : other ≠ name := fun e => hother (e ▸ hname)
  exact Store.vars_set_of_ne hne s value

end Store.AgreeOff

/-- The node a request is about. -/
def Request.node? : Request Value → Option Node
  | eval expr => some expr
  | declare decl => some decl
  | bind target _ => some target
  | renew head => some head
  | start _ expr => some expr
  | next _ => none
  | close _ => none

/-- The answer to a request does not depend on hidden variables. -/
def Machine.IsBlind (machine : Machine Value World) (hidden : List String)
    (request : Request Value) : Prop :=
  ∀ (s s' t : Store Value World) (answer : Answer Value), s.AgreeOff hidden s' →
    machine.answer request s = some (answer, t) →
    ∃ t', machine.answer request s' = some (answer, t') ∧ t.AgreeOff hidden t'

/-- What a tree asks for does not depend on hidden variables, and neither do the steps of
an iterator. -/
def Machine.IsBlindIn (machine : Machine Value World) (hidden : List String) (node : Node) : Prop :=
  ∀ request : Request Value, (∀ part, request.node? = some part → part.Within node) →
    machine.IsBlind hidden request

theorem Node.Within.trans {a b c : Node} (hab : a.Within b) (hbc : b.Within c) : a.Within c := by
  induction hbc with
  | self => exact hab
  | part hmem _ ih => exact .part hmem ih

section Blind

variable {machine : Machine Value World} {hidden : List String}

theorem Machine.IsBlindIn.part {form : Form} {span : Span} {parts : List Node} {part : Node}
    (h : machine.IsBlindIn hidden (.mk form span parts)) (hmem : part ∈ parts) :
    machine.IsBlindIn hidden part :=
  fun request hrequest => h request fun node hnode => .part hmem (hrequest node hnode)

theorem Machine.IsBlindIn.self {node : Node} (h : machine.IsBlindIn hidden node)
    {request : Request Value} (hrequest : request.node? = some node) :
    machine.IsBlind hidden request := by
  refine h request fun part hpart => ?_
  cases hrequest.symm.trans hpart
  exact .self

theorem Machine.IsBlindIn.none {node : Node} (h : machine.IsBlindIn hidden node)
    {request : Request Value} (hrequest : request.node? = none) :
    machine.IsBlind hidden request := by
  refine h request fun part hpart => ?_
  cases hrequest.symm.trans hpart

theorem Machine.IsBlindIn.ifPresent {node : Node} (h : machine.IsBlindIn hidden node)
    {request : Node → Request Value} (hrequest : (request node).node? = some node) :
    ∀ r ∈ node.ifPresent request, machine.IsBlind hidden r := by
  intro r hr
  unfold Node.ifPresent at hr
  split at hr
  · exact absurd hr List.not_mem_nil
  · rw [List.mem_singleton.mp hr]
    exact h.self hrequest

/-- Requests whose answers do not depend on hidden variables have the same answers in
stores that agree on the others. -/
theorem Machine.asks_of_agreeOff {requests : List (Request Value)}
    (hblind : ∀ request ∈ requests, machine.IsBlind hidden request) {s s' t : Store Value World}
    {answer : Answer Value} (hagree : s.AgreeOff hidden s')
    (h : machine.asks requests s = some (answer, t)) :
    ∃ t', machine.asks requests s' = some (answer, t') ∧ t.AgreeOff hidden t' := by
  unfold Machine.asks at h ⊢
  generalize Answer.value machine.undefined = last at h ⊢
  induction requests generalizing s s' last with
  | nil =>
      cases h
      exact ⟨s', rfl, hagree⟩
  | cons request requests ih =>
      have hfirst : machine.IsBlind hidden request := hblind request List.mem_cons_self
      have hrest : ∀ other ∈ requests, machine.IsBlind hidden other :=
        fun other hother => hblind other (List.mem_cons_of_mem request hother)
      unfold Machine.answers at h ⊢
      split at h
      · next value u hanswer =>
        cases h
        obtain ⟨u', hanswer', hagree'⟩ := hfirst _ _ _ _ hagree hanswer
        exact ⟨u', by rw [hanswer'], hagree'⟩
      · next first u hthrown hanswer =>
        obtain ⟨u', hanswer', hagree'⟩ := hfirst _ _ _ _ hagree hanswer
        obtain ⟨t', ht', hagree''⟩ := ih hrest hagree' _ h
        refine ⟨t', ?_, hagree''⟩
        rw [hanswer']
        cases first with
        | thrown value => exact absurd rfl (hthrown value)
        | value | done => exact ht'
      · cases h

end Blind

/-! ### Endings before and after -/

/-- How statements end after their jumps are replaced. -/
def Ending.encoded (machine : Machine Value World) (options : Options) (ctx : JumpContext) :
    Ending Value → Ending Value
  | breaks label =>
    if ctx.breakTarget label = .loop then returns (machine.string options.breakSentinel)
    else breaks label
  | continues label =>
    if ctx.continueTarget label = .loop then returns machine.undefined else continues label
  | returns value => returns (machine.box options.returnKey value)
  | ending => ending

namespace JumpContext

theorem enter_of_isLoop {form : Form} (h : form.isLoop = true) (ctx : JumpContext) :
    ctx.enter form = { ctx with inLoop := true } := by
  unfold Form.isLoop at h
  split at h
  · rfl
  · rfl
  · rfl
  · rfl
  · rfl
  · cases h

end JumpContext

namespace Ending

variable (machine : Machine Value World) (options : Options) {ctx : JumpContext}

theorem encoded_eq_normal_iff {ending : Ending Value} :
    ending.encoded machine options ctx = normal ↔ ending = normal := by
  cases ending with
  | normal | returns | throws => simp [encoded]
  | breaks label | continues label =>
      simp only [encoded, reduceCtorEq, iff_false]
      split <;> simp

theorem encoded_ne_throws {ending : Ending Value} (h : ∀ value, ending ≠ throws value)
    (value : Value) :
    ending.encoded machine options ctx ≠ throws value := by
  cases ending with
  | normal | returns => simp [encoded]
  | throws other => exact absurd rfl (h other)
  | breaks label | continues label =>
      simp only [encoded]
      split <;> simp

theorem unbroken_encoded_some_break (label : Name) :
    ((breaks (some label) : Ending Value).encoded machine options ctx).unbroken =
      (breaks (some label)).encoded machine options ctx := by
  simp only [encoded]
  split <;> rfl

theorem unbroken_encoded_continues (label : Option Name) :
    ((continues label : Ending Value).encoded machine options ctx).unbroken =
      (continues label).encoded machine options ctx := by
  simp only [encoded]
  split <;> rfl

/-- A nested loop stops the same jumps before and after. -/
theorem unbroken_encoded_loop {ending : Ending Value} (hgoesOn : ending ≠ continues none) :
    (ending.encoded machine options { ctx with inLoop := true }).unbroken =
      ending.unbroken.encoded machine options ctx := by
  cases ending with
  | normal | returns | throws => rfl
  | breaks label =>
      cases label with
      | none => rfl
      | some label => exact unbroken_encoded_some_break machine options label
  | continues label =>
      cases label with
      | none => exact absurd rfl hgoesOn
      | some label => exact unbroken_encoded_continues machine options (some label)

/-- A nested `switch` stops the same jumps before and after. -/
theorem unbroken_encoded_switch (ending : Ending Value) :
    (ending.encoded machine options { ctx with inSwitch := true }).unbroken =
      ending.unbroken.encoded machine options ctx := by
  cases ending with
  | normal | returns | throws => rfl
  | breaks label =>
      cases label with
      | none => simp [encoded, unbroken, JumpContext.breakTarget, JumpContext.target]
      | some label => exact unbroken_encoded_some_break machine options label
  | continues label => exact unbroken_encoded_continues machine options label

theorem target_cons_inner {label : String} {target : Name} (h : target.text ≠ label)
    (stopped : Bool) :
    JumpContext.target { ctx with inner := label :: ctx.inner } (some target) stopped =
      ctx.target (some target) stopped := by
  simp [JumpContext.target, h]

theorem unlabeled_encoded_none (label : String) {ending : Ending Value}
    (h : ∀ target, ending ≠ breaks (some target)) :
    (ending.encoded machine options ctx).unlabeled label = ending.encoded machine options ctx := by
  cases ending with
  | normal | returns | throws => rfl
  | breaks target? =>
      cases target? with
      | none =>
          simp only [encoded]
          split <;> rfl
      | some target => exact absurd rfl (h target)
  | continues target? =>
      simp only [encoded]
      split <;> rfl

/-- A label inside the body stops the same jumps before and after. -/
theorem unlabeled_encoded {label : Name} {ending : Ending Value}
    (hloop : ending.continuesAt label.text = false) :
    (ending.encoded machine options { ctx with inner := label.text :: ctx.inner }).unlabeled
        label.text =
      (ending.unlabeled label.text).encoded machine options ctx := by
  cases ending with
  | normal | returns | throws => rfl
  | breaks target? =>
      cases target? with
      | none => exact unlabeled_encoded_none machine options label.text (by simp)
      | some target =>
          by_cases heq : target.text = label.text
          · simp [encoded, unlabeled, JumpContext.breakTarget, JumpContext.target, heq]
          · have htarget : JumpContext.breakTarget { ctx with inner := label.text :: ctx.inner }
                (some target) = ctx.breakTarget (some target) := target_cons_inner heq _
            by_cases hout : ctx.breakTarget (some target) = .loop
            · simp [encoded, unlabeled, htarget, hout, heq]
            · simp [encoded, unlabeled, htarget, hout, heq]
  | continues target? =>
      rw [unlabeled_encoded_none machine options label.text (by simp)]
      cases target? with
      | none => rfl
      | some target =>
          have heq : target.text ≠ label.text := by simpa [continuesAt] using hloop
          have htarget : JumpContext.continueTarget { ctx with inner := label.text :: ctx.inner }
              (some target) = ctx.continueTarget (some target) := target_cons_inner heq _
          simp only [encoded, htarget, unlabeled]

/-- A nested loop goes on after the same rounds before and after. -/
theorem goesOn_encoded {labels : List String} (hloop : ctx.inLoop = true)
    (hlabels : ∀ label ∈ labels, label ∈ ctx.inner) (ending : Ending Value) :
    (ending.encoded machine options ctx).goesOn labels = ending.goesOn labels := by
  cases ending with
  | normal | returns | throws => rfl
  | breaks label =>
      simp only [encoded]
      split <;> rfl
  | continues label =>
      cases label with
      | none => simp [encoded, JumpContext.continueTarget, JumpContext.target, hloop]
      | some label =>
          by_cases hmem : label.text ∈ ctx.inner
          · simp [encoded, JumpContext.continueTarget, JumpContext.target, hmem]
          · have hnot : label.text ∉ labels := fun h => hmem (hlabels _ h)
            simp only [encoded]
            split
            · simp [goesOn, hnot]
            · rfl

theorem continuesAt_encoded {label : String} {ending : Ending Value}
    (h : ending.continuesAt label = false) :
    (ending.encoded machine options ctx).continuesAt label = false := by
  cases ending with
  | normal | returns | throws => rfl
  | breaks target =>
      simp only [encoded]
      split <;> rfl
  | continues target =>
      simp only [encoded]
      split
      · rfl
      · exact h

theorem closed_encoded (answer : Answer Value) (ending : Ending Value) :
    (ending.encoded machine options ctx).closed answer =
      (ending.closed answer).encoded machine options ctx := by
  cases ending with
  | throws => rfl
  | normal | returns => cases answer <;> rfl
  | breaks label =>
      by_cases hout : ctx.breakTarget label = .loop
      · cases answer <;> simp [encoded, closed, hout]
      · cases answer <;> simp [encoded, closed, hout]
  | continues label =>
      by_cases hout : ctx.continueTarget label = .loop
      · cases answer <;> simp [encoded, closed, hout]
      · cases answer <;> simp [encoded, closed, hout]

theorem finalized_encoded (ending last : Ending Value) :
    (ending.encoded machine options ctx).finalized (last.encoded machine options ctx) =
      (ending.finalized last).encoded machine options ctx := by
  cases last with
  | normal | returns | throws => rfl
  | breaks label =>
      by_cases hout : ctx.breakTarget label = .loop
      · simp [encoded, finalized, hout]
      · simp [encoded, finalized, hout]
  | continues label =>
      by_cases hout : ctx.continueTarget label = .loop
      · simp [encoded, finalized, hout]
      · simp [encoded, finalized, hout]

end Ending

/-! ### Points before and after -/

/-- A point in the run of statements after their jumps are replaced. -/
def Phase.redirect (machine : Machine Value World) (redirection : Redirection) (ctx : JumpContext) :
    Phase Value → Phase Value
  | stmt labels node => stmt labels (node.redirect redirection ctx)
  | stmts nodes => stmts (nodes.map (Node.redirect redirection ctx))
  | check guard labels body => check guard labels (body.redirect redirection ctx)
  | round guard labels body => round guard labels (body.redirect redirection ctx)
  | handling handler ending =>
    handling (handler.redirect redirection ctx) (ending.encoded machine redirection.options ctx)

/-- What is asked to give the left side of the head a value. -/
def Guard.binds (value : Value) : Guard Value → List (Request Value)
  | .over _ left _ => [.bind left value]
  | .test _ _ _ => []

/-- Hidden variables are hidden from the head of a loop. -/
def Guard.IsBlind (machine : Machine Value World) (hidden : List String) (guard : Guard Value) :
    Prop :=
  ∀ value, ∀ request ∈ guard.requests ++ guard.update ++ guard.close ++ guard.binds value,
    machine.IsBlind hidden request

/-- The trees are well formed, hidden variables are hidden from them, and the labels in
force are known to the context. -/
def Phase.Ready (machine : Machine Value World) (hidden : List String) (ctx : JumpContext) :
    Phase Value → Prop
  | stmt labels node =>
    (∀ label ∈ labels, label ∈ ctx.inner) ∧ node.isWellFormed = true ∧ machine.IsBlindIn hidden node
  | stmts nodes => ∀ node ∈ nodes, node.isWellFormed = true ∧ machine.IsBlindIn hidden node
  | check guard labels body | round guard labels body =>
    (∀ label ∈ labels, label ∈ ctx.inner) ∧ ctx.inLoop = true ∧
      guard.IsBlind machine hidden ∧
      body.isWellFormed = true ∧ machine.IsBlindIn hidden body
  | handling handler _ => handler.isWellFormed = true ∧ machine.IsBlindIn hidden handler

/-- Whether the point is in a loop. -/
def Phase.isLooping : Phase Value → Bool
  | check _ _ _ | round _ _ _ => true
  | _ => false

section Points

variable {machine : Machine Value World} {hidden : List String} {ctx : JumpContext}

/-- A loop does not end by a `continue` of its own. -/
theorem Runs.ne_continues {phase : Phase Value} {s t : Store Value World} {ending : Ending Value}
    (h : Runs machine phase s ending t) (hphase : phase.isLooping = true) :
    ending ≠ .continues none := by
  induction h with
  | thrown | testFails | exhausted | unbound | updateThrown => simp
  | testHolds _ _ _ ih | bound _ _ _ ih => exact ih rfl
  | again _ _ _ _ _ ih => exact ih rfl
  | @left _ _ _ _ _ _ answer ending _ hgoesOn =>
      rintro heq
      cases ending with
      | continues label =>
          cases label with
          | none => cases hgoesOn
          | some label => cases answer <;> cases heq
      | normal | breaks | returns => cases answer <;> cases heq
      | throws => cases heq
  | nil | cons | stop | idle | block | expr | declared | returned | threw | broke | continued
  | chose | labeled | switched | switchThrown | tried | passed | caught | whileLoop | doLoop
  | forLoop | overLoop | overNothing => cases hphase

theorem Machine.IsBlindIn.initRequests {init : Node} (h : machine.IsBlindIn hidden init) :
    ∀ request ∈ init.initRequests, machine.IsBlind hidden request := by
  intro request hmem
  unfold Node.initRequests at hmem
  rcases List.mem_append.mp hmem with hmem | hmem
  · refine h.ifPresent ?_ request hmem
    split <;> rfl
  · exact h.ifPresent rfl request hmem

theorem Machine.IsBlindIn.requests {node : Node} (h : machine.IsBlindIn hidden node) :
    ∀ request ∈ node.requests, machine.IsBlind hidden request := by
  intro request hmem
  unfold Node.requests at hmem
  split at hmem
  · rw [List.mem_singleton.mp hmem]
    exact (h.part (by simp)).self rfl
  · exact (h.part (by simp)).ifPresent rfl request hmem
  · rw [List.mem_singleton.mp hmem]
    exact (h.part (by simp)).self rfl
  · rw [List.mem_singleton.mp hmem]
    exact (h.part (by simp)).self rfl
  · rw [List.mem_singleton.mp hmem]
    exact (h.part (by simp)).self rfl
  · exact (h.part (by simp)).initRequests request hmem
  · next right _ =>
    rw [List.mem_singleton.mp hmem]
    exact (h.part (show right ∈ _ by simp)).self rfl
  · next right _ =>
    rw [List.mem_singleton.mp hmem]
    exact (h.part (show right ∈ _ by simp)).self rfl
  · split at hmem
    · rw [List.mem_singleton.mp hmem]
      exact h.self rfl
    · exact absurd hmem List.not_mem_nil

theorem Guard.isBlind_test {init condition step : Node}
    (hinit : ∀ request ∈ init.ifPresent .renew, machine.IsBlind hidden request)
    (hcondition : ∀ request ∈ condition.ifPresent .eval, machine.IsBlind hidden request)
    (hstep : ∀ request ∈ step.ifPresent .eval, machine.IsBlind hidden request) :
    (Guard.test init condition step).IsBlind machine hidden := by
  intro value request hmem
  simp only [Guard.requests, Guard.update, Guard.close, Guard.binds, List.append_nil,
    List.mem_append] at hmem
  rcases hmem with hmem | hmem | hmem
  · exact hcondition request hmem
  · exact hinit request hmem
  · exact hstep request hmem

theorem Guard.isBlind_condition {condition : Node} (h : machine.IsBlindIn hidden condition) :
    (Guard.test .absent condition .absent).IsBlind machine hidden := by
  have hnothing : ∀ {request : Node → Request Value}, ∀ r ∈ Node.absent.ifPresent request,
      machine.IsBlind hidden r := by
    intro request r hmem
    exact absurd hmem List.not_mem_nil
  exact Guard.isBlind_test hnothing (h.ifPresent rfl) hnothing

theorem Guard.isBlind_over {form : Form} {left : Node} {iterator : Value}
    (hleft : machine.IsBlindIn hidden left) :
    (Guard.over form left iterator).IsBlind machine hidden := by
  intro value request hmem
  simp only [Guard.requests, Guard.update, Guard.binds, List.append_nil, List.mem_append,
    List.mem_singleton] at hmem
  rcases hmem with (rfl | hmem) | rfl
  · exact hleft.none rfl
  · unfold Guard.close at hmem
    split at hmem
    · rw [List.mem_singleton.mp hmem]
      exact hleft.none rfl
    · exact absurd hmem List.not_mem_nil
  · exact hleft.self rfl

namespace Guard.IsBlind

variable {guard : Guard Value} (h : guard.IsBlind machine hidden)
include h

theorem requests : ∀ request ∈ guard.requests, machine.IsBlind hidden request :=
  fun request hmem => h machine.undefined request (by simp [hmem])

theorem update : ∀ request ∈ guard.update, machine.IsBlind hidden request :=
  fun request hmem => h machine.undefined request (by simp [hmem])

theorem close : ∀ request ∈ guard.close, machine.IsBlind hidden request :=
  fun request hmem => h machine.undefined request (by simp [hmem])

theorem binds (value : Value) : ∀ request ∈ guard.binds value, machine.IsBlind hidden request :=
  fun request hmem => h value request (by simp [hmem])

end Guard.IsBlind

theorem Form.isQuiet_slots_of_isDeclared {form : Form} (h : form.isDeclared = true) :
    form ≠ .list ∧ form.isJump = false ∧ form.shape.slots.all Slot.isQuiet = true := by
  unfold Form.isDeclared at h
  split at h
  · exact ⟨by simp, rfl, rfl⟩
  · exact ⟨by simp, rfl, rfl⟩
  · exact ⟨by simp, rfl, rfl⟩
  · exact ⟨by simp, rfl, rfl⟩
  · cases h

/-- A declaration has no jumps. -/
theorem Node.redirect_of_isDeclared (redirection : Redirection) {form : Form} {span : Span}
    {parts : List Node} (hform : form.isDeclared = true)
    (hwf : (Node.mk form span parts).isWellFormed = true) :
    (Node.mk form span parts).redirect redirection ctx = .mk form span parts := by
  obtain ⟨hlist, hjump, hslots⟩ := Form.isQuiet_slots_of_isDeclared hform
  exact Node.redirect_of_isQuiet_slots redirection ctx ⟨hlist, hjump⟩ hslots hwf

theorem Form.over_of_isOver {form : Form} (h : form.isOver = true) :
    form = .forInStmt ∨ ∃ isAwait, form = .forOfStmt isAwait := by
  unfold Form.isOver at h
  split at h
  · exact Or.inl rfl
  · exact Or.inr ⟨_, rfl⟩
  · cases h

theorem Form.isLoop_of_isOver {form : Form} (h : form.isOver = true) : form.isLoop = true := by
  rcases Form.over_of_isOver h with rfl | ⟨isAwait, rfl⟩ <;> rfl

/-- Except for a `return`, a statement asks the same first before and after. -/
theorem Node.requests_redirect (redirection : Redirection) {node : Node}
    (hwf : node.isWellFormed = true) (hform : node.form ≠ .returnStmt)
    (hsome : (node.requests : List (Request Value)) ≠ []) :
    ((node.redirect redirection ctx).requests : List (Request Value)) = node.requests := by
  unfold Node.requests at hsome
  split at hsome
  · rw [Node.redirect_head redirection ctx rfl rfl ⟨by simp, rfl⟩ rfl hwf]
    rfl
  · exact absurd rfl hform
  · rw [Node.redirect_head redirection ctx rfl rfl ⟨by simp, rfl⟩ rfl hwf]
    rfl
  · rw [Node.redirect_head redirection ctx rfl rfl ⟨by simp, rfl⟩ rfl hwf]
    rfl
  · rw [Node.redirect_head redirection ctx rfl rfl ⟨by simp, rfl⟩ rfl hwf]
    rfl
  · rw [Node.redirect_forStmt redirection ctx hwf]
    rfl
  · rw [Node.redirect_overStmt redirection ctx (Or.inl rfl) hwf]
    rfl
  · rw [Node.redirect_overStmt redirection ctx (Or.inr ⟨_, rfl⟩) hwf]
    rfl
  · split at hsome
    · next hdeclared =>
      obtain ⟨form, span, parts⟩ := node
      have hform : form.isDeclared = true := hdeclared
      rw [Node.redirect_of_isDeclared redirection hform hwf]
    · exact absurd rfl hsome

theorem Node.redirect_switchCase (redirection : Redirection) {span : Span} {test body : Node}
    (hwf : (Node.mk .switchCase span [test, body]).isWellFormed = true) :
    (Node.mk .switchCase span [test, body]).redirect redirection ctx =
      .mk .switchCase span [test, body.redirect redirection ctx] :=
  Node.redirect_head redirection ctx rfl rfl ⟨by simp, rfl⟩ rfl hwf

theorem Node.redirect_switchStmt (redirection : Redirection) {span listSpan : Span}
    {scrutinee : Node} {cases : List Node}
    (hwf : (Node.mk .switchStmt span [scrutinee, .mk .list listSpan cases]).isWellFormed = true) :
    (Node.mk .switchStmt span [scrutinee, .mk .list listSpan cases]).redirect redirection ctx =
      .mk .switchStmt span [scrutinee,
        .mk .list listSpan (cases.map (Node.redirect redirection (ctx.enter .switchStmt)))] := by
  rw [Node.redirect_head redirection ctx rfl rfl ⟨by simp, rfl⟩ rfl hwf, List.map_cons,
    List.map_nil, Node.redirect_mk redirection _ rfl rfl]
  rfl

/-- What is true of a `switch` with its parts is true of its cases. -/
theorem Node.ready_cases {span listSpan : Span} {scrutinee : Node} {cases : List Node}
    (hwf : (Node.mk .switchStmt span [scrutinee, .mk .list listSpan cases]).isWellFormed = true)
    (hblind : machine.IsBlindIn hidden
      (.mk .switchStmt span [scrutinee, .mk .list listSpan cases])) :
    ∀ node ∈ cases, node.form.category = .switchCase ∧ node.isWellFormed = true ∧
      machine.IsBlindIn hidden node := by
  intro node hmem
  have hlist : Node.mk .list listSpan cases ∈ [scrutinee, Node.mk .list listSpan cases] := by simp
  have hfill := (Node.isWellFormed_mk.mp hwf).1.resolve_left (by simp)
  simp only [Form.shape, Shape.admits, fillSlots, Bool.and_eq_true, Bool.and_true] at hfill
  refine ⟨?_, Node.isWellFormed_part (Node.isWellFormed_part hwf hlist) hmem,
    (hblind.part hlist).part hmem⟩
  simp only [Slot.admits, Node.isListOf, Node.parts, Bool.and_eq_true] at hfill
  have hcategory := List.all_eq_true.mp hfill.2.2 node hmem
  simpa using hcategory

theorem Node.isAbsent_redirect (redirection : Redirection) {node : Node}
    (h : node.isAbsent = true) : (node.redirect redirection ctx).isAbsent = true := by
  obtain ⟨form, span, parts⟩ := node
  have hform : form = .absent := by simpa [Node.isAbsent, Node.form] using h
  subst hform
  rw [Node.redirect_mk redirection ctx rfl rfl]
  rfl

/-- The cases of a `switch` are selected alike before and after. -/
theorem Machine.select_redirect (ctx : JumpContext) (redirection : Redirection) {value : Value}
    {default cases : List Node} {s s' t : Store Value World} {result : Except Value (List Node)}
    (hcases : ∀ node ∈ cases, node.isWellFormed = true ∧ machine.IsBlindIn hidden node)
    (hagree : s.AgreeOff hidden s')
    (h : machine.select value default cases s = some (result, t)) :
    ∃ t', machine.select value (default.map (Node.redirect redirection ctx))
        (cases.map (Node.redirect redirection ctx)) s' =
          some (result.map (·.map (Node.redirect redirection ctx)), t') ∧ t.AgreeOff hidden t' := by
  fun_induction Machine.select machine value default cases s generalizing s' with
  | case1 default s =>
      cases h
      exact ⟨s', rfl, hagree⟩
  | case2 default span test body cases s habsent ih =>
      obtain ⟨hwf, -⟩ := hcases _ List.mem_cons_self
      obtain ⟨t', ht', hagree'⟩ := ih (fun node hnode => hcases node (List.mem_cons_of_mem _ hnode))
        hagree h
      refine ⟨t', ?_, hagree'⟩
      rw [List.map_cons, Node.redirect_switchCase redirection hwf] at ht' ⊢
      rw [Machine.select, if_pos habsent]
      exact ht'
  | case3 default span test body cases s habsent other u hanswer hsame =>
      cases h
      obtain ⟨hwf, hblind⟩ := hcases _ List.mem_cons_self
      obtain ⟨u', hanswer', hagree'⟩ :=
        ((hblind.part (show test ∈ _ by simp)).self rfl) _ _ _ _ hagree hanswer
      refine ⟨u', ?_, hagree'⟩
      simp only [Except.map, List.map_cons, Node.redirect_switchCase redirection hwf]
      rw [Machine.select, if_neg habsent, hanswer']
      simp only [hsame, if_true]
  | case4 default span test body cases s habsent other u hanswer hsame ih =>
      obtain ⟨hwf, hblind⟩ := hcases _ List.mem_cons_self
      obtain ⟨u', hanswer', hagree'⟩ :=
        ((hblind.part (show test ∈ _ by simp)).self rfl) _ _ _ _ hagree hanswer
      obtain ⟨t', ht', hagree''⟩ :=
        ih (fun node hnode => hcases node (List.mem_cons_of_mem _ hnode)) hagree' h
      refine ⟨t', ?_, hagree''⟩
      rw [List.map_cons, Node.redirect_switchCase redirection hwf, Machine.select, if_neg habsent,
        hanswer']
      simp only [hsame]
      exact ht'
  | case5 default span test body cases s habsent thrown u hanswer =>
      cases h
      obtain ⟨hwf, hblind⟩ := hcases _ List.mem_cons_self
      obtain ⟨u', hanswer', hagree'⟩ :=
        ((hblind.part (show test ∈ _ by simp)).self rfl) _ _ _ _ hagree hanswer
      refine ⟨u', ?_, hagree'⟩
      rw [List.map_cons, Node.redirect_switchCase redirection hwf, Machine.select, if_neg habsent,
        hanswer']
      rfl
  | case6 => cases h
  | case7 => cases h

/-- The cases that are selected are cases of the `switch`. -/
theorem Machine.mem_of_select {value : Value} {default cases chosen : List Node}
    {s t : Store Value World} (h : machine.select value default cases s = some (.ok chosen, t)) :
    ∀ node ∈ chosen, node ∈ default ∨ node ∈ cases := by
  fun_induction Machine.select machine value default cases s with
  | case1 default s =>
      cases h
      exact fun node hnode => Or.inl hnode
  | case2 default span test body cases s habsent ih =>
      intro node hnode
      rcases ih h node hnode with hmem | hmem
      · exact Or.inr hmem
      · exact Or.inr (List.mem_cons_of_mem _ hmem)
  | case3 =>
      cases h
      exact fun node hnode => Or.inr hnode
  | case4 default span test body cases s habsent other u hanswer hsame ih =>
      intro node hnode
      exact (ih h node hnode).imp_right (List.mem_cons_of_mem _)
  | case5 => cases h
  | case6 => cases h
  | case7 => cases h

/-- The statements of a case before and after. -/
theorem Node.caseStmts_redirect (redirection : Redirection) {node : Node}
    (hwf : node.isWellFormed = true) (hcategory : node.form.category = .switchCase) :
    (node.redirect redirection ctx).caseStmts =
      node.caseStmts.map (Node.redirect redirection ctx) := by
  obtain ⟨form, span, parts⟩ := node
  have hform : form = .switchCase := by
    have htable : (form.category != .switchCase || form == .switchCase) = true := by
      cases form with
      | ident role => cases role <;> rfl
      | _ => rfl
    have hcase : form.category = .switchCase := hcategory
    simpa [hcase] using htable
  subst hform
  obtain ⟨test, body, rfl⟩ := List.length_eq_two.mp (Node.length_parts hwf (by simp) rfl)
  have hfill := (Node.isWellFormed_mk.mp hwf).1.resolve_left (by simp)
  simp only [Form.shape, Shape.admits, fillSlots, Bool.and_eq_true, Bool.and_true] at hfill
  obtain ⟨bodyForm, bodySpan, stmts⟩ := body
  have hbody : bodyForm = .caseBody := by
    have htable : (bodyForm.category != .caseBody || bodyForm == .caseBody) = true := by
      cases bodyForm with
      | ident role => cases role <;> rfl
      | _ => rfl
    have hcase : bodyForm.category = .caseBody := by
      simpa [Slot.admits, Node.form] using hfill.2
    simpa [hcase] using htable
  subst hbody
  rw [Node.redirect_switchCase redirection hwf, Node.redirect_mk redirection ctx rfl rfl]
  rfl

theorem flatMap_caseStmts_redirect (redirection : Redirection) {cases : List Node}
    (h : ∀ node ∈ cases, node.isWellFormed = true ∧ node.form.category = .switchCase) :
    (cases.map (Node.redirect redirection ctx)).flatMap Node.caseStmts =
      (cases.flatMap Node.caseStmts).map (Node.redirect redirection ctx) := by
  induction cases with
  | nil => rfl
  | cons node cases ih =>
      obtain ⟨⟨hwf, hcategory⟩, hcases⟩ := List.forall_mem_cons.mp h
      rw [List.map_cons, List.flatMap_cons, List.flatMap_cons, List.map_append,
        Node.caseStmts_redirect redirection hwf hcategory, ih hcases]

/-- What is true of a case with its parts is true of its statements. -/
theorem Node.ready_caseStmts {node : Node} (hwf : node.isWellFormed = true)
    (hblind : machine.IsBlindIn hidden node) :
    ∀ stmt ∈ node.caseStmts, stmt.isWellFormed = true ∧ machine.IsBlindIn hidden stmt := by
  intro stmt hmem
  unfold Node.caseStmts at hmem
  split at hmem
  · next bodySpan stmts =>
    have hbody := Node.isWellFormed_part hwf (show Node.mk .caseBody bodySpan stmts ∈ _ by simp)
    have hblindBody := hblind.part (show Node.mk .caseBody bodySpan stmts ∈ _ by simp)
    exact ⟨Node.isWellFormed_part hbody hmem, hblindBody.part hmem⟩
  · exact absurd hmem List.not_mem_nil

/-! ### Jumps that become returns -/

theorem Machine.asks_singleton {request : Request Value} {s t : Store Value World}
    {answer : Answer Value} :
    machine.asks [request] s = some (answer, t) ↔ machine.answer request s = some (answer, t) := by
  unfold Machine.asks Machine.answers
  constructor
  · intro h
    split at h
    · next hanswer => rw [hanswer, h]
    · next first u hthrown hanswer =>
      rw [hanswer, ← h]
      rfl
    · cases h
  · intro h
    rw [h]
    cases answer <;> rfl

variable {known : List String}

/-- A `return` of an expression becomes one of an object. -/
theorem Runs.redirect_returned (hemits : machine.Emits known) {redirection : Redirection}
    (hkey : redirection.options.returnKey ≠ "__proto__") {labels : List String} {span : Span}
    {expr : Node} {s t : Store Value World} {value : Value}
    (hasks : machine.asks (expr.ifPresent .eval) s = some (.value value, t)) :
    Runs machine (.stmt labels ((Node.mk .returnStmt span [expr]).redirect redirection ctx)) s
      (.returns (machine.box redirection.options.returnKey value)) t := by
  change Runs machine (.stmt labels (Node.mk .returnStmt span
    [.objectOf redirection.options.returnKey
      (([expr].find? (!·.isAbsent)).getD (.undefined span)) span])) _ _ _
  refine .returned (Machine.asks_singleton.mpr ?_)
  rw [hemits.eval_object _ _ _ _ hkey]
  unfold Node.ifPresent at hasks
  split at hasks
  · next habsent =>
    cases hasks
    simp [habsent, hemits.eval_undefined, Answer.boxed]
  · next hpresent =>
    rw [Machine.asks_singleton] at hasks
    simp [hpresent, hasks, Answer.boxed]

theorem Runs.redirect_returnThrown (hemits : machine.Emits known) {redirection : Redirection}
    (hkey : redirection.options.returnKey ≠ "__proto__") {labels : List String} {span : Span}
    {expr : Node} {s t : Store Value World} {value : Value}
    (hasks : machine.asks (expr.ifPresent .eval) s = some (.thrown value, t)) :
    Runs machine (.stmt labels ((Node.mk .returnStmt span [expr]).redirect redirection ctx)) s
      (.throws value) t := by
  refine .thrown ?_
  change machine.asks [.eval (.objectOf redirection.options.returnKey
    (([expr].find? (!·.isAbsent)).getD (.undefined span)) span)] s = _
  rw [Machine.asks_singleton, hemits.eval_object _ _ _ _ hkey]
  unfold Node.ifPresent at hasks
  split at hasks
  · cases hasks
  · next hpresent =>
    rw [Machine.asks_singleton] at hasks
    simp [hpresent, hasks, Answer.boxed]

/-- A `break` out of the loop returns the sentinel. -/
theorem Runs.leave (hemits : machine.Emits known) (options : Options) {labels : List String}
    {span : Span} {s : Store Value World} :
    Runs machine (.stmt labels (Completion.leave.toReturn options span)) s
      (.returns (machine.string options.breakSentinel)) s :=
  .returned (Machine.asks_singleton.mpr (hemits.eval_string _ _ _))

/-- Statements run one after the other. -/
theorem Runs.append_stmts {stmts more : List Node} {s t u : Store Value World}
    {ending : Ending Value} (hstmts : Runs machine (.stmts stmts) s .normal t)
    (hmore : Runs machine (.stmts more) t ending u) :
    Runs machine (.stmts (stmts ++ more)) s ending u := by
  induction stmts generalizing s with
  | nil =>
      cases hstmts with
      | nil => exact hmore
  | cons stmt stmts ih =>
      cases hstmts with
      | cons hfirst hrest => exact .cons hfirst (ih hrest)
      | stop hfirst habrupt => exact absurd rfl habrupt

theorem Runs.append_abrupt {stmts : List Node} {s t : Store Value World} {ending : Ending Value}
    (hstmts : Runs machine (.stmts stmts) s ending t) (habrupt : ending ≠ .normal)
    (more : List Node) : Runs machine (.stmts (stmts ++ more)) s ending t := by
  induction stmts generalizing s with
  | nil =>
      cases hstmts with
      | thrown hasks => cases hasks
      | nil => exact absurd rfl habrupt
  | cons stmt stmts ih =>
      cases hstmts with
      | thrown hasks => cases hasks
      | cons hfirst hrest => exact .cons hfirst (ih hrest)
      | stop hfirst habrupt => exact .stop hfirst habrupt

/-- A `continue` of the loop writes back and returns nothing. -/
theorem Runs.next {redirection : Redirection} {labels : List String} {span : Span}
    {s t : Store Value World} (hback : Runs machine (.stmts redirection.writeBack) s .normal t) :
    Runs machine (.stmt labels (redirection.continueStmt span)) s
      (.returns machine.undefined) t := by
  have hreturn : ∀ {labels s},
      Runs machine (.stmt labels (Completion.normal.toReturn redirection.options span)) s
        (.returns machine.undefined) s := .returned rfl
  unfold Redirection.continueStmt
  split
  · next hempty =>
    rw [List.isEmpty_iff.mp hempty] at hback
    cases hback with
    | nil => exact hreturn
  · exact .block (.append_stmts hback (.stop hreturn (by simp)))

/-! ### The whole run -/

/-- Where a thrown value ends the run at once, it does so before and after. -/
theorem Runs.redirect_thrown (hemits : machine.Emits known) {redirection : Redirection}
    (hkey : redirection.options.returnKey ≠ "__proto__") {phase : Phase Value}
    (hready : phase.Ready machine hidden ctx) {s s' t : Store Value World} {value : Value}
    (hagree : s.AgreeOff hidden s')
    (hasks : machine.asks phase.requests s = some (.thrown value, t)) :
    ∃ t', Runs machine (phase.redirect machine redirection ctx) s' (.throws value) t' ∧
      t.AgreeOff hidden t' := by
  cases phase with
  | stmt labels node =>
      obtain ⟨-, hwf, hblind⟩ := hready
      obtain ⟨t', hasks', hagree'⟩ := Machine.asks_of_agreeOff hblind.requests hagree hasks
      refine ⟨t', ?_, hagree'⟩
      by_cases hform : node.form = .returnStmt
      · obtain ⟨form, span, parts⟩ := node
        change form = .returnStmt at hform
        subst hform
        obtain ⟨expr, rfl⟩ := List.length_eq_one_iff.mp (Node.length_parts hwf (by simp) rfl)
        exact Runs.redirect_returnThrown hemits hkey hasks'
      · refine .thrown ?_
        have hsome : (node.requests : List (Request Value)) ≠ [] := by
          intro hnil
          rw [Phase.requests, hnil] at hasks
          cases hasks
        rw [Phase.redirect, Phase.requests, Node.requests_redirect redirection hwf hform hsome]
        exact hasks'
  | stmts nodes => cases hasks
  | check guard labels body =>
      obtain ⟨-, -, hguard, -⟩ := hready
      obtain ⟨t', hasks', hagree'⟩ := Machine.asks_of_agreeOff hguard.requests hagree hasks
      exact ⟨t', .thrown hasks', hagree'⟩
  | round guard labels body => cases hasks
  | handling handler ending =>
      obtain ⟨hwf, hblind⟩ := hready
      simp only [Phase.requests] at hasks
      unfold Node.handlerRequests at hasks
      split at hasks
      · next param body thrown =>
        have hparam : ∀ request ∈ param.ifPresent (Request.bind · thrown),
            machine.IsBlind hidden request := (hblind.part (by simp)).ifPresent rfl
        obtain ⟨t', hasks', hagree'⟩ := Machine.asks_of_agreeOff hparam hagree hasks
        refine ⟨t', .thrown ?_, hagree'⟩
        rw [Phase.redirect, Node.redirect_head redirection ctx rfl rfl ⟨by simp, rfl⟩ rfl hwf]
        exact hasks'
      · cases hasks

/-- Once the jumps at a point are replaced, the machine gets to what encodes the ending, and the
stores agree off the hidden variables. -/
def Machine.Redirects (machine : Machine Value World) (redirection : Redirection)
    (hidden : List String) (phase : Phase Value) (s : Store Value World) (ending : Ending Value)
    (t : Store Value World) : Prop :=
  ∀ (ctx : JumpContext) ⦃s' : Store Value World⦄, phase.Ready machine hidden ctx →
    s.AgreeOff hidden s' →
    ∃ t', Runs machine (phase.redirect machine redirection ctx) s'
        (ending.encoded machine redirection.options ctx) t' ∧ t.AgreeOff hidden t'

namespace Machine.Redirects

variable {redirection : Redirection} {s t u v : Store Value World} {ending : Ending Value}
  {labels : List String} {form : Form} {span : Span} {node body : Node} {value : Value}

/-! ### Statements in a row -/

theorem cons {nodes : List Node}
    (hfirst : machine.Redirects redirection hidden (.stmt [] node) s .normal t)
    (hrest : machine.Redirects redirection hidden (.stmts nodes) t ending u) :
    machine.Redirects redirection hidden (.stmts (node :: nodes)) s ending u := by
  intro ctx s' hready hagree
  obtain ⟨hnode, hnodes⟩ := List.forall_mem_cons.mp hready
  obtain ⟨t', hfirst', hagree'⟩ := hfirst ctx ⟨by simp, hnode⟩ hagree
  obtain ⟨u', hrest', hagree''⟩ := hrest ctx hnodes hagree'
  exact ⟨u', .cons hfirst' hrest', hagree''⟩

theorem stop {nodes : List Node}
    (hfirst : machine.Redirects redirection hidden (.stmt [] node) s ending t)
    (habrupt : ending ≠ .normal) :
    machine.Redirects redirection hidden (.stmts (node :: nodes)) s ending t := by
  intro ctx s' hready hagree
  obtain ⟨hnode, -⟩ := List.forall_mem_cons.mp hready
  obtain ⟨t', hfirst', hagree'⟩ := hfirst ctx ⟨by simp, hnode⟩ hagree
  refine ⟨t', .stop hfirst' ?_, hagree'⟩
  exact fun e => habrupt ((Ending.encoded_eq_normal_iff machine redirection.options).mp e)

/-! ### Statements that end at once -/

theorem idle {parts : List Node} (hform : form.isIdle = true) :
    machine.Redirects redirection hidden (.stmt labels (.mk form span parts)) s .normal s := by
  intro ctx s' _ hagree
  refine ⟨s', ?_, hagree⟩
  unfold Form.isIdle at hform
  split at hform
  · exact .idle rfl
  · exact .idle rfl
  · exact .idle rfl
  · cases hform

theorem expr (hasks : machine.asks [.eval node] s = some (.value value, t)) :
    machine.Redirects redirection hidden (.stmt labels (.mk .exprStmt span [node]))
      s .normal t := by
  intro ctx s' hready hagree
  obtain ⟨-, hwf, hblind⟩ := hready
  obtain ⟨t', hasks', hagree'⟩ := Machine.asks_of_agreeOff hblind.requests hagree hasks
  refine ⟨t', ?_, hagree'⟩
  rw [Phase.redirect, Node.redirect_head redirection ctx rfl rfl ⟨by simp, rfl⟩ rfl hwf]
  exact .expr hasks'

theorem declared {parts : List Node} (hform : form.isDeclared = true)
    (hasks : machine.asks [.declare (.mk form span parts)] s = some (.value value, t)) :
    machine.Redirects redirection hidden (.stmt labels (.mk form span parts)) s .normal t := by
  intro ctx s' hready hagree
  obtain ⟨-, hwf, hblind⟩ := hready
  rw [← Node.requests_of_isDeclared hform] at hasks
  obtain ⟨t', hasks', hagree'⟩ := Machine.asks_of_agreeOff hblind.requests hagree hasks
  refine ⟨t', ?_, hagree'⟩
  rw [Phase.redirect, Node.redirect_of_isDeclared redirection hform hwf]
  rw [Node.requests_of_isDeclared hform] at hasks'
  exact .declared hform hasks'

theorem threw (hasks : machine.asks [.eval node] s = some (.value value, t)) :
    machine.Redirects redirection hidden (.stmt labels (.mk .throwStmt span [node])) s
      (.throws value) t := by
  intro ctx s' hready hagree
  obtain ⟨-, hwf, hblind⟩ := hready
  obtain ⟨t', hasks', hagree'⟩ := Machine.asks_of_agreeOff hblind.requests hagree hasks
  refine ⟨t', ?_, hagree'⟩
  rw [Phase.redirect, Node.redirect_head redirection ctx rfl rfl ⟨by simp, rfl⟩ rfl hwf]
  exact .threw hasks'

/-! ### Jumps -/

theorem returned (hemits : machine.Emits known)
    (hkey : redirection.options.returnKey ≠ "__proto__")
    (hasks : machine.asks (node.ifPresent .eval) s = some (.value value, t)) :
    machine.Redirects redirection hidden (.stmt labels (.mk .returnStmt span [node])) s
      (.returns value) t := by
  intro ctx s' hready hagree
  obtain ⟨-, -, hblind⟩ := hready
  obtain ⟨t', hasks', hagree'⟩ := Machine.asks_of_agreeOff hblind.requests hagree hasks
  exact ⟨t', Runs.redirect_returned hemits hkey hasks', hagree'⟩

theorem broke (hemits : machine.Emits known) {label : Option Name} {parts : List Node} :
    machine.Redirects redirection hidden (.stmt labels (.mk (.breakStmt label) span parts)) s
      (.breaks label) s := by
  intro ctx s' _ hagree
  refine ⟨s', ?_, hagree⟩
  simp only [Phase.redirect, Ending.encoded]
  unfold Node.redirect
  simp only [Form.isClosure, Bool.false_eq_true, if_false]
  split
  · exact Runs.leave hemits redirection.options
  · exact .broke

theorem continued (hback : ∀ s : Store Value World, ∃ t,
      Runs machine (.stmts redirection.writeBack) s .normal t ∧ s.AgreeOff hidden t)
    {label : Option Name} {parts : List Node} :
    machine.Redirects redirection hidden (.stmt labels (.mk (.continueStmt label) span parts)) s
      (.continues label) s := by
  intro ctx s' _ hagree
  simp only [Phase.redirect, Ending.encoded]
  unfold Node.redirect
  simp only [Form.isClosure, Bool.false_eq_true, if_false]
  split
  · obtain ⟨t', hwritten, hagree'⟩ := hback s'
    exact ⟨t', Runs.next hwritten, hagree.trans hagree'⟩
  · exact ⟨s', .continued, hagree⟩

/-! ### Statements with statements in them -/

theorem block {stmts : List Node}
    (hstmts : machine.Redirects redirection hidden (.stmts stmts) s ending t) :
    machine.Redirects redirection hidden (.stmt labels (.mk .block span stmts)) s ending t := by
  intro ctx s' hready hagree
  obtain ⟨-, hwf, hblind⟩ := hready
  obtain ⟨t', hstmts', hagree'⟩ := hstmts ctx
    (fun node hmem => ⟨Node.isWellFormed_part hwf hmem, hblind.part hmem⟩) hagree
  refine ⟨t', ?_, hagree'⟩
  rw [Phase.redirect, Node.redirect_mk redirection ctx rfl rfl]
  exact .block hstmts'

theorem chose {consequent alternative : Node}
    (hasks : machine.asks [.eval node] s = some (.value value, t))
    (hbranch : machine.Redirects redirection hidden
      (.stmt [] (if machine.isTrue value then consequent else alternative)) t ending u) :
    machine.Redirects redirection hidden
      (.stmt labels (.mk .ifStmt span [node, consequent, alternative])) s ending u := by
  intro ctx s' hready hagree
  obtain ⟨-, hwf, hblind⟩ := hready
  obtain ⟨t', hasks', hagree'⟩ := Machine.asks_of_agreeOff hblind.requests hagree hasks
  have hmem : (if machine.isTrue value then consequent else alternative) ∈
      [node, consequent, alternative] := by
    split <;> simp
  obtain ⟨u', hbranch', hagree''⟩ :=
    hbranch ctx ⟨by simp, Node.isWellFormed_part hwf hmem, hblind.part hmem⟩ hagree'
  refine ⟨u', ?_, hagree''⟩
  rw [Phase.redirect, Node.redirect_head redirection ctx rfl rfl ⟨by simp, rfl⟩ rfl hwf]
  refine .chose hasks' ?_
  rw [← apply_ite (Node.redirect redirection (ctx.enter .ifStmt))]
  exact hbranch'

theorem labeled {label : Name}
    (hbody : machine.Redirects redirection hidden (.stmt (label.text :: labels) body) s ending t)
    (hloop : ending.continuesAt label.text = false) :
    machine.Redirects redirection hidden (.stmt labels (.mk (.labeled label) span [body])) s
      (ending.unlabeled label.text) t := by
  intro ctx s' hready hagree
  obtain ⟨hlabels, hwf, hblind⟩ := hready
  have hinner : ∀ name ∈ label.text :: labels, name ∈ label.text :: ctx.inner := by
    intro name hmem
    rcases List.mem_cons.mp hmem with rfl | hmem
    · exact List.mem_cons_self
    · exact List.mem_cons_of_mem _ (hlabels name hmem)
  obtain ⟨t', hbody', hagree'⟩ := hbody (ctx.enter (.labeled label))
    ⟨hinner, Node.isWellFormed_part hwf (by simp), hblind.part (by simp)⟩ hagree
  refine ⟨t', ?_, hagree'⟩
  rw [Phase.redirect, Node.redirect_mk redirection ctx rfl rfl,
    ← Ending.unlabeled_encoded machine redirection.options hloop]
  exact .labeled hbody' (Ending.continuesAt_encoded machine redirection.options hloop)

theorem switched {listSpan : Span} {cases chosen : List Node}
    (hasks : machine.asks [.eval node] s = some (.value value, t))
    (hselect : machine.select value [] cases t = some (.ok chosen, u))
    (hstmts : machine.Redirects redirection hidden (.stmts (chosen.flatMap Node.caseStmts)) u
      ending v) :
    machine.Redirects redirection hidden
      (.stmt labels (.mk .switchStmt span [node, .mk .list listSpan cases]))
      s ending.unbroken v := by
  intro ctx s' hready hagree
  obtain ⟨-, hwf, hblind⟩ := hready
  have hcases := Node.ready_cases hwf hblind
  obtain ⟨t', hasks', hagree'⟩ := Machine.asks_of_agreeOff hblind.requests hagree hasks
  obtain ⟨u', hselect', hagree''⟩ := Machine.select_redirect (ctx.enter .switchStmt) redirection
    (fun node hmem => (hcases node hmem).2) hagree' hselect
  have hchosen : ∀ node ∈ chosen, node ∈ cases := fun node hmem =>
    (Machine.mem_of_select hselect node hmem).resolve_left List.not_mem_nil
  have hready' : Phase.Ready machine hidden (ctx.enter .switchStmt)
      (.stmts (chosen.flatMap Node.caseStmts)) := by
    intro stmt hmem
    obtain ⟨node, hnode, hstmt⟩ := List.mem_flatMap.mp hmem
    obtain ⟨-, hnodeWf, hnodeBlind⟩ := hcases node (hchosen node hnode)
    exact Node.ready_caseStmts hnodeWf hnodeBlind stmt hstmt
  obtain ⟨v', hstmts', hagreeV⟩ := hstmts (ctx.enter .switchStmt) hready' hagree''
  refine ⟨v', ?_, hagreeV⟩
  rw [Phase.redirect, Node.redirect_switchStmt redirection hwf,
    ← Ending.unbroken_encoded_switch machine redirection.options]
  refine .switched hasks' hselect' ?_
  rw [flatMap_caseStmts_redirect redirection fun node hmem =>
    ⟨(hcases node (hchosen node hmem)).2.1, (hcases node (hchosen node hmem)).1⟩]
  exact hstmts'

theorem switchThrown {listSpan : Span} {cases : List Node} {thrown : Value}
    (hasks : machine.asks [.eval node] s = some (.value value, t))
    (hselect : machine.select value [] cases t = some (.error thrown, u)) :
    machine.Redirects redirection hidden
      (.stmt labels (.mk .switchStmt span [node, .mk .list listSpan cases])) s
      (.throws thrown) u := by
  intro ctx s' hready hagree
  obtain ⟨-, hwf, hblind⟩ := hready
  have hcases := Node.ready_cases hwf hblind
  obtain ⟨t', hasks', hagree'⟩ := Machine.asks_of_agreeOff hblind.requests hagree hasks
  obtain ⟨u', hselect', hagree''⟩ := Machine.select_redirect (ctx.enter .switchStmt) redirection
    (fun node hmem => (hcases node hmem).2) hagree' hselect
  refine ⟨u', ?_, hagree''⟩
  rw [Phase.redirect, Node.redirect_switchStmt redirection hwf]
  exact .switchThrown hasks' hselect'

/-! ### The parts of a `try` -/

theorem tried {handler finalizer : Node} {caught last : Ending Value}
    (hblock : machine.Redirects redirection hidden (.stmt [] node) s ending t)
    (hhandler : machine.Redirects redirection hidden (.handling handler ending) t caught u)
    (hfinalizer : machine.Redirects redirection hidden (.stmt [] finalizer) u last v) :
    machine.Redirects redirection hidden
      (.stmt labels (.mk .tryStmt span [node, handler, finalizer])) s
      (caught.finalized last) v := by
  intro ctx s' hready hagree
  obtain ⟨-, hwf, hblind⟩ := hready
  obtain ⟨t', hblock', hagree'⟩ := hblock ctx
    ⟨by simp, Node.isWellFormed_part hwf (by simp), hblind.part (by simp)⟩ hagree
  obtain ⟨u', hhandler', hagree''⟩ := hhandler ctx
    ⟨Node.isWellFormed_part hwf (by simp), hblind.part (by simp)⟩ hagree'
  obtain ⟨v', hfinalizer', hagreeV⟩ := hfinalizer ctx
    ⟨by simp, Node.isWellFormed_part hwf (by simp), hblind.part (by simp)⟩ hagree''
  refine ⟨v', ?_, hagreeV⟩
  rw [Phase.redirect, Node.redirect_mk redirection ctx rfl rfl,
    ← Ending.finalized_encoded machine redirection.options]
  exact .tried hblock' hhandler' hfinalizer'

theorem passed {handler : Node}
    (hpass : handler.isAbsent = true ∨ ∀ value, ending ≠ .throws value) :
    machine.Redirects redirection hidden (.handling handler ending) s ending s := by
  intro ctx s' _ hagree
  refine ⟨s', .passed ?_, hagree⟩
  rcases hpass with habsent | hending
  · exact Or.inl (Node.isAbsent_redirect redirection habsent)
  · exact Or.inr (Ending.encoded_ne_throws machine redirection.options hending)

theorem caught {param : Node} {thrown : Value}
    (hasks : machine.asks (param.ifPresent (.bind · thrown)) s = some (.value value, t))
    (hbody : machine.Redirects redirection hidden (.stmt [] body) t ending u) :
    machine.Redirects redirection hidden
      (.handling (.mk .catchClause span [param, body]) (.throws thrown)) s ending u := by
  intro ctx s' hready hagree
  obtain ⟨hwf, hblind⟩ := hready
  obtain ⟨t', hasks', hagree'⟩ := Machine.asks_of_agreeOff
    ((hblind.part (by simp)).ifPresent rfl) hagree hasks
  obtain ⟨u', hbody', hagree''⟩ := hbody ctx
    ⟨by simp, Node.isWellFormed_part hwf (by simp), hblind.part (by simp)⟩ hagree'
  refine ⟨u', ?_, hagree''⟩
  rw [Phase.redirect, Node.redirect_head redirection ctx rfl rfl ⟨by simp, rfl⟩ rfl hwf]
  exact .caught hasks' hbody'

/-! ### Loops -/

theorem whileLoop {test : Node} (hinside : ending ≠ .continues none)
    (hloop : machine.Redirects redirection hidden
      (.check (.test .absent test .absent) labels body) s ending t) :
    machine.Redirects redirection hidden (.stmt labels (.mk .whileStmt span [test, body])) s
      ending.unbroken t := by
  intro ctx s' hready hagree
  obtain ⟨hlabels, hwf, hblind⟩ := hready
  obtain ⟨t', hloop', hagree'⟩ := hloop { ctx with inLoop := true }
    ⟨hlabels, rfl, Guard.isBlind_condition (hblind.part (by simp)),
      Node.isWellFormed_part hwf (by simp), hblind.part (by simp)⟩ hagree
  refine ⟨t', ?_, hagree'⟩
  rw [Phase.redirect, Node.redirect_head redirection ctx rfl rfl ⟨by simp, rfl⟩ rfl hwf,
    ← Ending.unbroken_encoded_loop machine redirection.options hinside]
  exact .whileLoop hloop'

theorem doLoop {test : Node} (hinside : ending ≠ .continues none)
    (hloop : machine.Redirects redirection hidden
      (.round (.test .absent test .absent) labels body) s ending t) :
    machine.Redirects redirection hidden (.stmt labels (.mk .doWhileStmt span [test, body])) s
      ending.unbroken t := by
  intro ctx s' hready hagree
  obtain ⟨hlabels, hwf, hblind⟩ := hready
  obtain ⟨t', hloop', hagree'⟩ := hloop { ctx with inLoop := true }
    ⟨hlabels, rfl, Guard.isBlind_condition (hblind.part (by simp)),
      Node.isWellFormed_part hwf (by simp), hblind.part (by simp)⟩ hagree
  refine ⟨t', ?_, hagree'⟩
  rw [Phase.redirect, Node.redirect_head redirection ctx rfl rfl ⟨by simp, rfl⟩ rfl hwf,
    ← Ending.unbroken_encoded_loop machine redirection.options hinside]
  exact .doLoop hloop'

theorem forLoop {init test update : Node} (hinside : ending ≠ .continues none)
    (hasks : machine.asks init.initRequests s = some (.value value, t))
    (hloop : machine.Redirects redirection hidden (.check (.test init test update) labels body) t
      ending u) :
    machine.Redirects redirection hidden
      (.stmt labels (.mk .forStmt span [init, test, update, body])) s ending.unbroken u := by
  intro ctx s' hready hagree
  obtain ⟨hlabels, hwf, hblind⟩ := hready
  have hinit : machine.IsBlindIn hidden init := hblind.part (by simp)
  have htest : machine.IsBlindIn hidden test := hblind.part (by simp)
  have hupdate : machine.IsBlindIn hidden update := hblind.part (by simp)
  obtain ⟨t', hasks', hagree'⟩ := Machine.asks_of_agreeOff hinit.initRequests hagree hasks
  obtain ⟨u', hloop', hagree''⟩ := hloop { ctx with inLoop := true }
    ⟨hlabels, rfl, Guard.isBlind_test (hinit.ifPresent rfl) (htest.ifPresent rfl)
      (hupdate.ifPresent rfl), Node.isWellFormed_part hwf (by simp), hblind.part (by simp)⟩ hagree'
  refine ⟨u', ?_, hagree''⟩
  rw [Phase.redirect, Node.redirect_forStmt redirection ctx hwf,
    ← Ending.unbroken_encoded_loop machine redirection.options hinside]
  exact .forLoop hasks' hloop'

theorem overLoop {left right : Node} (hform : form.isOver = true)
    (hinside : ending ≠ .continues none)
    (hasks : machine.asks [.start form right] s = some (.value value, t))
    (hloop : machine.Redirects redirection hidden (.check (.over form left value) labels body) t
      ending u) :
    machine.Redirects redirection hidden (.stmt labels (.mk form span [left, right, body])) s
      ending.unbroken u := by
  intro ctx s' hready hagree
  obtain ⟨hlabels, hwf, hblind⟩ := hready
  have hright : machine.IsBlindIn hidden right := hblind.part (by simp)
  obtain ⟨t', hasks', hagree'⟩ := Machine.asks_of_agreeOff
    (List.forall_mem_singleton.mpr (hright.self rfl)) hagree hasks
  obtain ⟨u', hloop', hagree''⟩ := hloop { ctx with inLoop := true }
    ⟨hlabels, rfl, Guard.isBlind_over (hblind.part (by simp)),
      Node.isWellFormed_part hwf (by simp), hblind.part (by simp)⟩ hagree'
  refine ⟨u', ?_, hagree''⟩
  rw [Phase.redirect, Node.redirect_overStmt redirection ctx (Form.over_of_isOver hform) hwf,
    JumpContext.enter_of_isLoop (Form.isLoop_of_isOver hform),
    ← Ending.unbroken_encoded_loop machine redirection.options hinside]
  exact .overLoop hform hasks' hloop'

theorem overNothing {left right : Node} (hform : form.isOver = true)
    (hasks : machine.asks [.start form right] s = some (.done, t)) :
    machine.Redirects redirection hidden (.stmt labels (.mk form span [left, right, body])) s
      .normal t := by
  intro ctx s' hready hagree
  obtain ⟨-, hwf, hblind⟩ := hready
  have hright : machine.IsBlindIn hidden right := hblind.part (by simp)
  obtain ⟨t', hasks', hagree'⟩ := Machine.asks_of_agreeOff
    (List.forall_mem_singleton.mpr (hright.self rfl)) hagree hasks
  refine ⟨t', ?_, hagree'⟩
  rw [Phase.redirect, Node.redirect_overStmt redirection ctx (Form.over_of_isOver hform) hwf]
  exact .overNothing hform hasks'

/-! ### The rounds of a loop -/

theorem testFails {init test update : Node}
    (hasks : machine.asks (test.ifPresent .eval) s = some (.value value, t))
    (htest : (test.isAbsent || machine.isTrue value) = false) :
    machine.Redirects redirection hidden (.check (.test init test update) labels body) s
      .normal t := by
  intro ctx s' hready hagree
  obtain ⟨-, -, hguard, -⟩ := hready
  obtain ⟨t', hasks', hagree'⟩ := Machine.asks_of_agreeOff hguard.requests hagree hasks
  exact ⟨t', .testFails hasks' htest, hagree'⟩

theorem testHolds {init test update : Node}
    (hasks : machine.asks (test.ifPresent .eval) s = some (.value value, t))
    (htest : (test.isAbsent || machine.isTrue value) = true)
    (hround : machine.Redirects redirection hidden (.round (.test init test update) labels body) t
      ending u) :
    machine.Redirects redirection hidden (.check (.test init test update) labels body) s
      ending u := by
  intro ctx s' hready hagree
  obtain ⟨t', hasks', hagree'⟩ := Machine.asks_of_agreeOff hready.2.2.1.requests hagree hasks
  obtain ⟨u', hround', hagree''⟩ := hround ctx hready hagree'
  exact ⟨u', .testHolds hasks' htest hround', hagree''⟩

variable {left : Node} {iterator : Value}

theorem exhausted (hasks : machine.asks [.next iterator] s = some (.done, t)) :
    machine.Redirects redirection hidden (.check (.over form left iterator) labels body) s
      .normal t := by
  intro ctx s' hready hagree
  obtain ⟨-, -, hguard, -⟩ := hready
  obtain ⟨t', hasks', hagree'⟩ := Machine.asks_of_agreeOff hguard.requests hagree hasks
  exact ⟨t', .exhausted hasks', hagree'⟩

theorem bound {result : Value} (hasks : machine.asks [.next iterator] s = some (.value value, t))
    (hbind : machine.asks [.bind left value] t = some (.value result, u))
    (hround : machine.Redirects redirection hidden (.round (.over form left iterator) labels body) u
      ending v) :
    machine.Redirects redirection hidden (.check (.over form left iterator) labels body) s
      ending v := by
  intro ctx s' hready hagree
  obtain ⟨t', hasks', hagree'⟩ := Machine.asks_of_agreeOff hready.2.2.1.requests hagree hasks
  obtain ⟨u', hbind', hagree''⟩ :=
    Machine.asks_of_agreeOff (hready.2.2.1.binds _) hagree' hbind
  obtain ⟨v', hround', hagreeV⟩ := hround ctx hready hagree''
  exact ⟨v', .bound hasks' hbind' hround', hagreeV⟩

theorem unbound {thrown : Value} {answer : Answer Value}
    (hasks : machine.asks [.next iterator] s = some (.value value, t))
    (hbind : machine.asks [.bind left value] t = some (.thrown thrown, u))
    (hclose : machine.asks (Guard.over form left iterator).close u = some (answer, v)) :
    machine.Redirects redirection hidden (.check (.over form left iterator) labels body) s
      (.throws thrown) v := by
  intro ctx s' hready hagree
  obtain ⟨-, -, hguard, -⟩ := hready
  obtain ⟨t', hasks', hagree'⟩ := Machine.asks_of_agreeOff hguard.requests hagree hasks
  obtain ⟨u', hbind', hagree''⟩ := Machine.asks_of_agreeOff (hguard.binds _) hagree' hbind
  obtain ⟨v', hclose', hagreeV⟩ := Machine.asks_of_agreeOff hguard.close hagree'' hclose
  exact ⟨v', .unbound hasks' hbind' hclose', hagreeV⟩

variable {guard : Guard Value}

theorem again {last : Ending Value}
    (hbody : machine.Redirects redirection hidden (.stmt [] body) s ending t)
    (hgoesOn : ending.goesOn labels = true)
    (hasks : machine.asks guard.update t = some (.value value, u))
    (hcheck : machine.Redirects redirection hidden (.check guard labels body) u last v) :
    machine.Redirects redirection hidden (.round guard labels body) s last v := by
  intro ctx s' hready hagree
  obtain ⟨hlabels, hloop, hguard, hwf, hblind⟩ := hready
  obtain ⟨t', hbody', hagree'⟩ := hbody ctx ⟨by simp, hwf, hblind⟩ hagree
  obtain ⟨u', hasks', hagree''⟩ := Machine.asks_of_agreeOff hguard.update hagree' hasks
  obtain ⟨v', hcheck', hagreeV⟩ := hcheck ctx ⟨hlabels, hloop, hguard, hwf, hblind⟩ hagree''
  have hgoesOn' := Ending.goesOn_encoded machine redirection.options hloop hlabels ending
  exact ⟨v', .again hbody' (hgoesOn'.trans hgoesOn) hasks' hcheck', hagreeV⟩

theorem updateThrown {thrown : Value}
    (hbody : machine.Redirects redirection hidden (.stmt [] body) s ending t)
    (hgoesOn : ending.goesOn labels = true)
    (hasks : machine.asks guard.update t = some (.thrown thrown, u)) :
    machine.Redirects redirection hidden (.round guard labels body) s (.throws thrown) u := by
  intro ctx s' hready hagree
  obtain ⟨hlabels, hloop, hguard, hwf, hblind⟩ := hready
  obtain ⟨t', hbody', hagree'⟩ := hbody ctx ⟨by simp, hwf, hblind⟩ hagree
  obtain ⟨u', hasks', hagree''⟩ := Machine.asks_of_agreeOff hguard.update hagree' hasks
  have hgoesOn' := Ending.goesOn_encoded machine redirection.options hloop hlabels ending
  exact ⟨u', .updateThrown hbody' (hgoesOn'.trans hgoesOn) hasks', hagree''⟩

theorem leaves {answer : Answer Value}
    (hbody : machine.Redirects redirection hidden (.stmt [] body) s ending t)
    (hgoesOn : ending.goesOn labels = false)
    (hclose : machine.asks guard.close t = some (answer, u)) :
    machine.Redirects redirection hidden (.round guard labels body) s (ending.closed answer) u := by
  intro ctx s' hready hagree
  obtain ⟨hlabels, hloop, hguard, hwf, hblind⟩ := hready
  obtain ⟨t', hbody', hagree'⟩ := hbody ctx ⟨by simp, hwf, hblind⟩ hagree
  obtain ⟨u', hclose', hagree''⟩ := Machine.asks_of_agreeOff hguard.close hagree' hclose
  have hgoesOn' := Ending.goesOn_encoded machine redirection.options hloop hlabels ending
  refine ⟨u', ?_, hagree''⟩
  rw [← Ending.closed_encoded machine redirection.options]
  exact .left hbody' (hgoesOn'.trans hgoesOn) hclose'

end Machine.Redirects

/-- After its jumps are replaced a body ends as its ending says, and the stores agree off the
hidden variables. -/
theorem Runs.redirect (hemits : machine.Emits known) (redirection : Redirection)
    (hkey : redirection.options.returnKey ≠ "__proto__")
    (hback : ∀ s : Store Value World, ∃ t,
      Runs machine (.stmts redirection.writeBack) s .normal t ∧ s.AgreeOff hidden t)
    {phase : Phase Value} {s t : Store Value World} {ending : Ending Value}
    (h : Runs machine phase s ending t) :
    machine.Redirects redirection hidden phase s ending t := by
  induction h with
  | thrown hasks =>
      exact fun _ _ hready hagree => Runs.redirect_thrown hemits hkey hready hagree hasks
  | nil => exact fun _ s' _ hagree => ⟨s', .nil, hagree⟩
  | cons _ _ hfirst hrest => exact .cons hfirst hrest
  | stop _ habrupt hfirst => exact .stop hfirst habrupt
  | idle hform => exact .idle hform
  | block _ hstmts => exact .block hstmts
  | expr hasks => exact .expr hasks
  | declared hform hasks => exact .declared hform hasks
  | returned hasks => exact .returned hemits hkey hasks
  | threw hasks => exact .threw hasks
  | broke => exact .broke hemits
  | continued => exact .continued hback
  | chose hasks _ hbranch => exact .chose hasks hbranch
  | labeled _ hloop hbody => exact .labeled hbody hloop
  | switched hasks hselect _ hstmts => exact .switched hasks hselect hstmts
  | switchThrown hasks hselect => exact .switchThrown hasks hselect
  | tried _ _ _ hblock hhandler hfinalizer => exact .tried hblock hhandler hfinalizer
  | passed hpass => exact .passed hpass
  | caught hasks _ hbody => exact .caught hasks hbody
  | whileLoop hrun hloop => exact .whileLoop (hrun.ne_continues rfl) hloop
  | doLoop hrun hloop => exact .doLoop (hrun.ne_continues rfl) hloop
  | forLoop hasks hrun hloop => exact .forLoop (hrun.ne_continues rfl) hasks hloop
  | overLoop hform hasks hrun hloop => exact .overLoop hform (hrun.ne_continues rfl) hasks hloop
  | overNothing hform hasks => exact .overNothing hform hasks
  | testFails hasks htest => exact .testFails hasks htest
  | testHolds hasks htest _ hround => exact .testHolds hasks htest hround
  | exhausted hasks => exact .exhausted hasks
  | bound hasks hbind _ hround => exact .bound hasks hbind hround
  | unbound hasks hbind hclose => exact .unbound hasks hbind hclose
  | again _ hgoesOn hasks _ hbody hcheck => exact .again hbody hgoesOn hasks hcheck
  | updateThrown _ hgoesOn hasks hbody => exact .updateThrown hbody hgoesOn hasks
  | left _ hgoesOn hclose hbody => exact .leaves hbody hgoesOn hclose

end Points

end LoopLowering
