/-
Running statements.

What a statement does is said for an arbitrary machine.  Expressions, declarations and the
steps of an iterator are requests, and the machine answers a request in a store with a
value or a thrown value and with the store that is left; it may also give no answer at
all.  How statements make use of the answers is the same for all machines: the rules of
`Runs` are those of the language standard, one for each way a statement can go on.

A `using` declaration, whose resource is disposed of later, a namespace and a `with` have
no rule, and a `continue` to the label of a statement that is not a loop has none either.
-/
import LoopLowering.Completion
import LoopLowering.Loop
import LoopLowering.Tree.Emit
import Mathlib.Logic.Function.Basic

namespace LoopLowering

/-! ### Machines -/

/-- The variables, and everything else there is. -/
structure Store (Value World : Type) where
  vars : String → Value
  world : World

/-- Give a variable a value. -/
def Store.set {Value World : Type} (store : Store Value World) (name : String) (value : Value) :
    Store Value World :=
  { store with vars := Function.update store.vars name value }

@[simp] theorem Store.vars_set {Value World : Type} (store : Store Value World) (name : String)
    (value : Value) : (store.set name value).vars name = value := by
  simp [Store.set]

theorem Store.vars_set_of_ne {Value World : Type} {name other : String} (h : other ≠ name)
    (store : Store Value World) (value : Value) :
    (store.set name value).vars other = store.vars other := by
  simp [Store.set, Function.update_of_ne h]

/-- What a statement asks of the machine. -/
inductive Request (Value : Type) where
  /-- Evaluate an expression. -/
  | eval (expr : Node)
  /-- Run a declaration, its initialisers included. -/
  | declare (decl : Node)
  /-- Give a value to a pattern or a declaration in the head of a loop. -/
  | bind (target : Node) (value : Value)
  /-- Give the next round of a loop its own copy of what the head declares. -/
  | renew (head : Node)
  /-- Evaluate an expression and start to go over its keys or values. -/
  | start (form : Form) (expr : Node)
  /-- The next key or value. -/
  | next (iterator : Value)
  /-- Stop before the end. -/
  | close (iterator : Value)

/-- What the machine answers. -/
inductive Answer (Value : Type) where
  | value (value : Value)
  /-- There is no next value. -/
  | done
  | thrown (value : Value)

/-- A machine that answers requests. -/
structure Machine (Value World : Type) where
  undefined : Value
  string : String → Value
  /-- The object that holds a value under a key. -/
  box : String → Value → Value
  isTrue : Value → Bool
  /-- Whether a value selects the case of another. -/
  same : Value → Value → Bool
  answer : Request Value → Store Value World → Option (Answer Value × Store Value World)

variable {Value World : Type}

/-- Answer requests in order, up to the first that throws. -/
def Machine.answers (machine : Machine Value World) :
    Answer Value → List (Request Value) → Store Value World →
      Option (Answer Value × Store Value World)
  | last, [], store => some (last, store)
  | _, request :: requests, store =>
    match machine.answer request store with
    | some (.thrown value, store) => some (.thrown value, store)
    | some (answer, store) => machine.answers answer requests store
    | none => none

/-- Answer requests in order, the undefined value if there are none. -/
def Machine.asks (machine : Machine Value World) (requests : List (Request Value))
    (store : Store Value World) : Option (Answer Value × Store Value World) :=
  machine.answers (.value machine.undefined) requests store

/-! ### What lowering emits -/

/-- The answer with its value put into an object. -/
def Answer.boxed (machine : Machine Value World) (key : String) : Answer Value → Answer Value
  | .value result => .value (machine.box key result)
  | answer => answer

/-- The machine knows the constructs that lowering emits, as far as they are about the
given variables.  The key `__proto__` of an object literal does not make a property. -/
structure Machine.Emits (machine : Machine Value World) (known : List String) : Prop where
  eval_string : ∀ text span s,
    machine.answer (.eval (.stringLit text span)) s = some (.value (machine.string text), s)
  eval_undefined : ∀ span s,
    machine.answer (.eval (.undefined span)) s = some (.value machine.undefined, s)
  eval_object : ∀ key expr span s, key ≠ "__proto__" →
    machine.answer (.eval (.objectOf key expr span)) s =
      (machine.answer (.eval expr) s).map fun (answer, t) => (answer.boxed machine key, t)
  isTrue_object : ∀ key expr span s t value,
    machine.answer (.eval (.objectOf key expr span)) s = some (.value value, t) →
    machine.isTrue value = true
  eval_use : ∀ name ∈ known, ∀ span s,
    machine.answer (.eval (.use name span)) s = some (.value (s.vars name), s)
  eval_member : ∀ name ∈ known, ∀ key value span s, key ≠ "__proto__" →
    s.vars name = machine.box key value →
    machine.answer (.eval (.memberOf (.use name span) key span)) s = some (.value value, s)
  eval_strictEq : ∀ name ∈ known, ∀ text span s, ∃ value,
    machine.answer (.eval (.strictEq (.use name span) (.stringLit text span) span)) s =
      some (.value value, s) ∧
    (machine.isTrue value = true ↔ s.vars name = machine.string text)
  eval_assign : ∀ target ∈ known, ∀ name ∈ known, ∀ span s,
    machine.answer (.eval (.assignTo target (.use name span) span)) s =
      some (.value (s.vars name), s.set target (s.vars name))
  declare_var : ∀ name ∈ known, ∀ expr span s t value,
    machine.answer (.eval expr) s = some (.value value, t) →
    machine.answer (.declare (.varStmt span [(name, expr)])) s =
      some (.value machine.undefined, t.set name value)
  declare_thrown : ∀ name ∈ known, ∀ expr span s t value,
    machine.answer (.eval expr) s = some (.thrown value, t) →
    machine.answer (.declare (.varStmt span [(name, expr)])) s = some (.thrown value, t)
  isTrue_undefined : machine.isTrue machine.undefined = false
  isTrue_box : ∀ key value, machine.isTrue (machine.box key value) = true
  string_ne_undefined : ∀ text, machine.string text ≠ machine.undefined
  string_ne_box : ∀ text key value, machine.string text ≠ machine.box key value

/-! ### How statements end -/

/-- How a statement ends. -/
inductive Ending (Value : Type) where
  | normal
  | breaks (label : Option Name)
  | continues (label : Option Name)
  | returns (value : Value)
  | throws (value : Value)

namespace Ending

/-- Whether a loop with the given labels goes on after a round that ended so. -/
def goesOn (labels : List String) : Ending Value → Bool
  | normal => true
  | continues none => true
  | continues (some label) => decide (label.text ∈ labels)
  | _ => false

/-- How a loop or a `switch` ends whose parts ended so. -/
def unbroken : Ending Value → Ending Value
  | breaks none => normal
  | ending => ending

/-- How a labelled statement ends whose body ended so. -/
def unlabeled (label : String) : Ending Value → Ending Value
  | breaks (some target) => if target.text = label then normal else breaks (some target)
  | ending => ending

/-- Whether the statement continues at a label. -/
def continuesAt (label : String) : Ending Value → Bool
  | continues (some target) => decide (target.text = label)
  | _ => false

/-- How a loop ends that ended so and then closed its iterator. -/
def closed (answer : Answer Value) : Ending Value → Ending Value
  | throws value => throws value
  | ending =>
    match answer with
    | .thrown value => throws value
    | _ => ending

/-- How a `try` ends that ended so before its finalizer ended. -/
def finalized (ending : Ending Value) : (last : Ending Value) → Ending Value
  | normal => ending
  | last => last

/-- What a call answers when the body of the function ended so. -/
def answer? (machine : Machine Value World) : Ending Value → Option (Answer Value)
  | normal => some (.value machine.undefined)
  | returns value => some (.value value)
  | throws value => some (.thrown value)
  | _ => none

end Ending

/-! ### What is asked first -/

/-- A request for a part that may be missing. -/
def Node.ifPresent (part : Node) (request : Node → Request Value) : List (Request Value) :=
  if part.isAbsent then [] else [request part]

/-- Whether nodes of the form are declarations that are run by the machine. -/
def Form.isDeclared : Form → Bool
  | .varDecl _ _ | .functionDecl _ | .classDecl _ | .enumDecl => true
  | _ => false

/-- Whether statements of the form do nothing. -/
def Form.isIdle : Form → Bool
  | .absent | .empty | .debugger => true
  | _ => false

/-- Whether statements of the form go over keys or values. -/
def Form.isOver : Form → Bool
  | .forInStmt | .forOfStmt _ => true
  | _ => false

/-- The requests for the first part of a plain loop head. -/
def Node.initRequests (init : Node) : List (Request Value) :=
  init.ifPresent (if init.form.isDeclared then .declare else .eval) ++ init.ifPresent .renew

/-- What a statement asks before anything else. -/
def Node.requests : Node → List (Request Value)
  | .mk .exprStmt _ [expr] => [.eval expr]
  | .mk .returnStmt _ [expr] => expr.ifPresent .eval
  | .mk .throwStmt _ [expr] => [.eval expr]
  | .mk .ifStmt _ [test, _, _] => [.eval test]
  | .mk .switchStmt _ [scrutinee, _] => [.eval scrutinee]
  | .mk .forStmt _ [init, _, _, _] => init.initRequests
  | .mk .forInStmt _ [_, right, _] => [.start .forInStmt right]
  | .mk (.forOfStmt isAwait) _ [_, right, _] => [.start (.forOfStmt isAwait) right]
  | node => if node.form.isDeclared then [.declare node] else []

/-- What the handler of a `try` asks first, if it is to handle anything. -/
def Node.handlerRequests : Node → Ending Value → List (Request Value)
  | .mk .catchClause _ [param, _], .throws value => param.ifPresent (.bind · value)
  | _, _ => []

/-- What decides whether a loop has another round. -/
inductive Guard (Value : Type) where
  /-- A test, with the declaration to renew and the update to make after a round. -/
  | test (init test update : Node)
  /-- The next value of an iterator, which goes to the left side of the head. -/
  | over (form : Form) (left : Node) (iterator : Value)

namespace Guard

/-- What is asked before a round. -/
def requests : Guard Value → List (Request Value)
  | .test _ condition _ => condition.ifPresent .eval
  | .over _ _ iterator => [.next iterator]

/-- What is asked after a round. -/
def update : Guard Value → List (Request Value)
  | .test init _ step => init.ifPresent .renew ++ step.ifPresent .eval
  | .over _ _ _ => []

/-- What is asked when the loop is left early. -/
def close : Guard Value → List (Request Value)
  | .over (.forOfStmt _) _ iterator => [.close iterator]
  | _ => []

end Guard

/-- A point in the run of statements. -/
inductive Phase (Value : Type) where
  /-- Before a statement under the given labels. -/
  | stmt (labels : List String) (node : Node)
  /-- Before statements in a row. -/
  | stmts (nodes : List Node)
  /-- Before it is decided whether a loop has another round. -/
  | check (guard : Guard Value) (labels : List String) (body : Node)
  /-- Before a round of a loop. -/
  | round (guard : Guard Value) (labels : List String) (body : Node)
  /-- After the block of a `try`, with its handler. -/
  | handling (handler : Node) (ending : Ending Value)

/-- What is asked at a point before anything else. -/
def Phase.requests : Phase Value → List (Request Value)
  | stmt _ node => node.requests
  | stmts _ => []
  | check guard _ _ => guard.requests
  | round _ _ _ => []
  | handling handler ending => handler.handlerRequests ending

/-! ### The cases of a `switch` -/

/-- The statements of a case. -/
def Node.caseStmts : Node → List Node
  | .mk .switchCase _ [_, .mk .caseBody _ stmts] => stmts
  | _ => []

/-- The cases from the selected one on, or a thrown value.  Tests are made in order, and
the default, here given by the cases from it on, is chosen when none of them succeeds. -/
def Machine.select (machine : Machine Value World) (value : Value) :
    (default : List Node) → List Node → Store Value World →
      Option (Except Value (List Node) × Store Value World)
  | default, [], store => some (.ok default, store)
  | default, .mk .switchCase span [test, body] :: cases, store =>
    if test.isAbsent then
      machine.select value (.mk .switchCase span [test, body] :: cases) cases store
    else match machine.answer (.eval test) store with
      | some (.value other, store) =>
        if machine.same value other then
          some (.ok (.mk .switchCase span [test, body] :: cases), store)
        else machine.select value default cases store
      | some (.thrown thrown, store) => some (.error thrown, store)
      | _ => none
  | _, _ :: _, _ => none

/-! ### Runs -/

/-- From a point and a store, the machine gets to an ending and another store. -/
inductive Runs (machine : Machine Value World) :
    Phase Value → Store Value World → Ending Value → Store Value World → Prop
  | thrown {phase : Phase Value} {s t : Store Value World} {value : Value}
      (hasks : machine.asks phase.requests s = some (.thrown value, t)) :
      Runs machine phase s (.throws value) t
  -- Statements in a row
  | nil {s : Store Value World} : Runs machine (.stmts []) s .normal s
  | cons {node : Node} {nodes : List Node} {s t u : Store Value World} {ending : Ending Value}
      (hfirst : Runs machine (.stmt [] node) s .normal t)
      (hrest : Runs machine (.stmts nodes) t ending u) :
      Runs machine (.stmts (node :: nodes)) s ending u
  | stop {node : Node} {nodes : List Node} {s t : Store Value World} {ending : Ending Value}
      (hfirst : Runs machine (.stmt [] node) s ending t) (habrupt : ending ≠ .normal) :
      Runs machine (.stmts (node :: nodes)) s ending t
  -- Single statements
  | idle {labels : List String} {form : Form} {span : Span} {parts : List Node}
      {s : Store Value World} (hform : form.isIdle = true) :
      Runs machine (.stmt labels (.mk form span parts)) s .normal s
  | block {labels : List String} {span : Span} {stmts : List Node} {s t : Store Value World}
      {ending : Ending Value} (hstmts : Runs machine (.stmts stmts) s ending t) :
      Runs machine (.stmt labels (.mk .block span stmts)) s ending t
  | expr {labels : List String} {span : Span} {expr : Node}
    {s t : Store Value World} {value : Value}
      (hasks : machine.asks [.eval expr] s = some (.value value, t)) :
      Runs machine (.stmt labels (.mk .exprStmt span [expr])) s .normal t
  | declared {labels : List String} {form : Form} {span : Span} {parts : List Node}
      {s t : Store Value World} {value : Value} (hform : form.isDeclared = true)
      (hasks : machine.asks [.declare (.mk form span parts)] s = some (.value value, t)) :
      Runs machine (.stmt labels (.mk form span parts)) s .normal t
  | returned {labels : List String} {span : Span} {expr : Node} {s t : Store Value World}
      {value : Value} (hasks : machine.asks (expr.ifPresent .eval) s = some (.value value, t)) :
      Runs machine (.stmt labels (.mk .returnStmt span [expr])) s (.returns value) t
  | threw {labels : List String} {span : Span} {expr : Node} {s t : Store Value World}
      {value : Value} (hasks : machine.asks [.eval expr] s = some (.value value, t)) :
      Runs machine (.stmt labels (.mk .throwStmt span [expr])) s (.throws value) t
  | broke {labels : List String} {label : Option Name} {span : Span} {parts : List Node}
      {s : Store Value World} :
      Runs machine (.stmt labels (.mk (.breakStmt label) span parts)) s (.breaks label) s
  | continued {labels : List String} {label : Option Name} {span : Span} {parts : List Node}
      {s : Store Value World} :
      Runs machine (.stmt labels (.mk (.continueStmt label) span parts)) s (.continues label) s
  | chose {labels : List String} {span : Span} {test consequent alternative : Node}
      {s t u : Store Value World} {value : Value} {ending : Ending Value}
      (hasks : machine.asks [.eval test] s = some (.value value, t))
      (hbranch : Runs machine
        (.stmt [] (if machine.isTrue value then consequent else alternative)) t ending u) :
      Runs machine (.stmt labels (.mk .ifStmt span [test, consequent, alternative])) s ending u
  | labeled {labels : List String} {label : Name} {span : Span} {body : Node}
      {s t : Store Value World} {ending : Ending Value}
      (hbody : Runs machine (.stmt (label.text :: labels) body) s ending t)
      (hloop : ending.continuesAt label.text = false) :
      Runs machine (.stmt labels (.mk (.labeled label) span [body])) s
        (ending.unlabeled label.text) t
  | switched {labels : List String} {span listSpan : Span} {scrutinee : Node}
    {cases chosen : List Node}
      {s t u v : Store Value World} {value : Value} {ending : Ending Value}
      (hasks : machine.asks [.eval scrutinee] s = some (.value value, t))
      (hselect : machine.select value [] cases t = some (.ok chosen, u))
      (hstmts : Runs machine (.stmts (chosen.flatMap Node.caseStmts)) u ending v) :
      Runs machine (.stmt labels (.mk .switchStmt span [scrutinee, .mk .list listSpan cases])) s
        ending.unbroken v
  | switchThrown {labels : List String} {span listSpan : Span} {scrutinee : Node}
    {cases : List Node}
      {s t u : Store Value World} {value thrown : Value}
      (hasks : machine.asks [.eval scrutinee] s = some (.value value, t))
      (hselect : machine.select value [] cases t = some (.error thrown, u)) :
      Runs machine (.stmt labels (.mk .switchStmt span [scrutinee, .mk .list listSpan cases])) s
        (.throws thrown) u
  | tried {labels : List String} {span : Span} {block handler finalizer : Node}
      {s t u v : Store Value World} {ending caught last : Ending Value}
      (hblock : Runs machine (.stmt [] block) s ending t)
      (hhandler : Runs machine (.handling handler ending) t caught u)
      (hfinalizer : Runs machine (.stmt [] finalizer) u last v) :
      Runs machine (.stmt labels (.mk .tryStmt span [block, handler, finalizer])) s
        (caught.finalized last) v
  | passed {handler : Node} {s : Store Value World} {ending : Ending Value}
      (hpass : handler.isAbsent = true ∨ ∀ value, ending ≠ .throws value) :
      Runs machine (.handling handler ending) s ending s
  | caught {span : Span} {param body : Node} {s t u : Store Value World} {thrown value : Value}
      {ending : Ending Value}
      (hasks : machine.asks (param.ifPresent (.bind · thrown)) s = some (.value value, t))
      (hbody : Runs machine (.stmt [] body) t ending u) :
      Runs machine (.handling (.mk .catchClause span [param, body]) (.throws thrown)) s ending u
  -- Loops
  | whileLoop {labels : List String} {span : Span} {test body : Node} {s t : Store Value World}
      {ending : Ending Value}
      (hloop : Runs machine (.check (.test .absent test .absent) labels body) s ending t) :
      Runs machine (.stmt labels (.mk .whileStmt span [test, body])) s ending.unbroken t
  | doLoop {labels : List String} {span : Span} {test body : Node} {s t : Store Value World}
      {ending : Ending Value}
      (hloop : Runs machine (.round (.test .absent test .absent) labels body) s ending t) :
      Runs machine (.stmt labels (.mk .doWhileStmt span [test, body])) s ending.unbroken t
  | forLoop {labels : List String} {span : Span} {init test update body : Node}
      {s t u : Store Value World} {value : Value} {ending : Ending Value}
      (hasks : machine.asks init.initRequests s = some (.value value, t))
      (hloop : Runs machine (.check (.test init test update) labels body) t ending u) :
      Runs machine (.stmt labels (.mk .forStmt span [init, test, update, body])) s
        ending.unbroken u
  | overLoop {labels : List String} {form : Form} {span : Span} {left right body : Node}
      {s t u : Store Value World} {iterator : Value} {ending : Ending Value}
      (hform : form.isOver = true)
      (hasks : machine.asks [.start form right] s = some (.value iterator, t))
      (hloop : Runs machine (.check (.over form left iterator) labels body) t ending u) :
      Runs machine (.stmt labels (.mk form span [left, right, body])) s ending.unbroken u
  | overNothing {labels : List String} {form : Form} {span : Span} {left right body : Node}
      {s t : Store Value World} (hform : form.isOver = true)
      (hasks : machine.asks [.start form right] s = some (.done, t)) :
      Runs machine (.stmt labels (.mk form span [left, right, body])) s .normal t
  | testFails {init test update body : Node} {labels : List String} {s t : Store Value World}
      {value : Value} (hasks : machine.asks (test.ifPresent .eval) s = some (.value value, t))
      (htest : (test.isAbsent || machine.isTrue value) = false) :
      Runs machine (.check (.test init test update) labels body) s .normal t
  | testHolds {init test update body : Node} {labels : List String} {s t u : Store Value World}
      {value : Value} {ending : Ending Value}
      (hasks : machine.asks (test.ifPresent .eval) s = some (.value value, t))
      (htest : (test.isAbsent || machine.isTrue value) = true)
      (hround : Runs machine (.round (.test init test update) labels body) t ending u) :
      Runs machine (.check (.test init test update) labels body) s ending u
  | exhausted {form : Form} {left body : Node} {iterator : Value} {labels : List String}
      {s t : Store Value World} (hasks : machine.asks [.next iterator] s = some (.done, t)) :
      Runs machine (.check (.over form left iterator) labels body) s .normal t
  | bound {form : Form} {left body : Node} {iterator value result : Value} {labels : List String}
      {s t u v : Store Value World} {ending : Ending Value}
      (hasks : machine.asks [.next iterator] s = some (.value value, t))
      (hbind : machine.asks [.bind left value] t = some (.value result, u))
      (hround : Runs machine (.round (.over form left iterator) labels body) u ending v) :
      Runs machine (.check (.over form left iterator) labels body) s ending v
  | unbound {form : Form} {left body : Node} {iterator value thrown : Value} {labels : List String}
      {s t u v : Store Value World} {answer : Answer Value}
      (hasks : machine.asks [.next iterator] s = some (.value value, t))
      (hbind : machine.asks [.bind left value] t = some (.thrown thrown, u))
      (hclose : machine.asks (Guard.over form left iterator).close u = some (answer, v)) :
      Runs machine (.check (.over form left iterator) labels body) s (.throws thrown) v
  | again {guard : Guard Value} {labels : List String} {body : Node} {s t u v : Store Value World}
      {value : Value} {ending last : Ending Value}
      (hbody : Runs machine (.stmt [] body) s ending t) (hgoesOn : ending.goesOn labels = true)
      (hasks : machine.asks guard.update t = some (.value value, u))
      (hcheck : Runs machine (.check guard labels body) u last v) :
      Runs machine (.round guard labels body) s last v
  | updateThrown {guard : Guard Value} {labels : List String} {body : Node}
      {s t u : Store Value World} {thrown : Value} {ending : Ending Value}
      (hbody : Runs machine (.stmt [] body) s ending t) (hgoesOn : ending.goesOn labels = true)
      (hasks : machine.asks guard.update t = some (.thrown thrown, u)) :
      Runs machine (.round guard labels body) s (.throws thrown) u
  | left {guard : Guard Value} {labels : List String} {body : Node} {s t u : Store Value World}
      {answer : Answer Value} {ending : Ending Value}
      (hbody : Runs machine (.stmt [] body) s ending t) (hgoesOn : ending.goesOn labels = false)
      (hclose : machine.asks guard.close t = some (answer, u)) :
      Runs machine (.round guard labels body) s (ending.closed answer) u

/-! ### Runs are determined -/

theorem Form.isIdle_disjoint {form : Form} (h : form.isIdle = true) :
    form.isDeclared = false ∧ form.isOver = false := by
  unfold Form.isIdle at h
  split at h
  · exact ⟨rfl, rfl⟩
  · exact ⟨rfl, rfl⟩
  · exact ⟨rfl, rfl⟩
  · cases h

theorem Form.isDeclared_disjoint {form : Form} (h : form.isDeclared = true) :
    form.isOver = false := by
  unfold Form.isDeclared at h
  split at h
  · rfl
  · rfl
  · rfl
  · rfl
  · cases h

theorem Node.requests_of_isIdle {form : Form} {span : Span} {parts : List Node}
    (h : form.isIdle = true) :
    ((Node.mk form span parts).requests : List (Request Value)) = [] := by
  unfold Form.isIdle at h
  split at h
  · rfl
  · rfl
  · rfl
  · cases h

theorem Node.requests_of_isDeclared {form : Form} {span : Span} {parts : List Node}
    (h : form.isDeclared = true) :
    ((Node.mk form span parts).requests : List (Request Value)) =
      [.declare (.mk form span parts)] := by
  unfold Form.isDeclared at h
  split at h
  · rfl
  · rfl
  · rfl
  · rfl
  · cases h

theorem Node.requests_of_isOver {form : Form} {span : Span} {left right body : Node}
    (h : form.isOver = true) :
    ((Node.mk form span [left, right, body]).requests : List (Request Value)) =
      [.start form right] := by
  unfold Form.isOver at h
  split at h
  · rfl
  · rfl
  · cases h

theorem Node.handlerRequests_eq_nil {handler : Node} {ending : Ending Value}
    (h : handler.isAbsent = true ∨ ∀ value, ending ≠ .throws value) :
    handler.handlerRequests ending = [] := by
  unfold Node.handlerRequests
  split
  · next value =>
    rcases h with habsent | hending
    · cases habsent
    · exact absurd rfl (hending value)
  · rfl

/-- Where what is asked first throws, nothing else can happen. -/
theorem Runs.eq_of_asks_thrown {machine : Machine Value World} {phase : Phase Value}
    {s t u : Store Value World} {ending : Ending Value} {value : Value}
    (h : Runs machine phase s ending t)
    (hasks : machine.asks phase.requests s = some (.thrown value, u)) :
    ending = .throws value ∧ t = u := by
  cases h with
  | thrown h =>
      cases h.symm.trans hasks
      exact ⟨rfl, rfl⟩
  | nil | cons | stop | block | broke | continued | labeled | tried | whileLoop | doLoop | again
  | updateThrown | left => cases hasks
  | idle hform =>
      rw [Phase.requests, Node.requests_of_isIdle hform] at hasks
      cases hasks
  | declared hform h =>
      rw [Phase.requests, Node.requests_of_isDeclared hform] at hasks
      cases h.symm.trans hasks
  | overLoop hform h | overNothing hform h =>
      rw [Phase.requests, Node.requests_of_isOver hform] at hasks
      cases h.symm.trans hasks
  | expr h | returned h | threw h | chose h | switched h | switchThrown h | caught h | forLoop h
  | testFails h | testHolds h | exhausted h | bound h | unbound h => cases h.symm.trans hasks
  | passed hpass =>
      rw [Phase.requests, Node.handlerRequests_eq_nil hpass] at hasks
      cases hasks

/-- A machine that gets anywhere from the point and the store gets to this ending and this store. -/
def Machine.Settles (machine : Machine Value World) (phase : Phase Value)
    (s : Store Value World) (ending : Ending Value) (t : Store Value World) : Prop :=
  ∀ ⦃ending' t'⦄, Runs machine phase s ending' t' → ending' = ending ∧ t' = t

namespace Machine.Settles

variable {machine : Machine Value World} {s t u v : Store Value World} {ending : Ending Value}
  {labels : List String} {form : Form} {span : Span} {node body : Node} {value : Value}

/-! ### Statements in a row -/

theorem cons {nodes : List Node} (hfirst : machine.Settles (.stmt [] node) s .normal t)
    (hrest : machine.Settles (.stmts nodes) t ending u) :
    machine.Settles (.stmts (node :: nodes)) s ending u := by
  intro ending' u' h
  cases h with
  | thrown hasks => cases hasks
  | cons hfirst' hrest' =>
      obtain ⟨-, rfl⟩ := hfirst hfirst'
      exact hrest hrest'
  | stop hfirst' habrupt => exact absurd (hfirst hfirst').1 habrupt

theorem stop {nodes : List Node} (hfirst : machine.Settles (.stmt [] node) s ending t)
    (habrupt : ending ≠ .normal) : machine.Settles (.stmts (node :: nodes)) s ending t := by
  intro ending' t' h
  cases h with
  | thrown hasks => cases hasks
  | cons hfirst' => exact absurd (hfirst hfirst').1.symm habrupt
  | stop hfirst' => exact hfirst hfirst'

/-! ### Statements that end at once -/

theorem idle {parts : List Node} (hform : form.isIdle = true) :
    machine.Settles (.stmt labels (.mk form span parts)) s .normal s := by
  intro ending' t' h
  cases h with
  | thrown hasks =>
      rw [Phase.requests, Node.requests_of_isIdle hform] at hasks
      cases hasks
  | idle => exact ⟨rfl, rfl⟩
  | declared hform' => cases (Form.isIdle_disjoint hform).1.symm.trans hform'
  | overLoop hform' | overNothing hform' => cases (Form.isIdle_disjoint hform).2.symm.trans hform'
  | block | expr | returned | threw | broke | continued | chose | labeled | switched
  | switchThrown | tried | whileLoop | doLoop | forLoop => cases hform

theorem declared {parts : List Node} (hform : form.isDeclared = true)
    (hasks : machine.asks [.declare (.mk form span parts)] s = some (.value value, t)) :
    machine.Settles (.stmt labels (.mk form span parts)) s .normal t := by
  intro ending' t' h
  cases h with
  | thrown hasks' =>
      rw [Phase.requests, Node.requests_of_isDeclared hform] at hasks'
      cases hasks.symm.trans hasks'
  | idle hform' => cases (Form.isIdle_disjoint hform').1.symm.trans hform
  | overLoop hform' | overNothing hform' =>
      cases (Form.isDeclared_disjoint hform).symm.trans hform'
  | declared _ hasks' =>
      cases hasks.symm.trans hasks'
      exact ⟨rfl, rfl⟩
  | block | expr | returned | threw | broke | continued | chose | labeled | switched
  | switchThrown | tried | whileLoop | doLoop | forLoop => cases hform

theorem expr (hasks : machine.asks [.eval node] s = some (.value value, t)) :
    machine.Settles (.stmt labels (.mk .exprStmt span [node])) s .normal t := by
  intro ending' t' h
  cases h with
  | thrown hasks' => cases hasks.symm.trans hasks'
  | expr hasks' =>
      cases hasks.symm.trans hasks'
      exact ⟨rfl, rfl⟩
  | idle hform | declared hform => cases hform

theorem broke {label : Option Name} {parts : List Node} :
    machine.Settles (.stmt labels (.mk (.breakStmt label) span parts)) s (.breaks label) s := by
  intro ending' t' h
  cases h with
  | thrown hasks => cases hasks
  | broke => exact ⟨rfl, rfl⟩
  | idle hform | declared hform | overLoop hform | overNothing hform => cases hform

theorem continued {label : Option Name} {parts : List Node} :
    machine.Settles (.stmt labels (.mk (.continueStmt label) span parts)) s
      (.continues label) s := by
  intro ending' t' h
  cases h with
  | thrown hasks => cases hasks
  | continued => exact ⟨rfl, rfl⟩
  | idle hform | declared hform | overLoop hform | overNothing hform => cases hform

theorem returned (hasks : machine.asks (node.ifPresent .eval) s = some (.value value, t)) :
    machine.Settles (.stmt labels (.mk .returnStmt span [node])) s (.returns value) t := by
  intro ending' t' h
  cases h with
  | thrown hasks' => cases hasks.symm.trans hasks'
  | returned hasks' =>
      cases hasks.symm.trans hasks'
      exact ⟨rfl, rfl⟩
  | idle hform | declared hform => cases hform

theorem threw (hasks : machine.asks [.eval node] s = some (.value value, t)) :
    machine.Settles (.stmt labels (.mk .throwStmt span [node])) s (.throws value) t := by
  intro ending' t' h
  cases h with
  | thrown hasks' => cases hasks.symm.trans hasks'
  | threw hasks' =>
      cases hasks.symm.trans hasks'
      exact ⟨rfl, rfl⟩
  | idle hform | declared hform => cases hform

/-! ### Statements with statements in them -/

theorem block {stmts : List Node} (hstmts : machine.Settles (.stmts stmts) s ending t) :
    machine.Settles (.stmt labels (.mk .block span stmts)) s ending t := by
  intro ending' t' h
  cases h with
  | thrown hasks => cases hasks
  | block hstmts' => exact hstmts hstmts'
  | idle hform | declared hform | overLoop hform | overNothing hform => cases hform

theorem chose {consequent alternative : Node}
    (hasks : machine.asks [.eval node] s = some (.value value, t))
    (hbranch : machine.Settles
      (.stmt [] (if machine.isTrue value then consequent else alternative)) t ending u) :
    machine.Settles (.stmt labels (.mk .ifStmt span [node, consequent, alternative]))
      s ending u := by
  intro ending' u' h
  cases h with
  | thrown hasks' => cases hasks.symm.trans hasks'
  | chose hasks' hbranch' =>
      cases hasks.symm.trans hasks'
      exact hbranch hbranch'
  | idle hform | declared hform | overLoop hform | overNothing hform => cases hform

theorem labeled {label : Name}
    (hbody : machine.Settles (.stmt (label.text :: labels) body) s ending t) :
    machine.Settles (.stmt labels (.mk (.labeled label) span [body])) s
      (ending.unlabeled label.text) t := by
  intro ending' t' h
  cases h with
  | thrown hasks => cases hasks
  | labeled hbody' =>
      obtain ⟨rfl, rfl⟩ := hbody hbody'
      exact ⟨rfl, rfl⟩
  | idle hform | declared hform => cases hform

theorem switched {listSpan : Span} {cases chosen : List Node}
    (hasks : machine.asks [.eval node] s = some (.value value, t))
    (hselect : machine.select value [] cases t = some (.ok chosen, u))
    (hstmts : machine.Settles (.stmts (chosen.flatMap Node.caseStmts)) u ending v) :
    machine.Settles (.stmt labels (.mk .switchStmt span [node, .mk .list listSpan cases])) s
      ending.unbroken v := by
  intro ending' v' h
  cases h with
  | thrown hasks' => cases hasks.symm.trans hasks'
  | switched hasks' hselect' hstmts' =>
      cases hasks.symm.trans hasks'
      cases hselect.symm.trans hselect'
      obtain ⟨rfl, rfl⟩ := hstmts hstmts'
      exact ⟨rfl, rfl⟩
  | switchThrown hasks' hselect' =>
      cases hasks.symm.trans hasks'
      cases hselect.symm.trans hselect'
  | idle hform | declared hform => cases hform

theorem switchThrown {listSpan : Span} {cases : List Node} {thrown : Value}
    (hasks : machine.asks [.eval node] s = some (.value value, t))
    (hselect : machine.select value [] cases t = some (.error thrown, u)) :
    machine.Settles (.stmt labels (.mk .switchStmt span [node, .mk .list listSpan cases])) s
      (.throws thrown) u := by
  intro ending' u' h
  cases h with
  | thrown hasks' => cases hasks.symm.trans hasks'
  | switched hasks' hselect' =>
      cases hasks.symm.trans hasks'
      cases hselect.symm.trans hselect'
  | switchThrown hasks' hselect' =>
      cases hasks.symm.trans hasks'
      cases hselect.symm.trans hselect'
      exact ⟨rfl, rfl⟩
  | idle hform | declared hform => cases hform

/-! ### The parts of a `try` -/

theorem tried {handler finalizer : Node} {caught last : Ending Value}
    (hblock : machine.Settles (.stmt [] node) s ending t)
    (hhandler : machine.Settles (.handling handler ending) t caught u)
    (hfinalizer : machine.Settles (.stmt [] finalizer) u last v) :
    machine.Settles (.stmt labels (.mk .tryStmt span [node, handler, finalizer])) s
      (caught.finalized last) v := by
  intro ending' v' h
  cases h with
  | thrown hasks => cases hasks
  | tried hblock' hhandler' hfinalizer' =>
      obtain ⟨rfl, rfl⟩ := hblock hblock'
      obtain ⟨rfl, rfl⟩ := hhandler hhandler'
      obtain ⟨rfl, rfl⟩ := hfinalizer hfinalizer'
      exact ⟨rfl, rfl⟩
  | idle hform | declared hform | overLoop hform | overNothing hform => cases hform

theorem passed {handler : Node}
    (hpass : handler.isAbsent = true ∨ ∀ value, ending ≠ .throws value) :
    machine.Settles (.handling handler ending) s ending s := by
  intro ending' t' h
  cases h with
  | thrown hasks =>
      rw [Phase.requests, Node.handlerRequests_eq_nil hpass] at hasks
      cases hasks
  | passed => exact ⟨rfl, rfl⟩
  | caught =>
      rcases hpass with habsent | hending
      · cases habsent
      · exact absurd rfl (hending _)

theorem caught {param : Node} {thrown : Value}
    (hasks : machine.asks (param.ifPresent (.bind · thrown)) s = some (.value value, t))
    (hbody : machine.Settles (.stmt [] body) t ending u) :
    machine.Settles (.handling (.mk .catchClause span [param, body]) (.throws thrown)) s
      ending u := by
  intro ending' u' h
  cases h with
  | thrown hasks' => cases hasks.symm.trans hasks'
  | passed hpass =>
      rcases hpass with habsent | hending
      · cases habsent
      · exact absurd rfl (hending _)
  | caught hasks' hbody' =>
      cases hasks.symm.trans hasks'
      exact hbody hbody'

/-! ### Loops -/

theorem whileLoop {test : Node}
    (hloop : machine.Settles (.check (.test .absent test .absent) labels body) s ending t) :
    machine.Settles (.stmt labels (.mk .whileStmt span [test, body])) s ending.unbroken t := by
  intro ending' t' h
  cases h with
  | thrown hasks => cases hasks
  | whileLoop hloop' =>
      obtain ⟨rfl, rfl⟩ := hloop hloop'
      exact ⟨rfl, rfl⟩
  | idle hform | declared hform => cases hform

theorem doLoop {test : Node}
    (hloop : machine.Settles (.round (.test .absent test .absent) labels body) s ending t) :
    machine.Settles (.stmt labels (.mk .doWhileStmt span [test, body])) s ending.unbroken t := by
  intro ending' t' h
  cases h with
  | thrown hasks => cases hasks
  | doLoop hloop' =>
      obtain ⟨rfl, rfl⟩ := hloop hloop'
      exact ⟨rfl, rfl⟩
  | idle hform | declared hform => cases hform

theorem forLoop {init test update : Node}
    (hasks : machine.asks init.initRequests s = some (.value value, t))
    (hloop : machine.Settles (.check (.test init test update) labels body) t ending u) :
    machine.Settles (.stmt labels (.mk .forStmt span [init, test, update, body])) s
      ending.unbroken u := by
  intro ending' u' h
  cases h with
  | thrown hasks' => cases hasks.symm.trans hasks'
  | forLoop hasks' hloop' =>
      cases hasks.symm.trans hasks'
      obtain ⟨rfl, rfl⟩ := hloop hloop'
      exact ⟨rfl, rfl⟩
  | idle hform | declared hform => cases hform

theorem overLoop {left right : Node} (hform : form.isOver = true)
    (hasks : machine.asks [.start form right] s = some (.value value, t))
    (hloop : machine.Settles (.check (.over form left value) labels body) t ending u) :
    machine.Settles (.stmt labels (.mk form span [left, right, body])) s ending.unbroken u := by
  intro ending' u' h
  cases h with
  | thrown hasks' =>
      rw [Phase.requests, Node.requests_of_isOver hform] at hasks'
      cases hasks.symm.trans hasks'
  | overLoop _ hasks' hloop' =>
      cases hasks.symm.trans hasks'
      obtain ⟨rfl, rfl⟩ := hloop hloop'
      exact ⟨rfl, rfl⟩
  | overNothing _ hasks' => cases hasks.symm.trans hasks'
  | idle hform' => cases (Form.isIdle_disjoint hform').2.symm.trans hform
  | declared hform' => cases (Form.isDeclared_disjoint hform').symm.trans hform
  | block | broke | continued | chose | tried => cases hform

theorem overNothing {left right : Node} (hform : form.isOver = true)
    (hasks : machine.asks [.start form right] s = some (.done, t)) :
    machine.Settles (.stmt labels (.mk form span [left, right, body])) s .normal t := by
  intro ending' t' h
  cases h with
  | thrown hasks' =>
      rw [Phase.requests, Node.requests_of_isOver hform] at hasks'
      cases hasks.symm.trans hasks'
  | overLoop _ hasks' => cases hasks.symm.trans hasks'
  | overNothing _ hasks' =>
      cases hasks.symm.trans hasks'
      exact ⟨rfl, rfl⟩
  | idle hform' => cases (Form.isIdle_disjoint hform').2.symm.trans hform
  | declared hform' => cases (Form.isDeclared_disjoint hform').symm.trans hform
  | block | broke | continued | chose | tried => cases hform

/-! ### The rounds of a loop -/

theorem testFails {init test update : Node}
    (hasks : machine.asks (test.ifPresent .eval) s = some (.value value, t))
    (htest : (test.isAbsent || machine.isTrue value) = false) :
    machine.Settles (.check (.test init test update) labels body) s .normal t := by
  intro ending' t' h
  cases h with
  | thrown hasks' => cases hasks.symm.trans hasks'
  | testFails hasks' =>
      cases hasks.symm.trans hasks'
      exact ⟨rfl, rfl⟩
  | testHolds hasks' htest' =>
      cases hasks.symm.trans hasks'
      cases htest.symm.trans htest'

theorem testHolds {init test update : Node}
    (hasks : machine.asks (test.ifPresent .eval) s = some (.value value, t))
    (htest : (test.isAbsent || machine.isTrue value) = true)
    (hround : machine.Settles (.round (.test init test update) labels body) t ending u) :
    machine.Settles (.check (.test init test update) labels body) s ending u := by
  intro ending' u' h
  cases h with
  | thrown hasks' => cases hasks.symm.trans hasks'
  | testFails hasks' htest' =>
      cases hasks.symm.trans hasks'
      cases htest.symm.trans htest'
  | testHolds hasks' _ hround' =>
      cases hasks.symm.trans hasks'
      exact hround hround'

variable {left : Node} {iterator : Value}

theorem exhausted (hasks : machine.asks [.next iterator] s = some (.done, t)) :
    machine.Settles (.check (.over form left iterator) labels body) s .normal t := by
  intro ending' t' h
  cases h with
  | thrown hasks' | bound hasks' | unbound hasks' => cases hasks.symm.trans hasks'
  | exhausted hasks' =>
      cases hasks.symm.trans hasks'
      exact ⟨rfl, rfl⟩

theorem bound {result : Value} (hasks : machine.asks [.next iterator] s = some (.value value, t))
    (hbind : machine.asks [.bind left value] t = some (.value result, u))
    (hround : machine.Settles (.round (.over form left iterator) labels body) u ending v) :
    machine.Settles (.check (.over form left iterator) labels body) s ending v := by
  intro ending' v' h
  cases h with
  | thrown hasks' | exhausted hasks' => cases hasks.symm.trans hasks'
  | bound hasks' hbind' hround' =>
      cases hasks.symm.trans hasks'
      cases hbind.symm.trans hbind'
      exact hround hround'
  | unbound hasks' hbind' =>
      cases hasks.symm.trans hasks'
      cases hbind.symm.trans hbind'

theorem unbound {thrown : Value} {answer : Answer Value}
    (hasks : machine.asks [.next iterator] s = some (.value value, t))
    (hbind : machine.asks [.bind left value] t = some (.thrown thrown, u))
    (hclose : machine.asks (Guard.over form left iterator).close u = some (answer, v)) :
    machine.Settles (.check (.over form left iterator) labels body) s (.throws thrown) v := by
  intro ending' v' h
  cases h with
  | thrown hasks' | exhausted hasks' => cases hasks.symm.trans hasks'
  | bound hasks' hbind' =>
      cases hasks.symm.trans hasks'
      cases hbind.symm.trans hbind'
  | unbound hasks' hbind' hclose' =>
      cases hasks.symm.trans hasks'
      cases hbind.symm.trans hbind'
      cases hclose.symm.trans hclose'
      exact ⟨rfl, rfl⟩

variable {guard : Guard Value}

theorem again {last : Ending Value} (hbody : machine.Settles (.stmt [] body) s ending t)
    (hgoesOn : ending.goesOn labels = true)
    (hasks : machine.asks guard.update t = some (.value value, u))
    (hcheck : machine.Settles (.check guard labels body) u last v) :
    machine.Settles (.round guard labels body) s last v := by
  intro ending' v' h
  cases h with
  | thrown hasks' => cases hasks'
  | again hbody' _ hasks' hcheck' =>
      obtain ⟨rfl, rfl⟩ := hbody hbody'
      cases hasks.symm.trans hasks'
      exact hcheck hcheck'
  | updateThrown hbody' _ hasks' =>
      obtain ⟨rfl, rfl⟩ := hbody hbody'
      cases hasks.symm.trans hasks'
  | left hbody' hgoesOn' =>
      obtain ⟨rfl, rfl⟩ := hbody hbody'
      cases hgoesOn.symm.trans hgoesOn'

theorem updateThrown {thrown : Value} (hbody : machine.Settles (.stmt [] body) s ending t)
    (hgoesOn : ending.goesOn labels = true)
    (hasks : machine.asks guard.update t = some (.thrown thrown, u)) :
    machine.Settles (.round guard labels body) s (.throws thrown) u := by
  intro ending' u' h
  cases h with
  | thrown hasks' => cases hasks'
  | again hbody' _ hasks' =>
      obtain ⟨rfl, rfl⟩ := hbody hbody'
      cases hasks.symm.trans hasks'
  | updateThrown hbody' _ hasks' =>
      obtain ⟨rfl, rfl⟩ := hbody hbody'
      cases hasks.symm.trans hasks'
      exact ⟨rfl, rfl⟩
  | left hbody' hgoesOn' =>
      obtain ⟨rfl, rfl⟩ := hbody hbody'
      cases hgoesOn.symm.trans hgoesOn'

theorem leaves {answer : Answer Value} (hbody : machine.Settles (.stmt [] body) s ending t)
    (hgoesOn : ending.goesOn labels = false)
    (hclose : machine.asks guard.close t = some (answer, u)) :
    machine.Settles (.round guard labels body) s (ending.closed answer) u := by
  intro ending' u' h
  cases h with
  | thrown hasks => cases hasks
  | again hbody' hgoesOn' | updateThrown hbody' hgoesOn' =>
      obtain ⟨rfl, rfl⟩ := hbody hbody'
      cases hgoesOn.symm.trans hgoesOn'
  | left hbody' _ hclose' =>
      obtain ⟨rfl, rfl⟩ := hbody hbody'
      cases hclose.symm.trans hclose'
      exact ⟨rfl, rfl⟩

end Machine.Settles

section Unique

variable {machine : Machine Value World} {phase : Phase Value} {s t t' : Store Value World}
  {ending ending' : Ending Value}

/-- What a run gets to, every run from the same point and store gets to. -/
theorem Runs.settles (h : Runs machine phase s ending t) : machine.Settles phase s ending t := by
  induction h with
  | thrown hasks => exact fun _ _ h' => h'.eq_of_asks_thrown hasks
  | nil =>
      intro ending' t' h'
      cases h' with
      | thrown hasks => cases hasks
      | nil => exact ⟨rfl, rfl⟩
  | cons _ _ hfirst hrest => exact .cons hfirst hrest
  | stop _ habrupt hfirst => exact .stop hfirst habrupt
  | idle hform => exact .idle hform
  | block _ hstmts => exact .block hstmts
  | expr hasks => exact .expr hasks
  | declared hform hasks => exact .declared hform hasks
  | returned hasks => exact .returned hasks
  | threw hasks => exact .threw hasks
  | broke => exact .broke
  | continued => exact .continued
  | chose hasks _ hbranch => exact .chose hasks hbranch
  | labeled _ _ hbody => exact .labeled hbody
  | switched hasks hselect _ hstmts => exact .switched hasks hselect hstmts
  | switchThrown hasks hselect => exact .switchThrown hasks hselect
  | tried _ _ _ hblock hhandler hfinalizer => exact .tried hblock hhandler hfinalizer
  | passed hpass => exact .passed hpass
  | caught hasks _ hbody => exact .caught hasks hbody
  | whileLoop _ hloop => exact .whileLoop hloop
  | doLoop _ hloop => exact .doLoop hloop
  | forLoop hasks _ hloop => exact .forLoop hasks hloop
  | overLoop hform hasks _ hloop => exact .overLoop hform hasks hloop
  | overNothing hform hasks => exact .overNothing hform hasks
  | testFails hasks htest => exact .testFails hasks htest
  | testHolds hasks htest _ hround => exact .testHolds hasks htest hround
  | exhausted hasks => exact .exhausted hasks
  | bound hasks hbind _ hround => exact .bound hasks hbind hround
  | unbound hasks hbind hclose => exact .unbound hasks hbind hclose
  | again _ hgoesOn hasks _ hbody hcheck => exact .again hbody hgoesOn hasks hcheck
  | updateThrown _ hgoesOn hasks hbody => exact .updateThrown hbody hgoesOn hasks
  | left _ hgoesOn hclose hbody => exact .leaves hbody hgoesOn hclose

/-- A machine gets from a point and a store to one ending and one store only. -/
theorem Runs.unique (h : Runs machine phase s ending t) (h' : Runs machine phase s ending' t') :
    ending' = ending ∧ t' = t :=
  h.settles h'

end Unique

end LoopLowering
