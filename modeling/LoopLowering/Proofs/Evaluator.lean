/-
A small machine.

It knows just enough expressions for the code that lowering emits: literals, variables,
objects with one property, comparisons, assignments, and calls of one function.  What the
function does is a parameter.

The machine reads and writes the variables a tree names and no others, so that variables
are hidden from any tree that does not name them.
-/
import LoopLowering.Proofs.Encoding

namespace LoopLowering

/-- The values of the machine. -/
inductive Datum where
  | undefined
  | string (text : String)
  | truth (value : Bool)
  /-- A function of which nothing else is known. -/
  | closure
  | box (key : String) (content : Datum)
deriving DecidableEq

/-- A store of the machine. -/
abbrev Memory := Store Datum Unit

/-- What the machine can answer. -/
abbrev Reply := Option (Answer Datum × Memory)

namespace Datum

/-- Whether a test succeeds. -/
def isTrue : Datum → Bool
  | undefined => false
  | string text => text != ""
  | truth value => value
  | closure => true
  | box _ _ => true

/-- The property of a value. -/
def property (key : String) : Datum → Datum
  | box other content => if other = key then content else undefined
  | _ => undefined

end Datum

/-- Go on with a value, if there is one. -/
def Reply.followed (reply : Reply) (next : Datum → Memory → Reply) : Reply :=
  match reply with
  | some (.value value, t) => next value t
  | reply => reply

/-- Evaluate an expression, given the function that can be called. -/
def evaluate (function : String) (invoke : Memory → Reply) : Node → Memory → Reply
  | .mk (.string text _) _ _, s => some (.value (.string text), s)
  | .mk (.unary _) _ _, s => some (.value .undefined, s)
  | .mk (.arrow _ _) _ _, s => some (.value .closure, s)
  | .mk (.ident .use name _) _ _, s => some (.value (s.vars name), s)
  | .mk .object _ [.mk .keyValue _ [.mk (.propName key) _ _, expr]], s =>
    Reply.followed (evaluate function invoke expr s) fun value t =>
      some (.value (.box key value), t)
  | .mk .member _ [expr, .mk (.propName key) _ _], s =>
    Reply.followed (evaluate function invoke expr s) fun value t =>
      some (.value (value.property key), t)
  | .mk (.binary _) _ [left, right], s =>
    Reply.followed (evaluate function invoke left s) fun value t =>
      Reply.followed (evaluate function invoke right t) fun other u =>
        some (.value (.truth (value = other)), u)
  | .mk (.assign _) _ [.mk (.ident .bind name _) _ _, expr], s =>
    Reply.followed (evaluate function invoke expr s) fun value t =>
      some (.value value, t.set name value)
  | .mk .call _ (.mk (.ident .use name _) _ _ :: _), s => if name = function then invoke s else none
  | _, _ => none

/-- The machine. -/
def evaluator (function : String) (invoke : Memory → Reply) : Machine Datum Unit where
  undefined := .undefined
  string := .string
  box := .box
  isTrue := Datum.isTrue
  same value other := decide (value = other)
  answer request s :=
    match request with
    | .eval expr => evaluate function invoke expr s
    | .declare (.mk (.varDecl _ _)
        _ [.mk (.declarator _) _ [.mk (.ident .bind name _) _ _, expr]]) =>
      Reply.followed (evaluate function invoke expr s) fun value t =>
        some (.value .undefined, t.set name value)
    | _ => none

variable {function : String} {invoke : Memory → Reply}

theorem evaluator_emits (known : List String) : (evaluator function invoke).Emits known where
  eval_string text span s := by simp [evaluator, Node.stringLit, evaluate]
  eval_undefined span s := by simp [evaluator, Node.undefined, evaluate]
  eval_object key expr span s hkey := by
    simp only [evaluator, Node.objectOf, Node.keyValue, evaluate]
    cases hexpr : evaluate function invoke expr s with
    | none => rfl
    | some reply =>
        obtain ⟨answer, t⟩ := reply
        cases answer <;> rfl
  isTrue_object key expr span s t value h := by
    simp only [evaluator, Node.objectOf, Node.keyValue, evaluate] at h
    cases hexpr : evaluate function invoke expr s with
    | none =>
        rw [hexpr] at h
        cases h
    | some reply =>
        obtain ⟨answer, u⟩ := reply
        rw [hexpr] at h
        cases answer <;> cases h
        rfl
  eval_use name hname span s := by simp [evaluator, Node.use, evaluate]
  eval_member name hname key value span s hkey hvalue := by
    simp [evaluator, Node.memberOf, evaluate, Reply.followed, hvalue, Datum.property]
  eval_strictEq name hname text span s := by
    simp [evaluator, Node.strictEq, Node.stringLit, evaluate, Reply.followed, Datum.isTrue]
  eval_assign target htarget name hname span s := by
    simp [evaluator, Node.assignTo, evaluate, Reply.followed]
  declare_var name hname expr span s t value hexpr := by
    simp [evaluator, Node.varStmt] at hexpr ⊢
    simp [Reply.followed, hexpr]
  declare_thrown name hname expr span s t value hexpr := by
    simp [evaluator, Node.varStmt] at hexpr ⊢
    simp [Reply.followed, hexpr]
  isTrue_undefined := rfl
  isTrue_box _ _ := rfl
  string_ne_undefined text := by simp [evaluator]
  string_ne_box text key value := by simp [evaluator]

/-! ### Hidden variables -/

/-- A reply in a store that differs in hidden variables. -/
def Reply.Alike (hidden : List String) (reply reply' : Reply) : Prop :=
  ∀ answer t, reply = some (answer, t) → ∃ t', reply' = some (answer, t') ∧ t.AgreeOff hidden t'

theorem Store.AgreeOff.set_both {Value World : Type} {hidden : List String}
    {s s' : Store Value World} (h : s.AgreeOff hidden s') (name : String) (value : Value) :
    (s.set name value).AgreeOff hidden (s'.set name value) := by
  refine ⟨fun other hother => ?_, h.world⟩
  by_cases heq : other = name
  · rw [heq, Store.vars_set, Store.vars_set]
  · rw [Store.vars_set_of_ne heq, Store.vars_set_of_ne heq]
    exact h.vars other hother

section Hidden

variable {hidden : List String}

theorem Reply.Alike.some {s s' : Memory} (hagree : s.AgreeOff hidden s') (answer : Answer Datum) :
    Reply.Alike hidden (some (answer, s)) (some (answer, s')) := by
  rintro _ _ ⟨⟩
  exact ⟨s', rfl, hagree⟩

theorem Reply.Alike.followed {reply reply' : Reply} {next : Datum → Memory → Reply}
    (hreply : Reply.Alike hidden reply reply')
    (hnext : ∀ value t t', t.AgreeOff hidden t' →
      Reply.Alike hidden (next value t) (next value t')) :
    Reply.Alike hidden (reply.followed next) (reply'.followed next) := by
  intro answer u h
  cases reply with
  | none => cases h
  | some first =>
      obtain ⟨first, t⟩ := first
      obtain ⟨t', rfl, hagree⟩ := hreply first t rfl
      cases first with
      | value value => exact hnext value t t' hagree answer u h
      | done | thrown =>
          cases h
          exact ⟨t', rfl, hagree⟩

theorem Node.mem_names {form : Form} {span : Span} {parts : List Node} {part : Node} {name : String}
    (hmem : part ∈ parts) (hname : name ∈ part.names) : name ∈ (Node.mk form span parts).names := by
  rw [Node.names, namesOf_eq_flatMap]
  exact List.mem_append_right _ (List.mem_flatMap.mpr ⟨part, hmem, hname⟩)

/-- The value of an expression does not depend on variables it does not name. -/
theorem evaluate_alike {node : Node} (hnames : ∀ name ∈ node.names, name ≠ function ∧ name ∉ hidden)
    {s s' : Memory} (hagree : s.AgreeOff hidden s') :
    Reply.Alike hidden (evaluate function invoke node s) (evaluate function invoke node s') := by
  fun_induction evaluate function invoke node s generalizing s' with
  | case1 text raw span parts s =>
      rw [evaluate]
      exact .some hagree _
  | case2 operator span parts s =>
      rw [evaluate]
      exact .some hagree _
  | case3 isAsync isGenerator span parts s =>
      rw [evaluate]
      exact .some hagree _
  | case4 name optional span parts s =>
      have hname : name ∉ hidden := (hnames name (by simp [Node.names, Form.names])).2
      rw [evaluate, hagree.vars name hname]
      exact .some hagree _
  | case5 span propSpan key keySpan keyParts expr s ih =>
      rw [evaluate]
      refine .followed (ih (fun name hname => hnames name ?_) hagree) fun value t t' h => .some h _
      exact Node.mem_names (List.mem_singleton_self _) (Node.mem_names (by simp) hname)
  | case6 span expr key keySpan keyParts s ih =>
      rw [evaluate]
      refine .followed (ih (fun name hname => hnames name ?_) hagree) fun value t t' h => .some h _
      exact Node.mem_names (by simp) hname
  | case7 operator span left right s ihleft ihright =>
      rw [evaluate]
      refine .followed (ihleft (fun name hname => hnames name ?_) hagree) fun value t t' h => ?_
      · exact Node.mem_names (by simp) hname
      refine .followed (ihright t (fun name hname => hnames name ?_) h)
        fun other u u' h' => .some h' _
      exact Node.mem_names (by simp) hname
  | case8 operator span name optional nameSpan nameParts expr s ih =>
      rw [evaluate]
      refine .followed (ih (fun name hname => hnames name ?_) hagree) fun value t t' h =>
        .some (h.set_both name value) _
      exact Node.mem_names (by simp) hname
  | case9 span optional nameSpan nameParts args s =>
      refine absurd rfl (hnames function ?_).1
      exact Node.mem_names List.mem_cons_self (by simp [Node.names, Form.names])
  | case10 | case11 => rintro _ _ ⟨⟩

theorem Node.names_of_within {part node : Node} (h : part.Within node) {name : String}
    (hname : name ∈ part.names) : name ∈ node.names := by
  induction h with
  | self => exact hname
  | part hmem _ ih => exact Node.mem_names hmem ih

/-- Variables are hidden from a tree that does not name them. -/
theorem evaluator_isBlindIn {node : Node}
    (hnames : ∀ name ∈ node.names, name ≠ function ∧ name ∉ hidden) :
    (evaluator function invoke).IsBlindIn hidden node := by
  intro request hrequest s s' t answer hagree h
  have hexpr : ∀ {expr : Node}, expr.Within node → ∀ {s s' : Memory}, s.AgreeOff hidden s' →
      Reply.Alike hidden (evaluate function invoke expr s) (evaluate function invoke expr s') :=
    fun hwithin _ _ hagree =>
      evaluate_alike (fun name hname => hnames name (Node.names_of_within hwithin hname)) hagree
  cases request with
  | eval expr => exact hexpr (hrequest expr rfl) hagree answer t h
  | declare decl =>
      have hwithin : decl.Within node := hrequest decl rfl
      simp only [evaluator] at h ⊢
      split at h
      · next heq => cases heq
      · next name _ _ _ expr heq =>
        cases heq
        have hpart : expr.Within node :=
          Node.Within.trans (.part (List.mem_singleton_self _) (.part (by simp) .self)) hwithin
        exact Reply.Alike.followed (hexpr hpart hagree)
          (fun value u u' hagree' => .some (hagree'.set_both name value) _) answer t h
      · cases h
  | bind | renew | start | next | close => cases h

end Hidden

end LoopLowering
