/-
Renaming a binding, and naming `this` and `arguments`.

`Node.rename` gives a new name to the free occurrences of an old one: it stops at
every scope that binds the old name again.  A shorthand property or pattern keeps its
key, so `{ i }` becomes `{ i: j }` and the pattern `{ i = d }` becomes `{ i: j = d }`.

`Node.useAliases` replaces `this` and `arguments` by variables that hold them, up to the
next function that has its own.
-/
import LoopLowering.Scope
import LoopLowering.Tree.Emit

namespace LoopLowering

/-! ### Free occurrences -/

mutual

/-- Replace the free occurrences of `old` in a tree by `new`. -/
def Node.substitute (old new : String) : Node → Node
  | .mk form span parts =>
    if old ∈ (Node.mk form span parts).scopeNames then .mk form span parts
    else match form, parts with
      | .ident .short name optional, parts =>
        if name = old then .keyValue old (.use new span) span
        else .mk (.ident .short name optional) span (substituteIn old new parts)
      | .ident role name optional, parts =>
        .mk (.ident role (if name = old then new else name) optional) span
          (substituteIn old new parts)
      | .assignPatProp, [.mk (.ident .bind name optional) keySpan ascription, value] =>
        if name = old then
          let bound := Node.mk (.ident .bind new optional) keySpan ascription
          .mk .keyValuePat .generated
            [.mk (.propName old) keySpan [],
             if value.isAbsent then bound
             else .mk .assignPat span [bound, value.substitute old new]]
        else
          .mk .assignPatProp span
            [.mk (.ident .bind name optional) keySpan (substituteIn old new ascription),
             value.substitute old new]
      | form, parts => .mk form span (substituteIn old new parts)

/-- Replace the free occurrences of `old` in a list of trees by `new`. -/
def substituteIn (old new : String) : List Node → List Node
  | [] => []
  | node :: nodes => node.substitute old new :: substituteIn old new nodes

end

theorem substituteIn_eq_map (old new : String) (nodes : List Node) :
    substituteIn old new nodes = nodes.map (·.substitute old new) := by
  induction nodes with
  | nil => rfl
  | cons node nodes ih => rw [substituteIn, ih, List.map_cons]

/-- A scope that binds the name keeps it. -/
theorem Node.substitute_of_mem_scopeNames {old new : String} {node : Node}
    (h : old ∈ node.scopeNames) : node.substitute old new = node := by
  cases node with
  | mk form span parts =>
      unfold Node.substitute
      rw [if_pos h]

/-- Give the free occurrences of `old` the name `new`. -/
def Node.rename (old new : String) (node : Node) : Node :=
  if old = new then node else node.substitute old new

@[simp] theorem Node.rename_self (name : String) (node : Node) : node.rename name name = node :=
  if_pos rfl

/-! ### Names for `this` and `arguments` -/

/-- The variables that stand for `this` and `arguments`, where they are needed. -/
structure Aliases where
  this? : Option String
  arguments? : Option String

/-- Whether the node has a `this` and `arguments` of its own.  Arrows do not. -/
def Form.bindsThis : Form → Bool
  | .function _ _ | .classBody _ | .constructor | .getter | .setter => true
  | _ => false

mutual

/-- Replace `this` and `arguments` by their aliases. -/
def Node.useAliases (aliases : Aliases) : Node → Node
  | .mk form span parts =>
    if form.bindsThis then .mk form span parts
    else match form with
      | .thisExpr =>
        match aliases.this? with
        | some name => .use name span
        | none => .mk form span parts
      | .ident .use "arguments" optional =>
        match aliases.arguments? with
        | some name => .mk (.ident .use name optional) span parts
        | none => .mk form span parts
      | .ident .short "arguments" _ =>
        match aliases.arguments? with
        | some name => .keyValue "arguments" (.use name span) span
        | none => .mk form span parts
      | _ => .mk form span (useAliasesIn aliases parts)

/-- Replace `this` and `arguments` by their aliases in a list of trees. -/
def useAliasesIn (aliases : Aliases) : List Node → List Node
  | [] => []
  | node :: nodes => node.useAliases aliases :: useAliasesIn aliases nodes

end

theorem useAliasesIn_eq_map (aliases : Aliases) (nodes : List Node) :
    useAliasesIn aliases nodes = nodes.map (·.useAliases aliases) := by
  induction nodes with
  | nil => rfl
  | cons node nodes ih => rw [useAliasesIn, ih, List.map_cons]

end LoopLowering
