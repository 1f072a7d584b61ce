/-
A supply of unused names.

A registry knows every name in use and hands out names that are not.  A name asked
for is given as it is when nobody uses it, and otherwise with the first of the
suffixes `$1`, `$2`, … that makes it new.  The search for a suffix ends because a
registry is finite: among one more candidate than it has names, one is free.

Renamings of a binding are recorded, oldest first.
-/
import LoopLowering.Tree.Node

namespace LoopLowering

/-! ### Names a tree uses -/

/-- The names written on a node itself: an identifier, a label, or the name of a
function expression. -/
def Form.names : Form → List String
  | .ident _ name _ => [name]
  | .labeled label => [label.text]
  | .breakStmt (some label) => [label.text]
  | .continueStmt (some label) => [label.text]
  | .functionExpr (some name) => [name.text]
  | _ => []

mutual

/-- Every name used anywhere in a tree. -/
def Node.names : Node → List String
  | .mk form _ parts => form.names ++ namesOf parts

/-- Every name used anywhere in a list of trees. -/
def namesOf : List Node → List String
  | [] => []
  | node :: nodes => node.names ++ namesOf nodes

end

theorem namesOf_eq_flatMap (nodes : List Node) : namesOf nodes = nodes.flatMap Node.names := by
  induction nodes with
  | nil => rfl
  | cons node nodes ih => rw [namesOf, ih, List.flatMap_cons]

/-! ### The registry -/

/-- The names in use, and the renamings made so far as pairs of old and new name. -/
structure Registry where
  taken : List String
  renamings : List (String × String)
deriving Inhabited

namespace Registry

/-- A registry with no names. -/
def empty : Registry := ⟨[], []⟩

/-- A registry that knows every name of a tree. -/
def ofTree (tree : Node) : Registry := ⟨tree.names, []⟩

/-- Whether a name is in use. -/
def isTaken (names : Registry) (name : String) : Bool := decide (name ∈ names.taken)

/-- Mark a name as used. -/
def reserve (names : Registry) (name : String) : Registry :=
  { names with taken := name :: names.taken }

/-- The name `base` with the `n`-th suffix.  Suffixes are natural numbers, so they never run out.  A
counter of 32 bits counts alike while fewer than 2³¹ names are in use. -/
def suffixed (base : String) (n : Nat) : String := base ++ "$" ++ toString n

/-- The first number from `n` on, among the next `fuel`, whose suffix makes `base` new.  It counts
in natural numbers, where a counter of 32 bits would overflow after 2³¹ names in use. -/
def firstFree (taken : List String) (base : String) : (fuel n : Nat) → Nat
  | 0, n => n
  | fuel + 1, n => if suffixed base n ∈ taken then firstFree taken base fuel (n + 1) else n

/-- The search starts where it is told to. -/
theorem le_firstFree (taken : List String) (base : String) :
    ∀ fuel n, n ≤ firstFree taken base fuel n := by
  intro fuel
  induction fuel with
  | zero => intro n; exact Nat.le_refl n
  | succ fuel ih =>
      intro n
      unfold firstFree
      split
      · exact Nat.le_trans (Nat.le_succ n) (ih (n + 1))
      · exact Nat.le_refl n

/-- Every number the search passed over was in use. -/
theorem suffixed_mem_of_lt_firstFree (taken : List String) (base : String) :
    ∀ fuel n m, n ≤ m → m < firstFree taken base fuel n → suffixed base m ∈ taken := by
  intro fuel
  induction fuel with
  | zero => intro n m hle hlt; exact absurd hlt (Nat.not_lt.mpr hle)
  | succ fuel ih =>
      intro n m hle hlt
      unfold firstFree at hlt
      split at hlt
      · next hmem =>
        rcases Nat.eq_or_lt_of_le hle with rfl | hnm
        · exact hmem
        · exact ih (n + 1) m hnm hlt
      · exact absurd hlt (Nat.not_lt.mpr hle)

/-- The first unused `base$n`, now taken, even when `base` itself is unused. -/
def freshSuffixed (names : Registry) (base : String) : String × Registry :=
  let name := suffixed base (firstFree names.taken base names.taken.length 1)
  (name, names.reserve name)

/-- The name `base` itself if it is unused, and otherwise its first unused suffixed form;
in either case it is taken from now on. -/
def fresh (names : Registry) (base : String) : String × Registry :=
  if names.isTaken base then names.freshSuffixed base else (base, names.reserve base)

/-- A new name for the binding `name`, recorded in its history. -/
def rename (names : Registry) (name : String) : String × Registry :=
  let (renamed, names) := names.freshSuffixed name
  (renamed, { names with renamings := names.renamings ++ [(name, renamed)] })

/-- The names `name` has been renamed to, oldest first. -/
def history (names : Registry) (name : String) : List String :=
  (names.renamings.filter (·.1 == name)).map (·.2)

/-- Drawing a suffixed name takes that name and no other. -/
theorem taken_freshSuffixed (names : Registry) (base : String) :
    (names.freshSuffixed base).2.taken = (names.freshSuffixed base).1 :: names.taken := rfl

/-- Drawing a name takes that name and no other. -/
theorem taken_fresh (names : Registry) (base : String) :
    (names.fresh base).2.taken = (names.fresh base).1 :: names.taken := by
  unfold fresh
  split <;> rfl

/-- Renaming a binding takes the new name and no other. -/
theorem taken_rename (names : Registry) (name : String) :
    (names.rename name).2.taken = (names.rename name).1 :: names.taken := rfl

/-- Renaming a binding adds the new name to its history and to no other. -/
theorem history_rename (names : Registry) (name other : String) :
    (names.rename name).2.history other =
      names.history other ++ if name = other then [(names.rename name).1] else [] := by
  unfold history rename
  by_cases h : name = other
  · simp [h, List.filter_append, freshSuffixed, reserve]
  · simp [h, List.filter_append, freshSuffixed, reserve]

end Registry

/-- A computation that draws names from a registry. -/
abbrev Naming := StateM Registry

namespace Naming

/-- Draw `base` or its first unused suffixed form. -/
def fresh (base : String) : Naming String := modifyGet (·.fresh base)

/-- Draw the first unused suffixed form of `base`. -/
def freshSuffixed (base : String) : Naming String := modifyGet (·.freshSuffixed base)

/-- Draw a new name for a binding. -/
def rename (name : String) : Naming String := modifyGet (·.rename name)

end Naming

end LoopLowering
