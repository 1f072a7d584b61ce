/-
A loop taken apart is put together again.

`Loop.ofNode?` peels the labels off a statement, outermost first, until it comes to a loop;
`Loop.toNode` wraps the loop in its labels again.  What is lost on the way are the ranges of the
labeled statements, for a loop has a single range, and nothing else: the statements that come
apart into a given loop are the loop without its labels, wrapped in these labels with any ranges
(`Loop.apart_and_together`).

The recursion is on the chain of labels, so that the facts about one label come first and those
about a chain of them by induction.
-/
import LoopLowering.Proofs.Replacement

namespace LoopLowering

/-! ### Chains of labels -/

/-- The statement under some labels, each with the range of its labeled statement, outermost
first. -/
def Node.underLabels (stmt : Node) (labels : List (Name × Span)) : Node :=
  labels.foldr (fun label inner => .labeled label.1 label.2 inner) stmt

/-- The loop under further labels, put in front of its own. -/
def Loop.addLabels (loop : Loop) (labels : List Name) : Loop :=
  { loop with labels := labels ++ loop.labels }

namespace Loop

/-- The labels around a statement become the outer labels of the loop it is. -/
theorem ofNode?_underLabels (stmt : Node) (labels : List (Name × Span)) :
    ofNode? (stmt.underLabels labels) =
      (ofNode? stmt).map (·.addLabels (labels.map (·.1))) := by
  induction labels with
  | nil => simp [Node.underLabels, addLabels]
  | cons label labels ih =>
      change ofNode? (.labeled label.1 label.2 (stmt.underLabels labels)) = _
      rw [ofNode?, ih, Option.map_map]
      rfl

/-- A loop without its labels comes apart into just that. -/
theorem ofNode?_toUnlabeled {loop : Loop} (h : loop.decl.kind.isBlockScoped = true) :
    ofNode? loop.toUnlabeled = some { loop with labels := [] } :=
  ofNode?_toNode { loop with labels := [] } h

/-- The labels of a loop get its range. -/
theorem toNode_eq_underLabels (loop : Loop) :
    loop.toNode = loop.toUnlabeled.underLabels (loop.labels.map (·, loop.span)) := by
  unfold toNode Node.underLabels
  rw [List.foldr_map]

/-- A statement that comes apart into a loop is that loop under its labels. -/
theorem exists_underLabels {stmt : Node} {loop : Loop} (h : ofNode? stmt = some loop) :
    loop.decl.kind.isBlockScoped = true ∧
      ∃ labels : List (Name × Span), labels.map (·.1) = loop.labels ∧
        stmt = loop.toUnlabeled.underLabels labels := by
  fun_induction ofNode? stmt generalizing loop with
  | case1 label span body ih =>
      obtain ⟨inner, hinner, rfl⟩ := Option.map_eq_some_iff.mp h
      obtain ⟨hkind, labels, hlabels, rfl⟩ := ih hinner
      exact ⟨hkind, (label, span) :: labels, congrArg (label :: ·) hlabels, rfl⟩
  | case2 | case3 | case4 =>
      cases h
      exact ⟨rfl, [], rfl, rfl⟩
  | case5 => cases h

/-- Taking a loop apart and putting it together loses nothing but the ranges of its labels.  The
statements that come apart into a block-scoped loop are those made of it and its labels, in
their order and with whatever ranges, and the loop is put together as the one of them in which
all labels have the range of the loop. -/
theorem apart_and_together (loop : Loop) :
    (∀ stmt, ofNode? stmt = some loop ↔
      loop.decl.kind.isBlockScoped = true ∧
        ∃ labels : List (Name × Span), labels.map (·.1) = loop.labels ∧
          stmt = loop.toUnlabeled.underLabels labels) ∧
      loop.toNode = loop.toUnlabeled.underLabels (loop.labels.map (·, loop.span)) ∧
      (loop.decl.kind.isBlockScoped = true → ofNode? loop.toNode = some loop) := by
  refine ⟨fun stmt => ⟨exists_underLabels, ?_⟩, toNode_eq_underLabels loop, ofNode?_toNode loop⟩
  rintro ⟨hkind, labels, hlabels, rfl⟩
  rw [ofNode?_underLabels, ofNode?_toUnlabeled hkind, Option.map_some, hlabels]
  simp [addLabels]

end Loop

end LoopLowering
