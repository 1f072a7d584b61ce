/-
Where the loops and the regions of a tree are.

Lowering moves code about, but what it does to the loops and functions of a tree can be
said without looking at the rest of the tree.  A landmark is what a node contributes to
that picture: whether it is a closure, whether it owns a region, and whether it is a
block-scoped loop.  A gauge weighs landmarks, and `Node.tally` adds up the weights of a
tree, not looking beyond the landmarks at which the gauge stops.

Every count the library makes is such a tally: of the loops left in a region, of the
loops and regions of a program, of all loops.  So what a rewriting step does to all of
them is said once, as what it does to the tally of an arbitrary gauge.
-/
import LoopLowering.Program
import Mathlib.Data.List.Forall2

namespace LoopLowering

/-! ### Induction on trees -/

/-- What holds of a node whenever it holds of its parts holds of all trees. -/
theorem Node.inductionOn {motive : Node → Prop}
    (step : ∀ form span parts, (∀ part ∈ parts, motive part) → motive (.mk form span parts))
    (node : Node) : motive node := by
  refine @Node.rec motive (fun parts => ∀ part ∈ parts, motive part) ?_ ?_ ?_ node
  · intro form span parts ih
    exact step form span parts ih
  · intro part hpart
    exact absurd hpart List.not_mem_nil
  · intro head tail hhead htail part hpart
    rcases List.mem_cons.mp hpart with rfl | hmem
    · exact hhead
    · exact htail part hmem

/-- One tree is found somewhere in another. -/
inductive Node.Within (node : Node) : Node → Prop
  | self : node.Within node
  | part {form : Form} {span : Span} {parts : List Node} {part : Node}
      (hmem : part ∈ parts) (h : node.Within part) : node.Within (.mk form span parts)

theorem Node.within_mk {node : Node} {form : Form} {span : Span} {parts : List Node} :
    node.Within (.mk form span parts) ↔
      node = .mk form span parts ∨ ∃ part ∈ parts, node.Within part := by
  constructor
  · intro h
    cases h with
    | self => exact Or.inl rfl
    | part hmem h => exact Or.inr ⟨_, hmem, h⟩
  · rintro (rfl | ⟨part, hmem, h⟩)
    · exact .self
    · exact .part hmem h

/-! ### Landmarks -/

/-- What a node is to someone who only looks for loops and regions. -/
structure Landmark where
  closure : Bool
  owner : Bool
  /-- The range of the block-scoped loop the node is. -/
  loop? : Option Span
deriving DecidableEq, Repr

/-- The landmark of a node that is neither loop nor closure and owns no region. -/
def Landmark.plain : Landmark := ⟨false, false, none⟩

/-- The landmark of a function. -/
def Landmark.function : Landmark := ⟨true, true, none⟩

/-- Whether a node of this form is a `let` or `const` declaration. -/
def Form.isLexicalDecl : Form → Bool
  | .varDecl (.lexical _) _ => true
  | _ => false

/-- Whether a node is a `let` or `const` declaration. -/
def Node.isLexicalDecl (node : Node) : Bool := node.form.isLexicalDecl

/-- Whether a node is a block-scoped loop itself, labels not included. -/
def Node.isBlockLoop : Node → Bool
  | .mk .forStmt _ [head, _, _, _] => head.isLexicalDecl
  | .mk .forInStmt _ [head, _, _] => head.isLexicalDecl
  | .mk (.forOfStmt _) _ [head, _, _] => head.isLexicalDecl
  | _ => false

/-- The landmark a node is. -/
def Node.landmark (node : Node) : Landmark :=
  ⟨node.form.isClosure, node.form.ownsRegion,
    if node.isBlockLoop then some node.ownSpan else none⟩

/-! ### Loops with and without labels -/

theorem Node.isLexicalDecl_iff {node : Node} :
    node.isLexicalDecl = true ↔
      ∃ constant declare span ds, node = .varDecl (.lexical constant) declare span ds := by
  constructor
  · intro h
    obtain ⟨form, span, parts⟩ := node
    change form.isLexicalDecl = true at h
    unfold Form.isLexicalDecl at h
    split at h
    · exact ⟨_, _, _, _, rfl⟩
    · cases h
  · rintro ⟨constant, declare, span, ds, rfl⟩
    rfl

theorem Node.isCandidate_labeled (label : Name) (span : Span) (body : Node) :
    (Node.labeled label span body).isCandidate = body.isCandidate := by
  simp only [Node.isCandidate, Loop.ofNode?, Option.isSome_map]

theorem Node.isCandidate_of_isBlockLoop {node : Node} (h : node.isBlockLoop = true) :
    node.isCandidate = true := by
  unfold Node.isBlockLoop at h
  split at h
  · obtain ⟨_, _, _, _, rfl⟩ := Node.isLexicalDecl_iff.mp h; rfl
  · obtain ⟨_, _, _, _, rfl⟩ := Node.isLexicalDecl_iff.mp h; rfl
  · obtain ⟨_, _, _, _, rfl⟩ := Node.isLexicalDecl_iff.mp h; rfl
  · cases h

/-- A statement without label is taken apart as a block-scoped loop only if it is one. -/
theorem Node.isBlockLoop_of_isCandidate {form : Form} {span : Span} {parts : List Node}
    (hform : ∀ label, form ≠ .labeled label) (h : (Node.mk form span parts).isCandidate = true) :
    (Node.mk form span parts).isBlockLoop = true := by
  unfold Node.isCandidate Loop.ofNode? at h
  split at h
  · next heq =>
    cases heq
    exact absurd rfl (hform _)
  · next heq => cases heq; rfl
  · next heq => cases heq; rfl
  · next heq => cases heq; rfl
  · cases h

/-- A candidate that is not a loop itself is a label in front of one. -/
theorem Node.isCandidate_cases {node : Node} (h : node.isCandidate = true) :
    node.isBlockLoop = true ∨
      ∃ label span body, node = .labeled label span body ∧ body.isCandidate = true := by
  obtain ⟨form, span, parts⟩ := node
  by_cases hform : ∃ label, form = .labeled label
  · obtain ⟨label, rfl⟩ := hform
    refine Or.inr ?_
    match parts, h with
    | [body], h => exact ⟨label, span, body, rfl, by rwa [Node.isCandidate_labeled] at h⟩
    | [], h => simp [Node.isCandidate, Loop.ofNode?] at h
    | _ :: _ :: _, h => simp [Node.isCandidate, Loop.ofNode?] at h
  · exact Or.inl (Node.isBlockLoop_of_isCandidate (fun label e => hform ⟨label, e⟩) h)

theorem Node.isLoop_and_isCandidate (form : Form) (span : Span) (parts : List Node) :
    (form.isLoop && (Node.mk form span parts).isCandidate) =
      (Node.mk form span parts).isBlockLoop := by
  rw [Bool.eq_iff_iff, Bool.and_eq_true]
  constructor
  · rintro ⟨hloop, hcand⟩
    refine Node.isBlockLoop_of_isCandidate ?_ hcand
    rintro label rfl
    cases hloop
  · intro h
    refine ⟨?_, Node.isCandidate_of_isBlockLoop h⟩
    unfold Node.isBlockLoop at h
    split at h
    · next heq => cases heq; rfl
    · next heq => cases heq; rfl
    · next heq => cases heq; rfl
    · cases h

/-! ### Adding up weights -/

/-- A way to weigh the landmarks of a tree.  Nodes that are no landmark weigh nothing and
hide nothing. -/
structure Gauge where
  stop : Landmark → Bool
  weight : Landmark → Nat
  stop_plain : stop .plain = false
  weight_plain : weight .plain = 0

mutual

/-- The sum of the weights of the landmarks of a tree, up to those that stop it. -/
def Node.tally (gauge : Gauge) : Node → Nat
  | .mk form span parts =>
    if gauge.stop (Node.mk form span parts).landmark then 0
    else gauge.weight (Node.mk form span parts).landmark + tallyIn gauge parts

/-- The sum of the weights of the landmarks of a list of trees, up to those that stop it. -/
def tallyIn (gauge : Gauge) : List Node → Nat
  | [] => 0
  | node :: nodes => node.tally gauge + tallyIn gauge nodes

end

variable {gauge : Gauge}

@[simp] theorem tallyIn_nil : tallyIn gauge [] = 0 := rfl

@[simp] theorem tallyIn_cons (node : Node) (nodes : List Node) :
    tallyIn gauge (node :: nodes) = node.tally gauge + tallyIn gauge nodes := rfl

@[simp] theorem tallyIn_append (nodes more : List Node) :
    tallyIn gauge (nodes ++ more) = tallyIn gauge nodes + tallyIn gauge more := by
  induction nodes with
  | nil => simp
  | cons node nodes ih => rw [List.cons_append, tallyIn_cons, tallyIn_cons, ih, Nat.add_assoc]

theorem Node.tally_of_stop {node : Node} (h : gauge.stop node.landmark = true) :
    node.tally gauge = 0 := by
  obtain ⟨form, span, parts⟩ := node
  rw [Node.tally, if_pos h]

theorem Node.tally_of_not_stop {node : Node} (h : gauge.stop node.landmark = false) :
    node.tally gauge = gauge.weight node.landmark + tallyIn gauge node.parts := by
  obtain ⟨form, span, parts⟩ := node
  rw [Node.tally, h]
  rfl

/-- A node that is no landmark weighs as much as its parts. -/
theorem Node.tally_of_plain {node : Node} (h : node.landmark = .plain) :
    node.tally gauge = tallyIn gauge node.parts := by
  rw [Node.tally_of_not_stop (by rw [h, gauge.stop_plain]), h, gauge.weight_plain, Nat.zero_add]

/-- The weight of a node depends on its landmark and on the weight of its parts only. -/
theorem Node.tally_congr {a b : Node} (hmark : b.landmark = a.landmark)
    (hparts : tallyIn gauge b.parts = tallyIn gauge a.parts) : b.tally gauge = a.tally gauge := by
  cases hstop : gauge.stop a.landmark with
  | true => rw [Node.tally_of_stop hstop, Node.tally_of_stop (hmark ▸ hstop)]
  | false =>
      rw [Node.tally_of_not_stop hstop, Node.tally_of_not_stop (hmark ▸ hstop), hmark, hparts]

/-- Around lighter parts a node is lighter. -/
theorem Node.tally_mono {a b : Node} (hmark : b.landmark = a.landmark)
    (hparts : tallyIn gauge b.parts ≤ tallyIn gauge a.parts) : b.tally gauge ≤ a.tally gauge := by
  cases hstop : gauge.stop a.landmark with
  | true =>
      rw [Node.tally_of_stop (hmark ▸ hstop)]
      exact Nat.zero_le _
  | false =>
      rw [Node.tally_of_not_stop hstop, Node.tally_of_not_stop (hmark ▸ hstop), hmark]
      exact Nat.add_le_add_left hparts _

theorem tally_le_tallyIn {node : Node} {nodes : List Node} (h : node ∈ nodes) :
    node.tally gauge ≤ tallyIn gauge nodes := by
  induction nodes with
  | nil => exact absurd h List.not_mem_nil
  | cons other nodes ih =>
      rw [tallyIn_cons]
      rcases List.mem_cons.mp h with rfl | hmem
      · exact Nat.le_add_right _ _
      · exact Nat.le_trans (ih hmem) (Nat.le_add_left _ _)

theorem tallyIn_eq_zero {nodes : List Node} (h : ∀ node ∈ nodes, node.tally gauge = 0) :
    tallyIn gauge nodes = 0 := by
  induction nodes with
  | nil => rfl
  | cons node nodes ih =>
      rw [tallyIn_cons, h node List.mem_cons_self, Nat.zero_add]
      exact ih fun other hother => h other (List.mem_cons_of_mem node hother)

theorem tallyIn_eq_of_forall₂ {nodes others : List Node}
    (h : List.Forall₂ (fun a b => b.tally gauge = a.tally gauge) nodes others) :
    tallyIn gauge others = tallyIn gauge nodes := by
  induction h with
  | nil => rfl
  | cons hhead _ ih => rw [tallyIn_cons, tallyIn_cons, hhead, ih]

theorem tallyIn_le_of_forall₂ {nodes others : List Node}
    (h : List.Forall₂ (fun a b => b.tally gauge ≤ a.tally gauge) nodes others) :
    tallyIn gauge others ≤ tallyIn gauge nodes := by
  induction h with
  | nil => exact Nat.le_refl _
  | cons hhead _ ih => exact Nat.add_le_add hhead ih

theorem tallyIn_le_tallyIn {other : Gauge} {nodes : List Node}
    (h : ∀ node ∈ nodes, node.tally gauge ≤ node.tally other) :
    tallyIn gauge nodes ≤ tallyIn other nodes := by
  induction nodes with
  | nil => exact Nat.le_refl _
  | cons node nodes ih =>
      refine Nat.add_le_add (h node List.mem_cons_self) ?_
      exact ih fun other hother => h other (List.mem_cons_of_mem node hother)

theorem tallyIn_filter_le (keep : Node → Bool) (nodes : List Node) :
    tallyIn gauge (nodes.filter keep) ≤ tallyIn gauge nodes := by
  induction nodes with
  | nil => exact Nat.le_refl _
  | cons node nodes ih =>
      rw [List.filter_cons]
      split
      · exact Nat.add_le_add_left ih _
      · exact Nat.le_trans ih (Nat.le_add_left _ _)

/-- Parts that agree on what is a `let` or `const` make the same loops. -/
theorem Node.isBlockLoop_of_forall₂ {form : Form} {span span' : Span} {parts parts' : List Node}
    (hparts : List.Forall₂ (fun a b => b.isLexicalDecl = a.isLexicalDecl) parts parts')
    (h : (Node.mk form span parts).isBlockLoop = true) :
    (Node.mk form span' parts').isBlockLoop = true := by
  unfold Node.isBlockLoop at h
  split at h
  · next heq =>
    cases heq
    obtain _ | ⟨hhead, _ | ⟨_, _ | ⟨_, _ | ⟨_, ⟨⟩⟩⟩⟩⟩ := hparts
    exact hhead.trans h
  · next heq =>
    cases heq
    obtain _ | ⟨hhead, _ | ⟨_, _ | ⟨_, ⟨⟩⟩⟩⟩ := hparts
    exact hhead.trans h
  · next heq =>
    cases heq
    obtain _ | ⟨hhead, _ | ⟨_, _ | ⟨_, ⟨⟩⟩⟩⟩ := hparts
    exact hhead.trans h
  · cases h

theorem Node.landmark_congr {form : Form} {span : Span} {parts parts' : List Node}
    (hparts : List.Forall₂ (fun a b => b.isLexicalDecl = a.isLexicalDecl) parts parts') :
    (Node.mk form span parts').landmark = (Node.mk form span parts).landmark := by
  have hloop : (Node.mk form span parts').isBlockLoop = (Node.mk form span parts).isBlockLoop := by
    rw [Bool.eq_iff_iff]
    refine ⟨fun h => ?_, fun h => Node.isBlockLoop_of_forall₂ hparts h⟩
    exact Node.isBlockLoop_of_forall₂ (hparts.flip.imp fun _ _ e => e.symm) h
  unfold Node.landmark
  rw [hloop]
  rfl

/-! ### The counts of the library -/

/-- Weigh block-scoped loops, and nothing else. -/
def Landmark.loopWeight (landmark : Landmark) : Nat := if landmark.loop?.isSome then 1 else 0

/-- Weigh block-scoped loops and owners of regions. -/
def Landmark.regionWeight (landmark : Landmark) : Nat :=
  (if landmark.owner then 1 else 0) + landmark.loopWeight

namespace Gauge

/-- Count the loops of a region, up to closures. -/
def inRegion : Gauge := ⟨(·.closure), (·.loopWeight), rfl, rfl⟩

/-- Count the loops outside the regions in a tree. -/
def outside : Gauge := ⟨(·.owner), (·.loopWeight), rfl, rfl⟩

/-- Count all loops. -/
def all : Gauge := ⟨fun _ => false, (·.loopWeight), rfl, rfl⟩

/-- Count all loops and regions. -/
def withRegions : Gauge := ⟨fun _ => false, (·.regionWeight), rfl, rfl⟩

end Gauge

theorem Landmark.loopWeight_landmark (node : Node) :
    node.landmark.loopWeight = if node.isBlockLoop then 1 else 0 := by
  unfold Landmark.loopWeight Node.landmark
  cases node.isBlockLoop <;> rfl

/-- The loops left in a region are its loops up to closures. -/
theorem Node.candidates_eq_tally (node : Node) : node.candidates = node.tally .inRegion := by
  induction node using Node.inductionOn with
  | step form span parts ih =>
      have hparts : candidatesIn parts = tallyIn .inRegion parts := by
        clear * - ih
        induction parts with
        | nil => rfl
        | cons part parts hrest =>
            rw [candidatesIn, tallyIn_cons, ih part List.mem_cons_self,
              hrest fun other hother => ih other (List.mem_cons_of_mem part hother)]
      have hweight := Landmark.loopWeight_landmark (.mk form span parts)
      rw [Node.candidates, Node.tally, Node.isLoop_and_isCandidate, hparts, ← hweight]
      rfl

/-- Regions and loops are counted without stopping anywhere. -/
theorem Node.regionsAndLoops_eq_tally (node : Node) :
    node.regionsAndLoops = node.tally .withRegions := by
  induction node using Node.inductionOn with
  | step form span parts ih =>
      have hparts : regionsAndLoopsIn parts = tallyIn .withRegions parts := by
        clear * - ih
        induction parts with
        | nil => rfl
        | cons part parts hrest =>
            rw [regionsAndLoopsIn, tallyIn_cons, ih part List.mem_cons_self,
              hrest fun other hother => ih other (List.mem_cons_of_mem part hother)]
      have hweight := Landmark.loopWeight_landmark (.mk form span parts)
      rw [Node.regionsAndLoops, Node.tally, Node.isLoop_and_isCandidate, hparts, ← hweight]
      rfl

theorem Node.tally_all_mk (form : Form) (span : Span) (parts : List Node) :
    (Node.mk form span parts).tally .all =
      (if (Node.mk form span parts).isBlockLoop then 1 else 0) + tallyIn .all parts := by
  rw [Node.tally_of_not_stop rfl, ← Landmark.loopWeight_landmark]
  rfl

theorem Node.tally_all_part_eq_zero {form : Form} {span : Span} {parts : List Node} {part : Node}
    (hmem : part ∈ parts) (h : (Node.mk form span parts).tally .all = 0) :
    part.tally .all = 0 := by
  rw [Node.tally_all_mk] at h
  have hle : part.tally .all ≤ tallyIn .all parts := tally_le_tallyIn hmem
  omega

/-- Among trees without block-scoped loops none is a candidate. -/
theorem Node.isCandidate_eq_false_of_tally_all {node : Node} (h : node.tally .all = 0) :
    node.isCandidate = false := by
  induction node using Node.inductionOn with
  | step form span parts ih =>
      by_contra hcand
      rw [Bool.not_eq_false] at hcand
      rcases Node.isCandidate_cases hcand with hloop | ⟨label, labelSpan, body, heq, hbody⟩
      · rw [Node.tally_all_mk, if_pos hloop] at h
        omega
      · cases heq
        have hnone := ih body List.mem_cons_self (Node.tally_all_part_eq_zero List.mem_cons_self h)
        exact Bool.false_ne_true (hnone.symm.trans hbody)

/-- A tree without block-scoped loops has no candidate anywhere in it. -/
theorem Node.isCandidate_eq_false_of_within {stmt node : Node} (hstmt : stmt.Within node)
    (h : node.tally .all = 0) : stmt.isCandidate = false := by
  induction hstmt with
  | self => exact Node.isCandidate_eq_false_of_tally_all h
  | part hmem _ ih => exact ih (Node.tally_all_part_eq_zero hmem h)

end LoopLowering
