/-
Where the block-scoped loops of a tree are, and which of them are refused there.

A loop is refused for what it declares, for what its closures reach, or for a jump it cannot
keep.  All but the jump can be seen in the loop alone.  A jump to a label outside the loop is
harmless if the label belongs to a loop around it whose body becomes a function first: then
the jump has become a return by the time the inner loop has its turn.  A place is therefore a
loop together with the labels around it, and `Loop.RefusedUnder` says when the loop is refused
there.

While other loops are lowered, places change in many ways, but what matters of them does not.
That is their verdict: the range of the loop, whether it is made as a reader of source text
makes it, whether it is refused, and which bindings its closures capture.
-/
import LoopLowering.Proofs.LoopFree

namespace LoopLowering

/-! ### Jumps out of a tree -/

/-- The label of a jump that has one. -/
def Form.jumpLabels : Form → List String
  | .breakStmt (some label) => [label.text]
  | .continueStmt (some label) => [label.text]
  | _ => []

mutual

/-- The labels the jumps of a tree go to, if they are not in the tree themselves.  Closures
are left out. -/
def Node.outerLabels : Node → List String
  | .mk form _ parts =>
    if form.isClosure then []
    else match form with
      | .labeled label => (outerLabelsIn parts).filter (· != label.text)
      | _ => form.jumpLabels ++ outerLabelsIn parts

/-- The labels the jumps of a list of trees go to, if they are not in the tree themselves. -/
def outerLabelsIn : List Node → List String
  | [] => []
  | node :: nodes => node.outerLabels ++ outerLabelsIn nodes

end

theorem outerLabelsIn_eq_flatMap (nodes : List Node) :
    outerLabelsIn nodes = nodes.flatMap Node.outerLabels := by
  induction nodes with
  | nil => rfl
  | cons node nodes ih => rw [outerLabelsIn, ih, List.flatMap_cons]

theorem Node.outerLabels_of_isClosure {form : Form} (h : form.isClosure = true) (span : Span)
    (parts : List Node) : (Node.mk form span parts).outerLabels = [] := by
  unfold Node.outerLabels
  rw [if_pos h]

theorem Node.outerLabels_labeled (label : Name) (span : Span) (parts : List Node) :
    (Node.mk (.labeled label) span parts).outerLabels =
      (outerLabelsIn parts).filter (· != label.text) := by
  unfold Node.outerLabels
  rw [if_neg (by simp [Form.isClosure])]

/-- A node that is neither closure nor label jumps where itself and its parts do. -/
theorem Node.outerLabels_mk {form : Form} (hclosure : form.isClosure = false)
    (hlabel : ∀ label, form ≠ .labeled label) (span : Span) (parts : List Node) :
    (Node.mk form span parts).outerLabels = form.jumpLabels ++ outerLabelsIn parts := by
  unfold Node.outerLabels
  rw [hclosure]
  simp only [Bool.false_eq_true, if_false]

/-! ### Places -/

/-- Whether the body of a statement becomes a function when the statement is lowered. -/
def Node.extracts (stmt : Node) : Bool :=
  (Loop.ofNode? stmt).any (·.capture.needsExtraction)

theorem Node.isCandidate_eq_false {node : Node} :
    node.isCandidate = false ↔ Loop.ofNode? node = none := by
  rw [Node.isCandidate, Option.isSome_eq_false_iff, Option.isNone_iff_eq_none]

theorem Node.extracts_of_not_isCandidate {node : Node} (h : node.isCandidate = false) :
    node.extracts = false := by
  rw [Node.extracts, Node.isCandidate_eq_false.mp h]
  rfl

theorem Node.isCandidate_of_category {node : Node} (h : node.form.category ≠ .stmt) :
    node.isCandidate = false := by
  by_contra hcandidate
  exact h (Node.category_of_isCandidate (Bool.not_eq_false _ ▸ hcandidate))

theorem Node.isBlockLoop_of_not_isCandidate {node : Node} (h : node.isCandidate = false) :
    node.isBlockLoop = false := by
  by_contra hloop
  rw [Node.isCandidate_of_isBlockLoop (Bool.not_eq_false _ ▸ hloop)] at h
  cases h

theorem Loop.ofNode?_of_not_isBlockLoop {form : Form} {span : Span} {parts : List Node}
    (hlabel : ∀ label, form ≠ .labeled label)
    (h : (Node.mk form span parts).isBlockLoop = false) :
    Loop.ofNode? (.mk form span parts) = none := by
  refine Node.isCandidate_eq_false.mp ?_
  by_contra hcandidate
  rw [Node.isBlockLoop_of_isCandidate hlabel (Bool.not_eq_false _ ▸ hcandidate)] at h
  cases h

theorem Node.isCandidate_of_isClosure {form : Form} (h : form.isClosure = true) (span : Span)
    (parts : List Node) : (Node.mk form span parts).isCandidate = false := by
  have hcalm := (Form.isCalm_of_isClosure h).1
  refine Node.isCandidate_of_category fun hstmt => ?_
  rw [show form.category = .stmt from hstmt] at hcalm
  cases hcalm

/-- A block-scoped loop and the labels around it, innermost first, its own included.  With
each label stands whether it is the label of a loop whose body becomes a function. -/
structure Place where
  loop : Loop
  around : List (String × Bool)

mutual

/-- The block-scoped loops of a tree that stands under some labels, in source order. -/
def Node.loopsUnder (around : List (String × Bool)) : Node → List Place
  | .mk form span parts =>
    if form.isClosure then loopsUnderIn [] parts
    else match form with
      | .labeled label =>
        loopsUnderIn ((label.text, (Node.mk form span parts).extracts) :: around) parts
      | _ =>
        (Loop.ofNode? (.mk form span parts)).toList.map (⟨·, around⟩) ++ loopsUnderIn around parts

/-- The block-scoped loops of a list of trees that stand under some labels. -/
def loopsUnderIn (around : List (String × Bool)) : List Node → List Place
  | [] => []
  | node :: nodes => node.loopsUnder around ++ loopsUnderIn around nodes

end

theorem loopsUnderIn_eq_flatMap (around : List (String × Bool)) (nodes : List Node) :
    loopsUnderIn around nodes = nodes.flatMap (Node.loopsUnder around) := by
  induction nodes with
  | nil => rfl
  | cons node nodes ih => rw [loopsUnderIn, ih, List.flatMap_cons]

/-- Whether a body that has to become a function cannot: it suspends or refers to the function
around it, or declares function-scoped variables by a pattern. -/
def Capture.Record.isBound (record : Capture.Record) : Bool :=
  record.suspension.isSome || record.functionBound.isSome || record.destructuringVar.isSome

/-- The loop is refused where it stands under the given labels: its head declares by a pattern,
a closure reaches a binding of an inner loop, or the body has to become a function and cannot,
be it for what is in it or for a jump to a label that stays outside the function. -/
def Loop.RefusedUnder (around : List (String × Bool)) (loop : Loop) : Prop :=
  (∃ declarator ∈ loop.decl.declarators, declarator.declaresName = false) ∨
    loop.capture.innerLoopBindingCaptured = true ∨
    loop.capture.needsExtraction = true ∧
      (loop.capture.isBound = true ∨
        ∃ label ∈ loop.body.outerLabels, around.lookup label ≠ some true)

instance (around : List (String × Bool)) (loop : Loop) : Decidable (loop.RefusedUnder around) := by
  unfold Loop.RefusedUnder
  infer_instance

/-- The loop is refused at its place. -/
def Place.Refused (place : Place) : Prop := place.loop.RefusedUnder place.around

instance (place : Place) : Decidable place.Refused := by
  unfold Place.Refused
  infer_instance

/-! ### Trees as a reader makes them -/

mutual

/-- Whether every node of a tree passes a test. -/
def Node.everywhere (test : Node → Bool) : Node → Bool
  | .mk form span parts => test (.mk form span parts) && everywhereIn test parts

/-- Whether every node of a list of trees passes a test. -/
def everywhereIn (test : Node → Bool) : List Node → Bool
  | [] => true
  | node :: nodes => node.everywhere test && everywhereIn test nodes

end

theorem everywhereIn_eq_all (test : Node → Bool) (nodes : List Node) :
    everywhereIn test nodes = nodes.all (Node.everywhere test) := by
  induction nodes with
  | nil => rfl
  | cons node nodes ih => rw [everywhereIn, ih, List.all_cons]

theorem Node.everywhere_mk {test : Node → Bool} {form : Form} {span : Span} {parts : List Node} :
    (Node.mk form span parts).everywhere test = true ↔
      test (.mk form span parts) = true ∧ ∀ part ∈ parts, part.everywhere test = true := by
  rw [Node.everywhere, Bool.and_eq_true, everywhereIn_eq_all, List.all_eq_true]

theorem Node.passes_of_everywhere {test : Node → Bool} {node : Node}
    (h : node.everywhere test = true) : test node = true := by
  obtain ⟨form, span, parts⟩ := node
  exact (Node.everywhere_mk.mp h).1

theorem Node.Within.everywhere {node tree : Node} {test : Node → Bool} (h : node.Within tree)
    (htree : tree.everywhere test = true) : node.everywhere test = true := by
  induction h with
  | self => exact htree
  | part hmem _ ih => exact ih ((Node.everywhere_mk.mp htree).2 _ hmem)

theorem Node.everywhere_and {test other : Node → Bool} {node : Node}
    (h : node.everywhere test = true) (hother : node.everywhere other = true) :
    node.everywhere (fun node => test node && other node) = true := by
  induction node using Node.inductionOn with
  | step form span parts ih =>
      rw [Node.everywhere_mk] at h hother ⊢
      refine ⟨by rw [h.1, hother.1]; rfl, fun part hmem => ?_⟩
      exact ih part hmem (h.2 part hmem) (hother.2 part hmem)

/-- Whether a declarator has no initialiser. -/
def Node.isBareDeclarator : Node → Bool
  | .mk (.declarator _) _ [_, init] => init.isAbsent
  | _ => false

/-- Whether a node, if it is a declaration, is one declarator without initialiser. -/
def Node.isBareDecl : Node → Bool
  | .mk (.varDecl _ _) _ [single] => single.isBareDeclarator
  | .mk (.varDecl _ _) _ _ => false
  | _ => true

/-- Whether the head of a loop over keys or values is what it can be in source text: if it is
a declaration, then of one variable that is not initialised. -/
def Node.headIsBare : Node → Bool
  | .mk .forInStmt _ (head :: _) => head.isBareDecl
  | .mk (.forOfStmt _) _ (head :: _) => head.isBareDecl
  | _ => true

/-- Whether the scope of a node leaves `arguments` alone, as strict code has to. -/
def Node.keepsArguments (node : Node) : Bool := !decide ("arguments" ∈ node.scopeNames)

/-! ### Verdicts -/

/-- Whether a node is made as a reader makes it.  Only where loops are judged, the code has to
be strict as well. -/
def Node.isSound (judged : Bool) (node : Node) : Bool :=
  node.headIsBare && (!judged || node.keepsArguments)

theorem Node.isSound_false : Node.isSound false = Node.headIsBare :=
  funext fun _ => Bool.and_true _

theorem Node.notMem_scopeNames_of_isSound {node : Node} (h : node.isSound true = true) :
    "arguments" ∉ node.scopeNames := by
  simp only [Node.isSound, Node.keepsArguments, Bool.and_eq_true, Bool.not_true, Bool.false_or] at h
  simpa using h.2

/-- What is known of a loop at its place. -/
structure Verdict where
  span : Span
  sound : Bool
  refused : Prop
  /-- The origins of the bindings that a closure of the loop captures. -/
  captures : Capture.Origin → Prop

/-- The verdict on a loop at its place.  Of loops that are not judged nothing is found. -/
def Place.verdict (judged : Bool) (place : Place) : Verdict :=
  ⟨place.loop.span, place.loop.toUnlabeled.everywhere (Node.isSound judged),
    judged = true ∧ place.Refused,
    fun origin => judged = true ∧ .captured origin ∈ place.loop.findings⟩

/-- The verdicts on the loops of a tree that stands under some labels. -/
def Node.verdicts (judged : Bool) (around : List (String × Bool)) (node : Node) : List Verdict :=
  (node.loopsUnder around).map (Place.verdict judged)

/-- The verdicts on the loops of a list of trees. -/
def verdictsIn (judged : Bool) (around : List (String × Bool)) (nodes : List Node) :
    List Verdict :=
  nodes.flatMap (Node.verdicts judged around)

section

variable {judged : Bool} {around : List (String × Bool)}

@[simp] theorem verdictsIn_nil : verdictsIn judged around [] = [] := rfl

@[simp] theorem verdictsIn_cons (node : Node) (nodes : List Node) :
    verdictsIn judged around (node :: nodes) =
      node.verdicts judged around ++ verdictsIn judged around nodes := rfl

@[simp] theorem verdictsIn_append (nodes more : List Node) :
    verdictsIn judged around (nodes ++ more) =
      verdictsIn judged around nodes ++ verdictsIn judged around more :=
  List.flatMap_append

theorem verdictsIn_eq_map (nodes : List Node) :
    verdictsIn judged around nodes = (loopsUnderIn around nodes).map (Place.verdict judged) := by
  rw [loopsUnderIn_eq_flatMap, List.map_flatMap]
  rfl

theorem Node.verdicts_of_isClosure {form : Form} (h : form.isClosure = true) (span : Span)
    (parts : List Node) :
    (Node.mk form span parts).verdicts judged around = verdictsIn judged [] parts := by
  unfold Node.verdicts Node.loopsUnder
  rw [if_pos h, verdictsIn_eq_map]

theorem Node.verdicts_labeled (label : Name) (span : Span) (parts : List Node) :
    (Node.mk (.labeled label) span parts).verdicts judged around =
      verdictsIn judged
        ((label.text, (Node.mk (.labeled label) span parts).extracts) :: around) parts := by
  unfold Node.verdicts Node.loopsUnder
  rw [if_neg (by simp [Form.isClosure]), verdictsIn_eq_map]

/-- A node that is neither closure nor label has the verdict on itself, if it is a loop, and
those on its parts. -/
theorem Node.verdicts_mk {form : Form} (hclosure : form.isClosure = false)
    (hlabel : ∀ label, form ≠ .labeled label) (span : Span) (parts : List Node) :
    (Node.mk form span parts).verdicts judged around =
      (Loop.ofNode? (.mk form span parts)).toList.map
        (fun loop => Place.verdict judged ⟨loop, around⟩) ++ verdictsIn judged around parts := by
  unfold Node.verdicts Node.loopsUnder
  rw [hclosure]
  simp only [Bool.false_eq_true, if_false]
  rw [List.map_append, List.map_map, verdictsIn_eq_map]
  rfl

/-- A node that is neither closure, label nor loop has the verdicts on its parts. -/
theorem Node.verdicts_of_not_isCandidate {form : Form} (hclosure : form.isClosure = false)
    (hlabel : ∀ label, form ≠ .labeled label) {span : Span} {parts : List Node}
    (h : (Node.mk form span parts).isCandidate = false) :
    (Node.mk form span parts).verdicts judged around = verdictsIn judged around parts := by
  rw [Node.verdicts_mk hclosure hlabel, Node.isCandidate_eq_false.mp h]
  rfl

end

theorem Loop.toUnlabeled_of_ofNode? {form : Form} (hlabel : ∀ label, form ≠ .labeled label)
    {span : Span} {parts : List Node} {loop : Loop}
    (h : Loop.ofNode? (.mk form span parts) = some loop) :
    loop.toUnlabeled = .mk form span parts := by
  unfold Loop.ofNode? at h
  split at h
  · next heq =>
    cases heq
    exact absurd rfl (hlabel _)
  · next heq => cases heq; cases h; rfl
  · next heq => cases heq; cases h; rfl
  · next heq => cases heq; cases h; rfl
  · cases h

/-- A node has the verdicts on its parts under some labels, and that on itself if it is a
loop. -/
theorem Node.verdicts_cases (judged : Bool) (around : List (String × Bool)) (form : Form)
    (span : Span) (parts : List Node) :
    ((Node.mk form span parts).isBlockLoop = false ∧
        ∃ inner, (Node.mk form span parts).verdicts judged around = verdictsIn judged inner parts) ∨
      (Node.mk form span parts).isBlockLoop = true ∧
        ∃ loop : Loop, loop.toUnlabeled = .mk form span parts ∧
          (Node.mk form span parts).verdicts judged around =
            Place.verdict judged ⟨loop, around⟩ :: verdictsIn judged around parts := by
  cases hclosure : form.isClosure with
  | true =>
      have hloop := Node.isCandidate_of_isClosure hclosure span parts
      exact Or.inl ⟨Node.isBlockLoop_of_not_isCandidate hloop, [],
        Node.verdicts_of_isClosure hclosure _ _⟩
  | false =>
      by_cases hlabel : ∃ label, form = .labeled label
      · obtain ⟨label, rfl⟩ := hlabel
        exact Or.inl ⟨rfl, _, Node.verdicts_labeled label span parts⟩
      · have hlabel : ∀ label, form ≠ .labeled label := fun label e => hlabel ⟨label, e⟩
        cases hcandidate : (Node.mk form span parts).isCandidate with
        | false =>
            exact Or.inl ⟨Node.isBlockLoop_of_not_isCandidate hcandidate, around,
              Node.verdicts_of_not_isCandidate hclosure hlabel hcandidate⟩
        | true =>
            obtain ⟨loop, hloop⟩ := Option.isSome_iff_exists.mp hcandidate
            refine Or.inr ⟨Node.isBlockLoop_of_isCandidate hlabel hcandidate, loop,
              Loop.toUnlabeled_of_ofNode? hlabel hloop, ?_⟩
            rw [Node.verdicts_mk hclosure hlabel, hloop]
            rfl

/-- Where loops are not judged, the labels around them do not matter. -/
theorem Node.verdicts_false (around around' : List (String × Bool)) (node : Node) :
    node.verdicts false around = node.verdicts false around' := by
  have hverdict : ∀ loop,
      Place.verdict false ⟨loop, around⟩ = Place.verdict false ⟨loop, around'⟩ := by
    intro loop
    simp [Place.verdict]
  induction node using Node.inductionOn generalizing around around' with
  | step form span parts ih =>
      have hparts : ∀ around around', verdictsIn false around parts =
          verdictsIn false around' parts :=
        fun around around' => List.flatMap_congr fun part hmem =>
          ih part hmem _ _ (by simp [Place.verdict])
      cases hclosure : form.isClosure with
      | true => rw [Node.verdicts_of_isClosure hclosure, Node.verdicts_of_isClosure hclosure]
      | false =>
          by_cases hlabel : ∃ label, form = .labeled label
          · obtain ⟨label, rfl⟩ := hlabel
            rw [Node.verdicts_labeled, Node.verdicts_labeled]
            exact hparts _ _
          · have hlabel : ∀ label, form ≠ .labeled label := fun label e => hlabel ⟨label, e⟩
            rw [Node.verdicts_mk hclosure hlabel, Node.verdicts_mk hclosure hlabel,
              hparts around around']
            simp only [hverdict]

/-! ### Quiet nodes -/

theorem Node.isCandidate_of_isQuiet {node : Node} (h : node.isQuiet = true) :
    node.isCandidate = false := by
  refine Node.isCandidate_of_category fun hstmt => ?_
  obtain ⟨form, span, parts⟩ := node
  rw [Node.isQuiet, Node.allAre] at h
  split at h
  · next hlist =>
    rw [show form = .list by simpa [Node.form] using hlist] at hstmt
    cases hstmt
  · rw [hstmt] at h
    cases h

theorem Form.jumpLabels_of_isQuiet {form : Form} {span : Span} {parts : List Node}
    (h : (Node.mk form span parts).isQuiet = true) :
    form.jumpLabels = [] ∧ ∀ label, form ≠ .labeled label := by
  cases form with
  | labeled | breakStmt | continueStmt => cases h
  | _ => exact ⟨rfl, fun label e => by cases e⟩

/-- No jump leaves a quiet node. -/
theorem Node.outerLabels_of_isQuiet {node : Node} (hwf : node.isWellFormed = true)
    (hquiet : node.isQuiet = true) : node.outerLabels = [] := by
  induction node using Node.inductionOn with
  | step form span parts ih =>
      cases hclosure : form.isClosure with
      | true => exact Node.outerLabels_of_isClosure hclosure span parts
      | false =>
          obtain ⟨hjump, hlabel⟩ := Form.jumpLabels_of_isQuiet hquiet
          rw [Node.outerLabels_mk hclosure hlabel, hjump, List.nil_append, outerLabelsIn_eq_flatMap,
            List.flatMap_eq_nil_iff]
          exact fun part hmem => ih part hmem (Node.isWellFormed_part hwf hmem)
            (Node.isQuiet_part hwf hquiet hclosure hmem)

/-- The labels around a quiet node do not matter to the loops in it. -/
theorem Node.verdicts_of_isQuiet {node : Node} (hwf : node.isWellFormed = true)
    (hquiet : node.isQuiet = true) (judged : Bool) (around around' : List (String × Bool)) :
    node.verdicts judged around = node.verdicts judged around' := by
  induction node using Node.inductionOn with
  | step form span parts ih =>
      cases hclosure : form.isClosure with
      | true => rw [Node.verdicts_of_isClosure hclosure, Node.verdicts_of_isClosure hclosure]
      | false =>
          have hlabel := (Form.jumpLabels_of_isQuiet hquiet).2
          have hloop := Node.isCandidate_of_isQuiet hquiet
          rw [Node.verdicts_of_not_isCandidate hclosure hlabel hloop,
            Node.verdicts_of_not_isCandidate hclosure hlabel hloop]
          exact List.flatMap_congr fun part hmem => ih part hmem (Node.isWellFormed_part hwf hmem)
            (Node.isQuiet_part hwf hquiet hclosure hmem)

/-! ### Jumps that cannot be kept -/

theorem JumpContext.stray_mem_jump? {ctx : JumpContext} {label? : Option Name} {stopped : Bool}
    {kind : JumpKind} {span : Span} {label : String} :
    .stray label ∈ (ctx.target label? stopped).jump? kind span ↔
      label?.map (·.text) = some label ∧ label ∉ ctx.inner ∧ label ∉ ctx.own := by
  cases label? with
  | none => cases stopped <;> simp [JumpContext.target, JumpTarget.jump?]
  | some name =>
      simp only [JumpContext.target, Option.map_some, Option.some.injEq]
      split
      · next hinner =>
        refine ⟨fun h => absurd h List.not_mem_nil, ?_⟩
        rintro ⟨rfl, hnot, -⟩
        exact absurd hinner hnot
      · split
        · next hown =>
          simp only [JumpTarget.jump?, List.mem_singleton, reduceCtorEq, false_iff]
          rintro ⟨rfl, -, hnot⟩
          exact hnot hown
        · next hinner hown =>
          simp only [JumpTarget.jump?, List.mem_singleton, Jump.stray.injEq]
          constructor
          · rintro rfl
            exact ⟨rfl, hinner, hown⟩
          · exact fun h => h.1.symm

/-- What is so for the jumps of each tree is so for those of a list. -/
theorem stray_mem_jumpsIn {nodes : List Node} {ctx : JumpContext} {label : String}
    (h : ∀ node ∈ nodes, .stray label ∈ node.jumps ctx ↔
      label ∈ node.outerLabels ∧ label ∉ ctx.inner ∧ label ∉ ctx.own) :
    .stray label ∈ jumpsIn ctx nodes ↔
      label ∈ outerLabelsIn nodes ∧ label ∉ ctx.inner ∧ label ∉ ctx.own := by
  simp only [jumpsIn_eq_flatMap, outerLabelsIn_eq_flatMap, List.mem_flatMap]
  constructor
  · rintro ⟨node, hmem, hstray⟩
    obtain ⟨hlabel, houter⟩ := (h node hmem).mp hstray
    exact ⟨⟨node, hmem, hlabel⟩, houter⟩
  · rintro ⟨⟨node, hmem, hlabel⟩, houter⟩
    exact ⟨node, hmem, (h node hmem).mpr ⟨hlabel, houter⟩⟩

/-- The jumps that cannot be kept are those to labels neither in the body nor of the loop. -/
theorem Node.stray_mem_jumps {node : Node} (hwf : node.isWellFormed = true) {ctx : JumpContext}
    {label : String} :
    .stray label ∈ node.jumps ctx ↔
      label ∈ node.outerLabels ∧ label ∉ ctx.inner ∧ label ∉ ctx.own := by
  induction node using Node.inductionOn generalizing ctx with
  | step form span parts ih =>
      have hparts : ∀ ctx : JumpContext, .stray label ∈ jumpsIn ctx parts ↔
          label ∈ outerLabelsIn parts ∧ label ∉ ctx.inner ∧ label ∉ ctx.own := fun ctx =>
        stray_mem_jumpsIn fun part hmem => ih part hmem (Node.isWellFormed_part hwf hmem)
      unfold Node.jumps
      split
      · next hclosure => simp [Node.outerLabels_of_isClosure hclosure]
      · next hclosure =>
        rw [Bool.not_eq_true] at hclosure
        split
        · next label? =>
          obtain rfl := Node.parts_eq_nil rfl (by simp) hwf
          rw [JumpContext.breakTarget, JumpContext.stray_mem_jump?,
            Node.outerLabels_mk rfl (by simp)]
          cases label? <;> simp [Form.jumpLabels, outerLabelsIn, eq_comm]
        · next label? =>
          obtain rfl := Node.parts_eq_nil rfl (by simp) hwf
          rw [JumpContext.continueTarget, JumpContext.stray_mem_jump?,
            Node.outerLabels_mk rfl (by simp)]
          cases label? <;> simp [Form.jumpLabels, outerLabelsIn, eq_comm]
        · have hnone : outerLabelsIn parts = [] := by
            rw [outerLabelsIn_eq_flatMap, List.flatMap_eq_nil_iff]
            intro part hmem
            obtain ⟨slot, hslot, hadmits⟩ :=
              Shape.exists_slot ((Node.isWellFormed_mk.mp hwf).1.resolve_left (by simp)) hmem
            obtain rfl : slot = .optional Category.exprs := by
              simpa [Form.shape, Shape.slots] using hslot
            exact Node.outerLabels_of_isQuiet (Node.isWellFormed_part hwf hmem)
              (Slot.allAre_of_admits rfl rfl (by decide) hadmits)
          rw [Node.outerLabels_mk rfl (by simp), hnone]
          simp [Form.jumpLabels]
        · next hbreak hcontinue hreturn =>
          rw [hparts]
          by_cases hlabel : ∃ name, form = .labeled name
          · obtain ⟨name, rfl⟩ := hlabel
            simp only [Node.outerLabels_labeled, JumpContext.enter, List.mem_filter, bne_iff_ne,
              List.mem_cons]
            tauto
          · have hjump : form.jumpLabels = [] := by
              cases form with
              | breakStmt label? => exact absurd rfl (hbreak label?)
              | continueStmt label? => exact absurd rfl (hcontinue label?)
              | _ => rfl
            have henter : (ctx.enter form).inner = ctx.inner ∧ (ctx.enter form).own = ctx.own := by
              unfold JumpContext.enter
              split
              · exact absurd ⟨_, rfl⟩ hlabel
              · exact ⟨rfl, rfl⟩
              · split <;> exact ⟨rfl, rfl⟩
            rw [Node.outerLabels_mk hclosure (fun name e => hlabel ⟨name, e⟩), hjump,
              List.nil_append, henter.1, henter.2]

/-- A body has a jump that cannot be kept if and only if a label outside the loop is jumped
to. -/
theorem firstStray?_eq_none {stmts : List Node} (hwf : ∀ stmt ∈ stmts, stmt.isWellFormed = true)
    {own : List String} :
    firstStray? (jumpsIn (.top own) stmts) = none ↔ ∀ label ∈ outerLabelsIn stmts, label ∈ own := by
  have hstray : ∀ label, .stray label ∈ jumpsIn (.top own) stmts ↔
      label ∈ outerLabelsIn stmts ∧ label ∉ own := by
    intro label
    rw [stray_mem_jumpsIn fun stmt hmem => Node.stray_mem_jumps (hwf stmt hmem)]
    exact and_congr_right fun _ => and_iff_right List.not_mem_nil
  unfold firstStray?
  rw [List.findSome?_eq_none_iff]
  constructor
  · intro h label hlabel
    by_contra hown
    cases h _ ((hstray label).mpr ⟨hlabel, hown⟩)
  · intro h jump hjump
    cases jump with
    | site => rfl
    | stray label =>
        obtain ⟨hlabel, hown⟩ := (hstray label).mp hjump
        exact absurd (h label hlabel) hown

/-! ### Trees without loops -/

/-- A tree without block-scoped loops has no place for a verdict. -/
theorem Node.verdicts_of_tally_all {node : Node} (h : node.tally .all = 0) (judged : Bool)
    (around : List (String × Bool)) : node.verdicts judged around = [] := by
  induction node using Node.inductionOn generalizing around with
  | step form span parts ih =>
      rcases Node.verdicts_cases judged around form span parts with ⟨-, inner, heq⟩ | ⟨hloop, -⟩
      · rw [heq]
        exact List.flatMap_eq_nil_iff.mpr fun part hmem =>
          ih part hmem (Node.tally_all_part_eq_zero hmem h) inner
      · have hnone := Node.isCandidate_eq_false_of_tally_all h
        rw [Node.isCandidate_of_isBlockLoop hloop] at hnone
        cases hnone

end LoopLowering
