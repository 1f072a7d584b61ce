/-
What in a tree belongs to the function around it.

Some constructs mean nothing by themselves.  `this` and `arguments` are the function's, `yield` and
`await` suspend it, `super` and `new.target` refer to how it is called.  A bond is such a
construct together with what lies between it and the code around the tree: nothing, arrows, or a
function with a `this` of its own.  Whether the construct belongs to the code around the tree is
read off the bond.

The analysis of a loop and the language do not always agree about what lies in between.  To the
analysis a class is a function, and an accessor or a constructor is one as a whole.  In the language
the heritage of a class, its decorators and all computed keys run outside, where the class is
defined.  So a bond says both.

What is done to the body of a loop on its way into a function moves bonds about, but it neither
makes nor loses one, and none gets into another function or out of it.  `Node.KeepsBonds` is what
these steps have in common.
-/
import LoopLowering.Proofs.Verdicts

namespace LoopLowering

/-! ### Constructs -/

/-- What an arrow takes from the function around it. -/
inductive Receiver where
  | this
  | arguments
deriving DecidableEq, Repr

/-- A construct whose meaning depends on the function around it. -/
inductive Construct where
  /-- An expression or a shorthand property that refers to it. -/
  | receiver (receiver : Receiver)
  /-- An element whose name begins with it, as in `<this.Row />`. -/
  | element (receiver : Receiver)
  /-- A keyword that suspends the function or refers to it. -/
  | keyword (keyword : Capture.Keyword)
  /-- A declaration with `await using`. -/
  | resource
  /-- A variable that stands for it. -/
  | alias (receiver : Receiver)
deriving DecidableEq, Repr

/-- What is read as a construct, keywords apart: `this`, variables by their names, and the front of
the name of an element. -/
structure Reading where
  this : Option Construct
  used : String → Option Construct
  object : String → Option Construct

namespace Reading

/-- Nothing but keywords. -/
def keywords : Reading := ⟨none, fun _ => none, fun _ => none⟩

/-- `this` and `arguments`, and the variables that stand for them. -/
def receivers (aliases : Aliases) : Reading where
  this := some (.receiver .this)
  used name :=
    if name = "arguments" then some (.receiver .arguments)
    else if aliases.this? = some name then some (.alias .this)
    else if aliases.arguments? = some name then some (.alias .arguments)
    else none
  object name :=
    if name = "this" then some (.element .this)
    else if name = "arguments" then some (.element .arguments)
    else none

/-- A name stands for no construct. -/
def Ignores (reading : Reading) (name : String) : Prop :=
  reading.used name = none ∧ reading.object name = none

instance (reading : Reading) (name : String) : Decidable (reading.Ignores name) := by
  unfold Ignores
  infer_instance

end Reading

/-- Whether the nodes of a form are patterns for a name that stands for no construct, if for a name
at all. -/
def Form.bindsIgnored (reading : Reading) : Form → Bool
  | .ident .bind name _ => decide (reading.Ignores name)
  | _ => true

mutual

/-- Whether no pattern outside closures is for a name that stands for a construct. -/
def Node.bindsIgnored (reading : Reading) : Node → Bool
  | .mk form _ parts => form.bindsIgnored reading && (form.isClosure || bindIgnored reading parts)

/-- The same of a list of trees. -/
def bindIgnored (reading : Reading) : List Node → Bool
  | [] => true
  | node :: nodes => node.bindsIgnored reading && bindIgnored reading nodes

end

theorem bindIgnored_iff {reading : Reading} {nodes : List Node} :
    bindIgnored reading nodes = true ↔ ∀ node ∈ nodes, node.bindsIgnored reading = true := by
  induction nodes with
  | nil => simp [bindIgnored]
  | cons node nodes ih => rw [bindIgnored, Bool.and_eq_true, ih, List.forall_mem_cons]

theorem Node.bindsIgnored_mk {reading : Reading} {form : Form} {span : Span} {parts : List Node} :
    (Node.mk form span parts).bindsIgnored reading = true ↔ form.bindsIgnored reading = true ∧
      (form.isClosure = false → ∀ part ∈ parts, part.bindsIgnored reading = true) := by
  rw [Node.bindsIgnored, Bool.and_eq_true, Bool.or_eq_true, bindIgnored_iff, ← Bool.not_eq_true,
    imp_iff_not_or, not_not]

/-- What a node is at the front of the name of an element. -/
def Node.asObject (reading : Reading) : Node → Option Construct
  | .mk (.ident .title name _) _ _ => reading.object name
  | _ => none

/-- What construct the nodes of a form are. -/
def Form.construct? (reading : Reading) : Form → Option Construct
  | .thisExpr => reading.this
  | .ident .use name _ | .ident .short name _ => reading.used name
  | .yieldExpr _ => some (.keyword .yield)
  | .awaitExpr | .forOfStmt true => some (.keyword .await)
  | .superRef => some (.keyword .super)
  | .metaProperty .newTarget => some (.keyword .newTarget)
  | .usingDecl true => some .resource
  | _ => none

/-- What construct a node is. -/
def Node.construct? (reading : Reading) : Node → Option Construct
  | .mk .elementMember _ (object :: _) => object.asObject reading
  | .mk form _ _ => form.construct? reading

/-! ### Bonds -/

/-- What lies between a part of a function, of a class or of a member and the code around it, as the
language has it. -/
def Form.partBoundary : Form → (index : Nat) → Capture.Boundary
  | .arrow _ _, _ => .arrow
  | .function _ _, 1 => .block
  | .function _ _, _ => .function
  | .constructor, 0 | .getter, 0 | .setter, 0 => .block
  | .constructor, _ | .getter, _ | .setter, _ => .function
  | .classProperty _ _, 1 | .privateProperty _, 1 | .autoAccessor _, 1 => .function
  | .staticBlock, _ => .function
  | _, _ => .block

/-- What lies in between if one of the two lies in the other. -/
def Capture.Boundary.join : Capture.Boundary → Capture.Boundary → Capture.Boundary
  | .function, _ | _, .function => .function
  | .arrow, _ | _, .arrow => .arrow
  | .block, .block => .block

@[simp] theorem Capture.Boundary.join_block (boundary : Capture.Boundary) :
    boundary.join .block = boundary := by
  cases boundary <;> rfl

theorem Capture.Boundary.join_eq_function {a b : Capture.Boundary} :
    a.join b = .function ↔ a = .function ∨ b = .function := by
  cases a <;> cases b <;> decide

/-- What lies between a node and the code around the tree. -/
structure Nesting where
  /-- As the language has it. -/
  actual : Capture.Boundary
  /-- As the analysis has it. -/
  assumed : Capture.Boundary
deriving DecidableEq, Repr

/-- Nothing lies in between. -/
def Nesting.top : Nesting := ⟨.block, .block⟩

/-- What lies between a part of a node and the code around the tree. -/
def Nesting.enter (nesting : Nesting) (form : Form) (index : Nat) : Nesting :=
  ⟨nesting.actual.join (form.partBoundary index), nesting.assumed.join form.boundary⟩

/-- A construct at its place. -/
structure Bond where
  construct : Construct
  span : Span
  nesting : Nesting
deriving DecidableEq, Repr

mutual

/-- The bonds of a tree, in source order. -/
def Node.bonds (reading : Reading) (nesting : Nesting) : Node → List Bond
  | .mk form span parts =>
    ((Node.mk form span parts).construct? reading).toList.map (⟨·, span, nesting⟩) ++
      bondsFrom reading nesting form 0 parts

/-- The bonds of the parts of a node from the given one on. -/
def bondsFrom (reading : Reading) (nesting : Nesting) (form : Form) :
    (index : Nat) → List Node → List Bond
  | _, [] => []
  | index, part :: parts =>
    part.bonds reading (nesting.enter form index) ++
      bondsFrom reading nesting form (index + 1) parts

end

/-- The bonds of a list of trees. -/
def bondsIn (reading : Reading) (nesting : Nesting) (nodes : List Node) : List Bond :=
  nodes.flatMap (Node.bonds reading nesting)

section

variable {reading : Reading} {nesting : Nesting} {form : Form} {span : Span}

@[simp] theorem bondsIn_nil : bondsIn reading nesting [] = [] := rfl

@[simp] theorem bondsIn_cons (node : Node) (nodes : List Node) :
    bondsIn reading nesting (node :: nodes) =
      node.bonds reading nesting ++ bondsIn reading nesting nodes := rfl

@[simp] theorem bondsIn_append (nodes more : List Node) :
    bondsIn reading nesting (nodes ++ more) =
      bondsIn reading nesting nodes ++ bondsIn reading nesting more :=
  List.flatMap_append

/-- Whether all parts of a node are where the node is. -/
def Form.isLevel : Form → Bool
  | .classProperty _ _ | .privateProperty _ | .autoAccessor _ | .staticBlock => false
  | form => !form.isClosure

theorem Nesting.enter_of_isLevel (h : form.isLevel = true) (index : Nat) :
    nesting.enter form index = nesting := by
  have hblock : form.partBoundary index = .block ∧ form.boundary = .block := by
    cases form with
    | function | arrow | classBody | constructor | getter | setter | classProperty
    | privateProperty | autoAccessor | staticBlock => cases h
    | _ => exact ⟨rfl, rfl⟩
  simp [Nesting.enter, hblock]

/-- The bonds of the parts of a level node are those of a list. -/
theorem bondsFrom_of_isLevel (h : form.isLevel = true) (index : Nat) (parts : List Node) :
    bondsFrom reading nesting form index parts = bondsIn reading nesting parts := by
  induction parts generalizing index with
  | nil => rfl
  | cons part parts ih => rw [bondsFrom, Nesting.enter_of_isLevel h, ih, bondsIn_cons]

theorem Node.bonds_of_isLevel (h : form.isLevel = true) (parts : List Node) :
    (Node.mk form span parts).bonds reading nesting =
      ((Node.mk form span parts).construct? reading).toList.map (⟨·, span, nesting⟩) ++
        bondsIn reading nesting parts := by
  rw [Node.bonds, bondsFrom_of_isLevel h]

/-- Whether a node of the form is no more than its parts: level, no construct, and no name. -/
def Form.isFrame : Form → Bool
  | .thisExpr | .ident _ _ _ | .yieldExpr _ | .awaitExpr | .forOfStmt true | .superRef
  | .metaProperty .newTarget | .usingDecl true | .elementMember => false
  | form => form.isLevel

theorem Form.isLevel_of_isFrame (h : form.isFrame = true) : form.isLevel = true := by
  unfold Form.isFrame at h
  split at h
  case h_10 => exact h
  all_goals cases h

/-- A frame has the bonds of its parts. -/
theorem Node.bonds_of_isFrame (h : form.isFrame = true) (parts : List Node) :
    (Node.mk form span parts).bonds reading nesting = bondsIn reading nesting parts := by
  have hnone : (Node.mk form span parts).construct? reading = none := by
    cases form with
    | thisExpr | ident | yieldExpr | awaitExpr | superRef | elementMember => cases h
    | forOfStmt isAwait => cases isAwait <;> first | rfl | cases h
    | metaProperty kind => cases kind <;> first | rfl | cases h
    | usingDecl isAwait => cases isAwait <;> first | rfl | cases h
    | _ => rfl
  rw [Node.bonds_of_isLevel (Form.isLevel_of_isFrame h), hnone]
  rfl

theorem Node.asObject_of_isFrame (h : form.isFrame = true) (parts : List Node) :
    (Node.mk form span parts).asObject reading = none := by
  cases form with
  | ident => cases h
  | _ => rfl

theorem Node.ignored_of_isFrame (h : form.isFrame = true) (parts : List Node) :
    (Node.mk form span parts).bindsIgnored reading = true ↔
      ∀ part ∈ parts, part.bindsIgnored reading = true := by
  have hopen : form.isClosure = false ∧ form.bindsIgnored reading = true := by
    cases form with
    | ident | function | arrow | classBody | constructor | getter | setter => cases h
    | _ => exact ⟨rfl, rfl⟩
  rw [Node.bindsIgnored_mk, and_iff_right hopen.2, imp_iff_right hopen.1]

end

/-! ### Keeping bonds -/

/-- The second tree has the bonds of the first, wherever the two stand, and binds no name that
stands for a construct if the first does not. -/
structure Node.KeepsBonds (reading : Reading) (a b : Node) : Prop where
  bonds : ∀ nesting, b.bonds reading nesting = a.bonds reading nesting
  asObject : b.asObject reading = a.asObject reading
  ignored : a.bindsIgnored reading = true →
    b.bindsIgnored reading = true

/-- The same of lists of trees, taken together. -/
structure KeepsBondsIn (reading : Reading) (nodes others : List Node) : Prop where
  bonds : ∀ nesting, bondsIn reading nesting others = bondsIn reading nesting nodes
  ignored : (∀ node ∈ nodes, node.bindsIgnored reading = true) →
    ∀ other ∈ others, other.bindsIgnored reading = true

section

variable {reading : Reading}

theorem Node.KeepsBonds.refl (node : Node) : node.KeepsBonds reading node :=
  ⟨fun _ => rfl, rfl, id⟩

namespace KeepsBondsIn

variable {nodes others more : List Node}

theorem refl (nodes : List Node) : KeepsBondsIn reading nodes nodes := ⟨fun _ => rfl, id⟩

theorem trans (h : KeepsBondsIn reading nodes others) (h' : KeepsBondsIn reading others more) :
    KeepsBondsIn reading nodes more :=
  ⟨fun nesting => (h'.bonds nesting).trans (h.bonds nesting), h'.ignored ∘ h.ignored⟩

theorem of_forall₂ (h : List.Forall₂ (Node.KeepsBonds reading) nodes others) :
    KeepsBondsIn reading nodes others := by
  induction h with
  | nil => exact refl []
  | cons hhead _ ih =>
      refine ⟨fun nesting => ?_, fun hignored => ?_⟩
      · rw [bondsIn_cons, bondsIn_cons, hhead.bonds, ih.bonds]
      · rw [List.forall_mem_cons] at hignored ⊢
        exact ⟨hhead.ignored hignored.1, ih.ignored hignored.2⟩

theorem map {f : Node → Node} (h : ∀ node ∈ nodes, node.KeepsBonds reading (f node)) :
    KeepsBondsIn reading nodes (nodes.map f) :=
  of_forall₂ (List.forall₂_map_right_iff.mpr (List.forall₂_same.mpr h))

end KeepsBondsIn

variable {form : Form} {span : Span} {parts parts' : List Node}

theorem bondsFrom_of_forall₂ (h : List.Forall₂ (Node.KeepsBonds reading) parts parts')
    (nesting : Nesting) (index : Nat) :
    bondsFrom reading nesting form index parts' = bondsFrom reading nesting form index parts := by
  induction h generalizing index with
  | nil => rfl
  | cons hhead _ ih => rw [bondsFrom, bondsFrom, hhead.bonds, ih]

/-- What construct a node is depends on its form and on its first part. -/
theorem Node.construct?_congr
    (h : parts'.head?.map (Node.asObject reading) = parts.head?.map (Node.asObject reading)) :
    (Node.mk form span parts').construct? reading =
      (Node.mk form span parts).construct? reading := by
  cases form with
  | elementMember =>
      match parts, parts', h with
      | [], [], _ => rfl
      | object :: _, object' :: _, h => exact Option.some.inj h
  | _ => rfl

theorem Node.construct?_of_forall₂ (h : List.Forall₂ (Node.KeepsBonds reading) parts parts') :
    (Node.mk form span parts').construct? reading =
      (Node.mk form span parts).construct? reading := by
  refine Node.construct?_congr ?_
  cases h with
  | nil => rfl
  | cons hhead _ => exact congrArg some hhead.asObject

/-- The same node around parts that keep their bonds. -/
theorem Node.KeepsBonds.node (h : List.Forall₂ (Node.KeepsBonds reading) parts parts') :
    (Node.mk form span parts).KeepsBonds reading (.mk form span parts') where
  bonds nesting := by
    rw [Node.bonds, Node.bonds, Node.construct?_of_forall₂ h, bondsFrom_of_forall₂ h]
  asObject := by
    cases form with
    | ident role => cases role <;> rfl
    | _ => rfl
  ignored hignored := by
    rw [Node.bindsIgnored_mk] at hignored ⊢
    exact ⟨hignored.1, fun hclosure => (KeepsBondsIn.of_forall₂ h).ignored (hignored.2 hclosure)⟩

theorem Node.KeepsBonds.node_map {f : Node → Node}
    (h : ∀ part ∈ parts, part.KeepsBonds reading (f part)) :
    (Node.mk form span parts).KeepsBonds reading (.mk form span (parts.map f)) :=
  .node (List.forall₂_map_right_iff.mpr (List.forall₂_same.mpr h))

/-- Two frames have the bonds of their parts. -/
theorem Node.KeepsBonds.frame {form' : Form} {span' : Span} (hform : form.isFrame = true)
    (hform' : form'.isFrame = true) (h : KeepsBondsIn reading parts parts') :
    (Node.mk form span parts).KeepsBonds reading (.mk form' span' parts') where
  bonds nesting := by rw [Node.bonds_of_isFrame hform, Node.bonds_of_isFrame hform', h.bonds]
  asObject := by rw [Node.asObject_of_isFrame hform, Node.asObject_of_isFrame hform']
  ignored := by
    rw [Node.ignored_of_isFrame hform, Node.ignored_of_isFrame hform']
    exact h.ignored

/-- A frame may be put around trees, or taken away. -/
theorem KeepsBondsIn.wrap (hform : form.isFrame = true) (span : Span) (parts : List Node) :
    KeepsBondsIn reading parts [.mk form span parts] where
  bonds nesting := by rw [bondsIn_cons, bondsIn_nil, List.append_nil, Node.bonds_of_isFrame hform]
  ignored := by simp [Node.ignored_of_isFrame hform]

theorem KeepsBondsIn.unwrap (hform : form.isFrame = true) (span : Span) (parts : List Node) :
    KeepsBondsIn reading [.mk form span parts] parts where
  bonds nesting := by rw [bondsIn_cons, bondsIn_nil, List.append_nil, Node.bonds_of_isFrame hform]
  ignored := by simp [Node.ignored_of_isFrame hform]

theorem Node.KeepsBonds.of_single {a b : Node} (h : KeepsBondsIn reading [a] [b])
    (hobject : b.asObject reading = a.asObject reading) : a.KeepsBonds reading b where
  bonds nesting := by simpa using h.bonds nesting
  asObject := hobject
  ignored := by simpa using h.ignored

theorem KeepsBondsIn.append {nodes others more more' : List Node}
    (h : KeepsBondsIn reading nodes others) (h' : KeepsBondsIn reading more more') :
    KeepsBondsIn reading (nodes ++ more) (others ++ more') where
  bonds nesting := by rw [bondsIn_append, bondsIn_append, h.bonds, h'.bonds]
  ignored hignored := by
    rw [List.forall_mem_append] at hignored ⊢
    exact ⟨h.ignored hignored.1, h'.ignored hignored.2⟩

/-! ### Trees without bonds -/

/-- The tree has no bonds, and binds no name that stands for a construct. -/
structure Node.IsFree (reading : Reading) (node : Node) : Prop where
  bonds : ∀ nesting, node.bonds reading nesting = []
  ignored : node.bindsIgnored reading = true

/-- Types and titles have no bonds. -/
theorem Node.isFree_type {node : Node} (hwf : node.isWellFormed = true)
    (hcategory : node.form.category ∈ [.absent, .ascription, .type, .title]) :
    node.IsFree reading := by
  induction node using Node.inductionOn with
  | step form span parts ih =>
      have hform : form.isLevel = true ∧ (Node.mk form span parts).construct? reading = none ∧
          form.bindsIgnored reading = true := by
        cases form with
        | absent | keywordType | ascription | arrayType | typeReference => exact ⟨rfl, rfl, rfl⟩
        | ident role => cases role with
          | title => exact ⟨rfl, rfl, rfl⟩
          | _ => simp [Node.form, Form.category] at hcategory
        | _ => simp [Node.form, Form.category] at hcategory
      obtain ⟨hlevel, hnone, hignored⟩ := hform
      have hparts : ∀ part ∈ parts, part.IsFree reading := fun part hmem =>
        ih part hmem (Node.isWellFormed_part hwf hmem)
          (Node.category_part_of_type hwf hcategory hmem)
      refine ⟨fun nesting => ?_, Node.bindsIgnored_mk.mpr ⟨hignored, fun _ part hmem => ?_⟩⟩
      · rw [Node.bonds_of_isLevel hlevel, hnone]
        exact List.flatMap_eq_nil_iff.mpr fun part hmem => (hparts part hmem).bonds nesting
      · exact (hparts part hmem).ignored

/-! ### Renaming -/

/-- An identifier may have another name if both stand for nothing. -/
theorem Node.KeepsBonds.ident {role : Role} {name new : String} {optional : Bool}
    (hname : reading.Ignores name) (hnew : reading.Ignores new)
    (h : List.Forall₂ (Node.KeepsBonds reading) parts parts') :
    (Node.mk (.ident role name optional) span parts).KeepsBonds reading
      (.mk (.ident role new optional) span parts') where
  bonds nesting := by
    have hnone : ∀ name parts, reading.Ignores name →
        (Node.mk (.ident role name optional) span parts).construct? reading = none := by
      intro name parts h
      cases role <;> first | rfl | exact h.1
    have hlevel : ∀ name, (Form.ident role name optional).isLevel = true := fun _ => rfl
    rw [Node.bonds_of_isLevel (hlevel _), Node.bonds_of_isLevel (hlevel _), hnone _ _ hname,
      hnone _ _ hnew, (KeepsBondsIn.of_forall₂ h).bonds]
  asObject := by
    cases role with
    | title => exact hnew.2.trans hname.2.symm
    | _ => rfl
  ignored hignored := by
    rw [Node.bindsIgnored_mk] at hignored ⊢
    refine ⟨?_, fun _ => (KeepsBondsIn.of_forall₂ h).ignored (hignored.2 rfl)⟩
    cases role with
    | bind => exact decide_eq_true hnew
    | _ => rfl

/-- A shorthand property may be written out. -/
theorem Node.KeepsBonds.keyValue_short {name new key : String} {optional : Bool}
    (hwf : (Node.mk (.ident .short name optional) span parts).isWellFormed = true)
    (hname : reading.Ignores name) (hnew : reading.Ignores new) :
    (Node.mk (.ident .short name optional) span parts).KeepsBonds reading
      (.keyValue key (.use new span) span) := by
  obtain rfl := Node.parts_eq_nil rfl (by simp) hwf
  refine ⟨fun nesting => ?_, rfl, fun _ => rfl⟩
  simp [Node.keyValue, Node.bonds, bondsFrom, Node.construct?, Form.construct?, hname.1, hnew.1]

/-- A shorthand pattern may be written out, its default value included. -/
theorem Node.KeepsBonds.keyValuePat_short {name new key : String} {optional : Bool}
    {keySpan : Span} {ascription : List Node} {value value' : Node}
    (hwf : value.isWellFormed = true) (hname : reading.Ignores name)
    (hnew : reading.Ignores new) (hvalue : value.KeepsBonds reading value') :
    (Node.mk .assignPatProp span
        [.mk (.ident .bind name optional) keySpan ascription, value]).KeepsBonds reading
      (.mk .keyValuePat .generated
        [.mk (.propName key) keySpan [],
         if value.isAbsent then .mk (.ident .bind new optional) keySpan ascription
         else .mk .assignPat span [.mk (.ident .bind new optional) keySpan ascription,
           value']]) := by
  have hbound : (Node.mk (.ident .bind name optional) keySpan ascription).KeepsBonds reading
      (.mk (.ident .bind new optional) keySpan ascription) :=
    .ident hname hnew (List.forall₂_same.mpr fun part _ => .refl part)
  refine .frame rfl rfl (.trans ?_ (.append (.wrap rfl keySpan []) (.refl _)))
  cases habsent : value.isAbsent with
  | true =>
      obtain ⟨valueSpan, rfl⟩ := Node.eq_absent_of_isAbsent hwf habsent
      exact .append (.of_forall₂ (.cons hbound .nil)) (.unwrap rfl valueSpan [])
  | false => exact .trans (.of_forall₂ (.cons hbound (.cons hvalue .nil))) (.wrap rfl span _)

/-- Renaming keeps bonds if neither name stands for a construct. -/
theorem Node.KeepsBonds.substitute {old new : String} (hold : reading.Ignores old)
    (hnew : reading.Ignores new) {node : Node} (hwf : node.isWellFormed = true) :
    node.KeepsBonds reading (node.substitute old new) := by
  induction node using Node.inductionOn with
  | step form span parts ih =>
      have hparts : ∀ part ∈ parts, part.KeepsBonds reading (part.substitute old new) :=
        fun part hmem => ih part hmem (Node.isWellFormed_part hwf hmem)
      have hrelated : List.Forall₂ (Node.KeepsBonds reading) parts
          (substituteIn old new parts) := by
        rw [substituteIn_eq_map]
        exact List.forall₂_map_right_iff.mpr (List.forall₂_same.mpr hparts)
      unfold Node.substitute
      split
      · exact .refl _
      split
      · split
        · next hname => exact .keyValue_short hwf (hname ▸ hold) hnew
        · exact .node hrelated
      · split
        · next hname => exact .ident (hname ▸ hold) hnew hrelated
        · exact .node hrelated
      · split
        · next hname =>
          exact .keyValuePat_short (Node.isWellFormed_part hwf (by simp)) (hname ▸ hold) hnew
            (hparts _ (by simp))
        · next hname =>
          rw [substituteIn, substituteIn, substituteIn,
            Node.substitute_binding _ _ _ hname] at hrelated
          exact .node hrelated
      · exact .node hrelated

theorem Node.KeepsBonds.rename {old new : String} (hold : reading.Ignores old)
    (hnew : reading.Ignores new) {node : Node} (hwf : node.isWellFormed = true) :
    node.KeepsBonds reading (node.rename old new) := by
  unfold Node.rename
  split
  · exact .refl _
  · exact .substitute hold hnew hwf

/-! ### Flattening -/

/-- The names a pattern binds stand for nothing if no name that is bound in it does. -/
theorem Node.ignores_of_mem_bindingNames {node : Node}
    (h : node.bindsIgnored reading = true) {name : String}
    (hname : name ∈ node.bindingNames) : reading.Ignores name := by
  induction node using Node.inductionOn with
  | step form span parts ih =>
      obtain ⟨hself, hparts⟩ := Node.bindsIgnored_mk.mp h
      unfold Node.bindingNames at hname
      split at hname
      case h_1 heq =>
        cases heq
        rw [List.mem_singleton.mp hname]
        exact of_decide_eq_true hself
      case h_2 heq =>
        cases heq
        rw [bindingNamesOf_eq_flatMap] at hname
        obtain ⟨part, hmem, hname⟩ := List.mem_flatMap.mp hname
        exact ih part hmem (hparts rfl part hmem) hname
      case h_12 => cases hname
      all_goals
        rename_i heq
        cases heq
        exact ih _ (by simp) (hparts rfl _ (by simp)) hname

theorem Node.ignores_of_mem_blockScopedNames {node : Node}
    (h : node.bindsIgnored reading = true) {name : String}
    (hname : name ∈ node.blockScopedNames) : reading.Ignores name := by
  unfold Node.blockScopedNames at hname
  split at hname
  · rw [bindingNamesOf_eq_flatMap] at hname
    obtain ⟨declarator, hmem, hname⟩ := List.mem_flatMap.mp hname
    exact Node.ignores_of_mem_bindingNames ((Node.bindsIgnored_mk.mp h).2 rfl declarator hmem) hname
  · cases hname

/-- The names a registry makes up stand for nothing. -/
def Reading.IgnoresNew (reading : Reading) : Prop :=
  ∀ base n, reading.Ignores (Registry.suffixed base n)

theorem Node.KeepsBonds.resetInit {node : Node} (hwf : node.isWellFormed = true) :
    node.KeepsBonds reading node.resetInit := by
  unfold Node.resetInit
  split
  · next definite span pattern init =>
    refine .frame rfl rfl (.of_forall₂ (.cons (.refl pattern) (.cons ?_ .nil)))
    split
    · next habsent =>
      obtain ⟨initSpan, rfl⟩ :=
        Node.eq_absent_of_isAbsent (Node.isWellFormed_part hwf (by simp)) habsent
      exact .frame rfl rfl (.wrap rfl span [])
    · exact .refl init
  · exact .refl node

theorem Node.KeepsBonds.flattenDecl (reset : Bool) {node : Node}
    (hwf : node.isWellFormed = true) : node.KeepsBonds reading (node.flattenDecl reset) := by
  unfold Node.flattenDecl
  split
  · refine .frame rfl rfl ?_
    split
    · exact .map fun declarator hmem => .resetInit (Node.isWellFormed_part hwf hmem)
    · exact .refl _
  · exact .refl node

theorem KeepsBondsIn.renameClashing (hnew : reading.IgnoresNew) (clashes : String → Bool)
    {vars : List String} (hvars : ∀ name ∈ vars, reading.Ignores name) {stmts : List Node}
    (hwf : ∀ stmt ∈ stmts, stmt.isWellFormed = true) (names : Registry) :
    KeepsBondsIn reading stmts ((renameClashing clashes vars stmts).run names).1 := by
  induction vars generalizing stmts names with
  | nil => exact .refl stmts
  | cons name vars ih =>
      rw [List.forall_mem_cons] at hvars
      unfold LoopLowering.renameClashing
      split
      · have hrename : KeepsBondsIn reading stmts
            (stmts.map (·.rename name ((Naming.rename name).run names).1)) :=
          .map fun stmt hmem => .rename hvars.1 (hnew _ _) (hwf stmt hmem)
        have hfits := (forall₂_stands_rename name ((Naming.rename name).run names).1 hwf).imp
          fun _ _ hs => hs.toFits
        exact hrename.trans (ih hvars.2 (Node.Fits.wellFormed_of_forall₂ hfits) _)
      · exact ih hvars.2 hwf names

section Blocks

variable {change : Bool → List Node → Naming (List Node)}

/-- A change of statement lists that keeps their bonds keeps those of the trees around them. -/
theorem Node.KeepsBonds.changeBlocks
    (hchange : ∀ again stmts names, (∀ stmt ∈ stmts, stmt.isWellFormed = true) →
      (∀ stmt ∈ stmts, stmt.bindsIgnored reading = true) →
        KeepsBondsIn reading stmts ((change again stmts).run names).1)
    {node : Node} (hwf : node.isWellFormed = true)
    (hignored : node.bindsIgnored reading = true) (again : Bool)
    (names : Registry) :
    node.KeepsBonds reading ((node.changeBlocks change again).run names).1 := by
  induction node using Node.inductionOn generalizing again names with
  | step form span parts ih =>
      have hpartWf : ∀ part ∈ parts, part.isWellFormed = true :=
        fun part hmem => Node.isWellFormed_part hwf hmem
      unfold Node.changeBlocks
      split
      · exact .refl _
      next hclosed =>
      rw [Bool.not_eq_true, Bool.or_eq_false_iff] at hclosed
      have hpartIgnored := (Node.bindsIgnored_mk.mp hignored).2 hclosed.1
      split
      · exact .frame rfl rfl (hchange again parts names hpartWf hpartIgnored)
      · exact .node (forall₂_changeBlocksIn
          (fun part hmem => ih part hmem (hpartWf part hmem) (hpartIgnored part hmem) _) names)

end Blocks

theorem KeepsBondsIn.flattenTo (hnew : reading.IgnoresNew) (clashes : String → Bool) (depth : Nat)
    (again : Bool) (stmts : List Node) (names : Registry)
    (hwf : ∀ stmt ∈ stmts, stmt.isWellFormed = true)
    (hignored : ∀ stmt ∈ stmts, stmt.bindsIgnored reading = true) :
    KeepsBondsIn reading stmts ((flattenTo clashes depth again stmts).run names).1 := by
  induction depth generalizing again stmts names with
  | zero => exact .refl stmts
  | succ depth ih =>
      have hvars : ∀ name ∈ stmts.flatMap Node.blockScopedNames, reading.Ignores name := by
        intro name hname
        obtain ⟨stmt, hmem, hname⟩ := List.mem_flatMap.mp hname
        exact Node.ignores_of_mem_blockScopedNames (hignored stmt hmem) hname
      have hrename := KeepsBondsIn.renameClashing hnew clashes hvars hwf names
      have hrenamed := Node.Fits.wellFormed_of_forall₂
        (forall₂_fits_renameClashing clashes (stmts.flatMap Node.blockScopedNames) hwf names)
      have hdecl : KeepsBondsIn reading _ (List.map (Node.flattenDecl again) _) :=
        .map fun stmt hmem => .flattenDecl again (hrenamed stmt hmem)
      have hdeclWf : ∀ stmt ∈ ((LoopLowering.renameClashing clashes
          (stmts.flatMap Node.blockScopedNames) stmts).run names).1.map (·.flattenDecl again),
          stmt.isWellFormed = true :=
        List.forall_mem_map.mpr fun stmt hmem =>
          (Node.Fits.flattenDecl again (hrenamed stmt hmem)).wellFormed
      have hdeclIgnored := hdecl.ignored (hrename.ignored hignored)
      exact (hrename.trans hdecl).trans (.of_forall₂ (forall₂_changeBlocksIn
        (fun stmt hmem => .changeBlocks (fun again stmts names hwf hignored =>
          ih again stmts names hwf hignored) (hdeclWf stmt hmem) (hdeclIgnored stmt hmem) again) _))

/-- Flattening a statement list keeps its bonds. -/
theorem KeepsBondsIn.flattenStmts (hnew : reading.IgnoresNew) (clashes : String → Bool)
    (again : Bool) {stmts : List Node} (hwf : ∀ stmt ∈ stmts, stmt.isWellFormed = true)
    (hignored : ∀ stmt ∈ stmts, stmt.bindsIgnored reading = true)
    (names : Registry) :
    KeepsBondsIn reading stmts ((flattenStmts clashes again stmts).run names).1 :=
  .flattenTo hnew clashes _ again stmts names hwf hignored

/-! ### Hoisting -/

/-- What remains of a declarator of a single name is its initialiser, as far as bonds go. -/
theorem KeepsBondsIn.initAssignment? {declarator : Node} (hwf : declarator.isWellFormed = true)
    (hnames : declarator.declaresName = true) :
    KeepsBondsIn reading [declarator] declarator.initAssignment?.toList := by
  obtain ⟨definite, span, name, optional, bindSpan, ascription, init, rfl, -⟩ :=
    Node.exists_namedDeclarator false hwf hnames
  have hbind : (Node.mk (.ident .bind name optional) bindSpan ascription).isWellFormed = true :=
    Node.isWellFormed_part hwf (by simp)
  have htype : ∀ part ∈ ascription, part.IsFree reading := by
    intro part hmem
    obtain ⟨slot, hslot, hadmits⟩ :=
      Shape.exists_slot ((Node.isWellFormed_mk.mp hbind).1.resolve_left (by simp)) hmem
    obtain rfl : slot = .optional [.ascription] := by simpa [Form.shape, Shape.slots] using hslot
    refine Node.isFree_type (Node.isWellFormed_part hbind hmem) ?_
    rw [Slot.admits, Bool.or_eq_true] at hadmits
    rcases hadmits with habsent | hcategory
    · simp [show part.form = .absent by simpa [Node.isAbsent] using habsent, Form.category]
    · simp [show part.form.category = .ascription by simpa using hcategory]
  have hpattern : ∀ nesting,
      (Node.mk (.ident .bind name optional) bindSpan ascription).bonds reading nesting = [] := by
    intro nesting
    have hlevel : (Form.ident .bind name optional).isLevel = true := rfl
    rw [Node.bonds_of_isLevel hlevel]
    exact List.flatMap_eq_nil_iff.mpr fun part hmem => (htype part hmem).bonds nesting
  refine (KeepsBondsIn.unwrap rfl span _).trans ?_
  rw [Node.initAssignment?]
  split
  · next habsent =>
    obtain ⟨initSpan, rfl⟩ :=
      Node.eq_absent_of_isAbsent (Node.isWellFormed_part hwf (by simp)) habsent
    refine ⟨fun nesting => ?_, fun _ => by simp⟩
    have habsent : (Node.mk .absent initSpan []).bonds reading nesting = [] := rfl
    simp only [bondsIn_cons, hpattern, habsent]
    rfl
  · have htarget : KeepsBondsIn reading [.mk (.ident .bind name optional) bindSpan ascription, init]
        [.binding name false span .absent, init] := by
      refine ⟨fun nesting => ?_, fun hignored => ?_⟩
      · rw [bondsIn_cons, bondsIn_cons _ [init], hpattern]
        rfl
      · obtain ⟨hname, hinit⟩ := List.forall_mem_cons.mp hignored
        refine List.forall_mem_cons.mpr
          ⟨Node.bindsIgnored_mk.mpr ⟨?_, fun _ => by simp; rfl⟩, hinit⟩
        exact (Node.bindsIgnored_mk.mp hname).1
    exact htarget.trans (.wrap rfl span _)

/-- What remains of declarators of single names, as one expression. -/
theorem KeepsBondsIn.initAssignments? (span : Span) {declarators : List Node}
    (hwf : ∀ declarator ∈ declarators, declarator.isWellFormed = true)
    (hnames : ∀ declarator ∈ declarators, declarator.declaresName = true) :
    KeepsBondsIn reading declarators (initAssignments? span declarators).toList := by
  have hall : KeepsBondsIn reading declarators (declarators.filterMap Node.initAssignment?) := by
    induction declarators with
    | nil => exact .refl []
    | cons declarator declarators ih =>
        rw [List.forall_mem_cons] at hwf hnames
        have hrest := ih hwf.2 hnames.2
        have hboth : KeepsBondsIn reading ([declarator] ++ declarators) _ :=
          (KeepsBondsIn.initAssignment? hwf.1 hnames.1).append hrest
        rw [List.filterMap_cons]
        cases hassign : declarator.initAssignment? with
        | none => rwa [hassign] at hboth
        | some expr => rwa [hassign] at hboth
  unfold LoopLowering.initAssignments? Node.sequence?
  split
  · next heq => rwa [heq] at hall
  · next expr heq => rwa [heq] at hall
  · exact hall.trans (.wrap rfl span _)

section

variable {declare : Bool} {declarators : List Node}

theorem Node.asObject_of_category {node : Node} (h : node.form.category ≠ .title) :
    node.asObject reading = none := by
  unfold Node.asObject
  split
  · exact absurd rfl h
  · rfl

theorem Node.IsExpr.category_ne_title {node : Node} (h : node.IsExpr) :
    node.form.category ≠ .title := by
  intro htitle
  have hexpr := h.admitted
  rw [Slot.admits, htitle] at hexpr
  cases hexpr

/-- What remains of a `var` statement. -/
theorem Node.KeepsBonds.hoistVar
    (hwf : ∀ declarator ∈ declarators, declarator.isWellFormed = true)
    (hnames : ∀ declarator ∈ declarators, declarator.declaresName = true) :
    (Node.varDecl .var declare span declarators).KeepsBonds reading
      (hoistVar span declarators) := by
  have hall : KeepsBondsIn reading declarators _ := .initAssignments? span hwf hnames
  unfold LoopLowering.hoistVar
  split
  · next expr heq =>
    rw [heq] at hall
    exact .frame rfl rfl hall
  · next heq =>
    rw [heq] at hall
    exact .frame rfl rfl hall

/-- What remains of the first part of a plain loop head. -/
theorem Node.KeepsBonds.hoistInit {init : Node} (hwf : init.isWellFormed = true)
    (hnamed : init.VarsNamed) : init.KeepsBonds reading init.hoistInit := by
  unfold Node.hoistInit
  split
  · next declare span declarators =>
    have hall : KeepsBondsIn reading [.varDecl .var declare span declarators] _ :=
      (KeepsBondsIn.unwrap rfl span declarators).trans (.initAssignments? span
        (fun declarator hmem => Node.isWellFormed_part hwf hmem) hnamed.declarators)
    cases heq : initAssignments? span declarators with
    | none =>
        rw [heq] at hall
        exact .of_single (hall.trans (.wrap rfl .generated [])) rfl
    | some expr =>
        rw [heq] at hall
        have hexpr := (initAssignments?_eq_some (fun declarator hmem =>
          Node.isWellFormed_part hwf hmem) heq).1
        exact .of_single hall (Node.asObject_of_category (Node.IsExpr.category_ne_title hexpr))
  · exact .refl _

/-- What remains of the left side of a loop over keys or values, if there was no initialiser. -/
theorem Node.KeepsBonds.hoistLeft {left : Node} (hwf : left.isWellFormed = true)
    (hbare : left.isBareDecl = true) : left.KeepsBonds reading left.hoistLeft := by
  unfold Node.hoistLeft
  split
  · next declare span definite declSpan pattern init =>
    have hdeclarator : (Node.declarator definite declSpan pattern init).isWellFormed = true :=
      Node.isWellFormed_part hwf (by simp)
    obtain ⟨initSpan, rfl⟩ :=
      Node.eq_absent_of_isAbsent (Node.isWellFormed_part hdeclarator (by simp)) hbare
    have hpattern : pattern.form.category ≠ .title := by
      have hadmits := (Node.isWellFormed_mk.mp hdeclarator).1.resolve_left (by simp)
      simp only [Form.shape, Shape.admits, fillSlots, Slot.admits, Bool.and_eq_true] at hadmits
      intro htitle
      rw [htitle] at hadmits
      exact Bool.false_ne_true hadmits.1
    have hinit : KeepsBondsIn reading [pattern, .mk .absent initSpan []] ([pattern] ++ []) :=
      .append (.refl [pattern]) (.unwrap rfl initSpan [])
    exact .of_single (((KeepsBondsIn.unwrap rfl span _).trans (.unwrap rfl declSpan _)).trans hinit)
      (Node.asObject_of_category hpattern)
  · exact .refl _

end

theorem KeepsBondsIn.withoutEmpty {stmts : List Node}
    (hwf : ∀ stmt ∈ stmts, stmt.isWellFormed = true) :
    KeepsBondsIn reading stmts (withoutEmpty stmts) := by
  induction stmts with
  | nil => exact .refl []
  | cons stmt stmts ih =>
      rw [List.forall_mem_cons] at hwf
      have hrest := ih hwf.2
      unfold LoopLowering.withoutEmpty at hrest ⊢
      rw [List.filter_cons]
      split
      · exact (KeepsBondsIn.refl [stmt]).append hrest
      · next hempty =>
        obtain ⟨form, span, parts⟩ := stmt
        obtain rfl : form = .empty := by simpa [Node.form] using hempty
        obtain rfl := Node.parts_eq_nil rfl (by simp) hwf.1
        exact (KeepsBondsIn.unwrap rfl span []).append hrest

/-- Hoisting keeps the bonds of a tree. -/
theorem Node.KeepsBonds.hoist {node : Node} (hwf : node.isWellFormed = true)
    (hbare : node.everywhere Node.headIsBare = true) (hnamed : node.VarsNamed) :
    node.KeepsBonds reading node.hoist := by
  induction node using Node.inductionOn with
  | step form span parts ih =>
      have hpartWf : ∀ part ∈ parts, part.isWellFormed = true :=
        fun part hmem => Node.isWellFormed_part hwf hmem
      cases hclosure : form.isClosure with
      | true =>
          unfold Node.hoist
          rw [if_pos hclosure]
          exact .refl _
      | false =>
          have hparts : ∀ part ∈ parts, part.KeepsBonds reading part.hoist := fun part hmem =>
            ih part hmem (hpartWf part hmem) ((Node.everywhere_mk.mp hbare).2 part hmem)
              (hnamed.part hclosure hmem)
          have hhead := (Node.everywhere_mk.mp hbare).1
          unfold Node.hoist
          rw [hclosure]
          simp only [Bool.false_eq_true, if_false]
          split
          · exact .hoistVar hpartWf hnamed.declarators
          · exact .refl _
          · exact .node (.cons (.hoistInit (hpartWf _ (by simp)) (hnamed.part rfl (by simp)))
              (.cons (.refl _) (.cons (.refl _) (.cons (hparts _ (by simp)) .nil))))
          · exact .node (.cons (.hoistLeft (hpartWf _ (by simp)) hhead)
              (.cons (.refl _) (.cons (hparts _ (by simp)) .nil)))
          · exact .node (.cons (.hoistLeft (hpartWf _ (by simp)) hhead)
              (.cons (.refl _) (.cons (hparts _ (by simp)) .nil)))
          · rw [hoistIn_eq_map]
            split
            · next hholds =>
              have hframe : form.isFrame = true := by
                obtain rfl | rfl := Form.eq_of_holdsStmts hholds
                · rfl
                · rfl
              exact .frame hframe hframe
                ((KeepsBondsIn.map hparts).trans (.withoutEmpty (wellFormed_map_hoist hpartWf)))
            · exact .node_map hparts

/-- Hoisting keeps the bonds of a statement list. -/
theorem KeepsBondsIn.hoistStmts {stmts : List Node} (hwf : ∀ stmt ∈ stmts, stmt.isWellFormed = true)
    (hbare : ∀ stmt ∈ stmts, stmt.everywhere Node.headIsBare = true)
    (hnamed : ∀ stmt ∈ stmts, stmt.VarsNamed) :
    KeepsBondsIn reading stmts (hoistStmts stmts) := by
  have hall : KeepsBondsIn reading stmts (hoistIn stmts) := by
    rw [hoistIn_eq_map]
    exact .map fun stmt hmem => .hoist (hwf stmt hmem) (hbare stmt hmem) (hnamed stmt hmem)
  refine hall.trans (.withoutEmpty ?_)
  rw [hoistIn_eq_map]
  exact wellFormed_map_hoist hwf

/-! ### Making a function -/

/-- A name that is drawn for another stands for nothing if the other does. -/
theorem Reading.IgnoresNew.fresh (hnew : reading.IgnoresNew) {name : String}
    (hname : reading.Ignores name) (names : Registry) : reading.Ignores (names.fresh name).1 := by
  unfold Registry.fresh
  split
  · exact hnew _ _
  · exact hname

/-- A write-back has no bonds but what its two names stand for. -/
theorem Node.isFree_writeBack {outer param : String} (houter : reading.Ignores outer)
    (hparam : reading.Ignores param) :
    (Node.exprStmt (.assignTo outer (.use param .generated) .generated)).IsFree reading where
  bonds nesting := by
    simp [Node.exprStmt, Node.assignTo, Node.absent, Node.bonds, bondsFrom, Node.construct?,
      Form.construct?, hparam.1]
  ignored := by
    simp [Node.exprStmt, Node.assignTo, Node.absent, Node.bindsIgnored, bindIgnored,
      Form.bindsIgnored, houter]

/-- Choosing parameters keeps the bonds of the statements.  The names of the write-backs stand for
nothing, and where that is so they have no bonds. -/
theorem KeepsBondsIn.chooseParams (hnew : reading.IgnoresNew) (writtenBack : String → Bool)
    {vars : List (String × String)}
    (hvars : ∀ var ∈ vars, reading.Ignores var.1 ∧ reading.Ignores var.2) {stmts : List Node}
    (hwf : ∀ stmt ∈ stmts, stmt.isWellFormed = true) (names : Registry) :
    KeepsBondsIn reading stmts ((chooseParams writtenBack vars stmts).run names).1.stmts ∧
      ∀ stmt ∈ ((LoopLowering.chooseParams writtenBack vars stmts).run names).1.writeBack,
        (∀ name ∈ stmt.names, reading.Ignores name) ∧
          ∀ other : Reading, (∀ name ∈ stmt.names, other.Ignores name) → stmt.IsFree other := by
  induction vars generalizing stmts names with
  | nil => exact ⟨.refl stmts, fun _ hmem => absurd hmem List.not_mem_nil⟩
  | cons var vars ih =>
      obtain ⟨name, outer⟩ := var
      rw [List.forall_mem_cons] at hvars
      unfold LoopLowering.chooseParams
      split
      · have hparam := hnew.fresh hvars.1.1 names
        have hrename : KeepsBondsIn reading stmts
            (stmts.map (·.rename name (names.fresh name).1)) :=
          .map fun stmt hmem => .rename hvars.1.1 hparam (hwf stmt hmem)
        have hfits := (forall₂_stands_rename name (names.fresh name).1 hwf).imp fun _ _ hs =>
          hs.toFits
        obtain ⟨hstmts, hback⟩ := ih hvars.2 (Node.Fits.wellFormed_of_forall₂ hfits)
          (names.fresh name).2
        have hnames : (Node.exprStmt (.assignTo outer (.use (names.fresh name).1 .generated)
            .generated)).names = [outer, (names.fresh name).1] := rfl
        refine ⟨hrename.trans hstmts, List.forall_mem_cons.mpr
          ⟨⟨?_, fun other hother => ?_⟩, hback⟩⟩
        · exact List.forall_mem_cons.mpr ⟨hvars.1.2, List.forall_mem_singleton.mpr hparam⟩
        · exact Node.isFree_writeBack (hother _ (hnames ▸ List.mem_cons_self))
            (hother _ (hnames ▸ List.mem_cons_of_mem _ List.mem_cons_self))
      · exact ih hvars.2 hwf names

/-- The value of a `return` keeps its bonds. -/
theorem Node.KeepsBonds.toReturn (options : Options)
    (hwf : (Node.mk .returnStmt span parts).isWellFormed = true) :
    (Node.mk .returnStmt span parts).KeepsBonds reading
      ((Completion.result (parts.find? (!·.isAbsent))).toReturn options span) := by
  obtain ⟨argument, rest, rfl, -, hrest⟩ :=
    exists_of_fillSlots_cons ((Node.isWellFormed_mk.mp hwf).1.resolve_left (by simp))
  obtain rfl := eq_nil_of_fillSlots_nil hrest
  have hobject : ∀ value, KeepsBondsIn reading [value] [.objectOf options.returnKey value span] :=
    fun value => ((KeepsBondsIn.append (.wrap rfl span []) (.refl [value])).trans
      (.wrap rfl .generated _)).trans (.wrap rfl span _)
  cases habsent : argument.isAbsent with
  | true =>
      obtain ⟨argumentSpan, rfl⟩ :=
        Node.eq_absent_of_isAbsent (Node.isWellFormed_part hwf (by simp)) habsent
      have hvalue : KeepsBondsIn reading [.mk .absent argumentSpan []] [.undefined span] :=
        (KeepsBondsIn.unwrap rfl argumentSpan []).trans ((KeepsBondsIn.wrap rfl span []).trans
          (.wrap rfl span _))
      exact .frame rfl rfl (hvalue.trans (hobject _))
  | false =>
      rw [List.find?_cons, habsent]
      exact .frame rfl rfl (hobject argument)

/-- Redirecting the jumps of a tree keeps its bonds if the write-backs have none. -/
theorem Node.KeepsBonds.redirect {redirection : Redirection}
    (hback : ∀ stmt ∈ redirection.writeBack, stmt.IsFree reading) (ctx : JumpContext) {node : Node}
    (hwf : node.isWellFormed = true) : node.KeepsBonds reading (node.redirect redirection ctx) := by
  induction node using Node.inductionOn generalizing ctx with
  | step form span parts ih =>
      unfold Node.redirect
      split
      · exact .refl _
      split
      · split
        · obtain rfl := Node.parts_eq_nil rfl (by simp) hwf
          exact .frame rfl rfl (.wrap rfl span [])
        · exact .refl _
      · split
        · obtain rfl := Node.parts_eq_nil rfl (by simp) hwf
          have hreturn : (Node.returnStmt .absent span).IsFree reading := ⟨fun _ => rfl, rfl⟩
          unfold Redirection.continueStmt
          split
          · exact .frame rfl rfl (.wrap rfl .generated [])
          · refine .frame rfl rfl ⟨fun nesting => ?_, fun _ => ?_⟩
            · rw [bondsIn_append, bondsIn_cons, bondsIn_nil, List.append_nil]
              exact List.append_eq_nil_iff.mpr ⟨List.flatMap_eq_nil_iff.mpr fun stmt hmem =>
                (hback stmt hmem).bonds nesting, hreturn.bonds nesting⟩
            · refine List.forall_mem_append.mpr ⟨fun stmt hmem => (hback stmt hmem).ignored, ?_⟩
              exact List.forall_mem_singleton.mpr hreturn.ignored
        · exact .refl _
      · exact .toReturn _ hwf
      · rw [redirectIn_eq_map]
        exact .node_map fun part hmem => ih part hmem _ (Node.isWellFormed_part hwf hmem)

end

end LoopLowering
