/-
What a loop body takes from the function around the loop, when it becomes a function itself.

A body that becomes a function has a `this` and `arguments` of its own there, and it cannot suspend
the function around the loop or refer to how that one is called.  So `this` and `arguments` are
replaced by variables that hold them, and a body that does the rest is refused.  Both rest on the
analysis, which finds a construct if no function and no class lies around it.

That is not where the language draws the line.  What a class extends, its decorators, and the
computed keys of its members, of accessors and of constructors belong to the code around, and the
analysis overlooks what stands in them.  It also overlooks `this` at the front of the name of
an element, and `await using`.  Where no construct of the body is overlooked, the function means
what the body meant.
-/
import LoopLowering.Proofs.Bonds

namespace LoopLowering

/-! ### What belongs to the code around a tree -/

/-- No variables stand for `this` and `arguments`. -/
def Aliases.unset : Aliases := ⟨none, none⟩

/-- Whether the construct is `this` or `arguments`. -/
def Construct.isReceiver : Construct → Bool
  | .receiver _ | .element _ => true
  | _ => false

/-- Whether the construct belongs to the code around the tree.  A function that is not an arrow has
its own `this`, and the others too; an arrow is not suspended with the function around it. -/
def Bond.isOwn (bond : Bond) : Bool :=
  match bond.construct with
  | .keyword .yield | .keyword .await | .resource => bond.nesting.actual == .block
  | _ => bond.nesting.actual != .function

/-- What the analysis finds, if it takes the construct for one of the code around. -/
def Bond.finding? (bond : Bond) : Option Capture.Finding :=
  match bond.construct with
  | .receiver .this => if bond.nesting.assumed != .function then some .usesThis else none
  | .receiver .arguments => if bond.nesting.assumed != .function then some .usesArguments else none
  | .keyword .yield => if bond.nesting.assumed == .block
      then some (.suspends .yield bond.span) else none
  | .keyword .await => if bond.nesting.assumed == .block
      then some (.suspends .await bond.span) else none
  | .keyword keyword =>
    if bond.nesting.assumed != .function then some (.functionBound keyword bond.span) else none
  | .element _ | .resource | .alias _ => none

namespace Capture

theorem Context.inFunction_enter (ctx : Context) (node : Node) :
    (ctx.enter node).inFunction = (ctx.inFunction || node.form.boundary == .function) := by
  unfold Context.inFunction
  rcases ctx.frames_enter node with hframes | ⟨hframes, -, hclosure⟩
  · rw [hframes, List.any_cons, Bool.or_comm]
  · have hboundary : (node.form.boundary == .function) = false := by
      have hblock := Form.boundary_bne_block node.form
      rw [hclosure] at hblock
      cases hform : node.form.boundary <;> simp_all
    rw [hframes, hboundary, Bool.or_false]

/-- The context is that of a place in the body, with this nesting. -/
structure Context.At (ctx : Context) (nesting : Nesting) : Prop where
  inBody : ctx.inBody = true
  inFunction : ctx.inFunction = (nesting.assumed == .function)
  inClosure : ctx.inClosure = (nesting.assumed != .block)

theorem Context.At.enter {ctx : Context} {nesting : Nesting} (h : ctx.At nesting) (node : Node)
    (index : Nat) : (ctx.enter node).At (nesting.enter node.form index) where
  inBody := (ctx.inBody_enter node).trans h.inBody
  inFunction := by
    rw [ctx.inFunction_enter, h.inFunction, Nesting.enter]
    cases nesting.assumed <;> cases node.form.boundary <;> rfl
  inClosure := by
    rw [ctx.inClosure_enter, h.inClosure, Nesting.enter, ← Form.boundary_bne_block]
    cases nesting.assumed <;> cases node.form.boundary <;> rfl

theorem Context.resolve_arguments {ctx : Context} (hfunction : ctx.inFunction = false)
    (hframes : ∀ frame ∈ ctx.frames, "arguments" ∉ frame.names) :
    ctx.resolve "arguments" = none := by
  have hfrom : ∀ (frames : List Frame) (crossed : Bool),
      frames.any (·.boundary == .function) = false →
      (∀ frame ∈ frames, "arguments" ∉ frame.names) →
      resolveFrom "arguments" crossed frames = none := by
    intro frames
    induction frames with
    | nil => exact fun _ _ _ => rfl
    | cons frame frames ih =>
        intro crossed hnone hnames
        rw [List.any_cons, Bool.or_eq_false_iff] at hnone
        rw [List.forall_mem_cons] at hnames
        rw [resolveFrom, if_neg hnames.1, if_neg (by simpa using hnone.1)]
        exact ih _ hnone.2 hnames.2
  exact hfrom ctx.frames false hfunction hframes

end Capture

theorem bondsFrom_eq_flatMap (reading : Reading) (nesting : Nesting) (form : Form) (index : Nat)
    (parts : List Node) :
    bondsFrom reading nesting form index parts =
      (parts.zipIdx index).flatMap fun entry =>
        entry.1.bonds reading (nesting.enter form entry.2) := by
  induction parts generalizing index with
  | nil => rfl
  | cons part parts ih => rw [bondsFrom, ih, List.zipIdx_cons, List.flatMap_cons]

/-- A bond of a tree is one of the node itself or of one of its parts. -/
theorem Node.mem_bonds {reading : Reading} {nesting : Nesting} {form : Form} {span : Span}
    {parts : List Node} {bond : Bond} (h : bond ∈ (Node.mk form span parts).bonds reading nesting) :
    (∃ construct, (Node.mk form span parts).construct? reading = some construct ∧
        bond = ⟨construct, span, nesting⟩) ∨
      ∃ part ∈ parts, ∃ index, bond ∈ part.bonds reading (nesting.enter form index) := by
  rcases List.mem_append.mp h with h | h
  · obtain ⟨construct, hmem, rfl⟩ := List.mem_map.mp h
    exact Or.inl ⟨construct, Option.mem_toList.mp hmem, rfl⟩
  · rw [bondsFrom_eq_flatMap] at h
    obtain ⟨entry, hmem, h⟩ := List.mem_flatMap.mp h
    exact Or.inr ⟨entry.1, List.fst_mem_of_mem_zipIdx hmem, entry.2, h⟩

section

variable {ctx : Capture.Context} {nesting : Nesting}

theorem Capture.Context.At.inOwnBody (h : ctx.At nesting) (hassumed : nesting.assumed ≠ .function) :
    ctx.inOwnBody = true := by
  simp [Capture.Context.inOwnBody, h.inBody, h.inFunction, hassumed]

theorem Capture.Context.At.mem_suspension (h : ctx.At nesting) (hassumed : nesting.assumed = .block)
    (keyword : Capture.Keyword) (span : Span) :
    .suspends keyword span ∈ ctx.suspension keyword span := by
  simp [Capture.Context.suspension, h.inBody, h.inClosure, hassumed]

theorem Capture.Context.At.mem_functionBound (h : ctx.At nesting)
    (hassumed : nesting.assumed ≠ .function) (keyword : Capture.Keyword) (span : Span) :
    .functionBound keyword span ∈ ctx.functionBound keyword span := by
  simp [Capture.Context.functionBound, h.inOwnBody hassumed]

theorem Capture.Context.At.mem_reference (h : ctx.At nesting)
    (hassumed : nesting.assumed ≠ .function)
    (hframes : ∀ frame ∈ ctx.frames, "arguments" ∉ frame.names) :
    .usesArguments ∈ ctx.reference "arguments" := by
  have hfunction : ctx.inFunction = false := by simp [h.inFunction, hassumed]
  rw [Capture.Context.reference, Capture.Context.resolve_arguments hfunction hframes]
  simp [h.inOwnBody hassumed]

/-- The name of an element can begin with `this` or `arguments`, and is no other construct. -/
theorem Node.construct?_elementMember {aliases : Aliases} {span : Span} {parts : List Node}
    {construct : Construct}
    (h : (Node.mk .elementMember span parts).construct? (.receivers aliases) = some construct) :
    ∃ receiver, construct = .element receiver := by
  cases parts with
  | nil => cases h
  | cons object rest =>
      obtain ⟨form, objectSpan, _⟩ := object
      cases form with
      | ident role name =>
          cases role with
          | title =>
              have hobject : (Reading.receivers aliases).object name = some construct := h
              simp only [Reading.receivers] at hobject
              grind
          | _ => cases h
      | _ => cases h

/-- What a node that is a construct shows by itself. -/
theorem Capture.Context.At.finding_mem_own {form : Form} {span : Span} {parts : List Node}
    {construct : Construct} {finding : Capture.Finding} (hctx : ctx.At nesting)
    (hwf : (Node.mk form span parts).isWellFormed = true)
    (harguments : finding = .usesArguments → ∀ frame ∈ ctx.frames, "arguments" ∉ frame.names)
    (hconstruct : (Node.mk form span parts).construct? (.receivers .unset) = some construct)
    (hfinding : Bond.finding? ⟨construct, span, nesting⟩ = some finding) :
    finding ∈ ctx.own (.mk form span parts) := by
  cases form with
  | thisExpr =>
      cases hconstruct
      obtain ⟨hassumed, rfl⟩ : nesting.assumed ≠ .function ∧ .usesThis = finding := by
        simpa [Bond.finding?] using hfinding
      simp [Capture.Context.own, hctx.inOwnBody hassumed]
  | ident role name =>
      have hname : name = "arguments" ∧ construct = .receiver .arguments := by
        cases role with
        | use | short =>
            simp only [Node.construct?, Form.construct?, Reading.receivers,
              Aliases.unset] at hconstruct
            grind
        | bind | title => cases hconstruct
      obtain ⟨rfl, rfl⟩ := hname
      obtain ⟨hassumed, rfl⟩ : nesting.assumed ≠ .function ∧ .usesArguments = finding := by
        simpa [Bond.finding?] using hfinding
      exact hctx.mem_reference hassumed (harguments rfl)
  | yieldExpr | awaitExpr =>
      cases hconstruct
      obtain ⟨hassumed, heq⟩ := Option.ite_none_right_eq_some.mp hfinding
      cases heq
      exact hctx.mem_suspension (by simpa using hassumed) _ span
  | forOfStmt isAwait =>
      obtain ⟨left, right, body, rfl⟩ :=
        List.length_eq_three.mp (Node.length_parts hwf (by simp) rfl)
      cases isAwait with
      | false => cases hconstruct
      | true =>
          cases hconstruct
          obtain ⟨hassumed, heq⟩ := Option.ite_none_right_eq_some.mp hfinding
          cases heq
          exact List.mem_append_left _ (hctx.mem_suspension (by simpa using hassumed) _ span)
  | superRef =>
      cases hconstruct
      obtain ⟨hassumed, heq⟩ := Option.ite_none_right_eq_some.mp hfinding
      cases heq
      exact hctx.mem_functionBound (by simpa using hassumed) _ span
  | metaProperty kind =>
      cases kind with
      | importMeta => cases hconstruct
      | newTarget =>
          cases hconstruct
          obtain ⟨hassumed, heq⟩ := Option.ite_none_right_eq_some.mp hfinding
          cases heq
          exact hctx.mem_functionBound (by simpa using hassumed) _ span
  | usingDecl isAwait =>
      cases isAwait with
      | false => cases hconstruct
      | true =>
          cases hconstruct
          cases hfinding
  | elementMember =>
      obtain ⟨receiver, rfl⟩ := Node.construct?_elementMember hconstruct
      cases hfinding
  | _ => cases hconstruct

/-- The analysis finds the constructs that it takes for those of the body. -/
theorem Node.finding_mem_findings {node : Node} (hwf : node.isWellFormed = true) {bond : Bond}
    {finding : Capture.Finding} (hctx : ctx.At nesting)
    (harguments : finding = .usesArguments → node.everywhere Node.keepsArguments = true ∧
      ∀ frame ∈ ctx.frames, "arguments" ∉ frame.names)
    (hbond : bond ∈ node.bonds (.receivers .unset) nesting)
    (hfinding : bond.finding? = some finding) :
    finding ∈ Capture.findings ctx node := by
  induction node using Node.inductionOn generalizing ctx nesting with
  | step form span parts ih =>
      rw [Capture.findings, Capture.findingsIn_eq_flatMap]
      rcases Node.mem_bonds hbond with ⟨construct, hconstruct, rfl⟩ | ⟨part, hmem, index, hpart⟩
      · exact List.mem_append_left _ (hctx.finding_mem_own hwf (fun heq => (harguments heq).2)
          hconstruct hfinding)
      · refine List.mem_append_right _ (List.mem_flatMap.mpr ⟨part, hmem, ?_⟩)
        refine ih part hmem (Node.isWellFormed_part hwf hmem) (hctx.enter _ index)
          (fun heq => ?_) hpart
        obtain ⟨hkeeps, hframes⟩ := harguments heq
        obtain ⟨hself, hparts⟩ := Node.everywhere_mk.mp hkeeps
        refine ⟨hparts part hmem, ?_⟩
        rcases ctx.frames_enter (.mk form span parts) with henter | ⟨henter, -, -⟩
        · rw [henter, List.forall_mem_cons]
          exact ⟨by simpa [Node.keepsArguments] using hself, hframes⟩
        · rwa [henter]

end

/-! ### Naming `this` and `arguments` -/

/-- The variable that stands for `this` or for `arguments`. -/
def Aliases.alias? (aliases : Aliases) : Receiver → Option String
  | .this => aliases.this?
  | .arguments => aliases.arguments?

/-- The variables are no names of a tree, they are two, and neither is called `arguments`. -/
structure Aliases.NewTo (aliases : Aliases) (names : List String) : Prop where
  unused : ∀ receiver name, aliases.alias? receiver = some name → name ∉ names
  notArguments : ∀ receiver, aliases.alias? receiver ≠ some "arguments"
  distinct : ∀ name, aliases.this? = some name → aliases.arguments? ≠ some name

theorem Aliases.NewTo.mono {aliases : Aliases} {names more : List String} (h : aliases.NewTo more)
    (hsub : names ⊆ more) : aliases.NewTo names :=
  ⟨fun receiver name halias hmem => h.unused receiver name halias (hsub hmem), h.notArguments,
    h.distinct⟩

/-- What becomes of a bond when the variables take their places. -/
def Bond.replaced (bond : Bond) : Bond :=
  match bond.construct with
  | .receiver receiver =>
    if bond.nesting.assumed = .function then bond else { bond with construct := .alias receiver }
  | _ => bond

theorem Form.boundary_eq_function (form : Form) : form.boundary = .function ↔
    form.bindsThis = true := by
  cases form <;> simp [Form.boundary, Form.bindsThis, Form.isClosure]

section

variable {aliases : Aliases} {nesting : Nesting}

theorem Reading.used_alias {names : List String} (h : aliases.NewTo names) {receiver : Receiver}
    {name : String} (halias : aliases.alias? receiver = some name) :
    (Reading.receivers aliases).used name = some (.alias receiver) := by
  have hname : name ≠ "arguments" := fun e => h.notArguments receiver (e ▸ halias)
  cases receiver with
  | this => simp_all [Reading.receivers, Aliases.alias?]
  | arguments =>
      have hthis : aliases.this? ≠ some name := fun e => h.distinct name e halias
      simp_all [Reading.receivers, Aliases.alias?]

theorem Reading.used_of_notAlias {name : String}
    (h : ∀ receiver, aliases.alias? receiver ≠ some name) :
    (Reading.receivers aliases).used name = (Reading.receivers .unset).used name := by
  have hthis : aliases.this? ≠ some name := h .this
  have harguments : aliases.arguments? ≠ some name := h .arguments
  simp [Reading.receivers, Aliases.unset, hthis, harguments]

/-- A node whose name is no alias is the construct that it is without aliases. -/
theorem Node.construct?_receivers {form : Form} {span : Span} {parts : List Node}
    (h : ∀ name ∈ form.names, ∀ receiver, aliases.alias? receiver ≠ some name) :
    (Node.mk form span parts).construct? (.receivers aliases) =
      (Node.mk form span parts).construct? (.receivers .unset) := by
  cases form with
  | ident role name =>
      have hused := Reading.used_of_notAlias (h name (by simp [Form.names]))
      cases role <;> first | exact hused | rfl
  | elementMember => cases parts <;> rfl
  | forOfStmt isAwait | usingDecl isAwait => cases isAwait <;> rfl
  | metaProperty kind => cases kind <;> rfl
  | _ => rfl

/-- What each part does to its bonds, all parts of a node do. -/
theorem bondsFrom_map {reading reading' : Reading} {form : Form} {parts : List Node} {index : Nat}
    {f : Node → Node} {g : Bond → Bond}
    (h : ∀ entry ∈ parts.zipIdx index, (f entry.1).bonds reading' (nesting.enter form entry.2) =
      (entry.1.bonds reading (nesting.enter form entry.2)).map g) :
    bondsFrom reading' nesting form index (parts.map f) =
      (bondsFrom reading nesting form index parts).map g := by
  rw [bondsFrom_eq_flatMap, bondsFrom_eq_flatMap, List.zipIdx_map,
    List.flatMap_map, List.map_flatMap]
  exact List.flatMap_congr h

/-- Where no name is an alias, it does not matter which aliases there are. -/
theorem Node.bonds_receivers {node : Node}
    (h : ∀ name ∈ node.names, ∀ receiver, aliases.alias? receiver ≠ some name) (nesting : Nesting) :
    node.bonds (.receivers aliases) nesting = node.bonds (.receivers .unset) nesting := by
  induction node using Node.inductionOn generalizing nesting with
  | step form span parts ih =>
      rw [Node.names, namesOf_eq_flatMap] at h
      have hform : ∀ name ∈ form.names, ∀ receiver, aliases.alias? receiver ≠ some name :=
        fun name hname => h name (List.mem_append_left _ hname)
      have hparts : bondsFrom (.receivers aliases) nesting form 0 (parts.map id) =
          (bondsFrom (.receivers .unset) nesting form 0 parts).map id := by
        refine bondsFrom_map fun entry hmem => ?_
        have hpart := List.fst_mem_of_mem_zipIdx hmem
        rw [List.map_id]
        exact ih entry.1 hpart (fun name hname =>
          h name (List.mem_append_right _ (List.mem_flatMap.mpr ⟨entry.1, hpart, hname⟩))) _
      rw [List.map_id, List.map_id] at hparts
      rw [Node.bonds, Node.bonds, Node.construct?_receivers hform, hparts]

/-- Whatever is in a function is taken to be in a function. -/
theorem Node.assumed_of_mem_bonds {reading : Reading} {node : Node} {bond : Bond}
    (hassumed : nesting.assumed = .function) (hbond : bond ∈ node.bonds reading nesting) :
    bond.nesting.assumed = .function := by
  induction node using Node.inductionOn generalizing nesting with
  | step form span parts ih =>
      rcases Node.mem_bonds hbond with ⟨construct, -, rfl⟩ | ⟨part, hmem, index, hpart⟩
      · exact hassumed
      · exact ih part hmem (Capture.Boundary.join_eq_function.mpr (Or.inl hassumed)) hpart

/-- The bonds of a node with its own `this` stay. -/
theorem Node.replaced_of_bindsThis {form : Form} {span : Span} {parts : List Node}
    (h : form.bindsThis = true) :
    ∀ bond ∈ (Node.mk form span parts).bonds (.receivers .unset) nesting, bond.replaced = bond := by
  intro bond hbond
  rcases Node.mem_bonds hbond with ⟨construct, hconstruct, rfl⟩ | ⟨part, -, index, hpart⟩
  · cases form with
    | function | classBody | constructor | getter | setter => cases hconstruct
    | _ => cases h
  · have hassumed : bond.nesting.assumed = .function := by
      refine Node.assumed_of_mem_bonds ?_ hpart
      exact Capture.Boundary.join_eq_function.mpr (Or.inr ((Form.boundary_eq_function form).mpr h))
    unfold Bond.replaced
    rw [hassumed]
    split <;> rfl

theorem Node.asObject_useAliases (reading : Reading) (node : Node) :
    (node.useAliases aliases).asObject reading = node.asObject reading := by
  obtain ⟨form, span, parts⟩ := node
  unfold Node.useAliases
  split
  · next hbinds =>
    cases form with
    | ident => cases hbinds
    | _ => rfl
  · split
    · split <;> rfl
    · split <;> rfl
    · split <;> rfl
    · cases form with
      | ident role => cases role <;> rfl
      | _ => rfl

/-- A node that is neither `this` nor `arguments` is the construct that it was, and no receiver. -/
theorem Node.construct?_useAliasesIn {form : Form} (span : Span) (parts : List Node)
    (hunused : ∀ name ∈ form.names, ∀ receiver, aliases.alias? receiver ≠ some name)
    (hthis : form ≠ .thisExpr) (huse : ∀ optional, form ≠ .ident .use "arguments" optional)
    (hshort : ∀ optional, form ≠ .ident .short "arguments" optional) :
    (Node.mk form span (useAliasesIn aliases parts)).construct? (.receivers aliases) =
        (Node.mk form span parts).construct? (.receivers .unset) ∧
      ∀ construct, (Node.mk form span parts).construct? (.receivers .unset) = some construct →
        ∀ receiver, construct ≠ .receiver receiver := by
  refine ⟨(Node.construct?_receivers hunused).trans (Node.construct?_congr ?_), ?_⟩
  · cases parts with
    | nil => rfl
    | cons part parts => exact congrArg some (part.asObject_useAliases _)
  · intro construct hconstruct
    cases form with
    | thisExpr => exact absurd rfl hthis
    | ident role name optional =>
        cases role with
        | use | short =>
            simp only [Node.construct?, Form.construct?, Reading.receivers,
              Aliases.unset] at hconstruct
            grind
        | bind | title => cases hconstruct
    | forOfStmt isAwait | usingDecl isAwait =>
        cases isAwait <;> cases hconstruct
        simp
    | metaProperty kind =>
        cases kind <;> cases hconstruct
        simp
    | yieldExpr | awaitExpr | superRef =>
        cases hconstruct
        simp
    | elementMember =>
        obtain ⟨receiver, rfl⟩ := Node.construct?_elementMember hconstruct
        simp
    | _ => cases hconstruct

/-- A variable that stands for `this` or `arguments` has the bond that was replaced. -/
theorem Node.bonds_use_alias {names : List String} (hnew : aliases.NewTo names)
    {receiver : Receiver} {name : String} (halias : aliases.alias? receiver = some name)
    (hassumed : nesting.assumed ≠ .function) (optional : Bool) (span : Span) :
    (Node.mk (.ident .use name optional) span []).bonds (.receivers aliases) nesting =
      [Bond.replaced ⟨.receiver receiver, span, nesting⟩] := by
  simp [Node.bonds, bondsFrom, Node.construct?, Form.construct?, Reading.used_alias hnew halias,
    Bond.replaced, hassumed]

/-- `this` and `arguments` are replaced where they are taken for those of the code around, and
nothing else is. -/
theorem Node.bonds_useAliases {node : Node} (hwf : node.isWellFormed = true)
    (hnew : aliases.NewTo node.names) (hassumed : nesting.assumed ≠ .function)
    (hneeded : ∀ bond ∈ node.bonds (.receivers .unset) nesting, ∀ receiver,
      bond.construct = .receiver receiver → bond.nesting.assumed ≠ .function →
        ∃ name, aliases.alias? receiver = some name) :
    (node.useAliases aliases).bonds (.receivers aliases) nesting =
      (node.bonds (.receivers .unset) nesting).map Bond.replaced := by
  induction node using Node.inductionOn generalizing nesting with
  | step form span parts ih =>
      have hunused : ∀ name ∈ (Node.mk form span parts).names, ∀ receiver,
          aliases.alias? receiver ≠ some name :=
        fun name hname receiver halias => hnew.unused receiver name halias hname
      unfold Node.useAliases
      split
      · next hbinds =>
        rw [Node.bonds_receivers hunused, List.map_congr_left (Node.replaced_of_bindsThis hbinds),
          List.map_id']
      · next hbinds =>
        split
        · obtain rfl := Node.parts_eq_nil rfl (by simp) hwf
          obtain ⟨name, halias⟩ := hneeded _ List.mem_cons_self .this rfl hassumed
          rw [show aliases.this? = some name from halias]
          exact Node.bonds_use_alias hnew halias hassumed false span
        · next optional =>
          obtain rfl := Node.parts_eq_nil rfl (by simp) hwf
          obtain ⟨name, halias⟩ := hneeded _ List.mem_cons_self .arguments rfl hassumed
          rw [show aliases.arguments? = some name from halias]
          exact Node.bonds_use_alias hnew halias hassumed optional span
        · obtain rfl := Node.parts_eq_nil rfl (by simp) hwf
          obtain ⟨name, halias⟩ := hneeded _ List.mem_cons_self .arguments rfl hassumed
          have hkey : KeepsBondsIn (.receivers aliases) [.use name span]
              [.keyValue "arguments" (.use name span) span] :=
            (KeepsBondsIn.append (.wrap rfl span []) (.refl [.use name span])).trans
              (.wrap rfl .generated _)
          have hvalue := hkey.bonds nesting
          simp only [bondsIn_cons, bondsIn_nil, List.append_nil] at hvalue
          rw [show aliases.arguments? = some name from halias]
          exact hvalue.trans (Node.bonds_use_alias hnew halias hassumed false span)
        · next hthis huse hshort =>
          have hform : ∀ name ∈ form.names, ∀ receiver, aliases.alias? receiver ≠ some name := by
            intro name hname
            refine hunused name ?_
            rw [Node.names]
            exact List.mem_append_left _ hname
          obtain ⟨hconstruct, hother⟩ := Node.construct?_useAliasesIn span parts hform
            (by simpa using hthis) (by simpa using huse) (by simpa using hshort)
          have hown : ∀ bond ∈ ((Node.mk form span parts).construct? (.receivers .unset)).toList.map
              (⟨·, span, nesting⟩ : Construct → Bond), bond.replaced = bond := by
            intro bond hbond
            obtain ⟨construct, hmem, rfl⟩ := List.mem_map.mp hbond
            have hconstruct := hother construct (Option.mem_toList.mp hmem)
            unfold Bond.replaced
            split
            · next receiver heq => exact absurd heq (hconstruct receiver)
            · rfl
          have hinside : ∀ index, (nesting.enter form index).assumed ≠ .function := by
            intro index hfunction
            rcases Capture.Boundary.join_eq_function.mp hfunction with e | e
            · exact hassumed e
            · exact hbinds ((Form.boundary_eq_function form).mp e)
          have hparts : bondsFrom (.receivers aliases) nesting form 0
              (parts.map (·.useAliases aliases)) =
                (bondsFrom (.receivers .unset) nesting form 0 parts).map Bond.replaced := by
            refine bondsFrom_map fun entry hmem => ?_
            have hpart := List.fst_mem_of_mem_zipIdx hmem
            refine ih entry.1 hpart (Node.isWellFormed_part hwf hpart)
              (hnew.mono (Node.names_subset_of_mem hpart)) (hinside entry.2) fun bond hbond => ?_
            refine hneeded bond (List.mem_append_right _ ?_)
            rw [bondsFrom_eq_flatMap]
            exact List.mem_flatMap.mpr ⟨entry, hmem, hbond⟩
          rw [Node.bonds, Node.bonds, hconstruct, useAliasesIn_eq_map, hparts, List.map_append,
            List.map_congr_left hown, List.map_id']

/-- Naming `this` and `arguments` leaves the keywords alone. -/
theorem Node.KeepsBonds.useAliases {node : Node} (hwf : node.isWellFormed = true) :
    node.KeepsBonds .keywords (node.useAliases aliases) := by
  induction node using Node.inductionOn with
  | step form span parts ih =>
      unfold Node.useAliases
      split
      · exact .refl _
      split
      · split
        · obtain rfl := Node.parts_eq_nil rfl (by simp) hwf
          exact ⟨fun _ => rfl, rfl, fun _ => rfl⟩
        · exact .refl _
      · split
        · obtain rfl := Node.parts_eq_nil rfl (by simp) hwf
          exact .ident ⟨rfl, rfl⟩ ⟨rfl, rfl⟩ .nil
        · exact .refl _
      · split
        · exact .keyValue_short hwf ⟨rfl, rfl⟩ ⟨rfl, rfl⟩
        · exact .refl _
      · rw [useAliasesIn_eq_map]
        exact .node_map fun part hmem => ih part hmem (Node.isWellFormed_part hwf hmem)

end

/-! ### What lies between -/

/-- Whether the nodes of a category are neither members of classes nor lists. -/
def Category.isFreestanding : Category → Bool
  | member | list => false
  | _ => true

/-- Members stand in classes only. -/
theorem Form.isFreestanding_slots {form : Form} (h : form.boundary ≠ .function) :
    form.shape.slots.all (·.categories.all (·.isFreestanding)) = true := by
  cases form with
  | classBody => exact absurd rfl h
  | ident role => cases role <;> rfl
  | _ => rfl

/-- A node whose parts can be in a function without the analysis noticing is a member. -/
theorem Form.boundary_of_partBoundary {form : Form} (h : form.category.isFreestanding = true)
    {index : Nat} (hpart : form.partBoundary index = .function) : form.boundary = .function := by
  cases form with
  | function | getter | setter => rfl
  | constructor | classProperty | privateProperty | autoAccessor | staticBlock => cases h
  | _ => cases hpart

/-- What is in a function is taken to be in one, if members stand in classes only. -/
theorem Node.assumed_of_actual {reading : Reading} {node : Node} (hwf : node.isWellFormed = true)
    {nesting : Nesting} (hnesting : nesting.actual = .function → nesting.assumed = .function)
    (hkind : nesting.assumed = .function ∨ node.allAre (·.isFreestanding) = true) {bond : Bond}
    (hbond : bond ∈ node.bonds reading nesting) :
    bond.nesting.actual = .function → bond.nesting.assumed = .function := by
  induction node using Node.inductionOn generalizing nesting with
  | step form span parts ih =>
      rcases hkind with hassumed | hkind
      · exact fun _ => Node.assumed_of_mem_bonds hassumed hbond
      rcases Node.mem_bonds hbond with ⟨construct, -, rfl⟩ | ⟨part, hmem, index, hpart⟩
      · exact hnesting
      · refine ih part hmem (Node.isWellFormed_part hwf hmem) ?_ ?_ hpart
        · intro hactual
          refine Capture.Boundary.join_eq_function.mpr ?_
          refine (Capture.Boundary.join_eq_function.mp hactual).imp hnesting fun hboundary => ?_
          refine Form.boundary_of_partBoundary ?_ hboundary
          by_cases hlist : form = .list
          · subst hlist
            cases hboundary
          · rwa [Node.allAre, if_neg (by simpa [Node.form] using hlist)] at hkind
        · by_cases hboundary : form.boundary = .function
          · exact Or.inl (Capture.Boundary.join_eq_function.mpr (Or.inr hboundary))
          · exact Or.inr (Node.allAre_part rfl rfl hwf hkind
              (fun _ => Form.isFreestanding_slots hboundary) hmem)

/-! ### The function of a loop -/

/-- A loop variable that is renamed in the head gets a name that stands for nothing. -/
theorem Loop.ignores_renameMentioned {reading : Reading} (hnew : reading.IgnoresNew)
    (mentioned : String → Bool) {vars : List String} (hvars : ∀ name ∈ vars, reading.Ignores name)
    (loop : Loop) (names : Registry) :
    ∀ name ∈ ((loop.renameMentioned mentioned vars).run names).1.1, reading.Ignores name := by
  induction vars generalizing loop names with
  | nil => exact fun name hmem => absurd hmem List.not_mem_nil
  | cons name vars ih =>
      rw [List.forall_mem_cons] at hvars
      unfold Loop.renameMentioned
      split
      · exact List.forall_mem_cons.mpr ⟨hnew _ _, ih hvars.2 _ _⟩
      · exact List.forall_mem_cons.mpr ⟨hvars.1, ih hvars.2 _ _⟩

theorem Node.everywhere_bodyStmts {test : Node → Bool} {body : Node}
    (h : body.everywhere test = true) :
    ∀ stmt ∈ body.bodyStmts, stmt.everywhere test = true := by
  unfold Node.bodyStmts
  split
  · exact (Node.everywhere_mk.mp h).2
  · simpa using h

/-- The body of a loop, if it is a block, has the bonds of its statements. -/
theorem KeepsBondsIn.bodyStmts {reading : Reading} (body : Node) :
    KeepsBondsIn reading [body] body.bodyStmts := by
  unfold Node.bodyStmts
  split
  · exact .unwrap rfl _ _
  · exact .refl _

section

variable {reading : Reading} {loop : Loop} {loopVars outer : List String}
  {record : Capture.Record} {options : Options} {names names' : Registry} {extraction : Extraction}

/-- What a body is made into, but for the aliases and the jumps, has the bonds of the body. -/
theorem Loop.ExtractsTo.keepsBonds
    (h : loop.ExtractsTo loopVars outer record options names extraction names')
    (hnew : reading.IgnoresNew) (hbody : loop.body.IsStmt)
    (hbare : loop.body.everywhere Node.headIsBare = true) (hnamed : loop.body.VarsNamed)
    (hignored : loop.body.bindsIgnored reading = true)
    (hvars : ∀ name ∈ loopVars, reading.Ignores name)
    (houter : ∀ name ∈ outer, reading.Ignores name) :
    KeepsBondsIn reading [loop.body] extraction.function.stmts ∧
      (∀ stmt ∈ extraction.function.stmts, stmt.isWellFormed = true) ∧
      ∀ stmt ∈ extraction.function.writeBack, (∀ name ∈ stmt.names, reading.Ignores name) ∧
        ∀ other : Reading, (∀ name ∈ stmt.names, other.Ignores name) → stmt.IsFree other := by
  obtain ⟨-, hflatten, hparams, -, -, -, -, -⟩ := h
  rename_i flattened _ _ _ _
  have hbodyStmts := Node.isStmt_bodyStmts hbody
  have hstmts : KeepsBondsIn reading [loop.body] loop.body.bodyStmts := .bodyStmts loop.body
  have hhoist := hstmts.trans (.hoistStmts (fun stmt hmem => (hbodyStmts stmt hmem).2)
    (Node.everywhere_bodyStmts hbare) hnamed.bodyStmts)
  have hhoistWf := fun stmt hmem => ((hoistStmts_spec hbodyStmts).1 stmt hmem).2
  have hflat := hhoist.trans (.flattenStmts hnew (bodyClash record loopVars) false hhoistWf
    (hhoist.ignored (by simpa using hignored)) names)
  have hflatWf := Node.Fits.wellFormed_of_forall₂
    (forall₂_fits_flattenStmts (bodyClash record loopVars) false hhoistWf names)
  rw [hflatten] at hflat hflatWf
  have hzip : ∀ var ∈ loopVars.zip outer, reading.Ignores var.1 ∧ reading.Ignores var.2 :=
    fun var hmem => ⟨hvars _ (List.of_mem_zip hmem).1, houter _ (List.of_mem_zip hmem).2⟩
  have hkept := KeepsBondsIn.chooseParams hnew
    (fun name => loop.head.isPlain && record.needsWriteBack name) hzip hflatWf flattened
  have hkeptWf := Node.Fits.wellFormed_of_forall₂
    (chooseParams_fits (fun name => loop.head.isPlain && record.needsWriteBack name)
      (loopVars.zip outer) hflatWf flattened).1
  rw [hparams] at hkept hkeptWf
  exact ⟨hflat.trans hkept.1, hkeptWf, hkept.2⟩

theorem Loop.ExtractsTo.isBound_eq_false
    (h : loop.ExtractsTo loopVars outer record options names extraction names') :
    record.isBound = false := by
  obtain ⟨hrefusal, -⟩ := h
  exact extractionRefusal?_eq_none.mp hrefusal

/-- A loop whose body became a function was given its names, and then the body was extracted. -/
theorem Loop.exists_extractsTo {mentioned : String → Bool} {replacement : List Node}
    {report : Report} {functionName : String}
    (h : (loop.lower mentioned options).Gives names (replacement, report) names')
    (houtcome : report.outcome = .extracted functionName) :
    ∃ outer renamed between, ∃ extraction : Extraction,
      (loop.renameMentioned mentioned loop.decl.names).run names = ((outer, renamed), between) ∧
        renamed.ExtractsTo loop.decl.names outer loop.capture options between extraction names' ∧
        replacement = extraction.replacement renamed outer loop.capture options ∧
        extraction.functionName = functionName := by
  obtain ⟨outer, renamed, between, hrename, hcases⟩ := Loop.gives_lower h
  rcases hcases with ⟨-, hextract⟩ | ⟨-, hflatten⟩
  · obtain ⟨extraction, hextracts, hreplacement, rfl⟩ := Loop.extractsTo_of_gives hextract
    exact ⟨outer, renamed, between, extraction, hrename, hextracts, hreplacement,
      by simpa using houtcome⟩
  · obtain ⟨-, -, -, rfl⟩ := Loop.run_flattened hflatten
    cases houtcome

end

/-- The function stands right before the loop that calls it. -/
theorem Extraction.replacement_eq (extraction : Extraction) (loop : Loop) (outer : List String)
    (record : Capture.Record) (options : Options) :
    extraction.replacement loop outer record options =
      aliasStmt extraction.arguments? (.use "arguments" .generated) ++
        aliasStmt extraction.this? (.this .generated) ++ hoisted record ++
        [.varStmt .generated [(extraction.functionName, extraction.functionExpr loop options)],
          { loop.withVarHead with body := extraction.body outer options }.toNode] :=
  List.append_assoc _ _ _

/-- Whether the construct belongs to the code around the tree, but the analysis does not see it. -/
def Bond.isOverlooked (bond : Bond) : Bool := bond.isOwn && bond.finding?.isNone

/-! ### A class in a loop -/

/-- The loop

    for (let x of xs) { saved = () => [value, x]; class A extends base {} }

whose body becomes a function because the arrow captures `x`. -/
def derivingLoop (value base : Node) : Loop where
  labels := []
  span := .generated
  decl := ⟨.lexical false, false, .generated,
    [.declarator false .generated (.binding "x" false .generated .absent) .absent]⟩
  head := .values false (.use "xs" .generated)
  body := .block .generated
    [.exprStmt (.assignTo "saved" (.mk (.arrow false false) .generated [.list [],
        .mk .array .generated [.mk (.arg none) .generated [value],
          .mk (.arg none) .generated [.use "x" .generated]], .absent]) .generated),
      .mk (.classDecl false) .generated [.mk (.ident .title "A" false) .generated [],
        .mk (.classBody false) .generated [.list [], .list [], base]]]

/-- The names of the loop. -/
def derivingNames : Registry := ⟨["x", "xs", "saved", "A", "base"], []⟩

/-- A function, or an `async` one, that evaluates an expression. -/
def evaluating (async : Bool) (expr : Node) : Node :=
  .mk (.functionExpr none) .generated [.mk (.function false async) .generated
    [.list [], .list [], .block .generated [.exprStmt expr], .absent]]

/-! ### Suspension and the function itself -/

theorem Reading.ignores_keywords (name : String) : Reading.keywords.Ignores name := ⟨rfl, rfl⟩

theorem Node.bindsIgnored_keywords (node : Node) : node.bindsIgnored .keywords = true := by
  induction node using Node.inductionOn with
  | step form span parts ih =>
      refine Node.bindsIgnored_mk.mpr ⟨?_, fun _ => ih⟩
      cases form with
      | ident role => cases role <;> rfl
      | _ => rfl

/-- A construct that is read without regard to names is a keyword or a declaration, and it is so to
all readers. -/
theorem Node.construct?_keywords {form : Form} {span : Span} {parts : List Node}
    {construct : Construct} (h : (Node.mk form span parts).construct? .keywords = some construct)
    (reading : Reading) :
    (Node.mk form span parts).construct? reading = some construct ∧
      (construct = .resource ∨ ∃ keyword, construct = .keyword keyword) := by
  cases form with
  | yieldExpr | awaitExpr | superRef =>
      cases h
      exact ⟨rfl, Or.inr ⟨_, rfl⟩⟩
  | forOfStmt isAwait =>
      cases isAwait <;> cases h
      exact ⟨rfl, Or.inr ⟨_, rfl⟩⟩
  | metaProperty kind =>
      cases kind <;> cases h
      exact ⟨rfl, Or.inr ⟨_, rfl⟩⟩
  | usingDecl isAwait =>
      cases isAwait <;> cases h
      exact ⟨rfl, Or.inl rfl⟩
  | ident role => cases role <;> cases h
  | elementMember =>
      cases parts with
      | nil => cases h
      | cons object rest =>
          obtain ⟨form, _, _⟩ := object
          cases form with
          | ident role => cases role <;> cases h
          | _ => cases h
  | _ => cases h

/-- The keywords and declarations of a tree are bonds to all readers. -/
theorem Node.bonds_keywords {node : Node} {nesting : Nesting} {bond : Bond}
    (h : bond ∈ node.bonds .keywords nesting) (reading : Reading) :
    bond ∈ node.bonds reading nesting ∧
      (bond.construct = .resource ∨ ∃ keyword, bond.construct = .keyword keyword) := by
  induction node using Node.inductionOn generalizing nesting with
  | step form span parts ih =>
      rw [Node.bonds, List.mem_append, bondsFrom_eq_flatMap] at h
      rw [Node.bonds, List.mem_append, bondsFrom_eq_flatMap]
      rcases h with h | h
      · obtain ⟨construct, hmem, rfl⟩ := List.mem_map.mp h
        obtain ⟨hconstruct, hkind⟩ := Node.construct?_keywords (Option.mem_toList.mp hmem) reading
        exact ⟨Or.inl (List.mem_map.mpr ⟨construct, Option.mem_toList.mpr hconstruct, rfl⟩), hkind⟩
      · obtain ⟨entry, hmem, h⟩ := List.mem_flatMap.mp h
        obtain ⟨hpart, hkind⟩ := ih entry.1 (List.fst_mem_of_mem_zipIdx hmem) h
        exact ⟨Or.inr (List.mem_flatMap.mpr ⟨entry, hmem, hpart⟩), hkind⟩

section

variable {loop : Loop}

theorem Loop.context_at_top (loop : Loop) : (loop.context true).At .top := ⟨rfl, rfl, rfl⟩

theorem Loop.finding_mem_of_body {finding : Capture.Finding}
    (h : finding ∈ Capture.findings (loop.context true) loop.body) : finding ∈ loop.findings :=
  List.mem_append_right _ h

/-- A body in which a keyword of the code around is found cannot become a function. -/
theorem Loop.isBound_of_keyword (hwf : loop.body.isWellFormed = true) {bond : Bond}
    (hbond : bond ∈ loop.body.bonds .keywords .top) (hfound : bond.finding? ≠ none) :
    loop.capture.isBound = true := by
  obtain ⟨finding, hfinding⟩ := Option.ne_none_iff_exists'.mp hfound
  obtain ⟨hmem, hkind⟩ := Node.bonds_keywords hbond (.receivers .unset)
  have hshape : (∃ keyword span, finding = .suspends keyword span) ∨
      ∃ keyword span, finding = .functionBound keyword span := by
    unfold Bond.finding? at hfinding
    rcases hkind with hkind | ⟨keyword, hkind⟩
    · rw [hkind] at hfinding
      cases hfinding
    · rw [hkind] at hfinding
      cases keyword <;> obtain ⟨-, heq⟩ := Option.ite_none_right_eq_some.mp hfinding
      all_goals cases heq; simp
  have hnot : finding ≠ .usesArguments := by
    rintro rfl
    simp at hshape
  have hall : finding ∈ loop.findings := Loop.finding_mem_of_body
    (Node.finding_mem_findings hwf loop.context_at_top (fun h => absurd h hnot) hmem hfinding)
  by_contra hbound
  simp only [Bool.not_eq_true, Capture.Record.isBound, Bool.or_eq_false_iff,
    Option.isSome_eq_false_iff, Option.isNone_iff_eq_none] at hbound
  obtain ⟨⟨hsuspension, hfunction⟩, -⟩ := hbound
  rcases hshape with ⟨keyword, span, rfl⟩ | ⟨keyword, span, rfl⟩
  · cases List.findSome?_eq_none_iff.mp hsuspension _ hall
  · cases List.findSome?_eq_none_iff.mp hfunction _ hall

/-- The function of a loop has the keywords of the body. -/
theorem Loop.ExtractsTo.bonds_keywords {loopVars outer : List String} {record : Capture.Record}
    {options : Options} {names names' : Registry} {extraction : Extraction}
    (h : loop.ExtractsTo loopVars outer record options names extraction names')
    (hbody : loop.body.IsStmt) (hbare : loop.body.everywhere Node.headIsBare = true)
    (hnamed : loop.body.VarsNamed) :
    bondsIn .keywords .top (extraction.stmts loop.labelNames options ++
      extraction.function.writeBack) = loop.body.bonds .keywords .top := by
  obtain ⟨hkept, hwf, hback⟩ := h.keepsBonds (fun _ _ => Reading.ignores_keywords _) hbody hbare
    hnamed loop.body.bindsIgnored_keywords (fun name _ => Reading.ignores_keywords name)
    fun name _ => Reading.ignores_keywords name
  have hfree : ∀ stmt ∈ extraction.function.writeBack, stmt.IsFree .keywords :=
    fun stmt hmem => (hback stmt hmem).2 _ (hback stmt hmem).1
  have haliased : KeepsBondsIn .keywords [loop.body]
      (useAliasesIn ⟨extraction.this?, extraction.arguments?⟩ extraction.function.stmts) := by
    rw [useAliasesIn_eq_map]
    exact hkept.trans (.map fun stmt hmem => .useAliases (hwf stmt hmem))
  have haliasedWf := Node.Fits.wellFormed_of_forall₂ ((forall₂_stands_useAliasesIn
    ⟨extraction.this?, extraction.arguments?⟩ hwf).imp fun _ _ hs => hs.toFits)
  have hredirected : KeepsBondsIn .keywords [loop.body]
      (extraction.stmts loop.labelNames options) := by
    rw [Extraction.stmts, redirectIn_eq_map]
    exact haliased.trans (.map fun stmt hmem => .redirect hfree _ (haliasedWf stmt hmem))
  have hnone : bondsIn .keywords .top extraction.function.writeBack = [] :=
    List.flatMap_eq_nil_iff.mpr fun stmt hmem => (hfree stmt hmem).bonds .top
  rw [bondsIn_append, hnone, List.append_nil, hredirected.bonds, bondsIn_cons, bondsIn_nil,
    List.append_nil]

/-- A body that becomes a function takes no `yield` or `await`, no `super` and no `new.target` of
the code around the loop with it, if the analysis overlooks none. -/
theorem Loop.nothing_bound_moves {stmt : Node} {mentioned : String → Bool} {options : Options}
    {names names' : Registry} {replacement : List Node} {report : Report} {functionName : String}
    (hstmt : stmt.isWellFormed = true) (hloop : Loop.ofNode? stmt = some loop)
    (hbare : loop.body.everywhere Node.headIsBare = true)
    (hfound : ∀ bond ∈ loop.body.bonds .keywords .top, bond.isOverlooked = false)
    (hlower : (loop.lower mentioned options).Gives names (replacement, report) names')
    (houtcome : report.outcome = .extracted functionName) :
    ∃ before params stmts rebuilt, replacement = before ++
        [.varStmt .generated [(functionName, .functionOf params stmts loop.span)], rebuilt] ∧
      bondsIn .keywords .top stmts = loop.body.bonds .keywords .top ∧
      ∀ bond ∈ bondsIn .keywords .top stmts, bond.isOwn = false := by
  have hwf := Loop.wellFormed_of_ofNode? hloop hstmt
  obtain ⟨outer, renamed, between, extraction, hrename, hextracts, rfl, rfl⟩ :=
    Loop.exists_extractsTo hlower houtcome
  have hrenamed := Loop.Renamed.renameMentioned mentioned loop.decl.names hwf names
  rw [hrename] at hrenamed
  have hbound := hextracts.isBound_eq_false
  have hbonds := hextracts.bonds_keywords hrenamed.wellFormed.body (hrenamed.body ▸ hbare)
    (hrenamed.body ▸ Loop.varsNamed_body hbound)
  rw [hrenamed.body] at hbonds
  have hreplacement := extraction.replacement_eq renamed outer loop.capture options
  rw [Extraction.functionExpr, hrenamed.span] at hreplacement
  refine ⟨_, _, _, _, hreplacement, hbonds, fun bond hmem => ?_⟩
  rw [hbonds] at hmem
  have hseen := hfound bond hmem
  rw [Bond.isOverlooked, Bool.and_eq_false_iff] at hseen
  refine hseen.resolve_right fun hnone => ?_
  have hkeyword := Loop.isBound_of_keyword hwf.body.2 hmem
    (by simpa [Option.isSome_iff_ne_none] using hnone)
  rw [hbound] at hkeyword
  cases hkeyword

end

/-- An `await` in an asynchronous function stays with that function. -/
theorem derivingLoop_nothing_moves : ∃ replacement report names',
    ((derivingLoop (.use "base" .generated) (evaluating true
        (.mk .awaitExpr .generated [.use "base" .generated]))).lower (fun _ => false) {}).Gives
        derivingNames (replacement, report) names' ∧
      report.outcome = .extracted "loop" ∧
      ∃ before params stmts rebuilt, replacement = before ++
          [.varStmt .generated [("loop", .functionOf params stmts .generated)], rebuilt] ∧
        bondsIn .keywords .top stmts = [⟨.keyword .await, .generated, ⟨.function, .function⟩⟩] ∧
        ∀ bond ∈ bondsIn .keywords .top stmts, bond.isOwn = false := by
  obtain ⟨replacement, report, names', hlower, houtcome⟩ : ∃ replacement report names',
      ((derivingLoop (.use "base" .generated) (evaluating true
          (.mk .awaitExpr .generated [.use "base" .generated]))).lower (fun _ => false) {}).Gives
          derivingNames (replacement, report) names' ∧
        report.outcome = .extracted "loop" := ⟨_, _, _, rfl, rfl⟩
  refine ⟨replacement, report, names', hlower, houtcome, ?_⟩
  obtain ⟨before, params, stmts, rebuilt, hreplacement, hbonds, hown⟩ :=
    Loop.nothing_bound_moves (by decide +kernel) (Loop.ofNode?_toNode _ rfl) (by decide +kernel)
      (by decide +kernel) hlower houtcome
  exact ⟨before, params, stmts, rebuilt, hreplacement, hbonds.trans rfl, hown⟩

/-- An `await` in what the class extends is overlooked, and the function, which is not asynchronous,
has it. -/
theorem derivingLoop_heritage_suspends : ∃ replacement report names' params stmts,
    ((derivingLoop (.use "base" .generated)
        (.mk .awaitExpr .generated [.use "base" .generated])).lower (fun _ => false) {}).Gives
        derivingNames (replacement, report) names' ∧
      report.outcome = .extracted "loop" ∧
      .varStmt .generated [("loop", .functionOf params stmts .generated)] ∈ replacement ∧
      bondsIn .keywords .top stmts = [⟨.keyword .await, .generated, ⟨.block, .function⟩⟩] ∧
      ∀ bond ∈ bondsIn .keywords .top stmts, bond.isOwn = true :=
  ⟨_, _, _, _, _, rfl, rfl, List.mem_cons_self, by decide +kernel, by decide +kernel⟩

/-! ### `this` and `arguments` -/

theorem Reading.ignores_receivers {aliases : Aliases} {name : String} :
    (Reading.receivers aliases).Ignores name ↔ (Reading.receivers .unset).Ignores name ∧
      ∀ receiver, aliases.alias? receiver ≠ some name := by
  constructor
  · rintro ⟨hused, hobject⟩
    have hunset : (Reading.receivers .unset).used name = none := by
      simp only [Reading.receivers, Aliases.unset] at hused ⊢
      grind
    refine ⟨⟨hunset, hobject⟩, fun receiver halias => ?_⟩
    cases receiver <;> simp only [Reading.receivers, Aliases.alias?] at hused halias <;> grind
  · rintro ⟨⟨hused, hobject⟩, hother⟩
    exact ⟨(Reading.used_of_notAlias hother).trans hused, hobject⟩

/-- Made-up names are neither `this` nor `arguments`. -/
theorem Reading.ignoresNew_receivers : (Reading.receivers .unset).IgnoresNew := by
  intro base n
  have hthis : Registry.suffixed base n ≠ "this" := Registry.suffixed_ne (by decide) base n
  have harguments := Registry.suffixed_ne_arguments base n
  simp [Reading.Ignores, Reading.receivers, Aliases.unset, hthis, harguments]

/-- An alias is drawn if it is needed, and then it is a suffixed name. -/
theorem aliasFor_spec {needed : Bool} {base : String} {alias? : Option String}
    {names names' : Registry} (h : (aliasFor needed base).run names = (alias?, names')) :
    (needed = true → ∃ name, alias? = some name) ∧
      ∀ name, alias? = some name → ∃ n, name = Registry.suffixed base n := by
  unfold aliasFor at h
  split at h
  · obtain ⟨rfl, -⟩ := Prod.mk.inj h
    exact ⟨fun _ => ⟨_, rfl⟩, fun name heq => ⟨_, (Option.some.inj heq).symm⟩⟩
  · next hneeded =>
    obtain ⟨rfl, -⟩ := Prod.mk.inj h
    exact ⟨fun h => absurd h hneeded, fun name heq => by cases heq⟩

/-- Whether the body uses it as the code around the loop does. -/
def Capture.Record.takes (record : Capture.Record) : Receiver → Bool
  | .this => record.thisCaptured
  | .arguments => record.argumentsCaptured

section

variable {loop : Loop} {loopVars outer : List String} {record : Capture.Record} {options : Options}
  {names names' : Registry} {extraction : Extraction}

/-- The variables that stand for `this` and `arguments`, if any. -/
def Extraction.aliases (extraction : Extraction) : Aliases :=
  ⟨extraction.this?, extraction.arguments?⟩

/-- The variables are drawn as they are needed, after all names of the function. -/
theorem Loop.ExtractsTo.aliases
    (h : loop.ExtractsTo loopVars outer record options names extraction names')
    (hknown : loop.body.Known names) (hvars : ∀ name ∈ loopVars, name ∈ names.taken)
    (houter : ∀ name ∈ outer, name ∈ names.taken) :
    ∃ drawn : Registry, names.taken ⊆ drawn.taken ∧ extraction.aliases.NewTo drawn.taken ∧
      (∀ receiver, record.takes receiver = true → ∃ name,
        extraction.aliases.alias? receiver = some name) ∧
      (∀ param ∈ extraction.function.params, param ∈ drawn.taken) ∧
      (∀ stmt ∈ extraction.function.writeBack, stmt.Known drawn) ∧
      ∀ stmt ∈ extraction.function.stmts, stmt.Known drawn := by
  obtain ⟨-, hflatten, hparams, harguments, hthis, -, -, -⟩ := h
  rename_i stmts flattened drawn withArguments withThis _
  have hflattened := (draws_flattenStmts _ _ _).subset_of_run hflatten
  have hchosen := (draws_chooseParams _ _ _).subset_of_run hparams
  have hafter := (draws_aliasFor _ _).subset_of_run harguments
  have hstmts := known_flattenStmts (known_hoistStmts hknown.bodyStmts) hflatten
  have hfunction := known_chooseParams
    (fun name => loop.head.isPlain && record.needsWriteBack name)
    (fun var hmem => ⟨hflattened (hvars _ (List.of_mem_zip hmem).1),
      hflattened (houter _ (List.of_mem_zip hmem).2)⟩) hstmts
  rw [hparams] at hfunction
  have hneedsArguments := aliasFor_spec harguments
  have hneedsThis := aliasFor_spec hthis
  refine ⟨drawn, List.Subset.trans hflattened hchosen, ⟨?_, ?_, ?_⟩, ?_, hfunction⟩
  · intro receiver name halias hmem
    cases receiver with
    | this => exact aliasFor_notMem hthis name (Option.mem_toList.mpr halias) (hafter hmem)
    | arguments => exact aliasFor_notMem harguments name (Option.mem_toList.mpr halias) hmem
  · intro receiver halias
    cases receiver with
    | this =>
        obtain ⟨n, heq⟩ := hneedsThis.2 _ halias
        exact Registry.suffixed_ne_arguments _ n heq.symm
    | arguments =>
        obtain ⟨n, heq⟩ := hneedsArguments.2 _ halias
        exact Registry.suffixed_ne_arguments _ n heq.symm
  · intro name hname hsame
    exact aliasFor_notMem hthis name (Option.mem_toList.mpr hname)
      ((known_aliasFor harguments).1 name hsame)
  · intro receiver htakes
    cases receiver with
    | this => exact hneedsThis.1 htakes
    | arguments => exact hneedsArguments.1 htakes

/-- The function of a loop has the bonds of the body, but for the receivers that are replaced. -/
theorem Loop.ExtractsTo.bonds_receivers
    (h : loop.ExtractsTo loopVars outer record options names extraction names')
    (hbody : loop.body.IsStmt) (hbare : loop.body.everywhere Node.headIsBare = true)
    (hnamed : loop.body.VarsNamed) (hknown : loop.body.Known names)
    (hvars : ∀ name ∈ loopVars, name ∈ names.taken ∧ (Reading.receivers .unset).Ignores name)
    (houter : ∀ name ∈ outer, name ∈ names.taken ∧ (Reading.receivers .unset).Ignores name)
    (hignored : loop.body.bindsIgnored (.receivers .unset) = true)
    (hneeded : ∀ bond ∈ loop.body.bonds (.receivers .unset) .top, ∀ receiver,
      bond.construct = .receiver receiver → bond.nesting.assumed ≠ .function →
        record.takes receiver = true) :
    (∀ receiver name, extraction.aliases.alias? receiver = some name →
        name ∉ names.taken ∧ name ∉ extraction.function.params) ∧
      bondsIn (.receivers extraction.aliases) .top (extraction.stmts loop.labelNames options ++
          extraction.function.writeBack) =
        (loop.body.bonds (.receivers .unset) .top).map Bond.replaced := by
  obtain ⟨drawn, hdrawn, hnew, hdraws, hparams, hbackKnown, hstmtsKnown⟩ :=
    h.aliases hknown (fun name hmem => (hvars name hmem).1) fun name hmem => (houter name hmem).1
  obtain ⟨hkept, hwf, hback⟩ :=
    h.keepsBonds Reading.ignoresNew_receivers hbody hbare hnamed hignored
    (fun name hmem => (hvars name hmem).2) fun name hmem => (houter name hmem).2
  have hbonds : bondsIn (.receivers .unset) .top extraction.function.stmts =
      loop.body.bonds (.receivers .unset) .top := by
    rw [hkept.bonds, bondsIn_cons, bondsIn_nil, List.append_nil]
  have hfree : ∀ stmt ∈ extraction.function.writeBack,
      stmt.IsFree (.receivers extraction.aliases) := by
    intro stmt hmem
    refine (hback stmt hmem).2 _ fun name hname => Reading.ignores_receivers.mpr
      ⟨(hback stmt hmem).1 name hname, fun receiver halias => ?_⟩
    exact hnew.unused receiver name halias (hbackKnown stmt hmem name hname)
  have haliased : bondsIn (.receivers extraction.aliases) .top
      (useAliasesIn extraction.aliases extraction.function.stmts) =
        (loop.body.bonds (.receivers .unset) .top).map Bond.replaced := by
    rw [← hbonds, useAliasesIn_eq_map, bondsIn, bondsIn, List.flatMap_map, List.map_flatMap]
    refine List.flatMap_congr fun stmt hmem => ?_
    refine Node.bonds_useAliases (hwf stmt hmem) (hnew.mono (hstmtsKnown stmt hmem))
      (by simp [Nesting.top]) fun bond hbond receiver hconstruct hassumed => hdraws receiver ?_
    refine hneeded bond ?_ receiver hconstruct hassumed
    rw [← hbonds]
    exact List.mem_flatMap.mpr ⟨stmt, hmem, hbond⟩
  have haliasedWf := Node.Fits.wellFormed_of_forall₂
    ((forall₂_stands_useAliasesIn extraction.aliases hwf).imp fun _ _ hs => hs.toFits)
  have hredirected : KeepsBondsIn (.receivers extraction.aliases)
      (useAliasesIn extraction.aliases extraction.function.stmts)
      (extraction.stmts loop.labelNames options) := by
    rw [Extraction.stmts, redirectIn_eq_map]
    exact .map fun stmt hmem => .redirect hfree _ (haliasedWf stmt hmem)
  have hnone : bondsIn (.receivers extraction.aliases) .top extraction.function.writeBack = [] :=
    List.flatMap_eq_nil_iff.mpr fun stmt hmem => (hfree stmt hmem).bonds .top
  refine ⟨fun receiver name halias => ⟨fun hmem => ?_, fun hmem => ?_⟩, ?_⟩
  · exact hnew.unused receiver name halias (hdrawn hmem)
  · exact hnew.unused receiver name halias (hparams name hmem)
  · rw [bondsIn_append, hnone, List.append_nil, hredirected.bonds, haliased]

end

/-- What has to become of a bond: the variable takes the place of `this` and `arguments` where they
belong to the code around, and only there. -/
def Bond.aliased (bond : Bond) : Bond :=
  match bond.construct with
  | .receiver receiver => if bond.isOwn then { bond with construct := .alias receiver } else bond
  | _ => bond

/-- No receiver of the code around is left, if none is overlooked. -/
theorem Bond.isOwn_aliased {bond : Bond}
    (hfound : bond.construct.isReceiver = true → bond.isOverlooked = false)
    (h : bond.aliased.construct.isReceiver = true) : bond.aliased.isOwn = false := by
  obtain ⟨construct, span, nesting⟩ := bond
  cases construct with
  | receiver receiver =>
      unfold Bond.aliased at h ⊢
      simp only at h ⊢
      split at h
      · cases h
      · next hown => simp [hown]
  | element receiver => simpa [Bond.isOverlooked, Bond.finding?, Bond.aliased] using hfound rfl
  | _ => cases h

/-- Whether the code around a place is strict: no scope is called `arguments`, and no pattern that
is not a parameter is for `this` or `arguments`. -/
def Node.isStrict (node : Node) : Bool :=
  node.everywhere Node.keepsArguments && node.bindsIgnored (.receivers .unset)

section

variable {loop : Loop}

/-- A bond that is not overlooked is replaced if and only if it has to be. -/
theorem Loop.replaced_eq_aliased (hbody : loop.body.IsStmt) {bond : Bond}
    (hbond : bond ∈ loop.body.bonds (.receivers .unset) .top)
    (hfound : bond.construct.isReceiver = true → bond.isOverlooked = false) :
    bond.replaced = bond.aliased := by
  have hkind : loop.body.allAre (·.isFreestanding) = true := by
    refine Slot.allAre_of_admits rfl ?_ ?_ (Node.isStmt_iff.mp hbody).1
    · decide
    · decide
  have hassumed := Node.assumed_of_actual hbody.2 (by simp [Nesting.top]) (Or.inr hkind) hbond
  obtain ⟨construct, span, actual, assumed⟩ := bond
  cases construct with
  | receiver receiver =>
      have hseen := hfound rfl
      cases receiver <;> cases actual <;> cases assumed <;>
        simp_all [Bond.replaced, Bond.aliased, Bond.isOwn, Bond.isOverlooked, Bond.finding?]
  | _ => rfl

/-- Strict code declares no variable that stands for `this` or `arguments`. -/
theorem Loop.ignores_of_isStrict (h : loop.toUnlabeled.isStrict = true) :
    (∀ name ∈ loop.decl.names, (Reading.receivers .unset).Ignores name) ∧
      loop.body.bindsIgnored (.receivers .unset) = true ∧
      loop.body.everywhere Node.keepsArguments = true := by
  rw [Node.isStrict, Bool.and_eq_true] at h
  refine ⟨?_, ?_, Loop.everywhere_body h.1⟩
  all_goals
    have hparts := h.2
    rw [Loop.toUnlabeled_eq, Node.bindsIgnored_mk] at hparts
    have hparts := hparts.2 (by cases loop.head <;> rfl)
  · intro name hname
    rw [Declaration.names, bindingNamesOf_eq_flatMap] at hname
    obtain ⟨declarator, hmem, hname⟩ := List.mem_flatMap.mp hname
    have hdecl := hparts loop.decl.toNode List.mem_cons_self
    exact Node.ignores_of_mem_bindingNames
      ((Node.bindsIgnored_mk.mp hdecl).2 rfl declarator hmem) hname
  · exact hparts loop.body (by simp)

/-- The analysis finds the receivers that are replaced. -/
theorem Loop.takes_of_assumed (hwf : loop.body.isWellFormed = true)
    (hstrict : loop.toUnlabeled.isStrict = true) {bond : Bond}
    (hbond : bond ∈ loop.body.bonds (.receivers .unset) .top) {receiver : Receiver}
    (hconstruct : bond.construct = .receiver receiver)
    (hassumed : bond.nesting.assumed ≠ .function) :
    loop.capture.takes receiver = true := by
  obtain ⟨hvars, -, hkeeps⟩ := Loop.ignores_of_isStrict hstrict
  have hframes : ∀ frame ∈ (loop.context true).frames, "arguments" ∉ frame.names := by
    refine List.forall_mem_singleton.mpr fun hmem => ?_
    cases (hvars "arguments" hmem).1
  have hmem : ∀ finding, bond.finding? = some finding → finding ∈ loop.findings :=
    fun finding hfinding => Loop.finding_mem_of_body (Node.finding_mem_findings hwf
      loop.context_at_top (fun _ => ⟨hkeeps, hframes⟩) hbond hfinding)
  cases receiver with
  | this => exact decide_eq_true (hmem .usesThis (by simp [Bond.finding?, hconstruct, hassumed]))
  | arguments =>
      exact decide_eq_true (hmem .usesArguments (by simp [Bond.finding?, hconstruct, hassumed]))

/-- In strict code, `this` and `arguments` mean what they meant when the body of a loop becomes a
function, if the analysis overlooks none.  Where they belong to the code around the loop, variables
take their places, which are declared before the loop; all others stay, and none belongs to the
function. -/
theorem Loop.receivers_keep_meaning {stmt : Node} {mentioned : String → Bool} {options : Options}
    {names names' : Registry} {replacement : List Node} {report : Report} {functionName : String}
    (hstmt : stmt.isWellFormed = true) (hloop : Loop.ofNode? stmt = some loop)
    (hknown : stmt.Known names) (hstrict : loop.toUnlabeled.isStrict = true)
    (hbare : loop.body.everywhere Node.headIsBare = true)
    (hfound : ∀ bond ∈ loop.body.bonds (.receivers .unset) .top,
      bond.construct.isReceiver = true → bond.isOverlooked = false)
    (hlower : (loop.lower mentioned options).Gives names (replacement, report) names')
    (houtcome : report.outcome = .extracted functionName) :
    ∃ (aliases : Aliases) (before : List Node) (params : List String) (stmts : List Node)
        (rebuilt : Node),
      replacement = aliasStmt aliases.arguments? (.use "arguments" .generated) ++
          aliasStmt aliases.this? (.this .generated) ++ before ++
          [.varStmt .generated [(functionName, .functionOf params stmts loop.span)], rebuilt] ∧
        (∀ receiver name, aliases.alias? receiver = some name →
          name ∉ names.taken ∧ name ∉ params) ∧
        bondsIn (.receivers aliases) .top stmts =
          (loop.body.bonds (.receivers .unset) .top).map Bond.aliased ∧
        ∀ bond ∈ bondsIn (.receivers aliases) .top stmts,
          bond.construct.isReceiver = true → bond.isOwn = false := by
  have hwf := Loop.wellFormed_of_ofNode? hloop hstmt
  obtain ⟨hvars, hignored, -⟩ := Loop.ignores_of_isStrict hstrict
  obtain ⟨outer, renamed, between, extraction, hrename, hextracts, rfl, rfl⟩ :=
    Loop.exists_extractsTo hlower houtcome
  have hown : loop.HasOwnNames false outer renamed between :=
    .renameMentioned hwf (Loop.known_of_ofNode? hloop hknown) hrename
  have hsub := (Loop.draws_renameMentioned mentioned loop.decl.names loop).subset names
  have houter := Loop.ignores_renameMentioned Reading.ignoresNew_receivers
      mentioned hvars loop names
  rw [hrename] at hsub houter
  have hbound := hextracts.isBound_eq_false
  obtain ⟨haliases, hbonds⟩ := hextracts.bonds_receivers hown.wellFormed.body (hown.body ▸ hbare)
    (hown.body ▸ Loop.varsNamed_body hbound) hown.known.body
    (fun name hmem => ⟨hown.vars name hmem, hvars name hmem⟩)
    (fun name hmem => ⟨hown.outerNames name hmem, houter name hmem⟩) (hown.body ▸ hignored)
    (fun bond hbond receiver hconstruct hassumed =>
      Loop.takes_of_assumed hwf.body.2 hstrict (hown.body ▸ hbond) hconstruct hassumed)
  rw [hown.body, List.map_congr_left fun bond hbond =>
    Loop.replaced_eq_aliased hwf.body hbond (hfound bond hbond)] at hbonds
  have hreplacement := extraction.replacement_eq renamed outer loop.capture options
  rw [Extraction.functionExpr, hown.span] at hreplacement
  refine ⟨extraction.aliases, _, _, _, _, hreplacement, fun receiver name halias =>
    (haliases receiver name halias).imp_left fun h hmem => h (hsub hmem),
    hbonds, fun bond hmem => ?_⟩
  rw [hbonds] at hmem
  obtain ⟨original, horiginal, rfl⟩ := List.mem_map.mp hmem
  exact Bond.isOwn_aliased (hfound original horiginal)

end

/-- Where `this` stands in an arrow a variable takes its place, and in a function it stays. -/
theorem derivingLoop_receivers_kept : ∃ replacement report names',
    ((derivingLoop (.this .generated) (evaluating false (.this .generated))).lower
        (fun _ => false) {}).Gives derivingNames (replacement, report) names' ∧
      report.outcome = .extracted "loop" ∧
      ∃ (aliases : Aliases) (before : List Node) (params : List String) (stmts : List Node)
          (rebuilt : Node),
        replacement = aliasStmt aliases.arguments? (.use "arguments" .generated) ++
            aliasStmt aliases.this? (.this .generated) ++ before ++
            [.varStmt .generated [("loop", .functionOf params stmts .generated)], rebuilt] ∧
          (∀ receiver name, aliases.alias? receiver = some name →
            name ∉ derivingNames.taken ∧ name ∉ params) ∧
          bondsIn (.receivers aliases) .top stmts =
            [⟨.alias .this, .generated, ⟨.arrow, .arrow⟩⟩,
              ⟨.receiver .this, .generated, ⟨.function, .function⟩⟩] := by
  obtain ⟨replacement, report, names', hlower, houtcome⟩ : ∃ replacement report names',
      ((derivingLoop (.this .generated) (evaluating false (.this .generated))).lower
          (fun _ => false) {}).Gives derivingNames (replacement, report) names' ∧
        report.outcome = .extracted "loop" := ⟨_, _, _, rfl, rfl⟩
  refine ⟨replacement, report, names', hlower, houtcome, ?_⟩
  obtain ⟨aliases, before, params, stmts, rebuilt, hreplacement, haliases, hbonds, -⟩ :=
    Loop.receivers_keep_meaning (by decide +kernel) (Loop.ofNode?_toNode _ rfl)
      (by unfold Node.Known; decide +kernel) (by decide +kernel) (by decide +kernel)
      (by decide +kernel) hlower houtcome
  exact ⟨aliases, before, params, stmts, rebuilt, hreplacement, haliases, hbonds.trans rfl⟩

/-- Where `this` stands in what the class extends, it is overlooked, and the function has one of its
own there. -/
theorem derivingLoop_heritage_rebound : ∃ replacement report names' params stmts,
    ((derivingLoop (.use "base" .generated)
        (.memberOf (.this .generated) "Base" .generated)).lower (fun _ => false) {}).Gives
        derivingNames (replacement, report) names' ∧
      report.capture.thisCaptured = false ∧
      .varStmt .generated [("loop", .functionOf params stmts .generated)] ∈ replacement ∧
      bondsIn (.receivers .unset) .top stmts =
        [⟨.receiver .this, .generated, ⟨.block, .function⟩⟩] ∧
      ∀ bond ∈ bondsIn (.receivers .unset) .top stmts, bond.isOwn = true :=
  ⟨_, _, _, _, _, rfl, by decide +kernel, List.mem_cons_self, by decide +kernel, by decide +kernel⟩

end LoopLowering
