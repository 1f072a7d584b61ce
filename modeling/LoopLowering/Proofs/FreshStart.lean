/-
A binding declared without a value is undefined each time its declaration is reached.

A `let` is so by itself.  The `var` it is turned into keeps its value, and is given the
initialiser `void 0` wherever it may be reached twice in the same call of a function.  In the
function that a loop body becomes, outside the loops in it, nothing is reached twice, and each
call has its own variables.

A declarator is followed by its span.  `Node.standings` lists how the declarators of a span stand
in a tree, and `Standing.IsSettled` is what every rewriting keeps of them: they are uninitialised
`let` still, outside loop heads, or start afresh.  The declarators in the head of a plain loop are
turned into `var` as they are, so nothing is said about them.
-/
import LoopLowering.Proofs.BodyVars
import LoopLowering.Proofs.Outcomes

namespace LoopLowering

/-! ### How declarators stand -/

/-- What a variable starts out with. -/
inductive Start where
  | nothing
  | undefined
  | value
deriving DecidableEq

/-- Where a node stands. -/
inductive Spot where
  /-- It is a part of a loop, such as its head. -/
  | head
  /-- It is a part of a function expression that has no name and the span of generated nodes, as
  the function of a loop body has.  Such an expression in the source, without a name and with that
  span, is not told apart from it. -/
  | wrapped
  /-- It is in the function of such an expression, outside closures and loops. -/
  | called
  | elsewhere
deriving DecidableEq

/-- Where the parts of most nodes stand. -/
def Spot.inner (spot : Spot) : Spot := if spot = .called then .called else .elsewhere

/-- Where the parts of a node stand. -/
def Spot.enter (spot : Spot) (form : Form) (span : Span) : Spot :=
  if form.isLoop then .head
  else if form.isClosure then if spot = .wrapped then .called else .elsewhere
  else if form = .functionExpr none ∧ span = .generated then .wrapped
  else spot.inner

/-- Whether the node is the number zero. -/
def Node.isZero (node : Node) : Bool :=
  match node.form with
  | .number 0 _ => true
  | _ => false

/-- What a variable with this initialiser starts out with: `void 0` is the undefined value. -/
def Node.start (init : Node) : Start :=
  if init.isAbsent then .nothing
  else if init.form == .unary "void" && init.parts.map Node.isZero == [true] then .undefined
  else .value

/-- What the variable of a declarator at `place` starts out with. -/
def Node.startAt? (place : Span) : Node → Option Start
  | .mk (.declarator _) span [_, init] => if span = place then some init.start else none
  | _ => none

/-- How a declarator stands in a tree. -/
structure Standing where
  kind : VarKind
  spot : Spot
  start : Start
deriving DecidableEq

/-- How the declarators at `place` stand in a declaration. -/
def Form.standings (place : Span) (spot : Spot) (form : Form) (parts : List Node) : List Standing :=
  match form with
  | .varDecl kind _ => (parts.filterMap (Node.startAt? place)).map (.mk kind spot)
  | _ => []

mutual

/-- How the declarators at `place` stand in a tree. -/
def Node.standings (place : Span) (spot : Spot) : Node → List Standing
  | .mk form span parts => form.standings place spot parts ++ standingsIn place
    (spot.enter form span) parts

/-- How the declarators at `place` stand in a list of trees. -/
def standingsIn (place : Span) (spot : Spot) : List Node → List Standing
  | [] => []
  | node :: nodes => node.standings place spot ++ standingsIn place spot nodes

end

namespace Standing

/-- It is an uninitialised `let`, and not in the head of a loop. -/
def IsBareLet (standing : Standing) : Prop :=
  standing.kind = .lexical false ∧ standing.spot ≠ .head ∧ standing.start = .nothing

instance : DecidablePred IsBareLet := fun _ => inferInstanceAs (Decidable (_ ∧ _ ∧ _))

/-- The variable is undefined whenever the declaration is reached: it is set, or new. -/
def IsFresh (standing : Standing) : Prop := standing.start = .undefined ∨ standing.spot = .called

instance : DecidablePred IsFresh := fun _ => inferInstanceAs (Decidable (_ ∨ _))

/-- It is an uninitialised `let`, or starts afresh as a `var`. -/
def IsSettled (standing : Standing) : Prop :=
  standing.IsBareLet ∨ standing.kind = .var ∧ standing.IsFresh

end Standing

/-- The declarators at `place` are uninitialised `let`, or start afresh. -/
def Node.SettledAt (place : Span) (spot : Spot) (node : Node) : Prop :=
  ∀ standing ∈ node.standings place spot, standing.IsSettled

section

variable {place span : Span} {spot spot' : Spot} {form : Form} {parts : List Node}

theorem standingsIn_eq_flatMap (nodes : List Node) :
    standingsIn place spot nodes = nodes.flatMap (Node.standings place spot) := by
  induction nodes with
  | nil => rfl
  | cons node nodes ih => rw [standingsIn, ih, List.flatMap_cons]

theorem Node.settled_mk : (Node.mk form span parts).SettledAt place spot ↔
    (∀ standing ∈ form.standings place spot parts, standing.IsSettled) ∧
      ∀ part ∈ parts, part.SettledAt place (spot.enter form span) := by
  unfold Node.SettledAt
  rw [Node.standings, standingsIn_eq_flatMap]
  simp only [List.mem_append, List.mem_flatMap]
  exact ⟨fun h => ⟨fun standing hmem => h standing (.inl hmem),
      fun part hpart standing hmem => h standing (.inr ⟨part, hpart, hmem⟩)⟩,
    fun h standing hmem => hmem.elim (h.1 standing) fun ⟨part, hpart, hmem⟩ =>
      h.2 part hpart standing hmem⟩

/-- Whether what a variable starts out with may depend on nodes of this form. -/
def Form.isTelling : Form → Bool
  | .absent | .unary _ | .number _ _ | .declarator _ => true
  | _ => false

/-- A node that declares nothing itself is settled if its parts are. -/
theorem Node.settled_parts (h : form.standings place spot parts = []) :
    (Node.mk form span parts).SettledAt place spot ↔
      ∀ part ∈ parts, part.SettledAt place (spot.enter form span) := by
  rw [Node.settled_mk, h]
  simp

theorem Node.settled_leaf (h : form.standings place spot [] = []) :
    (Node.mk form span []).SettledAt place spot :=
  (Node.settled_parts h).mpr (by simp)

/-- A list of statements declares nothing itself. -/
theorem Form.standings_of_isStmtList (h : form.isStmtList = true) :
    form.isTelling = false ∧ ∀ spot parts, form.standings place spot parts = [] := by
  cases form with
  | block | caseBody | program | moduleBlock => exact ⟨rfl, fun _ _ => rfl⟩
  | _ => cases h

/-- The parts of most nodes stand inside. -/
theorem Spot.enter_of_plain (hloop : form.isLoop = false) (hclosure : form.isClosure = false)
    (hform : form ≠ .functionExpr none) : spot.enter form span = spot.inner := by
  unfold Spot.enter
  rw [hloop, hclosure, if_neg Bool.false_ne_true, if_neg Bool.false_ne_true,
    if_neg fun h => hform h.1]

@[simp] theorem Spot.inner_inner : spot.inner.inner = spot.inner := by
  cases spot <;> rfl

theorem Spot.enter_of_isLoop (h : form.isLoop = true) : spot.enter form span = .head := by
  rw [Spot.enter, if_pos h]

end

/-! ### Trees whose declarators stand alike -/

/-- For a variable, and for the declarators at `place`, the second tree is as good as the first,
at all `spots`. -/
structure Node.StartsLike (place : Span) (spots : Spot → Prop) (a b : Node) : Prop where
  zero : b.isZero = a.isZero
  start : b.start = a.start
  startAt : b.startAt? place = a.startAt? place
  settled : ∀ spot, spots spot → a.SettledAt place spot → b.SettledAt place spot

section

variable {place span : Span} {spots inner : Spot → Prop} {a b c : Node} {form : Form}
  {parts parts' nodes others more : List Node}

theorem Node.StartsLike.refl (node : Node) : node.StartsLike place spots node :=
  ⟨rfl, rfl, rfl, fun _ _ h => h⟩

theorem Node.StartsLike.trans (h : a.StartsLike place spots b) (h' : b.StartsLike place spots c) :
    a.StartsLike place spots c :=
  ⟨h'.zero.trans h.zero, h'.start.trans h.start, h'.startAt.trans h.startAt,
    fun spot hspot hsettled => h'.settled spot hspot (h.settled spot hspot hsettled)⟩

/-- As good at all spots is as good at some. -/
theorem Node.StartsLike.at_spots (h : a.StartsLike place (fun _ => True) b) :
    a.StartsLike place spots b :=
  ⟨h.zero, h.start, h.startAt, fun spot _ => h.settled spot trivial⟩

theorem forall₂_startsLike_refl (nodes : List Node) :
    List.Forall₂ (Node.StartsLike place spots) nodes nodes :=
  List.forall₂_same.mpr fun node _ => .refl node

theorem forall₂_startsLike_trans (h : List.Forall₂ (Node.StartsLike place spots) nodes others)
    (h' : List.Forall₂ (Node.StartsLike place spots) others more) :
    List.Forall₂ (Node.StartsLike place spots) nodes more := by
  induction h generalizing more with
  | nil => exact h'
  | cons hfirst _ ih =>
      cases h' with
      | cons hfirst' hrest' => exact .cons (hfirst.trans hfirst') (ih hrest')

theorem forall₂_startsLike_map {f : Node → Node}
    (h : ∀ node ∈ nodes, node.StartsLike place spots (f node)) :
    List.Forall₂ (Node.StartsLike place spots) nodes (nodes.map f) :=
  List.forall₂_map_right_iff.mpr (List.forall₂_same.mpr h)

/-- Trees that are as good as settled ones are settled. -/
theorem settled_of_forall₂ (h : List.Forall₂ (Node.StartsLike place spots) nodes others)
    {spot : Spot} (hspot : spots spot) (hsettled : ∀ node ∈ nodes, node.SettledAt place spot) :
    ∀ node ∈ others, node.SettledAt place spot := by
  induction h with
  | nil => exact fun _ hmem => absurd hmem List.not_mem_nil
  | cons hfirst _ ih =>
      rw [List.forall_mem_cons] at hsettled ⊢
      exact ⟨hfirst.settled spot hspot hsettled.1, ih hsettled.2⟩

theorem Form.standings_congr
    (h : List.Forall₂ (fun a b => b.startAt? place = a.startAt? place) parts parts')
    (spot : Spot) : form.standings place spot parts' = form.standings place spot parts := by
  have hsame : parts'.filterMap (Node.startAt? place) = parts.filterMap (Node.startAt? place) := by
    induction h with
    | nil => rfl
    | cons hfirst _ ih => rw [List.filterMap_cons, List.filterMap_cons, hfirst, ih]
  unfold Form.standings
  rw [hsame]

/-- The same node around parts that are as good. -/
theorem Node.StartsLike.of_parts (hspots : ∀ spot, spots spot → inner (spot.enter form span))
    (h : List.Forall₂ (Node.StartsLike place inner) parts parts') :
    (Node.mk form span parts).StartsLike place spots (.mk form span parts') where
  zero := rfl
  start := by
    have hzeros : (Node.mk form span parts').parts.map Node.isZero =
        (Node.mk form span parts).parts.map Node.isZero := by
      show parts'.map Node.isZero = parts.map Node.isZero
      induction h with
      | nil => rfl
      | cons hfirst _ ih => rw [List.map_cons, List.map_cons, hfirst.zero, ih]
    unfold Node.start
    rw [hzeros]
    rfl
  startAt := by
    cases form with
    | declarator definite =>
        cases h with
        | nil => rfl
        | cons hpattern hrest =>
            cases hrest with
            | nil => rfl
            | cons hinit hnone =>
                cases hnone with
                | nil => simp only [Node.startAt?, hinit.start]
                | cons => rfl
    | _ => rfl
  settled spot hspot hsettled := by
    rw [Node.settled_mk] at hsettled ⊢
    refine ⟨?_, settled_of_forall₂ h (hspots spot hspot) hsettled.2⟩
    rw [Form.standings_congr (h.imp fun _ _ hs => hs.startAt)]
    exact hsettled.1

/-- A statement or an expression that tells nothing itself, in the place of another. -/
theorem Node.StartsLike.of_plain {span' : Span} {form' : Form} (hform : form.isTelling = false)
    (hform' : form'.isTelling = false)
    (h : ∀ spot, spots spot → (Node.mk form span parts).SettledAt place spot →
      (Node.mk form' span' parts').SettledAt place spot) :
    (Node.mk form span parts).StartsLike place spots (.mk form' span' parts') := by
  have hzero : ∀ {form : Form} {span : Span} {parts : List Node}, form.isTelling = false →
      (Node.mk form span parts).isZero = false ∧ (Node.mk form span parts).start = .value ∧
        (Node.mk form span parts).startAt? place = none := by
    intro form span parts hform
    cases form with
    | absent | unary | number | declarator => cases hform
    | _ => exact ⟨rfl, by simp [Node.start, Node.isAbsent, Node.form], rfl⟩
  obtain ⟨hz, hs, hd⟩ := @hzero form span parts hform
  obtain ⟨hz', hs', hd'⟩ := @hzero form' span' parts' hform'
  exact ⟨hz'.trans hz.symm, hs'.trans hs.symm, hd'.trans hd.symm, h⟩

/-- The same node with one part replaced. -/
theorem Node.StartsLike.replacePart {before after : List Node}
    (h : a.StartsLike place (fun _ => True) b) :
    (Node.mk form span (before ++ a :: after)).StartsLike place (fun _ => True)
      (.mk form span (before ++ b :: after)) :=
  .of_parts (fun _ _ => trivial)
    (List.rel_append (forall₂_startsLike_refl before) (.cons h (forall₂_startsLike_refl after)))

end

/-! ### Rewriting that keeps declarators -/

section

variable {place : Span} {node : Node}

theorem Node.StartsLike.substitute (place : Span) (old new : String) (node : Node) :
    node.StartsLike place (fun _ => True) (node.substitute old new) := by
  induction node using Node.inductionOn with
  | step form span parts ih =>
      have hparts : List.Forall₂ (Node.StartsLike place fun _ => True) parts
          (substituteIn old new parts) :=
        substituteIn_eq_map old new parts ▸ forall₂_startsLike_map ih
      have hsame : (Node.mk form span parts).StartsLike place (fun _ => True)
          (.mk form span (substituteIn old new parts)) := .of_parts (fun _ _ => trivial) hparts
      unfold Node.substitute
      split
      · exact .refl _
      split
      · split
        · refine .of_plain rfl rfl fun spot _ _ => ?_
          simp [Node.use, Node.settled_mk, Form.standings]
        · exact hsame
      · refine .of_plain rfl rfl fun spot _ hsettled => ?_
        rw [Node.settled_parts rfl] at hsettled ⊢
        exact settled_of_forall₂ hparts trivial hsettled
      · next span name optional keySpan ascription value _ =>
        split
        · refine .of_plain rfl rfl fun spot _ hsettled => ?_
          simp only [Node.settled_mk, Form.standings, Spot.enter, Form.isLoop, Form.isClosure,
            Bool.false_eq_true, reduceCtorEq, false_and, if_false, Spot.inner_inner,
            List.forall_mem_cons] at hsettled
          obtain ⟨-, ⟨-, hascription⟩, hsettled, -⟩ := hsettled
          have hvalue := (ih value (by simp)).settled _ trivial hsettled
          cases value.isAbsent with
          | true => simpa [Node.settled_mk, Form.standings, Spot.enter, Form.isLoop,
              Form.isClosure] using hascription
          | false =>
              simpa [Node.settled_mk, Form.standings, Spot.enter, Form.isLoop, Form.isClosure] using
                ⟨hascription, hvalue⟩
        · next hname =>
          simp only [substituteIn, Node.substitute_binding _ _ _ hname] at hparts ⊢
          exact .of_parts (fun _ _ => trivial) hparts
      · exact hsame

theorem Node.StartsLike.rename (place : Span) (old new : String) (node : Node) :
    node.StartsLike place (fun _ => True) (node.rename old new) := by
  unfold Node.rename
  split
  · exact .refl node
  · exact .substitute place old new node

theorem Node.StartsLike.renameAll (place : Span) (renamings : List (String × String))
    (node : Node) :
    node.StartsLike place (fun _ => True) (renameAll renamings node) := by
  induction renamings generalizing node with
  | nil => exact .refl node
  | cons first renamings ih =>
    exact (Node.StartsLike.rename place first.1 first.2 node).trans (ih _)

theorem forall₂_startsLike_rename (place : Span) (old new : String) (nodes : List Node) :
    List.Forall₂ (Node.StartsLike place fun _ => True) nodes (nodes.map (·.rename old new)) :=
  forall₂_startsLike_map fun node _ => .rename place old new node

theorem Node.StartsLike.useAliases (place : Span) (aliases : Aliases) (node : Node) :
    node.StartsLike place (fun _ => True) (node.useAliases aliases) := by
  induction node using Node.inductionOn with
  | step form span parts ih =>
      unfold Node.useAliases
      split
      · exact .refl _
      split
      · split
        · exact .of_plain rfl rfl fun spot _ _ => Node.settled_leaf rfl
        · exact .refl _
      · split
        · refine .of_plain rfl rfl fun spot _ hsettled => ?_
          rw [Node.settled_parts rfl] at hsettled ⊢
          exact hsettled
        · exact .refl _
      · split
        · refine .of_plain rfl rfl fun spot _ _ => ?_
          simp [Node.use, Node.settled_mk, Form.standings]
        · exact .refl _
      · rw [useAliasesIn_eq_map]
        exact .of_parts (fun _ _ => trivial) (forall₂_startsLike_map ih)

theorem Completion.settled_toReturn {completion : Completion} {spot : Spot}
    (h : ∀ value, completion = .result (some value) → value.SettledAt place spot.inner)
    (options : Options) (span : Span) :
    (completion.toReturn options span).SettledAt place spot := by
  cases completion with
  | normal | leave =>
      simp [Completion.toReturn, Node.returnStmt, Node.stringLit, Node.absent,
        Node.settled_mk, Form.standings]
  | result value? =>
      cases value? with
      | none =>
          simp [Completion.toReturn, Node.returnStmt, Node.objectOf, Node.keyValue, Node.undefined,
            Node.settled_mk, Form.standings]
      | some value =>
          simpa [Completion.toReturn, Node.returnStmt, Node.objectOf,
            Node.keyValue, Node.settled_mk, Form.standings, Spot.enter, Form.isLoop,
            Form.isClosure] using h value rfl

theorem Node.StartsLike.redirect {redirection : Redirection}
    (hback : ∀ stmt ∈ redirection.writeBack, ∀ spot, stmt.SettledAt place spot) (ctx : JumpContext)
    (node : Node) : node.StartsLike place (fun _ => True) (node.redirect redirection ctx) := by
  induction node using Node.inductionOn generalizing ctx with
  | step form span parts ih =>
      have hreturn : ∀ completion : Completion,
          (∀ value, completion ≠ .result (some value)) → ∀ spot,
          (completion.toReturn redirection.options span).SettledAt place spot :=
        fun completion h spot => Completion.settled_toReturn
          (fun value heq => absurd heq (h value)) _ _
      unfold Node.redirect
      split
      · exact .refl _
      split
      · split
        · exact .of_plain rfl rfl fun spot _ _ => hreturn .leave nofun spot
        · exact .refl _
      · split
        · unfold Redirection.continueStmt
          simp only
          split
          · exact .of_plain rfl rfl fun spot _ _ => hreturn .normal nofun spot
          · refine .of_plain rfl rfl fun spot _ _ => (Node.settled_parts rfl).mpr ?_
            rw [List.forall_mem_append]
            exact ⟨fun stmt hmem => hback stmt hmem _, by simpa using hreturn .normal nofun _⟩
        · exact .refl _
      · have hresult : ∀ spot, (Node.mk .returnStmt span parts).SettledAt place spot →
            ((Completion.result (parts.find? (!·.isAbsent))).toReturn redirection.options
              span).SettledAt place spot := by
          intro spot hsettled
          rw [Node.settled_parts rfl, Spot.enter_of_plain rfl rfl (by simp)] at hsettled
          refine Completion.settled_toReturn (fun value hvalue => ?_) _ _
          exact hsettled value (List.mem_of_find?_eq_some (Completion.result.inj hvalue))
        exact .of_plain rfl rfl fun spot _ => hresult spot
      · rw [redirectIn_eq_map]
        exact .of_parts (fun _ _ => trivial)
          (forall₂_startsLike_map fun part hmem => ih part hmem _)

end

/-! ### Hoisting -/

section

variable {place span : Span} {spot : Spot} {declarators : List Node}

/-- The assignment that remains of a declarator holds its initialiser. -/
theorem Node.SettledAt.initAssignment? {declarator expr : Node}
    (h : declarator.SettledAt place spot.inner)
    (hexpr : declarator.initAssignment? = some expr) : expr.SettledAt place spot := by
  unfold Node.initAssignment? at hexpr
  split at hexpr
  · split at hexpr
    · cases hexpr
    · cases hexpr
      simp only [Node.settled_mk, Form.standings, Spot.enter, Form.isLoop, Form.isClosure,
        Bool.false_eq_true, reduceCtorEq, false_and, if_false, Spot.inner_inner,
        List.forall_mem_cons] at h
      simpa [Node.assignTo, Node.absent, Node.settled_mk, Form.standings, Spot.enter, Form.isLoop,
        Form.isClosure] using h.2.2.1
  · cases hexpr

theorem settled_initAssignments? {expr : Node} (h : ∀ d ∈ declarators, d.SettledAt place spot.inner)
    (hexpr : initAssignments? span declarators = some expr) : expr.SettledAt place spot := by
  have hassignments : ∀ spot', spot'.inner = spot.inner →
      ∀ e ∈ declarators.filterMap Node.initAssignment?, e.SettledAt place spot' := by
    intro spot' hspot e hmem
    obtain ⟨d, hd, he⟩ := List.mem_filterMap.mp hmem
    exact Node.SettledAt.initAssignment? (hspot ▸ h d hd) he
  unfold initAssignments? at hexpr
  generalize declarators.filterMap Node.initAssignment? = exprs at hexpr hassignments
  unfold Node.sequence? at hexpr
  split at hexpr
  · cases hexpr
  · cases hexpr
    exact hassignments spot rfl _ (by simp)
  · cases hexpr
    rw [Node.settled_parts rfl, Spot.enter_of_plain rfl rfl (by simp)]
    exact hassignments spot.inner spot.inner_inner

theorem Node.SettledAt.hoistInit {init : Node} (h : init.SettledAt place spot) :
    init.hoistInit.SettledAt place spot := by
  rcases init.hoistInit_cases with ⟨declare, span, ds, rfl, heq⟩ | ⟨-, heq⟩
  · rw [heq]
    have hds := (Node.settled_mk.mp h).2
    rw [Spot.enter_of_plain rfl rfl (by simp)] at hds
    cases hexpr : initAssignments? span ds with
    | none => exact Node.settled_leaf rfl
    | some expr => exact settled_initAssignments? hds hexpr
  · rwa [heq]

/-- A node that is no declaration is settled in the head of a loop if it is anywhere outside
generated functions. -/
theorem Node.SettledAt.to_head {node : Node}
    (hform : ∀ kind declare, node.form ≠ .varDecl kind declare)
    (h : node.SettledAt place .elsewhere) : node.SettledAt place .head := by
  obtain ⟨form, span, parts⟩ := node
  have hstandings : ∀ spot, form.standings place spot parts = [] := by
    intro spot
    unfold Form.standings
    split
    · exact absurd rfl (hform _ _)
    · rfl
  rw [Node.settled_parts (hstandings _)] at h ⊢
  exact h

theorem Node.SettledAt.hoistLeft {left : Node} (hwf : left.isWellFormed = true)
    (h : left.SettledAt place .head) : left.hoistLeft.SettledAt place .head := by
  unfold Node.hoistLeft
  split
  · next declare span definite dSpan pattern init =>
    have hstill := (Node.isWellFormed_pattern hwf).2
    simp only [Node.settled_mk, Form.standings, Spot.enter, Form.isLoop, Form.isClosure,
      Bool.false_eq_true, reduceCtorEq, false_and, if_false, List.forall_mem_cons] at h
    refine Node.SettledAt.to_head (fun kind declare heq => ?_) h.2.1.2.1
    unfold Node.allAre at hstill
    rw [heq] at hstill
    cases hstill
  · exact h

theorem Node.StartsLike.hoistVar (declare : Bool) :
    (Node.varDecl .var declare span declarators).StartsLike place (fun _ => True)
      (hoistVar span declarators) := by
  unfold LoopLowering.hoistVar
  split
  · next expr hexpr =>
    refine .of_plain rfl rfl fun spot _ hsettled => ?_
    have hds := (Node.settled_mk.mp hsettled).2
    rw [Spot.enter_of_plain rfl rfl (by simp), ← Spot.inner_inner] at hds
    rw [Node.settled_parts rfl, Spot.enter_of_plain rfl rfl (by simp)]
    simpa using settled_initAssignments? hds hexpr
  · exact .of_plain rfl rfl fun spot _ _ => Node.settled_leaf rfl

/-- A loop over keys or values of whose head the pattern is kept. -/
theorem Node.StartsLike.hoistOver {form : Form} (htelling : form.isTelling = false)
    (hstandings : ∀ spot parts, form.standings place spot parts = []) (hloop : form.isLoop = true)
    {left right body : Node} (hwf : left.isWellFormed = true)
    (hbody : body.StartsLike place (fun _ => True) body.hoist) :
    (Node.mk form span [left, right, body]).StartsLike place (fun _ => True)
      (.mk form span [left.hoistLeft, right, body.hoist]) := by
  refine .of_plain htelling htelling fun spot _ hsettled => ?_
  rw [Node.settled_parts (hstandings _ _), Spot.enter_of_isLoop hloop] at hsettled ⊢
  simp only [List.forall_mem_cons] at hsettled ⊢
  exact ⟨hsettled.1.hoistLeft hwf, hsettled.2.1, hbody.settled _ trivial hsettled.2.2.1,
    hsettled.2.2.2⟩

theorem Node.StartsLike.hoist {node : Node} (hwf : node.isWellFormed = true) :
    node.StartsLike place (fun _ => True) node.hoist := by
  induction node using Node.inductionOn with
  | step form span parts ih =>
      have hwfParts : ∀ part ∈ parts, part.isWellFormed = true :=
        fun part hmem => Node.isWellFormed_part hwf hmem
      have hparts : ∀ part ∈ parts, part.StartsLike place (fun _ => True) part.hoist :=
        fun part hmem => ih part hmem (hwfParts part hmem)
      have hall := forall₂_startsLike_map hparts
      unfold Node.hoist
      split
      · exact .refl _
      split
      · exact .hoistVar _
      · exact .refl _
      · refine .of_plain rfl rfl fun spot _ hsettled => ?_
        rw [Node.settled_parts rfl, Spot.enter_of_isLoop rfl] at hsettled ⊢
        simp only [List.forall_mem_cons] at hsettled hparts ⊢
        exact ⟨hsettled.1.hoistInit, hsettled.2.1, hsettled.2.2.1,
          hparts.2.2.2.1.settled _ trivial hsettled.2.2.2.1, hsettled.2.2.2.2⟩
      · exact .hoistOver rfl (fun _ _ => rfl) rfl (hwfParts _ (by simp)) (hparts _ (by simp))
      · exact .hoistOver rfl (fun _ _ => rfl) rfl (hwfParts _ (by simp)) (hparts _ (by simp))
      · rw [hoistIn_eq_map]
        split
        · next hholds =>
          have hlist : form.isStmtList = true := by
            cases form with
            | block | caseBody => rfl
            | _ => cases hholds
          obtain ⟨htelling, hstandings⟩ := Form.standings_of_isStmtList hlist
          refine .of_plain htelling htelling fun spot _ hsettled => ?_
          rw [Node.settled_parts (hstandings _ _)] at hsettled ⊢
          exact fun part hmem => settled_of_forall₂ hall trivial hsettled part
            (List.mem_of_mem_filter hmem)
        · exact .of_parts (fun _ _ => trivial) hall

end

/-! ### Flattening -/

/-- What is declared at the spot is new in each call, or is told to be reached again. -/
def Spot.IsCalledUnless (again : Bool) (spot : Spot) : Prop := again = true ∨ spot = .called

theorem Spot.IsCalledUnless.inner {again : Bool} {spot : Spot} (h : spot.IsCalledUnless again) :
    spot.inner.IsCalledUnless again :=
  h.imp id fun hcalled => if_pos hcalled

section

variable {place : Span}

/-- What a variable starts out with when its declarator is reset. -/
def Start.reset : Start → Start
  | .nothing => .undefined
  | start => start

theorem Node.startAt?_resetInit (declarator : Node) :
    declarator.resetInit.startAt? place = (declarator.startAt? place).map Start.reset := by
  unfold Node.resetInit
  split
  · next definite span pattern init =>
    have hstart : (if init.isAbsent then Node.undefined span else init).start =
        init.start.reset := by
      cases hinit : init.isAbsent with
      | true =>
          rw [if_pos rfl, show init.start = .nothing by rw [Node.start, if_pos hinit]]
          rfl
      | false =>
          rw [if_neg Bool.false_ne_true]
          unfold Node.start
          rw [hinit, if_neg Bool.false_ne_true]
          split <;> rfl
    simp only [Node.startAt?, hstart]
    split <;> rfl
  · next hform =>
    have hnone : declarator.startAt? place = none := by
      unfold Node.startAt?
      split
      · exact absurd rfl (hform _ _ _ _)
      · rfl
    rw [hnone]
    rfl

theorem Node.SettledAt.resetInit {declarator : Node} {spot : Spot}
    (h : declarator.SettledAt place spot) :
    declarator.resetInit.SettledAt place spot := by
  unfold Node.resetInit
  split
  · next definite span pattern init =>
    rw [Node.settled_parts rfl] at h ⊢
    simp only [List.forall_mem_cons] at h ⊢
    refine ⟨h.1, ?_, h.2.2⟩
    split
    · simp [Node.undefined, Node.settled_mk, Form.standings]
    · exact h.2.1
  · exact h

/-- A `let` that is turned into a `var` is reset, or need not be. -/
theorem Node.StartsLike.flattenDecl (again : Bool) (stmt : Node) :
    stmt.StartsLike place (Spot.IsCalledUnless again) (stmt.flattenDecl again) := by
  unfold Node.flattenDecl
  split
  · next constant declare span ds =>
    refine .of_plain rfl rfl fun spot hspot hsettled => ?_
    rw [Node.settled_mk] at hsettled ⊢
    obtain ⟨hstandings, hds⟩ := hsettled
    have hbare : ∀ start ∈ ds.filterMap (Node.startAt? place), constant = false ∧
        start = .nothing := by
      intro start hmem
      rcases hstandings _ (List.mem_map_of_mem hmem) with ⟨hkind, -, hstart⟩ | ⟨hkind, -⟩
      · exact ⟨VarKind.lexical.inj hkind, hstart⟩
      · cases hkind
    by_cases hreset : (again && !constant) = true
    · rw [if_pos hreset]
      refine ⟨List.forall_mem_map.mpr fun start hmem => Or.inr ⟨rfl, Or.inl ?_⟩,
        List.forall_mem_map.mpr fun d hmem => (hds d hmem).resetInit⟩
      rw [List.filterMap_map] at hmem
      obtain ⟨d, hd, hstart⟩ := List.mem_filterMap.mp hmem
      rw [Function.comp_apply, Node.startAt?_resetInit, Option.map_eq_some_iff] at hstart
      obtain ⟨start, hstart, rfl⟩ := hstart
      rw [(hbare start (List.mem_filterMap.mpr ⟨d, hd, hstart⟩)).2]
      rfl
    · rw [if_neg hreset]
      refine ⟨List.forall_mem_map.mpr fun start hmem => Or.inr ⟨rfl, Or.inr ?_⟩, hds⟩
      exact hspot.resolve_left fun hagain => hreset (by simp [hagain, (hbare start hmem).1])
  · exact .refl _

theorem forall₂_startsLike_renameClashing (clashes : String → Bool) (declared : List String)
    (stmts : List Node) (names : Registry) :
    List.Forall₂ (Node.StartsLike place fun _ => True) stmts
      ((renameClashing clashes declared stmts).run names).1 := by
  induction declared generalizing stmts names with
  | nil => exact forall₂_startsLike_refl stmts
  | cons name declared ih =>
      unfold renameClashing
      split
      · exact forall₂_startsLike_trans
          (forall₂_startsLike_rename place name (names.rename name).1 stmts)
          (ih _ (names.rename name).2)
      · exact ih stmts names

theorem Node.StartsLike.changeBlocks {change : Bool → List Node → Naming (List Node)}
    (hchange : ∀ again stmts names, (∀ stmt ∈ stmts, stmt.isWellFormed = true) →
      List.Forall₂ (Node.StartsLike place (Spot.IsCalledUnless again)) stmts
        ((change again stmts).run names).1)
    {node : Node} (hwf : node.isWellFormed = true) (again : Bool) (names : Registry) :
    node.StartsLike place (Spot.IsCalledUnless again)
    ((node.changeBlocks change again).run names).1 := by
  induction node using Node.inductionOn generalizing again names with
  | step form span parts ih =>
      cases hquiet : (Node.mk form span parts).isQuiet with
      | true =>
          rw [Node.changeBlocks_of_isQuiet hwf hquiet]
          exact .refl _
      | false =>
          have hwfParts : ∀ part ∈ parts, part.isWellFormed = true :=
            fun part hmem => Node.isWellFormed_part hwf hmem
          unfold Node.changeBlocks
          split
          · exact .refl _
          · next hstop =>
            simp only [Bool.or_eq_true, not_or, Bool.not_eq_true] at hstop
            have hform : form ≠ .functionExpr none := by
              rintro rfl
              cases hquiet
            split
            · refine .of_parts (fun spot hspot => ?_) (hchange again parts names hwfParts)
              rw [Spot.enter_of_plain rfl rfl (by simp)]
              exact hspot.inner
            · refine .of_parts (fun spot hspot => ?_)
                (forall₂_changeBlocksIn (fun part hmem names =>
                  ih part hmem (hwfParts part hmem) _ names) names)
              cases hloop : form.isLoop with
              | true => exact Or.inl (Bool.or_true again)
              | false =>
                  rw [Spot.enter_of_plain hloop hstop.1 hform, Bool.or_false]
                  exact hspot.inner

theorem forall₂_startsLike_flattenTo (clashes : String → Bool) (depth : Nat) (again : Bool)
    (stmts : List Node) (names : Registry) (hwf : ∀ stmt ∈ stmts, stmt.isWellFormed = true) :
    List.Forall₂ (Node.StartsLike place (Spot.IsCalledUnless again)) stmts
      ((flattenTo clashes depth again stmts).run names).1 := by
  induction depth generalizing again stmts names with
  | zero => exact forall₂_startsLike_refl stmts
  | succ depth ih =>
      have hrename := forall₂_fits_renameClashing clashes
          (stmts.flatMap Node.blockScopedNames) hwf names
      have hrenamed := @forall₂_startsLike_renameClashing place clashes
        (stmts.flatMap Node.blockScopedNames) stmts names
      have hwfRenamed := Node.Fits.wellFormed_of_forall₂ hrename
      rw [flattenTo, Naming.run_bind]
      generalize (renameClashing clashes (stmts.flatMap Node.blockScopedNames) stmts).run names =
        drawn at hrenamed hwfRenamed ⊢
      obtain ⟨stmts', names'⟩ := drawn
      have hdecl : List.Forall₂ (Node.StartsLike place (Spot.IsCalledUnless again)) stmts'
          (stmts'.map (·.flattenDecl again)) := forall₂_startsLike_map fun stmt _ =>
            .flattenDecl again stmt
      have hwfDecl : ∀ stmt ∈ stmts'.map (·.flattenDecl again), stmt.isWellFormed = true :=
        List.forall_mem_map.mpr fun stmt hmem =>
          (Node.Fits.flattenDecl again (hwfRenamed stmt hmem)).wellFormed
      have hblocks := forall₂_changeBlocksIn
        (fun stmt hmem names => Node.StartsLike.changeBlocks ih (hwfDecl stmt hmem) again names)
        names'
      exact forall₂_startsLike_trans (hrenamed.imp fun _ _ hs => hs.at_spots)
        (forall₂_startsLike_trans hdecl hblocks)

theorem forall₂_startsLike_flattenStmts (clashes : String → Bool) (again : Bool) {stmts : List Node}
    (hwf : ∀ stmt ∈ stmts, stmt.isWellFormed = true) (names : Registry) :
    List.Forall₂ (Node.StartsLike place (Spot.IsCalledUnless again)) stmts
      ((flattenStmts clashes again stmts).run names).1 :=
  forall₂_startsLike_flattenTo clashes _ again stmts names hwf

/-- A body that stays in place is reached again in each iteration. -/
theorem Node.StartsLike.flatten (clashes : String → Bool) {body : Node}
    (hwf : body.isWellFormed = true) (names : Registry) : body.StartsLike place (fun _ => True)
    ((body.flatten clashes).run names).1 := by
  have h := Node.StartsLike.changeBlocks
    (@forall₂_startsLike_flattenTo place clashes body.blockDepth) hwf true
    names
  exact ⟨h.zero, h.start, h.startAt, fun spot _ => h.settled spot (Or.inl rfl)⟩

end

/-! ### One loop -/

/-- No declarator at `place` is in the head of the loop, and in its parts they are settled. -/
structure Loop.IsSettled (place : Span) (loop : Loop) : Prop where
  declared : loop.decl.declarators.filterMap (Node.startAt? place) = []
  declarators : ∀ d ∈ loop.decl.declarators, d.SettledAt place .elsewhere
  exprs : ∀ expr ∈ loop.head.exprs, expr.SettledAt place .head
  body : loop.body.SettledAt place .head

section

variable {place span : Span} {spot : Spot} {loop : Loop}

theorem Loop.isSettled_of_ofNode? {stmt : Node} (hloop : Loop.ofNode? stmt = some loop)
    (h : stmt.SettledAt place spot) : loop.IsSettled place := by
  fun_induction Loop.ofNode? stmt generalizing loop spot with
  | case1 label span body ih =>
      obtain ⟨inner, hinner, rfl⟩ := Option.map_eq_some_iff.mp hloop
      have hinner := ih hinner ((Node.settled_parts rfl).mp h body (List.mem_singleton_self _))
      exact ⟨hinner.declared, hinner.declarators, hinner.exprs, hinner.body⟩
  | case2 | case3 | case4 =>
      cases hloop
      rw [Node.settled_parts rfl, Spot.enter_of_isLoop rfl] at h
      simp only [List.forall_mem_cons] at h
      obtain ⟨hstandings, hds⟩ := Node.settled_mk.mp h.1
      refine ⟨List.eq_nil_iff_forall_not_mem.mpr fun start hmem => ?_, hds, ?_, ?_⟩
      · rcases hstandings _ (List.mem_map_of_mem hmem) with ⟨-, hspot, -⟩ | ⟨hkind, -⟩
        · exact hspot rfl
        · cases hkind
      · simp [LoopHead.exprs, h]
      · simp [h]
  | case5 => cases hloop

theorem Loop.IsSettled.toNode (h : loop.IsSettled place) (spot : Spot) :
    loop.toNode.SettledAt place spot := by
  have hunlabeled : ∀ spot, loop.toUnlabeled.SettledAt place spot := by
    intro spot
    have hloop : loop.head.form.isLoop = true := by cases loop.head <;> rfl
    have hstandings : loop.head.form.standings place spot
        (loop.decl.toNode :: (loop.head.exprs ++ [loop.body])) = [] := by
      cases loop.head <;> rfl
    have hdecl : loop.decl.toNode.SettledAt place .head := by
      refine Node.settled_mk.mpr ⟨?_, h.declarators⟩
      rw [Form.standings, h.declared]
      simp
    rw [Loop.toUnlabeled_eq, Node.settled_parts hstandings, Spot.enter_of_isLoop hloop]
    simp only [List.forall_mem_cons, List.forall_mem_append]
    exact ⟨hdecl, h.exprs, h.body, by simp⟩
  unfold Loop.toNode
  generalize loop.labels = labels
  induction labels generalizing spot with
  | nil => exact hunlabeled spot
  | cons label labels ih =>
      refine (Node.settled_parts rfl).mpr ?_
      simpa using ih _

theorem Loop.IsSettled.renameHead (h : loop.IsSettled place) (old new : String) :
    (loop.renameHead old new).IsSettled place := by
  refine ⟨?_, ?_, ?_, h.body⟩
  · have hsame : (Node.startAt? place) ∘ (·.rename old new) = Node.startAt? place :=
      funext fun d => (Node.StartsLike.rename place old new d).startAt
    rw [Loop.renameHead, List.filterMap_map, hsame, h.declared]
  · exact List.forall_mem_map.mpr fun d hmem =>
      (Node.StartsLike.rename place old new d).settled _ trivial (h.declarators d hmem)
  · rw [Loop.renameHead, LoopHead.exprs_map]
    exact List.forall_mem_map.mpr fun expr hmem =>
      (Node.StartsLike.rename place old new expr).settled _ trivial (h.exprs expr hmem)

theorem Loop.IsSettled.renameMentioned (h : loop.IsSettled place) (mentioned : String → Bool)
    (vars : List String) (names : Registry) :
    ((loop.renameMentioned mentioned vars).run names).1.2.IsSettled place := by
  induction vars generalizing loop names with
  | nil => exact h
  | cons name vars ih =>
      unfold Loop.renameMentioned
      split
      · exact ih (h.renameHead name (names.rename name).1) (names.rename name).2
      · exact ih h names

/-- A loop with another body, its head declared by `var`. -/
theorem Loop.IsSettled.withBody (h : loop.IsSettled place) {body : Node}
    (hbody : body.SettledAt place .head) :
    Loop.IsSettled place { loop.withVarHead with body } :=
  ⟨h.declared, h.declarators, h.exprs, hbody⟩

/-- What is settled outside generated functions is settled in the function of a loop body. -/
theorem Node.SettledAt.called {node : Node} (hspot : spot = .head ∨ spot = .elsewhere)
    (h : node.SettledAt place spot) : node.SettledAt place .called := by
  induction node using Node.inductionOn generalizing spot with
  | step form span parts ih =>
      rw [Node.settled_mk] at h ⊢
      obtain ⟨hstandings, hparts⟩ := h
      refine ⟨?_, fun part hmem => ?_⟩
      · cases form with
        | varDecl kind declare =>
            refine List.forall_mem_map.mpr fun start hmem => ?_
            rcases hstandings _ (List.mem_map_of_mem hmem) with ⟨hkind, -, hstart⟩ | ⟨hkind, -⟩
            · exact Or.inl ⟨hkind, by simp, hstart⟩
            · exact Or.inr ⟨hkind, Or.inr rfl⟩
        | _ => exact fun _ hmem => absurd hmem List.not_mem_nil
      · have henter : Spot.called.enter form span = spot.enter form span ∨
            spot.enter form span = .elsewhere ∧ Spot.called.enter form span = .called := by
          unfold Spot.enter
          rcases hspot with rfl | rfl
          all_goals
            split
            · exact Or.inl rfl
            · split
              · exact Or.inl rfl
              · split
                · exact Or.inl rfl
                · exact Or.inr ⟨rfl, rfl⟩
        rcases henter with heq | ⟨heq, hcalled⟩
        · exact heq ▸ hparts part hmem
        · rw [hcalled]
          exact ih part hmem (Or.inr rfl) (heq ▸ hparts part hmem)

theorem Node.settled_bodyStmts {body : Node} (h : body.SettledAt place .head) :
    ∀ stmt ∈ body.bodyStmts, stmt.SettledAt place .called := by
  unfold Node.bodyStmts
  split
  · intro stmt hmem
    have hstmts := (Node.settled_parts rfl).mp h
    rw [Spot.enter_of_plain rfl rfl (by simp)] at hstmts
    exact (hstmts stmt hmem).called (Or.inr rfl)
  · simpa using h.called (Or.inl rfl)

/-- The parameters of a function are renamed in its statements, and its write-backs declare
nothing. -/
theorem settled_chooseParams {writtenBack : String → Bool} {vars : List (String × String)}
    {stmts : List Node} {function : LoopFunction} {names names' : Registry}
    (hrun : (chooseParams writtenBack vars stmts).run names = (function, names'))
    (h : ∀ stmt ∈ stmts, stmt.SettledAt place spot) :
    (∀ stmt ∈ function.stmts, stmt.SettledAt place spot) ∧
      ∀ stmt ∈ function.writeBack, ∀ spot, stmt.SettledAt place spot := by
  obtain rfl : ((chooseParams writtenBack vars stmts).run names).1 = function :=
    congrArg Prod.fst hrun
  clear hrun
  induction vars generalizing stmts names with
  | nil => exact ⟨h, fun _ hmem => absurd hmem List.not_mem_nil⟩
  | cons var vars ih =>
      obtain ⟨name, outer⟩ := var
      unfold chooseParams
      split
      · have hrenamed := settled_of_forall₂
          (forall₂_startsLike_rename place name (names.fresh name).1 stmts) trivial h
        obtain ⟨hstmts, hback⟩ := ih hrenamed
        refine ⟨hstmts, List.forall_mem_cons.mpr ⟨fun spot => ?_, hback⟩⟩
        simp [Node.exprStmt, Node.assignTo, Node.use, Node.absent, Node.settled_mk, Form.standings]
      · exact ih h

theorem Node.settled_varStmt (hplace : place ≠ .generated) {declarators : List (String × Node)}
    (h : ∀ pair ∈ declarators, pair.2.SettledAt place spot.inner) :
    (Node.varStmt .generated declarators).SettledAt place spot := by
  unfold Node.varStmt
  rw [Node.settled_mk]
  refine ⟨?_, List.forall_mem_map.mpr fun pair hmem => ?_⟩
  · intro standing hmem
    obtain ⟨start, hstart, -⟩ := List.mem_map.mp hmem
    obtain ⟨d, hd, hstart⟩ := List.mem_filterMap.mp hstart
    obtain ⟨pair, -, rfl⟩ := List.mem_map.mp hd
    simp [Node.startAt?, hplace.symm] at hstart
  · simpa [Node.absent, Node.settled_mk, Form.standings, Spot.enter, Form.isLoop,
      Form.isClosure] using h pair hmem

theorem Node.settled_functionOf {params : List String} {stmts : List Node}
    (h : ∀ stmt ∈ stmts, stmt.SettledAt place .called) (span : Span) :
    (Node.functionOf params stmts span).SettledAt place spot := by
  simpa [Node.functionOf, Node.list, Node.absent, Node.settled_mk, Form.standings,
    Spot.enter, Form.isLoop, Form.isClosure, Spot.inner] using h

theorem JumpSites.settled_dispatch (hplace : place ≠ .generated)
    (sites : JumpSites) (callee : String) (args : List String) (resultName : String)
    (options : Options) :
    (sites.dispatch (.callOf callee args .generated) resultName options).SettledAt place spot := by
  have hcall : ∀ spot, (Node.callOf callee args .generated).SettledAt place spot := by
    simp [Node.callOf, Node.use, Node.list, Node.settled_mk, Form.standings]
  unfold JumpSites.dispatch
  split
  · exact (Node.settled_parts rfl).mpr (by simpa using hcall _)
  · refine (Node.settled_parts rfl).mpr fun stmt hmem => ?_
    simp only [List.mem_append, List.mem_singleton] at hmem
    rcases hmem with (rfl | hmem) | hmem
    · exact Node.settled_varStmt hplace (by simpa using hcall _)
    · split at hmem
      · obtain rfl := List.mem_singleton.mp hmem
        simp [Node.ifStmt, Node.strictEq, Node.stringLit, Node.breakStmt, Node.use, Node.absent,
          Node.settled_mk, Form.standings]
      · exact absurd hmem List.not_mem_nil
    · split at hmem
      · obtain rfl := List.mem_singleton.mp hmem
        simp [Node.ifStmt, Node.returnStmt, Node.memberOf, Node.use, Node.absent, Node.settled_mk,
          Form.standings]
      · exact absurd hmem List.not_mem_nil

/-- The function of a loop body, and what stands around it, are settled. -/
theorem Loop.ExtractsTo.settled {loopVars outer : List String} {record : Capture.Record}
    {options : Options} {extraction : Extraction} {names names' : Registry}
    (h : loop.ExtractsTo loopVars outer record options names extraction names')
    (hplace : place ≠ .generated) (hwf : loop.WellFormed) (hloop : loop.IsSettled place) :
    ∀ stmt ∈ extraction.replacement loop outer record options, ∀ spot,
      stmt.SettledAt place spot := by
  obtain ⟨-, hflatten, hparams, -, -, -, -, -⟩ := h
  have hhoisted : ∀ stmt ∈ hoistStmts loop.body.bodyStmts, stmt.SettledAt place .called := by
    intro stmt hmem
    have hmem := List.mem_of_mem_filter hmem
    rw [hoistIn_eq_map] at hmem
    obtain ⟨original, horiginal, rfl⟩ := List.mem_map.mp hmem
    exact (Node.StartsLike.hoist (Node.isStmt_bodyStmts hwf.body original horiginal).2).settled
      _ trivial (Node.settled_bodyStmts hloop.body original horiginal)
  have hwfHoisted : ∀ stmt ∈ hoistStmts loop.body.bodyStmts, stmt.isWellFormed = true :=
    fun stmt hmem => ((hoistStmts_spec (Node.isStmt_bodyStmts hwf.body)).1 stmt hmem).2
  have hflattened := settled_of_forall₂
    (forall₂_startsLike_flattenStmts (bodyClash record loopVars) false hwfHoisted names)
    (Or.inr rfl) hhoisted
  rw [hflatten] at hflattened
  obtain ⟨hchosen, hback⟩ := settled_chooseParams hparams hflattened
  have hbody : ∀ stmt ∈ extraction.stmts loop.labelNames options ++ extraction.function.writeBack,
      stmt.SettledAt place .called := by
    rw [List.forall_mem_append]
    refine ⟨?_, fun stmt hmem => hback stmt hmem _⟩
    rw [Extraction.stmts, redirectIn_eq_map, useAliasesIn_eq_map, List.forall_mem_map,
      List.forall_mem_map]
    intro stmt hmem
    exact ((Node.StartsLike.useAliases place _ stmt).trans (.redirect hback _ _)).settled _ trivial
      (hchosen stmt hmem)
  have hleaf : ∀ {alias? : Option String} {value : Node}, (∀ spot, value.SettledAt place spot) →
      ∀ stmt ∈ aliasStmt alias? value, ∀ spot, stmt.SettledAt place spot := by
    intro alias? value hvalue stmt hmem spot
    cases alias? with
    | none => exact absurd hmem List.not_mem_nil
    | some name =>
        obtain rfl := List.mem_singleton.mp hmem
        exact Node.settled_varStmt hplace (by simpa using hvalue _)
  simp only [Extraction.replacement, List.forall_mem_append, List.forall_mem_singleton]
  refine ⟨⟨⟨⟨hleaf fun _ => Node.settled_leaf rfl, hleaf fun _ => Node.settled_leaf rfl⟩, ?_⟩,
    fun spot => ?_⟩, (hloop.withBody (JumpSites.settled_dispatch hplace _ _ _ _ _)).toNode⟩
  · intro stmt hmem spot
    unfold Extraction.hoisted at hmem
    split at hmem
    · exact absurd hmem List.not_mem_nil
    · obtain rfl := List.mem_singleton.mp hmem
      exact Node.settled_varStmt hplace (List.forall_mem_map.mpr fun _ _ => Node.settled_leaf rfl)
  · exact Node.settled_varStmt hplace
      (List.forall_mem_singleton.mpr (Node.settled_functionOf hbody loop.span))

/-- What takes the place of a settled loop is settled, wherever it stands. -/
theorem Node.SettledAt.lowerLoop {stmt : Node} (h : stmt.SettledAt place spot)
    (hplace : place ≠ .generated) (hwf : stmt.isWellFormed = true) {mentioned : String → Bool}
    {options : Options} {names names' : Registry} {replacement : List Node} {report : Report}
    (hlower : (stmt.lowerLoop mentioned options).Gives names (replacement, report) names') :
    ∀ stmt ∈ replacement, ∀ spot, stmt.SettledAt place spot := by
  unfold Node.lowerLoop at hlower
  split at hlower
  · next loop hloop =>
    have hsettled := Loop.isSettled_of_ofNode? hloop h
    have hloopWf := Loop.wellFormed_of_ofNode? hloop hwf
    obtain ⟨outer, renamed, between, hrename, hcases⟩ := Loop.gives_lower hlower
    have hrenamed := hsettled.renameMentioned mentioned loop.decl.names names
    have hrenamedWf :=
      (Loop.Renamed.renameMentioned mentioned loop.decl.names hloopWf names).wellFormed
    rw [hrename] at hrenamed hrenamedWf
    rcases hcases with ⟨-, hextract⟩ | ⟨-, hflatten⟩
    · obtain ⟨extraction, hextracts, rfl, -⟩ := Loop.extractsTo_of_gives hextract
      exact hextracts.settled hplace hrenamedWf hrenamed
    · obtain ⟨body, hbody, rfl, -⟩ := Loop.run_flattened hflatten
      have hbodySettled : body.SettledAt place .head := by
        have hall := Node.StartsLike.renameAll place (loop.decl.names.zip outer) renamed.body
        have hwfAll := (Node.Stands.renameAll (loop.decl.names.zip outer)
            hrenamedWf.body.2).wellFormed
        have hflat := @Node.StartsLike.flatten place (fun name =>
          bodyClash loop.capture loop.decl.names name || mentioned name) _ hwfAll between
        rw [hbody] at hflat
        exact (hall.trans hflat).settled _ trivial hrenamed.body
      exact List.forall_mem_singleton.mpr (hrenamed.withBody hbodySettled).toNode
  · simp at hlower

end

/-! ### The whole program -/

section

variable {place : Span} {options : Options}

/-- A tree with a settled loop replaced. -/
theorem Node.Spliced.startsLike {stmt node node' : Node} {replacement : List Node}
    (h : Node.Spliced stmt replacement node node')
    (hreplacement : ∀ spot, stmt.SettledAt place spot →
      ∀ other ∈ replacement, ∀ spot, other.SettledAt place spot) :
    node.StartsLike place (fun _ => True) node' := by
  induction h with
  | @here form span before after hclosure hcandidate =>
      unfold Form.standing
      split
      · next hlist =>
        obtain ⟨htelling, hstandings⟩ := Form.standings_of_isStmtList hlist
        refine .of_plain htelling htelling fun spot _ hsettled => ?_
        rw [Node.settled_parts (hstandings _ _)] at hsettled ⊢
        simp only [List.forall_mem_append, List.forall_mem_cons] at hsettled ⊢
        exact ⟨⟨hsettled.1, fun other hmem => hreplacement _ hsettled.2.1 other hmem _⟩,
          hsettled.2.2⟩
      · rw [List.append_assoc]
        refine .replacePart ?_
        obtain ⟨form, span, parts⟩ := stmt
        have htelling : form.isTelling = false := by
          have hcategory : form.category = .stmt := Node.category_of_isCandidate hcandidate
          cases form with
          | absent | unary | number | declarator => cases hcategory
          | _ => rfl
        refine .of_plain htelling rfl fun spot _ hsettled => (Node.settled_parts rfl).mpr ?_
        exact fun other hmem => hreplacement _ hsettled other hmem _
  | inside _ _ _ ih => exact .replacePart ih

theorem Node.AtRegion.startsLike {change : Node → Node → Prop}
    (hchange : ∀ {region region' : Node}, change region region' → region.isWellFormed = true →
      region.StartsLike place (fun _ => True) region')
    {node node' : Node} (h : node.AtRegion change node') (hwf : node.isWellFormed = true) :
    node.StartsLike place (fun _ => True) node' := by
  induction h with
  | program _ h => exact hchange h hwf
  | body _ _ h => exact .replacePart (hchange h (Node.isWellFormed_part hwf (by simp)))
  | inside _ _ ih => exact .replacePart (ih (Node.isWellFormed_part hwf (by simp)))

namespace Moment

variable {moment next start last : Moment} {report : Report} {reports : List Report}

/-- A well-formed tree in which the declarators of a place are settled. -/
structure IsSettled (place : Span) (moment : Moment) : Prop where
  wellFormed : moment.tree.isWellFormed = true
  settled : moment.tree.SettledAt place .elsewhere

/-- A step keeps the declarators of a place settled. -/
theorem Step.isSettled (h : moment.Step options report next) (hplace : place ≠ .generated)
    (hmoment : moment.IsSettled place) : next.IsSettled place := by
  refine ⟨h.isWellFormed hmoment.wellFormed, ?_⟩
  refine (Node.AtRegion.startsLike ?_ h hmoment.wellFormed).settled .elsewhere
    trivial hmoment.settled
  rintro region region' ⟨-, hlower, hspliced⟩ hregion
  exact hspliced.startsLike fun spot hstmt =>
    hstmt.lowerLoop hplace (hspliced.isWellFormed_stmt hregion) hlower

/-- Declarators that are settled at the start of a run are settled throughout. -/
theorem Run.isSettled (h : Run options start reports last) (hplace : place ≠ .generated)
    (hstart : start.IsSettled place) : last.IsSettled place :=
  h.invariant (fun hmoment hstep => hstep.isSettled hplace hmoment) hstart

end Moment

/-- A `let` without initialiser, outside loop heads, that lowering a program turns into a `var`
has the initialiser `void 0`, unless it is in the function of a loop body outside the loops of
that function. -/
theorem Node.lets_start_afresh {program lowered : Node} (hprogram : program.IsProgram)
    (hlower : program.lower options = .ok lowered) (hplace : place ≠ .generated)
    (hlet : ∀ standing ∈ program.standings place .elsewhere, standing.IsBareLet) :
    ∀ standing ∈ lowered.standings place .elsewhere, standing.kind = .var → standing.IsFresh := by
  intro standing hmem hkind
  obtain ⟨reports, last, hrun, hends⟩ := Node.lowerWith_runs hprogram options (.ofTree program)
  unfold Node.lower at hlower
  generalize (program.lowerWith options).run.run (.ofTree program) = result at hends hlower
  cases hends with
  | lowered =>
      cases hlower
      have hlast := hrun.isSettled hplace ⟨hprogram.2, fun standing hmem =>
        Or.inl (hlet standing hmem)⟩
      rcases hlast.settled standing hmem with ⟨hlexical, -⟩ | ⟨-, hfresh⟩
      · rw [hkind] at hlexical
        cases hlexical
      · exact hfresh
  | refused => cases hlower

end

/-- The statement `let name;`, its declarator at `place`. -/
def letAt (place : Span) (name : String) : Node :=
  .varDecl (.lexical false) false .generated
    [.declarator false place (.binding name false .generated .absent) .absent]

/-- The program

    while (more) for (let i of xs) { let x; }
    for (let j of xs) { let y; stored = () => j; while (y) { let z; } }
-/
def restartedLets : Node :=
  .mk (.program none) .generated
    [.mk .whileStmt .generated [.use "more" .generated,
        .forOfStmt false .generated (letAt .generated "i") (.use "xs" .generated)
          (.block .generated [letAt ⟨1, 2⟩ "x"])],
      .forOfStmt false .generated (letAt .generated "j") (.use "xs" .generated)
        (.block .generated
          [letAt ⟨3, 4⟩ "y",
            .exprStmt (.assignTo "stored" (.mk (.arrow false false) .generated
              [.list [], .use "j" .generated, .absent]) .generated),
            .mk .whileStmt .generated [.use "y" .generated, .block .generated [letAt ⟨5, 6⟩ "z"]]])]

/-- In loops `x` and `z` are reset.  The variable `y` is not: each call of the function of its
loop has its own. -/
theorem restartedLets_start_afresh : ∃ lowered : Node, restartedLets.lower {} = .ok lowered ∧
    lowered.standings ⟨1, 2⟩ .elsewhere = [⟨.var, .elsewhere, .undefined⟩] ∧
    lowered.standings ⟨3, 4⟩ .elsewhere = [⟨.var, .called, .nothing⟩] ∧
    lowered.standings ⟨5, 6⟩ .elsewhere = [⟨.var, .elsewhere, .undefined⟩] ∧
    ∀ place ∈ [Span.mk 1 2, Span.mk 3 4, Span.mk 5 6],
      ∀ standing ∈ lowered.standings place .elsewhere, standing.kind = .var → standing.IsFresh := by
  obtain ⟨lowered, hlower, hx, hy, hz⟩ : ∃ lowered : Node, restartedLets.lower {} = .ok lowered ∧
      lowered.standings ⟨1, 2⟩ .elsewhere = [⟨.var, .elsewhere, .undefined⟩] ∧
      lowered.standings ⟨3, 4⟩ .elsewhere = [⟨.var, .called, .nothing⟩] ∧
      lowered.standings ⟨5, 6⟩ .elsewhere = [⟨.var, .elsewhere, .undefined⟩] :=
        ⟨_, rfl, rfl, rfl, rfl⟩
  refine ⟨lowered, hlower, hx, hy, hz, ?_⟩
  have hlets : ∀ place ∈ [Span.mk 1 2, Span.mk 3 4, Span.mk 5 6], place ≠ .generated ∧
      ∀ standing ∈ restartedLets.standings place .elsewhere, standing.IsBareLet := by decide +kernel
  intro place hmem
  obtain ⟨hplace, hlet⟩ := hlets place hmem
  exact Node.lets_start_afresh (by decide +kernel) hlower hplace hlet

/-- The program `while (more) for (let j; ; j = more) { }`. -/
def reenteredLoop : Node :=
  .mk (.program none) .generated
    [.mk .whileStmt .generated [.use "more" .generated,
      .forStmt .generated (letAt ⟨1, 2⟩ "j") .absent
        (.assignTo "j" (.use "more" .generated) .generated) (.block .generated [])]]

/-- A `let` without initialiser in the head of a loop is not reset.  When the loop is entered
again, the variable has the value it had last. -/
theorem reenteredLoop_keeps_value : ∃ lowered : Node, reenteredLoop.lower {} = .ok lowered ∧
    reenteredLoop.standings ⟨1, 2⟩ .elsewhere = [⟨.lexical false, .head, .nothing⟩] ∧
    lowered.standings ⟨1, 2⟩ .elsewhere = [⟨.var, .head, .nothing⟩] :=
  ⟨_, rfl, rfl, rfl⟩

end LoopLowering
