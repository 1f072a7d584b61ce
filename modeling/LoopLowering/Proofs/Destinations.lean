/-
Where the jumps of a loop body go, before and after they are redirected.

A jump statement goes to one of the statements around it: a `break` without label to the innermost
loop or `switch`, a `continue` without label to the innermost loop, and with a label either of them
to the statement that has it.  A jump stays inside a list of statements if one of the statements
around it, in the list, is such a one.  What does not stay inside goes to the loop whose body the
list is, to the function around it, or, with a label the loop does not have, further out.

All of this is read off a jump and the forms around it (`JumpStmt`), without the context that the
walk keeps.  The jumps of the redirected body are those of the body, one by one and in order
(`jumpStmtsIn_redirectIn`): one that stays inside is the same statement in the same place, and one
that goes to the loop or the function has become the return that says so.
-/
import LoopLowering.Proofs.AlikeStmts
import LoopLowering.Proofs.Dispatch

namespace LoopLowering

/-! ### Jump statements and the statements around them -/

/-- A jump statement, with the forms of the nodes around it, innermost first. -/
structure JumpStmt where
  around : List Form
  stmt : Node

mutual

/-- The jump statements of a tree in source order, closures left out. -/
def Node.jumpStmts (around : List Form) : Node → List JumpStmt
  | .mk form span parts =>
    if form.isClosure then []
    else (if form.isJump then [⟨around, .mk form span parts⟩] else []) ++
      jumpStmtsIn (form :: around) parts

/-- The jump statements of a list of trees in source order, closures left out. -/
def jumpStmtsIn (around : List Form) : List Node → List JumpStmt
  | [] => []
  | node :: nodes => node.jumpStmts around ++ jumpStmtsIn around nodes

end

theorem jumpStmtsIn_eq_flatMap (around : List Form) (nodes : List Node) :
    jumpStmtsIn around nodes = nodes.flatMap (Node.jumpStmts around) := by
  induction nodes with
  | nil => rfl
  | cons node nodes ih => rw [jumpStmtsIn, ih, List.flatMap_cons]

mutual

/-- The outermost closures of a tree, in source order. -/
def Node.closures : Node → List Node
  | .mk form span parts => if form.isClosure then [.mk form span parts] else closuresIn parts

/-- The outermost closures of a list of trees, in source order. -/
def closuresIn : List Node → List Node
  | [] => []
  | node :: nodes => node.closures ++ closuresIn nodes

end

theorem closuresIn_eq_flatMap (nodes : List Node) :
    closuresIn nodes = nodes.flatMap Node.closures := by
  induction nodes with
  | nil => rfl
  | cons node nodes ih => rw [closuresIn, ih, List.flatMap_cons]

/-- Whether a jump of the first form goes to a statement of the second form around it. -/
def Form.goesTo : Form → Form → Bool
  | .breakStmt none, around => around.isLoop || around == .switchStmt
  | .continueStmt none, around => around.isLoop
  | .breakStmt (some label), .labeled name => name.text == label.text
  | .continueStmt (some label), .labeled name => name.text == label.text
  | _, _ => false

/-- What a jump of the form asks for. -/
def Form.jumpKind : Form → JumpKind
  | .breakStmt _ => .leave
  | .continueStmt _ => .next
  | _ => .result

namespace JumpStmt

/-- The jump goes to a statement around it. -/
def staysInside (jump : JumpStmt) : Bool := jump.around.any jump.stmt.form.goesTo

/-- The label of a jump that goes neither to a statement around it nor to a loop with the given
labels. -/
def strayLabel? (labels : List String) (jump : JumpStmt) : Option String :=
  if jump.staysInside then none else jump.stmt.form.jumpLabels.find? (!labels.contains ·)

/-- The jump as it is listed if it goes to the loop with the given labels or to the function
around it. -/
def site? (labels : List String) (jump : JumpStmt) : Option JumpSite :=
  if !jump.staysInside && jump.stmt.form.jumpLabels.all (labels.contains ·) then
    some ⟨jump.stmt.form.jumpKind, jump.stmt.ownSpan⟩
  else none

/-- How a round ends with the jump. -/
def completion (jump : JumpStmt) : Completion :=
  match jump.stmt.form.jumpKind with
  | .leave => .leave
  | .next => .normal
  | .result => .result (jump.stmt.parts.find? (!·.isAbsent))

/-- The jump as the walk over the body finds it. -/
def jumps (labels : List String) (jump : JumpStmt) : List Jump :=
  match jump.strayLabel? labels with
  | some label => [.stray label]
  | none => (jump.site? labels).toList.map .site

end JumpStmt

/-- Where a jump goes that does not stay inside the body of a loop with the given labels. -/
def JumpTarget.beyond (labels : List String) : Option Name → JumpTarget
  | none => .loop
  | some label => if label.text ∈ labels then .loop else .outer label.text

/-! ### The context at a place -/

namespace JumpContext

/-- The context of what has these forms around it, in the body of a loop with the given labels. -/
def within (labels : List String) (around : List Form) : JumpContext :=
  around.foldr (fun form ctx => ctx.enter form) (top labels)

variable {labels : List String} {around : List Form}

theorem within_cons (form : Form) : within labels (form :: around) =
    (within labels around).enter form :=
  rfl

theorem own_within : (within labels around).own = labels := by
  induction around with
  | nil => rfl
  | cons form around ih => rw [within_cons, own_enter, ih]

theorem inLoop_enter (ctx : JumpContext) (form : Form) :
    (ctx.enter form).inLoop = (form.isLoop || ctx.inLoop) := by
  unfold enter
  split
  · rfl
  · rfl
  · cases form.isLoop <;> rfl

theorem inSwitch_enter (ctx : JumpContext) (form : Form) :
    (ctx.enter form).inSwitch = (form == .switchStmt || ctx.inSwitch) := by
  unfold enter
  split
  · rfl
  · rfl
  · next hswitch =>
    rw [beq_eq_false_iff_ne.mpr fun e => hswitch e, Bool.false_or]
    cases form.isLoop <;> rfl

theorem inLoop_within : (within labels around).inLoop = around.any (·.isLoop) := by
  induction around with
  | nil => rfl
  | cons form around ih => rw [within_cons, inLoop_enter, ih, List.any_cons]

theorem inSwitch_within : (within labels around).inSwitch = around.any (· == .switchStmt) := by
  induction around with
  | nil => rfl
  | cons form around ih => rw [within_cons, inSwitch_enter, ih, List.any_cons]

theorem mem_inner_within {text : String} :
    text ∈ (within labels around).inner ↔ ∃ label, .labeled label ∈ around ∧ label.text = text := by
  induction around with
  | nil => simp [within, top]
  | cons form around ih =>
      rw [within_cons]
      unfold enter
      split
      · next label =>
        simp only [List.mem_cons, Form.labeled.injEq, ih]
        grind
      · simp [ih]
      · next hlabel _ =>
        have hother : ∀ label, .labeled label ≠ form := fun label e => hlabel label e.symm
        split <;> simp [ih, hother]

/-- Where a jump goes depends on whether it goes to one of the forms around it. -/
theorem target_within {label? : Option Name} {stopped : Bool} {goesTo : Form → Bool}
    (hlabel : ∀ label, label? = some label → ∀ form,
      goesTo form = true ↔ ∃ name, form = .labeled name ∧ name.text = label.text)
    (hbare : label? = none → stopped = around.any goesTo) :
    (within labels around).target label? stopped =
      if around.any goesTo then .inner else .beyond labels label? := by
  cases label? with
  | none =>
      obtain rfl := hbare rfl
      rfl
  | some label =>
      have hinner : label.text ∈ (within labels around).inner ↔ around.any goesTo = true := by
        rw [mem_inner_within, List.any_eq_true]
        constructor
        · rintro ⟨name, hmem, htext⟩
          exact ⟨_, hmem, (hlabel label rfl _).mpr ⟨name, rfl, htext⟩⟩
        · rintro ⟨form, hmem, hgoes⟩
          obtain ⟨name, rfl, htext⟩ := (hlabel label rfl _).mp hgoes
          exact ⟨name, hmem, htext⟩
      simp only [target, hinner, own_within, JumpTarget.beyond]

theorem breakTarget_within (label? : Option Name) :
    (within labels around).breakTarget label? =
      if around.any (Form.breakStmt label?).goesTo then .inner else .beyond labels label? := by
  refine target_within ?_ ?_
  · rintro label rfl form
    cases form <;> simp [Form.goesTo]
  · rintro rfl
    rw [inLoop_within, inSwitch_within, Bool.eq_iff_iff]
    simp only [Bool.or_eq_true, List.any_eq_true, Form.goesTo]
    grind

theorem continueTarget_within (label? : Option Name) :
    (within labels around).continueTarget label? =
      if around.any (Form.continueStmt label?).goesTo then .inner else .beyond labels label? := by
  refine target_within ?_ ?_
  · rintro label rfl form
    cases form <;> simp [Form.goesTo]
  · rintro rfl
    rw [inLoop_within]
    rfl

end JumpContext

/-! ### Jumps are found where they stand -/

section

variable {labels : List String} {around : List Form} {span : Span} {parts : List Node}

/-- A quiet node has no jump outside closures. -/
theorem Node.jumpStmts_of_isQuiet {node : Node} (hwf : node.isWellFormed = true)
    (hquiet : node.isQuiet = true) : node.jumpStmts around = [] := by
  induction node using Node.inductionOn generalizing around with
  | step form span parts ih =>
      rw [Node.jumpStmts]
      cases hclosure : form.isClosure with
      | true => rfl
      | false =>
          have hjump : form.isJump = false := by
            cases form with
            | breakStmt | continueStmt | returnStmt => cases hquiet
            | _ => rfl
          rw [hjump, jumpStmtsIn_eq_flatMap]
          simp only [Bool.false_eq_true, if_false, List.nil_append, List.flatMap_eq_nil_iff]
          intro part hmem
          exact ih part hmem (Node.isWellFormed_part hwf hmem)
            (Node.isQuiet_part hwf hquiet hclosure hmem)

/-- No jump stands inside a jump. -/
theorem Node.jumpStmts_of_isJump {form : Form} (hjump : form.isJump = true)
    (hwf : (Node.mk form span parts).isWellFormed = true) :
    (Node.mk form span parts).jumpStmts around = [⟨around, .mk form span parts⟩] := by
  have hclosure : form.isClosure = false := by
    cases form with
    | breakStmt | continueStmt | returnStmt => rfl
    | _ => cases hjump
  have hslots : form ≠ .list ∧ form.shape.slots.all Slot.isQuiet = true := by
    cases form with
    | breakStmt | continueStmt | returnStmt => exact ⟨by simp, rfl⟩
    | _ => cases hjump
  obtain ⟨hshape, hparts⟩ := Node.isWellFormed_mk.mp hwf
  have hnone : jumpStmtsIn (form :: around) parts = [] := by
    rw [jumpStmtsIn_eq_flatMap, List.flatMap_eq_nil_iff]
    intro part hmem
    obtain ⟨slot, hslot, hadmits⟩ := Shape.exists_slot (hshape.resolve_left hslots.1) hmem
    have hquiet := List.all_eq_true.mp hslots.2 slot hslot
    rw [Slot.isQuiet, Bool.and_eq_true, Bool.not_eq_true'] at hquiet
    refine Node.jumpStmts_of_isQuiet (hparts part hmem) ?_
    exact Slot.allAre_of_admits rfl hquiet.1 (by simpa using hquiet.2) hadmits
  rw [Node.jumpStmts, hclosure, hjump, hnone]
  rfl

/-- A jump is found for what it is where it goes. -/
theorem JumpStmt.jumps_eq (jump : JumpStmt) (label? : Option Name)
    (hlabels : jump.stmt.form.jumpLabels = (label?.map (·.text)).toList) :
    jump.jumps labels =
      (if jump.staysInside then JumpTarget.inner else .beyond labels label?).jump?
        jump.stmt.form.jumpKind jump.stmt.ownSpan := by
  unfold JumpStmt.jumps JumpStmt.site? JumpStmt.strayLabel?
  rw [hlabels]
  cases jump.staysInside with
  | true => rfl
  | false =>
      cases label? with
      | none => rfl
      | some label =>
          by_cases hown : label.text ∈ labels
          · simp [JumpTarget.beyond, hown, JumpTarget.jump?]
          · simp [JumpTarget.beyond, hown, JumpTarget.jump?]

/-- Nothing around a `return` keeps it in a body. -/
theorem JumpStmt.staysInside_return {jump : JumpStmt} (h : jump.stmt.form = .returnStmt) :
    jump.staysInside = false := by
  unfold JumpStmt.staysInside
  rw [h]
  exact List.any_eq_false.mpr fun _ _ => Bool.false_ne_true

/-- The walk finds every jump of a node for what it is. -/
theorem Node.jumps_within {node : Node} (hwf : node.isWellFormed = true) :
    node.jumps (.within labels around) = (node.jumpStmts around).flatMap
      (JumpStmt.jumps labels) := by
  induction node using Node.inductionOn generalizing around with
  | step form span parts ih =>
      cases hclosure : form.isClosure with
      | true =>
          unfold Node.jumps Node.jumpStmts
          rw [if_pos hclosure, if_pos hclosure, List.flatMap_nil]
      | false =>
          cases hjump : form.isJump with
          | false =>
              rw [Node.jumps_mk _ _ _ hclosure hjump, Node.jumpStmts, hclosure, hjump,
                ← JumpContext.within_cons, jumpsIn_eq_flatMap, jumpStmtsIn_eq_flatMap]
              simp only [Bool.false_eq_true, if_false, List.nil_append, List.flatMap_assoc]
              exact List.flatMap_congr fun part hmem =>
                ih part hmem (Node.isWellFormed_part hwf hmem)
          | true =>
              rw [Node.jumpStmts_of_isJump hjump hwf, List.flatMap_singleton]
              unfold Node.jumps
              rw [hclosure]
              simp only [Bool.false_eq_true, if_false]
              split
              · next label? =>
                rw [JumpStmt.jumps_eq _ label? (by cases label? <;> rfl),
                  JumpContext.breakTarget_within]
                rfl
              · next label? =>
                rw [JumpStmt.jumps_eq _ label? (by cases label? <;> rfl),
                  JumpContext.continueTarget_within]
                rfl
              · rw [JumpStmt.jumps_eq _ none rfl, JumpStmt.staysInside_return rfl]
                rfl
              · next hbreak hcontinue hreturn =>
                cases form with
                | breakStmt label? => exact absurd rfl (hbreak label?)
                | continueStmt label? => exact absurd rfl (hcontinue label?)
                | returnStmt => exact absurd rfl hreturn
                | _ => cases hjump

theorem firstStray?_append (jumps more : List Jump) :
    firstStray? (jumps ++ more) = (firstStray? jumps).or (firstStray? more) :=
  List.findSome?_append

theorem jumpSites_append (jumps more : List Jump) :
    jumpSites (jumps ++ more) = jumpSites jumps ++ jumpSites more :=
  List.filterMap_append

/-- The first jump that goes too far is the one that is refused. -/
theorem firstStray?_flatMap (jumps : List JumpStmt) :
    firstStray? (jumps.flatMap (JumpStmt.jumps labels)) =
      jumps.findSome? (JumpStmt.strayLabel? labels) := by
  induction jumps with
  | nil => rfl
  | cons jump jumps ih =>
      rw [List.flatMap_cons, firstStray?_append, ih, List.findSome?_cons, JumpStmt.jumps]
      cases jump.strayLabel? labels with
      | some label => rfl
      | none => cases jump.site? labels <;> rfl

/-- The jumps that become returns are those that go to the loop or to the function. -/
theorem jumpSites_flatMap (jumps : List JumpStmt) :
    jumpSites (jumps.flatMap (JumpStmt.jumps labels)) =
      jumps.filterMap (JumpStmt.site? labels) := by
  induction jumps with
  | nil => rfl
  | cons jump jumps ih =>
      rw [List.flatMap_cons, jumpSites_append, ih, List.filterMap_cons, JumpStmt.jumps]
      cases hstray : jump.strayLabel? labels with
      | none => cases jump.site? labels <;> rfl
      | some label =>
          have hsite : jump.site? labels = none := by
            unfold JumpStmt.strayLabel? at hstray
            unfold JumpStmt.site?
            grind
          rw [hsite]
          rfl

end

/-! ### Jumps are replaced where they stand -/

/-- The jump in the redirected body of a loop with the given labels. -/
def JumpStmt.redirected (redirection : Redirection) (labels : List String) (jump : JumpStmt) :
    JumpStmt :=
  if (jump.site? labels).isSome then
    { around :=
        -- A `continue` with something to write back has become a block.
        if jump.stmt.form.jumpKind = .next ∧ redirection.writeBack ≠ [] then .block :: jump.around
        else jump.around
      stmt := jump.completion.toReturn redirection.options jump.stmt.ownSpan }
  else jump

/-- What is done before the loop goes on neither jumps nor holds a closure. -/
def Redirection.IsSimple (redirection : Redirection) : Prop :=
  ∀ stmt ∈ redirection.writeBack, stmt.closures = [] ∧ ∀ around, stmt.jumpStmts around = []

section

variable {redirection : Redirection} {labels : List String} {around : List Form}

theorem JumpStmt.isSome_site? (jump : JumpStmt) (label? : Option Name)
    (hlabels : jump.stmt.form.jumpLabels = (label?.map (·.text)).toList) :
    (jump.site? labels).isSome = true ↔
      (if jump.staysInside then JumpTarget.inner else .beyond labels label?) = .loop := by
  unfold JumpStmt.site?
  rw [hlabels]
  cases jump.staysInside with
  | true => simp
  | false =>
      cases label? with
      | none => simp [JumpTarget.beyond]
      | some label => simp [JumpTarget.beyond]

theorem Completion.isWellFormed_toReturn {options : Options} {span : Span} {completion : Completion}
    (hvalue : ∀ value, completion = .result (some value) → value.IsExpr) :
    (completion.toReturn options span).isWellFormed = true :=
  (Completion.isStmt_toReturn hvalue options span).2

theorem Completion.jumpStmts_toReturn {options : Options} {span : Span} {completion : Completion}
    (hwf : (completion.toReturn options span).isWellFormed = true) :
    (completion.toReturn options span).jumpStmts around =
      [⟨around, completion.toReturn options span⟩] := by
  cases completion with
  | normal | leave | result => exact Node.jumpStmts_of_isJump rfl hwf

theorem Redirection.jumpStmts_continueStmt (hback : redirection.IsSimple) (span : Span) :
    (redirection.continueStmt span).jumpStmts around =
      [⟨if redirection.writeBack ≠ [] then .block :: around else around,
        Completion.normal.toReturn redirection.options span⟩] := by
  have hwf : (Completion.normal.toReturn redirection.options span).isWellFormed = true :=
    Completion.isWellFormed_toReturn fun _ e => by cases e
  unfold Redirection.continueStmt
  split
  · next hempty =>
    rw [if_neg (by simpa using hempty)]
    exact Completion.jumpStmts_toReturn hwf
  · next hempty =>
    rw [if_pos (by simpa using hempty), Node.jumpStmts, jumpStmtsIn_eq_flatMap, List.flatMap_append,
      List.flatMap_eq_nil_iff.mpr fun stmt hmem => (hback stmt hmem).2 _, List.flatMap_singleton,
      Completion.jumpStmts_toReturn hwf]
    rfl

/-- What a jump becomes is one jump again. -/
theorem Node.jumpStmts_redirect_jump (hback : redirection.IsSimple) {form : Form} {span : Span}
    {parts : List Node} (hjump : form.isJump = true) (hclosure : form.isClosure = false)
    (hwf : (Node.mk form span parts).isWellFormed = true) :
    ((Node.mk form span parts).redirect redirection (.within labels around)).jumpStmts around =
      [JumpStmt.redirected redirection labels ⟨around, .mk form span parts⟩] := by
  have hself : (Node.mk form span parts).jumpStmts around = [⟨around, .mk form span parts⟩] :=
    Node.jumpStmts_of_isJump hjump hwf
  have hsite := @JumpStmt.isSome_site? labels ⟨around, .mk form span parts⟩
  unfold Node.redirect JumpStmt.redirected
  rw [hclosure]
  simp only [Bool.false_eq_true, if_false]
  split
  · next label? =>
    have htarget : (JumpContext.within labels around).breakTarget label? = .loop ↔ _ :=
      JumpContext.breakTarget_within label? ▸ (hsite label? (by cases label? <;> rfl)).symm
    simp only [htarget]
    split
    · exact Completion.jumpStmts_toReturn (Completion.isWellFormed_toReturn (by simp))
    · exact hself
  · next label? =>
    have htarget : (JumpContext.within labels around).continueTarget label? = .loop ↔ _ :=
      JumpContext.continueTarget_within label? ▸ (hsite label? (by cases label? <;> rfl)).symm
    simp only [htarget]
    split
    · rw [Redirection.jumpStmts_continueStmt hback]
      simp only [Node.form, Form.jumpKind, true_and]
      rfl
    · exact hself
  · rw [if_pos ((hsite none rfl).mpr (by rw [JumpStmt.staysInside_return rfl]; rfl))]
    exact Completion.jumpStmts_toReturn (Node.Stands.toReturn_result hwf).wellFormed
  · next hbreak hcontinue hreturn =>
    cases form with
    | breakStmt label? => exact absurd rfl (hbreak label?)
    | continueStmt label? => exact absurd rfl (hcontinue label?)
    | returnStmt => exact absurd rfl hreturn
    | _ => cases hjump

/-- The jumps of a redirected node are those of the node, redirected. -/
theorem Node.jumpStmts_redirect (hback : redirection.IsSimple) {node : Node}
    (hwf : node.isWellFormed = true) :
    (node.redirect redirection (.within labels around)).jumpStmts around =
      (node.jumpStmts around).map (JumpStmt.redirected redirection labels) := by
  induction node using Node.inductionOn generalizing around with
  | step form span parts ih =>
      cases hclosure : form.isClosure with
      | true =>
          unfold Node.redirect
          rw [if_pos hclosure, Node.jumpStmts, if_pos hclosure, List.map_nil]
      | false =>
          cases hjump : form.isJump with
          | false =>
              rw [Node.redirect_mk _ _ hclosure hjump, Node.jumpStmts,
                Node.jumpStmts, hclosure, hjump, jumpStmtsIn_eq_flatMap, jumpStmtsIn_eq_flatMap,
                ← JumpContext.within_cons]
              simp only [Bool.false_eq_true, if_false, List.nil_append, List.flatMap_map,
                List.map_flatMap]
              exact List.flatMap_congr fun part hmem =>
                ih part hmem (Node.isWellFormed_part hwf hmem)
          | true =>
              rw [Node.jumpStmts_of_isJump hjump hwf, List.map_singleton]
              exact Node.jumpStmts_redirect_jump hback hjump hclosure hwf

/-- The closures of a redirected body are the closures of the body. -/
theorem Node.closures_redirect (hback : redirection.IsSimple) (ctx : JumpContext) {node : Node}
    (hwf : node.isWellFormed = true) : (node.redirect redirection ctx).closures =
      node.closures := by
  induction node using Node.inductionOn generalizing ctx with
  | step form span parts ih =>
      have hparts : closuresIn (redirectIn redirection (ctx.enter form) parts) =
          closuresIn parts := by
        rw [redirectIn_eq_map, closuresIn_eq_flatMap, closuresIn_eq_flatMap, List.flatMap_map]
        exact List.flatMap_congr fun part hmem => ih part hmem _ (Node.isWellFormed_part hwf hmem)
      unfold Node.redirect
      cases hclosure : form.isClosure with
      | true => rfl
      | false =>
          simp only [Bool.false_eq_true, if_false]
          split
          · obtain rfl := Node.parts_eq_nil rfl (by simp) hwf
            split <;> rfl
          · obtain rfl := Node.parts_eq_nil rfl (by simp) hwf
            split
            · unfold Redirection.continueStmt
              split
              · rfl
              · show closuresIn _ = []
                rw [closuresIn_eq_flatMap, List.flatMap_append,
                  List.flatMap_eq_nil_iff.mpr fun stmt hmem => (hback stmt hmem).1]
                rfl
            · rfl
          · obtain ⟨hshape, -⟩ := Node.isWellFormed_mk.mp hwf
            obtain ⟨argument, rest, rfl, -, hrest⟩ :=
              exists_of_fillSlots_cons (hshape.resolve_left (by simp))
            obtain rfl := eq_nil_of_fillSlots_nil hrest
            cases habsent : argument.isAbsent with
            | true =>
                obtain ⟨_, rfl⟩ := Node.eq_absent_of_isAbsent
                  (Node.isWellFormed_part hwf (List.mem_singleton_self _)) habsent
                rfl
            | false =>
                simp [habsent, Completion.toReturn, Node.returnStmt, Node.objectOf, Node.keyValue,
                  Node.closures, closuresIn, Form.isClosure]
          · rw [Node.closures, Node.closures, hclosure, hparts]
            rfl

end

/-! ### The whole body -/

/-- A jump that does not stay inside either is replaced or goes too far. -/
theorem JumpStmt.staysInside_of_site?_eq_none {labels : List String} {jump : JumpStmt}
    (hsite : jump.site? labels = none) (hstray : jump.strayLabel? labels = none) :
    jump.staysInside = true := by
  unfold JumpStmt.site? at hsite
  unfold JumpStmt.strayLabel? at hstray
  cases hinside : jump.staysInside with
  | true => rfl
  | false =>
      have hlabels : jump.stmt.form.jumpLabels.all (labels.contains ·) = true := by
        simpa [hinside] using hstray
      rw [hinside, hlabels] at hsite
      cases hsite

/-- A body is refused for the first of its jumps that goes further than the loop, if there is one.
Otherwise the jumps that are listed are those that go to the loop or to the function around it, in
source order, and in the body that results every jump is a statement of the old body that stays
inside, or the return that such a jump has become; and no closure has changed. -/
theorem redirectJumps_closes_body {redirection : Redirection} {labels : List String}
    {loopSpan : Span} {stmts : List Node} (hback : redirection.IsSimple)
    (hstmts : ∀ stmt ∈ stmts, stmt.isWellFormed = true) :
    let jumps := jumpStmtsIn [] stmts
    let body := (redirectJumps redirection labels loopSpan stmts).1
    let outcome := (redirectJumps redirection labels loopSpan stmts).2
    ((∃ refusal, outcome = .error refusal) ↔
        ∃ jump ∈ jumps, (jump.strayLabel? labels).isSome = true) ∧
      (∀ refusal, outcome = .error refusal ↔
        ∃ label, jumps.findSome? (·.strayLabel? labels) = some label ∧
          refusal = .outerLabel label loopSpan) ∧
      ∀ sites, outcome = .ok sites →
        sites = jumps.filterMap (·.site? labels) ∧
        (∀ jump ∈ jumpStmtsIn [] body,
          (jump.stmt.form ≠ .returnStmt → jump.staysInside = true) ∧
          (jump.stmt.form = .returnStmt → ∃ old ∈ jumps, (old.site? labels).isSome = true ∧
            jump.stmt = old.completion.toReturn redirection.options old.stmt.ownSpan)) ∧
        jumpStmtsIn [] body = jumps.map (·.redirected redirection labels) ∧
        closuresIn body = closuresIn stmts := by
  intro jumps body outcome
  have hjumps : jumpsIn (.top labels) stmts = jumps.flatMap (JumpStmt.jumps labels) := by
    rw [jumpsIn_eq_flatMap, show jumps = stmts.flatMap (Node.jumpStmts []) from
      jumpStmtsIn_eq_flatMap [] stmts, List.flatMap_assoc]
    exact List.flatMap_congr fun stmt hmem =>
      (Node.jumps_within (hstmts stmt hmem) : stmt.jumps (.within labels []) = _)
  have hbody : jumpStmtsIn [] body = jumps.map (JumpStmt.redirected redirection labels) := by
    show jumpStmtsIn [] (redirectIn _ _ _) = (jumpStmtsIn [] stmts).map _
    rw [redirectIn_eq_map, jumpStmtsIn_eq_flatMap, jumpStmtsIn_eq_flatMap, List.flatMap_map,
      List.map_flatMap]
    exact List.flatMap_congr fun stmt hmem =>
      (Node.jumpStmts_redirect hback (hstmts stmt hmem) :
        (stmt.redirect redirection (.within labels [])).jumpStmts [] = _)
  have hclosures : closuresIn body = closuresIn stmts := by
    show closuresIn (redirectIn _ _ _) = _
    rw [redirectIn_eq_map, closuresIn_eq_flatMap, closuresIn_eq_flatMap, List.flatMap_map]
    exact List.flatMap_congr fun stmt hmem => Node.closures_redirect hback _ (hstmts stmt hmem)
  have houtcome : outcome = match jumps.findSome? (·.strayLabel? labels) with
      | some label => .error (.outerLabel label loopSpan)
      | none => .ok (jumps.filterMap (·.site? labels)) := by
    rw [← firstStray?_flatMap, ← jumpSites_flatMap, ← hjumps]
    rfl
  cases hstray : jumps.findSome? (·.strayLabel? labels) with
  | some label =>
      rw [hstray] at houtcome
      obtain ⟨jump, hmem, hjump⟩ := List.exists_of_findSome?_eq_some hstray
      refine ⟨⟨fun _ => ⟨jump, hmem, Option.isSome_iff_exists.mpr ⟨label, hjump⟩⟩,
        fun _ => ⟨_, houtcome⟩⟩, fun refusal => ?_, fun sites h => ?_⟩
      · rw [houtcome]
        simp [eq_comm]
      · rw [houtcome] at h
        cases h
  | none =>
      rw [hstray] at houtcome
      have hnone : ∀ jump ∈ jumps, jump.strayLabel? labels = none :=
        List.findSome?_eq_none_iff.mp hstray
      refine ⟨⟨?_, ?_⟩, fun refusal => ?_, fun sites h => ⟨?_, ?_, hbody, hclosures⟩⟩
      · rintro ⟨refusal, h⟩
        rw [houtcome] at h
        cases h
      · rintro ⟨jump, hmem, hjump⟩
        rw [hnone jump hmem] at hjump
        cases hjump
      · rw [houtcome]
        simp
      · rw [houtcome] at h
        exact (Except.ok.inj h).symm
      · rw [hbody]
        intro jump hmem
        obtain ⟨old, hold, rfl⟩ := List.mem_map.mp hmem
        unfold JumpStmt.redirected
        cases hsite : old.site? labels with
        | none =>
            have hinside := JumpStmt.staysInside_of_site?_eq_none hsite (hnone old hold)
            have hform : old.stmt.form ≠ .returnStmt := by
              intro e
              rw [JumpStmt.staysInside_return e] at hinside
              cases hinside
            exact ⟨fun _ => hinside, fun hreturn => absurd hreturn hform⟩
        | some site =>
            simp only [Option.isSome_some, if_true]
            refine ⟨fun hreturn => absurd ?_ hreturn, fun _ => ⟨old, hold, by simp [hsite], rfl⟩⟩
            cases old.completion <;> rfl

/-- The body of a loop called `outer`:

    scan: while (more) { if (skip) continue; if (stop) break outer; break scan; }
    switch (kind) { default: if (last) break; continue; }
    hook = function () { return kind; };
    return result;
-/
def scanBody (exit : String) : List Node :=
  let at0 := Span.generated
  let label (text : String) : Name := ⟨text, false, at0⟩
  let on (condition : String) (stmt : Node) : Node := .ifStmt (.use condition at0) stmt at0
  [.labeled (label "scan") at0
      (.mk .whileStmt at0
        [.use "more" at0,
          .block at0
            [on "skip" (.mk (.continueStmt none) at0 []),
              on "stop" (.mk (.breakStmt (some (label exit))) at0 []),
              .mk (.breakStmt (some (label "scan"))) at0 []]]),
    .mk .switchStmt at0
      [.use "kind" at0,
        .list [.mk .switchCase at0
          [.absent, .mk .caseBody at0 [on "last" (.breakStmt at0),
            .mk (.continueStmt none) at0 []]]]],
    .exprStmt (.assignTo "hook" (.functionOf [] [.returnStmt (.use "kind" at0) at0] at0) at0),
    .returnStmt (.use "result" at0) at0]

/-- What a `continue` of the loop does first. -/
def scanRedirection : Redirection := ⟨writeBackOf [("i", "i$1")], {}⟩

example : (redirectJumps scanRedirection ["outer"] .generated (scanBody "far")).2 =
    .error (.outerLabel "far" .generated) := rfl

/-- Three jumps of the body become returns: the one to the loop's label, the `continue` in the
`switch` and the `return`.  The other three stay, and so does the function. -/
theorem scanBody_closed :
    scanRedirection.IsSimple ∧ (∀ stmt ∈ scanBody "outer", stmt.isWellFormed = true) ∧
      (redirectJumps scanRedirection ["outer"] .generated (scanBody "outer")).2 =
        .ok [⟨.leave, .generated⟩, ⟨.next, .generated⟩, ⟨.result, .generated⟩] ∧
      let body := (redirectJumps scanRedirection ["outer"] .generated (scanBody "outer")).1
      (∀ jump ∈ jumpStmtsIn [] body, jump.stmt.form ≠ .returnStmt → jump.staysInside = true) ∧
      (jumpStmtsIn [] body).length = 6 ∧ closuresIn body = closuresIn (scanBody "outer") ∧
      (closuresIn body).length = 1 := by
  have hback : scanRedirection.IsSimple :=
    List.forall_mem_singleton.mpr ⟨rfl, fun _ => rfl⟩
  have hstmts : ∀ stmt ∈ scanBody "outer", stmt.isWellFormed = true := by decide +kernel
  have hsites : (redirectJumps scanRedirection ["outer"] .generated (scanBody "outer")).2 =
      .ok [⟨.leave, .generated⟩, ⟨.next, .generated⟩, ⟨.result, .generated⟩] := rfl
  obtain ⟨-, hjumps, -, hclosures⟩ := (redirectJumps_closes_body hback hstmts).2.2 _ hsites
  exact ⟨hback, hstmts, hsites, fun jump hmem => (hjumps jump hmem).1, rfl, hclosures, rfl⟩

end LoopLowering
