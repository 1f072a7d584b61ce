/-
Parameters that are written back.

A loop variable that the body assigns lives twice: as a parameter of the function the body
became, and as the variable in the head of the loop.  The two have to be in step when the
function returns and the loop goes on.  The write-backs at the end of the function and in
the place of each `continue` bring them in step.

What comes after a write-back can put them out of step again.  Two things can come after
one: a `finally` around a `continue`, and the closing of an iterator when a `continue` goes
out of a nested loop.  If neither changes a parameter, the variables are in step whenever
the loop goes on; a `finally` that does change one is lost on the loop.
-/
import LoopLowering.Proofs.Dispatch
import LoopLowering.Proofs.Names
import LoopLowering.Proofs.Replacement

namespace LoopLowering

variable {Value World : Type}

/-! ### In step -/

/-- Each variable has the value of its parameter. -/
def Store.InStep (pairs : List (String × String)) (s : Store Value World) : Prop :=
  ∀ pair ∈ pairs, s.vars pair.1 = s.vars pair.2

theorem Store.vars_writeBack {pairs : List (String × String)} {name : String}
    (h : name ∉ pairs.map Prod.fst) (s : Store Value World) :
    (s.writeBack pairs).vars name = s.vars name := by
  induction pairs generalizing s with
  | nil => rfl
  | cons pair pairs ih =>
      rw [List.map_cons, List.mem_cons, not_or] at h
      calc ((s.set pair.1 (s.vars pair.2)).writeBack pairs).vars name
          _ = (s.set pair.1 (s.vars pair.2)).vars name := ih h.2 _
          _ = s.vars name := Store.vars_set_of_ne h.1 s _

/-- Where no variable stands for two, writing back brings all of them in step. -/
theorem Store.inStep_writeBack {pairs : List (String × String)}
    (hnodup : (pairs.map Prod.fst).Nodup) (happart : ∀ pair ∈ pairs, pair.2 ∉ pairs.map Prod.fst)
    (s : Store Value World) :
    (s.writeBack pairs).InStep pairs := by
  induction pairs generalizing s with
  | nil => exact fun pair hmem => absurd hmem List.not_mem_nil
  | cons pair pairs ih =>
      rw [List.map_cons, List.nodup_cons] at hnodup
      obtain ⟨hfirst, hrest⟩ := List.forall_mem_cons.mp happart
      refine List.forall_mem_cons.mpr ⟨?_, ih hnodup.2 (fun other hother hmem =>
        hrest other hother (List.mem_cons_of_mem _ hmem)) _⟩
      have hparam : pair.2 ≠ pair.1 ∧ pair.2 ∉ pairs.map Prod.fst := by
        simpa only [List.map_cons, List.mem_cons, not_or] using hfirst
      calc ((s.set pair.1 (s.vars pair.2)).writeBack pairs).vars pair.1
          _ = (s.set pair.1 (s.vars pair.2)).vars pair.1 := Store.vars_writeBack hnodup.1 _
          _ = s.vars pair.2 := Store.vars_set s pair.1 _
          _ = (s.set pair.1 (s.vars pair.2)).vars pair.2 := (Store.vars_set_of_ne hparam.1 s _).symm
          _ = ((s.set pair.1 (s.vars pair.2)).writeBack pairs).vars pair.2 :=
              (Store.vars_writeBack hparam.2 _).symm

/-! ### Returns of the function -/

/-- The tree holds a rewritten `continue`. -/
def Node.Continues (redirection : Redirection) (node : Node) : Prop :=
  ∃ span, (redirection.continueStmt span).Within node

/-- Outside closures, the tree returns the sentinel, an object, or nothing after a
write-back. -/
inductive Node.Settled (redirection : Redirection) : Node → Prop
  | next {node : Node} (span : Span) (h : node = redirection.continueStmt span) :
      Settled redirection node
  | leave (span : Span) : Settled redirection (Completion.leave.toReturn redirection.options span)
  | result (value? : Option Node) (span : Span) :
      Settled redirection ((Completion.result value?).toReturn redirection.options span)
  | parts {form : Form} {span : Span} {parts : List Node} (hform : form ≠ .returnStmt)
      (h : form.isClosure = false → form.isJump = false → ∀ part ∈ parts,
        Settled redirection part) :
      Settled redirection (.mk form span parts)

section Settled

variable {redirection : Redirection}

/-- Replacing the jumps settles a tree. -/
theorem Node.settled_redirect (node : Node) (ctx : JumpContext) :
    (node.redirect redirection ctx).Settled redirection := by
  induction node using Node.inductionOn generalizing ctx with
  | step form span parts ih =>
      unfold Node.redirect
      split
      · next hclosure =>
        refine .parts (fun h => ?_) fun hopen => ?_
        · rw [h] at hclosure
          cases hclosure
        · cases hclosure.symm.trans hopen
      split
      · split
        · exact .leave span
        · exact .parts (by simp) fun _ hjump => by cases hjump
      · split
        · exact .next span rfl
        · exact .parts (by simp) fun _ hjump => by cases hjump
      · exact .result _ span
      · next form _ _ hreturn =>
        refine .parts (fun h => hreturn h) fun _ _ part hmem => ?_
        rw [redirectIn_eq_map] at hmem
        obtain ⟨original, horiginal, rfl⟩ := List.mem_map.mp hmem
        exact ih original horiginal _

theorem Redirection.form_continueStmt (redirection : Redirection) (span : Span) :
    (redirection.continueStmt span).form = .block ∨
      (redirection.continueStmt span).form = .returnStmt := by
  unfold Redirection.continueStmt
  split
  · exact Or.inr rfl
  · exact Or.inl rfl

theorem Node.Settled.part {form : Form} {span : Span} {parts : List Node} {part : Node}
    (h : (Node.mk form span parts).Settled redirection)
    (hform : form ≠ .block ∧ form.isJump = false ∧ form.isClosure = false) (hmem : part ∈ parts) :
    part.Settled redirection := by
  generalize hnode : Node.mk form span parts = node at h
  cases h with
  | next nextSpan h =>
      have hsame : form = (redirection.continueStmt nextSpan).form := by
        rw [← h, ← hnode, Node.form]
      rcases redirection.form_continueStmt nextSpan with hblock | hreturn
      · exact absurd (hsame.trans hblock) hform.1
      · rw [hsame, hreturn] at hform
        cases hform.2.1
  | leave | result =>
      cases hnode
      cases hform.2.1
  | parts hne h =>
      cases hnode
      exact h hform.2.2 hform.2.1 part hmem

/-- The expression is the sentinel or an object. -/
def Node.IsReport (options : Options) (expr : Node) : Prop :=
  (∃ span, expr = .stringLit options.breakSentinel span) ∨
    ∃ content span, expr = .objectOf options.returnKey content span

theorem Node.Settled.block_cases {span : Span} {stmts : List Node}
    (h : (Node.mk .block span stmts).Settled redirection) :
    (∃ nextSpan, Node.mk .block span stmts = redirection.continueStmt nextSpan) ∨
      ∀ stmt ∈ stmts, stmt.Settled redirection := by
  generalize hnode : Node.mk .block span stmts = node at h ⊢
  cases h with
  | next nextSpan h => exact Or.inl ⟨nextSpan, h⟩
  | leave | result => cases hnode
  | parts hform h =>
      cases hnode
      exact Or.inr (h rfl rfl)

theorem Node.Settled.return_cases {span : Span} {expr : Node}
    (h : (Node.mk .returnStmt span [expr]).Settled redirection) :
    (∃ nextSpan, Node.mk .returnStmt span [expr] = redirection.continueStmt nextSpan) ∨
      expr.IsReport redirection.options := by
  generalize hnode : Node.mk .returnStmt span [expr] = node at h ⊢
  cases h with
  | next nextSpan h => exact Or.inl ⟨nextSpan, h⟩
  | leave =>
      cases hnode
      exact Or.inr (Or.inl ⟨_, rfl⟩)
  | result =>
      cases hnode
      exact Or.inr (Or.inr ⟨_, _, rfl⟩)
  | parts hform =>
      cases hnode
      exact absurd rfl hform

theorem Node.Continues.part {form : Form} {span : Span} {parts : List Node} {part : Node}
    (h : part.Continues redirection) (hmem : part ∈ parts) :
    (Node.mk form span parts).Continues redirection :=
  h.imp fun _ hwithin => .part hmem hwithin

end Settled

/-! ### What runs after a write-back -/

namespace Ending

variable {ending : Ending Value} {value : Value}

theorem unbroken_eq_returns : ending.unbroken = returns value ↔ ending = returns value := by
  cases ending with
  | breaks label => cases label <;> simp [unbroken]
  | normal | continues | returns | throws => rfl

theorem unlabeled_eq_returns {label : String} :
    ending.unlabeled label = returns value ↔ ending = returns value := by
  cases ending with
  | breaks target =>
      cases target with
      | none => rfl
      | some target =>
          by_cases heq : target.text = label
          · simp [unlabeled, heq]
          · simp [unlabeled, heq]
  | normal | continues | returns | throws => rfl

theorem closed_eq_returns {answer : Answer Value} (h : ending.closed answer = returns value) :
    ending = returns value := by
  cases answer with
  | value | done => cases ending <;> exact h
  | thrown => cases ending <;> cases h

theorem finalized_eq_returns {last : Ending Value} :
    ending.finalized last = returns value ↔
      ending = returns value ∧ last = normal ∨ last = returns value := by
  cases last <;> simp [finalized]

end Ending

/-- What can run after a rewritten `continue` keeps the variables in step: the finalizers
around it, and the closing of the iterators around it. -/
structure Node.KeepsStep (machine : Machine Value World) (redirection : Redirection)
    (pairs : List (String × String)) (node : Node) : Prop where
  finalizer : ∀ {span : Span} {block handler finalizer : Node},
    (Node.mk .tryStmt span [block, handler, finalizer]).Within node →
    block.Continues redirection ∨ handler.Continues redirection →
    ∀ s t : Store Value World, s.InStep pairs → Runs machine (.stmt [] finalizer) s .normal t →
      t.InStep pairs
  closing : ∀ {isAwait : Bool} {span : Span} {left right body : Node},
    (Node.mk (.forOfStmt isAwait) span [left, right, body]).Within node →
    body.Continues redirection →
    ∀ (iterator : Value) (s t : Store Value World) (answer : Answer Value), s.InStep pairs →
      machine.answer (.close iterator) s = some (answer, t) → t.InStep pairs

/-- The tree is settled, and keeps variables in step. -/
structure Node.Watched (machine : Machine Value World) (redirection : Redirection)
    (pairs : List (String × String)) (node : Node) : Prop where
  settled : node.Settled redirection
  keeps : node.KeepsStep machine redirection pairs

/-- The same at a point of a run.  What a `try` is about to hand on is in step already. -/
def Phase.Watched (machine : Machine Value World) (redirection : Redirection)
    (pairs : List (String × String)) (s : Store Value World) : Phase Value → Prop
  | stmt _ node => node.Watched machine redirection pairs
  | stmts nodes => ∀ node ∈ nodes, node.Watched machine redirection pairs
  | check guard _ body | round guard _ body =>
    body.Watched machine redirection pairs ∧
      (body.Continues redirection → ∀ (t u : Store Value World) (answer : Answer Value),
        t.InStep pairs → machine.asks guard.close t = some (answer, u) → u.InStep pairs)
  | handling handler ending =>
    handler.Watched machine redirection pairs ∧
      (ending = .returns machine.undefined → s.InStep pairs)

/-- There is a rewritten `continue` from a point on, or it has been reached. -/
def Phase.Continues (machine : Machine Value World) (redirection : Redirection) : Phase Value → Prop
  | stmt _ node => node.Continues redirection
  | stmts nodes => ∃ node ∈ nodes, node.Continues redirection
  | check _ _ body | round _ _ body => body.Continues redirection
  | handling handler ending =>
    handler.Continues redirection ∨ ending = .returns machine.undefined

section Runs

variable {machine : Machine Value World} {redirection : Redirection}
  {pairs : List (String × String)}

theorem Node.KeepsStep.part {form : Form} {span : Span} {parts : List Node} {part : Node}
    (h : (Node.mk form span parts).KeepsStep machine redirection pairs) (hmem : part ∈ parts) :
    part.KeepsStep machine redirection pairs :=
  ⟨fun hwithin => h.finalizer (.part hmem hwithin), fun hwithin => h.closing (.part hmem hwithin)⟩

/-- A loop without an iterator has nothing to close. -/
theorem Guard.inStep_nothing {guard : Guard Value} (hguard : guard.close = [])
    (t u : Store Value World) (answer : Answer Value) (hin : t.InStep pairs)
    (hasks : machine.asks guard.close t = some (answer, u)) : u.InStep pairs := by
  rw [hguard] at hasks
  cases hasks
  exact hin

theorem Node.Watched.part {form : Form} {span : Span} {parts : List Node} {part : Node}
    (h : (Node.mk form span parts).Watched machine redirection pairs)
    (hform : form ≠ .block ∧ form.isJump = false ∧ form.isClosure = false) (hmem : part ∈ parts) :
    part.Watched machine redirection pairs :=
  ⟨h.settled.part hform hmem, h.keeps.part hmem⟩

theorem Node.Watched.caseStmts {node : Node} (h : node.Watched machine redirection pairs) :
    ∀ stmt ∈ node.caseStmts, stmt.Watched machine redirection pairs := by
  intro stmt hmem
  unfold Node.caseStmts at hmem
  split at hmem
  · next bodySpan stmts =>
    have hbody := h.part ⟨by simp, rfl, rfl⟩ (show Node.mk .caseBody bodySpan stmts ∈ _ by simp)
    exact hbody.part ⟨by simp, rfl, rfl⟩ hmem
  · exact absurd hmem List.not_mem_nil

theorem Node.Continues.caseStmts {node stmt : Node} (h : stmt.Continues redirection)
    (hmem : stmt ∈ node.caseStmts) : node.Continues redirection := by
  unfold Node.caseStmts at hmem
  split at hmem
  · next bodySpan stmts =>
    have hbody : (Node.mk .caseBody bodySpan stmts).Continues redirection := h.part hmem
    exact hbody.part (by simp)
  · exact absurd hmem List.not_mem_nil

/-- The place of a `continue` brings the variables in step. -/
theorem Runs.inStep_next (hback : ∀ s : Store Value World,
      Runs machine (.stmts redirection.writeBack) s .normal (s.writeBack pairs))
    (hstep : ∀ s : Store Value World, (s.writeBack pairs).InStep pairs) {node : Node} {span : Span}
    (hnode : node = redirection.continueStmt span) {labels : List String} {s t : Store Value World}
    {ending : Ending Value} (h : Runs machine (.stmt labels node) s ending t) :
    node.Continues redirection ∧ t.InStep pairs := by
  subst hnode
  refine ⟨⟨span, .self⟩, ?_⟩
  obtain ⟨-, rfl⟩ := (Runs.next (hback s)).unique h
  exact hstep s

/-- The sentinel and an object are something. -/
theorem Node.IsReport.ne_undefined {known : List String} (hemits : machine.Emits known)
    {options : Options} {expr : Node} (h : expr.IsReport options) {s t : Store Value World}
    {value : Value} (hasks : machine.asks (expr.ifPresent .eval) s = some (.value value, t)) :
    value ≠ machine.undefined := by
  rcases h with ⟨span, rfl⟩ | ⟨content, span, rfl⟩
  · have hanswer := Machine.asks_singleton.mp hasks
    rw [hemits.eval_string] at hanswer
    cases hanswer
    exact hemits.string_ne_undefined _
  · intro heq
    have htrue := hemits.isTrue_object _ _ _ _ _ _ (Machine.asks_singleton.mp hasks)
    rw [heq, hemits.isTrue_undefined] at htrue
    cases htrue

/-- The statements of the selected cases are watched with their `switch`, and a rewritten `continue`
in one of them is one in the `switch`. -/
theorem Node.Watched.selected {span listSpan : Span} {scrutinee : Node} {cases chosen : List Node}
    {value : Value} {s t : Store Value World}
    (h : (Node.mk .switchStmt span [scrutinee, .mk .list listSpan cases]).Watched machine
      redirection pairs)
    (hselect : machine.select value [] cases s = some (.ok chosen, t)) :
    ∀ stmt ∈ chosen.flatMap Node.caseStmts, stmt.Watched machine redirection pairs ∧
      (stmt.Continues redirection →
        (Node.mk .switchStmt span [scrutinee, .mk .list listSpan cases]).Continues
          redirection) := by
  intro stmt hmem
  obtain ⟨node, hnode, hstmt⟩ := List.mem_flatMap.mp hmem
  have hcase : node ∈ cases :=
    (Machine.mem_of_select hselect node hnode).resolve_left List.not_mem_nil
  have hlist := h.part ⟨by simp, rfl, rfl⟩ (show Node.mk .list listSpan cases ∈ _ by simp)
  refine ⟨(hlist.part ⟨by simp, rfl, rfl⟩ hcase).caseStmts stmt hstmt, fun hcontinues => ?_⟩
  have hcontinuesList : (Node.mk .list listSpan cases).Continues redirection :=
    (hcontinues.caseStmts hstmt).part hcase
  exact hcontinuesList.part (by simp)

/-- A loop over keys or values is watched together with the closing of its iterator. -/
theorem Node.Watched.over {form : Form} {span : Span} {left right body : Node}
    (hform : form.isOver = true)
    (h : (Node.mk form span [left, right, body]).Watched machine redirection pairs)
    (labels : List String) (iterator : Value) (s : Store Value World) :
    (Phase.check (.over form left iterator) labels body).Watched machine redirection pairs s := by
  rcases Form.over_of_isOver hform with rfl | ⟨isAwait, rfl⟩
  · exact ⟨h.part ⟨by simp, rfl, rfl⟩ (by simp), fun _ => Guard.inStep_nothing rfl⟩
  · refine ⟨h.part ⟨by simp, rfl, rfl⟩ (by simp), fun hcontinues t u answer hin hasks => ?_⟩
    exact h.keeps.closing .self hcontinues iterator t u answer hin (Machine.asks_singleton.mp hasks)

/-- A `try` that returns nothing does so from its finalizer, or from what its finalizer follows. -/
theorem Runs.inStep_tried {span : Span} {block handler finalizer : Node} {t u v : Store Value World}
    {ending caught last : Ending Value}
    (hwatched : (Node.mk .tryStmt span [block, handler, finalizer]).Watched machine redirection
      pairs)
    (hblock : ending = .returns machine.undefined → block.Continues redirection ∧ t.InStep pairs)
    (hhandler : (ending = .returns machine.undefined → t.InStep pairs) →
      caught = .returns machine.undefined →
      (Phase.handling handler ending).Continues machine redirection ∧ u.InStep pairs)
    (hrun : Runs machine (.stmt [] finalizer) u last v)
    (hlast : last = .returns machine.undefined →
      finalizer.Continues redirection ∧ v.InStep pairs)
    (hending : caught.finalized last = .returns machine.undefined) :
    (Node.mk .tryStmt span [block, handler, finalizer]).Continues redirection ∧ v.InStep pairs := by
  rcases Ending.finalized_eq_returns.mp hending with ⟨hcaught, rfl⟩ | hreturns
  · obtain ⟨hcontinues, hin⟩ := hhandler (fun heq => (hblock heq).2) hcaught
    have hinside : block.Continues redirection ∨ handler.Continues redirection := by
      rcases hcontinues with hcontinues | heq
      · exact Or.inr hcontinues
      · exact Or.inl (hblock heq).1
    refine ⟨?_, hwatched.keeps.finalizer .self hinside u v hin hrun⟩
    rcases hinside with hcontinues | hcontinues
    · exact hcontinues.part (by simp)
    · exact hcontinues.part (by simp)
  · obtain ⟨hcontinues, hin⟩ := hlast hreturns
    exact ⟨hcontinues.part (by simp), hin⟩

/-- A function that returns nothing leaves through a rewritten `continue`, and the variables
are in step then. -/
theorem Runs.inStep {known : List String} (hemits : machine.Emits known)
    (hback : ∀ s : Store Value World,
      Runs machine (.stmts redirection.writeBack) s .normal (s.writeBack pairs))
    (hstep : ∀ s : Store Value World, (s.writeBack pairs).InStep pairs)
    {phase : Phase Value} {s t : Store Value World} {ending : Ending Value}
    (h : Runs machine phase s ending t) (hwatched : phase.Watched machine redirection pairs s)
    (hending : ending = .returns machine.undefined) :
    phase.Continues machine redirection ∧ t.InStep pairs := by
  induction h with
  | cons hfirst hrest ihfirst ihrest =>
      obtain ⟨hcontinues, hin⟩ := ihrest (List.forall_mem_cons.mp hwatched).2 hending
      obtain ⟨node, hmem, hnode⟩ := hcontinues
      exact ⟨⟨node, List.mem_cons_of_mem _ hmem, hnode⟩, hin⟩
  | stop hfirst habrupt ih =>
      obtain ⟨hcontinues, hin⟩ := ih (List.forall_mem_cons.mp hwatched).1 hending
      exact ⟨⟨_, List.mem_cons_self, hcontinues⟩, hin⟩
  | @block labels span stmts s t ending hstmts ih =>
      rcases hwatched.settled.block_cases with ⟨nextSpan, hnode⟩ | hparts
      · have hblock : Runs machine (.stmt labels (.mk .block span stmts)) s ending t :=
          .block hstmts
        exact Runs.inStep_next hback hstep hnode hblock
      · have hstmtsWatched : ∀ stmt ∈ stmts, stmt.Watched machine redirection pairs :=
          fun stmt hmem => ⟨hparts stmt hmem, hwatched.keeps.part hmem⟩
        obtain ⟨⟨stmt, hmem, hcontinues⟩, hin⟩ := ih hstmtsWatched hending
        exact ⟨hcontinues.part hmem, hin⟩
  | @returned labels span expr s t value hasks =>
      cases hending
      rcases hwatched.settled.return_cases with ⟨nextSpan, hnode⟩ | hreport
      · have hreturn : Runs machine (.stmt labels (.mk .returnStmt span [expr])) s _ t :=
          .returned hasks
        exact Runs.inStep_next hback hstep hnode hreturn
      · exact absurd rfl (hreport.ne_undefined hemits hasks)
  | @chose labels span test consequent alternative s t u value ending hasks hbranch ih =>
      have hmem : (if machine.isTrue value then consequent else alternative) ∈
          [test, consequent, alternative] := by
        split <;> simp
      obtain ⟨hcontinues, hin⟩ := ih (hwatched.part ⟨by simp, rfl, rfl⟩ hmem) hending
      exact ⟨hcontinues.part hmem, hin⟩
  | labeled hbody hloop ih =>
      obtain ⟨hcontinues, hin⟩ := ih (hwatched.part ⟨by simp, rfl, rfl⟩ (by simp))
        (Ending.unlabeled_eq_returns.mp hending)
      exact ⟨hcontinues.part (by simp), hin⟩
  | switched hasks hselect hstmts ih =>
      have hchosen := hwatched.selected hselect
      obtain ⟨⟨stmt, hmem, hcontinues⟩, hin⟩ := ih (fun stmt hmem => (hchosen stmt hmem).1)
        (Ending.unbroken_eq_returns.mp hending)
      exact ⟨(hchosen stmt hmem).2 hcontinues, hin⟩
  | @tried labels span block handler finalizer s t u v ending caught last hblock hhandler hfinalizer
      ihblock ihhandler ihfinalizer =>
      have hpart : ∀ part ∈ [block, handler, finalizer], part.Watched machine redirection pairs :=
        fun part hmem => hwatched.part ⟨by simp, rfl, rfl⟩ hmem
      exact Runs.inStep_tried hwatched (ihblock (hpart block (by simp)))
        (fun hin => ihhandler ⟨hpart handler (by simp), hin⟩) hfinalizer
        (ihfinalizer (hpart finalizer (by simp))) hending
  | passed hpass => exact ⟨Or.inr hending, hwatched.2 hending⟩
  | caught hasks hbody ih =>
      obtain ⟨hcontinues, hin⟩ := ih (hwatched.1.part ⟨by simp, rfl, rfl⟩ (by simp)) hending
      exact ⟨Or.inl (hcontinues.part (by simp)), hin⟩
  | whileLoop hloop ih | doLoop hloop ih | forLoop hasks hloop ih =>
      obtain ⟨hcontinues, hin⟩ := ih ⟨hwatched.part ⟨by simp, rfl, rfl⟩ (by simp),
        fun _ => Guard.inStep_nothing rfl⟩ (Ending.unbroken_eq_returns.mp hending)
      exact ⟨hcontinues.part (by simp), hin⟩
  | overLoop hform hasks hloop ih =>
      obtain ⟨hcontinues, hin⟩ := ih (hwatched.over hform _ _ _)
        (Ending.unbroken_eq_returns.mp hending)
      exact ⟨hcontinues.part (by simp), hin⟩
  | testHolds hasks htest hround ih => exact ih hwatched hending
  | bound hasks hbind hround ih => exact ih hwatched hending
  | again hbody hgoesOn hasks hcheck ihbody ihcheck => exact ihcheck hwatched hending
  | @left guard labels body s t u answer ending hbody hgoesOn hclose ih =>
      obtain ⟨hbodyWatched, hguard⟩ := hwatched
      obtain ⟨hcontinues, hin⟩ := ih hbodyWatched (Ending.closed_eq_returns hending)
      exact ⟨hcontinues, hguard hcontinues t u answer hin hclose⟩
  | thrown | nil | idle | expr | declared | threw | broke | continued | switchThrown | overNothing
  | testFails | exhausted | unbound | updateThrown => cases hending

end Runs

/-! ### The function of a loop -/

section Function

variable {machine : Machine Value World} {pairs : List (String × String)}

theorem Runs.append_cases {stmts more : List Node} {s t : Store Value World} {ending : Ending Value}
    (h : Runs machine (.stmts (stmts ++ more)) s ending t) :
    ending ≠ .normal ∧ Runs machine (.stmts stmts) s ending t ∨
      ∃ u, Runs machine (.stmts stmts) s .normal u ∧ Runs machine (.stmts more) u ending t := by
  induction stmts generalizing s with
  | nil => exact Or.inr ⟨s, .nil, h⟩
  | cons stmt stmts ih =>
      cases h with
      | thrown hasks => cases hasks
      | stop hfirst habrupt => exact Or.inl ⟨habrupt, .stop hfirst habrupt⟩
      | cons hfirst hrest =>
          rcases ih hrest with ⟨habrupt, hstmts⟩ | ⟨u, hstmts, hmore⟩
          · exact Or.inl ⟨habrupt, .cons hfirst hstmts⟩
          · exact Or.inr ⟨u, .cons hfirst hstmts, hmore⟩

theorem Ending.answer?_eq_undefined {ending : Ending Value}
    (h : ending.answer? machine = some (.value machine.undefined)) :
    ending = .normal ∨ ending = .returns machine.undefined := by
  cases ending with
  | normal => exact Or.inl rfl
  | returns value =>
      cases h
      exact Or.inr rfl
  | breaks | continues | throws => cases h

/-- When the function returns nothing, at its end or before, the variables are in step. -/
theorem Runs.inStep_function (redirection : Redirection) {known : List String}
    (hemits : machine.Emits known) (hback : ∀ s : Store Value World,
      Runs machine (.stmts redirection.writeBack) s .normal (s.writeBack pairs))
    (hstep : ∀ s : Store Value World, (s.writeBack pairs).InStep pairs) {stmts : List Node}
    (hwatched : ∀ stmt ∈ stmts, stmt.Watched machine redirection pairs) {s t : Store Value World}
    {ending : Ending Value}
    (h : Runs machine (.stmts (stmts ++ redirection.writeBack)) s ending t)
    (hanswer : ending.answer? machine = some (.value machine.undefined)) : t.InStep pairs := by
  have hend : ∀ {u last}, Runs machine (.stmts redirection.writeBack) u last t →
      t.InStep pairs := by
    intro u last hlast
    obtain ⟨-, rfl⟩ := (hback u).unique hlast
    exact hstep u
  rcases h.append_cases with ⟨habrupt, hstmts⟩ | ⟨u, -, hmore⟩
  · have hreturns := (Ending.answer?_eq_undefined hanswer).resolve_left habrupt
    exact (Runs.inStep hemits hback hstep hstmts hwatched hreturns).2
  · exact hend hmore

end Function

/-- The variables to be written back, each with its parameter. -/
def writtenPairs (writtenBack : String → Bool) (vars : List (String × String))
    (params : List String) : List (String × String) :=
  ((vars.zip params).filter fun entry => writtenBack entry.1.1).map fun entry =>
    (entry.1.2, entry.2)

theorem writtenPairs_cons (writtenBack : String → Bool) (name outer param : String)
    (vars : List (String × String)) (params : List String) :
    writtenPairs writtenBack ((name, outer) :: vars) (param :: params) =
      if writtenBack name then (outer, param) :: writtenPairs writtenBack vars params
      else writtenPairs writtenBack vars params := by
  cases hwritten : writtenBack name <;> simp [writtenPairs, hwritten]

/-- The write-backs copy parameters that have names of their own. -/
theorem chooseParams_spec (writtenBack : String → Bool) (vars : List (String × String))
    (stmts : List Node) (names : Registry) :
    let function := ((chooseParams writtenBack vars stmts).run names).1
    function.writeBack = writeBackOf (writtenPairs writtenBack vars function.params) ∧
      ∀ pair ∈ writtenPairs writtenBack vars function.params, pair.2 ∉ names.taken := by
  induction vars generalizing stmts names with
  | nil => exact ⟨rfl, fun pair hmem => absurd hmem List.not_mem_nil⟩
  | cons var vars ih =>
      obtain ⟨name, outer⟩ := var
      unfold chooseParams
      split
      · next hwritten =>
        have htaken := Registry.taken_fresh names name
        obtain ⟨hback, hnew⟩ := ih (stmts.map (·.rename name (names.fresh name).1))
            (names.fresh name).2
        have hpairs : ∀ param params, writtenPairs writtenBack ((name, outer) :: vars)
            (param :: params) =
            (outer, param) :: writtenPairs writtenBack vars params := fun param params => by
          rw [writtenPairs_cons, if_pos hwritten]
        refine ⟨?_, ?_⟩
        · exact (congrArg _ hback).trans (congrArg writeBackOf (hpairs _ _)).symm
        · intro pair hmem
          rcases List.mem_cons.mp (hpairs _ _ ▸ hmem) with rfl | hmem
          · exact Registry.fresh_notMem names name
          · exact fun hold => hnew pair hmem (htaken ▸ List.mem_cons_of_mem _ hold)
      · next hwritten =>
        have hpairs : ∀ param params, writtenPairs writtenBack ((name, outer) :: vars)
            (param :: params) =
            writtenPairs writtenBack vars params := fun param params => by
          rw [writtenPairs_cons, if_neg hwritten]
        obtain ⟨hback, hnew⟩ := ih stmts names
        refine ⟨?_, ?_⟩
        · exact hback.trans (congrArg writeBackOf (hpairs _ _)).symm
        · exact fun pair hmem => hnew pair (hpairs _ _ ▸ hmem)

theorem sublist_writtenPairs (writtenBack : String → Bool) (vars outer params : List String) :
    ((writtenPairs writtenBack (vars.zip outer) params).map Prod.fst).Sublist outer := by
  induction vars generalizing outer params with
  | nil => exact List.nil_sublist outer
  | cons name vars ih =>
      cases outer with
      | nil => exact List.Sublist.slnil
      | cons counter outer =>
          cases params with
          | nil => exact List.nil_sublist _
          | cons param params =>
              simp only [writtenPairs, List.zip_cons_cons, List.filter_cons] at ih ⊢
              split
              · exact (ih outer params).cons_cons counter
              · exact (ih outer params).cons counter

/-- The variables of an extracted loop that are written back, and their parameters, all have
different names. -/
theorem Extraction.writeBack_spec {extraction : Extraction} {writtenBack : String → Bool}
    {vars outer : List String} {stmts : List Node} {flattened drawn : Registry}
    (hparams : (chooseParams writtenBack (vars.zip outer) stmts).run flattened =
      (extraction.function, drawn))
    (hnodup : outer.Nodup) (hused : outer ⊆ flattened.taken) :
    let pairs := writtenPairs writtenBack (vars.zip outer) extraction.function.params
    extraction.function.writeBack = writeBackOf pairs ∧ (pairs.map Prod.fst).Nodup ∧
      ∀ pair ∈ pairs, pair.2 ∉ pairs.map Prod.fst := by
  have hspec := chooseParams_spec writtenBack (vars.zip outer) stmts flattened
  rw [hparams] at hspec
  obtain ⟨hback, hnew⟩ := hspec
  have hsublist := sublist_writtenPairs writtenBack vars outer extraction.function.params
  refine ⟨hback, hnodup.sublist hsublist, fun pair hpair hmem => ?_⟩
  exact hnew pair hpair (hused (hsublist.subset hmem))

/-! ### The function among the statements for a loop -/

theorem Node.functionOf_inj {params params' : List String} {stmts stmts' : List Node} {span : Span}
    (h : Node.functionOf params stmts span = .functionOf params' stmts' span) :
    params = params' ∧ stmts = stmts' := by
  simp only [Node.functionOf, Node.mk.injEq, List.cons.injEq, Node.list, true_and, and_true] at h
  obtain ⟨hparams, hstmts⟩ := h
  refine ⟨?_, hstmts⟩
  refine (List.map_injective_iff.mpr fun name name' hname => ?_) hparams
  simpa using hname

theorem Loop.toNode_ne_varStmt (loop : Loop) (span : Span) (declarators : List (String × Node)) :
    loop.toNode ≠ .varStmt span declarators := by
  unfold Loop.toNode
  cases loop.labels with
  | nil =>
      rw [List.foldr_nil, Loop.toUnlabeled_eq]
      cases loop.head <;> simp [LoopHead.form, Node.varStmt]
  | cons label labels => simp [Node.varStmt]

theorem aliasStmt_ne_function {alias? : Option String} {value : Node} {functionName : String}
    {params : List String} {stmts : List Node} {span : Span}
    (hvalue : value.form ≠ .functionExpr none) :
    Node.varStmt .generated [(functionName, .functionOf params stmts span)] ∉ aliasStmt
      alias? value := by
  intro h
  unfold aliasStmt at h
  split at h
  · have hinit : Node.functionOf params stmts span = value := by
      have heq := List.mem_singleton.mp h
      simp only [Node.varStmt, List.map_cons, List.map_nil, Node.mk.injEq, List.cons.injEq,
        and_true, true_and] at heq
      exact heq.2
    exact hvalue (hinit ▸ rfl)
  · exact absurd h List.not_mem_nil

theorem Extraction.hoisted_ne_function {record : Capture.Record} {functionName : String}
    {params : List String} {stmts : List Node} {span : Span} :
    Node.varStmt .generated [(functionName, .functionOf params stmts span)] ∉
      Extraction.hoisted record := by
  intro h
  unfold Extraction.hoisted at h
  split at h
  · exact absurd h List.not_mem_nil
  · have heq := List.mem_singleton.mp h
    cases hvars : record.bodyVars with
    | nil => simp [Node.varStmt, hvars] at heq
    | cons name names => simp [Node.varStmt, hvars, Node.functionOf, Node.absent] at heq

/-- There is one function among the statements for a loop, and its parts are known. -/
theorem Extraction.function_of_mem {extraction : Extraction} {loop : Loop} {outer : List String}
    {record : Capture.Record} {options : Options} {functionName : String} {params : List String}
    {stmts : List Node}
    (h : Node.varStmt .generated [(functionName, .functionOf params stmts loop.span)] ∈
      extraction.replacement loop outer record options) :
    params = extraction.function.params ∧
      stmts = extraction.stmts loop.labelNames options ++ extraction.function.writeBack := by
  simp only [Extraction.replacement, List.mem_append, List.mem_singleton] at h
  rcases h with (((h | h) | h) | h) | h
  · exact absurd h (aliasStmt_ne_function (by simp [Node.form]))
  · exact absurd h (aliasStmt_ne_function (by simp [Node.form, Node.this]))
  · exact absurd h Extraction.hoisted_ne_function
  · simp only [Node.varStmt, List.map_cons, List.map_nil, Node.mk.injEq, List.cons.injEq, and_true,
      true_and] at h
    exact Node.functionOf_inj h.2
  · exact absurd h.symm (Loop.toNode_ne_varStmt _ _ _)

theorem Loop.frame_renameMentioned (loop : Loop) (mentioned : String → Bool) (vars : List String)
    (names : Registry) :
    let renamed := ((loop.renameMentioned mentioned vars).run names).1.2
    renamed.span = loop.span ∧ renamed.head.isPlain = loop.head.isPlain := by
  induction vars generalizing loop names with
  | nil => exact ⟨rfl, rfl⟩
  | cons name vars ih =>
      unfold Loop.renameMentioned
      split
      · obtain ⟨hspan, hplain⟩ := ih (loop.renameHead name (names.rename name).1)
          (names.rename name).2
        refine ⟨hspan, hplain.trans ?_⟩
        cases hhead : loop.head <;> simp [Loop.renameHead, hhead, LoopHead.map, LoopHead.isPlain]
      · exact ih loop names

/-- Where nothing that runs after a write-back puts the variables out of step, they are in
step whenever the function returns and the loop goes on.  The loop is a plain one that
declares no name twice, and its variables are among the names in use. -/
theorem Loop.in_step_when_going_on {loop : Loop} {mentioned : String → Bool} {options : Options}
    {names names' : Registry} {replacement : List Node} {report : Report}
    {outer params : List String} {functionName : String} {stmts : List Node}
    (hplain : loop.head.isPlain = true) (hnodup : loop.decl.names.Nodup)
    (hused : ∀ name ∈ loop.decl.names, name ∈ names.taken)
    (houter : ((loop.renameMentioned mentioned loop.decl.names).run names).1.1 = outer)
    (hlower : (loop.lower mentioned options).Gives names (replacement, report) names')
    (hfunction : .varStmt .generated
      [(functionName, .functionOf params stmts loop.span)] ∈ replacement)
    {pairs : List (String × String)}
    (hpairs : pairs = writtenPairs loop.capture.needsWriteBack (loop.decl.names.zip outer) params)
    {machine : Machine Value World} {known : List String} (hemits : machine.Emits known)
    (hknown : ∀ pair ∈ pairs, pair.1 ∈ known ∧ pair.2 ∈ known)
    (hkeeps : ∀ stmt ∈ stmts, stmt.KeepsStep machine ⟨writeBackOf pairs, options⟩ pairs)
    {s t : Store Value World} {ending : Ending Value}
    (hruns : Runs machine (.stmts stmts) s ending t)
    (hanswer : ending.answer? machine = some (.value machine.undefined)) : t.InStep pairs := by
  obtain ⟨outer', renamed, between, hrename, hcases⟩ := Loop.gives_lower hlower
  have hframe := loop.frame_renameMentioned mentioned loop.decl.names names
  have hnames := loop.outer_renameMentioned mentioned names hnodup hused
  rw [hrename] at houter hframe hnames
  obtain rfl : outer' = outer := houter
  obtain ⟨hspan, hrenamedPlain⟩ := hframe
  obtain ⟨houterNodup, -, houterUsed, -⟩ := hnames
  rcases hcases with ⟨-, hextract⟩ | ⟨-, hflatten⟩
  · obtain ⟨extraction, flattened, drawn, body, hflatten, hparams, -, rfl, -⟩ :=
      Loop.gives_extracted hextract
    rw [← hspan] at hfunction
    obtain ⟨rfl, rfl⟩ := Extraction.function_of_mem hfunction
    have hwritten : (fun name => renamed.head.isPlain && loop.capture.needsWriteBack name) =
        loop.capture.needsWriteBack := by
      funext name
      rw [hrenamedPlain, hplain, Bool.true_and]
    rw [hwritten] at hparams
    have hgrows := grows_flattenStmts (bodyClash loop.capture loop.decl.names) false
      (hoistStmts renamed.body.bodyStmts) between
    rw [hflatten] at hgrows
    have hspec := Extraction.writeBack_spec hparams houterNodup
      (List.Subset.trans houterUsed hgrows)
    rw [← hpairs] at hspec
    obtain ⟨hback, hpairsNodup, happart⟩ := hspec
    rw [Extraction.stmts, hback] at hruns hkeeps
    refine Runs.inStep_function ⟨writeBackOf pairs, options⟩ hemits (Runs.writeBack hemits hknown)
      (Store.inStep_writeBack hpairsNodup happart) (fun stmt hmem => ⟨?_, ?_⟩) hruns hanswer
    · rw [redirectIn_eq_map] at hmem
      obtain ⟨original, -, rfl⟩ := List.mem_map.mp hmem
      exact original.settled_redirect _
    · exact hkeeps stmt (List.mem_append_left _ hmem)
  · obtain ⟨result, rfl⟩ : ∃ result : Loop, replacement = [result.toNode] :=
      ⟨_, (congrArg (fun result => result.1.1) hflatten).symm⟩
    exact absurd (List.mem_singleton.mp hfunction).symm (Loop.toNode_ne_varStmt _ _ _)

/-! ### A finalizer after a write-back -/

/-- The assignment `name = "text"` as a statement. -/
def assignText (name text : String) : Node :=
  .exprStmt (.assignTo name (.stringLit text .generated) .generated)

/-- The loop

    for (let i = first; i; ) {
      saved = () => i;
      try { i = "next"; continue; } finally { name = "late"; }
    }

whose finalizer assigns a variable. -/
def retryLoop (name : String) : Loop where
  labels := []
  span := .generated
  decl := ⟨.lexical false, false, .generated,
    [.declarator false .generated (.binding "i" false .generated .absent)
      (.use "first" .generated)]⟩
  head := .plain (.use "i" .generated) .absent
  body := .block .generated
    [.exprStmt (.assignTo "saved"
      (.mk (.arrow false false) .generated [.list [], .use "i" .generated, .absent]) .generated),
      .mk .tryStmt .generated
        [.block .generated [assignText "i" "next", .mk (.continueStmt none) .generated []],
          .absent, .block .generated [assignText name "late"]]]

/-- The body of its function. -/
def retryStmts (name : String) : List Node :=
  [.exprStmt (.assignTo "saved"
    (.mk (.arrow false false) .generated [.list [], .use "i$1" .generated, .absent]) .generated),
    .mk .tryStmt .generated
      [.block .generated [assignText "i$1" "next",
        .block .generated (writeBackOf [("i", "i$1")] ++ [.returnStmt .absent .generated])],
        .absent, .block .generated [assignText name "late"]]] ++ writeBackOf [("i", "i$1")]

/-- The names of the loop. -/
def retryNames : Registry := ⟨["i", "first", "saved", "last"], []⟩

/-- A machine that calls nothing. -/
def retryMachine : Machine Datum Unit := evaluator "loop" fun _ => none

/-- The store after a round. -/
def retryEnd (name : String) (s : Memory) : Memory :=
  (((s.set "saved" .closure).set "i$1" (.string "next")).writeBack [("i", "i$1")]).set name
    (.string "late")

theorem retryMachine_assignText (name text : String) (s : Memory) :
    Runs retryMachine (.stmt [] (assignText name text)) s .normal (s.set name (.string text)) := by
  have hassign : retryMachine.asks
      [.eval (.assignTo name (.stringLit text .generated) .generated)] s =
      some (.value (.string text), s.set name (.string text)) := by
    rw [Machine.asks_singleton]
    simp [retryMachine, evaluator, Node.assignTo, Node.stringLit, evaluate, Reply.followed]
  exact .expr hassign

theorem retryStmts_runs (name : String) (s : Memory) :
    Runs retryMachine (.stmts (retryStmts name)) s (.returns .undefined) (retryEnd name s) := by
  have hemits : retryMachine.Emits ["i", "i$1"] := evaluator_emits _
  have hsave : retryMachine.asks [.eval (.assignTo "saved" (.mk (.arrow false false) .generated
      [.list [], .use "i$1" .generated, .absent]) .generated)] s =
        some (.value .closure, s.set "saved" .closure) := by
    rw [Machine.asks_singleton]
    simp [retryMachine, evaluator, Node.assignTo, evaluate, Reply.followed]
  refine .cons (.expr hsave) (.stop (.tried (.block (.cons (retryMachine_assignText "i$1" "next" _)
    (.stop (.block (.append_stmts (Runs.writeBack hemits (by simp) _) (.stop ?_ ?_))) ?_)))
    (.passed (Or.inl rfl)) (.block (.cons (retryMachine_assignText name "late" _) .nil))) ?_)
  · exact .returned rfl
  · simp
  · simp
  · simp

/-- The finalizer of the loop runs between the write-back and the return, and nothing else does. -/
theorem retryStmts_keepsStep : ∀ stmt ∈ retryStmts "last",
    stmt.KeepsStep retryMachine ⟨writeBackOf [("i", "i$1")], {}⟩ [("i", "i$1")] := by
  intro stmt hmem
  refine ⟨?_, ?_⟩
  · intro span block handler finalizer hwithin _ u v hin hruns
    have hfinalizer : finalizer = .block .generated [assignText "last" "late"] := by
      simp only [retryStmts, writeBackOf, List.map_cons, List.map_nil, List.cons_append,
        List.nil_append, List.mem_cons, List.not_mem_nil, or_false] at hmem
      rcases hmem with rfl | rfl | rfl
      · simp [Node.within_mk, Node.exprStmt, Node.assignTo, Node.list, Node.absent] at hwithin
      · simp [Node.within_mk, assignText, Node.exprStmt, Node.assignTo, Node.returnStmt,
          Node.absent, Node.stringLit] at hwithin
        exact hwithin.2.2.2
      · simp [Node.within_mk, Node.exprStmt, Node.assignTo, Node.absent] at hwithin
    subst hfinalizer
    have hlate : Runs retryMachine (.stmt [] (.block .generated [assignText "last" "late"]))
        u .normal (u.set "last" (.string "late")) :=
          .block (.cons (retryMachine_assignText "last" "late" u) .nil)
    obtain ⟨-, rfl⟩ := hlate.unique hruns
    simpa [Store.InStep, Store.set] using hin
  · intro isAwait span left right body hwithin
    simp only [retryStmts, writeBackOf, List.map_cons, List.map_nil, List.cons_append,
      List.nil_append, List.mem_cons, List.not_mem_nil, or_false] at hmem
    rcases hmem with rfl | rfl | rfl
    · simp [Node.within_mk, Node.exprStmt, Node.assignTo, Node.list, Node.absent] at hwithin
    · simp [Node.within_mk, assignText, Node.exprStmt, Node.assignTo, Node.returnStmt, Node.absent,
        Node.stringLit] at hwithin
    · simp [Node.within_mk, Node.exprStmt, Node.assignTo, Node.absent] at hwithin

/-- Where the finalizer assigns another variable, the loop sees what the body assigned. -/
theorem retryLoop_in_step : ∃ replacement report names',
    ((retryLoop "last").lower (fun _ => false) {}).Gives retryNames (replacement, report) names' ∧
      .varStmt .generated [("loop", .functionOf ["i$1"] (retryStmts "last") .generated)]
      ∈ replacement ∧
      ∀ s : Memory, ∃ t, Runs retryMachine (.stmts (retryStmts "last")) s (.returns .undefined) t ∧
        t.InStep [("i", "i$1")] := by
  obtain ⟨replacement, report, names', hlower, hfunction⟩ : ∃ replacement report names',
      ((retryLoop "last").lower (fun _ => false) {}).Gives retryNames (replacement, report) names' ∧
        .varStmt .generated [("loop", .functionOf ["i$1"] (retryStmts "last") .generated)] ∈
          replacement := ⟨_, _, _, rfl, List.mem_cons_self⟩
  have hplain : (retryLoop "last").head.isPlain = true := rfl
  have hnodup : (retryLoop "last").decl.names.Nodup := by decide
  have hused : ∀ name ∈ (retryLoop "last").decl.names, name ∈ retryNames.taken := by decide
  have houter : (((retryLoop "last").renameMentioned (fun _ => false)
      (retryLoop "last").decl.names).run retryNames).1.1 = ["i"] := rfl
  have hpairs : [("i", "i$1")] = writtenPairs (retryLoop "last").capture.needsWriteBack
      ((retryLoop "last").decl.names.zip ["i"]) ["i$1"] := by decide +kernel
  refine ⟨replacement, report, names', hlower, hfunction, fun s =>
    ⟨_, retryStmts_runs "last" s, ?_⟩⟩
  exact Loop.in_step_when_going_on hplain hnodup hused houter hlower hfunction hpairs
    (evaluator_emits ["i", "i$1"]) (by simp) retryStmts_keepsStep (retryStmts_runs "last" s) rfl

/-- Where the finalizer assigns the loop variable, the loop does not see it: the write-back
came before. -/
theorem retryLoop_out_of_step : ∃ replacement report names',
    ((retryLoop "i").lower (fun _ => false) {}).Gives retryNames (replacement, report) names' ∧
      (retryLoop "i").capture.needsWriteBack "i" = true ∧
      .varStmt .generated [("loop", .functionOf ["i$1"] (retryStmts "i$1") .generated)]
      ∈ replacement ∧
      ∀ s : Memory, ∃ t, Runs retryMachine (.stmts (retryStmts "i$1")) s (.returns .undefined) t ∧
        t.vars "i" = .string "next" ∧ t.vars "i$1" = .string "late" := by
  refine ⟨_, _, _, rfl, by decide +kernel, List.mem_cons_self,
    fun s => ⟨_, retryStmts_runs "i$1" s, ?_, ?_⟩⟩
  · simp [retryEnd, Store.writeBack, Store.set]
  · simp [retryEnd]

end LoopLowering
