/-
The statements that take the place of a loop.

A loop that is lowered is one loop less.  If its body became a function it is one function
more, and the loops in the body are inside that function from then on.  Everything else in
the loop keeps its landmarks, and what is put in the loop's place is made of well-formed
statements.

`Loop.gives_lower` and `Loop.gives_extracted` say once what a successful lowering did; the
rest follows the loop through these steps.
-/
import LoopLowering.Proofs.Flatten
import LoopLowering.Proofs.Hoist
import LoopLowering.Proofs.Redirect
import LoopLowering.Proofs.Results

namespace LoopLowering

/-! ### What a lowering did -/

/-- What is chosen when the body of a loop becomes a function. -/
structure Extraction where
  /-- The parameters, the write-backs and the body before `this` and the jumps are replaced. -/
  function : LoopFunction
  arguments? : Option String
  this? : Option String
  sites : JumpSites
  functionName : String
  resultName : String

namespace Extraction

/-- The body of the function, but for the write-backs at its end. -/
def stmts (extraction : Extraction) (labels : List String) (options : Options) : List Node :=
  redirectIn ⟨extraction.function.writeBack, options⟩ (.top labels)
    (useAliasesIn ⟨extraction.this?, extraction.arguments?⟩ extraction.function.stmts)

/-- The function the body becomes. -/
def functionExpr (extraction : Extraction) (loop : Loop) (options : Options) : Node :=
  .functionOf extraction.function.params
    (extraction.stmts loop.labelNames options ++ extraction.function.writeBack) loop.span

/-- The statement that runs one iteration. -/
def body (extraction : Extraction) (outer : List String) (options : Options) : Node :=
  extraction.sites.dispatch (.callOf extraction.functionName outer .generated)
    extraction.resultName options

/-- The declaration in front of the loop of the variables its body declared. -/
def hoisted (record : Capture.Record) : List Node :=
  if record.bodyVars.isEmpty then []
  else [.varStmt .generated (record.bodyVars.map (·, .absent))]

/-- What takes the place of the loop. -/
def replacement (extraction : Extraction) (loop : Loop) (outer : List String)
    (record : Capture.Record) (options : Options) : List Node :=
  aliasStmt extraction.arguments? (.use "arguments" .generated) ++
    aliasStmt extraction.this? (.this .generated) ++ hoisted record ++
    [.varStmt .generated [(extraction.functionName, extraction.functionExpr loop options)]] ++
    [{ loop.withVarHead with body := extraction.body outer options }.toNode]

end Extraction

/-- The body of a loop becomes a function: its declarations are hoisted and flattened, its
parameters and aliases are named, its jumps are redirected, and the function is named. -/
inductive Loop.ExtractsTo (loop : Loop) (loopVars outer : List String) (record : Capture.Record)
    (options : Options) (names : Registry) : Extraction → Registry → Prop
  | intro {extraction : Extraction} {stmts : List Node}
      {flattened drawn withArguments withThis named names' : Registry}
      (hrefusal : extractionRefusal? record loop.span = none)
      (hflatten : (flattenStmts (bodyClash record loopVars) false
        (hoistStmts loop.body.bodyStmts)).run names = (stmts, flattened))
      (hparams : (chooseParams (fun name => loop.head.isPlain && record.needsWriteBack name)
        (loopVars.zip outer) stmts).run flattened = (extraction.function, drawn))
      (harguments : (aliasFor record.argumentsCaptured "arguments").run drawn =
        (extraction.arguments?, withArguments))
      (hthis : (aliasFor record.thisCaptured "this").run withArguments =
        (extraction.this?, withThis))
      (hsites : (redirectJumps ⟨extraction.function.writeBack, options⟩ loop.labelNames loop.span
        (useAliasesIn ⟨extraction.this?, extraction.arguments?⟩ extraction.function.stmts)).2 =
          .ok extraction.sites)
      (hfunction : (Naming.fresh options.functionName).run withThis =
        (extraction.functionName, named))
      (hresult : (if extraction.sites.needDispatch then Naming.fresh options.resultName
        else pure "").run named = (extraction.resultName, names')) :
      ExtractsTo loop loopVars outer record options names extraction names'

/-- The body of a loop becomes a function in one way only. -/
theorem Loop.extractsTo_of_gives {loop : Loop} {loopVars outer : List String}
    {record : Capture.Record} {options : Options} {names names' : Registry}
    {replacement : List Node} {report : Report}
    (h : (loop.extracted loopVars outer record options).Gives names (replacement, report) names') :
    ∃ extraction : Extraction,
      loop.ExtractsTo loopVars outer record options names extraction names' ∧
        replacement = extraction.replacement loop outer record options ∧
        report = ⟨loop.span, .extracted extraction.functionName, record⟩ := by
  unfold Loop.extracted at h
  cases hrefusal : extractionRefusal? record loop.span with
  | some refusal => simp [hrefusal] at h
  | none =>
      simp only [hrefusal, Lowering.gives_bind, Lowering.gives_liftM] at h
      obtain ⟨stmts, flattened, hflatten, function, drawn, hparams, arguments?, withArguments,
        harguments, this?, withThis, hthis, sites, _, hsites, functionName, named, hfunction, h⟩ :=
          h
      obtain ⟨hjumps, rfl⟩ := Lowering.gives_ofExcept.mp hsites
      have hresult : ∃ resultName, (if sites.needDispatch then Naming.fresh options.resultName
          else pure "").run named = (resultName, names') ∧ (replacement, report) =
          (Extraction.replacement ⟨function, arguments?, this?, sites, functionName, resultName⟩
            loop outer record options, ⟨loop.span, .extracted functionName, record⟩) := by
        split at h
        · simp only [Lowering.gives_bind, Lowering.gives_liftM] at h
          obtain ⟨resultName, _, hdrawn, h⟩ := h
          obtain ⟨heq, rfl⟩ := Lowering.gives_pure.mp h
          exact ⟨resultName, by rw [if_pos ‹_›]; exact hdrawn, heq.symm⟩
        · simp only [Lowering.gives_bind, Lowering.gives_pure] at h
          obtain ⟨resultName, _, ⟨rfl, rfl⟩, heq, rfl⟩ := h
          exact ⟨"", by rw [if_neg ‹_›]; rfl, heq.symm⟩
      obtain ⟨resultName, hresult, heq⟩ := hresult
      rw [Prod.mk.injEq] at heq
      exact ⟨⟨function, arguments?, this?, sites, functionName, resultName⟩,
        .intro hrefusal hflatten hparams harguments hthis hjumps hfunction hresult, heq⟩

/-- What is known of an extraction without its names. -/
theorem Loop.gives_extracted {loop : Loop} {loopVars outer : List String} {record : Capture.Record}
    {options : Options} {names names' : Registry} {replacement : List Node} {report : Report}
    (h : (loop.extracted loopVars outer record options).Gives names (replacement, report) names') :
    ∃ extraction : Extraction, ∃ flattened drawn : Registry,
      ∃ stmts, (flattenStmts (bodyClash record loopVars) false
          (hoistStmts loop.body.bodyStmts)).run names = (stmts, flattened) ∧
        (chooseParams (fun name => loop.head.isPlain && record.needsWriteBack name)
          (loopVars.zip outer) stmts).run flattened = (extraction.function, drawn) ∧
        (redirectJumps ⟨extraction.function.writeBack, options⟩ loop.labelNames loop.span
          (useAliasesIn ⟨extraction.this?, extraction.arguments?⟩ extraction.function.stmts)).2 =
            .ok extraction.sites ∧
        replacement = extraction.replacement loop outer record options ∧
        report = ⟨loop.span, .extracted extraction.functionName, record⟩ := by
  obtain ⟨extraction, ⟨-, hflatten, hparams, -, -, hsites, -, -⟩, hresult⟩ :=
    Loop.extractsTo_of_gives h
  exact ⟨extraction, _, _, _, hflatten, hparams, hsites, hresult⟩

/-- A loop is flattened in one way only. -/
theorem Loop.run_flattened {loop : Loop} {loopVars outer : List String} {record : Capture.Record}
    {mentioned : String → Bool} {names names' : Registry} {replacement : List Node}
    {report : Report} (h : (loop.flattened loopVars outer record mentioned).run names =
      ((replacement, report), names')) :
    ∃ body, ((renameAll (loopVars.zip outer) loop.body).flatten fun name =>
        bodyClash record loopVars name || mentioned name).run names = (body, names') ∧
      replacement = [{ loop.withVarHead with body }.toNode] ∧
      report = ⟨loop.span, .flattened, record⟩ := by
  unfold Loop.flattened at h
  rw [Naming.run_bind, Naming.run_pure, Prod.mk.injEq, Prod.mk.injEq] at h
  obtain ⟨⟨rfl, rfl⟩, rfl⟩ := h
  exact ⟨_, rfl, rfl, rfl⟩

/-- A loop is lowered after its variables got names that are not mentioned elsewhere: in
place, or by making a function of its body. -/
theorem Loop.gives_lower {loop : Loop} {mentioned : String → Bool} {options : Options}
    {names names' : Registry} {replacement : List Node} {report : Report}
    (h : (loop.lower mentioned options).Gives names (replacement, report) names') :
    ∃ outer renamed between,
      (loop.renameMentioned mentioned loop.decl.names).run names = ((outer, renamed), between) ∧
      (loop.capture.needsExtraction = true ∧
          (renamed.extracted loop.decl.names outer loop.capture options).Gives between
            (replacement, report) names' ∨
        loop.capture.needsExtraction = false ∧
          (renamed.flattened loop.decl.names outer loop.capture mentioned).run between =
            ((replacement, report), names')) := by
  unfold Loop.lower at h
  split at h
  · simp at h
  · simp only at h
    split at h
    · simp at h
    · simp only [Lowering.gives_bind, Lowering.gives_liftM] at h
      obtain ⟨⟨outer, renamed⟩, between, hrename, h⟩ := h
      refine ⟨outer, renamed, between, hrename, ?_⟩
      split at h
      · next hextract => exact Or.inl ⟨hextract, h⟩
      · next hextract => exact Or.inr ⟨Bool.not_eq_true _ ▸ hextract, Lowering.gives_liftM.mp h⟩

/-! ### A loop and its parts -/

/-- The landmark of a block-scoped loop. -/
def Landmark.loop (span : Span) : Landmark := ⟨false, false, some span⟩

/-- The form of a loop with this head. -/
def LoopHead.form : LoopHead → Form
  | plain _ _ => .forStmt
  | keys _ => .forInStmt
  | values isAwait _ => .forOfStmt isAwait

/-- What the expressions of the head can be. -/
def LoopHead.slot : LoopHead → Slot
  | plain _ _ => .optional Category.exprs
  | _ => .one Category.exprs

@[simp] theorem LoopHead.slot_map (f : Node → Node) (head : LoopHead) :
    (head.map f).slot = head.slot := by
  cases head <;> rfl

@[simp] theorem LoopHead.exprs_map (f : Node → Node) (head : LoopHead) :
    (head.map f).exprs = head.exprs.map f := by
  cases head <;> rfl

theorem Loop.toUnlabeled_eq (loop : Loop) :
    loop.toUnlabeled =
      .mk loop.head.form loop.span (loop.decl.toNode :: (loop.head.exprs ++ [loop.body])) := by
  obtain ⟨labels, span, decl, head, body⟩ := loop
  cases head <;> rfl

/-- The parts of a loop can stand where they do. -/
structure Loop.WellFormed (loop : Loop) : Prop where
  decl : loop.decl.toNode.isWellFormed = true
  exprs : ∀ expr ∈ loop.head.exprs, loop.head.slot.admits expr = true ∧ expr.isWellFormed = true
  body : loop.body.IsStmt

namespace Loop.WellFormed

theorem withBody {loop : Loop} (h : loop.WellFormed) {body : Node} (hbody : body.IsStmt) :
    Loop.WellFormed { loop with body } :=
  ⟨h.decl, h.exprs, hbody⟩

theorem withVarHead {loop : Loop} (h : loop.WellFormed) : loop.withVarHead.WellFormed := by
  refine ⟨?_, h.exprs, h.body⟩
  obtain ⟨hshape, hparts⟩ := Node.isWellFormed_mk.mp h.decl
  exact Node.isWellFormed_mk.mpr ⟨Or.inr (hshape.resolve_left (by simp)), hparts⟩

theorem isStmt_toUnlabeled {loop : Loop} (h : loop.WellFormed) : loop.toUnlabeled.IsStmt := by
  obtain ⟨labels, span, decl, head, body⟩ := loop
  have hslots : ∀ expr ∈ head.exprs, head.slot.admits expr = true :=
    fun expr hexpr => (h.exprs expr hexpr).1
  have hbody : (Slot.one Category.stmts).admits body = true := (Node.isStmt_iff.mp h.body).1
  rw [Loop.toUnlabeled_eq]
  refine Node.isStmt_iff.mpr ⟨by cases head <;> rfl, Node.isWellFormed_mk.mpr ⟨Or.inr ?_, ?_⟩⟩
  · cases head with
    | plain test update =>
        have htest := hslots test (by simp [LoopHead.exprs])
        have hupdate := hslots update (by simp [LoopHead.exprs])
        simp only [LoopHead.slot] at htest hupdate
        simp only [LoopHead.form, LoopHead.exprs, Form.shape, Shape.admits, List.cons_append,
          List.nil_append, fillSlots, htest, hupdate, hbody, Bool.and_true]
        rfl
    | keys right | values isAwait right =>
        have hright := hslots right (by simp [LoopHead.exprs])
        simp only [LoopHead.slot] at hright
        simp only [LoopHead.form, LoopHead.exprs, Form.shape, Shape.admits, List.cons_append,
          List.nil_append, fillSlots, hright, hbody, Bool.and_true]
        rfl
  · intro part hmem
    rcases List.mem_cons.mp hmem with rfl | hmem
    · exact h.decl
    rcases List.mem_append.mp hmem with hmem | hmem
    · exact (h.exprs part hmem).2
    · rw [List.mem_singleton.mp hmem]
      exact h.body.2

/-- A well-formed loop is a statement, under whatever labels. -/
theorem isStmt_toNode {loop : Loop} (h : loop.WellFormed) : loop.toNode.IsStmt := by
  unfold Loop.toNode
  induction loop.labels with
  | nil => exact h.isStmt_toUnlabeled
  | cons label labels ih =>
      obtain ⟨hstmt, hwf⟩ := Node.isStmt_iff.mp ih
      refine Node.isStmt_iff.mpr ⟨rfl, Node.isWellFormed_mk.mpr ⟨Or.inr ?_, by simpa using hwf⟩⟩
      simp only [Form.shape, Shape.admits, fillSlots, hstmt, Bool.and_true]

end Loop.WellFormed

/-- A statement that is well formed is a well-formed loop if it is one at all. -/
theorem Loop.wellFormed_of_ofNode? {stmt : Node} {loop : Loop} (h : Loop.ofNode? stmt = some loop)
    (hwf : stmt.isWellFormed = true) : loop.WellFormed := by
  fun_induction Loop.ofNode? stmt generalizing loop with
  | case1 label span body ih =>
      obtain ⟨inner, hinner, rfl⟩ := Option.map_eq_some_iff.mp h
      have hloop := ih hinner (Node.isWellFormed_part hwf (by simp))
      exact ⟨hloop.decl, hloop.exprs, hloop.body⟩
  | case2 span constant declare declSpan ds test update body =>
      cases h
      obtain ⟨hshape, hparts⟩ := Node.isWellFormed_mk.mp hwf
      have hfill := hshape.resolve_left (by simp)
      simp only [Form.shape, Shape.admits, fillSlots, Bool.and_eq_true, Bool.and_true] at hfill
      obtain ⟨-, htest, hupdate, hbody⟩ := hfill
      refine ⟨hparts _ List.mem_cons_self, ?_, Node.isStmt_iff.mpr ⟨hbody, hparts _ (by simp)⟩⟩
      simp only [LoopHead.exprs, List.mem_cons, List.not_mem_nil, or_false, forall_eq_or_imp,
        forall_eq]
      exact ⟨⟨htest, hparts _ (by simp)⟩, hupdate, hparts _ (by simp)⟩
  | case3 span constant declare declSpan ds right body
  | case4 isAwait span constant declare declSpan ds right body =>
      cases h
      obtain ⟨hshape, hparts⟩ := Node.isWellFormed_mk.mp hwf
      have hfill := hshape.resolve_left (by simp)
      simp only [Form.shape, Shape.admits, fillSlots, Bool.and_eq_true, Bool.and_true] at hfill
      obtain ⟨-, hright, hbody⟩ := hfill
      refine ⟨hparts _ List.mem_cons_self, ?_, Node.isStmt_iff.mpr ⟨hbody, hparts _ (by simp)⟩⟩
      simp only [LoopHead.exprs, List.mem_cons, List.not_mem_nil, or_false, forall_eq]
      exact ⟨hright, hparts _ (by simp)⟩
  | case5 => cases h

/-! ### The weight of a loop -/

/-- The weight of the head of a loop. -/
def Loop.headTally (loop : Loop) (gauge : Gauge) : Nat :=
  tallyIn gauge loop.decl.declarators + tallyIn gauge loop.head.exprs

theorem Loop.tallyIn_parts (loop : Loop) (gauge : Gauge) :
    tallyIn gauge (loop.decl.toNode :: (loop.head.exprs ++ [loop.body])) =
      loop.headTally gauge + loop.body.tally gauge := by
  have hdecl : loop.decl.toNode.tally gauge = tallyIn gauge loop.decl.declarators :=
    Node.tally_mk rfl _ _ _
  rw [tallyIn_cons, tallyIn_append, tallyIn_cons, tallyIn_nil, hdecl, Loop.headTally]
  omega

/-- A statement that is a loop weighs as much as the loop and its parts. -/
theorem Loop.tally_of_ofNode? {stmt : Node} {loop : Loop} (h : Loop.ofNode? stmt = some loop)
    {gauge : Gauge} (hstop : ∀ span, gauge.stop (.loop span) = false) :
    stmt.tally gauge =
      gauge.weight (.loop loop.span) + (loop.headTally gauge + loop.body.tally gauge) := by
  fun_induction Loop.ofNode? stmt generalizing loop with
  | case1 label span body ih =>
      obtain ⟨inner, hinner, rfl⟩ := Option.map_eq_some_iff.mp h
      rw [Node.tally_mk rfl, tallyIn_cons, tallyIn_nil, Nat.add_zero, ih hinner]
      rfl
  | case2 | case3 | case4 =>
      cases h
      rw [Node.tally_of_not_stop (hstop _), ← Loop.tallyIn_parts]
      rfl
  | case5 => cases h

/-- A loop over a `var` weighs as much as its parts. -/
theorem Loop.tally_withVarHead (loop : Loop) (gauge : Gauge) :
    loop.withVarHead.toNode.tally gauge = loop.headTally gauge + loop.body.tally gauge := by
  unfold Loop.toNode
  induction loop.withVarHead.labels with
  | nil =>
      rw [List.foldr_nil, Loop.toUnlabeled_eq, Node.tally_of_plain, ← Loop.tallyIn_parts]
      · rfl
      · obtain ⟨labels, span, decl, head, body⟩ := loop
        cases head <;> rfl
  | cons label labels ih =>
      rw [List.foldr_cons, Node.tally_mk rfl, tallyIn_cons, tallyIn_nil, Nat.add_zero, ih]

/-! ### Renaming loop variables -/

/-- `b` is the loop `a` with its variables renamed in the head. -/
structure Loop.Renamed (a b : Loop) : Prop where
  labels : b.labels = a.labels
  span : b.span = a.span
  body : b.body = a.body
  isPlain : b.head.isPlain = a.head.isPlain
  wellFormed : b.WellFormed
  headTally : ∀ gauge : Gauge, b.headTally gauge = a.headTally gauge

theorem Loop.Renamed.refl {loop : Loop} (h : loop.WellFormed) : loop.Renamed loop :=
  ⟨rfl, rfl, rfl, rfl, h, fun _ => rfl⟩

theorem Loop.Renamed.trans {a b c : Loop} (hab : a.Renamed b) (hbc : b.Renamed c) : a.Renamed c :=
  ⟨hbc.labels.trans hab.labels, hbc.span.trans hab.span, hbc.body.trans hab.body,
    hbc.isPlain.trans hab.isPlain, hbc.wellFormed,
    fun gauge => (hbc.headTally gauge).trans (hab.headTally gauge)⟩

theorem Loop.Renamed.renameHead (old new : String) {loop : Loop} (h : loop.WellFormed) :
    loop.Renamed (loop.renameHead old new) := by
  have hdecl : ∀ d ∈ loop.decl.declarators, d.isWellFormed = true :=
    (Node.isWellFormed_mk.mp h.decl).2
  have hds := forall₂_stands_rename old new hdecl
  have hexprs := forall₂_stands_rename old new fun expr hexpr => (h.exprs expr hexpr).2
  have hisPlain : (loop.head.map (·.rename old new)).isPlain = loop.head.isPlain := by
    cases loop.head <;> rfl
  refine ⟨rfl, rfl, rfl, hisPlain, ⟨?_, ?_, h.body⟩, fun gauge => ?_⟩
  · exact (Node.Stands.node h.decl hds).wellFormed
  · intro expr hexpr
    simp only [Loop.renameHead, LoopHead.exprs_map, LoopHead.slot_map, List.mem_map] at hexpr ⊢
    obtain ⟨e, he, rfl⟩ := hexpr
    have hstands := Node.Stands.rename old new (h.exprs e he).2
    have hslot : loop.head.slot ∈ loop.head.form.shape.slots := by
      cases loop.head <;> simp [LoopHead.slot, LoopHead.form, Form.shape, Shape.slots]
    exact ⟨hstands.slot _ rfl _ hslot (h.exprs e he).1, hstands.wellFormed⟩
  · simp only [Loop.headTally, Loop.renameHead, LoopHead.exprs_map]
    rw [Node.Fits.tallyIn_of_forall₂ (hds.imp fun _ _ hs => hs.toFits),
      Node.Fits.tallyIn_of_forall₂ (hexprs.imp fun _ _ hs => hs.toFits)]

theorem Loop.Renamed.renameMentioned (mentioned : String → Bool) (vars : List String) {loop : Loop}
    (h : loop.WellFormed) (names : Registry) :
    loop.Renamed ((loop.renameMentioned mentioned vars).run names).1.2 := by
  induction vars generalizing loop names with
  | nil => exact .refl h
  | cons name vars ih =>
      unfold Loop.renameMentioned
      split
      · have hfirst := Loop.Renamed.renameHead name ((Naming.rename name).run names).1 h
        exact hfirst.trans (ih hfirst.wellFormed _)
      · exact ih h names

/-! ### The function of a loop -/

theorem Node.isStmt_bodyStmts {body : Node} (h : body.IsStmt) :
    ∀ stmt ∈ body.bodyStmts, stmt.IsStmt := by
  intro stmt hmem
  unfold Node.bodyStmts at hmem
  split at hmem
  · have hparts := Node.isWellFormed_mk.mp h.2
    have hadmits := List.all_eq_true.mp (hparts.1.resolve_left (by simp)) stmt hmem
    exact Node.isStmt_iff.mpr ⟨hadmits, hparts.2 stmt hmem⟩
  · rw [List.mem_singleton.mp hmem]
    exact h

theorem Node.tallyIn_bodyStmts (body : Node) (gauge : Gauge) :
    tallyIn gauge body.bodyStmts = body.tally gauge := by
  unfold Node.bodyStmts
  split
  · rw [Node.tally_block]
  · rw [tallyIn_cons, tallyIn_nil, Nat.add_zero]

theorem Node.isStmt_of_forall₂_fits {stmts stmts' : List Node}
    (h : List.Forall₂ Node.Fits stmts stmts') (hstmts : ∀ stmt ∈ stmts, stmt.IsStmt) :
    ∀ stmt ∈ stmts', stmt.IsStmt := by
  induction h with
  | nil => simp
  | cons hhead _ ih =>
      rw [List.forall_mem_cons] at hstmts ⊢
      have hslot := hhead.slot .withStmt rfl _ (by simp [Form.shape, Shape.slots])
        (Node.isStmt_iff.mp hstmts.1).1
      exact ⟨Node.isStmt_iff.mpr ⟨hslot, hhead.wellFormed⟩, ih hstmts.2⟩

/-- Choosing parameters renames them in the body, and every write-back is an assignment. -/
theorem chooseParams_fits (writtenBack : String → Bool) (vars : List (String × String))
    {stmts : List Node} (hwf : ∀ stmt ∈ stmts, stmt.isWellFormed = true) (names : Registry) :
    List.Forall₂ Node.Fits stmts ((chooseParams writtenBack vars stmts).run names).1.stmts ∧
      ∀ stmt ∈ ((chooseParams writtenBack vars stmts).run names).1.writeBack, stmt.IsPlainStmt := by
  induction vars generalizing stmts names with
  | nil =>
      exact ⟨List.forall₂_same.mpr fun stmt hmem => Node.Fits.refl (hwf stmt hmem),
        fun stmt hmem => absurd hmem List.not_mem_nil⟩
  | cons var vars ih =>
      obtain ⟨name, outer⟩ := var
      unfold chooseParams
      split
      · have hrename := (forall₂_stands_rename name ((Naming.fresh name).run names).1 hwf).imp
          fun _ _ hs => hs.toFits
        obtain ⟨hstmts, hback⟩ := ih (Node.Fits.wellFormed_of_forall₂ hrename)
          ((Naming.fresh name).run names).2
        refine ⟨Node.Fits.forall₂_trans hrename hstmts, List.forall_mem_cons.mpr ⟨?_, hback⟩⟩
        exact ⟨Node.isStmt_exprStmt (Node.isExpr_assignTo (Node.isExpr_use _) _),
          fun gauge => by simp⟩
      · exact ih hwf names

/-- The statement that runs one iteration declares nothing but a result. -/
theorem JumpSites.isPlainStmt_dispatch (sites : JumpSites) {call : Node} (hcall : call.IsExpr)
    (htally : ∀ gauge : Gauge, call.tally gauge = 0) (resultName : String) (options : Options) :
    (sites.dispatch call resultName options).IsPlainStmt := by
  have huse : (Node.use resultName .generated).IsExpr := Node.isExpr_use _
  unfold JumpSites.dispatch
  split
  · exact ⟨Node.isStmt_exprStmt hcall, fun gauge => by simp [htally]⟩
  · have hvar : (Node.varStmt .generated [(resultName, call)]).IsStmt :=
      Node.isStmt_varStmt (by simpa using Or.inr hcall)
    have hsentinel : (Node.stringLit options.breakSentinel .generated).IsExpr :=
      Node.isExpr_stringLit _
    have htest : (Node.strictEq (.use resultName .generated)
        (.stringLit options.breakSentinel .generated) .generated).IsExpr :=
      Node.isExpr_strictEq huse hsentinel
    have hleave : (Node.ifStmt _ (.breakStmt .generated) .generated).IsStmt :=
      Node.isStmt_ifStmt htest Node.isStmt_breakStmt
    have hmember : (Node.memberOf _ options.returnKey .generated).IsExpr :=
      Node.isExpr_memberOf huse options.returnKey
    have hreturn : (Node.ifStmt _ (.returnStmt _ .generated) .generated).IsStmt :=
      Node.isStmt_ifStmt huse (Node.isStmt_returnStmt hmember.optional_admits hmember.wellFormed)
    refine ⟨Node.isStmt_block fun stmt hmem => ?_, fun gauge => ?_⟩
    · simp only [List.mem_append, List.mem_singleton] at hmem
      rcases hmem with (rfl | hmem) | hmem
      · exact hvar
      · split at hmem
        · rw [List.mem_singleton.mp hmem]
          exact hleave
        · exact absurd hmem List.not_mem_nil
      · split at hmem
        · rw [List.mem_singleton.mp hmem]
          exact hreturn
        · exact absurd hmem List.not_mem_nil
    · rw [Node.tally_block]
      cases sites.leaves <;> cases sites.returns <;> simp [htally]

/-- Once the declarations of a body are taken out, making a function of it keeps its loops, and
they are the function's. -/
theorem Extraction.stmts_spec {extraction : Extraction} {clashes writtenBack : String → Bool}
    {vars : List (String × String)} {body : Node} (hbody : body.IsStmt)
    {stmts : List Node} {names flattened drawn : Registry}
    (hflatten : (flattenStmts clashes false (hoistStmts body.bodyStmts)).run names =
      (stmts, flattened))
    (hparams : (chooseParams writtenBack vars stmts).run flattened = (extraction.function, drawn))
    (labels : List String) (options : Options) :
    (∀ stmt ∈ extraction.stmts labels options ++ extraction.function.writeBack, stmt.IsStmt) ∧
      ∀ gauge : Gauge,
        tallyIn gauge (extraction.stmts labels options ++ extraction.function.writeBack) =
          tallyIn gauge (hoistStmts body.bodyStmts) := by
  obtain ⟨hhoisted, -⟩ := hoistStmts_spec (Node.isStmt_bodyStmts hbody)
  have hflat := forall₂_fits_flattenStmts clashes false
      (fun stmt hmem => (hhoisted stmt hmem).2) names
  rw [hflatten] at hflat
  obtain ⟨hfunction, hback⟩ := chooseParams_fits writtenBack vars
    (Node.Fits.wellFormed_of_forall₂ hflat) flattened
  rw [hparams] at hfunction hback
  have haliases := (forall₂_stands_useAliasesIn ⟨extraction.this?, extraction.arguments?⟩
    (Node.Fits.wellFormed_of_forall₂ hfunction)).imp fun _ _ hs => hs.toFits
  have hredirect : List.Forall₂ Node.Fits _ (extraction.stmts labels options) :=
    (forall₂_stands_redirectIn hback (.top labels)
      (Node.Fits.wellFormed_of_forall₂ haliases)).imp fun _ _ hs => hs.toFits
  have hall := Node.Fits.forall₂_trans hflat (Node.Fits.forall₂_trans hfunction
    (Node.Fits.forall₂_trans haliases hredirect))
  refine ⟨fun stmt hmem => ?_, fun gauge => ?_⟩
  · rcases List.mem_append.mp hmem with hmem | hmem
    · exact Node.isStmt_of_forall₂_fits hall hhoisted stmt hmem
    · exact (hback stmt hmem).stmt
  · have hbackTally : tallyIn gauge extraction.function.writeBack = 0 :=
      tallyIn_eq_zero fun stmt hmem => (hback stmt hmem).tally gauge
    rw [tallyIn_append, hbackTally, Nat.add_zero]
    exact Node.Fits.tallyIn_of_forall₂ hall gauge

/-! ### What takes the place of a loop -/

/-- Statements that can stand for a loop: one loop less than there was, or, if there is a
function more, no fewer loops but inside the function. -/
structure Node.ReplacedBy (stmt : Node) (replacement : List Node) : Prop where
  stmts : ∀ stmt ∈ replacement, stmt.IsStmt
  tally : ∀ gauge : Gauge, (∀ span, gauge.stop (.loop span) = false) →
    ∃ span, tallyIn gauge replacement + gauge.weight (.loop span) ≤
      stmt.tally gauge + if gauge.stop .function then 0 else gauge.weight .function

theorem isPlainStmt_aliasStmt (alias? : Option String) {value : Node} (hvalue : value.IsExpr)
    (htally : ∀ gauge : Gauge, value.tally gauge = 0) :
    ∀ stmt ∈ aliasStmt alias? value, stmt.IsPlainStmt := by
  intro stmt hmem
  unfold aliasStmt at hmem
  split at hmem
  · rw [List.mem_singleton.mp hmem]
    exact ⟨Node.isStmt_varStmt (by simpa using Or.inr hvalue), fun gauge => by simp [htally]⟩
  · exact absurd hmem List.not_mem_nil

theorem Extraction.isPlainStmt_hoisted (record : Capture.Record) :
    ∀ stmt ∈ Extraction.hoisted record, stmt.IsPlainStmt := by
  intro stmt hmem
  unfold Extraction.hoisted at hmem
  split at hmem
  · exact absurd hmem List.not_mem_nil
  · rw [List.mem_singleton.mp hmem]
    refine ⟨Node.isStmt_varStmt fun declarator hmem => ?_, fun gauge => ?_⟩
    · obtain ⟨name, -, rfl⟩ := List.mem_map.mp hmem
      exact Or.inl rfl
    · rw [Node.tally_varStmt]
      refine tallyIn_eq_zero fun node hnode => ?_
      simp only [List.map_map, List.mem_map, Function.comp_apply] at hnode
      obtain ⟨name, -, rfl⟩ := hnode
      exact Node.tally_absent gauge

/-- A loop that is flattened becomes a single statement, its landmarks those of its parts. -/
theorem Loop.flattened_spec {loop : Loop} (h : loop.WellFormed) (loopVars outer : List String)
    (record : Capture.Record) (mentioned : String → Bool) (names : Registry) :
    ∃ stmt report, ((loop.flattened loopVars outer record mentioned).run names).1 =
      ([stmt], report) ∧
      stmt.IsStmt ∧
      ∀ gauge : Gauge, stmt.tally gauge = loop.headTally gauge + loop.body.tally gauge := by
  have hrename := Node.Stands.renameAll (loopVars.zip outer) h.body.2
  have hflatten := Node.Stands.flatten
    (fun name => bodyClash record loopVars name || mentioned name) hrename.wellFormed names
  have hbody := hrename.trans hflatten
  have hstmt := Node.isStmt_of_forall₂_fits (.cons hbody.toFits .nil) (by simpa using h.body) _
    List.mem_cons_self
  refine ⟨_, _, rfl, (h.withVarHead.withBody hstmt).isStmt_toNode, fun gauge => ?_⟩
  rw [← hbody.tally gauge]
  exact Loop.tally_withVarHead { loop with
    body := (((renameAll (loopVars.zip outer) loop.body).flatten
      fun name => bodyClash record loopVars name || mentioned name).run names).1 } gauge

/-- The statements for a loop whose body became a function. -/
theorem Extraction.replacement_spec {extraction : Extraction} {loop : Loop} (h : loop.WellFormed)
    {options : Options}
    (hstmts : ∀ stmt ∈ extraction.stmts loop.labelNames options ++ extraction.function.writeBack,
      stmt.IsStmt)
    (outer : List String) (record : Capture.Record) :
    (∀ stmt ∈ extraction.replacement loop outer record options, stmt.IsStmt) ∧
      ∀ gauge : Gauge, tallyIn gauge (extraction.replacement loop outer record options) =
        loop.headTally gauge + if gauge.stop .function then 0 else gauge.weight .function +
          tallyIn gauge (extraction.stmts loop.labelNames options ++
            extraction.function.writeBack) := by
  have harguments : ∀ stmt ∈ aliasStmt extraction.arguments? (.use "arguments" .generated),
      stmt.IsPlainStmt := isPlainStmt_aliasStmt _ (Node.isExpr_use _) (by simp)
  have hthis : ∀ stmt ∈ aliasStmt extraction.this? (.this .generated), stmt.IsPlainStmt :=
    isPlainStmt_aliasStmt _ Node.isExpr_this (by simp)
  have hhoisted := Extraction.isPlainStmt_hoisted record
  have hfunction : (extraction.functionExpr loop options).IsExpr := Node.isExpr_functionOf hstmts _
  have hbody : (extraction.body outer options).IsPlainStmt :=
    JumpSites.isPlainStmt_dispatch _ (Node.isExpr_callOf _ _) (by simp) _ _
  refine ⟨fun stmt hmem => ?_, fun gauge => ?_⟩
  · simp only [Extraction.replacement, List.mem_append, List.mem_singleton] at hmem
    rcases hmem with (((hmem | hmem) | hmem) | rfl) | rfl
    · exact (harguments stmt hmem).stmt
    · exact (hthis stmt hmem).stmt
    · exact (hhoisted stmt hmem).stmt
    · exact Node.isStmt_varStmt (by simpa using Or.inr hfunction)
    · exact (h.withVarHead.withBody hbody.stmt).isStmt_toNode
  · have hloop := Loop.tally_withVarHead
      { loop with body := extraction.body outer options } gauge
    simp only [hbody.tally gauge, Nat.add_zero] at hloop
    simp only [Extraction.replacement, tallyIn_append, tallyIn_cons, tallyIn_nil,
      Node.tally_varStmt, List.map_cons, List.map_nil, Nat.add_zero]
    rw [tallyIn_eq_zero fun stmt hmem => (harguments stmt hmem).tally gauge,
      tallyIn_eq_zero fun stmt hmem => (hthis stmt hmem).tally gauge,
      tallyIn_eq_zero fun stmt hmem => (hhoisted stmt hmem).tally gauge,
      Extraction.functionExpr, Node.tally_functionOf, ← tallyIn_append]
    have hhead : loop.headTally gauge =
        Loop.headTally { loop with body := extraction.body outer options } gauge := rfl
    rw [hhead, ← hloop, Nat.add_comm]
    simp only [Nat.zero_add, tallyIn_append]
    rfl

/-- What lowering puts in the place of a loop: statements with the loops of its head, and with
those of its body as it is or, its declarations taken out, in a function. -/
theorem Loop.replacement_spec {loop : Loop} (hwf : loop.WellFormed) {mentioned : String → Bool}
    {options : Options} {names names' : Registry} {replacement : List Node} {report : Report}
    (h : (loop.lower mentioned options).Gives names (replacement, report) names') :
    (∀ stmt ∈ replacement, stmt.IsStmt) ∧
      ((∀ gauge : Gauge, tallyIn gauge replacement =
          loop.headTally gauge + loop.body.tally gauge) ∨
        extractionRefusal? loop.capture loop.span = none ∧
          ∀ gauge : Gauge, tallyIn gauge replacement =
            loop.headTally gauge + if gauge.stop .function then 0 else gauge.weight .function +
              tallyIn gauge (hoistStmts loop.body.bodyStmts)) := by
  obtain ⟨outer, renamed, between, hrename, hcases⟩ := Loop.gives_lower h
  have hrenamed : loop.Renamed renamed := by
    have hrun := Loop.Renamed.renameMentioned mentioned loop.decl.names hwf names
    rwa [hrename] at hrun
  rcases hcases with ⟨-, hextract⟩ | ⟨-, hflatten⟩
  · obtain ⟨extraction, hextracts, rfl, -⟩ := Loop.extractsTo_of_gives hextract
    obtain ⟨hrefusal, hflatten, hparams, -, -, -, -, -⟩ := hextracts
    obtain ⟨hstmts, htally⟩ := Extraction.stmts_spec hrenamed.wellFormed.body hflatten hparams
      renamed.labelNames options
    obtain ⟨hreplacement, hweight⟩ :=
      Extraction.replacement_spec hrenamed.wellFormed hstmts outer loop.capture
    refine ⟨hreplacement, Or.inr ⟨hrenamed.span ▸ hrefusal, fun gauge => ?_⟩⟩
    rw [hweight gauge, htally gauge, hrenamed.headTally gauge, hrenamed.body]
  · obtain ⟨single, report', hrun, hsingle, htally⟩ := Loop.flattened_spec hrenamed.wellFormed
      loop.decl.names outer loop.capture mentioned between
    rw [hflatten] at hrun
    obtain ⟨rfl, -⟩ := Prod.mk.injEq .. ▸ hrun
    refine ⟨by simpa using hsingle, Or.inl fun gauge => ?_⟩
    rw [tallyIn_cons, tallyIn_nil, Nat.add_zero, htally gauge, hrenamed.headTally gauge,
      hrenamed.body]

/-- What lowering puts in the place of a loop can stand there. -/
theorem Node.ReplacedBy.lowerLoop {stmt : Node} (hwf : stmt.isWellFormed = true)
    {mentioned : String → Bool} {options : Options} {names names' : Registry}
    {replacement : List Node} {report : Report}
    (h : (stmt.lowerLoop mentioned options).Gives names (replacement, report) names') :
    stmt.ReplacedBy replacement := by
  unfold Node.lowerLoop at h
  split at h
  · next loop hloop =>
    have hloopWf := Loop.wellFormed_of_ofNode? hloop hwf
    obtain ⟨hstmts, htally⟩ := Loop.replacement_spec hloopWf h
    refine ⟨hstmts, fun gauge hstop => ⟨loop.span, ?_⟩⟩
    have hwhole := Loop.tally_of_ofNode? hloop hstop
    rcases htally with hflattened | ⟨-, hextracted⟩
    · have hweight := hflattened gauge
      omega
    · have hhoisted := (hoistStmts_spec (Node.isStmt_bodyStmts hloopWf.body)).2 gauge
      rw [Node.tallyIn_bodyStmts] at hhoisted
      rw [hextracted gauge]
      split <;> omega
  · simp at h

end LoopLowering
