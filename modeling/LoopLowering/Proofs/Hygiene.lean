/-
Write-backs assign what they say.

A plain loop whose body became a function steps a counter of its own, so each write-back
`counter = parameter` has to mean the counter and the parameter wherever it is put: at the end of
the function and before each return that was a `continue`.

The parameter has a new name, and the counter a new name or its own, but the body may bind the
counter's own name around a `continue`: as the parameter of a `catch` clause, say.  Then the counter
is out of reach, and where the counter's name was bound the parameter's name may be bound too, since
the one was renamed to the other.  `Loop.hides` collects the names for which this happens.  For all
others, the write-backs are hygienic: in the function nothing binds the counter, and around the
function the region does not either, or it would mention the name and the counter had been given
another.
-/
import LoopLowering.Proofs.Mentions
import LoopLowering.Proofs.Termination
import LoopLowering.Proofs.WriteBack

namespace LoopLowering

/-! ### Parameters -/

section

variable {writtenBack : String → Bool}

/-- Choosing parameters leads each name in use to itself. -/
theorem followsIn_chooseParams (vars : List (String × String)) {stmts : List Node}
    {names : Registry} (hwf : ∀ stmt ∈ stmts, stmt.isWellFormed = true) {name : String}
    (htaken : name ∈ names.taken) (lexical : Bool) : FollowsIn name name lexical lexical stmts
      ((chooseParams writtenBack vars stmts).run names).1.stmts := by
  induction vars generalizing stmts names with
  | nil => exact fun stmt hmem => ⟨stmt, hmem, .self fun _ => rfl⟩
  | cons var vars ih =>
      obtain ⟨old, outer⟩ := var
      unfold chooseParams
      split
      · have hnew : (names.fresh old).1 ∉ names.taken := Registry.fresh_notMem names old
        have hrenamed : ∀ stmt ∈ stmts.map (·.rename old (names.fresh old).1),
            stmt.isWellFormed = true := by
          rw [List.forall_mem_map]
          exact fun stmt hmem => (Node.Stands.rename old _ (hwf stmt hmem)).wellFormed
        have hfirst : FollowsIn name name lexical lexical stmts
            (stmts.map (·.rename old (names.fresh old).1)) :=
          .map fun stmt hmem => .rename (hwf stmt hmem) (fun _ => rfl) fun e =>
            absurd (e ▸ htaken) hnew
        exact hfirst.trans (ih hrenamed ((Naming.draws_fresh old).subset names htaken))
      · exact ih hwf htaken

/-- Choosing parameters assigns no name in use to another. -/
theorem hasNoCopy_chooseParams (vars : List (String × String)) {stmts : List Node}
    {names : Registry} {target source : String}
    (hnone : ∀ stmt ∈ stmts, stmt.hasNoCopy target source = true)
    (htarget : target ∈ names.taken) (hsource : source ∈ names.taken) :
    ∀ stmt ∈ ((chooseParams writtenBack vars stmts).run names).1.stmts,
      stmt.hasNoCopy target source = true := by
  induction vars generalizing stmts names with
  | nil => exact hnone
  | cons var vars ih =>
      obtain ⟨old, outer⟩ := var
      unfold chooseParams
      split
      · have hnew : (names.fresh old).1 ∉ names.taken := Registry.fresh_notMem names old
        have hgrows := (Naming.draws_fresh old).subset names
        refine ih (List.forall_mem_map.mpr fun stmt hmem => ?_) (hgrows htarget) (hgrows hsource)
        exact Node.hasNoCopy_rename (hnone stmt hmem) (fun e => hnew (e ▸ htarget))
          fun e => absurd (e ▸ hsource) hnew
      · exact ih hnone htarget hsource

/-- A parameter that is written back stands where its variable stood, and the body does not write
it back by itself.  The variable is called the same in the head, or by a name that is new to the
body. -/
theorem followsIn_param {vars : List (String × String)} {stmts : List Node} {names : Registry}
    (hwf : ∀ stmt ∈ stmts, stmt.isWellFormed = true) (hknown : ∀ stmt ∈ stmts, stmt.Known names)
    (hvars : ∀ var ∈ vars, var.1 ∈ names.taken ∧ var.2 ∈ names.taken ∧
      (var.2 = var.1 ∨ ∀ stmt ∈ stmts, var.2 ∉ stmt.names)) (lexical : Bool) :
    let function := ((chooseParams writtenBack vars stmts).run names).1
    ∀ pair ∈ writtenPairs writtenBack vars function.params, ∃ name, (name, pair.1) ∈ vars ∧
      writtenBack name = true ∧ FollowsIn name pair.2 lexical lexical stmts function.stmts ∧
      ∀ stmt ∈ function.stmts, stmt.hasNoCopy pair.1 pair.2 = true := by
  induction vars generalizing stmts names with
  | nil => exact fun pair hmem => absurd hmem List.not_mem_nil
  | cons var vars ih =>
      obtain ⟨old, outer⟩ := var
      obtain ⟨⟨hold, houter, hsame⟩, hrest⟩ := List.forall_mem_cons.mp hvars
      unfold chooseParams
      split
      · next hwritten =>
        have hnew : (names.fresh old).1 ∉ names.taken := Registry.fresh_notMem names old
        have hparam : (names.fresh old).1 ∈ (names.fresh old).2.taken := by
          rw [Registry.taken_fresh]
          exact List.mem_cons_self
        have hgrows := (Naming.draws_fresh old).subset names
        have hrenamed : ∀ stmt ∈ stmts.map (·.rename old (names.fresh old).1),
            stmt.isWellFormed = true := by
          rw [List.forall_mem_map]
          exact fun stmt hmem => (Node.Stands.rename old _ (hwf stmt hmem)).wellFormed
        have hself : ∀ name ∈ names.taken, FollowsIn name name lexical lexical stmts
            (stmts.map (·.rename old (names.fresh old).1)) := fun name htaken =>
          .map fun stmt hmem => .rename (hwf stmt hmem) (fun _ => rfl) fun e =>
            absurd (e ▸ htaken) hnew
        intro function pair hpair
        have hcons := (writtenPairs_cons writtenBack old outer _ vars _).trans
            (if_pos hwritten) ▸ hpair
        rcases List.mem_cons.mp hcons with rfl | hpair
        · refine ⟨old, List.mem_cons_self, hwritten, ?_, ?_⟩
          · have hfirst : FollowsIn old (names.fresh old).1 lexical lexical stmts
                (stmts.map (·.rename old (names.fresh old).1)) :=
              .map fun stmt hmem => .rename (hwf stmt hmem)
                (fun hname => absurd (hknown stmt hmem _ hname) hnew) fun _ => rfl
            exact hfirst.trans (followsIn_chooseParams vars hrenamed hparam lexical)
          · refine hasNoCopy_chooseParams vars (List.forall_mem_map.mpr fun stmt hmem => ?_)
              (hgrows houter) hparam
            refine Node.hasNoCopy_rename ?_ (fun e => hnew (e ▸ houter)) fun _ => ?_
            · exact Node.hasNoCopy_of_notMem fun hname => hnew (hknown stmt hmem _ hname)
            · exact hsame.imp Eq.symm fun hnot => hnot stmt hmem
        · have hknownRenamed : ∀ stmt ∈ stmts.map (·.rename old (names.fresh old).1),
              stmt.Known (names.fresh old).2 := by
            rw [List.forall_mem_map]
            exact fun stmt hmem => ((hknown stmt hmem).mono hgrows).rename hparam
          have hvarsRenamed : ∀ var ∈ vars, var.1 ∈ (names.fresh old).2.taken ∧
              var.2 ∈ (names.fresh old).2.taken ∧ (var.2 = var.1 ∨
                ∀ stmt ∈ stmts.map (·.rename old (names.fresh old).1), var.2 ∉ stmt.names) := by
            intro var hmem
            obtain ⟨hfirst, hsecond, hsame⟩ := hrest var hmem
            refine ⟨hgrows hfirst, hgrows hsecond, hsame.imp_right fun hnot stmt hstmt hname => ?_⟩
            obtain ⟨original, horiginal, hfollows⟩ := hself var.2 hsecond stmt hstmt
            exact hnot original horiginal (hfollows.names hname)
          obtain ⟨name, hmem, hwrittenName, hfollows, hnone⟩ :=
            ih hrenamed hknownRenamed hvarsRenamed pair hpair
          exact ⟨name, List.mem_cons_of_mem _ hmem, hwrittenName,
            (hself name (hrest _ hmem).1).trans hfollows, hnone⟩
      · next hwritten =>
        intro function pair hpair
        obtain ⟨name, hmem, hfollows⟩ := ih hwf hknown hrest pair
          ((writtenPairs_cons writtenBack old outer _ vars _).trans (if_neg hwritten) ▸ hpair)
        exact ⟨name, List.mem_cons_of_mem _ hmem, hfollows⟩

end

/-- A parameter is new, or is a variable that is not written back. -/
theorem params_chooseParams (vars : List (String × String)) (stmts : List Node) (names : Registry)
    (writtenBack : String → Bool) :
    ∀ param ∈ ((chooseParams writtenBack vars stmts).run names).1.params, param ∉ names.taken ∨
      param ∈ vars.map Prod.fst ∧ writtenBack param = false := by
  induction vars generalizing stmts names with
  | nil => exact fun param hmem => absurd hmem List.not_mem_nil
  | cons var vars ih =>
      obtain ⟨name, outer⟩ := var
      unfold chooseParams
      split
      · refine List.forall_mem_cons.mpr ⟨Or.inl (Registry.fresh_notMem names name),
          fun param hmem => ?_⟩
        refine (ih _ _ param hmem).imp (fun hnew htaken => hnew ?_) fun h =>
          ⟨List.mem_cons_of_mem _ h.1, h.2⟩
        exact (Naming.draws_fresh name).subset names htaken
      · next hwritten =>
        refine List.forall_mem_cons.mpr ⟨Or.inr ⟨List.mem_cons_self, by simpa using hwritten⟩,
          fun param hmem => ?_⟩
        exact (ih stmts names param hmem).imp_right fun h => ⟨List.mem_cons_of_mem _ h.1, h.2⟩

theorem mem_params_of_mem_writtenPairs {writtenBack : String → Bool} {vars : List (String × String)}
    {params : List String} {pair : String × String}
    (h : pair ∈ writtenPairs writtenBack vars params) :
    pair.2 ∈ params := by
  obtain ⟨entry, hmem, rfl⟩ := List.mem_map.mp h
  exact (List.of_mem_zip (List.mem_filter.mp hmem).1).2

/-! ### The body of a function -/

/-- What a loop body binds by itself or around its `continue`s.  The `let` and `const` of blocks are
left out: they become variables of the function and give way to the loop variables. -/
def Loop.hides (loop : Loop) : List String :=
  loop.body.bodyStmts.flatMap (Node.declared false) ++
    aroundIn false (.top loop.labelNames) loop.body.bodyStmts

theorem Node.namesOf_bodyStmts (body : Node) : namesOf body.bodyStmts ⊆ body.names := by
  unfold Node.bodyStmts
  split
  · rw [Node.names]
    exact List.subset_append_right _ _
  · simp [namesOf]

theorem Node.varNamesOf_bodyStmts (body : Node) : varNamesOf body.bodyStmts = body.varNames := by
  unfold Node.bodyStmts
  split
  · simp [Node.varNames, Form.isClosure]
  · simp [varNamesOf]

theorem Loop.hides_subset (loop : Loop) : loop.hides ⊆ loop.body.names := by
  refine List.Subset.trans ?_ loop.body.namesOf_bodyStmts
  rw [Loop.hides, aroundIn_eq_flatMap, namesOf_eq_flatMap]
  intro name hname
  rcases List.mem_append.mp hname with hname | hname
  · obtain ⟨stmt, hmem, hname⟩ := List.mem_flatMap.mp hname
    exact List.mem_flatMap.mpr ⟨stmt, hmem, stmt.declared_subset false hname⟩
  · obtain ⟨stmt, hmem, hname⟩ := List.mem_flatMap.mp hname
    exact List.mem_flatMap.mpr ⟨stmt, hmem, stmt.around_subset false _ hname⟩

/-- A name that the body does not declare by `var` is led to itself when the body is flattened, if
it gives way or is not there. -/
theorem Flattens.body {body : Node} (hbody : body.IsStmt) {clashes : String → Bool}
    {stmts : List Node} {names flattened : Registry}
    (hflatten : (flattenStmts clashes false (hoistStmts body.bodyStmts)).run names =
      (stmts, flattened))
    {name : String} (htaken : name ∈ names.taken) (hvar : name ∉ body.varNames)
    (hname : clashes name = true ∨ name ∉ body.names) :
    Flattens name name body.bodyStmts stmts := by
  have hbodyStmts := Node.isStmt_bodyStmts hbody
  have hhoist : FollowsIn name name false false body.bodyStmts (hoistStmts body.bodyStmts) := by
    refine .hoistStmts (fun stmt hmem => (hbodyStmts stmt hmem).2) fun stmt hmem hstmt => hvar ?_
    rw [← Node.varNamesOf_bodyStmts, varNamesOf_eq_flatMap]
    exact List.mem_flatMap.mpr ⟨stmt, hmem, hstmt⟩
  have hclear : clashes name = true ∨ name ∉ namesOf (hoistStmts body.bodyStmts) := by
    refine hname.imp_right fun hnot hmem => hnot (body.namesOf_bodyStmts ?_)
    rw [namesOf_eq_flatMap] at hmem ⊢
    exact hhoist.mem_flatMap (fun _ _ h => h.names) hmem
  have hflattens := flattens_flattenStmts clashes false
    (fun stmt hmem => ((hoistStmts_spec hbodyStmts).1 stmt hmem).2) hclear htaken
  rw [hflatten] at hflattens
  exact .of_follows hhoist hflattens

/-- The stages of a body on its way into a function: it is hoisted and flattened, the parameters get
their names, then `this` and `arguments` are named. -/
structure Loop.Stages (loop : Loop) (loopVars outer : List String) (record : Capture.Record)
    (names : Registry) (extraction : Extraction) (flat : List Node)
    (flattened drawn : Registry) : Prop where
  flatten : (flattenStmts (bodyClash record loopVars) false
    (hoistStmts loop.body.bodyStmts)).run names = (flat, flattened)
  choose : (chooseParams (fun name => loop.head.isPlain && record.needsWriteBack name)
    (loopVars.zip outer) flat).run flattened = (extraction.function, drawn)
  grows : names.taken ⊆ flattened.taken
  hoisted : ∀ stmt ∈ hoistStmts loop.body.bodyStmts, stmt.IsStmt
  flat : ∀ stmt ∈ flat, stmt.IsStmt
  function : ∀ stmt ∈ extraction.function.stmts, stmt.IsStmt
  prepared : ∀ stmt ∈ useAliasesIn extraction.aliases extraction.function.stmts, stmt.IsStmt
  writeBack : extraction.function.writeBack =
    writeBackOf (writtenPairs (fun name => loop.head.isPlain && record.needsWriteBack name)
      (loopVars.zip outer) extraction.function.params)

section

variable {loop : Loop} {loopVars outer : List String} {record : Capture.Record} {options : Options}
  {names names' : Registry} {extraction : Extraction}

theorem Loop.ExtractsTo.stages
    (h : loop.ExtractsTo loopVars outer record options names extraction names')
    (hbody : loop.body.IsStmt) : ∃ flat flattened drawn,
      loop.Stages loopVars outer record names extraction flat flattened drawn := by
  obtain ⟨-, hflatten, hparams, -, -, -, -, -⟩ := h
  rename_i stmts flattened drawn _ _ _
  have hhoisted := (hoistStmts_spec (Node.isStmt_bodyStmts hbody)).1
  have hfits := forall₂_fits_flattenStmts (bodyClash record loopVars) false
    (fun stmt hmem => (hhoisted stmt hmem).2) names
  rw [hflatten] at hfits
  have hflat := Node.isStmt_of_forall₂_fits hfits hhoisted
  have hchosen := (chooseParams_fits (fun name => loop.head.isPlain && record.needsWriteBack name)
    (loopVars.zip outer) (fun stmt hmem => (hflat stmt hmem).2) flattened).1
  have hback := (chooseParams_spec (fun name => loop.head.isPlain && record.needsWriteBack name)
    (loopVars.zip outer) stmts flattened).1
  rw [hparams] at hchosen hback
  have hfunction := Node.isStmt_of_forall₂_fits hchosen hflat
  have haliased := (forall₂_stands_useAliasesIn extraction.aliases
    fun stmt hmem => (hfunction stmt hmem).2).imp fun _ _ hs => hs.toFits
  exact ⟨stmts, flattened, drawn, hflatten, hparams,
    (draws_flattenStmts _ _ _).subset_of_run hflatten,
    hhoisted, hflat, hfunction, Node.isStmt_of_forall₂_fits haliased hfunction, hback⟩

/-- What becomes of a name when the body is made into statements of a function. -/
theorem Loop.ExtractsTo.flattens
    (h : loop.ExtractsTo loopVars outer record options names extraction names')
    (hbody : loop.body.IsStmt) (hknown : loop.body.Known names)
    (hvars : ∀ name ∈ loopVars, name ∈ names.taken ∧ name ∉ loop.body.varNames)
    (houter : ∀ name ∈ outer, name ∈ names.taken)
    (hnew : ∀ var ∈ loopVars.zip outer, var.2 = var.1 ∨ var.2 ∉ loop.body.names) :
    let prepared := useAliasesIn extraction.aliases extraction.function.stmts
    let pairs := writtenPairs (fun name => loop.head.isPlain && record.needsWriteBack name)
      (loopVars.zip outer) extraction.function.params
    extraction.function.writeBack = writeBackOf pairs ∧ (∀ stmt ∈ prepared, stmt.IsStmt) ∧
      ∀ pair ∈ pairs, Flattens pair.1 pair.1 loop.body.bodyStmts prepared ∧
        (∀ stmt ∈ prepared, stmt.hasNoCopy pair.1 pair.2 = true) ∧
        ∃ name, (name, pair.1) ∈ loopVars.zip outer ∧ record.needsWriteBack name = true ∧
          Flattens name pair.2 loop.body.bodyStmts prepared := by
  obtain ⟨drawn, hdrawn, haliases, -, hparamsDrawn, -, -⟩ := h.aliases hknown
    (fun name hmem => (hvars name hmem).1) houter
  obtain ⟨stmts, flattened, _, hflatten, hparams, hgrows, -, hflat, hfunction, hprepared, hback⟩ :=
    h.stages hbody
  have hstmtsKnown := known_flattenStmts (known_hoistStmts hknown.bodyStmts) hflatten
  have hkept : ∀ name ∈ loopVars, Flattens name name loop.body.bodyStmts stmts := fun name hmem =>
    .body hbody hflatten (hvars name hmem).1 (hvars name hmem).2
    (Or.inl (by simp [bodyClash, hmem]))
  have hcounter : ∀ var ∈ loopVars.zip outer, Flattens var.2 var.2 loop.body.bodyStmts stmts := by
    intro var hmem
    obtain ⟨hfirst, hsecond⟩ := List.of_mem_zip hmem
    rcases hnew var hmem with heq | hnot
    · rw [heq]
      exact hkept _ hfirst
    · exact .body hbody hflatten (houter _ hsecond)
        (fun hvar => hnot (loop.body.varNames_subset hvar)) (Or.inr hnot)
  have hstmtsWf : ∀ stmt ∈ stmts, stmt.isWellFormed = true := fun stmt hmem => (hflat stmt hmem).2
  have hself := fun name htaken => @followsIn_chooseParams
    (fun name => loop.head.isPlain && record.needsWriteBack name)
    (loopVars.zip outer) stmts flattened
    hstmtsWf name htaken true
  have hspec := @followsIn_param (fun name => loop.head.isPlain && record.needsWriteBack name)
    (loopVars.zip outer) stmts flattened hstmtsWf hstmtsKnown (fun var hmem => ?_) true
  · rw [hparams] at hself hspec
    have hnamed : ∀ name ∈ drawn.taken, FollowsIn name name true true extraction.function.stmts
        (useAliasesIn extraction.aliases extraction.function.stmts) := by
      intro name htaken
      rw [useAliasesIn_eq_map]
      exact .map fun stmt hmem => .useAliases (hfunction stmt hmem).2
        (fun halias => haliases.unused .this name halias htaken)
        fun halias => haliases.unused .arguments name halias htaken
    refine ⟨hback, hprepared, fun pair hpair => ?_⟩
    obtain ⟨name, hvar, hwritten, hfollows, hnone⟩ := hspec pair hpair
    obtain ⟨hfirst, hsecond⟩ := List.of_mem_zip hvar
    have hparam : pair.2 ∈ drawn.taken := hparamsDrawn _ (mem_params_of_mem_writtenPairs hpair)
    refine ⟨?_, ?_, name, hvar, (Bool.and_eq_true_iff.mp hwritten).2, ?_⟩
    · exact ((hcounter _ hvar).followed (hself _ (hgrows (houter _ hsecond)))).followed
        (hnamed _ (hdrawn (houter _ hsecond)))
    · rw [useAliasesIn_eq_map, List.forall_mem_map]
      exact fun stmt hmem => Node.hasNoCopy_useAliases (hnone stmt hmem)
        (fun halias => haliases.unused .this _ halias hparam)
        fun halias => haliases.unused .arguments _ halias hparam
    · exact ((hkept name hfirst).followed hfollows).followed (hnamed _ hparam)
  · obtain ⟨hfirst, hsecond⟩ := List.of_mem_zip hmem
    refine ⟨hgrows (hvars _ hfirst).1, hgrows (houter _ hsecond), (hnew var hmem).imp_right ?_⟩
    intro hnot stmt hstmt hname
    refine hnot (loop.body.namesOf_bodyStmts ?_)
    rw [namesOf_eq_flatMap]
    exact (hcounter var hmem).follows.mem_flatMap (fun _ _ h => h.names)
      (List.mem_flatMap.mpr ⟨stmt, hstmt, hname⟩)

/-- A parameter is new, or is a variable that is not written back. -/
theorem Loop.ExtractsTo.params_cases
    (h : loop.ExtractsTo loopVars outer record options names extraction names') :
    ∀ param ∈ extraction.function.params, param ∉ names.taken ∨
      param ∈ loopVars ∧ (loop.head.isPlain && record.needsWriteBack param) = false := by
  obtain ⟨-, hflatten, hparams, -, -, -, -, -⟩ := h
  rename_i stmts flattened _ _ _ _
  have hgrows := (draws_flattenStmts _ _ _).subset_of_run hflatten
  have hspec := params_chooseParams (loopVars.zip outer) stmts flattened
    (fun name => loop.head.isPlain && record.needsWriteBack name)
  rw [hparams] at hspec
  intro param hmem
  refine (hspec param hmem).imp (fun hnew htaken => hnew (hgrows htaken)) fun h => ⟨?_, h.2⟩
  obtain ⟨var, hvar, rfl⟩ := List.mem_map.mp h.1
  exact (List.of_mem_zip hvar).1

end

/-! ### The function -/

section

variable {target source : String} {pairs : List (String × String)} {options : Options}
  {labels params : List String} {prepared : List Node} {span : Span}

/-- The scope a function with these parameters opens for its body. -/
def functionScope (params : List String) (stmts : List Node) : List String :=
  "arguments" :: params ++ (Node.mk .block .generated stmts).bodyNames

/-- A write-back in a function lies in one of its statements. -/
theorem Node.lies_functionOf {stmts : List Node} {scopes : List (List String)}
    (h : (copyStmt target source).LiesUnder scopes (.functionOf params stmts span)) :
    ∃ stmt ∈ stmts, ∃ rest, (copyStmt target source).LiesUnder rest stmt ∧
      scopes = rest ++ [blockNames stmts] ++ [functionScope params stmts, []] := by
  rcases Node.liesUnder_iff.mp h with ⟨heq, -⟩ | ⟨function, names, scopes, hpart, hfunction, rfl⟩
  · cases heq
  obtain ⟨heq, rfl⟩ := Prod.mk.inj (List.mem_singleton.mp hpart)
  subst heq
  rcases Node.liesUnder_iff.mp hfunction with ⟨heq, -⟩ | ⟨body, names, scopes, hpart, hbody, rfl⟩
  · cases heq
  have hblock : (body, names) = (.block span stmts, functionScope params stmts) := by
    have hwithin := hbody.within
    have hparams : (Node.list (params.map fun name =>
        .mk .parameter span [.list [], .binding name false span .absent])).bindingNames =
        params := by
      rw [Node.list, Node.bindingNames, bindingNamesOf_eq_flatMap, List.flatMap_map]
      simp [Node.bindingNames]
    simp only [Node.partScopes, hparams, List.mem_cons, List.not_mem_nil, or_false] at hpart
    rcases hpart with heq | heq | heq | heq
    · cases heq
      simp [Node.within_mk, Node.list, copyStmt, Node.exprStmt, Node.absent] at hwithin
    · cases heq
      simp [Node.within_mk, Node.list, copyStmt, Node.exprStmt] at hwithin
    · exact heq
    · cases heq
      simp [Node.within_mk, Node.absent, copyStmt, Node.exprStmt] at hwithin
  obtain ⟨rfl, rfl⟩ := Prod.mk.inj hblock
  rcases Node.liesUnder_iff.mp hbody with ⟨heq, -⟩ | ⟨stmt, names, scopes, hpart, hstmt, rfl⟩
  · cases heq
  obtain ⟨other, hmem, heq⟩ := List.mem_map.mp hpart
  cases heq
  exact ⟨stmt, hmem, scopes, hstmt, List.append_assoc _ _ _⟩

theorem declared_redirectIn (hstmts : ∀ stmt ∈ prepared, stmt.IsStmt) :
    (redirectIn ⟨writeBackOf pairs, options⟩ (.top labels) prepared ++ writeBackOf pairs).flatMap
      (Node.declared true) = prepared.flatMap (Node.declared true) := by
  have hback : (writeBackOf pairs).flatMap (Node.declared true) = [] := by
    rw [writeBackOf_eq_map, List.flatMap_map]
    exact List.flatMap_eq_nil_iff.mpr fun pair _ => rfl
  rw [List.flatMap_append, hback, List.append_nil, redirectIn_eq_map, List.flatMap_map]
  exact List.flatMap_congr fun stmt hmem => Node.declared_redirect _ _ (hstmts stmt hmem).2

/-- If a name is bound around no `continue` and not declared, then no scope in the function around a
write-back binds it. -/
theorem Node.clear_of_lies_functionOf {name : String} (hstmts : ∀ stmt ∈ prepared, stmt.IsStmt)
    (hnone : ∀ stmt ∈ prepared, stmt.hasNoCopy target source = true)
    (hdeclared : name ∉ prepared.flatMap (Node.declared true))
    (haround : ∀ stmt ∈ prepared, name ∉ stmt.around true (.top labels))
    {scopes : List (List String)} (h : (copyStmt target source).LiesUnder scopes (.functionOf params
      (redirectIn ⟨writeBackOf pairs, options⟩ (.top labels) prepared ++ writeBackOf pairs) span)) :
    ∃ inner, scopes = inner ++ [functionScope params
        (redirectIn ⟨writeBackOf pairs, options⟩ (.top labels) prepared ++ writeBackOf pairs), []] ∧
      ∀ scope ∈ inner, name ∉ scope := by
  obtain ⟨stmt, hmem, rest, hstmt, rfl⟩ := Node.lies_functionOf h
  refine ⟨_, rfl, List.forall_mem_append.mpr ⟨?_, List.forall_mem_singleton.mpr fun hname => ?_⟩⟩
  · rcases List.mem_append.mp hmem with hmem | hmem
    · rw [redirectIn_eq_map] at hmem
      obtain ⟨original, horiginal, rfl⟩ := List.mem_map.mp hmem
      have hkind : original.allAre (·.isFreestanding) = true :=
        Slot.allAre_of_admits rfl rfl (by decide) (Node.isStmt_iff.mp (hstmts original horiginal)).1
      exact Node.clear_of_lies_redirect (hstmts original horiginal).2 hkind
        (hnone original horiginal) (haround original horiginal) hstmt
    · rw [writeBackOf_eq_map] at hmem
      obtain ⟨pair, -, rfl⟩ := List.mem_map.mp hmem
      intro scope hscope
      rw [Node.scopes_of_lies_copyStmt hstmt scope hscope]
      exact List.not_mem_nil
  · refine hdeclared ?_
    rw [← declared_redirectIn hstmts]
    exact blockNames_subset_declared _ hname

/-- A function declares what was declared before its jumps were redirected. -/
theorem Node.notMem_bodyNames {name : String} (hstmts : ∀ stmt ∈ prepared, stmt.IsStmt)
    (hdeclared : name ∉ prepared.flatMap (Node.declared true))
    (hvars : name ∉ varNamesOf prepared) :
    name ∉ (Node.mk .block span
      (redirectIn ⟨writeBackOf pairs, options⟩ (.top labels) prepared ++
        writeBackOf pairs)).bodyNames := by
  intro hname
  rcases List.mem_append.mp hname with hname | hname
  · rw [hoistedVarNames, mem_foldl_addName, varNamesOf_eq_flatMap, List.flatMap_append] at hname
    rcases List.mem_append.mp (hname.resolve_left List.not_mem_nil) with hname | hname
    · rw [redirectIn_eq_map, List.flatMap_map] at hname
      obtain ⟨stmt, hmem, hname⟩ := List.mem_flatMap.mp hname
      refine hvars ?_
      rw [varNamesOf_eq_flatMap]
      exact List.mem_flatMap.mpr ⟨stmt, hmem, Node.varNames_redirect _ _ _
        (hstmts stmt hmem).2 hname⟩
    · rw [writeBackOf_eq_map, List.flatMap_map] at hname
      obtain ⟨pair, -, hname⟩ := List.mem_flatMap.mp hname
      cases hname
  · refine hdeclared ?_
    rw [← declared_redirectIn hstmts]
    exact blockNames_subset_declared _ (List.mem_append_left _ hname)

end

/-! ### Names of the variables -/

theorem Loop.declNames_renameHead (loop : Loop) (old new : String) :
    (loop.renameHead old new).decl.names =
      loop.decl.names.map fun name => if name = old then new else name := by
  simp only [Loop.renameHead, Declaration.names]
  rw [bindingNamesOf_eq_flatMap, bindingNamesOf_eq_flatMap, List.flatMap_map, List.map_flatMap]
  refine List.flatMap_congr fun declarator _ => ?_
  unfold Node.rename
  split
  · next heq =>
    have hsame : ∀ name : String, (if name = old then new else name) = name := fun name => by
      split
      · next hold => exact heq.symm.trans hold.symm
      · rfl
    rw [List.map_congr_left fun name _ => hsame name, List.map_id']
  · exact declarator.bindingNames_substitute old new

/-- The head declares the names that its variables are given, in place of the old ones. -/
theorem Loop.declNames_renameMentioned (mentioned : String → Bool)
    {vars done : List String} {loop : Loop} {names : Registry}
    (hnames : loop.decl.names = done ++ vars) (hnodup : (done ++ vars).Nodup)
    (htaken : done ++ vars ⊆ names.taken) :
    let result := (loop.renameMentioned mentioned vars).run names
    result.1.2.decl.names = done ++ result.1.1 := by
  induction vars generalizing done loop names with
  | nil => exact hnames
  | cons name vars ih =>
      unfold Loop.renameMentioned
      split
      · obtain ⟨hreplaced, hdistinct, hused⟩ := Registry.replace_rename hnodup htaken
        have hhead : (loop.renameHead name (names.rename name).1).decl.names =
            done ++ (names.rename name).1 :: vars := by
          rw [Loop.declNames_renameHead, hnames, hreplaced]
        rw [List.append_cons] at hhead hdistinct hused
        exact (ih hhead hdistinct hused).trans (List.append_assoc _ _ _)
      · rw [List.append_cons] at hnames hnodup htaken
        exact (ih hnames hnodup htaken).trans (List.append_assoc _ _ _)

theorem Loop.outer_cases (mentioned : String → Bool) {vars : List String} (loop : Loop)
    (names : Registry) :
    ∀ var ∈ vars.zip ((loop.renameMentioned mentioned vars).run names).1.1,
      var.2 = var.1 ∧ mentioned var.1 = false ∨
        var.2 ∉ names.taken ∧ ∃ base n, var.2 = Registry.suffixed base n := by
  induction vars generalizing loop names with
  | nil => exact fun var hmem => absurd hmem List.not_mem_nil
  | cons name vars ih =>
      unfold Loop.renameMentioned
      split
      · refine List.forall_mem_cons.mpr ⟨Or.inr ⟨Registry.rename_notMem names name, _, _, rfl⟩, ?_⟩
        intro var hmem
        refine (ih _ _ var hmem).imp_right fun h => ⟨fun htaken => h.1 ?_, h.2⟩
        exact (Naming.draws_rename name).subset names htaken
      · next hclear =>
        exact List.forall_mem_cons.mpr ⟨Or.inl ⟨rfl, by simpa using hclear⟩, ih loop names⟩

/-! ### Write-backs of a loop -/

/-- In a function, wherever the write-back `target = source;` lies, the target is no variable of the
function or of a scope in it, and the source is a parameter. -/
def CopiesOut (target source : String) (params : List String) (stmts : List Node)
    (span : Span) : Prop :=
  ∀ scopes, (copyStmt target source).LiesUnder scopes (.functionOf params stmts span) →
    (∀ scope ∈ scopes, target ∉ scope) ∧
      ∃ inner, scopes = inner ++ [functionScope params stmts, []] ∧
        (∀ scope ∈ inner, source ∉ scope) ∧ source ∈ params ∧
        source ∉ (Node.mk .block span stmts).bodyNames

/-- What was not hidden in the body is not bound in what the body became. -/
theorem Flattens.clear {loop : Loop} {name name' : String} {prepared : List Node}
    (h : Flattens name name' loop.body.bodyStmts prepared) (hclear : name ∉ loop.hides) :
    name' ∉ prepared.flatMap (Node.declared true) ∧
      ∀ stmt ∈ prepared, name' ∉ stmt.around true (.top loop.labelNames) := by
  rw [Loop.hides, List.mem_append, not_or, aroundIn_eq_flatMap] at hclear
  refine ⟨fun hmem => hclear.1 (h.declared hmem), fun stmt hmem hname => hclear.2 ?_⟩
  exact h.follows.mem_flatMap (fun _ _ h => h.around _) (List.mem_flatMap.mpr ⟨stmt, hmem, hname⟩)

theorem Flattens.notMem_varNames {body : Node} {name name' : String} {prepared : List Node}
    (h : Flattens name name' body.bodyStmts prepared) (hvars : name ∉ body.varNames) :
    name' ∉ varNamesOf prepared := by
  rw [← Node.varNamesOf_bodyStmts, varNamesOf_eq_flatMap] at hvars
  rw [varNamesOf_eq_flatMap]
  exact fun hmem => hvars (h.follows.mem_flatMap (fun _ _ h => h.vars) hmem)

/-- What becomes of a name through an extraction tells whether a write-back copies it out. -/
theorem CopiesOut.of_flattens {loop : Loop} {name target source : String} {prepared : List Node}
    {pairs : List (String × String)} {options : Options} {params : List String} {span : Span}
    (hstmts : ∀ stmt ∈ prepared, stmt.IsStmt)
    (hnone : ∀ stmt ∈ prepared, stmt.hasNoCopy target source = true)
    (htarget : Flattens target target loop.body.bodyStmts prepared)
    (htargetClear : target ∉ loop.hides) (htargetVars : target ∉ loop.body.varNames)
    (htargetParams : target ∉ "arguments" :: params)
    (hsource : Flattens name source loop.body.bodyStmts prepared) (hsourceClear : name ∉ loop.hides)
    (hsourceVars : name ∉ loop.body.varNames) (hsourceParams : source ∈ params) :
    CopiesOut target source params
      (redirectIn ⟨writeBackOf pairs, options⟩ (.top loop.labelNames) prepared ++ writeBackOf pairs)
      span := by
  intro scopes hlies
  obtain ⟨htargetDeclared, htargetAround⟩ := htarget.clear htargetClear
  obtain ⟨hsourceDeclared, hsourceAround⟩ := hsource.clear hsourceClear
  obtain ⟨inner, rfl, hinner⟩ :=
    Node.clear_of_lies_functionOf hstmts hnone htargetDeclared htargetAround hlies
  obtain ⟨inner', heq, hinner'⟩ :=
    Node.clear_of_lies_functionOf hstmts hnone hsourceDeclared hsourceAround hlies
  obtain rfl : inner = inner' := List.append_cancel_right heq
  refine ⟨List.forall_mem_append.mpr ⟨hinner, ?_⟩, inner, rfl, hinner', hsourceParams,
    Node.notMem_bodyNames hstmts hsourceDeclared (hsource.notMem_varNames hsourceVars)⟩
  simp only [List.mem_cons, List.not_mem_nil, or_false, forall_eq_or_imp,
    forall_eq, not_false_eq_true, and_true]
  intro hname
  rcases List.mem_append.mp hname with hname | hname
  · exact htargetParams hname
  · exact Node.notMem_bodyNames hstmts htargetDeclared (htarget.notMem_varNames htargetVars) hname

/-- Where the body does not hide a variable, it does not hide what the variable is called in the
head: that is the same name, or one the body does not have. -/
theorem Loop.counter_notMem (loop : Loop) {mentioned : String → Bool} {names : Registry}
    {name counter : String} (hknown : loop.body.Known names) (hclear : name ∉ loop.hides)
    (hvars : name ∉ loop.body.varNames)
    (hcase : counter = name ∧ mentioned name = false ∨ counter ∉ names.taken) :
    (mentioned counter = false ∨ counter ∉ names.taken) ∧ counter ∉ loop.hides ∧
      counter ∉ loop.body.varNames := by
  rcases hcase with ⟨rfl, hunmentioned⟩ | hnew
  · exact ⟨Or.inl hunmentioned, hclear, hvars⟩
  · have hbody : counter ∉ loop.body.names := fun hmem => hnew (hknown _ hmem)
    exact ⟨Or.inr hnew, fun hmem => hbody (loop.hides_subset hmem),
      fun hmem => hbody (loop.body.varNames_subset hmem)⟩

/-- What a variable that is written back is called in the head is no parameter of the function. -/
theorem Loop.counter_notMem_params (loop : Loop) {names between : Registry} {params : List String}
    {name counter : String} (htaken : ∀ name ∈ loop.decl.names, name ∈ names.taken)
    (harguments : "arguments" ∉ loop.decl.names)
    (hwritten : loop.capture.needsWriteBack name = true) (hused : counter ∈ between.taken)
    (hparams : ∀ param ∈ params, param ∉ between.taken ∨
      param ∈ loop.decl.names ∧ loop.capture.needsWriteBack param = false)
    (hname : name ∈ loop.decl.names)
    (hcase : counter = name ∨ counter ∉ names.taken ∧ ∃ base n,
      counter = Registry.suffixed base n) :
    counter ∉ "arguments" :: params := by
  refine List.mem_cons.not.mpr (not_or.mpr ⟨fun heq => ?_, fun hmem => ?_⟩)
  · rcases hcase with hsame | ⟨-, base, n, hsuffixed⟩
    · exact harguments (heq ▸ hsame ▸ hname)
    · exact Registry.suffixed_ne_arguments base n (hsuffixed.symm.trans heq)
  · obtain ⟨hold, hkept⟩ := (hparams counter hmem).resolve_left (not_not.mpr hused)
    rcases hcase with rfl | ⟨hnew, -⟩
    · rw [hwritten] at hkept
      cases hkept
    · exact hnew (htaken _ hold)

/-- The write-backs of an extracted plain loop mean what they say, at the end of the function and
in the place of each `continue`, if the body hides no variable that is written back. -/
theorem Loop.copiesOut_writeBacks {stmt : Node} {loop : Loop} {mentioned : String → Bool}
    {options : Options} {names names' : Registry} {replacement : List Node} {report : Report}
    {functionName : String} (hwf : stmt.isWellFormed = true) (hloop : Loop.ofNode? stmt = some loop)
    (hknown : stmt.Known names) (hplain : loop.head.isPlain = true) (hnodup : loop.decl.names.Nodup)
    (harguments : "arguments" ∉ loop.decl.names)
    (hvars : ∀ name ∈ loop.decl.names, name ∉ loop.body.varNames)
    (hclear : ∀ name ∈ loop.decl.names, loop.capture.needsWriteBack name = true → name ∉ loop.hides)
    (hlower : (loop.lower mentioned options).Gives names (replacement, report) names')
    (houtcome : report.outcome = .extracted functionName) :
    ∃ before params prepared, ∃ rebuilt : Loop, ∃ pairs stmts,
      replacement = before ++
        [.varStmt .generated [(functionName, .functionOf params stmts loop.span)], rebuilt.toNode] ∧
      stmts = redirectIn ⟨writeBackOf pairs, options⟩ (.top loop.labelNames) prepared ++
        writeBackOf pairs ∧
      rebuilt.decl.kind = .var ∧
      rebuilt.decl.names = ((loop.renameMentioned mentioned loop.decl.names).run names).1.1 ∧
      pairs = writtenPairs loop.capture.needsWriteBack
        (loop.decl.names.zip rebuilt.decl.names) params ∧
      ∀ pair ∈ pairs, pair.1 ∈ rebuilt.decl.names ∧
        (mentioned pair.1 = false ∨ pair.1 ∉ names.taken) ∧
        CopiesOut pair.1 pair.2 params stmts loop.span := by
  have hloopWf := Loop.wellFormed_of_ofNode? hloop hwf
  have hloopKnown := Loop.known_of_ofNode? hloop hknown
  have htaken := hloopKnown.declNames
  obtain ⟨outer, renamed, between, extraction, hrename, hextracts, rfl, rfl⟩ :=
    Loop.exists_extractsTo hlower houtcome
  have hrenamed := Loop.Renamed.renameMentioned mentioned loop.decl.names hloopWf names
  have hrenamedKnown := (hloopKnown.renameMentioned mentioned htaken).2
  have houter := loop.outer_renameMentioned mentioned names hnodup htaken
  have hcases := @Loop.outer_cases mentioned loop.decl.names loop names
  have hnames := @Loop.declNames_renameMentioned mentioned loop.decl.names [] loop
      names rfl hnodup htaken
  rw [hrename] at hrenamed hrenamedKnown houter hcases hnames
  obtain ⟨-, -, houterTaken, hgrows⟩ := houter
  have hlabels : renamed.labelNames = loop.labelNames := by
    rw [Loop.labelNames, Loop.labelNames, hrenamed.labels]
  obtain ⟨hback, hstmts, hspec⟩ := hextracts.flattens hrenamed.wellFormed.body hrenamedKnown.body
    (fun name hmem => ⟨hgrows (htaken name hmem), hrenamed.body ▸ hvars name hmem⟩)
    (fun name hmem => houterTaken hmem) fun var hmem =>
      (hcases var hmem).imp And.left fun hnew hname => by
      rw [hrenamed.body] at hname
      exact hnew.1 (hloopKnown.body _ hname)
  have hparams := hextracts.params_cases
  rw [hrenamed.body] at hspec
  rw [hrenamed.isPlain, hplain] at hback hspec hparams
  simp only [Bool.true_and] at hback hspec hparams
  obtain ⟨pairs, hpairs⟩ : ∃ pairs, pairs = writtenPairs loop.capture.needsWriteBack
      (loop.decl.names.zip outer) extraction.function.params := ⟨_, rfl⟩
  rw [← hpairs] at hback hspec
  have hfunction : extraction.functionExpr renamed options = .functionOf extraction.function.params
      (redirectIn ⟨writeBackOf pairs, options⟩ (.top loop.labelNames)
        (useAliasesIn extraction.aliases extraction.function.stmts) ++ writeBackOf pairs)
        loop.span := by
    rw [Extraction.functionExpr, Extraction.stmts, hback, hlabels, hrenamed.span]
    rfl
  have hreplacement := extraction.replacement_eq renamed outer loop.capture options
  rw [hfunction] at hreplacement
  have hdeclared : renamed.decl.names = outer := hnames
  refine ⟨_, _, _, _, pairs, _, hreplacement, rfl, rfl, hdeclared.trans (by rw [hrename]),
    hpairs.trans (congrArg (fun outer => writtenPairs _ (loop.decl.names.zip outer) _)
      hdeclared.symm),
    fun pair hpair => ?_⟩
  obtain ⟨htarget, hnone, name, hvar, hwritten, hsource⟩ := hspec pair hpair
  obtain ⟨hname, hcounter⟩ := List.of_mem_zip hvar
  have hclearName := hclear name hname hwritten
  have hcase := hcases _ hvar
  obtain ⟨hfree, hcounterClear, hcounterVars⟩ := loop.counter_notMem hloopKnown.body hclearName
    (hvars name hname) (hcase.imp_right And.left)
  have hcounterParams := loop.counter_notMem_params htaken harguments hwritten
    (houterTaken hcounter) hparams hname (hcase.imp_left And.left)
  have hmem : pair.1 ∈ renamed.decl.names := hdeclared ▸ hcounter
  exact ⟨hmem, hfree, .of_flattens hstmts hnone htarget hcounterClear hcounterVars
    hcounterParams hsource hclearName (hvars name hname)
      (mem_params_of_mem_writtenPairs (hpairs ▸ hpair))⟩

/-! ### Write-backs in a region -/

/-- A function lies in the statement that declares it. -/
theorem Node.functionOf_lies_varStmt (name : String) (params : List String) (stmts : List Node)
    (span : Span) : (Node.functionOf params stmts span).LiesUnder [[], []]
      (.varStmt .generated [(name, .functionOf params stmts span)]) :=
  Node.liesUnder_iff.mpr <| Or.inr ⟨_, _, [[]], List.mem_cons_self, Node.liesUnder_iff.mpr <|
    Or.inr ⟨_, _, [], List.mem_cons_of_mem _ List.mem_cons_self, .here, rfl⟩, rfl⟩

theorem Node.LiesUnder.trans {inner middle outer : Node} {scopes more : List (List String)}
    (h : inner.LiesUnder scopes middle) (h' : middle.LiesUnder more outer) :
    inner.LiesUnder (scopes ++ more) outer := by
  induction h' with
  | here => rwa [List.append_nil]
  | inside hpart _ ih =>
      rw [← List.append_assoc]
      exact .inside hpart ih

/-- What takes the place of an extracted loop introduces nothing but variables of the region. -/
theorem Extraction.introduced_replacement (extraction : Extraction) (loop : Loop)
    (outer : List String) (record : Capture.Record) (options : Options) :
    ∀ stmt ∈ extraction.replacement loop outer record options, stmt.introduced = [] := by
  have hvar : ∀ declarators, (Node.varStmt .generated declarators).introduced = [] := fun _ => rfl
  have halias : ∀ alias? value, ∀ stmt ∈ aliasStmt alias? value, stmt.introduced = [] := by
    intro alias? value stmt hmem
    unfold aliasStmt at hmem
    split at hmem
    · rw [List.mem_singleton.mp hmem, hvar]
    · cases hmem
  have hloop : ∀ loop : Loop, loop.toNode.introduced = [] := by
    intro loop
    unfold Loop.toNode
    cases loop.labels with
    | nil =>
        rw [List.foldr_nil, Loop.toUnlabeled_eq]
        cases loop.head <;> rfl
    | cons label labels => rfl
  intro stmt hmem
  simp only [Extraction.replacement, List.mem_append, List.mem_singleton] at hmem
  rcases hmem with (((hmem | hmem) | hmem) | rfl) | rfl
  · exact halias _ _ stmt hmem
  · exact halias _ _ stmt hmem
  · unfold Extraction.hoisted at hmem
    split at hmem
    · cases hmem
    · rw [List.mem_singleton.mp hmem, hvar]
  · exact hvar _
  · exact hloop _

/-- In a region whose first loop is extracted, each write-back means the variable that the head of
the loop declares for the region, and the parameter of the function, if the body hides no variable
that is written back. -/
theorem Node.writeBacks_copy_out {region region' stmt : Node} {loop : Loop} {options : Options}
    {names names' : Registry} {replacement : List Node} {report : Report} {functionName : String}
    (hwf : region.isWellFormed = true) (hkind : region.allAre (·.isFreestanding) = true)
    (hregion : region.isCandidate = false) (hknown : region.Known names)
    (hfirst : region.firstCandidate? = some stmt) (hloop : Loop.ofNode? stmt = some loop)
    (hplain : loop.head.isPlain = true) (hnodup : loop.decl.names.Nodup)
    (harguments : "arguments" ∉ loop.decl.names)
    (hvars : ∀ name ∈ loop.decl.names, name ∉ loop.body.varNames)
    (hclear : ∀ name ∈ loop.decl.names, loop.capture.needsWriteBack name = true → name ∉ loop.hides)
    (hlower : (stmt.lowerLoop region.mentionsOutside options).Gives names
      (replacement, report) names')
    (houtcome : report.outcome = .extracted functionName)
    (hsplice : region.splice? replacement = some region') :
    ∃ before params prepared, ∃ rebuilt : Loop, ∃ pairs stmts around,
      replacement = before ++
        [.varStmt .generated [(functionName, .functionOf params stmts loop.span)], rebuilt.toNode] ∧
      stmts = redirectIn ⟨writeBackOf pairs, options⟩ (.top loop.labelNames) prepared ++
        writeBackOf pairs ∧
      rebuilt.decl.kind = .var ∧
      rebuilt.decl.names =
        ((loop.renameMentioned region.mentionsOutside loop.decl.names).run names).1.1 ∧
      pairs = writtenPairs loop.capture.needsWriteBack
        (loop.decl.names.zip rebuilt.decl.names) params ∧
      (Node.functionOf params stmts loop.span).LiesUnder around region' ∧
      ∀ pair ∈ pairs, pair.1 ∈ rebuilt.decl.names ∧ (∀ scope ∈ around, pair.1 ∉ scope) ∧
        CopiesOut pair.1 pair.2 params stmts loop.span := by
  have hregion' := (Node.lowersFirst_of_gives hfirst hlower hsplice).isWellFormed hwf
  obtain ⟨_, -, hspliced⟩ := Node.exists_spliced hfirst replacement
  have hlowered : (loop.lower region.mentionsOutside options).Gives names
      (replacement, report) names' := by
    rwa [Node.lowerLoop, hloop] at hlower
  obtain ⟨before, params, prepared, rebuilt, pairs, stmts, hreplacement,
      hstmts, hvar, hhead, hpairs, hcopies⟩ :=
    Loop.copiesOut_writeBacks (hspliced.within.isWellFormed hwf) hloop
      (hspliced.within.known hknown) hplain hnodup harguments hvars hclear hlowered houtcome
  have hsilent : ∀ node ∈ replacement, node.introduced = [] := by
    obtain ⟨outer, renamed, -, extraction, -, -, heq, -⟩ := Loop.exists_extractsTo hlowered houtcome
    rw [heq]
    exact extraction.introduced_replacement renamed outer loop.capture options
  obtain ⟨opening, hopening, hstmt, rfl⟩ := Node.exists_opening hfirst
  obtain rfl := Option.some.inj ((hopening.splice?_fill hstmt replacement).symm.trans hsplice)
  have hleads : opening.Leads stmt := ⟨hopening, hstmt, hwf, hkind, hregion⟩
  obtain ⟨around, hlies, hshows⟩ := hleads.exists_lies hsilent hregion'
    (hreplacement ▸ List.mem_append_right before List.mem_cons_self)
  refine ⟨before, params, prepared, rebuilt, pairs, stmts, _, hreplacement,
    hstmts, hvar, hhead, hpairs,
    (Node.functionOf_lies_varStmt functionName params stmts loop.span).trans hlies,
    fun pair hpair => ?_⟩
  obtain ⟨hcounter, hfree, hcopies⟩ := hcopies pair hpair
  refine ⟨hcounter, List.forall_mem_append.mpr ⟨by simp, fun scope hscope hname => ?_⟩, hcopies⟩
  obtain ⟨hnames, hmentions⟩ := hshows scope hscope _ hname
  rcases hfree with hunmentioned | hnew
  · rw [hopening.mentionsOutside_fill hstmt, hmentions] at hunmentioned
    cases hunmentioned
  · exact hnew (hknown _ hnames)

/-- The loop

    for (let i = first; i; ) { saved = () => i; try { i = "next"; } catch (e) { continue; } }

whose catch clause, left by a `continue`, has a parameter of the given name. -/
def rescuedLoop (name : String) : Loop where
  labels := []
  span := .generated
  decl := ⟨.lexical false, false, .generated,
    [.declarator false .generated (.binding "i" false .generated .absent)
      (.use "first" .generated)]⟩
  head := .plain (.use "i" .generated) .absent
  body := .block .generated
    [.exprStmt (.assignTo "saved"
      (.mk (.arrow false false) .generated [.list [], .use "i" .generated, .absent]) .generated),
      .mk .tryStmt .generated
        [.block .generated [assignText "i" "next"],
          .mk .catchClause .generated [.binding name false .generated .absent,
            .block .generated [.mk (.continueStmt none) .generated []]],
          .absent]]

/-- The body of its function. -/
def rescuedStmts (name : String) : List Node :=
  [.exprStmt (.assignTo "saved"
    (.mk (.arrow false false) .generated [.list [], .use "i$1" .generated, .absent]) .generated),
    .mk .tryStmt .generated
      [.block .generated [assignText "i$1" "next"],
        .mk .catchClause .generated [.binding name false .generated .absent,
          .block .generated [.block .generated
            (writeBackOf [("i", "i$1")] ++ [.returnStmt .absent .generated])]],
        .absent]] ++ writeBackOf [("i", "i$1")]

/-- A program that is the loop. -/
def rescuedRegion (name : String) : Node :=
  .mk (.program none) .generated [(rescuedLoop name).toNode]

/-- The names of the program. -/
def rescueNames : Registry := ⟨["i", "first", "saved", "e"], []⟩

/-- Where the catch clause binds another name, the write-back in it copies the variable out. -/
theorem rescuedRegion_copies_out : ∃ replacement report names' region' around,
    ((rescuedLoop "e").toNode.lowerLoop (rescuedRegion "e").mentionsOutside {}).Gives rescueNames
        (replacement, report) names' ∧
      (rescuedRegion "e").splice? replacement = some region' ∧
      (Node.functionOf ["i$1"] (rescuedStmts "e") .generated).LiesUnder around region' ∧
      (∀ scope ∈ around, "i" ∉ scope) ∧ CopiesOut "i" "i$1" ["i$1"]
      (rescuedStmts "e") .generated := by
  obtain ⟨replacement, report, names', rebuilt, hlower, houtcome, hconcrete⟩ :
      ∃ replacement report names' rebuilt,
        ((rescuedLoop "e").toNode.lowerLoop (rescuedRegion "e").mentionsOutside {}).Gives
            rescueNames (replacement, report) names' ∧
          report.outcome = .extracted "loop" ∧
          replacement =
            [.varStmt .generated [("loop", .functionOf ["i$1"] (rescuedStmts "e") .generated)],
              rebuilt] :=
    ⟨_, _, _, _, rfl, rfl, rfl⟩
  have hwf : (rescuedRegion "e").isWellFormed = true := by decide +kernel
  have hknown : (rescuedRegion "e").Known rescueNames := by
    unfold Node.Known
    decide +kernel
  have hfirst : (rescuedRegion "e").firstCandidate? = some (rescuedLoop "e").toNode := rfl
  have hloop : Loop.ofNode? (rescuedLoop "e").toNode = some (rescuedLoop "e") :=
    Loop.ofNode?_toNode _ rfl
  have hclear : ∀ name ∈ (rescuedLoop "e").decl.names,
      (rescuedLoop "e").capture.needsWriteBack name = true → name ∉ (rescuedLoop "e").hides := by
    decide +kernel
  have hsplice : (rescuedRegion "e").splice? replacement =
      some (.mk (.program none) .generated (replacement ++ [])) := rfl
  obtain ⟨before, params, prepared, head, pairs, stmts, around, hreplacement, -,
      -, hhead, hpairs, hlies, hcopies⟩ :=
    Node.writeBacks_copy_out hwf rfl rfl hknown hfirst hloop rfl (by decide)
      (by decide) (by decide +kernel) hclear hlower houtcome hsplice
  have hends := hconcrete.symm.trans hreplacement
  rw [← List.nil_append [_, rebuilt]] at hends
  obtain ⟨hfunction, -⟩ := List.cons.inj (List.append_inj' hends rfl).2
  obtain ⟨rfl, rfl⟩ : ["i$1"] = params ∧ rescuedStmts "e" = stmts := by
    simp only [Node.varStmt, List.map_cons, List.map_nil, Node.mk.injEq, List.cons.injEq, true_and,
      and_true] at hfunction
    exact Node.functionOf_inj hfunction
  have hpair : ("i", "i$1") ∈ pairs := by
    rw [hpairs, hhead]
    decide +kernel
  obtain ⟨-, haround, hcopies⟩ := hcopies _ hpair
  exact ⟨replacement, report, names', _, around, hlower, hsplice, hlies, haround, hcopies⟩

/-- Where the catch clause binds the name of the variable, the write-back in it assigns what was
caught. -/
theorem rescuedRegion_caught : ∃ replacement report names',
    ((rescuedLoop "i").toNode.lowerLoop (rescuedRegion "i").mentionsOutside {}).Gives rescueNames
        (replacement, report) names' ∧
      (rescuedLoop "i").capture.needsWriteBack "i" = true ∧
      .varStmt .generated [("loop", .functionOf ["i$1"] (rescuedStmts "i") .generated)]
      ∈ replacement ∧
      ¬ CopiesOut "i" "i$1" ["i$1"] (rescuedStmts "i") .generated := by
  refine ⟨_, _, _, rfl, by decide +kernel, List.mem_cons_self, fun h => ?_⟩
  let jump := Node.block .generated (writeBackOf [("i", "i$1")] ++ [.returnStmt .absent .generated])
  let clause := Node.mk .catchClause .generated
    [.binding "i" false .generated .absent, .block .generated [jump]]
  let attempt := Node.mk .tryStmt .generated [.block .generated [assignText "i$1" "next"],
      clause, .absent]
  have hjump : (copyStmt "i" "i$1").LiesUnder ([] ++ [[]]) jump := .inside List.mem_cons_self .here
  have hclause : (copyStmt "i" "i$1").LiesUnder ([[]] ++ [[]] ++ [["i"]]) clause :=
    .inside (List.mem_cons_of_mem _ List.mem_cons_self) (.inside List.mem_cons_self hjump)
  have hattempt : (copyStmt "i" "i$1").LiesUnder ([[], [], ["i"]] ++ [[]]) attempt :=
    .inside (List.mem_cons_of_mem _ List.mem_cons_self) hclause
  have hlies : (copyStmt "i" "i$1").LiesUnder
      ([[], [], ["i"], []] ++ [[]] ++ [functionScope ["i$1"] (rescuedStmts "i")] ++ [[]])
      (.functionOf ["i$1"] (rescuedStmts "i") .generated) :=
    .inside List.mem_cons_self
      (.inside (List.mem_cons_of_mem _ (List.mem_cons_of_mem _ List.mem_cons_self))
      (.inside (List.mem_cons_of_mem _ List.mem_cons_self) hattempt))
  exact absurd List.mem_cons_self ((h _ hlies).1 ["i"] (by simp))

end LoopLowering
