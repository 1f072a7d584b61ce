/-
The analysis of a loop does not care what its variables are called.

The renamer and the analysis know about scopes in two ways.  The renamer stops at a node that
binds the old name; the analysis enters the node and pushes what it binds.  A loop variable gets a
name that is nowhere in the loop, and the two walks are compared node by node.

Down to the first node that binds the old name, two contexts belong together: in one the old name
leads to the head of the loop, in the other the new name does, and all other names lead to the same
scope (`Context.Renames`).  Below such a node both trees are one tree, and no name in it means
anything else than before, the new one apart, which it does not have (`Context.Shadows`).  So the
findings are the same one by one, up to the name of a variable that is assigned.
-/
import LoopLowering.Proofs.Enclosing
import LoopLowering.Proofs.Hygiene
import LoopLowering.Proofs.Writes

namespace LoopLowering

/-! ### Patterns -/

/-- Whether a node is no shorthand pattern whose name has a type.  Such a pattern has no place for
one in a program text. -/
def Node.hasPlainKey : Node → Bool
  | .mk .assignPatProp _ [.mk _ _ ascription, _] => ascription.all Node.isAbsent
  | _ => true

/-- What an assignment to a pattern writes after a renaming. -/
theorem Node.assignedNames_substitute (old new : String) (node : Node) :
    (node.substitute old new).assignedNames =
      node.assignedNames.map fun name => if name = old then new else name := by
  induction node using Node.inductionOn with
  | step form span parts ih =>
      have hitems : assignedNamesOf (substituteIn old new parts) =
          (assignedNamesOf parts).map fun name => if name = old then new else name := by
        rw [substituteIn_eq_map, assignedNamesOf_eq_flatMap, assignedNamesOf_eq_flatMap,
          List.flatMap_map, List.map_flatMap]
        exact List.flatMap_congr ih
      have hnode : (∀ role used optional, form ≠ .ident role used optional) →
          (Node.mk form span (substituteIn old new parts)).assignedNames =
            (Node.mk form span parts).assignedNames.map
              fun name => if name = old then new else name := by
        intro hform
        cases form with
        | ident => exact absurd rfl (hform _ _ _)
        | list => exact hitems
        | paren =>
            rcases parts with _ | ⟨inner, _ | _⟩
            · rfl
            · exact ih inner List.mem_cons_self
            · rfl
        | arrayPat | objectPat | rest | assignPat | assignPatProp =>
            rcases parts with _ | ⟨first, _ | ⟨_, _ | _⟩⟩
            · rfl
            · rfl
            · exact ih first List.mem_cons_self
            · rfl
        | keyValuePat =>
            rcases parts with _ | ⟨_, _ | ⟨second, _ | _⟩⟩
            · rfl
            · rfl
            · exact ih second (List.mem_cons_of_mem _ List.mem_cons_self)
            · rfl
        | _ => rfl
      unfold Node.substitute
      split
      · next hscope =>
        -- A node that binds the name in a scope of its own is no target.
        cases form with
        | ident role => cases role <;> cases hscope
        | list | paren | arrayPat | objectPat | rest | assignPat | assignPatProp | keyValuePat =>
            cases hscope
        | _ => rfl
      split
      · split
        · rfl
        · rfl
      · next role _ _ _ _ =>
        cases role with
        | use | bind => rfl
        | short | title => rfl
      · split
        · next hold =>
          simp only [Node.assignedNames, List.map_cons, List.map_nil, if_pos hold]
          split
          · rfl
          · rfl
        · next hother => simp [Node.assignedNames, hother]
      · next hident _ => exact hnode hident

theorem Node.assignedNames_subset (node : Node) : node.assignedNames ⊆ node.names := by
  induction node using Node.inductionOn with
  | step form span parts ih =>
      have hpart : ∀ part ∈ parts, part.assignedNames ⊆ (Node.mk form span parts).names :=
        fun part hmem => List.Subset.trans (ih part hmem) (Node.names_subset_of_mem hmem)
      unfold Node.assignedNames
      split
      case h_1 heq =>
        cases heq
        simp [Node.names, Form.names]
      case h_2 heq =>
        cases heq
        simp [Node.names, Form.names]
      case h_4 heq =>
        cases heq
        intro name hname
        rw [assignedNamesOf_eq_flatMap] at hname
        obtain ⟨part, hmem, hname⟩ := List.mem_flatMap.mp hname
        exact hpart part hmem hname
      case h_11 => exact List.nil_subset _
      all_goals
        next heq =>
        cases heq
        exact hpart _ (by simp)

theorem Node.target?_substituteIn (old new : String) (form : Form) (span : Span)
    (parts : List Node) :
    (Node.mk form span (substituteIn old new parts)).target? =
      (Node.mk form span parts).target?.map (·.substitute old new) := by
  cases form with
  | assign | update | forInStmt | forOfStmt => cases parts <;> rfl
  | _ => rfl

theorem Node.names_subset_of_target? {writer target : Node} (h : writer.target? = some target) :
    target.names ⊆ writer.names := by
  unfold Node.target? at h
  split at h
  case h_5 => cases h
  all_goals
    cases h
    exact Node.names_subset_of_mem List.mem_cons_self

theorem Node.Renames.substituteIn {old new : String} {parts : List Node}
    (hwf : ∀ part ∈ parts, part.isWellFormed = true) (hnew : ∀ part ∈ parts, new ∉ part.names) :
    List.Forall₂ (Node.Renames true [old, new]) parts (substituteIn old new parts) := by
  rw [substituteIn_eq_map]
  refine List.forall₂_map_right_iff.mpr (List.forall₂_same.mpr fun part hmem => ?_)
  exact Node.Renames.substitute (hwf part hmem) (hnew part hmem)

/-- A declarator of a `var` that is not renamed shows the same. -/
theorem Capture.Context.varDeclarator_substitute {old new : String} {declarator : Node}
    (declSpan : Span) (hwf : declarator.isWellFormed = true)
    (hnew : new ∉ declarator.names) (hold : old ∉ declarator.bindingNames) :
    varDeclarator declSpan (declarator.substitute old new) = varDeclarator declSpan declarator := by
  have hlooks := (@Node.Renames.substitute true old new declarator hwf hnew).looks
  rcases varDeclarator_cases declSpan declarator with ⟨hdeclares, name, heq⟩ | ⟨hdeclares, heq⟩
  · unfold Node.declaresName at hdeclares
    split at hdeclares
    · next definite span name optional bindSpan ascription rest =>
      obtain ⟨init, rfl⟩ := List.length_eq_one_iff.mp
        (Nat.succ.inj (Node.length_parts hwf (by simp) rfl))
      have hname : name ≠ old := fun h => hold (List.mem_singleton.mpr h.symm)
      unfold Node.substitute
      rw [if_neg (by simp [Node.scopeNames, Node.headNames])]
      simp only [substituteIn, Node.substitute_binding _ _ _ hname]
      rfl
    · cases hdeclares
  · rcases varDeclarator_cases declSpan
      (declarator.substitute old new) with ⟨hother, -⟩ | ⟨-, hsame⟩
    · rw [hlooks.declaresName, hdeclares] at hother
      cases hother
    · rw [heq, hsame]

namespace Capture

/-! ### Findings under another name -/

/-- The finding with the variable it tells to be assigned under its new name. -/
def Finding.rename (old new : String) : Finding → Finding
  | .reassigned name => .reassigned (if name = old then new else name)
  | finding => finding

/-- Only assignments are told of under a new name. -/
theorem Finding.map_rename_eq_self {old new : String} {findings : List Finding}
    (h : ∀ name, Finding.reassigned name ∉ findings) :
    findings.map (Finding.rename old new) = findings := by
  refine (List.map_congr_left fun finding hmem => ?_).trans (List.map_id findings)
  cases finding with
  | reassigned name => exact absurd hmem (h name)
  | _ => rfl

/-! ### The same place -/

/-- The two contexts are at the same place, but names may have different meanings there. -/
structure Context.SamePlace (ctx ctx' : Context) : Prop where
  inBody : ctx'.inBody = ctx.inBody
  inNestedLoop : ctx'.inNestedLoop = ctx.inNestedLoop
  inInnerLoop : ctx'.inInnerLoop = ctx.inInnerLoop
  inClosure : ctx'.inClosure = ctx.inClosure
  inFunction : ctx'.inFunction = ctx.inFunction

namespace Context.SamePlace

variable {ctx ctx' : Context} {old new : String}

theorem inOwnBody (h : ctx.SamePlace ctx') : ctx'.inOwnBody = ctx.inOwnBody := by
  rw [Context.inOwnBody, Context.inOwnBody, h.inBody, h.inFunction]

theorem blockOrigin (h : ctx.SamePlace ctx') : ctx'.blockOrigin = ctx.blockOrigin := by
  rw [Context.blockOrigin, Context.blockOrigin, h.inBody, h.inNestedLoop,
    h.inInnerLoop, h.inClosure]

theorem originOf (h : ctx.SamePlace ctx') (form : Form) :
    ctx'.originOf form = ctx.originOf form := by
  cases form with
  | block => exact h.blockOrigin
  | _ => rfl

theorem enter (h : ctx.SamePlace ctx') {node : Node} (hwf : node.isWellFormed = true) :
    (ctx.enter node).SamePlace (ctx'.enter node) where
  inBody := by rw [ctx'.inBody_enter, ctx.inBody_enter, h.inBody]
  inNestedLoop := by rw [(ctx'.loops_enter hwf).1, (ctx.loops_enter hwf).1, h.inNestedLoop]
  inInnerLoop := by rw [(ctx'.loops_enter hwf).2, (ctx.loops_enter hwf).2, h.inInnerLoop]
  inClosure := by rw [ctx'.inClosure_enter, ctx.inClosure_enter, h.inClosure]
  inFunction := by rw [ctx'.inFunction_enter, ctx.inFunction_enter, h.inFunction]

/-- A name that a node binds means the same in it at either place. -/
theorem resolveFrom_enter_of_binds (h : ctx.SamePlace ctx') {node : Node} {name : String}
    (hbinds : node.Binds name) (crossed : Bool) :
    resolveFrom name crossed (ctx'.enter node).frames =
      resolveFrom name crossed (ctx.enter node).frames := by
  rw [ctx'.resolveFrom_enter_of_binds hbinds, ctx.resolveFrom_enter_of_binds hbinds,
    h.originOf node.form]

theorem declarations (h : ctx.SamePlace ctx') (names : List String) :
    ctx'.declarations names = ctx.declarations names := by
  rw [Context.declarations, Context.declarations, h.blockOrigin]

theorem suspension (h : ctx.SamePlace ctx') (keyword : Keyword) (span : Span) :
    ctx'.suspension keyword span = ctx.suspension keyword span := by
  rw [Context.suspension, Context.suspension, h.inBody, h.inClosure]

theorem functionBound (h : ctx.SamePlace ctx') (keyword : Keyword) (span : Span) :
    ctx'.functionBound keyword span = ctx.functionBound keyword span := by
  rw [Context.functionBound, Context.functionBound, h.inOwnBody]

/-- A name shows the same as another one that means the same. -/
theorem reference (h : ctx.SamePlace ctx') {name name' : String}
    (hmeans : ctx'.resolve name' = ctx.resolve name)
    (hname : name' = name ∨ ctx.resolve name ≠ none) :
    ctx'.reference name' = ctx.reference name := by
  rcases hname with rfl | hbound
  · rw [Context.reference, Context.reference, hmeans, h.inBody, h.inOwnBody]
  · obtain ⟨⟨origin, crossed⟩, hresolve⟩ := Option.ne_none_iff_exists'.mp hbound
    rw [Context.reference, Context.reference, hmeans, hresolve, h.inBody]
    cases crossed with
    | true => rfl
    | false => rfl

/-- An assignment to a name shows the same as one to another name that means the same. -/
theorem write (h : ctx.SamePlace ctx') {name name' : String}
    (hmeans : ctx'.resolve name' = ctx.resolve name)
    (hname : ctx.ToHead name → name' = if name = old then new else name) :
    ctx'.write name' = (ctx.write name).map (Finding.rename old new) := by
  unfold Context.write
  rw [hmeans, h.inBody]
  by_cases hbody : ctx.inBody = true
  · simp only [hbody, Bool.not_true, Bool.false_eq_true, if_false]
    split
    · next crossed hresolve => rw [hname ⟨crossed, hresolve⟩]; rfl
    · rfl
  · simp [hbody]

theorem writes {names : List String} {f : String → String}
    (hwrite : ∀ name ∈ names, ctx'.write (f name) = (ctx.write name).map (Finding.rename old new)) :
    ctx'.writes (names.map f) = (ctx.writes names).map (Finding.rename old new) := by
  rw [Context.writes, Context.writes, List.flatMap_map, List.map_flatMap]
  exact List.flatMap_congr hwrite

/-- What a node shows by itself depends on the names it uses, assigns and declares. -/
theorem own (h : ctx.SamePlace ctx') {form : Form} {span : Span} {parts parts' : List Node}
    (hident : ∀ role name optional, form ≠ .ident role name optional)
    (htarget : Option.Rel (fun a b => ctx'.writes b.assignedNames =
        (ctx.writes a.assignedNames).map (Finding.rename old new))
      (Node.mk form span parts).target? (Node.mk form span parts').target?)
    (hvars : ∀ declare, form = .varDecl .var declare → ctx.inBody = true → ctx.inClosure = false →
      parts'.map (varDeclarator span) = parts.map (varDeclarator span))
    (hdeclared : form = .block → lexicalNamesOf parts' = lexicalNamesOf parts) :
    ctx'.own (.mk form span parts') =
      (ctx.own (.mk form span parts)).map (Finding.rename old new) := by
  cases form with
  | ident => exact absurd rfl (hident _ _ _)
  | thisExpr =>
      rw [Finding.map_rename_eq_self fun name => by rw [Context.own]; split <;> simp]
      simp only [Context.own, h.inOwnBody]
  | assign | update | forInStmt =>
      rcases parts with _ | ⟨target, rest⟩
      · rcases parts' with _ | ⟨target', rest'⟩
        · rfl
        · cases htarget
      · rcases parts' with _ | ⟨target', rest'⟩
        · cases htarget
        · cases htarget with
          | some htarget => exact htarget
  | forOfStmt isAwait =>
      rcases parts with _ | ⟨target, rest⟩
      · rcases parts' with _ | ⟨target', rest'⟩
        · rfl
        · cases htarget
      · rcases parts' with _ | ⟨target', rest'⟩
        · cases htarget
        · cases htarget with
          | some htarget =>
              rw [Context.own, Context.own, htarget, h.suspension, List.map_append]
              congr 1
              cases isAwait with
              | true => exact (Finding.map_rename_eq_self fun _ => by simp).symm
              | false => rfl
  | varDecl kind declare =>
      cases kind with
      | lexical => rfl
      | var =>
          rw [Finding.map_rename_eq_self fun name => by rw [Context.own]; split <;> simp,
            Context.own, Context.own, h.inBody, h.inClosure]
          split
          · next hplace =>
            rw [Bool.and_eq_true, Bool.not_eq_true'] at hplace
            exact hvars declare rfl hplace.1 hplace.2
          · rfl
  | block =>
      rw [Finding.map_rename_eq_self fun name => by rw [Context.own]; simp,
        Context.own, Context.own, hdeclared rfl, h.declarations]
  | yieldExpr | awaitExpr =>
      rw [Finding.map_rename_eq_self fun name => by rw [Context.own]; simp,
        Context.own, Context.own, h.suspension]
  | superRef =>
      rw [Finding.map_rename_eq_self fun name => by rw [Context.own]; simp,
        Context.own, Context.own, h.functionBound]
  | metaProperty kind =>
      cases kind with
      | newTarget =>
          rw [Finding.map_rename_eq_self fun name => by rw [Context.own]; simp, Context.own,
            Context.own, h.functionBound]
      | importMeta => rfl
  | _ => rfl

end Context.SamePlace

/-! ### Under a node that binds the old name -/

/-- Between the two contexts and the head of the loop the old name is bound once more: all names
but the new one mean the same, and the old one is no loop variable. -/
structure Context.Shadows (old new : String) (ctx ctx' : Context) : Prop
    extends ctx.SamePlace ctx' where
  means : ∀ name crossed, name ≠ new →
    resolveFrom name crossed ctx'.frames = resolveFrom name crossed ctx.frames
  hidden : ∀ crossed reached, resolveFrom old crossed ctx.frames ≠ some (.loopVariable, reached)

namespace Context.Shadows

variable {ctx ctx' : Context} {old new : String}

/-- What a node binds is no loop variable. -/
theorem hidden_enter (ctx : Context) {node : Node} {name : String} (hbinds : node.Binds name)
    (crossed reached : Bool) :
    resolveFrom name crossed (ctx.enter node).frames ≠ some (.loopVariable, reached) := by
  rw [ctx.resolveFrom_enter_of_binds hbinds]
  split
  · intro heq
    have horigin := congrArg Prod.fst (Option.some.inj heq)
    have hblock := Context.eq_block_of_originOf horigin (by simp)
    exact Context.blockOrigin_ne_loopVariable _ hblock.2
  · simp

theorem enter (h : ctx.Shadows old new ctx') {node : Node} (hwf : node.isWellFormed = true) :
    (ctx.enter node).Shadows old new (ctx'.enter node) where
  toSamePlace := h.toSamePlace.enter hwf
  means name crossed hname := by
    by_cases hbinds : node.Binds name
    · exact h.resolveFrom_enter_of_binds hbinds crossed
    · rw [ctx'.resolveFrom_enter hbinds, ctx.resolveFrom_enter hbinds, h.means name _ hname]
  hidden crossed reached := by
    by_cases hbinds : node.Binds old
    · exact hidden_enter ctx hbinds crossed reached
    · rw [ctx.resolveFrom_enter hbinds]
      exact h.hidden _ reached

theorem own (h : ctx.Shadows old new ctx') {node : Node} (hnew : new ∉ node.names) :
    ctx'.own node = (ctx.own node).map (Finding.rename old new) := by
  obtain ⟨form, span, parts⟩ := node
  by_cases hident : ∃ role name optional, form = .ident role name optional
  · obtain ⟨role, name, optional, rfl⟩ := hident
    have hname : name ≠ new := by
      rintro rfl
      exact hnew (by simp [Node.names, Form.names])
    rw [Context.own, Context.own, Finding.map_rename_eq_self fun _ => by simp]
    exact h.reference (h.means name false hname) (Or.inl rfl)
  · refine h.toSamePlace.own (fun _ _ _ heq => hident ⟨_, _, _, heq⟩) ?_ (fun _ _ _ _ => rfl)
      fun _ => rfl
    cases htarget : (Node.mk form span parts).target? with
    | none => exact .none
    | some target =>
        refine .some ((congrArg ctx'.writes (List.map_id _)).symm.trans ?_)
        refine SamePlace.writes fun name hname => ?_
        have hne : name ≠ new := by
          rintro rfl
          exact hnew (Node.names_subset_of_target? htarget (target.assignedNames_subset hname))
        refine h.write (h.means name false hne) fun hhead => ?_
        obtain ⟨reached, hresolve⟩ := hhead
        rw [if_neg]
        · rfl
        · rintro rfl
          exact h.hidden false reached hresolve

/-- A tree without the new name shows the same under both contexts. -/
theorem findings (h : ctx.Shadows old new ctx') {node : Node} (hwf : node.isWellFormed = true)
    (hnew : new ∉ node.names) :
    Capture.findings ctx' node = (Capture.findings ctx node).map (Finding.rename old new) := by
  induction node using Node.inductionOn generalizing ctx ctx' with
  | step form span parts ih =>
      rw [Capture.findings, Capture.findings, List.map_append, h.own hnew, findingsIn_eq_flatMap,
        findingsIn_eq_flatMap, List.map_flatMap]
      congr 1
      refine List.flatMap_congr fun part hmem => ?_
      exact ih part hmem (h.enter hwf) (Node.isWellFormed_part hwf hmem)
        fun hname => hnew (Node.names_subset_of_mem hmem hname)

end Context.Shadows

/-! ### Above such a node -/

/-- The old name leads to the head of the loop in one context, the new name in the other, and all
other names mean the same. -/
structure Context.Renames (old new : String) (ctx ctx' : Context) : Prop
    extends ctx.SamePlace ctx' where
  means : ∀ name crossed, name ≠ old → name ≠ new →
    resolveFrom name crossed ctx'.frames = resolveFrom name crossed ctx.frames
  renamed : ∀ crossed, ∃ reached,
    resolveFrom old crossed ctx.frames = some (.loopVariable, reached) ∧
      resolveFrom new crossed ctx'.frames = some (.loopVariable, reached)

namespace Context.Renames

variable {ctx ctx' : Context} {old new : String}

/-- Every name but the new one means what it means under its new name. -/
theorem resolve (h : ctx.Renames old new ctx') {name : String} (hname : name ≠ new) :
    ctx'.resolve (if name = old then new else name) = ctx.resolve name := by
  split
  · next hold =>
    obtain ⟨reached, holdMeans, hnewMeans⟩ := h.renamed false
    rw [hold]
    exact hnewMeans.trans holdMeans.symm
  · next hold => exact h.means name false hold hname

theorem reference (h : ctx.Renames old new ctx') {name : String} (hname : name ≠ new) :
    ctx'.reference (if name = old then new else name) = ctx.reference name := by
  refine h.toSamePlace.reference (h.resolve hname) ?_
  by_cases hold : name = old
  · obtain ⟨reached, hmeans, -⟩ := h.renamed false
    refine Or.inr ?_
    rw [hold, Context.resolve, hmeans]
    exact Option.some_ne_none _
  · exact Or.inl (if_neg hold)

theorem writes (h : ctx.Renames old new ctx') {names : List String} (hnew : new ∉ names) :
    ctx'.writes (names.map fun name => if name = old then new else name) =
      (ctx.writes names).map (Finding.rename old new) := by
  refine SamePlace.writes fun name hmem => ?_
  have hname : name ≠ new := by
    rintro rfl
    exact hnew hmem
  exact h.write (h.resolve hname) fun _ => rfl

/-- A node that binds neither name is entered under the same conditions. -/
theorem enter (h : ctx.Renames old new ctx') {node : Node} (hwf : node.isWellFormed = true)
    (hold : ¬ node.Binds old) (hnew : ¬ node.Binds new) :
    (ctx.enter node).Renames old new (ctx'.enter node) where
  toSamePlace := h.toSamePlace.enter hwf
  means name crossed hnameOld hnameNew := by
    by_cases hbinds : node.Binds name
    · exact h.resolveFrom_enter_of_binds hbinds crossed
    · rw [ctx'.resolveFrom_enter hbinds, ctx.resolveFrom_enter hbinds,
        h.means name _ hnameOld hnameNew]
  renamed crossed := by
    rw [ctx.resolveFrom_enter hold, ctx'.resolveFrom_enter hnew]
    exact h.renamed _

/-- Under a node that binds the old name, that name is no loop variable any more. -/
theorem enter_of_binds (h : ctx.Renames old new ctx') {node : Node} (hwf : node.isWellFormed = true)
    (hold : node.Binds old) : (ctx.enter node).Shadows old new (ctx'.enter node) where
  toSamePlace := h.toSamePlace.enter hwf
  means name crossed hname := by
    by_cases hbinds : node.Binds name
    · exact h.resolveFrom_enter_of_binds hbinds crossed
    · have hne : name ≠ old := by
        rintro rfl
        exact hbinds hold
      rw [ctx'.resolveFrom_enter hbinds, ctx.resolveFrom_enter hbinds, h.means name _ hne hname]
  hidden := Shadows.hidden_enter ctx hold

/-- A node that binds the old name assigns to none, and shows the same. -/
theorem own_of_binds (h : ctx.Renames old new ctx') {node : Node} (hold : node.Binds old) :
    ctx'.own node = (ctx.own node).map (Finding.rename old new) := by
  obtain ⟨form, span, parts⟩ := node
  refine h.toSamePlace.own ?_ ?_ (fun _ _ _ _ => rfl) fun _ => rfl
  · rintro role name optional rfl
    rcases hold with hscope | ⟨-, hfunction⟩
    · cases hscope
    · cases hfunction
  · cases htarget : (Node.mk form span parts).target? with
    | none => exact .none
    | some target =>
        have hnone : target.assignedNames = [] := by
          refine List.eq_nil_iff_forall_not_mem.mpr fun name hname => ?_
          obtain ⟨chain, hchain, -⟩ := Node.mem_assignedNames.mp hname
          exact Node.not_binds_of_target? htarget hchain hold
        refine .some ?_
        rw [hnone]
        rfl

/-- A node around renamed parts shows the same. -/
theorem own_substituteIn (h : ctx.Renames old new ctx') {form : Form} {span : Span}
    {parts : List Node} (hwf : (Node.mk form span parts).isWellFormed = true)
    (hident : ∀ role name optional, form ≠ .ident role name optional)
    (hold : old ∉ (Node.mk form span parts).scopeNames)
    (hnew : new ∉ (Node.mk form span parts).names)
    (hvars : ctx.inBody = true → ctx.inClosure = false → old ∉ (Node.mk form span parts).varNames) :
    ctx'.own (.mk form span (substituteIn old new parts)) =
      (ctx.own (.mk form span parts)).map (Finding.rename old new) := by
  refine h.toSamePlace.own hident ?_ ?_ ?_
  · rw [Node.target?_substituteIn]
    cases htarget : (Node.mk form span parts).target? with
    | none => exact .none
    | some target =>
        refine .some ?_
        rw [Node.assignedNames_substitute]
        exact h.writes fun hname =>
          hnew (Node.names_subset_of_target? htarget (target.assignedNames_subset hname))
  · rintro declare rfl hbody hclosure
    have hvar := hvars hbody hclosure
    rw [Node.varNames, if_neg (by simp [Form.isClosure]), bindingNamesOf_eq_flatMap] at hvar
    rw [substituteIn_eq_map, List.map_map]
    refine List.map_congr_left fun declarator hmem => ?_
    exact varDeclarator_substitute span (Node.isWellFormed_part hwf hmem)
      (fun hname => hnew (Node.names_subset_of_mem hmem hname))
      fun hname => hvar (List.mem_flatMap.mpr ⟨declarator, hmem, hname⟩)
  · rintro rfl
    have hparts : List.Forall₂ (Node.Renames true [old, new]) parts (substituteIn old new parts) :=
      Node.Renames.substituteIn (fun part => Node.isWellFormed_part hwf)
        fun part hmem hname => hnew (Node.names_subset_of_mem hmem hname)
    refine (Node.BindsLike.lexicalNamesOf (hparts.imp fun _ _ h => h.binds)).same ?_
    simpa using ⟨hold, fun hname => hnew (Node.scopeNames_subset _ hname)⟩

/-- Renaming what is in a node changes nothing about how the node is entered. -/
theorem enter_substituteIn (ctx : Context) {form : Form} {span : Span} {parts : List Node}
    (hwf : (Node.mk form span parts).isWellFormed = true)
    (hold : old ∉ (Node.mk form span parts).scopeNames)
    (hnew : new ∉ (Node.mk form span parts).names) :
    ctx.enter (.mk form span (substituteIn old new parts)) = ctx.enter (.mk form span parts) := by
  have hparts : List.Forall₂ (Node.Renames true [old, new]) parts (substituteIn old new parts) :=
    Node.Renames.substituteIn (fun part => Node.isWellFormed_part hwf)
      fun part hmem hname => hnew (Node.names_subset_of_mem hmem hname)
  have hlexical : List.Forall₂ (fun a b => b.isLexicalDecl = a.isLexicalDecl) parts
      (substituteIn old new parts) := by
    rw [substituteIn_eq_map]
    refine List.forall₂_map_right_iff.mpr (List.forall₂_same.mpr fun part hmem => ?_)
    exact (Node.Stands.substitute old new (Node.isWellFormed_part hwf hmem)).lexical
  refine ctx.enter_congr span hlexical ?_
  refine (Node.BindsLike.scopeNames (hparts.imp fun _ _ h => h.binds)).same ?_
  simpa using ⟨hold, fun hname => hnew (Node.scopeNames_subset _ hname)⟩

/-- A shorthand property that is written out shows its name. -/
theorem findings_keyValue (ctx : Context) (key name : String) (span : Span) :
    Capture.findings ctx (.keyValue key (.use name span) span) = ctx.reference name := by
  simp [Node.keyValue, Capture.findings, findingsIn, Context.own, Context.enter, Form.isClosure]

/-- What has no type shows nothing. -/
theorem findingsIn_of_absent (ctx : Context) {nodes : List Node}
    (hwf : ∀ node ∈ nodes, node.isWellFormed = true) (h : nodes.all Node.isAbsent = true) :
    findingsIn ctx nodes = [] := by
  rw [findingsIn_eq_flatMap, List.flatMap_eq_nil_iff]
  intro node hmem
  obtain ⟨span, rfl⟩ := Node.eq_absent_of_isAbsent (hwf node hmem) (List.all_eq_true.mp h node hmem)
  rfl

/-- A shorthand pattern that is written out shows its name and its default value. -/
theorem findings_shorthand (h : ctx.Renames old new ctx') {span keySpan : Span} {optional : Bool}
    {ascription : List Node} {value : Node}
    (hwf : (Node.mk .assignPatProp span
      [.mk (.ident .bind old optional) keySpan ascription, value]).isWellFormed = true)
    (hplain : (Node.mk .assignPatProp span
      [.mk (.ident .bind old optional) keySpan ascription, value]).hasPlainKey = true)
    (hne : old ≠ new)
    (hvalue : Capture.findings ctx' (value.substitute old new) =
      (Capture.findings ctx value).map (Finding.rename old new)) :
    Capture.findings ctx' (.mk .keyValuePat .generated
        [.mk (.propName old) keySpan [],
         if value.isAbsent then .mk (.ident .bind new optional) keySpan ascription
         else .mk .assignPat span
          [.mk (.ident .bind new optional) keySpan ascription, value.substitute old new]]) =
      (Capture.findings ctx (.mk .assignPatProp span
        [.mk (.ident .bind old optional) keySpan ascription, value])).map
          (Finding.rename old new) := by
  have hkey := Node.isWellFormed_part hwf List.mem_cons_self
  have hnone : ∀ ctx, findingsIn ctx ascription = [] := fun ctx =>
    findingsIn_of_absent ctx (fun node => Node.isWellFormed_part hkey) hplain
  have hreference := h.reference hne
  rw [if_pos rfl] at hreference
  have hold : Capture.findings ctx (.mk .assignPatProp span
      [.mk (.ident .bind old optional) keySpan ascription, value]) =
        ctx.reference old ++ Capture.findings ctx value := by
    simp [Capture.findings, findingsIn, Context.own, Context.enter, Form.isClosure, hnone]
  have hbound : Capture.findings ctx' (.mk (.ident .bind new optional) keySpan ascription) =
      ctx.reference old := by
    simp [Capture.findings, Context.own, hnone, hreference]
  rw [hold, List.map_append, Finding.map_rename_eq_self fun _ => by simp, ← hvalue]
  split
  · next habsent =>
    obtain ⟨valueSpan, rfl⟩ :=
      Node.eq_absent_of_isAbsent (Node.isWellFormed_part hwf (by simp)) habsent
    have hgone : Capture.findings ctx' ((Node.mk .absent valueSpan []).substitute old new) = [] :=
      rfl
    rw [hgone, List.append_nil, ← hbound]
    simp [Capture.findings, findingsIn, Context.own, Context.enter, Form.isClosure]
  · rw [← hbound]
    simp [Capture.findings, findingsIn, Context.own, Context.enter, Form.isClosure]

/-- A renamed tree shows the same, the variables that it assigns under their new names. -/
theorem findings (h : ctx.Renames old new ctx') (hold : old ≠ "arguments")
    (hother : new ≠ "arguments") {node : Node} (hwf : node.isWellFormed = true)
    (hplain : node.everywhere Node.hasPlainKey = true) (hnew : new ∉ node.names)
    (hvars : ctx.inBody = true → ctx.inClosure = false → old ∉ node.varNames) :
    Capture.findings ctx' (node.substitute old new) =
      (Capture.findings ctx node).map (Finding.rename old new) := by
  induction node using Node.inductionOn generalizing ctx ctx' with
  | step form span parts ih =>
      by_cases hscope : old ∈ (Node.mk form span parts).scopeNames
      · rw [Node.substitute_of_mem_scopeNames hscope, Capture.findings, Capture.findings,
          List.map_append, h.own_of_binds (Or.inl hscope), findingsIn_eq_flatMap,
          findingsIn_eq_flatMap, List.map_flatMap]
        congr 1
        refine List.flatMap_congr fun part hmem => ?_
        exact (h.enter_of_binds hwf (Or.inl hscope)).findings (Node.isWellFormed_part hwf hmem)
          fun hname => hnew (Node.names_subset_of_mem hmem hname)
      · have hentered := h.enter hwf (fun hbinds => hbinds.elim hscope fun hown => hold hown.1)
          fun hbinds => hbinds.elim (fun hname => hnew (Node.scopeNames_subset _ hname))
            fun hown => hother hown.1
        have hpart : ∀ part ∈ parts,
            Capture.findings (ctx'.enter (.mk form span parts)) (part.substitute old new) =
              (Capture.findings (ctx.enter (.mk form span parts)) part).map
                (Finding.rename old new) := by
          intro part hmem
          refine ih part hmem hentered (Node.isWellFormed_part hwf hmem)
            ((Node.everywhere_mk.mp hplain).2 part hmem)
            (fun hname => hnew (Node.names_subset_of_mem hmem hname)) fun hbody hclosure => ?_
          rw [ctx.inBody_enter] at hbody
          rw [ctx.inClosure_enter, Bool.or_eq_false_iff] at hclosure
          exact Node.notMem_varNames_part hwf hclosure.2 (hvars hbody hclosure.1) hmem
        have hparts : findingsIn (ctx'.enter (.mk form span parts)) (substituteIn old new parts) =
            (findingsIn (ctx.enter (.mk form span parts)) parts).map (Finding.rename old new) := by
          rw [findingsIn_eq_flatMap, findingsIn_eq_flatMap, substituteIn_eq_map, List.flatMap_map,
            List.map_flatMap]
          exact List.flatMap_congr hpart
        have hnode : (∀ role name optional, form ≠ .ident role name optional) →
            Capture.findings ctx' (.mk form span (substituteIn old new parts)) =
              (Capture.findings ctx (.mk form span parts)).map (Finding.rename old new) := by
          intro hident
          rw [Capture.findings, Capture.findings, List.map_append,
            h.own_substituteIn hwf hident hscope hnew hvars,
            enter_substituteIn ctx' hwf hscope hnew,
            hparts]
        have hident : ∀ role name optional, form = .ident role name optional →
            Capture.findings ctx'
                (.mk (.ident role (if name = old then new else name) optional) span
                (substituteIn old new parts)) =
              (Capture.findings ctx (.mk form span parts)).map (Finding.rename old new) := by
          rintro role name optional rfl
          have hname : name ≠ new := by
            rintro rfl
            exact hnew (by simp [Node.names, Form.names])
          rw [Capture.findings, Capture.findings, List.map_append, Context.own, Context.own,
            h.reference hname, Finding.map_rename_eq_self fun _ => by simp]
          exact congrArg _ hparts
        unfold Node.substitute
        rw [if_neg hscope]
        split
        · next name optional =>
          have hshort := hident .short name optional rfl
          split
          · next hname =>
            obtain rfl := Node.parts_eq_nil rfl (by simp) hwf
            rw [if_pos hname] at hshort
            rw [← hshort, findings_keyValue]
            exact (List.append_nil _).symm
          · next hname =>
            rwa [if_neg hname] at hshort
        · exact hident _ _ _ rfl
        · next name optional keySpan ascription value =>
          split
          · next hname =>
            have hne : old ≠ new := by
              rintro rfl
              exact hnew (by simp [Node.names, namesOf, Form.names, hname])
            rw [hname]
            exact h.findings_shorthand hwf (Node.passes_of_everywhere hplain) hne
              (hpart value (List.mem_cons_of_mem _ List.mem_cons_self))
          · next hname =>
            have hsame := hnode (by simp)
            rw [substituteIn, substituteIn, substituteIn,
              Node.substitute_binding _ _ _ hname] at hsame
            exact hsame
        · next hnone _ => exact hnode hnone

end Context.Renames

/-! ### Records -/

/-- A list of distinct names is renamed as it is collected. -/
theorem map_foldl_addName {f : String → String} {names collected : List String}
    (hf : ∀ a ∈ collected ++ names, ∀ b ∈ collected ++ names, f a = f b → a = b) :
    (names.map f).foldl addName (collected.map f) = (names.foldl addName collected).map f := by
  induction names generalizing collected with
  | nil => rfl
  | cons name names ih =>
      have hmem : f name ∈ collected.map f ↔ name ∈ collected := by
        rw [List.mem_map]
        refine ⟨?_, fun h => ⟨name, h, rfl⟩⟩
        rintro ⟨other, hother, heq⟩
        rw [← hf other (by simp [hother]) name (by simp) heq]
        exact hother
      have hadd : addName (collected.map f) (f name) = (addName collected name).map f := by
        unfold addName
        by_cases h : name ∈ collected
        · rw [if_pos h, if_pos (hmem.mpr h)]
        · rw [if_neg h, if_neg (mt hmem.mp h), List.map_append]
          rfl
      rw [List.map_cons, List.foldl_cons, List.foldl_cons, hadd]
      refine ih fun a ha b hb => hf a ?_ b ?_
      · simpa [mem_addName, or_assoc] using ha
      · simpa [mem_addName, or_assoc] using hb

/-- A finding that is about no assignment is found under another name if it is found at all. -/
theorem Finding.mem_map_rename {old new : String} {findings : List Finding} {finding : Finding}
    (h : ∀ name, finding ≠ .reassigned name) :
    finding ∈ findings.map (Finding.rename old new) ↔ finding ∈ findings := by
  rw [List.mem_map]
  constructor
  · rintro ⟨other, hmem, rfl⟩
    cases other with
    | reassigned name => exact absurd rfl (h _)
    | _ => exact hmem
  · intro hmem
    refine ⟨finding, hmem, ?_⟩
    cases finding with
    | reassigned name => exact absurd rfl (h name)
    | _ => rfl

/-- What is read off findings that are about no assignment is the same under another name. -/
theorem Finding.comp_rename {α : Type} {old new : String} {f : Finding → Option α}
    (h : ∀ name, f (.reassigned name) = none) : f ∘ Finding.rename old new = f := by
  funext finding
  cases finding with
  | reassigned name => exact (h _).trans (h name).symm
  | _ => rfl

/-- Findings under another name sum up to the same record, up to the assigned variables. -/
theorem Record.ofFindings_rename {old new : String} {findings : List Finding}
    (hnew : Finding.reassigned new ∉ findings) :
    Record.ofFindings (findings.map (Finding.rename old new)) =
      { Record.ofFindings findings with
        reassigned := (Record.ofFindings findings).reassigned.map
          fun name => if name = old then new else name } := by
  let pick : Finding → Option String := fun
    | .reassigned name => some name
    | _ => none
  have hpick : (findings.map (Finding.rename old new)).filterMap pick =
      (findings.filterMap pick).map fun name => if name = old then new else name := by
    rw [List.filterMap_map, List.map_filterMap]
    refine List.filterMap_congr fun finding _ => ?_
    cases finding with
    | _ => rfl
  have hother : ∀ name ∈ findings.filterMap pick, name ≠ new := by
    rintro name hmem rfl
    obtain ⟨finding, hfinding, heq⟩ := List.mem_filterMap.mp hmem
    cases finding with
    | reassigned other =>
        cases heq
        exact hnew hfinding
    | _ => cases heq
  have hreassigned : ((findings.map (Finding.rename old new)).filterMap pick).foldl addName [] =
      ((findings.filterMap pick).foldl addName []).map
        fun name => if name = old then new else name := by
    rw [hpick]
    -- Two names that become one are the same, for the new name is not among them.
    refine @map_foldl_addName _ _ [] fun a ha b hb heq => ?_
    split at heq
    · next haOld =>
      split at heq
      · next hbOld => rw [haOld, hbOld]
      · exact absurd heq.symm (hother b hb)
    · split at heq
      · exact absurd heq (hother a ha)
      · exact heq
  rw [List.filterMap_map] at hreassigned
  simp only [Record.ofFindings, Record.mk.injEq, List.filterMap_map, List.findSome?_map]
  refine ⟨?_, ?_, ?_, ?_, ?_, hreassigned, ?_, ?_, ?_, ?_, ?_, ?_⟩
  all_goals first
    | exact decide_eq_decide.mpr (Finding.mem_map_rename (by simp))
    | rw [Finding.comp_rename fun _ => rfl]

end Capture

/-! ### Loops -/

/-- Rename a loop variable throughout its loop. -/
def Loop.renameVariable (loop : Loop) (old new : String) : Loop :=
  { loop.renameHead old new with body := loop.body.rename old new }

section

variable {loop : Loop} {old new : String}

/-- At the top of the renamed loop the new name leads to the head instead of the old one. -/
theorem Loop.context_renames (hold : old ∈ loop.decl.names) (inBody : Bool) :
    (loop.context inBody).Renames old new ((loop.renameVariable old new).context inBody) where
  inBody := rfl
  inNestedLoop := rfl
  inInnerLoop := rfl
  inClosure := rfl
  inFunction := rfl
  means name crossed hnameOld hnameNew := by
    have hmem : name ∈ (loop.renameVariable old new).decl.names ↔ name ∈ loop.decl.names := by
      show name ∈ (loop.renameHead old new).decl.names ↔ _
      rw [Loop.declNames_renameHead, List.mem_map]
      constructor
      · rintro ⟨other, hother, heq⟩
        split at heq
        · exact absurd heq.symm hnameNew
        · exact heq ▸ hother
      · intro h
        exact ⟨name, h, if_neg hnameOld⟩
    simp only [Loop.context, Capture.Context.resolveFrom, hmem]
  renamed crossed := by
    have hmem : new ∈ (loop.renameVariable old new).decl.names := by
      show new ∈ (loop.renameHead old new).decl.names
      rw [Loop.declNames_renameHead, List.mem_map]
      exact ⟨old, hold, if_pos rfl⟩
    refine ⟨crossed, ?_, ?_⟩
    · simp only [Loop.context, Capture.Context.resolveFrom, if_pos hold]
    · simp only [Loop.context, Capture.Context.resolveFrom, if_pos hmem]

/-- The trees a loop is made of, its labels left out. -/
def Loop.trees (loop : Loop) : List Node := loop.decl.toNode :: loop.head.exprs ++ [loop.body]

theorem Loop.isWellFormed_of_mem_trees (hwf : loop.WellFormed) {tree : Node}
    (h : tree ∈ loop.trees) :
    tree.isWellFormed = true := by
  rcases List.mem_append.mp h with h | h
  · rcases List.mem_cons.mp h with rfl | h
    · exact hwf.decl
    · exact (hwf.exprs tree h).2
  · rw [List.mem_singleton.mp h]
    exact hwf.body.2

/-- A renamed declaration has renamed declarators. -/
theorem Loop.declToNode_renameHead (hne : old ≠ new) :
    (loop.renameHead old new).decl.toNode = loop.decl.toNode.substitute old new := by
  show Node.varDecl loop.decl.kind loop.decl.declare loop.decl.span
    (loop.decl.declarators.map (·.rename old new)) = _
  simp only [Node.rename, if_neg hne]
  rw [← substituteIn_eq_map]
  unfold Declaration.toNode Node.substitute
  rw [if_neg (by simp [Node.scopeNames, Node.headNames])]

/-- A name that is nowhere in a loop is none of its variables. -/
theorem Loop.notMem_declNames {name : String} (h : ∀ tree ∈ loop.trees, name ∉ tree.names) :
    name ∉ loop.decl.names := by
  intro hname
  refine h loop.decl.toNode List.mem_cons_self ?_
  exact List.mem_append_right _ (bindingNamesOf_subset _ hname)

theorem Loop.findings_renameVariable (hwf : loop.WellFormed) (hold : old ∈ loop.decl.names)
    (hargumentsOld : old ≠ "arguments") (hargumentsNew : new ≠ "arguments")
    (hnew : ∀ tree ∈ loop.trees, new ∉ tree.names)
    (hplain : ∀ tree ∈ loop.trees, tree.everywhere Node.hasPlainKey = true)
    (hvars : old ∉ loop.body.varNames) :
    (loop.renameVariable old new).findings =
      loop.findings.map (Capture.Finding.rename old new) := by
  have hne : old ≠ new := by
    rintro rfl
    exact Loop.notMem_declNames hnew hold
  have htree : ∀ inBody, ∀ tree ∈ loop.trees, (inBody = true → old ∉ tree.varNames) →
      Capture.findings ((loop.renameVariable old new).context inBody) (tree.rename old new) =
        (Capture.findings (loop.context inBody) tree).map (Capture.Finding.rename old new) := by
    intro inBody tree hmem hvars
    rw [Node.rename, if_neg hne]
    exact (Loop.context_renames hold inBody).findings hargumentsOld hargumentsNew
      (Loop.isWellFormed_of_mem_trees hwf hmem) (hplain tree hmem) (hnew tree hmem)
      fun hbody _ => hvars hbody
  have hhead : loop.decl.toNode ∈ loop.trees := List.mem_cons_self
  have hexpr : ∀ expr ∈ loop.head.exprs, expr ∈ loop.trees := fun expr hmem => by
    simp [Loop.trees, hmem]
  have hbody : loop.body ∈ loop.trees := by simp [Loop.trees]
  show Capture.findings ((loop.renameVariable old new).context false)
        (loop.renameHead old new).decl.toNode ++
      Capture.findingsIn ((loop.renameVariable old new).context false)
        (loop.head.map (·.rename old new)).exprs ++
      Capture.findings ((loop.renameVariable old new).context true) (loop.body.rename old new) =
    (Capture.findings (loop.context false) loop.decl.toNode ++
      Capture.findingsIn (loop.context false) loop.head.exprs ++
      Capture.findings (loop.context true) loop.body).map (Capture.Finding.rename old new)
  rw [List.map_append, List.map_append, htree true loop.body hbody fun _ => hvars,
    Loop.declToNode_renameHead hne]
  congr 2
  · have hdecl := htree false loop.decl.toNode hhead fun h => by cases h
    rwa [Node.rename, if_neg hne] at hdecl
  · rw [LoopHead.exprs_map, Capture.findingsIn_eq_flatMap, Capture.findingsIn_eq_flatMap,
      List.flatMap_map, List.map_flatMap]
    exact List.flatMap_congr fun expr hmem => htree false expr (hexpr expr hmem) fun h => by cases h

end

/-- The analysis of a loop does not depend on what a loop variable is called: if the variable gets
a name that is nowhere in the loop, the record is the one it was, and only where it lists the
variables that the body assigns does it say the new name.  No `var` of the body has the name of the
variable, and neither of the two names is `arguments`. -/
theorem Loop.capture_renameVariable {loop : Loop} {old new : String} (hwf : loop.WellFormed)
    (hold : old ∈ loop.decl.names) (hargumentsOld : old ≠ "arguments")
    (hargumentsNew : new ≠ "arguments") (hnew : ∀ tree ∈ loop.trees, new ∉ tree.names)
    (hplain : ∀ tree ∈ loop.trees, tree.everywhere Node.hasPlainKey = true)
    (hvars : old ∉ loop.body.varNames) :
    (loop.renameVariable old new).capture =
      { loop.capture with
        reassigned := loop.capture.reassigned.map fun name => if name = old
          then new else name } := by
  have hunassigned : Capture.Finding.reassigned new ∉ loop.findings := by
    intro hmem
    obtain ⟨path, node, -, hown⟩ := Loop.reassigned_mem_findings_iff.mp hmem
    obtain ⟨-, -, hhead⟩ := Capture.Context.reassigned_mem_own.mp hown
    exact Loop.notMem_declNames hnew (Loop.toHead_along.mp hhead).1
  rw [Loop.capture, Loop.findings_renameVariable hwf hold hargumentsOld
    hargumentsNew hnew hplain hvars]
  exact Capture.Record.ofFindings_rename hunassigned

/-- The loop `for (let i = 0; i < 3; ) { ({ i = 1 } = a); fns.push(() => ({ i })); { let i; i++; }
}`. -/
def collectingLoop : Loop :=
  let at0 := Span.generated
  { labels := []
    span := at0
    decl := ⟨.lexical false, false, at0,
      [.declarator false at0 (.binding "i" false at0 .absent) (.mk (.number 0 none) at0 [])]⟩
    head := .plain (.mk (.binary "<") at0 [.use "i" at0, .mk (.number 3 none) at0 []]) .absent
    body := .block at0
      [.exprStmt (.mk .paren at0 [.mk (.assign "=") at0
        [.mk (.objectPat false) at0
          [.list [.mk .assignPatProp at0
            [.binding "i" false at0 .absent, .mk (.number 1 none) at0 []]], .absent],
         .use "a" at0]]),
       .exprStmt (.mk .call at0 [.memberOf (.use "fns" at0) "push" at0,
        .list [.mk (.arg none) at0 [.mk (.arrow false false) at0
          [.list [], .mk .paren at0 [.mk .object at0 [.mk (.ident .short "i" false) at0 []]],
            .absent]]]]),
       .block at0
        [.varDecl (.lexical false) false at0
          [.declarator false at0 (.binding "i" false at0 .absent) .absent],
         .exprStmt (.mk (.update "++" false) at0 [.use "i" at0])]] }

/-- The variable of this loop may be called `j`. -/
theorem collectingLoop_renamed :
    collectingLoop.WellFormed ∧ "i" ∈ collectingLoop.decl.names ∧
      (∀ tree ∈ collectingLoop.trees, "j" ∉ tree.names) ∧
      (∀ tree ∈ collectingLoop.trees, tree.everywhere Node.hasPlainKey = true) ∧
      "i" ∉ collectingLoop.body.varNames ∧ collectingLoop.capture.reassigned = ["i"] ∧
      (collectingLoop.renameVariable "i" "j").capture =
        { collectingLoop.capture with
          reassigned := collectingLoop.capture.reassigned.map
            fun name => if name = "i" then "j" else name } := by
  have hwf : collectingLoop.WellFormed := ⟨by decide +kernel, by decide +kernel, by decide +kernel⟩
  have hname : "i" ∈ collectingLoop.decl.names := by decide +kernel
  have hnew : ∀ tree ∈ collectingLoop.trees, "j" ∉ tree.names := by decide +kernel
  have hplain : ∀ tree ∈ collectingLoop.trees, tree.everywhere Node.hasPlainKey = true := by
    decide +kernel
  have hvars : "i" ∉ collectingLoop.body.varNames := by decide +kernel
  refine ⟨hwf, hname, hnew, hplain, hvars, by decide +kernel, ?_⟩
  exact Loop.capture_renameVariable hwf hname (by decide) (by decide) hnew hplain hvars

end LoopLowering
