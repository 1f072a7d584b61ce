/-
What a loop body binds around its `continue`s.

When the body of a loop becomes a function, a `continue` becomes a return, and what has to be done
before it is done in its place.  It is done under the names that the body binds around the
`continue`: the names declared in the blocks around it, the names of the `switch`, of the `catch`
clause, of the loop that it stands in.  `Node.around` collects these.

A `let` or `const` in a block becomes a `var`, unless a nested loop with a block-scoped head comes
in between, and is renamed if its name is that of a loop variable.  So it is left out there, and
what is collected of a body is what remains around its `continue`s in the function.  That no step
on the way adds a name is said of one name at a time, since a step may rename it:
`Node.Follows name name'` says that wherever `name'` is bound in the second tree `name` is bound in
the first.
-/
import LoopLowering.Proofs.Dispatch
import LoopLowering.Proofs.SameLoops

namespace LoopLowering

/-! ### Names around a `continue` -/

/-- Whether a jump goes on to the next iteration. -/
def Jump.isNext : Jump → Bool
  | .site ⟨.next, _⟩ => true
  | _ => false

/-- Whether a `continue` of the loop stands in a node. -/
def Node.goesOn (ctx : JumpContext) (node : Node) : Bool := (node.jumps ctx).any Jump.isNext

mutual

/-- The names a node declares in the scope it stands in, `let` and `const` only if asked for.  What
a case of a `switch` declares, it declares for the `switch`. -/
def Node.declared (lexical : Bool) : Node → List String
  | .mk (.varDecl (.lexical _) _) _ declarators =>
    if lexical then bindingNamesOf declarators else []
  | .mk (.usingDecl _) _ declarators => bindingNamesOf declarators
  | .mk (.classDecl _) _ (title :: _) => title.names
  | .mk (.functionDecl _) _ (title :: _) => title.names
  | .mk .list _ items => declaredIn items
  | .mk .switchCase _ parts => declaredIn parts
  | .mk .caseBody _ stmts => declaredIn stmts
  | _ => []

/-- The names the nodes of a list declare in the scope they stand in. -/
def declaredIn : List Node → List String
  | [] => []
  | node :: nodes => node.declared true ++ declaredIn nodes

end

/-- The names a node binds around the statements in it. -/
def Node.bound (lexical : Bool) : Node → List String
  | .mk .block _ stmts => stmts.flatMap (Node.declared lexical)
  | .mk .catchClause _ (param :: _) => param.bindingNames
  | .mk .switchStmt _ parts => parts.flatMap (Node.declared true)
  | .mk form _ parts => if form.isLoop then parts.flatMap (Node.declared true) else []

mutual

/-- The names a node binds around the `continue`s in it.  The `let` and `const` of blocks are left
out if asked for, but not in a nested loop with a block-scoped head. -/
def Node.around (lexical : Bool) (ctx : JumpContext) : Node → List String
  | .mk form span parts =>
    if form.isClosure then []
    else
      (if parts.any (Node.goesOn (ctx.enter form)) then
        (Node.mk form span parts).bound (lexical || (Node.mk form span parts).isBlockLoop)
        else []) ++
        aroundIn (lexical || (Node.mk form span parts).isBlockLoop) (ctx.enter form) parts

/-- The names the nodes of a list bind around the `continue`s in them. -/
def aroundIn (lexical : Bool) (ctx : JumpContext) : List Node → List String
  | [] => []
  | node :: nodes => node.around lexical ctx ++ aroundIn lexical ctx nodes

end

theorem declaredIn_eq_flatMap (nodes : List Node) :
    declaredIn nodes = nodes.flatMap (Node.declared true) := by
  induction nodes with
  | nil => rfl
  | cons node nodes ih => rw [declaredIn, ih, List.flatMap_cons]

theorem aroundIn_eq_flatMap (lexical : Bool) (ctx : JumpContext) (nodes : List Node) :
    aroundIn lexical ctx nodes = nodes.flatMap (Node.around lexical ctx) := by
  induction nodes with
  | nil => rfl
  | cons node nodes ih => rw [aroundIn, ih, List.flatMap_cons]

/-! ### Nodes of one form -/

section

variable {form : Form} {span : Span} {parts : List Node}

theorem Node.goesOn_mk {ctx : JumpContext} (hclosure : form.isClosure = false)
    (hjump : form.isJump = false) :
    (Node.mk form span parts).goesOn ctx = parts.any (Node.goesOn (ctx.enter form)) := by
  rw [Node.goesOn, Node.jumps_mk ctx form span hclosure hjump, jumpsIn_eq_flatMap, List.any_flatMap]
  rfl

theorem Node.goesOn_of_isClosure {ctx : JumpContext} (h : form.isClosure = true) :
    (Node.mk form span parts).goesOn ctx = false := by
  unfold Node.goesOn Node.jumps
  rw [if_pos h, List.any_nil]

theorem Node.mem_around {lexical : Bool} {ctx : JumpContext} {name : String} :
    name ∈ (Node.mk form span parts).around lexical ctx ↔ form.isClosure = false ∧
      (parts.any (Node.goesOn (ctx.enter form)) = true ∧
          name ∈ (Node.mk form span parts).bound
            (lexical || (Node.mk form span parts).isBlockLoop) ∨
        ∃ part ∈ parts, name ∈
          part.around (lexical || (Node.mk form span parts).isBlockLoop) (ctx.enter form)) := by
  rw [Node.around, aroundIn_eq_flatMap]
  cases form.isClosure with
  | true => simp
  | false =>
      cases parts.any (Node.goesOn (ctx.enter form)) <;> simp

end

/-- A quiet node has no `continue` outside closures. -/
theorem Node.goesOn_of_isQuiet {node : Node} (hwf : node.isWellFormed = true)
    (hquiet : node.isQuiet = true) (ctx : JumpContext) : node.goesOn ctx = false := by
  induction node using Node.inductionOn generalizing ctx with
  | step form span parts ih =>
      cases hclosure : form.isClosure with
      | true => exact Node.goesOn_of_isClosure hclosure
      | false =>
          have hjump : form.isJump = false := by
            cases form with
            | breakStmt | continueStmt | returnStmt => cases hquiet
            | _ => rfl
          rw [Node.goesOn_mk hclosure hjump, List.any_eq_false]
          intro part hmem
          rw [ih part hmem (Node.isWellFormed_part hwf hmem)
            (Node.isQuiet_part hwf hquiet hclosure hmem)]
          exact Bool.false_ne_true

theorem Node.around_of_isQuiet {node : Node} (hwf : node.isWellFormed = true)
    (hquiet : node.isQuiet = true) (lexical : Bool) (ctx : JumpContext) :
    node.around lexical ctx = [] := by
  induction node using Node.inductionOn generalizing lexical ctx with
  | step form span parts ih =>
      refine List.eq_nil_iff_forall_not_mem.mpr fun name hname => ?_
      obtain ⟨hclosure, hname⟩ := Node.mem_around.mp hname
      have hparts : ∀ part ∈ parts, part.isWellFormed = true ∧ part.isQuiet = true :=
        fun part hmem =>
        ⟨Node.isWellFormed_part hwf hmem, Node.isQuiet_part hwf hquiet hclosure hmem⟩
      rcases hname with ⟨hany, -⟩ | ⟨part, hmem, hname⟩
      · obtain ⟨part, hmem, hgoes⟩ := List.any_eq_true.mp hany
        rw [Node.goesOn_of_isQuiet (hparts part hmem).1 (hparts part hmem).2] at hgoes
        cases hgoes
      · rw [ih part hmem (hparts part hmem).1 (hparts part hmem).2] at hname
        cases hname

/-! ### They are names of the tree -/

theorem flatMap_subset_names {read : Node → List String} {form : Form} {span : Span}
    {parts : List Node} (h : ∀ part ∈ parts, read part ⊆ part.names) :
    parts.flatMap read ⊆ (Node.mk form span parts).names := by
  intro name hname
  obtain ⟨part, hmem, hname⟩ := List.mem_flatMap.mp hname
  exact Node.names_subset_of_mem hmem (h part hmem hname)

theorem Node.declared_subset (lexical : Bool) (node : Node) :
    node.declared lexical ⊆ node.names := by
  induction node using Node.inductionOn generalizing lexical with
  | step form span parts ih =>
      have hbinding : bindingNamesOf parts ⊆ (Node.mk form span parts).names := by
        rw [bindingNamesOf_eq_flatMap]
        exact flatMap_subset_names fun part _ => part.bindingNames_subset
      have hparts : declaredIn parts ⊆ (Node.mk form span parts).names := by
        rw [declaredIn_eq_flatMap]
        exact flatMap_subset_names fun part hmem => ih part hmem true
      unfold Node.declared
      split
      · next heq =>
        cases heq
        split
        · exact hbinding
        · exact List.nil_subset _
      · next heq =>
        cases heq
        exact hbinding
      · next heq =>
        cases heq
        exact Node.names_subset_of_mem List.mem_cons_self
      · next heq =>
        cases heq
        exact Node.names_subset_of_mem List.mem_cons_self
      · next heq =>
        cases heq
        exact hparts
      · next heq =>
        cases heq
        exact hparts
      · next heq =>
        cases heq
        exact hparts
      · exact List.nil_subset _

theorem Node.bound_subset (lexical : Bool) (node : Node) : node.bound lexical ⊆ node.names := by
  unfold Node.bound
  split
  · exact flatMap_subset_names fun part _ => part.declared_subset lexical
  · next param _ =>
    exact List.Subset.trans param.bindingNames_subset (Node.names_subset_of_mem List.mem_cons_self)
  · exact flatMap_subset_names fun part _ => part.declared_subset true
  · split
    · exact flatMap_subset_names fun part _ => part.declared_subset true
    · exact List.nil_subset _

theorem Node.around_subset (lexical : Bool) (ctx : JumpContext) (node : Node) :
    node.around lexical ctx ⊆ node.names := by
  induction node using Node.inductionOn generalizing lexical ctx with
  | step form span parts ih =>
      intro name hname
      rcases (Node.mem_around.mp hname).2 with ⟨-, hname⟩ | ⟨part, hmem, hname⟩
      · exact Node.bound_subset _ _ hname
      · exact Node.names_subset_of_mem hmem (ih part hmem _ _ hname)

/-! ### One name followed from tree to tree -/

/-- Wherever the second name is in the second tree, the first name is in the first tree: as a name,
as a name that is bound, and as a name that is bound around a `continue`. -/
structure Node.Follows (name name' : String) (lexical lexical' : Bool) (a b : Node) : Prop where
  names : name' ∈ b.names → name ∈ a.names
  binding : name' ∈ b.bindingNames → name ∈ a.bindingNames
  declared : ∀ lexical, name' ∈ b.declared lexical → name ∈ a.declared lexical
  vars : name' ∈ b.varNames → name ∈ a.varNames
  around : ∀ ctx, name' ∈ b.around lexical' ctx → name ∈ a.around lexical ctx
  goesOn : ∀ ctx, b.goesOn ctx = true → a.goesOn ctx = true

/-- Every tree of the second list follows one of the first. -/
def FollowsIn (name name' : String) (lexical lexical' : Bool) (nodes others : List Node) : Prop :=
  ∀ other ∈ others, ∃ node ∈ nodes, node.Follows name name' lexical lexical' other

section

variable {name name' : String} {lexical lexical' : Bool} {nodes others : List Node}

/-- A tree follows itself unless it has the second name. -/
theorem Node.Follows.self {node : Node} (h : name' ∈ node.names → name = name') :
    node.Follows name name' lexical lexical node := by
  have hsame : ∀ {names : List String}, names ⊆ node.names → name' ∈ names → name ∈ names := by
    intro names hsub hmem
    rw [h (hsub hmem)]
    exact hmem
  exact ⟨hsame (List.Subset.refl _), hsame node.bindingNames_subset,
    fun lexical => hsame (node.declared_subset lexical), hsame node.varNames_subset,
    fun ctx => hsame (node.around_subset lexical ctx), fun _ => id⟩

theorem Node.Follows.trans {last : String} {lexical'' : Bool} {a b c : Node}
    (hab : a.Follows name name' lexical lexical' b)
    (hbc : b.Follows name' last lexical' lexical'' c) :
    a.Follows name last lexical lexical'' c :=
  ⟨hab.names ∘ hbc.names, hab.binding ∘ hbc.binding,
    fun lexical => hab.declared lexical ∘ hbc.declared lexical, hab.vars ∘ hbc.vars,
    fun ctx => hab.around ctx ∘ hbc.around ctx, fun ctx => hab.goesOn ctx ∘ hbc.goesOn ctx⟩

theorem exists_related_of_forall₂ {α β : Type} {related : α → β → Prop} {nodes : List α}
    {others : List β} (h : List.Forall₂ related nodes others) :
    ∀ other ∈ others, ∃ node ∈ nodes, related node other := by
  induction h with
  | nil => exact fun other hmem => absurd hmem List.not_mem_nil
  | cons hhead _ ih =>
      intro other hmem
      rcases List.mem_cons.mp hmem with rfl | hmem
      · exact ⟨_, List.mem_cons_self, hhead⟩
      · obtain ⟨node, hnode, hrelated⟩ := ih other hmem
        exact ⟨node, List.mem_cons_of_mem _ hnode, hrelated⟩

/-- What is related one by one is in the two lists. -/
theorem forall₂_with_mem {α β : Type} {related : α → β → Prop} {nodes : List α} {others : List β}
    (h : List.Forall₂ related nodes others) :
    List.Forall₂ (fun node other => node ∈ nodes ∧ other ∈ others ∧ related node other)
      nodes others := by
  obtain ⟨hlength, hrelated⟩ := List.forall₂_iff_zip.mp h
  refine List.forall₂_iff_zip.mpr ⟨hlength, fun hmem => ?_⟩
  obtain ⟨hnode, hother⟩ := List.of_mem_zip hmem
  exact ⟨hnode, hother, hrelated hmem⟩

theorem FollowsIn.of_forall₂
    (h : List.Forall₂ (Node.Follows name name' lexical lexical') nodes others) :
    FollowsIn name name' lexical lexical' nodes others :=
  exists_related_of_forall₂ h

theorem FollowsIn.map {f : Node → Node}
    (h : ∀ node ∈ nodes, node.Follows name name' lexical lexical' (f node)) :
    FollowsIn name name' lexical lexical' nodes (nodes.map f) := by
  intro other hmem
  obtain ⟨node, hnode, rfl⟩ := List.mem_map.mp hmem
  exact ⟨node, hnode, h node hnode⟩

theorem FollowsIn.trans {last : String} {lexical'' : Bool} {more : List Node}
    (h : FollowsIn name name' lexical lexical' nodes others)
    (hmore : FollowsIn name' last lexical' lexical'' others more) :
    FollowsIn name last lexical lexical'' nodes more := by
  intro third hthird
  obtain ⟨other, hother, hlast⟩ := hmore third hthird
  obtain ⟨node, hnode, hfirst⟩ := h other hother
  exact ⟨node, hnode, hfirst.trans hlast⟩

/-- What is read off each tree of a list is followed if it is followed in each tree. -/
theorem FollowsIn.mem_flatMap (h : FollowsIn name name' lexical lexical' nodes others)
    {read read' : Node → List String}
    (hread : ∀ a b : Node, a.Follows name name' lexical lexical' b →
      name' ∈ read' b → name ∈ read a)
    (hmem : name' ∈ others.flatMap read') : name ∈ nodes.flatMap read := by
  obtain ⟨other, hother, hname⟩ := List.mem_flatMap.mp hmem
  obtain ⟨node, hnode, hfollows⟩ := h other hother
  exact List.mem_flatMap.mpr ⟨node, hnode, hread node other hfollows hname⟩

end

/-! ### The same node around other parts -/

section

variable {name name' : String} {lexical lexical' : Bool} {form : Form} {span : Span}
  {parts parts' : List Node}

/-- A node follows another of its form if its parts do, and what it binds by itself. -/
theorem Node.Follows.of_parts (hname : name' ∈ form.names → name = name')
    (hparts : FollowsIn name name' (lexical || (Node.mk form span parts).isBlockLoop)
      (lexical' || (Node.mk form span parts').isBlockLoop) parts parts')
    (hbinding : name' ∈ (Node.mk form span parts').bindingNames →
      name ∈ (Node.mk form span parts).bindingNames)
    (hdeclared : ∀ lexical, name' ∈ (Node.mk form span parts').declared lexical →
      name ∈ (Node.mk form span parts).declared lexical)
    (hbound : name' ∈ (Node.mk form span parts').bound
        (lexical' || (Node.mk form span parts').isBlockLoop) →
      name ∈ (Node.mk form span parts).bound (lexical || (Node.mk form span parts).isBlockLoop)) :
    (Node.mk form span parts).Follows name name' lexical lexical' (.mk form span parts') := by
  have hany : ∀ ctx, parts'.any (Node.goesOn ctx) = true → parts.any (Node.goesOn ctx) = true := by
    intro ctx hany
    obtain ⟨other, hother, hgoes⟩ := List.any_eq_true.mp hany
    obtain ⟨node, hnode, hfollows⟩ := hparts other hother
    exact List.any_eq_true.mpr ⟨node, hnode, hfollows.goesOn ctx hgoes⟩
  refine ⟨fun hmem => ?_, hbinding, hdeclared, fun hmem => ?_, fun ctx hmem =>
    ?_, fun ctx hgoes => ?_⟩
  · rw [Node.names, namesOf_eq_flatMap, List.mem_append] at hmem ⊢
    rcases hmem with hmem | hmem
    · exact Or.inl (hname hmem ▸ hmem)
    · exact Or.inr (hparts.mem_flatMap (fun a b h => h.names) hmem)
  · unfold Node.varNames at hmem ⊢
    split at hmem
    · cases hmem
    · next hclosure =>
      rw [if_neg hclosure]
      split at hmem
      · rw [bindingNamesOf_eq_flatMap] at hmem ⊢
        exact hparts.mem_flatMap (fun a b h => h.binding) hmem
      · rw [varNamesOf_eq_flatMap] at hmem ⊢
        exact hparts.mem_flatMap (fun a b h => h.vars) hmem
  · obtain ⟨hclosure, hmem⟩ := Node.mem_around.mp hmem
    refine Node.mem_around.mpr ⟨hclosure, ?_⟩
    rcases hmem with ⟨hgoes, hmem⟩ | ⟨other, hother, hmem⟩
    · exact Or.inl ⟨hany _ hgoes, hbound hmem⟩
    · obtain ⟨node, hnode, hfollows⟩ := hparts other hother
      exact Or.inr ⟨node, hnode, hfollows.around _ hmem⟩
  · cases hclosure : form.isClosure with
    | true =>
        rw [Node.goesOn_of_isClosure hclosure] at hgoes
        cases hgoes
    | false =>
        cases hjump : form.isJump with
        | false =>
            rw [Node.goesOn_mk hclosure hjump] at hgoes ⊢
            exact hany _ hgoes
        | true =>
            cases form with
            | breakStmt | continueStmt | returnStmt => exact hgoes
            | _ => cases hjump

theorem Node.Follows.bindingNames_node
    (h : List.Forall₂ (Node.Follows name name' lexical lexical') parts parts')
    (hname : name' ∈ form.names → name = name')
    (hmem : name' ∈ (Node.mk form span parts').bindingNames) :
    name ∈ (Node.mk form span parts).bindingNames := by
  cases form with
  | ident role =>
      cases role with
      | bind => exact hname hmem ▸ hmem
      | _ => cases hmem
  | list =>
      change name' ∈ bindingNamesOf parts' at hmem
      show name ∈ bindingNamesOf parts
      rw [bindingNamesOf_eq_flatMap] at hmem ⊢
      exact (FollowsIn.of_forall₂ h).mem_flatMap (fun a b h => h.binding) hmem
  | arrayPat | objectPat | rest | assignPat | assignPatProp | declarator =>
      rcases h with _ | ⟨hfirst, _ | ⟨_, _ | _⟩⟩
      · cases hmem
      · cases hmem
      · exact hfirst.binding hmem
      · cases hmem
  | keyValuePat | parameter | parameterProperty =>
      rcases h with _ | ⟨_, _ | ⟨hsecond, _ | _⟩⟩
      · cases hmem
      · cases hmem
      · exact hsecond.binding hmem
      · cases hmem
  | _ => cases hmem

theorem Node.Follows.declared_node
    (h : List.Forall₂ (Node.Follows name name' lexical lexical') parts parts') (counted : Bool)
    (hmem : name' ∈ (Node.mk form span parts').declared counted) :
    name ∈ (Node.mk form span parts).declared counted := by
  have hin := FollowsIn.of_forall₂ h
  have hbinding : name' ∈ bindingNamesOf parts' → name ∈ bindingNamesOf parts := by
    rw [bindingNamesOf_eq_flatMap, bindingNamesOf_eq_flatMap]
    exact hin.mem_flatMap fun a b h => h.binding
  have hdeclared : name' ∈ declaredIn parts' → name ∈ declaredIn parts := by
    rw [declaredIn_eq_flatMap, declaredIn_eq_flatMap]
    exact hin.mem_flatMap fun a b h => h.declared true
  cases form with
  | varDecl kind =>
      cases kind with
      | var => cases hmem
      | lexical =>
          cases counted with
          | true => exact hbinding hmem
          | false => cases hmem
  | usingDecl => exact hbinding hmem
  | classDecl | functionDecl =>
      cases h with
      | nil => cases hmem
      | cons hhead _ => exact hhead.names hmem
  | list | switchCase | caseBody => exact hdeclared hmem
  | _ => cases hmem

/-- What a node binds around its statements, where blocks count `let` and `const` alike. -/
theorem Node.Follows.bound_node
    (h : List.Forall₂ (Node.Follows name name' lexical lexical') parts parts')
    {counted counted' : Bool} (hblock : form = .block → counted = counted')
    (hmem : name' ∈ (Node.mk form span parts').bound counted') :
    name ∈ (Node.mk form span parts).bound counted := by
  have hin := FollowsIn.of_forall₂ h
  cases form with
  | block =>
      rw [hblock rfl]
      exact hin.mem_flatMap (fun a b h => h.declared counted') hmem
  | catchClause =>
      cases h with
      | nil => cases hmem
      | cons hhead _ => exact hhead.binding hmem
  | switchStmt | forStmt | forInStmt | forOfStmt | whileStmt | doWhileStmt =>
      exact hin.mem_flatMap (fun a b h => h.declared true) hmem
  | _ => cases hmem

/-- The same node around parts of which each follows the one in its place. -/
theorem Node.Follows.node (hname : name' ∈ form.names → name = name')
    (hloop : (Node.mk form span parts').isBlockLoop = (Node.mk form span parts).isBlockLoop)
    (hblock : form = .block → lexical = lexical')
    (hparts : List.Forall₂
      (Node.Follows name name' (lexical || (Node.mk form span parts).isBlockLoop)
      (lexical' || (Node.mk form span parts).isBlockLoop)) parts parts') :
    (Node.mk form span parts).Follows name name' lexical lexical' (.mk form span parts') := by
  refine .of_parts hname ?_ (Node.Follows.bindingNames_node hparts hname)
    (Node.Follows.declared_node hparts) (Node.Follows.bound_node hparts fun hform => ?_)
  · rw [hloop]
    exact .of_forall₂ hparts
  · rw [hloop, hblock hform]

end

/-- A list of statements may be followed in any order. -/
theorem Node.Follows.stmts {name name' : String} {lexical lexical' : Bool}
    {form : Form} {span : Span} {stmts stmts' : List Node} (hholds : form.holdsStmts = true)
    (hstmts : FollowsIn name name' lexical lexical' stmts stmts')
    (hbound : name' ∈ stmts'.flatMap (Node.declared lexical') →
      name ∈ stmts.flatMap (Node.declared lexical)) :
    (Node.mk form span stmts).Follows name name' lexical lexical' (.mk form span stmts') := by
  have hform := Form.eq_of_holdsStmts hholds
  have hplain : ∀ lexical stmts, (lexical || (Node.mk form span stmts).isBlockLoop) = lexical := by
    intro lexical stmts
    obtain rfl | rfl := hform
    · exact Bool.or_false lexical
    · exact Bool.or_false lexical
  refine .of_parts ?_ ?_ ?_ ?_ ?_
  · obtain rfl | rfl := hform
    · exact fun hmem => absurd hmem List.not_mem_nil
    · exact fun hmem => absurd hmem List.not_mem_nil
  · rw [hplain, hplain]
    exact hstmts
  · obtain rfl | rfl := hform
    · exact fun hmem => absurd hmem List.not_mem_nil
    · exact fun hmem => absurd hmem List.not_mem_nil
  · obtain rfl | rfl := hform
    · exact fun _ hmem => absurd hmem List.not_mem_nil
    · intro lexical hmem
      rw [Node.declared, declaredIn_eq_flatMap] at hmem ⊢
      exact hstmts.mem_flatMap (fun a b h => h.declared true) hmem
  · rw [hplain, hplain]
    obtain rfl | rfl := hform
    · exact hbound
    · exact fun hmem => absurd hmem List.not_mem_nil

/-! ### Nodes without statements -/

/-- A node without statements declares no `var`. -/
theorem Node.varNames_of_isStill {node : Node} (hwf : node.isWellFormed = true)
    (hstill : node.allAre (·.isStill) = true) : node.varNames = [] := by
  induction node using Node.inductionOn with
  | step form span parts ih =>
      unfold Node.varNames
      split
      · rfl
      · next hclosure =>
        have hcategory : form ≠ .list → form.category.isStill = true := by
          intro hform
          rwa [Node.allAre, if_neg (by simpa [Node.form] using hform)] at hstill
        split
        · cases hcategory (by simp)
        · rw [varNamesOf_eq_flatMap, List.flatMap_eq_nil_iff]
          intro part hmem
          refine ih part hmem (Node.isWellFormed_part hwf hmem) (Node.allAre_part rfl rfl hwf hstill
            (fun hform => Form.isStill_slots (hcategory hform) (by simpa using hclosure)) hmem)

/-- Outside closures a name that no `var` of a node declares is declared by no `var` of its
parts. -/
theorem Node.notMem_varNames_part {form : Form} {span : Span} {parts : List Node} {part : Node}
    {name : String} (hwf : (Node.mk form span parts).isWellFormed = true)
    (hclosure : form.isClosure = false) (h : name ∉ (Node.mk form span parts).varNames)
    (hmem : part ∈ parts) : name ∉ part.varNames := by
  intro hname
  unfold Node.varNames at h
  rw [if_neg (by simp [hclosure])] at h
  split at h
  · -- The declarators of a `var` declare names, and hold no other `var`.
    have hadmits := (Node.isWellFormed_mk.mp hwf).1.resolve_left (by simp)
    obtain ⟨slot, hslot, hpart⟩ := Shape.exists_slot hadmits hmem
    obtain rfl := List.mem_singleton.mp hslot
    have hstill : part.allAre (·.isStill) = true :=
      Slot.allAre_of_admits rfl rfl (by decide) hpart
    rw [Node.varNames_of_isStill (Node.isWellFormed_part hwf hmem) hstill] at hname
    cases hname
  · rw [varNamesOf_eq_flatMap] at h
    exact h (List.mem_flatMap.mpr ⟨part, hmem, hname⟩)

theorem Node.isQuiet_of_isStill {node : Node} (h : node.allAre (·.isStill) = true) :
    node.isQuiet = true := by
  have hkind : ∀ category : Category, category.isStill = true → category.isQuiet = true :=
    fun category hcategory => (Bool.and_eq_true_iff.mp hcategory).1
  unfold Node.isQuiet Node.allAre at *
  split
  · rw [if_pos ‹_›, List.all_eq_true] at h
    exact List.all_eq_true.mpr fun part hmem => hkind _ (h part hmem)
  · rw [if_neg ‹_›] at h
    exact hkind _ h

/-- A node without statements follows another if its names do. -/
theorem Node.Follows.of_isStill {name name' : String} {lexical lexical' : Bool} {a b : Node}
    (hwf : b.isWellFormed = true) (hstill : b.allAre (·.isStill) = true)
    (hnames : name' ∈ b.names → name ∈ a.names)
    (hbinding : name' ∈ b.bindingNames → name ∈ a.bindingNames)
    (hdeclared : ∀ lexical, name' ∈ b.declared lexical → name ∈ a.declared lexical) :
    a.Follows name name' lexical lexical' b := by
  have hquiet := Node.isQuiet_of_isStill hstill
  refine ⟨hnames, hbinding, hdeclared, fun hmem => ?_, fun ctx hmem => ?_, fun ctx hgoes => ?_⟩
  · rw [Node.varNames_of_isStill hwf hstill] at hmem
    cases hmem
  · rw [Node.around_of_isQuiet hwf hquiet] at hmem
    cases hmem
  · rw [Node.goesOn_of_isQuiet hwf hquiet] at hgoes
    cases hgoes

/-! ### Renaming -/

theorem Node.isBlockLoop_congr {form : Form} {span : Span} {parts parts' : List Node}
    (h : List.Forall₂ (fun a b => b.isLexicalDecl = a.isLexicalDecl) parts parts') :
    (Node.mk form span parts').isBlockLoop = (Node.mk form span parts).isBlockLoop := by
  rw [Bool.eq_iff_iff]
  exact ⟨Node.isBlockLoop_of_forall₂ (h.flip.imp fun _ _ e => e.symm),
    Node.isBlockLoop_of_forall₂ h⟩

section

variable {name name' used renamed : String} {lexical : Bool} {optional : Bool} {span : Span}

/-- An identifier may have another name. -/
theorem Node.Follows.ident {role : Role} {parts parts' : List Node}
    (hwf : (Node.mk (.ident role renamed optional) span parts').isWellFormed = true)
    (hrenamed : name' = renamed → name = used)
    (hparts : name' ∈ namesOf parts' → name ∈ namesOf parts) :
    (Node.mk (.ident role used optional) span parts).Follows name name' lexical lexical
      (.mk (.ident role renamed optional) span parts') := by
  have hsingle : name' ∈ [renamed] → name ∈ [used] := by simpa using hrenamed
  refine .of_isStill hwf (by cases role <;> rfl) (fun hmem => ?_) ?_
    (fun _ hmem => by cases role <;> cases hmem)
  · rw [Node.names, List.mem_append] at hmem ⊢
    exact hmem.imp hsingle hparts
  · cases role with
    | bind => exact hsingle
    | _ => exact fun hmem => by cases hmem

/-- A shorthand property may be written out. -/
theorem Node.Follows.keyValue_short {key : String} {parts : List Node}
    (hrenamed : name' = renamed → name = used) :
    (Node.mk (.ident .short used optional) span parts).Follows name name' lexical lexical
      (.keyValue key (.use renamed span) span) := by
  refine .of_isStill rfl rfl (fun hmem => ?_) (fun hmem => by cases hmem)
    (fun _ hmem => by cases hmem)
  simp only [Node.keyValue, Node.names, namesOf, Form.names, List.nil_append, List.append_nil,
    List.mem_singleton] at hmem
  rw [hrenamed hmem, Node.names]
  exact List.mem_append_left _ (List.mem_singleton_self _)

/-- A shorthand pattern may be written out, its default value included. -/
theorem Node.Follows.keyValuePat_short {key : String} {keySpan : Span} {ascription : List Node}
    {value value' : Node}
    (hwf : (Node.mk .assignPatProp span
      [.mk (.ident .bind used optional) keySpan ascription, value]).isWellFormed = true)
    (hrenamed : name' = renamed → name = used)
    (hself : name' ∈ namesOf ascription → name ∈ namesOf ascription)
    (hstands : value.Stands value') (hvalue : name' ∈ value'.names → name ∈ value.names) :
    (Node.mk .assignPatProp span
        [.mk (.ident .bind used optional) keySpan ascription, value]).Follows name
          name' lexical lexical
      (.mk .keyValuePat .generated
        [.mk (.propName key) keySpan [],
          if value.isAbsent then .mk (.ident .bind renamed optional) keySpan ascription
          else .mk .assignPat span
            [.mk (.ident .bind renamed optional) keySpan ascription, value']]) := by
  refine .of_isStill (Node.Stands.keyValuePat_short hwf hstands).wellFormed rfl (fun hmem => ?_)
    (fun hmem => ?_) (fun _ hmem => by cases hmem)
  · have hmem : name' = renamed ∨ name' ∈ namesOf ascription ∨ name' ∈ value'.names := by
      split at hmem
      · simp only [Node.names, namesOf, Form.names, List.nil_append, List.append_nil,
          List.mem_append, List.mem_singleton] at hmem
        exact hmem.imp_right Or.inl
      · simpa [Node.names, namesOf, Form.names, or_assoc] using hmem
    have hold := hmem.imp hrenamed (Or.imp hself hvalue)
    simpa [Node.names, namesOf, Form.names, or_assoc] using hold
  · have hmem : name' = renamed := by
      split at hmem
      · simpa [Node.bindingNames] using hmem
      · simpa [Node.bindingNames] using hmem
    simpa [Node.bindingNames] using hrenamed hmem

end

/-- Renaming leads a name to itself, unless it is the new one: this is led to the old one. -/
theorem Node.Follows.substitute {old new name name' : String} {lexical : Bool} {node : Node}
    (hwf : node.isWellFormed = true) (hself : name' ∈ node.names → name = name')
    (hnew : name' = new → name = old) :
    node.Follows name name' lexical lexical (node.substitute old new) := by
  induction node using Node.inductionOn generalizing lexical with
  | step form span parts ih =>
      have hwfParts : ∀ part ∈ parts, part.isWellFormed = true :=
        fun part hmem => Node.isWellFormed_part hwf hmem
      have hparts : ∀ part ∈ parts, ∀ lexical,
          part.Follows name name' lexical lexical (part.substitute old new) :=
        fun part hmem lexical => ih part hmem (hwfParts part hmem)
          fun hname => hself (Node.names_subset_of_mem hmem hname)
      have hstands : List.Forall₂ Node.Stands parts (substituteIn old new parts) := by
        rw [substituteIn_eq_map]
        exact List.forall₂_map_right_iff.mpr
          (List.forall₂_same.mpr fun part hmem => .substitute old new (hwfParts part hmem))
      have hform : name' ∈ form.names → name = name' := fun hmem =>
        hself (by rw [Node.names]; exact List.mem_append_left _ hmem)
      have hnode : (Node.mk form span parts).Follows name name' lexical lexical
          (.mk form span (substituteIn old new parts)) := by
        refine .node hform (Node.isBlockLoop_congr (hstands.imp fun _ _ hs => hs.lexical))
          (fun _ => rfl) ?_
        rw [substituteIn_eq_map]
        exact List.forall₂_map_right_iff.mpr
          (List.forall₂_same.mpr fun part hmem => hparts part hmem _)
      have hnames : name' ∈ namesOf (substituteIn old new parts) → name ∈ namesOf parts := by
        rw [substituteIn_eq_map, namesOf_eq_flatMap, namesOf_eq_flatMap]
        exact (FollowsIn.map fun part hmem => hparts part hmem lexical).mem_flatMap
          fun a b h => h.names
      unfold Node.substitute
      split
      · exact .self hself
      split
      · split
        · next hold => exact .keyValue_short fun hmem => (hnew hmem).trans hold.symm
        · exact hnode
      · refine .ident (Node.Stands.ident (.node hwf hstands)).wellFormed (fun hmem => ?_) hnames
        split at hmem
        · next hold => exact (hnew hmem).trans hold.symm
        · exact (hform (hmem ▸ List.mem_singleton_self _)).trans hmem
      · split
        · next hold =>
          refine .keyValuePat_short hwf (fun hmem => (hnew hmem).trans hold.symm) (fun hmem => ?_)
            (.substitute old new (hwfParts _ (by simp))) (hparts _ (by simp) lexical).names
          refine hself ?_ ▸ hmem
          simp [Node.names, namesOf, hmem]
        · next hother =>
          rw [substituteIn, substituteIn, substituteIn,
            Node.substitute_binding _ _ _ hother] at hnode
          exact hnode
      · exact hnode

theorem Node.Follows.rename {old new name name' : String} {lexical : Bool} {node : Node}
    (hwf : node.isWellFormed = true) (hself : name' ∈ node.names → name = name')
    (hnew : name' = new → name = old) :
    node.Follows name name' lexical lexical (node.rename old new) := by
  unfold Node.rename
  split
  · exact .self hself
  · exact .substitute hwf hself hnew

/-- Naming `this` and `arguments` adds the names that stand for them and no other. -/
theorem Node.Follows.useAliases {aliases : Aliases} {name : String} {lexical : Bool} {node : Node}
    (hwf : node.isWellFormed = true) (hthis : aliases.this? ≠ some name)
    (harguments : aliases.arguments? ≠ some name) :
    node.Follows name name lexical lexical (node.useAliases aliases) := by
  induction node using Node.inductionOn generalizing lexical with
  | step form span parts ih =>
      have hwfParts : ∀ part ∈ parts, part.isWellFormed = true :=
        fun part hmem => Node.isWellFormed_part hwf hmem
      unfold Node.useAliases
      split
      · exact .self fun _ => rfl
      split
      · split
        · next _ heq =>
          refine .of_isStill rfl rfl (fun hmem => ?_) (fun hmem => by cases hmem)
            (fun _ hmem => by cases hmem)
          exact absurd (List.mem_singleton.mp hmem ▸ heq) hthis
        · exact .self fun _ => rfl
      · split
        · next _ heq =>
          exact .ident (Node.Stands.ident (.refl hwf)).wellFormed
            (fun hmem => absurd (hmem ▸ heq) harguments) id
        · exact .self fun _ => rfl
      · split
        · next _ heq => exact .keyValue_short fun hmem => absurd (hmem ▸ heq) harguments
        · exact .self fun _ => rfl
      · have hstands : List.Forall₂ Node.Stands parts (useAliasesIn aliases parts) :=
          forall₂_stands_useAliasesIn aliases hwfParts
        refine .node (fun _ => rfl) (Node.isBlockLoop_congr (hstands.imp fun _ _ hs => hs.lexical))
          (fun _ => rfl) ?_
        rw [useAliasesIn_eq_map]
        exact List.forall₂_map_right_iff.mpr
          (List.forall₂_same.mpr fun part hmem => ih part hmem (hwfParts part hmem))

/-! ### Declarations taken out of a body -/

theorem Node.bindingNames_of_isExpr {node : Node} (h : node.IsExpr) : node.bindingNames = [] := by
  obtain ⟨form, span, parts⟩ := node
  have hadmitted := h.admitted
  cases form with
  | ident role =>
      cases role with
      | bind => cases hadmitted
      | _ => rfl
  | list | arrayPat | objectPat | rest | assignPat | keyValuePat | assignPatProp | declarator
  | parameter | parameterProperty => cases hadmitted
  | _ => rfl

/-- Patterns, and expressions among them, declare nothing by themselves. -/
theorem Node.declared_of_isPattern {node : Node}
    (h : Category.patterns.contains node.form.category = true) (lexical : Bool) :
    node.declared lexical = [] := by
  obtain ⟨form, span, parts⟩ := node
  cases form with
  | varDecl | usingDecl | classDecl | functionDecl | list | switchCase | caseBody => cases h
  | _ => rfl

section

variable {name : String} {lexical : Bool}

/-- A pattern or an expression follows what has its names and binds what it binds. -/
theorem Node.Follows.of_isPattern {a b : Node} (hwf : b.isWellFormed = true)
    (hpattern : (Slot.one Category.patterns).admits b = true) (hnames : b.names ⊆ a.names)
    (hbinding : name ∈ b.bindingNames → name ∈ a.bindingNames) :
    a.Follows name name lexical lexical b := by
  refine .of_isStill hwf (Slot.allAre_of_admits rfl rfl (by decide) hpattern)
    (fun hmem => hnames hmem) hbinding fun lexical hmem => ?_
  rw [Node.declared_of_isPattern hpattern] at hmem
  cases hmem

theorem Node.Follows.of_isExpr {a expr : Node} (h : expr.IsExpr) (hnames : expr.names ⊆ a.names) :
    a.Follows name name lexical lexical expr := by
  refine .of_isPattern h.wellFormed ?_ hnames fun hmem => ?_
  · have hadmitted := h.admitted
    simp only [Slot.admits, Category.patterns, List.contains_iff_mem] at hadmitted ⊢
    exact List.mem_append_right _ hadmitted
  · rw [Node.bindingNames_of_isExpr h] at hmem
    cases hmem

/-- A statement that evaluates an expression follows what has its names. -/
theorem Node.Follows.exprStmt {a expr : Node} (h : expr.IsExpr) (hnames : expr.names ⊆ a.names) :
    a.Follows name name lexical lexical (.exprStmt expr) := by
  have hexpr : a.Follows name name lexical lexical expr := .of_isExpr h hnames
  have hquiet : expr.isQuiet = true := Slot.allAre_of_admits rfl rfl (by decide) h.admitted
  refine ⟨fun hmem => ?_, (fun hmem => by cases hmem), (fun _ hmem => by cases hmem),
    fun hmem => ?_, fun ctx hmem => ?_, fun ctx hgoes => ?_⟩
  · exact hexpr.names (by simpa [Node.exprStmt, Node.names, namesOf, Form.names] using hmem)
  · exact hexpr.vars (by simpa [Node.exprStmt, Node.varNames, varNamesOf,
      Form.isClosure] using hmem)
  · rcases (Node.mem_around.mp hmem).2 with ⟨-, hmem⟩ | ⟨part, hpart, hmem⟩
    · cases hmem
    · obtain rfl := List.mem_singleton.mp hpart
      rw [Node.around_of_isQuiet h.wellFormed hquiet] at hmem
      cases hmem
  · rw [Node.exprStmt, Node.goesOn_mk rfl rfl, List.any_cons, List.any_nil, Bool.or_false,
      Node.goesOn_of_isQuiet h.wellFormed hquiet] at hgoes
    cases hgoes

theorem Node.names_subset_of_known {a b : Node}
    (h : ∀ names : Registry, a.Known names → b.Known names) :
    b.names ⊆ a.names :=
  fun _ hname => h ⟨a.names, []⟩ (fun _ => id) _ hname

theorem Node.Follows.hoistVar {declare : Bool} {span : Span} {declarators : List Node}
    (hwf : (Node.varDecl .var declare span declarators).isWellFormed = true) :
    (Node.varDecl .var declare span declarators).Follows name name lexical lexical
      (hoistVar span declarators) := by
  unfold LoopLowering.hoistVar
  split
  · next expr hexpr =>
    refine .exprStmt (initAssignments?_eq_some (fun d hmem => Node.isWellFormed_part hwf hmem)
      hexpr).1 ?_
    exact Node.names_subset_of_known fun names hknown =>
      known_initAssignments? (Node.known_mk.mp hknown).2 hexpr
  · exact .of_isStill rfl rfl (fun hmem => by cases hmem) (fun hmem => by cases hmem)
      (fun _ hmem => by cases hmem)

theorem Node.Follows.hoistInit {init : Node} (hwf : init.isWellFormed = true) :
    init.Follows name name lexical lexical init.hoistInit := by
  unfold Node.hoistInit
  split
  · next span declarators =>
    cases hexpr : initAssignments? span declarators with
    | none =>
        exact .of_isStill rfl rfl (fun hmem => by cases hmem) (fun hmem => by cases hmem)
          (fun _ hmem => by cases hmem)
    | some expr =>
        refine .of_isExpr (initAssignments?_eq_some (fun d hmem => Node.isWellFormed_part hwf hmem)
          hexpr).1 ?_
        exact Node.names_subset_of_known fun names hknown =>
          known_initAssignments? (Node.known_mk.mp hknown).2 hexpr
  · exact .self fun _ => rfl

/-- What remains of the left side of a loop binds no variable that the loop declared. -/
theorem Node.Follows.hoistLeft {left : Node} (hwf : left.isWellFormed = true)
    (hvars : name ∉ left.varNames) : left.Follows name name lexical lexical left.hoistLeft := by
  unfold Node.hoistLeft
  split
  · next pattern init =>
    have hdeclarator := Node.isWellFormed_mk.mp (Node.isWellFormed_part hwf List.mem_cons_self)
    obtain ⟨_, _, heq, hpattern, -⟩ :=
      exists_of_fillSlots_cons (hdeclarator.1.resolve_left (by simp))
    cases heq
    refine .of_isPattern (hdeclarator.2 pattern List.mem_cons_self) hpattern
      (List.Subset.trans (Node.names_subset_of_mem List.mem_cons_self)
        (Node.names_subset_of_mem List.mem_cons_self)) fun hmem => ?_
    refine absurd ?_ hvars
    simpa [Node.varNames, Form.isClosure, bindingNamesOf, Node.bindingNames] using hmem
  · exact .self fun _ => rfl

theorem Node.Follows.hoistOver {form : Form} {span : Span} {left right body : Node}
    (hform : form = .forInStmt ∨ ∃ isAwait, form = .forOfStmt isAwait)
    (hwf : (Node.mk form span [left, right, body]).isWellFormed = true)
    (hvars : name ∉ left.varNames)
    (hbody : ∀ lexical, body.Follows name name lexical lexical body.hoist) :
    (Node.mk form span [left, right, body]).Follows name name lexical lexical
      (.mk form span [left.hoistLeft, right, body.hoist]) := by
  have hleft : left.isWellFormed = true := Node.isWellFormed_part hwf List.mem_cons_self
  have hslot : (Slot.one (.varDecl :: .usingDecl :: Category.patterns)).admits left = true := by
    have hshape := (Node.isWellFormed_mk.mp hwf).1
    rcases hform with rfl | ⟨isAwait, rfl⟩
    · exact (Bool.and_eq_true_iff.mp (hshape.resolve_left (by simp))).1
    · exact (Bool.and_eq_true_iff.mp (hshape.resolve_left (by simp))).1
  have hlexical := (Node.headsFor_hoistLeft hleft hslot).lexical
  refine .node (fun _ => rfl) ?_ (fun _ => rfl)
    (.cons (.hoistLeft hleft hvars) (.cons (.self fun _ => rfl) (.cons (hbody _) .nil)))
  rcases hform with rfl | ⟨isAwait, rfl⟩
  · exact hlexical
  · exact hlexical

/-- Taking the declarations out of a tree adds no name around a `continue`, unless it is one that is
declared by `var`. -/
theorem Node.Follows.hoist {node : Node} (hwf : node.isWellFormed = true)
    (hvars : name ∉ node.varNames) : node.Follows name name lexical lexical node.hoist := by
  induction node using Node.inductionOn generalizing lexical with
  | step form span parts ih =>
      have hwfParts : ∀ part ∈ parts, part.isWellFormed = true :=
        fun part hmem => Node.isWellFormed_part hwf hmem
      unfold Node.hoist
      split
      · exact .self fun _ => rfl
      · next hclosure =>
        have hpartVars : (∀ declare, form ≠ .varDecl .var declare) →
            ∀ part ∈ parts, name ∉ part.varNames := by
          intro hform part hmem hname
          refine hvars ?_
          unfold Node.varNames
          rw [if_neg hclosure]
          split
          · exact absurd rfl (hform _)
          · rw [varNamesOf_eq_flatMap]
            exact List.mem_flatMap.mpr ⟨part, hmem, hname⟩
        have hself : ∀ lexical, ∀ node : Node, node.Follows name name lexical lexical node :=
          fun _ _ => .self fun _ => rfl
        split
        · exact .hoistVar hwf
        · exact hself _ _
        · have hslot := (Node.isWellFormed_mk.mp hwf).1.resolve_left (by simp)
          simp only [Form.shape, Shape.admits, fillSlots, Bool.and_eq_true] at hslot
          refine .node (fun _ => rfl)
            (Node.headsFor_hoistInit (hwfParts _ (by simp)) hslot.1).lexical
            (fun _ => rfl) (.cons (.hoistInit (hwfParts _ (by simp))) (.cons (hself _ _)
              (.cons (hself _ _) (.cons ?_ .nil))))
          exact ih _ (by simp) (hwfParts _ (by simp)) (hpartVars (by simp) _ (by simp))
        · exact .hoistOver (Or.inl rfl) hwf (hpartVars (by simp) _ (by simp)) fun _ =>
            ih _ (by simp) (hwfParts _ (by simp)) (hpartVars (by simp) _ (by simp))
        · exact .hoistOver (Or.inr ⟨_, rfl⟩) hwf (hpartVars (by simp) _ (by simp)) fun _ =>
            ih _ (by simp) (hwfParts _ (by simp)) (hpartVars (by simp) _ (by simp))
        · next hvar _ _ _ _ =>
          have hparts : ∀ part ∈ parts, ∀ lexical,
              part.Follows name name lexical lexical part.hoist :=
            fun part hmem _ => ih part hmem (hwfParts part hmem)
              (hpartVars (fun declare e => hvar declare e) part hmem)
          rw [hoistIn_eq_map]
          split
          · next hholds =>
            have hin : FollowsIn name name lexical lexical parts (parts.map Node.hoist) :=
              .map fun part hmem => hparts part hmem lexical
            have hkept : FollowsIn name name lexical lexical parts
                (withoutEmpty (parts.map Node.hoist)) :=
              fun other hmem => hin other (List.mem_of_mem_filter hmem)
            exact .stmts hholds hkept (hkept.mem_flatMap fun a b h => h.declared lexical)
          · refine .node (fun _ => rfl) (Node.isBlockLoop_congr ?_) (fun _ => rfl) ?_
            · exact List.forall₂_map_right_iff.mpr (List.forall₂_same.mpr fun part hmem =>
                (Node.HoistsTo.hoist (hwfParts part hmem)).lexical)
            · exact List.forall₂_map_right_iff.mpr
                (List.forall₂_same.mpr fun part hmem => hparts part hmem _)

theorem FollowsIn.hoistStmts {stmts : List Node} (hwf : ∀ stmt ∈ stmts, stmt.isWellFormed = true)
    (hvars : ∀ stmt ∈ stmts, name ∉ stmt.varNames) :
    FollowsIn name name lexical lexical stmts (hoistStmts stmts) := by
  intro other hmem
  have hin : FollowsIn name name lexical lexical stmts (stmts.map Node.hoist) :=
    .map fun stmt hmem => .hoist (hwf stmt hmem) (hvars stmt hmem)
  rw [LoopLowering.hoistStmts, hoistIn_eq_map] at hmem
  exact hin other (List.mem_of_mem_filter hmem)

end

/-! ### The depth of blocks -/

theorem blockDepthOf_le {depth : Nat} {nodes : List Node} :
    blockDepthOf nodes ≤ depth ↔ ∀ node ∈ nodes, node.blockDepth ≤ depth := by
  induction nodes with
  | nil => simp [blockDepthOf]
  | cons node nodes ih => rw [blockDepthOf, List.forall_mem_cons, ← ih, Nat.max_le]

theorem Node.blockDepth_part {form : Form} {span : Span} {parts : List Node} {part : Node}
    (h : part ∈ parts) : part.blockDepth ≤ (Node.mk form span parts).blockDepth := by
  rw [Node.blockDepth]
  exact Nat.le_trans (blockDepthOf_le.mp (Nat.le_refl _) part h) (Nat.le_add_left _ _)

theorem Node.blockDepth_mk_le {form : Form} {span : Span} {parts parts' : List Node}
    (h : blockDepthOf parts' ≤ blockDepthOf parts) :
    (Node.mk form span parts').blockDepth ≤ (Node.mk form span parts).blockDepth := by
  rw [Node.blockDepth, Node.blockDepth]
  exact Nat.add_le_add_left h _

theorem Node.blockDepth_of_ne_block {form : Form} (h : form ≠ .block) (span : Span)
    (parts : List Node) : (Node.mk form span parts).blockDepth = blockDepthOf parts := by
  rw [Node.blockDepth, if_neg h, Nat.zero_add]

/-- Renaming adds no block. -/
theorem Node.blockDepth_substitute_le (old new : String) (node : Node) :
    (node.substitute old new).blockDepth ≤ node.blockDepth := by
  induction node using Node.inductionOn with
  | step form span parts ih =>
      have hparts : blockDepthOf (substituteIn old new parts) ≤ blockDepthOf parts := by
        rw [substituteIn_eq_map, blockDepthOf_le, List.forall_mem_map]
        intro part hmem
        exact Nat.le_trans (ih part hmem) (blockDepthOf_le.mp (Nat.le_refl _) part hmem)
      unfold Node.substitute
      split
      · exact Nat.le_refl _
      split
      · split
        · simp [Node.keyValue, Node.blockDepth, blockDepthOf]
        · exact Node.blockDepth_mk_le hparts
      · simpa [Node.blockDepth] using hparts
      · simp only [substituteIn, blockDepthOf] at hparts
        split
        · have hvalue := ih _ (List.mem_cons_of_mem _ List.mem_cons_self)
          simp only [Node.blockDepth_of_ne_block, blockDepthOf, ne_eq,
            reduceCtorEq, not_false_eq_true]
          split
          · simp only [Node.blockDepth_of_ne_block, ne_eq, reduceCtorEq, not_false_eq_true]
            omega
          · simp only [Node.blockDepth_of_ne_block, blockDepthOf, ne_eq, reduceCtorEq,
              not_false_eq_true]
            omega
        · next hother =>
          refine Node.blockDepth_mk_le ?_
          simpa [blockDepthOf, Node.substitute_binding _ _ _ hother] using hparts
      · exact Node.blockDepth_mk_le hparts

theorem blockDepthOf_map_rename_le (old new : String) (stmts : List Node) :
    blockDepthOf (stmts.map (·.rename old new)) ≤ blockDepthOf stmts := by
  rw [blockDepthOf_le, List.forall_mem_map]
  intro stmt hmem
  have hle := blockDepthOf_le.mp (Nat.le_refl (blockDepthOf stmts)) stmt hmem
  unfold Node.rename
  split
  · exact hle
  · exact Nat.le_trans (stmt.blockDepth_substitute_le _ _) hle

theorem blockDepthOf_renameClashing_le (clashes : String → Bool) (vars : List String)
    (stmts : List Node) (names : Registry) :
    blockDepthOf ((renameClashing clashes vars stmts).run names).1 ≤ blockDepthOf stmts := by
  induction vars generalizing stmts names with
  | nil => exact Nat.le_refl _
  | cons var vars ih =>
      unfold renameClashing
      split
      · exact Nat.le_trans (ih _ _) (blockDepthOf_map_rename_le _ _ stmts)
      · exact ih stmts names

/-! ### Clashing names -/

section

variable {old new name : String}

/-- What a node binds is what its parts bind. -/
theorem Node.bindingNames_mk_map {form : Form} {span : Span} {parts : List Node}
    {change : Node → Node} {f : String → String}
    (hform : ∀ role used optional, form ≠ .ident role used optional)
    (hparts : ∀ part ∈ parts, (change part).bindingNames = part.bindingNames.map f) :
    (Node.mk form span (parts.map change)).bindingNames =
      (Node.mk form span parts).bindingNames.map f := by
  cases form with
  | ident => exact absurd rfl (hform _ _ _)
  | list =>
      rw [Node.bindingNames, Node.bindingNames, bindingNamesOf_eq_flatMap,
        bindingNamesOf_eq_flatMap, List.flatMap_map, List.map_flatMap]
      exact List.flatMap_congr hparts
  | arrayPat | objectPat | rest | assignPat | assignPatProp | declarator =>
      rcases parts with _ | ⟨first, _ | ⟨_, _ | _⟩⟩
      · rfl
      · rfl
      · exact hparts first List.mem_cons_self
      · rfl
  | keyValuePat | parameter | parameterProperty =>
      rcases parts with _ | ⟨_, _ | ⟨second, _ | _⟩⟩
      · rfl
      · rfl
      · exact hparts second (List.mem_cons_of_mem _ List.mem_cons_self)
      · rfl
  | _ => rfl

/-- A pattern binds the names it bound, the old one as the new one. -/
theorem Node.bindingNames_substitute (old new : String) (node : Node) :
    (node.substitute old new).bindingNames =
      node.bindingNames.map fun name => if name = old then new else name := by
  induction node using Node.inductionOn with
  | step form span parts ih =>
      unfold Node.substitute
      split
      · next hscope =>
        -- A node that binds the name in a scope of its own is no pattern.
        cases form with
        | ident role => cases role <;> cases hscope
        | list | arrayPat | objectPat | rest | assignPat | assignPatProp | declarator | keyValuePat
        | parameter | parameterProperty => cases hscope
        | _ => rfl
      split
      · split
        · rfl
        · rfl
      · next role _ _ _ _ => cases role <;> rfl
      · split
        · next hold =>
          simp only [Node.bindingNames, List.map_cons, List.map_nil, if_pos hold]
          split
          · rfl
          · rfl
        · next hother => simp [Node.bindingNames, hother]
      · next hident _ =>
        rw [substituteIn_eq_map]
        exact Node.bindingNames_mk_map hident ih

/-- A name that is renamed is bound no more by the pattern that bound it. -/
theorem Node.notMem_bindingNames_substitute (h : new ≠ old) (node : Node) :
    old ∉ (node.substitute old new).bindingNames := by
  rw [Node.bindingNames_substitute, List.mem_map]
  rintro ⟨name, -, hname⟩
  split at hname
  · exact h hname
  · next hother => exact hother hname

theorem Node.mem_blockScopedNames {node : Node} :
    name ∈ node.blockScopedNames ↔ node.isLexicalDecl = true ∧ name ∈ node.declared true := by
  cases hlexical : node.isLexicalDecl with
  | true =>
      obtain ⟨_, _, _, _, rfl⟩ := Node.isLexicalDecl_iff.mp hlexical
      exact (and_iff_right rfl).symm
  | false =>
      rw [Node.blockScopedNames_eq_nil hlexical]
      simp

/-- A name that is renamed is declared no more. -/
theorem Node.notMem_blockScopedNames_rename (h : new ≠ old) {node : Node}
    (hwf : node.isWellFormed = true) : old ∉ (node.rename old new).blockScopedNames := by
  rw [Node.rename, if_neg h.symm]
  intro hmem
  have hlexical := (Node.mem_blockScopedNames.mp hmem).1
  rw [(Node.Stands.substitute old new hwf).lexical] at hlexical
  obtain ⟨constant, declare, span, declarators, rfl⟩ := Node.isLexicalDecl_iff.mp hlexical
  have hsame : (Node.varDecl (.lexical constant) declare span declarators).substitute old new =
      .varDecl (.lexical constant) declare span (declarators.map (·.substitute old new)) := by
    rw [← substituteIn_eq_map]
    unfold Node.substitute
    rw [if_neg (by simp [Node.scopeNames, Node.headNames])]
  rw [hsame, Node.blockScopedNames, bindingNamesOf_eq_flatMap, List.flatMap_map,
    List.mem_flatMap] at hmem
  obtain ⟨declarator, -, hname⟩ := hmem
  exact Node.notMem_bindingNames_substitute h declarator hname

/-- What the statements of a list become when clashing names are renamed: no name is added that was
taken, and none that clashes is left. -/
theorem renameClashing_spec (clashes : String → Bool) (lexical : Bool) (vars : List String)
    {stmts : List Node} {names : Registry} (hwf : ∀ stmt ∈ stmts, stmt.isWellFormed = true)
    (htaken : name ∈ names.taken) :
    let renamed := ((renameClashing clashes vars stmts).run names).1
    FollowsIn name name lexical lexical stmts renamed ∧
      (clashes name = true → (name ∈ vars ∨ ∀ stmt ∈ stmts, name ∉ stmt.blockScopedNames) →
        ∀ stmt ∈ renamed, name ∉ stmt.blockScopedNames) := by
  induction vars generalizing stmts names with
  | nil =>
      refine ⟨fun other hmem => ⟨other, hmem, .self fun _ => rfl⟩, fun _ h => ?_⟩
      exact h.resolve_left List.not_mem_nil
  | cons var vars ih =>
      unfold renameClashing
      split
      · have hnew : (names.rename var).1 ∉ names.taken := Registry.rename_notMem names var
        have hne : name ≠ (names.rename var).1 := fun e => hnew (e ▸ htaken)
        have hfollows : ∀ lexical, ∀ stmt ∈ stmts, stmt.Follows name name lexical lexical
            (stmt.rename var (names.rename var).1) :=
          fun lexical stmt hmem => .rename (hwf stmt hmem) (fun _ => rfl) fun e => absurd e hne
        have hrenamed : ∀ stmt ∈ stmts.map (·.rename var (names.rename var).1),
            stmt.isWellFormed = true := by
          rw [List.forall_mem_map]
          exact fun stmt hmem => (Node.Stands.rename var _ (hwf stmt hmem)).wellFormed
        obtain ⟨hrest, hgone⟩ := ih hrenamed ((Naming.draws_rename var).subset names htaken)
        refine ⟨(FollowsIn.map (hfollows lexical)).trans hrest, fun hclashes hold =>
          hgone hclashes ?_⟩
        by_cases hvar : name = var
        · subst hvar
          refine Or.inr ?_
          rw [List.forall_mem_map]
          exact fun stmt hmem => Node.notMem_blockScopedNames_rename hne.symm (hwf stmt hmem)
        · refine hold.imp (fun hmem => (List.mem_cons.mp hmem).resolve_left hvar) fun hnone => ?_
          rw [List.forall_mem_map]
          intro stmt hmem hname
          obtain ⟨hlexical, hdeclared⟩ := Node.mem_blockScopedNames.mp hname
          rw [(Node.Stands.rename var _ (hwf stmt hmem)).lexical] at hlexical
          exact hnone stmt hmem (Node.mem_blockScopedNames.mpr
            ⟨hlexical, (hfollows lexical stmt hmem).declared true hdeclared⟩)
      · next hclear =>
        obtain ⟨hrest, hgone⟩ := ih hwf htaken
        refine ⟨hrest, fun hclashes hold => hgone hclashes (hold.imp_left fun hmem => ?_)⟩
        exact (List.mem_cons.mp hmem).resolve_left fun e => hclear (e ▸ hclashes)

/-- If a name clashes, or is nowhere in a statement list, then the list declares it by no `let` or
`const` once the clashing names are renamed. -/
theorem renameClashing_clears {clashes : String → Bool} {stmts : List Node} {names : Registry}
    (hwf : ∀ stmt ∈ stmts, stmt.isWellFormed = true)
    (hname : clashes name = true ∨ name ∉ namesOf stmts) (htaken : name ∈ names.taken) :
    let renamed :=
  ((renameClashing clashes (stmts.flatMap Node.blockScopedNames) stmts).run names).1
    FollowsIn name name false false stmts renamed ∧ blockDepthOf renamed ≤ blockDepthOf stmts ∧
      ∀ stmt ∈ renamed, name ∉ stmt.blockScopedNames := by
  obtain ⟨hfollows, hgone⟩ := renameClashing_spec clashes false
    (stmts.flatMap Node.blockScopedNames) hwf htaken
  refine ⟨hfollows, blockDepthOf_renameClashing_le _ _ _ _, ?_⟩
  rcases hname with hclashes | hnot
  · refine hgone hclashes ?_
    by_cases hmem : name ∈ stmts.flatMap Node.blockScopedNames
    · exact Or.inl hmem
    · exact Or.inr fun stmt hstmt hname => hmem (List.mem_flatMap.mpr ⟨stmt, hstmt, hname⟩)
  · intro stmt hstmt hname
    obtain ⟨old, hold, h⟩ := hfollows stmt hstmt
    refine hnot ?_
    rw [namesOf_eq_flatMap]
    exact List.mem_flatMap.mpr ⟨old, hold, h.names (stmt.blockScopedNames_subset hname)⟩

end

/-! ### Flattened statements -/

section

variable {name : String}

/-- In a loop with a block-scoped head, everything that blocks declare is counted anyway. -/
theorem Node.around_of_isCandidate {node : Node} (h : node.isCandidate = true) (lexical : Bool)
    (ctx : JumpContext) : node.around lexical ctx = node.around true ctx := by
  induction node using Node.inductionOn generalizing ctx with
  | step form span parts ih =>
      rcases Node.isCandidate_cases h with hloop | ⟨label, labelSpan, body, heq, hbody⟩
      · rw [Node.around, Node.around, hloop, Bool.or_true, Bool.or_true]
      · cases heq
        have hsame := ih body List.mem_cons_self hbody (ctx.enter (.labeled label))
        simp only [Node.around, aroundIn, Node.bound, Form.isLoop, Node.isBlockLoop, Bool.or_false,
          hsame]

/-- Closures and loops with a block-scoped head stay as they are. -/
theorem Node.Follows.unchanged {node : Node}
    (h : (node.form.isClosure || node.isCandidate) = true) :
    node.Follows name name false true node := by
  refine ⟨id, id, fun _ => id, id, fun ctx hmem => ?_, fun _ => id⟩
  rcases Bool.or_eq_true_iff.mp h with hclosure | hcandidate
  · obtain ⟨form, span, parts⟩ := node
    obtain ⟨hopen, -⟩ := Node.mem_around.mp hmem
    rw [Node.form, hopen] at hclosure
    cases hclosure
  · rw [Node.around_of_isCandidate hcandidate]
    exact hmem

theorem Node.bindingNames_resetInit (declarator : Node) :
    declarator.resetInit.bindingNames = declarator.bindingNames := by
  unfold Node.resetInit
  split
  · rfl
  · rfl

/-- A declaration that becomes a `var` declares the same names, for the function. -/
theorem Node.Follows.flattenDecl {lexical lexical' : Bool} (reset : Bool) {stmt : Node}
    (hwf : stmt.isWellFormed = true) (hlexical : stmt.isLexicalDecl = true)
    (hname : name ∉ stmt.blockScopedNames) :
    stmt.Follows name name lexical lexical' (stmt.flattenDecl reset) := by
  have hnames : (stmt.flattenDecl reset).names ⊆ stmt.names :=
    Node.names_subset_of_known fun names hknown => hknown.flattenDecl reset
  have hflat := (Node.Fits.flattenDecl reset hwf).wellFormed
  obtain ⟨constant, declare, span, declarators, rfl⟩ := Node.isLexicalDecl_iff.mp hlexical
  refine ⟨fun hmem => hnames hmem, (fun hmem => by cases hmem), (fun _ hmem => by cases hmem),
    fun hmem => absurd ?_ hname, fun ctx hmem => ?_, fun ctx hgoes => ?_⟩
  · have hsame : bindingNamesOf (declarators.map Node.resetInit) = bindingNamesOf declarators := by
      rw [bindingNamesOf_eq_flatMap, bindingNamesOf_eq_flatMap, List.flatMap_map]
      exact List.flatMap_congr fun declarator _ => declarator.bindingNames_resetInit
    change name ∈ bindingNamesOf (if reset && !constant then declarators.map Node.resetInit
      else declarators) at hmem
    split at hmem
    · rwa [hsame] at hmem
    · exact hmem
  · rw [Node.around_of_isQuiet hflat rfl] at hmem
    cases hmem
  · rw [Node.goesOn_of_isQuiet hflat rfl] at hgoes
    cases hgoes

theorem Node.flattenDecl_of_not_lexical {reset : Bool} {stmt : Node}
    (h : stmt.isLexicalDecl = false) : stmt.flattenDecl reset = stmt := by
  unfold Node.flattenDecl
  split
  · cases h
  · rfl

theorem Node.isLexicalDecl_flattenDecl (reset : Bool) (stmt : Node) :
    (stmt.flattenDecl reset).isLexicalDecl = false := by
  cases h : stmt.isLexicalDecl with
  | true =>
      obtain ⟨constant, declare, span, declarators, rfl⟩ := Node.isLexicalDecl_iff.mp h
      rfl
  | false => rw [Node.flattenDecl_of_not_lexical h, h]

/-- All but `let` and `const` are counted anyway. -/
theorem Node.declared_of_not_lexical {node : Node} (h : node.isLexicalDecl = false) :
    node.declared true = node.declared false := by
  obtain ⟨form, span, parts⟩ := node
  cases form with
  | varDecl kind =>
      cases kind with
      | var => rfl
      | lexical => cases h
  | functionDecl | classDecl => cases parts <;> rfl
  | _ => rfl

/-- Where a flattened statement list, or one made of it, has the second name, the list had the
first one, around the `continue`s and by itself.  What the list declared by `let` and `const` is
left out. -/
structure Flattens (name name' : String) (stmts flat : List Node) : Prop where
  follows : FollowsIn name name' false true stmts flat
  declared : name' ∈ flat.flatMap (Node.declared true) → name ∈ stmts.flatMap (Node.declared false)

theorem forall₂_changeBlocksIn_of_taken {change : Bool → List Node → Naming (List Node)}
    {again : Bool} {related : Node → Node → Prop} {nodes : List Node} {names : Registry}
    (hdraws : ∀ node ∈ nodes, (node.changeBlocks change again).Draws)
    (h : ∀ node ∈ nodes, ∀ names : Registry, name ∈ names.taken →
      related node ((node.changeBlocks change again).run names).1)
    (htaken : name ∈ names.taken) :
    List.Forall₂ related nodes ((changeBlocksIn change again nodes).run names).1 :=
  forall₂_changeBlocksIn_of_grows hdraws fun node hmem names' hsub =>
    h node hmem names' (hsub htaken)

/-- Flattening the blocks of a node. -/
theorem Node.Follows.changeBlocks {clashes : String → Bool} {depth : Nat} {node : Node}
    (hchange : ∀ again stmts names, (∀ stmt ∈ stmts, stmt.isWellFormed = true) →
      blockDepthOf stmts < depth → (clashes name = true ∨ name ∉ namesOf stmts) →
      name ∈ names.taken → Flattens name name stmts
        ((flattenTo clashes depth again stmts).run names).1)
    (hwf : node.isWellFormed = true) (hdepth : node.blockDepth ≤ depth)
    (hname : clashes name = true ∨ name ∉ node.names) (again : Bool) {names : Registry}
    (htaken : name ∈ names.taken) :
    node.Follows name name false true
      ((node.changeBlocks (flattenTo clashes depth) again).run names).1 := by
  induction node using Node.inductionOn generalizing again names with
  | step form span parts ih =>
      have hwfParts : ∀ part ∈ parts, part.isWellFormed = true :=
        fun part hmem => Node.isWellFormed_part hwf hmem
      unfold Node.changeBlocks
      split
      · next hstop => exact .unchanged hstop
      · next hstop =>
        simp only [Bool.or_eq_true, not_or, Bool.not_eq_true] at hstop
        split
        · have hflat : Flattens name name parts
            ((flattenTo clashes depth again parts).run names).1 := by
            refine hchange again parts names hwfParts ?_
              (hname.imp_right fun hnot hmem => hnot ?_) htaken
            · rw [Node.blockDepth, if_pos rfl] at hdepth
              omega
            · rw [Node.names]
              exact List.mem_append_right _ hmem
          exact .stmts rfl hflat.follows hflat.declared
        · next hblock =>
          have hloop : ∀ parts', List.Forall₂ Node.Stands parts parts' →
              (Node.mk form span parts').isBlockLoop = (Node.mk form span parts).isBlockLoop :=
            fun parts' hstands => Node.isBlockLoop_congr (hstands.imp fun _ _ hs => hs.lexical)
          have hplain : (Node.mk form span parts).isBlockLoop = false := by
            by_contra hblockLoop
            rw [Node.isCandidate_of_isBlockLoop (by simpa using hblockLoop)] at hstop
            cases hstop.2
          refine .node (fun _ => rfl) (hloop _ ?_) (fun e => absurd e hblock) ?_
          · exact forall₂_changeBlocksIn (fun part hmem names => .changeBlocks
              (forall₂_fits_flattenTo clashes depth) (hwfParts part hmem) _ names) names
          · rw [hplain]
            refine forall₂_changeBlocksIn_of_taken
              (fun part _ => part.draws_changeBlocks (draws_flattenTo clashes depth) _)
              (fun part hmem names htaken => ih part hmem (hwfParts part hmem)
                (Nat.le_trans (Node.blockDepth_part hmem) hdepth)
                (hname.imp_right fun hnot hpart => hnot (Node.names_subset_of_mem hmem hpart))
                _ htaken)
              htaken

theorem Node.blockDepth_flattenDecl_le (reset : Bool) (stmt : Node) :
    (stmt.flattenDecl reset).blockDepth ≤ stmt.blockDepth := by
  have hreset : ∀ declarator : Node, declarator.resetInit.blockDepth ≤ declarator.blockDepth := by
    intro declarator
    unfold Node.resetInit
    split
    · split
      · simp only [Node.undefined, Node.blockDepth, blockDepthOf]
        simp only [reduceCtorEq, if_false, Nat.zero_add, Nat.max_zero]
        exact Nat.le_max_left _ _
      · exact Nat.le_refl _
    · exact Nat.le_refl _
  unfold Node.flattenDecl
  split
  · next declarators =>
    have hparts : blockDepthOf (declarators.map Node.resetInit) ≤ blockDepthOf declarators := by
      rw [blockDepthOf_le, List.forall_mem_map]
      exact fun declarator hmem =>
        Nat.le_trans (hreset declarator) (blockDepthOf_le.mp (Nat.le_refl _) declarator hmem)
    simp only [Node.blockDepth, reduceCtorEq, if_false, Nat.zero_add]
    split
    · exact hparts
    · exact Nat.le_refl _
  · exact Nat.le_refl _

theorem Flattens.of_follows {name' : String} {stmts others flat : List Node}
    (h : FollowsIn name name false false stmts others) (hflat : Flattens name name' others flat) :
    Flattens name name' stmts flat :=
  ⟨h.trans hflat.follows,
    fun hmem => h.mem_flatMap (fun _ _ h => h.declared false) (hflat.declared hmem)⟩

theorem Flattens.followed {name' last : String} {stmts flat more : List Node}
    (hflat : Flattens name name' stmts flat) (h : FollowsIn name' last true true flat more) :
    Flattens name last stmts more :=
  ⟨hflat.follows.trans h,
    fun hmem => hflat.declared (h.mem_flatMap (fun _ _ h => h.declared true) hmem)⟩

/-- Turning the declarations of a list into `var`, when none of them declares the name. -/
theorem FollowsIn.flattenDecl (reset : Bool) {stmts : List Node}
    (hwf : ∀ stmt ∈ stmts, stmt.isWellFormed = true)
    (hnone : ∀ stmt ∈ stmts, name ∉ stmt.blockScopedNames) :
    FollowsIn name name false false stmts (stmts.map (·.flattenDecl reset)) := by
  refine .map fun stmt hmem => ?_
  cases hlexical : stmt.isLexicalDecl with
  | true => exact .flattenDecl reset (hwf stmt hmem) hlexical (hnone stmt hmem)
  | false =>
      rw [Node.flattenDecl_of_not_lexical hlexical]
      exact .self fun _ => rfl

/-- Flattening the blocks of a list of statements that declare no `let` or `const` themselves. -/
theorem Flattens.changeBlocksIn {clashes : String → Bool} {depth : Nat} {stmts : List Node}
    (hchange : ∀ again stmts names, (∀ stmt ∈ stmts, stmt.isWellFormed = true) →
      blockDepthOf stmts < depth → (clashes name = true ∨ name ∉ namesOf stmts) →
      name ∈ names.taken → Flattens name name stmts
        ((flattenTo clashes depth again stmts).run names).1)
    (hwf : ∀ stmt ∈ stmts, stmt.isWellFormed = true) (hdepth : blockDepthOf stmts ≤ depth)
    (hname : clashes name = true ∨ name ∉ namesOf stmts)
    (hplain : ∀ stmt ∈ stmts, stmt.isLexicalDecl = false) (again : Bool) {names : Registry}
    (htaken : name ∈ names.taken) :
    Flattens name name stmts
      ((changeBlocksIn (flattenTo clashes depth) again stmts).run names).1 := by
  have hkept : List.Forall₂ (fun a b => a.Follows name name false true b ∧ b.isLexicalDecl = false)
      stmts ((LoopLowering.changeBlocksIn (flattenTo clashes depth) again stmts).run names).1 := by
    refine forall₂_changeBlocksIn_of_taken
      (fun stmt _ => stmt.draws_changeBlocks (draws_flattenTo clashes depth) _) ?_ htaken
    intro stmt hmem names htaken
    refine ⟨.changeBlocks hchange (hwf stmt hmem) (blockDepthOf_le.mp hdepth stmt hmem)
      ?_ again htaken, ?_⟩
    · refine hname.imp_right fun hnot hstmt => hnot ?_
      rw [namesOf_eq_flatMap]
      exact List.mem_flatMap.mpr ⟨stmt, hmem, hstmt⟩
    · exact (Node.Stands.changeBlocks (forall₂_fits_flattenTo clashes depth) (hwf stmt hmem) again
        names).lexical.trans (hplain stmt hmem)
  have hfollows := FollowsIn.of_forall₂ (hkept.imp fun _ _ h => h.1)
  refine ⟨hfollows, fun hmem => hfollows.mem_flatMap (fun a b h => h.declared false) ?_⟩
  rwa [List.flatMap_congr fun stmt hstmt => Node.declared_of_not_lexical ?_] at hmem
  obtain ⟨_, -, hrelated⟩ := exists_related_of_forall₂ hkept stmt hstmt
  exact hrelated.2

/-- Flattening a statement list, down to a depth that is deep enough. -/
theorem flattens_flattenTo (clashes : String → Bool) (depth : Nat) (again : Bool)
    (stmts : List Node) (names : Registry) (hwf : ∀ stmt ∈ stmts, stmt.isWellFormed = true)
    (hdepth : blockDepthOf stmts < depth) (hname : clashes name = true ∨ name ∉ namesOf stmts)
    (htaken : name ∈ names.taken) :
    Flattens name name stmts ((flattenTo clashes depth again stmts).run names).1 := by
  induction depth generalizing again stmts names with
  | zero => exact absurd hdepth (Nat.not_lt_zero _)
  | succ depth ih =>
      have hsub := (draws_renameClashing clashes (stmts.flatMap Node.blockScopedNames) stmts).subset
        names htaken
      obtain ⟨hrename, hdepthRenamed, hnone⟩ := renameClashing_clears hwf hname htaken
      have hwfRenamed := Node.Fits.wellFormed_of_forall₂
        (forall₂_fits_renameClashing clashes (stmts.flatMap Node.blockScopedNames) hwf names)
      have hdecls := hrename.trans (.flattenDecl again hwfRenamed hnone)
      refine .of_follows hdecls (.changeBlocksIn ih ?_ ?_ ?_ ?_ again hsub)
      · rw [List.forall_mem_map]
        exact fun stmt hmem => (Node.Fits.flattenDecl again (hwfRenamed stmt hmem)).wellFormed
      · rw [blockDepthOf_le, List.forall_mem_map]
        intro stmt hmem
        have hle := blockDepthOf_le.mp (Nat.le_trans hdepthRenamed (Nat.lt_succ_iff.mp hdepth))
            stmt hmem
        exact Nat.le_trans (stmt.blockDepth_flattenDecl_le again) hle
      · refine hname.imp_right fun hnot hmem => hnot ?_
        rw [namesOf_eq_flatMap] at hmem ⊢
        exact hdecls.mem_flatMap (fun _ _ h => h.names) hmem
      · rw [List.forall_mem_map]
        exact fun stmt _ => stmt.isLexicalDecl_flattenDecl again

theorem flattens_flattenStmts (clashes : String → Bool) (again : Bool) {stmts : List Node}
    {names : Registry} (hwf : ∀ stmt ∈ stmts, stmt.isWellFormed = true)
    (hname : clashes name = true ∨ name ∉ namesOf stmts) (htaken : name ∈ names.taken) :
    Flattens name name stmts ((flattenStmts clashes again stmts).run names).1 :=
  flattens_flattenTo clashes _ again stmts names hwf (Nat.lt_succ_self _) hname htaken

end

end LoopLowering
