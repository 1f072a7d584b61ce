/-
Renaming keeps the verdicts on loops.

A renaming changes a name where it is free and leaves alone every scope that binds it.  If the
new name is nowhere in the tree, no scope comes to bind a name it did not bind before, and no
name comes to be found in another scope.  The same holds for the names that stand for `this`
and `arguments`, unless a scope binds `arguments`.

So what a scope binds has to be followed through the tree.  It is said of each list of names a
tree declares that it stays as it is if it holds none of the names the renaming is about.
-/
import LoopLowering.Proofs.Alike
import LoopLowering.Proofs.KnownNames

namespace LoopLowering

/-! ### What the node around a node sees of it -/

/-- Whether a node is a name in a pattern. -/
def Node.isBinding : Node → Bool
  | .mk (.ident .bind _ _) _ _ => true
  | _ => false

theorem Node.declaresName_declarator (definite : Bool) (span : Span) (pattern : Node)
    (rest : List Node) :
    (Node.mk (.declarator definite) span (pattern :: rest)).declaresName = pattern.isBinding := by
  obtain ⟨form, patternSpan, parts⟩ := pattern
  cases form with
  | ident role => cases role <;> rfl
  | _ => rfl

/-- The second tree looks like the first to the declaration or loop it is a part of. -/
structure Node.LooksLike (a b : Node) : Prop where
  absent : b.isAbsent = a.isAbsent
  binding : b.isBinding = a.isBinding
  bareDeclarator : b.isBareDeclarator = a.isBareDeclarator
  bareDecl : b.isBareDecl = a.isBareDecl
  declaresName : b.declaresName = a.declaresName
  declaresNames : b.declaresNames = a.declaresNames

theorem Node.LooksLike.refl (node : Node) : node.LooksLike node := ⟨rfl, rfl, rfl, rfl, rfl, rfl⟩

section

variable {form : Form} {span : Span} {parts parts' : List Node}

theorem Node.LooksLike.map_declaresName (h : List.Forall₂ Node.LooksLike parts parts') :
    parts'.map Node.declaresName = parts.map Node.declaresName := by
  induction h with
  | nil => rfl
  | cons hhead _ ih => rw [List.map_cons, List.map_cons, hhead.declaresName, ih]

theorem Node.LooksLike.node (h : List.Forall₂ Node.LooksLike parts parts') :
    (Node.mk form span parts).LooksLike (.mk form span parts') := by
  have hall : parts'.all Node.declaresName = parts.all Node.declaresName := by
    have hmap := congrArg (List.all · id) (Node.LooksLike.map_declaresName h)
    simpa [List.all_map, Function.comp_def] using hmap
  refine ⟨rfl, ?_, ?_, ?_, ?_, ?_⟩
  · cases form with
    | ident role => cases role <;> rfl
    | _ => rfl
  · cases form with
    | declarator =>
        match parts, parts', h with
        | [], [], _ => rfl
        | [_], [_], _ => rfl
        | [_, init], [_, init'], .cons _ (.cons hinit .nil) => exact hinit.absent
        | _ :: _ :: _ :: _, _ :: _ :: _ :: _, _ => rfl
    | _ => rfl
  · cases form with
    | varDecl =>
        match parts, parts', h with
        | [], [], _ => rfl
        | [single], [single'], .cons hsingle .nil => exact hsingle.bareDeclarator
        | _ :: _ :: _, _ :: _ :: _, _ => rfl
    | _ => rfl
  · cases form with
    | declarator =>
        match parts, parts', h with
        | [], [], _ => rfl
        | pattern :: _, pattern' :: _, .cons hpattern _ =>
            rw [Node.declaresName_declarator, Node.declaresName_declarator]
            exact hpattern.binding
    | _ => rfl
  · cases form with
    | varDecl kind => cases kind with
      | var => rfl
      | lexical => exact hall
    | _ => rfl

theorem Node.LooksLike.headIsBare (h : List.Forall₂ Node.LooksLike parts parts') :
    (Node.mk form span parts').headIsBare = (Node.mk form span parts).headIsBare := by
  cases form with
  | forInStmt | forOfStmt =>
      cases h with
      | nil => rfl
      | cons hhead _ => exact hhead.bareDecl
  | _ => rfl

end

/-! ### What a tree declares -/

/-- Names that stay as they are if none of the names to avoid is among them, and otherwise may
become names to avoid. -/
structure KeptUnless (avoided before after : List String) : Prop where
  same : (∀ name ∈ avoided, name ∉ before) → after = before
  mem : ∀ name ∈ after, name ∈ before ∨ name ∈ avoided

namespace KeptUnless

variable {avoided names names' more more' : List String}

theorem refl (names : List String) : KeptUnless avoided names names :=
  ⟨fun _ => rfl, fun _ => Or.inl⟩

/-- A name to avoid may become another one. -/
theorem single {name new : String} (hname : name ∈ avoided) (hnew : new ∈ avoided) :
    KeptUnless avoided [name] [new] :=
  ⟨fun h => absurd (List.mem_singleton_self _) (h name hname),
    fun _ hmem => Or.inr (List.mem_singleton.mp hmem ▸ hnew)⟩

theorem append (h : KeptUnless avoided names names') (hmore : KeptUnless avoided more more') :
    KeptUnless avoided (names ++ more) (names' ++ more') where
  same havoids := by
    rw [h.same fun name hname hmem => havoids name hname (List.mem_append_left _ hmem),
      hmore.same fun name hname hmem => havoids name hname (List.mem_append_right _ hmem)]
  mem name hmem := by
    rcases List.mem_append.mp hmem with hmem | hmem
    · exact (h.mem name hmem).imp_left (List.mem_append_left _)
    · exact (hmore.mem name hmem).imp_left (List.mem_append_right _)

theorem foldl_addName (h : KeptUnless avoided names names') :
    KeptUnless avoided (names.foldl addName []) (names'.foldl addName []) where
  same havoids := by
    rw [h.same fun name hname hmem => havoids name hname (mem_foldl_addName.mpr (Or.inr hmem))]
  mem name hmem := by
    simp only [mem_foldl_addName, List.not_mem_nil, false_or] at hmem ⊢
    exact h.mem name hmem

theorem flatMap {declared : Node → List String} {nodes others : List Node}
    (h : List.Forall₂ (fun a b => KeptUnless avoided (declared a) (declared b)) nodes others) :
    KeptUnless avoided (nodes.flatMap declared) (others.flatMap declared) := by
  induction h with
  | nil => exact refl _
  | cons hhead _ ih =>
      rw [List.flatMap_cons, List.flatMap_cons]
      exact hhead.append ih

end KeptUnless

/-- What the second tree declares is what the first one does, unless the names to avoid are
among it. -/
structure Node.BindsLike (avoided : List String) (a b : Node) : Prop where
  binding : KeptUnless avoided a.bindingNames b.bindingNames
  blockScoped : KeptUnless avoided a.blockScopedNames b.blockScopedNames
  lexical : KeptUnless avoided a.lexicalNames b.lexicalNames
  vars : KeptUnless avoided a.varNames b.varNames
  body : KeptUnless avoided a.bodyNames b.bodyNames
  title : ∀ {name optional span parts}, a = .mk (.ident .title name optional) span parts →
    name ∉ avoided → ∃ parts', b = .mk (.ident .title name optional) span parts'
  named : ∀ {role name optional span parts}, b = .mk (.ident role name optional) span parts →
    name ∈ avoided ∨ ∃ parts', a = .mk (.ident role name optional) span parts'

theorem Node.BindsLike.refl (avoided : List String) (node : Node) : node.BindsLike avoided node :=
  ⟨.refl _, .refl _, .refl _, .refl _, .refl _, fun h _ => ⟨_, h⟩, fun h => Or.inr ⟨_, h⟩⟩

section

variable {avoided : List String} {form : Form} {span : Span} {parts parts' : List Node}

theorem Node.BindsLike.bindingNamesOf (h : List.Forall₂ (Node.BindsLike avoided) parts parts') :
    KeptUnless avoided (bindingNamesOf parts) (bindingNamesOf parts') := by
  rw [bindingNamesOf_eq_flatMap, bindingNamesOf_eq_flatMap]
  exact .flatMap (h.imp fun _ _ hb => hb.binding)

theorem Node.BindsLike.lexicalNamesOf (h : List.Forall₂ (Node.BindsLike avoided) parts parts') :
    KeptUnless avoided (lexicalNamesOf parts) (lexicalNamesOf parts') :=
  .flatMap (h.imp fun _ _ hb => hb.lexical)

theorem Node.BindsLike.varNamesOf (h : List.Forall₂ (Node.BindsLike avoided) parts parts') :
    KeptUnless avoided (varNamesOf parts) (varNamesOf parts') := by
  rw [varNamesOf_eq_flatMap, varNamesOf_eq_flatMap]
  exact .flatMap (h.imp fun _ _ hb => hb.vars)

theorem Node.BindsLike.bindingNames_node (h : List.Forall₂ (Node.BindsLike avoided) parts parts') :
    KeptUnless avoided (Node.mk form span parts).bindingNames
      (Node.mk form span parts').bindingNames := by
  cases form with
  | ident role => cases role <;> exact .refl _
  | list => exact Node.BindsLike.bindingNamesOf h
  | arrayPat | objectPat | rest | assignPat | assignPatProp | declarator =>
      match parts, parts', h with
      | [], [], _ => exact .refl _
      | [_], [_], _ => exact .refl _
      | [first, _], [first', _], .cons hfirst (.cons _ .nil) => exact hfirst.binding
      | _ :: _ :: _ :: _, _ :: _ :: _ :: _, _ => exact .refl _
  | keyValuePat | parameter | parameterProperty =>
      match parts, parts', h with
      | [], [], _ => exact .refl _
      | [_], [_], _ => exact .refl _
      | [_, second], [_, second'], .cons _ (.cons hsecond .nil) => exact hsecond.binding
      | _ :: _ :: _ :: _, _ :: _ :: _ :: _, _ => exact .refl _
  | _ => exact .refl _

theorem Node.eq_title_of_category {node : Node} (h : node.form.category = .title) :
    ∃ name optional span parts, node = .mk (.ident .title name optional) span parts := by
  obtain ⟨form, span, parts⟩ := node
  cases form with
  | ident role => cases role with
    | title => exact ⟨_, _, _, _, rfl⟩
    | _ => cases h
  | _ => cases h

/-- What is not a `let` or `const` declares its title. -/
theorem Node.eq_ident_of_mem_lexicalNames (hform : ∀ kind declare, form ≠ .varDecl kind declare)
    {title body : Node} {name : String}
    (h : name ∈ (Node.mk form span [title, body]).lexicalNames) :
    ∃ role optional span parts, title = .mk (.ident role name optional) span parts := by
  unfold Node.lexicalNames at h
  split at h
  · next heq =>
    cases heq
    exact absurd rfl (hform _ _)
  · next heq =>
    cases heq
    obtain rfl := List.mem_singleton.mp h
    exact ⟨_, _, _, _, rfl⟩
  · next heq =>
    cases heq
    obtain rfl := List.mem_singleton.mp h
    exact ⟨_, _, _, _, rfl⟩
  · cases h

theorem Node.BindsLike.lexicalNames_node (hwf : (Node.mk form span parts).isWellFormed = true)
    (h : List.Forall₂ (Node.BindsLike avoided) parts parts') :
    KeptUnless avoided (Node.mk form span parts).lexicalNames
      (Node.mk form span parts').lexicalNames := by
  cases form with
  | varDecl kind => cases kind with
    | var => exact .refl _
    | lexical => exact Node.BindsLike.bindingNamesOf h
  | classDecl | functionDecl =>
      obtain ⟨title, body, rfl⟩ := List.length_eq_two.mp (Node.length_parts hwf (by simp) rfl)
      have hfill := (Node.isWellFormed_mk.mp hwf).1.resolve_left (by simp)
      simp only [Form.shape, Shape.admits, fillSlots, Slot.admits, Bool.and_eq_true] at hfill
      obtain ⟨name, optional, titleSpan, _, rfl⟩ :=
        Node.eq_title_of_category (by simpa using hfill.1)
      obtain _ | ⟨htitle, _ | ⟨hbody, ⟨⟩⟩⟩ := h
      refine ⟨fun havoids => ?_, fun declared hmem => ?_⟩
      · obtain ⟨_, rfl⟩ :=
          htitle.title rfl fun hmem => havoids name hmem (by simp [Node.lexicalNames])
        rfl
      · obtain ⟨_, _, _, _, rfl⟩ := Node.eq_ident_of_mem_lexicalNames (by simp) hmem
        refine (htitle.named rfl).symm.imp_left ?_
        rintro ⟨_, heq⟩
        cases heq
        exact List.mem_singleton_self _
  | _ => exact .refl _

theorem Node.BindsLike.node (hwf : (Node.mk form span parts).isWellFormed = true)
    (h : List.Forall₂ (Node.BindsLike avoided) parts parts') :
    (Node.mk form span parts).BindsLike avoided (.mk form span parts') := by
  refine ⟨Node.BindsLike.bindingNames_node h, ?_,
    Node.BindsLike.lexicalNames_node hwf h, ?_, ?_, ?_, ?_⟩
  · cases form with
    | varDecl kind => cases kind with
      | var => exact .refl _
      | lexical => exact Node.BindsLike.bindingNamesOf h
    | _ => exact .refl _
  · unfold Node.varNames
    split
    · exact .refl _
    split
    · exact Node.BindsLike.bindingNamesOf h
    · exact Node.BindsLike.varNamesOf h
  · cases form with
    | block =>
        exact (Node.BindsLike.varNamesOf h).foldl_addName.append (Node.BindsLike.lexicalNamesOf h)
    | _ => exact .refl _
  · rintro name optional span parts heq -
    cases heq
    exact ⟨_, rfl⟩
  · rintro role name optional span parts heq
    cases heq
    exact Or.inr ⟨_, rfl⟩

/-- The scope a node opens binds the same names as before. -/
theorem Node.BindsLike.scopeNames (h : List.Forall₂ (Node.BindsLike avoided) parts parts') :
    KeptUnless avoided (Node.mk form span parts).scopeNames
      (Node.mk form span parts').scopeNames := by
  cases form with
  | block => exact Node.BindsLike.lexicalNamesOf h
  | catchClause =>
      cases h with
      | nil => exact .refl _
      | cons hparam _ => exact hparam.binding
  | functionExpr name => cases name <;> exact .refl _
  | function =>
      match parts, parts', h with
      | [params, _, body, _], [params', _, body', _],
          .cons hparams (.cons _ (.cons hbody (.cons _ .nil))) =>
          exact hparams.binding.append hbody.body
      | [], [], _ | [_], [_], _ | [_, _], [_, _], _ | [_, _, _], [_, _, _], _
      | _ :: _ :: _ :: _ :: _ :: _, _ :: _ :: _ :: _ :: _ :: _, _ => exact .refl _
  | arrow =>
      match parts, parts', h with
      | [params, body, _], [params', body', _], .cons hparams (.cons hbody (.cons _ .nil)) =>
          exact hparams.binding.append hbody.body
      | [], [], _ | [_], [_], _ | [_, _], [_, _], _
      | _ :: _ :: _ :: _ :: _, _ :: _ :: _ :: _ :: _, _ => exact .refl _
  | constructor | setter =>
      match parts, parts', h with
      | [_, params, body], [_, params', body'], .cons _ (.cons hparams (.cons hbody .nil)) =>
          exact hparams.binding.append hbody.body
      | [], [], _ | [_], [_], _ | [_, _], [_, _], _
      | _ :: _ :: _ :: _ :: _, _ :: _ :: _ :: _ :: _, _ => exact .refl _
  | getter =>
      match parts, parts', h with
      | [_, body], [_, body'], .cons _ (.cons hbody .nil) => exact hbody.body
      | [], [], _ | [_], [_], _ | _ :: _ :: _ :: _, _ :: _ :: _ :: _, _ => exact .refl _
  | forStmt | forInStmt | forOfStmt =>
      cases h with
      | nil => exact .refl _
      | cons hhead _ => exact hhead.blockScoped
  | _ => exact .refl _

end

/-! ### Names of scopes are names of the tree -/

theorem bindingNamesOf_subset (nodes : List Node) : bindingNamesOf nodes ⊆ namesOf nodes := by
  rw [bindingNamesOf_eq_flatMap, namesOf_eq_flatMap]
  intro name hname
  obtain ⟨node, hmem, hname⟩ := List.mem_flatMap.mp hname
  exact List.mem_flatMap.mpr ⟨node, hmem, node.bindingNames_subset hname⟩

theorem Node.names_subset_of_mem {form : Form} {span : Span} {parts : List Node} {part : Node}
    (h : part ∈ parts) : part.names ⊆ (Node.mk form span parts).names := by
  rw [Node.names, namesOf_eq_flatMap]
  exact fun name hname => List.mem_append_right _ (List.mem_flatMap.mpr ⟨part, h, hname⟩)

theorem Node.varNames_subset (node : Node) : node.varNames ⊆ node.names := by
  induction node using Node.inductionOn with
  | step form span parts ih =>
      unfold Node.varNames
      split
      · exact List.nil_subset _
      split
      · rw [Node.names]
        exact fun name hname => List.mem_append_right _ (bindingNamesOf_subset parts hname)
      · rw [varNamesOf_eq_flatMap]
        intro name hname
        obtain ⟨part, hmem, hname⟩ := List.mem_flatMap.mp hname
        exact Node.names_subset_of_mem hmem (ih part hmem hname)

theorem Node.blockScopedNames_subset (node : Node) : node.blockScopedNames ⊆ node.names := by
  unfold Node.blockScopedNames
  split
  · rw [Node.names]
    exact fun name hname => List.mem_append_right _ (bindingNamesOf_subset _ hname)
  · exact List.nil_subset _

theorem Node.lexicalNames_subset (node : Node) : node.lexicalNames ⊆ node.names := by
  unfold Node.lexicalNames
  split
  · rw [Node.names]
    exact fun name hname => List.mem_append_right _ (bindingNamesOf_subset _ hname)
  · simp [Node.names, namesOf, Form.names]
  · simp [Node.names, namesOf, Form.names]
  · exact List.nil_subset _

theorem lexicalNamesOf_subset {form : Form} {span : Span} (stmts : List Node) :
    lexicalNamesOf stmts ⊆ (Node.mk form span stmts).names := by
  intro name hname
  obtain ⟨stmt, hmem, hname⟩ := List.mem_flatMap.mp hname
  exact Node.names_subset_of_mem hmem (stmt.lexicalNames_subset hname)

theorem Node.bodyNames_subset (node : Node) : node.bodyNames ⊆ node.names := by
  unfold Node.bodyNames
  split
  · next span stmts =>
    refine List.append_subset.mpr ⟨fun name hname => ?_, lexicalNamesOf_subset stmts⟩
    rw [hoistedVarNames, mem_foldl_addName, varNamesOf_eq_flatMap] at hname
    obtain ⟨stmt, hmem, hname⟩ := List.mem_flatMap.mp (hname.resolve_left List.not_mem_nil)
    exact Node.names_subset_of_mem hmem (stmt.varNames_subset hname)
  · exact List.nil_subset _

/-- The names a scope binds are names of the tree. -/
theorem Node.scopeNames_subset (node : Node) : node.scopeNames ⊆ node.names := by
  have hpart : ∀ {form : Form} {span : Span} {parts : List Node} {part : Node}, part ∈ parts →
      part.bindingNames ⊆ (Node.mk form span parts).names ∧
        part.bodyNames ⊆ (Node.mk form span parts).names ∧
        part.blockScopedNames ⊆ (Node.mk form span parts).names := fun hmem =>
    ⟨List.Subset.trans (Node.bindingNames_subset _) (Node.names_subset_of_mem hmem),
      List.Subset.trans (Node.bodyNames_subset _) (Node.names_subset_of_mem hmem),
      List.Subset.trans (Node.blockScopedNames_subset _) (Node.names_subset_of_mem hmem)⟩
  unfold Node.scopeNames
  split
  · exact lexicalNamesOf_subset _
  · exact (hpart (by simp)).1
  · simp [Node.names, Form.names]
  · exact List.append_subset.mpr ⟨(hpart (by simp)).1, (hpart (by simp)).2.1⟩
  · exact List.append_subset.mpr ⟨(hpart (by simp)).1, (hpart (by simp)).2.1⟩
  · exact List.append_subset.mpr ⟨(hpart (by simp)).1, (hpart (by simp)).2.1⟩
  · exact (hpart (by simp)).2.1
  · exact List.append_subset.mpr ⟨(hpart (by simp)).1, (hpart (by simp)).2.1⟩
  · unfold Node.headNames
    split
    · exact (hpart (by simp)).2.2
    · exact (hpart (by simp)).2.2
    · exact (hpart (by simp)).2.2
    · exact List.nil_subset _

/-! ### Renamed trees -/

/-- The second tree is the first with some names changed. -/
structure Node.Renames (judged : Bool) (avoided : List String) (a b : Node) : Prop
    extends Node.Alike judged (.names avoided) a b where
  looks : a.LooksLike b
  binds : a.BindsLike avoided b

namespace Node.Renames

variable {judged : Bool} {avoided : List String} {form : Form} {span : Span}
  {parts parts' : List Node}

theorem refl (node : Node) : node.Renames judged avoided node :=
  ⟨.refl (fun _ => rfl) rfl node, .refl node, .refl avoided node⟩

/-- The same node around renamed parts. -/
theorem node (hwf : (Node.mk form span parts).isWellFormed = true)
    (havoids : judged = true → ∀ name ∈ avoided, name ∉ (Node.mk form span parts).scopeNames)
    (hparts : List.Forall₂ (Node.Renames judged avoided) parts parts') :
    (Node.mk form span parts).Renames judged avoided (.mk form span parts') := by
  have hlooks := hparts.imp fun _ _ h => h.looks
  have hbinds := hparts.imp fun _ _ h => h.binds
  have halike : List.Forall₂ (Node.Alike judged (Pass.inside (.names avoided) form)) parts parts' :=
    hparts.imp fun _ _ h => h.toAlike
  refine ⟨.node ?_ halike, .node hlooks, .node hwf hbinds⟩
  exact
    { enters := fun h => by cases h
      covers := fun _ _ => Or.inl rfl
      jumps := fun _ _ => rfl
      head := Node.LooksLike.headIsBare hlooks
      declares := (Node.LooksLike.node hlooks).declaresNames
      vars := fun _ _ => Node.LooksLike.map_declaresName hlooks
      scope := fun hjudged => (Node.BindsLike.scopeNames hbinds).same (havoids hjudged)
      avoids := havoids }

theorem alikeIn (h : List.Forall₂ (Node.Renames judged avoided) parts parts') :
    AlikeIn judged (.names avoided) parts parts' :=
  .of_forall₂ (h.imp fun _ _ hrenames => hrenames.toAlike)

/-- A name to avoid may become another one. -/
theorem ident {role : Role} {name new : String} {optional : Bool} (hname : name ∈ avoided)
    (hnew : new ∈ avoided) (hparts : List.Forall₂ (Node.Renames judged avoided) parts parts') :
    (Node.mk (.ident role name optional) span parts).Renames judged avoided
      (.mk (.ident role new optional) span parts') := by
  refine ⟨.inert (Node.isInert_mk rfl _ _) (Node.isInert_mk rfl _ _) (alikeIn hparts) ?_, ?_, ?_⟩
  · intro _ ctx hclear
    exact (hclear.filter_isTelling_reference (Or.inr hnew)).trans
      (hclear.filter_isTelling_reference (Or.inr hname)).symm
  · exact ⟨rfl, by cases role <;> rfl, rfl, rfl, rfl, rfl⟩
  · refine ⟨?_, .refl _, .refl _, Node.BindsLike.varNamesOf (hparts.imp fun _ _ h => h.binds),
      .refl _, ?_, ?_⟩
    · cases role with
      | bind => exact .single hname hnew
      | _ => exact .refl _
    · rintro _ _ _ _ heq hnot
      cases heq
      exact absurd hname hnot
    · rintro _ _ _ _ _ heq
      cases heq
      exact Or.inl hnew

/-- A property that is both key and value may be written out. -/
theorem keyValue_short {name new key : String} {optional : Bool}
    (hwf : (Node.mk (.ident .short name optional) span parts).isWellFormed = true)
    (hname : name ∈ avoided) (hnew : new ∈ avoided) :
    (Node.mk (.ident .short name optional) span parts).Renames judged avoided
      (.keyValue key (.use new span) span) := by
  obtain rfl := Node.parts_eq_nil rfl (by simp) hwf
  have hkey : (Node.mk (.propName key) span []).IsSilent judged (.names avoided) :=
    Node.isSilent_leaf rfl span fun _ => rfl
  have hvalue : (Node.use new span).IsSilent judged (.names avoided) :=
    Node.isSilent_ident (Or.inr hnew) (by simp)
  refine ⟨.inert (Node.isInert_mk rfl _ _) (Node.isInert_mk rfl _ _)
    ((AlikeIn.nil.silent_right hvalue).silent_right hkey) ?_, ?_, ?_⟩
  · exact fun _ ctx hclear => (hclear.filter_isTelling_reference (Or.inr hname)).symm
  · exact ⟨rfl, rfl, rfl, rfl, rfl, rfl⟩
  · exact ⟨.refl _, .refl _, .refl _, .refl _, .refl _, nofun, nofun⟩

/-- A pattern that is both key and name may be written out. -/
theorem keyValuePat_short {name new key : String} {optional : Bool} {keySpan : Span}
    {ascription : List Node} {value value' : Node}
    (hwf : (Node.mk .assignPatProp span
      [.mk (.ident .bind name optional) keySpan ascription, value]).isWellFormed = true)
    (hname : name ∈ avoided) (hnew : new ∈ avoided) (hvalue : value.Renames judged avoided value') :
    (Node.mk .assignPatProp span
        [.mk (.ident .bind name optional) keySpan ascription, value]).Renames judged avoided
      (.mk .keyValuePat .generated
        [.mk (.propName key) keySpan [],
         if value.isAbsent then .mk (.ident .bind new optional) keySpan ascription
         else .mk .assignPat span [.mk (.ident .bind new optional) keySpan ascription,
           value']]) := by
  have hbound : (Node.mk (.ident .bind name optional) keySpan ascription).Renames judged avoided
      (.mk (.ident .bind new optional) keySpan ascription) :=
    ident hname hnew (List.forall₂_same.mpr fun part _ => refl part)
  have hkey : (Node.mk (.propName key) keySpan []).IsSilent judged (.names avoided) :=
    Node.isSilent_leaf rfl keySpan fun _ => rfl
  refine ⟨.inert (Node.isInert_mk rfl _ _) (Node.isInert_mk rfl _ _) (.silent_right ?_ hkey)
    fun _ _ _ => rfl, ⟨rfl, rfl, rfl, rfl, rfl, rfl⟩, ?_⟩
  · cases habsent : value.isAbsent with
    | true =>
        obtain ⟨valueSpan, rfl⟩ :=
          Node.eq_absent_of_isAbsent (Node.isWellFormed_part hwf (by simp)) habsent
        have hgone : (Node.mk .absent valueSpan []).IsSilent judged (.names avoided) :=
          Node.isSilent_leaf rfl valueSpan fun _ => rfl
        exact (AlikeIn.nil.silent_left hgone).cons hbound.toAlike
    | false =>
        exact .wrap_right (Node.isInert_mk rfl _ _) (fun _ _ _ => rfl)
          ((AlikeIn.nil.cons hvalue.toAlike).cons hbound.toAlike)
  · refine ⟨?_, .refl _, .refl _, ?_, .refl _, nofun, nofun⟩
    · cases value.isAbsent <;> exact .single hname hnew
    have hvars : (Node.mk .assignPatProp span
        [.mk (.ident .bind name optional) keySpan ascription, value]).varNames =
          varNamesOf ascription ++ value.varNames := by
      simp [Node.varNames, varNamesOf, Form.isClosure]
    rw [hvars]
    cases habsent : value.isAbsent with
    | true =>
        obtain ⟨valueSpan, rfl⟩ :=
          Node.eq_absent_of_isAbsent (Node.isWellFormed_part hwf (by simp)) habsent
        simpa [Node.varNames, varNamesOf, Form.isClosure] using KeptUnless.refl _
    | false =>
        simpa [Node.varNames, varNamesOf, Form.isClosure] using
          (KeptUnless.refl (varNamesOf ascription)).append hvalue.binds.vars

/-- Renaming a tree to a name it does not have. -/
theorem substitute {old new : String} {node : Node} (hwf : node.isWellFormed = true)
    (hnew : new ∉ node.names) : node.Renames judged [old, new] (node.substitute old new) := by
  induction node using Node.inductionOn with
  | step form span parts ih =>
      have hparts : List.Forall₂ (Node.Renames judged [old, new]) parts
          (substituteIn old new parts) := by
        rw [substituteIn_eq_map]
        refine List.forall₂_map_right_iff.mpr (List.forall₂_same.mpr fun part hmem => ?_)
        exact ih part hmem (Node.isWellFormed_part hwf hmem)
          fun h => hnew (Node.names_subset_of_mem hmem h)
      unfold Node.substitute
      split
      · exact refl _
      next hscope =>
      have hnode : (Node.mk form span parts).Renames judged [old, new]
          (.mk form span (substituteIn old new parts)) := by
        refine node hwf (fun _ => ?_) hparts
        simpa using ⟨hscope, fun h => hnew (Node.scopeNames_subset _ h)⟩
      split
      · split
        · next hname => exact keyValue_short hwf (by simp [hname]) (by simp)
        · exact hnode
      · split
        · next hname => exact ident (by simp [hname]) (by simp) hparts
        · exact hnode
      · split
        · next hname =>
          exact keyValuePat_short hwf (by simp [hname]) (by simp) (by
            obtain _ | ⟨_, _ | ⟨hvalue, _⟩⟩ := hparts
            exact hvalue)
        · next hname =>
          rw [substituteIn, substituteIn, substituteIn,
            Node.substitute_binding _ _ _ hname] at hnode
          exact hnode
      · exact hnode

/-- Renaming a tree to a name it does not have, or leaving it as it is. -/
theorem rename {old new : String} {node : Node} (hwf : node.isWellFormed = true)
    (hnew : new ∉ node.names) : node.Renames judged [old, new] (node.rename old new) := by
  unfold Node.rename
  split
  · exact refl node
  · exact substitute hwf hnew

/-- `this` may be replaced by a name to avoid. -/
theorem use_this {name : String} (hwf : (Node.mk .thisExpr span parts).isWellFormed = true)
    (hname : name ∈ avoided) :
    (Node.mk .thisExpr span parts).Renames judged avoided (.use name span) := by
  obtain rfl := Node.parts_eq_nil rfl (by simp) hwf
  refine ⟨.inert (Node.isInert_mk rfl _ _) (Node.isInert_mk rfl _ _) .nil ?_,
    ⟨rfl, rfl, rfl, rfl, rfl, rfl⟩,
    ⟨.refl _, .refl _, .refl _, .refl _, .refl _, nofun, ?_⟩⟩
  · intro _ ctx hclear
    refine (hclear.filter_isTelling_reference (Or.inr hname)).trans ?_
    simp only [Capture.Context.own]
    split <;> rfl
  · rintro _ _ _ _ _ heq
    cases heq
    exact Or.inl hname

/-- The names of the aliases, and the name one of them stands for. -/
def aliasNames (aliases : Aliases) : List String :=
  "arguments" :: (aliases.this?.toList ++ aliases.arguments?.toList)

/-- Naming `this` and `arguments` in a tree in which no scope binds them. -/
theorem useAliases {aliases : Aliases} {node : Node} (hwf : node.isWellFormed = true)
    (hnew : ∀ name ∈ aliases.this?.toList ++ aliases.arguments?.toList, name ∉ node.names)
    (hsound : node.everywhere (Node.isSound judged) = true) :
    node.Renames judged (aliasNames aliases) (node.useAliases aliases) := by
  induction node using Node.inductionOn with
  | step form span parts ih =>
      have harguments : "arguments" ∈ aliasNames aliases := List.mem_cons_self
      obtain ⟨hself, hrest⟩ := Node.everywhere_mk.mp hsound
      unfold Node.useAliases
      split
      · exact refl _
      split
      · split
        · next name hname => exact use_this hwf (by simp [aliasNames, hname])
        · exact refl _
      · split
        · next name hname =>
          exact ident harguments (by simp [aliasNames, hname])
            (List.forall₂_same.mpr fun part _ => refl part)
        · exact refl _
      · split
        · next name hname => exact keyValue_short hwf harguments (by simp [aliasNames, hname])
        · exact refl _
      · refine node hwf (fun hjudged => ?_) ?_
        · refine List.forall_mem_cons.mpr ⟨?_, fun name hmem h =>
            hnew name hmem (Node.scopeNames_subset _ h)⟩
          exact Node.notMem_scopeNames_of_isSound (hjudged ▸ hself)
        · rw [useAliasesIn_eq_map]
          refine List.forall₂_map_right_iff.mpr (List.forall₂_same.mpr fun part hmem => ?_)
          exact ih part hmem (Node.isWellFormed_part hwf hmem)
            (fun name hname h => hnew name hname (Node.names_subset_of_mem hmem h))
            (hrest part hmem)

end Node.Renames

end LoopLowering
