/-
A loop that is flattened keeps everything but the kinds of its declarations, names and resets.

What a tree may become is said by three relations, from the inside out: only names change
(`Node.RenamedTo`), declarations are turned into `var` as well (`Node.FlattenedTo`), and a loop
stays in place (`Node.KeptInPlace`).  Renaming one binding keeps the first of them as long as no
identifier is renamed twice: what is renamed is a name of the loop, and what it is renamed to is
new.
-/
import LoopLowering.Proofs.Apart

namespace LoopLowering

/-! ### Renamed trees -/

/-- A tree in which some identifiers have new names, as the relation tells.  A shorthand whose name
changes is written out, under the key that it was. -/
inductive Node.RenamedTo (names : String → String → Prop) : Node → Node → Prop
  | node {form : Form} {span : Span} {parts parts' : List Node} (hform : form ≠ .assignPatProp)
      (hparts : List.Forall₂ (Node.RenamedTo names) parts parts') :
      RenamedTo names (.mk form span parts) (.mk form span parts')
  | ident {role : Role} {old new : String} {optional : Bool} {span : Span}
    {parts parts' : List Node}
      (hrole : role ≠ .short) (hname : names old new)
      (hparts : List.Forall₂ (Node.RenamedTo names) parts parts') :
      RenamedTo names (.mk (.ident role old optional) span parts)
        (.mk (.ident role new optional) span parts')
  /-- The property `{ old }` becomes `{ old: new }`. -/
  | short {old new : String} {optional : Bool} {span : Span} {parts : List Node}
    (hname : names old new) :
      RenamedTo names (.mk (.ident .short old optional) span parts)
        (.keyValue old (.use new span) span)
  /-- The pattern `{ name = value }` keeps its name. -/
  | key {name : String} {optional : Bool} {span keySpan : Span} {ascription ascription' : List Node}
      {value value' : Node}
      (hascription : List.Forall₂ (Node.RenamedTo names) ascription ascription')
      (hvalue : RenamedTo names value value') :
      RenamedTo names (.mk .assignPatProp span
        [.mk (.ident .bind name optional) keySpan ascription, value])
        (.mk .assignPatProp span [.mk (.ident .bind name optional) keySpan ascription', value'])
  /-- The pattern `{ old = value }` becomes `{ old: new = value }`. -/
  | pattern {old new : String} {optional : Bool} {span keySpan : Span}
    {ascription ascription' : List Node}
      {value value' : Node} (hname : names old new)
      (hascription : List.Forall₂ (Node.RenamedTo names) ascription ascription')
      (hvalue : RenamedTo names value value') :
      RenamedTo names (.mk .assignPatProp span
        [.mk (.ident .bind old optional) keySpan ascription, value])
        (.mk .keyValuePat .generated [.mk (.propName old) keySpan [],
          if value.isAbsent then .mk (.ident .bind new optional) keySpan ascription'
          else .mk .assignPat span [.mk (.ident .bind new optional) keySpan ascription', value']])

section

variable {names : String → String → Prop} {a b : Node} {nodes others : List Node}

theorem Node.RenamedTo.isAbsent (h : a.RenamedTo names b) : b.isAbsent = a.isAbsent := by
  cases h with
  | _ => rfl

theorem Node.RenamedTo.isLexicalDecl (h : a.RenamedTo names b) :
    b.isLexicalDecl = a.isLexicalDecl := by
  cases h with
  | _ => rfl

/-- A name that is no shorthand keeps its place. -/
theorem Node.RenamedTo.of_ident {role : Role} {name : String} {optional : Bool} {span : Span}
    {parts : List Node} (hrole : role ≠ .short)
    (h : (Node.mk (.ident role name optional) span parts).RenamedTo names b) :
    ∃ name' parts', b = .mk (.ident role name' optional) span parts' ∧
      (name' = name ∨ names name name') ∧
      List.Forall₂ (Node.RenamedTo names) parts parts' := by
  cases h with
  | node _ hparts => exact ⟨_, _, rfl, Or.inl rfl, hparts⟩
  | ident _ hname hparts => exact ⟨_, _, rfl, Or.inr hname, hparts⟩
  | short => exact absurd rfl hrole

/-- What a pattern without key looks like. -/
theorem Node.exists_assignPatProp {span : Span} {parts : List Node}
    (hwf : (Node.mk .assignPatProp span parts).isWellFormed = true) :
      ∃ name optional keySpan ascription value,
      parts = [.mk (.ident .bind name optional) keySpan ascription, value] := by
  obtain ⟨⟨form, keySpan, ascription⟩, value, rfl⟩ :=
    List.length_eq_two.mp (Node.length_parts hwf (by simp) rfl)
  obtain ⟨_, _, heq, hkey, -⟩ :=
    exists_of_fillSlots_cons ((Node.isWellFormed_mk.mp hwf).1.resolve_left (by simp))
  cases heq
  obtain ⟨name, optional, rfl⟩ : ∃ name optional, form = .ident .bind name optional := by
    cases form with
    | ident role name optional =>
        cases role with
        | bind => exact ⟨name, optional, rfl⟩
        | _ => cases hkey
    | _ => cases hkey
  exact ⟨name, optional, keySpan, ascription, value, rfl⟩

theorem Node.RenamedTo.refl (names : String → String → Prop) {node : Node}
    (hwf : node.isWellFormed = true) : node.RenamedTo names node := by
  induction node using Node.inductionOn with
  | step form span parts ih =>
      have hparts : ∀ part ∈ parts, part.RenamedTo names part :=
        fun part hmem => ih part hmem (Node.isWellFormed_part hwf hmem)
      by_cases hform : form = .assignPatProp
      · subst hform
        obtain ⟨name, optional, keySpan, ascription, value, rfl⟩ := Node.exists_assignPatProp hwf
        have hkey := hparts _ List.mem_cons_self
        obtain ⟨_, _, heq, -, hascription⟩ := hkey.of_ident (by simp)
        cases heq
        exact .key hascription (hparts value (List.mem_cons_of_mem _ List.mem_cons_self))
      · exact .node hform (List.forall₂_same.mpr hparts)

theorem forall₂_renamedTo_refl (names : String → String → Prop)
    (hwf : ∀ node ∈ nodes, node.isWellFormed = true) :
    List.Forall₂ (Node.RenamedTo names) nodes nodes :=
  List.forall₂_same.mpr fun node hmem => .refl names (hwf node hmem)

/-- A change of each tree of a list that is only renamed. -/
theorem forall₂_renamedTo_map {f : Node → Node}
    (h : List.Forall₂ (Node.RenamedTo names) nodes others)
    (hf : ∀ node ∈ nodes, ∀ other, node.RenamedTo names other → node.RenamedTo names (f other)) :
    List.Forall₂ (Node.RenamedTo names) nodes (others.map f) :=
  List.forall₂_map_right_iff.mpr ((forall₂_with_mem h).imp fun node other hboth =>
    hf node hboth.1 other hboth.2.2)

theorem Node.substitute_ident {role : Role} (hrole : role ≠ .short) {old new name : String}
    {optional : Bool} {span : Span} {parts : List Node} :
    (Node.mk (.ident role name optional) span parts).substitute old new =
      .mk (.ident role (if name = old then new else name) optional) span
      (substituteIn old new parts) := by
  have hscope : (Node.mk (.ident role name optional) span parts).scopeNames = [] := rfl
  rw [Node.substitute, hscope, if_neg List.not_mem_nil]
  exact hrole

/-- Giving a name of the tree a new name renames no identifier twice. -/
theorem Node.RenamedTo.substitute {old new : String} (hnew : names old new)
    (hold : ∀ name, ¬ names name old) (h : a.RenamedTo names b) :
    a.RenamedTo names (b.substitute old new) := by
  induction a using Node.inductionOn generalizing b with
  | step form span parts ih =>
      by_cases hscope : old ∈ b.scopeNames
      · rwa [Node.substitute_of_mem_scopeNames hscope]
      have hlist : ∀ {nodes others : List Node}, (∀ node ∈ nodes, ∀ {other : Node},
          node.RenamedTo names other → node.RenamedTo names (other.substitute old new)) →
          List.Forall₂ (Node.RenamedTo names) nodes others →
            List.Forall₂ (Node.RenamedTo names) nodes (substituteIn old new others) := by
        intro nodes others hnodes hothers
        rw [substituteIn_eq_map]
        exact forall₂_renamedTo_map hothers fun node hmem other => hnodes node hmem
      cases h with
      | node hform hparts =>
          have hparts := hlist ih hparts
          unfold Node.substitute
          rw [if_neg hscope]
          split
          · split
            · next hname =>
              subst hname
              exact .short hnew
            · exact .node hform hparts
          · next hshort =>
            split
            · next hname =>
              subst hname
              exact .ident hshort hnew hparts
            · exact .node hform hparts
          · exact absurd rfl hform
          · exact .node hform hparts
      | ident hrole hname hparts =>
          rw [Node.substitute_ident hrole, if_neg fun heq => hold _ (heq ▸ hname)]
          exact .ident hrole hname (hlist ih hparts)
      | @short used renamed optional _ _ hname =>
          have hkept : renamed ≠ old := fun heq => hold _ (heq ▸ hname)
          have hsame : (Node.keyValue used (.use renamed span) span).substitute old new =
              .keyValue used (.use renamed span) span := by
            simp [Node.keyValue, Node.use, Node.substitute, substituteIn, Node.scopeNames,
              Node.headNames, hkept]
          rw [hsame]
          exact .short hname
      | @key name optional _ keySpan ascription ascription' value value' hascription hvalue =>
          have hrenamed := ih value (List.mem_cons_of_mem _ List.mem_cons_self) hvalue
          unfold Node.substitute
          rw [if_neg hscope]
          simp only
          split
          · next hname =>
            subst hname
            rw [hvalue.isAbsent]
            exact .pattern hnew hascription hrenamed
          · next hname =>
            have hkey := ih _ List.mem_cons_self (.node (by simp) hascription)
            rw [Node.substitute_binding optional keySpan ascription' hname] at hkey
            obtain ⟨_, _, heq, -, hascription⟩ := hkey.of_ident (by simp)
            cases heq
            exact .key hascription hrenamed
      | @pattern used renamed optional _ keySpan ascription ascription' value value' hname
          hascription hvalue =>
          have hkept : renamed ≠ old := fun heq => hold _ (heq ▸ hname)
          have hvalue := ih value (List.mem_cons_of_mem _ List.mem_cons_self) hvalue
          have hkey := ih _ List.mem_cons_self (.ident (by simp) hname hascription)
          rw [Node.substitute_binding optional keySpan ascription' hkept] at hkey
          have hsame : (Node.mk .keyValuePat .generated [.mk (.propName used) keySpan [],
                if value.isAbsent then .mk (.ident .bind renamed optional) keySpan ascription'
                else .mk .assignPat span [.mk (.ident .bind renamed optional) keySpan ascription',
                  value']]).substitute old new =
              .mk .keyValuePat .generated [.mk (.propName used) keySpan [],
                if value.isAbsent then .mk (.ident .bind renamed optional) keySpan
                  (substituteIn old new ascription')
                else .mk .assignPat span [.mk (.ident .bind renamed optional) keySpan
                  (substituteIn old new ascription'), value'.substitute old new]] := by
            cases value.isAbsent with
            | true => simp [Node.substitute, substituteIn, Node.scopeNames, Node.headNames, hkept]
            | false => simp [Node.substitute, substituteIn, Node.scopeNames, Node.headNames, hkept]
          obtain ⟨_, _, heq, -, hascription⟩ := hkey.of_ident (by simp)
          cases heq
          rw [hsame]
          exact .pattern hname hascription hvalue

theorem Node.RenamedTo.rename {old new : String} (hnew : old = new ∨ names old new)
    (hold : ∀ name, ¬ names name old) (h : a.RenamedTo names b) :
    a.RenamedTo names (b.rename old new) := by
  unfold Node.rename
  split
  · exact h
  · next hne => exact h.substitute (hnew.resolve_left hne) hold

theorem forall₂_renamedTo_rename {old new : String} (hnew : old = new ∨ names old new)
    (hold : ∀ name, ¬ names name old) (h : List.Forall₂ (Node.RenamedTo names) nodes others) :
    List.Forall₂ (Node.RenamedTo names) nodes (others.map (·.rename old new)) :=
  forall₂_renamedTo_map h fun _ _ _ hrenamed => hrenamed.rename hnew hold

theorem Node.RenamedTo.renameAll {renamings : List (String × String)}
    (hnew : ∀ pair ∈ renamings, pair.1 = pair.2 ∨ names pair.1 pair.2)
    (hold : ∀ pair ∈ renamings, ∀ name, ¬ names name pair.1) (h : a.RenamedTo names b) :
    a.RenamedTo names (renameAll renamings b) := by
  induction renamings generalizing b with
  | nil => exact h
  | cons first renamings ih =>
      rw [List.forall_mem_cons] at hnew hold
      exact ih hnew.2 hold.2 (h.rename hnew.1 hold.1)

/-- A renamed tree is a block-scoped loop if the tree is one. -/
theorem Node.RenamedTo.isCandidate (h : a.RenamedTo names b) : b.isCandidate = a.isCandidate := by
  induction a using Node.inductionOn generalizing b with
  | step form span parts ih =>
      cases h with
      | @node _ _ _ parts' _ hparts =>
          by_cases hlabel : ∃ label, form = .labeled label
          · obtain ⟨label, rfl⟩ := hlabel
            cases hparts with
            | nil => rfl
            | cons hbody hrest =>
                cases hrest with
                | nil =>
                    rw [Node.isCandidate_labeled, Node.isCandidate_labeled]
                    exact ih _ List.mem_cons_self hbody
                | cons => rfl
          · have hplain : ∀ parts, (Node.mk form span parts).isCandidate =
              (Node.mk form span parts).isBlockLoop :=
              fun parts => Bool.eq_iff_iff.mpr
                ⟨Node.isBlockLoop_of_isCandidate fun label heq => hlabel ⟨label, heq⟩,
                  Node.isCandidate_of_isBlockLoop⟩
            rw [hplain, hplain]
            exact Node.isBlockLoop_congr (hparts.imp fun _ _ hpart => hpart.isLexicalDecl)
      | _ => rfl

/-! ### Flattened trees -/

/-- A declarator in which names may be new, and which has the initialiser `void 0` now if it had
none. -/
inductive Node.ResetTo (names : String → String → Prop) : Node → Node → Prop
  | kept {declarator declarator' : Node} (h : declarator.RenamedTo names declarator') :
      ResetTo names declarator declarator'
  | reset {definite : Bool} {span : Span} {pattern pattern' init : Node}
      (hpattern : pattern.RenamedTo names pattern') (hinit : init.isAbsent = true) :
      ResetTo names (.declarator definite span pattern init)
        (.declarator definite span pattern' (.undefined span))

/-- A tree that differs in names only or in which, outside closures and block-scoped loops, `let`
and `const` have become `var`, those declared by `let` reset. -/
inductive Node.FlattenedTo (names : String → String → Prop) : Node → Node → Prop
  | renamed {node node' : Node} (h : node.RenamedTo names node') : FlattenedTo names node node'
  | node {form : Form} {span : Span} {parts parts' : List Node} (hclosure : form.isClosure = false)
      (hloop : (Node.mk form span parts).isCandidate = false)
      (hparts : List.Forall₂ (Node.FlattenedTo names) parts parts') :
      FlattenedTo names (.mk form span parts) (.mk form span parts')
  | turned {constant declare : Bool} {span : Span} {ds ds' : List Node}
      (hds : List.Forall₂ (Node.RenamedTo names) ds ds') :
      FlattenedTo names (.varDecl (.lexical constant) declare span ds)
        (.varDecl .var declare span ds')
  | reset {declare : Bool} {span : Span} {ds ds' : List Node}
      (hds : List.Forall₂ (Node.ResetTo names) ds ds') :
      FlattenedTo names (.varDecl (.lexical false) declare span ds) (.varDecl .var declare span ds')

/-- A loop that stays where it is.  Its head is by `var` now, its body flattened, and the statements
that label it may have another span. -/
inductive Node.KeptInPlace (names : String → String → Prop) : Node → Node → Prop
  | labeled {label : Name} {span span' : Span} {stmt stmt' : Node}
    (h : KeptInPlace names stmt stmt') :
      KeptInPlace names (.labeled label span stmt) (.labeled label span' stmt')
  | loop {form : Form} {span declSpan : Span} {constant declare : Bool}
    {ds ds' exprs exprs' : List Node}
      {body body' : Node} (hds : List.Forall₂ (Node.RenamedTo names) ds ds')
      (hexprs : List.Forall₂ (Node.RenamedTo names) exprs exprs')
      (hbody : body.FlattenedTo names body') :
      KeptInPlace names (.mk form span
        (.varDecl (.lexical constant) declare declSpan ds :: (exprs ++ [body])))
        (.mk form span (.varDecl .var declare declSpan ds' :: (exprs' ++ [body'])))

/-- An uninitialised declarator is reset. -/
theorem Node.RenamedTo.resetInit (h : a.RenamedTo names b) : a.ResetTo names b.resetInit := by
  unfold Node.resetInit
  split
  · next definite span pattern init =>
    cases hinit : init.isAbsent with
    | false => exact .kept h
    | true =>
        cases h with
        | node _ hparts =>
            cases hparts with
            | cons hpattern hrest =>
                cases hrest with
                | cons hlast hnone =>
                    cases hnone
                    exact .reset hpattern (hlast.isAbsent.symm.trans hinit)
  · exact .kept h

/-- A `let` or `const` statement is turned into a `var`. -/
theorem Node.RenamedTo.flattenDecl (h : a.RenamedTo names b) (hlexical : b.isLexicalDecl = true)
    (reset : Bool) :
    a.FlattenedTo names (b.flattenDecl reset) := by
  obtain ⟨constant, declare, span, ds, rfl⟩ := Node.isLexicalDecl_iff.mp hlexical
  cases h with
  | node _ hds =>
      rw [Node.flattenDecl]
      split
      · next hreset =>
        obtain rfl : constant = false := by simpa using (Bool.and_eq_true_iff.mp hreset).2
        exact .reset (List.forall₂_map_right_iff.mpr (hds.imp fun _ _ hd => hd.resetInit))
      · exact .turned hds

end

/-! ### The names that are drawn -/

/-- Between two registries only renamings are recorded that the relation tells. -/
def Registry.Records (renamed : String → String → Prop) (names names' : Registry) : Prop :=
  ∃ more, names'.renamings = names.renamings ++ more ∧ ∀ pair ∈ more, renamed pair.1 pair.2

/-- Drawing names records renamings, to names that are new. -/
theorem Registry.Draws.exists_renamings {names names' : Registry} {drawn : List String}
    (h : names.Draws drawn names') :
    ∃ more, names'.renamings = names.renamings ++ more ∧ ∀ pair ∈ more, pair.2 ∉ names.taken := by
  induction h with
  | done => exact ⟨[], (List.append_nil _).symm, fun _ hmem => absurd hmem List.not_mem_nil⟩
  | @fresh names names' drawn base _ ih =>
      obtain ⟨more, heq, hnew⟩ := ih
      have hsame : (names.fresh base).2.renamings = names.renamings := by
        unfold Registry.fresh
        split
        · rfl
        · rfl
      refine ⟨more, heq.trans (by rw [hsame]), fun pair hmem htaken => hnew pair hmem ?_⟩
      exact Registry.taken_fresh names base ▸ List.mem_cons_of_mem _ htaken
  | @freshSuffixed names names' drawn base _ ih =>
      obtain ⟨more, heq, hnew⟩ := ih
      exact ⟨more, heq, fun pair hmem htaken => hnew pair hmem (List.mem_cons_of_mem _ htaken)⟩
  | @rename names names' drawn name _ ih =>
      obtain ⟨more, heq, hnew⟩ := ih
      refine ⟨(name, (names.rename name).1) :: more, heq.trans (List.append_assoc _ _ _), ?_⟩
      refine List.forall_mem_cons.mpr ⟨names.rename_notMem name, fun pair hmem htaken =>
        hnew pair hmem ?_⟩
      exact Registry.taken_rename names name ▸ List.mem_cons_of_mem _ htaken

section

variable {renamed : String → String → Prop} {names between names' : Registry}

/-- What is recorded in two steps is recorded in each of them. -/
theorem Registry.Records.split {drawn drawn' : List String} (hfirst : names.Draws drawn between)
    (hrest : between.Draws drawn' names') (h : names.Records renamed names') :
    names.Records renamed between ∧ between.Records renamed names' := by
  obtain ⟨more, heq, hmore⟩ := h
  obtain ⟨before, hbefore, -⟩ := hfirst.exists_renamings
  obtain ⟨after, hafter, -⟩ := hrest.exists_renamings
  obtain rfl : more = before ++ after := by
    rw [heq, hbefore, List.append_assoc] at hafter
    exact List.append_cancel_left hafter
  rw [List.forall_mem_append] at hmore
  exact ⟨⟨before, hbefore, hmore.1⟩, ⟨after, hafter, hmore.2⟩⟩

theorem Naming.records_bind {α β : Type} {x : Naming α} {f : α → Naming β} (hx : x.Draws)
    (hf : ∀ a, (f a).Draws) (h : names.Records renamed ((x >>= f).run names).2) :
    names.Records renamed (x.run names).2 ∧
      (x.run names).2.Records renamed ((f (x.run names).1).run (x.run names).2).2 := by
  obtain ⟨_, hfirst⟩ := hx names
  obtain ⟨_, hrest⟩ := hf (x.run names).1 (x.run names).2
  exact Registry.Records.split hfirst hrest h

/-- A renaming that is drawn is told. -/
theorem Registry.Records.rename {name : String} (h : names.Records renamed (names.rename name).2) :
    renamed name (names.rename name).1 := by
  obtain ⟨more, heq, hmore⟩ := h
  have hsame : names.renamings ++ [(name, (names.rename name).1)] = names.renamings ++ more := heq
  have hmem : (name, (names.rename name).1) ∈ more := List.append_cancel_left hsame ▸
      List.mem_singleton_self _
  exact hmore _ hmem

end

/-! ### Flattening a body -/

/-- Nothing is renamed to a name that a block declares by `let` or `const`. -/
def SparedIn (renamed : String → String → Prop)
    (declared : List (List (VarKind × String))) : Prop :=
  ∀ block ∈ declared, ∀ name ∈ letsOf block, ∀ old, ¬ renamed old name

section

variable {renamed : String → String → Prop} {clashes : String → Bool} {names : Registry}

theorem SparedIn.of_outline {declared others : List (List (VarKind × String))}
    (h : SparedIn renamed declared)
    (houtline : others.map (List.map outline) = declared.map (List.map outline)) :
    SparedIn renamed others := by
  intro block hmem
  have himage : block.map outline ∈ declared.map (List.map outline) :=
    houtline ▸ List.mem_map_of_mem hmem
  obtain ⟨original, horiginal, heq⟩ := List.mem_map.mp himage
  rw [letsOf_congr heq.symm]
  exact h original horiginal

theorem SparedIn.part {parts : List Node} {part : Node}
    (h : SparedIn renamed (blockDeclaresIn parts))
    (hmem : part ∈ parts) : SparedIn renamed part.blockDeclares := by
  rw [blockDeclaresIn_eq_flatMap] at h
  exact fun block hblock => h block (List.mem_flatMap.mpr ⟨part, hmem, hblock⟩)

/-- Renaming the clashing names of a statement list renames no identifier twice. -/
theorem renamedTo_renameClashing {vars : List String} {stmts others : List Node}
    (hvars : ∀ name ∈ vars, ∀ old, ¬ renamed old name)
    (hrecords : names.Records renamed ((renameClashing clashes vars others).run names).2)
    (h : List.Forall₂ (Node.RenamedTo renamed) stmts others) :
    List.Forall₂ (Node.RenamedTo renamed) stmts
      ((renameClashing clashes vars others).run names).1 := by
  induction vars generalizing others names with
  | nil => exact h
  | cons name vars ih =>
      rw [List.forall_mem_cons] at hvars
      unfold renameClashing at hrecords ⊢
      split
      · next hclash =>
        rw [if_pos hclash] at hrecords
        obtain ⟨hfirst, hrest⟩ := Naming.records_bind (Naming.draws_rename name)
          (fun _ => draws_renameClashing clashes vars _) hrecords
        exact ih hvars.2 hrest (forall₂_renamedTo_rename (Or.inr hfirst.rename) hvars.1 h)
      · next hclash =>
        rw [if_neg hclash] at hrecords
        exact ih hvars.2 hrecords h

section

variable {change : Bool → List Node → Naming (List Node)} {again : Bool}

/-- What changing blocks does to each tree of a list it does while renamings are recorded for the
trees before and after it. -/
theorem forall₂_changeBlocksIn_of_records {before after : Node → Node → Prop}
    {nodes others : List Node} (hdraws : ∀ again stmts, (change again stmts).Draws)
    (hstep : ∀ node other names, before node other →
      Registry.Records renamed names ((other.changeBlocks change again).run names).2 →
        after node ((other.changeBlocks change again).run names).1)
    (hrecords : names.Records renamed ((changeBlocksIn change again others).run names).2)
    (h : List.Forall₂ before nodes others) :
    List.Forall₂ after nodes ((changeBlocksIn change again others).run names).1 := by
  induction h generalizing names with
  | nil => exact .nil
  | @cons node other nodes others hfirst _ ih =>
      obtain ⟨hrecord, hrest⟩ := Naming.records_bind (other.draws_changeBlocks hdraws again)
        (fun _ => (draws_changeBlocksIn fun node _ => node.draws_changeBlocks hdraws again).bind
          fun _ => Naming.draws_pure _) hrecords
      obtain ⟨hrest, -⟩ := Naming.records_bind
        (draws_changeBlocksIn fun node _ => node.draws_changeBlocks hdraws again)
        (fun _ => Naming.draws_pure _) hrest
      exact .cons (hstep node other names hfirst hrecord) (ih hrest)

theorem Node.changeBlocks_block (change : Bool → List Node → Naming (List Node))
    (again : Bool) (span : Span) (stmts : List Node) :
    (Node.block span stmts).changeBlocks change again =
      do return .mk .block span (← change again stmts) := rfl

theorem Node.changeBlocks_of_plain {form : Form} {span : Span} {parts : List Node}
    (hclosure : form.isClosure = false) (hloop : (Node.mk form span parts).isCandidate = false)
    (hblock : form ≠ .block) : (Node.mk form span parts).changeBlocks change again =
      do return .mk form span (← changeBlocksIn change (again || form.isLoop) parts) := by
  unfold Node.changeBlocks
  rw [hclosure, hloop, Bool.or_self, if_neg Bool.false_ne_true]
  split
  · exact absurd rfl hblock
  · rfl

/-- Flattening the blocks of a tree that was renamed. -/
theorem Node.RenamedTo.changeBlocks (hdraws : ∀ again stmts, (change again stmts).Draws)
    (hchange : ∀ again stmts others names, (∀ other ∈ others, other.isWellFormed = true) →
      SparedIn renamed (stmtsDeclare others) →
      Registry.Records renamed names ((change again others).run names).2 →
      List.Forall₂ (Node.RenamedTo renamed) stmts others →
        List.Forall₂ (Node.FlattenedTo renamed) stmts ((change again others).run names).1)
    {a b : Node} (hwf : b.isWellFormed = true) (hspared : SparedIn renamed b.blockDeclares)
    (hrecords : names.Records renamed ((b.changeBlocks change again).run names).2)
    (h : a.RenamedTo renamed b) :
    a.FlattenedTo renamed ((b.changeBlocks change again).run names).1 := by
  induction a using Node.inductionOn generalizing b names again with
  | step form span parts ih =>
      cases hquiet : b.isQuiet with
      | true =>
          rw [Node.changeBlocks_of_isQuiet hwf hquiet]
          exact .renamed h
      | false =>
          cases h with
          | ident =>
              rw [Node.isQuiet_ident] at hquiet
              cases hquiet
          | short | key | pattern => cases hquiet
          | @node _ _ _ parts' hform hparts =>
              have hsame : (Node.mk form span parts).RenamedTo renamed (.mk form span parts') :=
                .node hform hparts
              have hwfParts : ∀ part ∈ parts', part.isWellFormed = true :=
                fun part hmem => Node.isWellFormed_part hwf hmem
              by_cases hstop : form.isClosure = true ∨ (Node.mk form span parts').isCandidate = true
              · have hkept : ((Node.mk form span parts').changeBlocks change again).run names =
                    (.mk form span parts', names) := by
                  unfold Node.changeBlocks
                  rw [if_pos (by simpa using hstop)]
                  rfl
                rw [hkept]
                exact .renamed hsame
              rw [not_or, Bool.not_eq_true, Bool.not_eq_true] at hstop
              have hloop := hsame.isCandidate.symm.trans hstop.2
              by_cases hblock : form = .block
              · subst hblock
                rw [Node.changeBlocks_block] at hrecords ⊢
                rw [Node.blockDeclares_block] at hspared
                obtain ⟨hrecord, -⟩ := Naming.records_bind (hdraws again parts')
                    (fun _ => Naming.draws_pure _) hrecords
                exact .node hstop.1 hloop
                  (hchange again parts parts' names hwfParts hspared hrecord hparts)
              · rw [Node.changeBlocks_of_plain hstop.1 hstop.2 hblock] at hrecords ⊢
                rw [Node.blockDeclares_of_plain hstop.1
                  (Node.isBlockLoop_of_not_isCandidate hstop.2) hblock] at hspared
                obtain ⟨hrecord, -⟩ := Naming.records_bind
                  (draws_changeBlocksIn fun node _ => node.draws_changeBlocks hdraws _)
                  (fun _ => Naming.draws_pure _) hrecords
                refine .node hstop.1 hloop (forall₂_changeBlocksIn_of_records hdraws ?_ hrecord
                  (forall₂_with_mem hparts))
                rintro node other names ⟨hnode, hother, hrenamed⟩ hrecord
                exact ih node hnode (hwfParts other hother) (hspared.part hother) hrecord hrenamed

end

/-- Flattening a statement list that was renamed. -/
theorem flattenedTo_flattenTo (clashes : String → Bool) (depth : Nat) (again : Bool)
    (stmts others : List Node) (names : Registry)
    (hwf : ∀ other ∈ others, other.isWellFormed = true)
    (hspared : SparedIn renamed (stmtsDeclare others))
    (hrecords : names.Records renamed ((flattenTo clashes depth again others).run names).2)
    (h : List.Forall₂ (Node.RenamedTo renamed) stmts others) :
    List.Forall₂ (Node.FlattenedTo renamed) stmts
      ((flattenTo clashes depth again others).run names).1 := by
  induction depth generalizing again stmts others names with
  | zero => exact h.imp fun _ _ hrenamed => .renamed hrenamed
  | succ depth ih =>
      rw [stmtsDeclare, SparedIn, List.forall_mem_cons] at hspared
      obtain ⟨hown, hinside⟩ := hspared
      rw [← flatMap_blockScopedNames_eq_letsOf] at hown
      have hdraws := draws_flattenTo clashes depth
      rw [flattenTo] at hrecords ⊢
      obtain ⟨hfirst, hrest⟩ := Naming.records_bind (draws_renameClashing clashes _ others)
        (fun _ => draws_changeBlocksIn fun node _ => node.draws_changeBlocks hdraws again) hrecords
      have hrenamed := renamedTo_renameClashing hown hfirst h
      have hwfRenamed := Node.Fits.wellFormed_of_forall₂
        (forall₂_fits_renameClashing clashes (others.flatMap Node.blockScopedNames) hwf names)
      have hblocks := outline_renameClashing clashes
          (others.flatMap Node.blockScopedNames) hwf names
      rw [Naming.run_bind]
      generalize (renameClashing clashes (others.flatMap Node.blockScopedNames) others).run names =
        drawn at hrest hrenamed hwfRenamed hblocks ⊢
      obtain ⟨others', drawn⟩ := drawn
      have hspared : SparedIn renamed (blockDeclaresIn others') :=
        SparedIn.of_outline hinside hblocks
      have hstmts : List.Forall₂ (fun stmt other => ∃ renamedStmt ∈ others',
          other = renamedStmt.flattenDecl again ∧ stmt.RenamedTo renamed renamedStmt) stmts
          (others'.map (·.flattenDecl again)) :=
        List.forall₂_map_right_iff.mpr
          ((forall₂_with_mem hrenamed).imp fun _ other hboth => ⟨other, hboth.2.1, rfl, hboth.2.2⟩)
      refine forall₂_changeBlocksIn_of_records hdraws ?_ hrest hstmts
      rintro stmt _ names ⟨other, hother, rfl, hrenamed⟩ hrecord
      have hwfOther := hwfRenamed other hother
      cases hlexical : other.isLexicalDecl with
      | true =>
          have hquiet : (other.flattenDecl again).isQuiet = true := by
            obtain ⟨constant, declare, span, ds, rfl⟩ := Node.isLexicalDecl_iff.mp hlexical
            rfl
          rw [Node.changeBlocks_of_isQuiet (Node.Fits.flattenDecl again hwfOther).wellFormed hquiet]
          exact hrenamed.flattenDecl hlexical again
      | false =>
          rw [Node.flattenDecl_of_not_lexical hlexical] at hrecord ⊢
          exact hrenamed.changeBlocks hdraws ih hwfOther (hspared.part hother) hrecord

end

section

variable {renamed : String → String → Prop} {names names' : Registry} {body body' : Node}

/-- Nothing is renamed to a name that is known, so to none that a block declares. -/
theorem Node.Known.sparedIn (h : body.Known names)
    (hspared : ∀ name ∈ names.taken, ∀ old, ¬ renamed old name) :
    SparedIn renamed body.blockDeclares := by
  intro declared hmem name hname
  obtain ⟨stmts, hblock, rfl⟩ := Node.exists_hasBlock hmem
  rw [← flatMap_blockScopedNames_eq_letsOf] at hname
  obtain ⟨stmt, hstmt, hname⟩ := List.mem_flatMap.mp hname
  exact hspared name (hblock.known h stmt hstmt _ (stmt.blockScopedNames_subset hname))

/-- A body that stays in place is flattened after the variables of the loop are renamed in it. -/
theorem Node.flattenedTo_flatten {clashes : String → Bool} {renamings : List (String × String)}
    (hwf : body.isWellFormed = true) (hspared : SparedIn renamed body.blockDeclares)
    (hnew : ∀ pair ∈ renamings, pair.1 = pair.2 ∨ renamed pair.1 pair.2)
    (hold : ∀ pair ∈ renamings, ∀ name, ¬ renamed name pair.1)
    (hrecords : names.Records renamed names')
    (hflatten : ((renameAll renamings body).flatten clashes).run names = (body', names')) :
    body.FlattenedTo renamed body' := by
  have hdraws := draws_flattenTo clashes (renameAll renamings body).blockDepth
  have hrenamed := (Node.RenamedTo.refl renamed hwf).renameAll hnew hold
  have horiginal := hspared.of_outline (Node.outline_blockDeclares_renameAll renamings hwf)
  rw [Node.flatten] at hflatten
  have hbody : body' = ((renameAll renamings body).changeBlocks (flattenTo clashes _)
      true |>.run names).1 :=
    congrArg Prod.fst hflatten.symm
  rw [hbody]
  exact hrenamed.changeBlocks hdraws (flattenedTo_flattenTo clashes _)
    (Node.Stands.renameAll renamings hwf).wellFormed horiginal (by rwa [hflatten])

end

/-! ### A loop that stays in place -/

/-- A loop in whose head some identifiers have new names. -/
structure Loop.HeadRenamedTo (renamed : String → String → Prop) (loop loop' : Loop) : Prop where
  labels : loop'.labels = loop.labels
  span : loop'.span = loop.span
  declare : loop'.decl.declare = loop.decl.declare
  declSpan : loop'.decl.span = loop.decl.span
  form : loop'.head.form = loop.head.form
  body : loop'.body = loop.body
  declarators : List.Forall₂ (Node.RenamedTo renamed) loop.decl.declarators loop'.decl.declarators
  exprs : List.Forall₂ (Node.RenamedTo renamed) loop.head.exprs loop'.head.exprs

section

variable {renamed : String → String → Prop} {names names' : Registry} {loop loop' : Loop}

theorem Loop.HeadRenamedTo.refl (h : loop.WellFormed) : loop.HeadRenamedTo renamed loop :=
  ⟨rfl, rfl, rfl, rfl, rfl, rfl, forall₂_renamedTo_refl renamed fun _ hmem =>
    Node.isWellFormed_part h.decl hmem, forall₂_renamedTo_refl renamed fun expr hmem =>
      (h.exprs expr hmem).2⟩

theorem Loop.HeadRenamedTo.renameHead {old new : String} (h : loop.HeadRenamedTo renamed loop')
    (hnew : renamed old new) (hold : ∀ name, ¬ renamed name old) :
    loop.HeadRenamedTo renamed (loop'.renameHead old new) := by
  refine ⟨h.labels, h.span, h.declare, h.declSpan, ?_, h.body,
    forall₂_renamedTo_rename (Or.inr hnew) hold h.declarators, ?_⟩
  · rw [← h.form]
    simp only [Loop.renameHead]
    cases loop'.head <;> rfl
  · rw [Loop.renameHead, LoopHead.exprs_map]
    exact forall₂_renamedTo_rename (Or.inr hnew) hold h.exprs

/-- The variables of a loop are renamed in its head. -/
theorem Loop.HeadRenamedTo.renameMentioned (mentioned : String → Bool) {vars : List String}
    (hvars : ∀ name ∈ vars, ∀ old, ¬ renamed old name)
    (hrecords : names.Records renamed ((loop'.renameMentioned mentioned vars).run names).2)
    (h : loop.HeadRenamedTo renamed loop') :
    let result := ((loop'.renameMentioned mentioned vars).run names).1
    loop.HeadRenamedTo renamed result.2 ∧
      List.Forall₂ (fun name outer => name = outer ∨ renamed name outer) vars result.1 := by
  induction vars generalizing loop' names with
  | nil => exact ⟨h, .nil⟩
  | cons name vars ih =>
      rw [List.forall_mem_cons] at hvars
      have hpure : ∀ result : List String × Loop,
          (pure result : Naming (List String × Loop)).Draws :=
        Naming.draws_pure
      unfold Loop.renameMentioned at hrecords ⊢
      by_cases hmention : mentioned name = true
      · rw [if_pos hmention] at hrecords ⊢
        obtain ⟨hfirst, hrest⟩ := Naming.records_bind (Naming.draws_rename name)
          (fun _ => (Loop.draws_renameMentioned mentioned vars _).bind fun _ => hpure _) hrecords
        obtain ⟨hrest, -⟩ := Naming.records_bind (Loop.draws_renameMentioned mentioned vars _)
          (fun _ => hpure _) hrest
        obtain ⟨hhead, houter⟩ := ih hvars.2 hrest (h.renameHead hfirst.rename hvars.1)
        exact ⟨hhead, .cons (Or.inr hfirst.rename) houter⟩
      · rw [if_neg hmention] at hrecords ⊢
        obtain ⟨hrest, -⟩ := Naming.records_bind (Loop.draws_renameMentioned mentioned vars loop')
          (fun _ => hpure _) hrecords
        obtain ⟨hhead, houter⟩ := ih hvars.2 hrest h
        exact ⟨hhead, .cons (Or.inl rfl) houter⟩

/-- A block-scoped loop is kept by what its loop, taken apart, becomes. -/
theorem Node.KeptInPlace.of_ofNode? {stmt : Node} (hloop : Loop.ofNode? stmt = some loop)
    (h : loop.HeadRenamedTo renamed loop') (hkind : loop'.decl.kind = .var)
    {body : Node} (hbody : loop.body.FlattenedTo renamed body) :
    stmt.KeptInPlace renamed { loop' with body }.toNode := by
  fun_induction Loop.ofNode? stmt generalizing loop loop' with
  | case1 label span stmt ih =>
      obtain ⟨inner, hinner, rfl⟩ := Option.map_eq_some_iff.mp hloop
      have hnode : Loop.toNode { loop' with body } =
          .labeled label loop'.span (Loop.toNode { loop' with labels := inner.labels, body }) := by
        simp only [Loop.toNode, h.labels, List.foldr_cons]
        rfl
      have hinside : inner.HeadRenamedTo renamed { loop' with labels := inner.labels } :=
        ⟨rfl, h.span, h.declare, h.declSpan, h.form, h.body, h.declarators, h.exprs⟩
      rw [hnode]
      exact .labeled (ih hinner hinside hkind hbody)
  | case2 | case3 | case4 =>
      cases hloop
      have hnode : Loop.toNode { loop' with body } =
          .mk loop'.head.form loop'.span (loop'.decl.toNode :: (loop'.head.exprs ++ [body])) := by
        rw [Loop.toNode, h.labels]
        exact Loop.toUnlabeled_eq _
      rw [hnode, h.form, h.span, Declaration.toNode, hkind, h.declare, h.declSpan]
      exact .loop h.declarators h.exprs hbody
  | case5 => cases hloop

/-- What a history records between two registries. -/
theorem Registry.history_of_renamings {more : List (String × String)}
    (h : names'.renamings = names.renamings ++ more) (name : String) :
    names'.history name = names.history name ++ (more.filter (·.1 == name)).map (·.2) := by
  rw [Registry.history, h, List.filter_append, List.map_append, Registry.history]

end

/-- What takes the place of a loop is the loop, in which the names have changed as the histories
tell that were added meanwhile. -/
def Node.StaysInPlace (stmt : Node) (names : Registry) (replacement : List Node)
    (names' : Registry) : Prop :=
  ∃ added : String → List String, (∀ name, names'.history name = names.history name ++ added name) ∧
    ∃ stmt', replacement = [stmt'] ∧ stmt.KeptInPlace (fun old new => new ∈ added old) stmt'

/-- A loop that is flattened is replaced by a single statement: the loop itself, but for
declaration kinds, resets, written-out shorthand, the spans of labels, and names recorded as
renamings of what they were.  The registry knows the names of the loop. -/
theorem Node.flattening_keeps_loop {stmt : Node} {mentioned : String → Bool} {options : Options}
    {names names' : Registry} {replacement : List Node} {report : Report}
    (hwf : stmt.isWellFormed = true) (hknown : stmt.Known names)
    (hlower : (stmt.lowerLoop mentioned options).Gives names (replacement, report) names')
    (houtcome : report.outcome = .flattened) : stmt.StaysInPlace names replacement names' := by
  obtain ⟨loop, hloop⟩ : ∃ loop, Loop.ofNode? stmt = some loop := by
    cases hloop : Loop.ofNode? stmt with
    | none => simp [Node.lowerLoop, hloop] at hlower
    | some loop => exact ⟨loop, rfl⟩
  have hloopWf := Loop.wellFormed_of_ofNode? hloop hwf
  have hloopKnown := Loop.known_of_ofNode? hloop hknown
  rw [Node.lowerLoop, hloop] at hlower
  obtain ⟨_, hdraws⟩ := Lowering.Draws.of_gives (loop.draws_lower mentioned options) hlower
  obtain ⟨more, hmore, hnew⟩ := hdraws.exists_renamings
  let added : String → List String := fun old => (more.filter (·.1 == old)).map (·.2)
  refine ⟨added, Registry.history_of_renamings hmore, ?_⟩
  have hrecords : names.Records (fun old new => new ∈ added old) names' :=
    ⟨more, hmore, fun pair hmem => List.mem_map_of_mem (List.mem_filter.mpr ⟨hmem, by simp⟩)⟩
  have hspared : ∀ name ∈ names.taken, ∀ old, name ∉ added old := by
    intro name htaken old hname
    obtain ⟨pair, hpair, rfl⟩ := List.mem_map.mp hname
    exact hnew pair (List.mem_of_mem_filter hpair) htaken
  obtain ⟨outer, loop', between, hrename, ⟨-, hextract⟩ | ⟨-, hflatten⟩⟩ := Loop.gives_lower hlower
  · obtain ⟨extraction, -, -, rfl⟩ := Loop.extractsTo_of_gives hextract
    cases houtcome
  obtain ⟨body, hbody, rfl, -⟩ := Loop.run_flattened hflatten
  obtain ⟨_, hfirst⟩ := Loop.draws_renameMentioned mentioned loop.decl.names loop names
  obtain ⟨_, hrest⟩ := Node.draws_flatten
    (fun name => bodyClash loop.capture loop.decl.names name ||
    mentioned name) (renameAll (loop.decl.names.zip outer) loop'.body) between
  rw [hrename] at hfirst
  rw [hbody] at hrest
  obtain ⟨hheadRecords, hbodyRecords⟩ := hrecords.split hfirst hrest
  have hdeclared : ∀ name ∈ loop.decl.names, ∀ old, name ∉ added old :=
    fun name hmem => hspared name (hloopKnown.declNames name hmem)
  have hresult := Loop.HeadRenamedTo.renameMentioned mentioned hdeclared (by rwa [hrename])
    (Loop.HeadRenamedTo.refl hloopWf)
  rw [hrename] at hresult
  obtain ⟨hhead, houter⟩ := hresult
  have hvar : loop.HeadRenamedTo (fun old new => new ∈ added old) loop'.withVarHead :=
    ⟨hhead.labels, hhead.span, hhead.declare, hhead.declSpan, hhead.form,
      hhead.body, hhead.declarators, hhead.exprs⟩
  refine ⟨_, rfl, .of_ofNode? hloop hvar rfl ?_⟩
  rw [hhead.body] at hbody
  refine Node.flattenedTo_flatten hloopWf.body.2 (hloopKnown.body.sparedIn hspared)
    (fun pair hmem => ?_) (fun pair hmem => hdeclared pair.1 (List.of_mem_zip hmem).1)
    hbodyRecords hbody
  exact (List.forall₂_iff_zip.mp houter).2 hmem

/-- The loop

    again: for (let counter of xs) {
      let first;
      { let second = property; stored = () => kept; }
      for (let k of first) stored = k;
    }

whose `let` may be another kind and whose `first` may start with a value. -/
def storingLoop (kind : VarKind) (counter first second : String)
    (start property : Node) : Loop where
  labels := [⟨"again", false, .generated⟩]
  span := .generated
  decl := ⟨kind, false, .generated,
    [.declarator false .generated (.binding counter false .generated .absent) .absent]⟩
  head := .values false (.use "xs" .generated)
  body := .block .generated
    [.varDecl kind false .generated
        [.declarator false .generated (.binding first false .generated .absent) start],
      .block .generated
        [.varDecl kind false .generated
            [.declarator false .generated (.binding second false .generated .absent) property],
          .exprStmt (.assignTo "stored" (.mk (.arrow false false) .generated
            [.list [], .use "kept" .generated, .absent]) .generated)],
      .mk (.forOfStmt false) .generated [letStmt "k" .absent, .use first .generated,
        .exprStmt (.assignTo "stored" (.use "k" .generated) .generated)]]

/-- The object `{ i }`. -/
def shorthandObject : Node := .mk .object .generated [.mk (.ident .short "i" false) .generated []]

/-- The names of the loop. -/
def storingNames : Registry := ⟨["again", "i", "xs", "x", "k", "stored", "kept"], []⟩

/-- All that may change does: declarations are turned and reset, names are drawn, a shorthand is
written out.  The closure and the nested loop stay. -/
theorem storingLoop_kept : ∃ report names',
    ((storingLoop (.lexical false) "i" "x" "x" .absent shorthandObject).toNode.lowerLoop
      (· == "i") {}).Gives
        storingNames ([(storingLoop .var "i$1" "x$1" "x$2" (.undefined .generated)
          (.objectOf "i" (.use "i$1" .generated) .generated)).toNode], report) names' ∧
      names'.history "i" = ["i$1"] ∧ names'.history "x" = ["x$1", "x$2"] ∧
      (storingLoop (.lexical false) "i" "x" "x" .absent shorthandObject).toNode.StaysInPlace
        storingNames [(storingLoop .var "i$1" "x$1" "x$2" (.undefined .generated)
          (.objectOf "i" (.use "i$1" .generated) .generated)).toNode] names' := by
  obtain ⟨report, names', hlower, houtcome, hcounter, hstored⟩ : ∃ report names',
      ((storingLoop (.lexical false) "i" "x" "x" .absent shorthandObject).toNode.lowerLoop
        (· == "i") {}).Gives
          storingNames ([(storingLoop .var "i$1" "x$1" "x$2" (.undefined .generated)
            (.objectOf "i" (.use "i$1" .generated) .generated)).toNode], report) names' ∧
        report.outcome = .flattened ∧ names'.history "i" = ["i$1"] ∧
        names'.history "x" = ["x$1", "x$2"] :=
    ⟨_, _, rfl, rfl, rfl, rfl⟩
  exact ⟨report, names', hlower, hcounter, hstored,
    Node.flattening_keeps_loop (by decide +kernel) (by unfold Node.Known; decide +kernel)
      hlower houtcome⟩

/-- The declarators of a loop that stays in place are renamed. -/
theorem Node.KeptInPlace.declarators {renamed : String → String → Prop} {form : Form} {span : Span}
    {head stmt : Node} {rest : List Node} (hform : ∀ label, form ≠ .labeled label)
    (h : (Node.mk form span (head :: rest)).KeptInPlace renamed stmt) :
    ∃ head' rest', stmt = .mk form span (head' :: rest') ∧
      List.Forall₂ (Node.RenamedTo renamed) head.parts head'.parts := by
  cases h with
  | labeled => exact absurd rfl (hform _)
  | loop hds => exact ⟨_, _, rfl, hds⟩

/-- The loop `for (let first, second; first; ) { }`. -/
def pairLoop (kind : VarKind) (first second : String) : Node :=
  .forStmt .generated
    (.varDecl kind false .generated
      [.declarator false .generated (.binding first false .generated .absent) .absent,
        .declarator false .generated (.binding second false .generated .absent) .absent])
    (.use first .generated) .absent (.block .generated [])

/-- A registry that does not know the names of a loop may draw for one variable the name that the
next one has; renaming the next one renames both, which no history tells. -/
theorem pairLoop_renamed_twice : ∃ report names',
    (pairLoop (.lexical false) "a" "a$1").isWellFormed = true ∧
      ((pairLoop (.lexical false) "a" "a$1").lowerLoop (fun _ => true) {}).Gives .empty
        ([pairLoop .var "a$1$1" "a$1$1"], report) names' ∧
      report.outcome = .flattened ∧ names'.history "a" = ["a$1"] ∧
      ¬ (pairLoop (.lexical false) "a" "a$1").StaysInPlace .empty
        [pairLoop .var "a$1$1" "a$1$1"] names' := by
  obtain ⟨report, names', hlower, houtcome, hhistory⟩ : ∃ report names',
      ((pairLoop (.lexical false) "a" "a$1").lowerLoop (fun _ => true) {}).Gives .empty
          ([pairLoop .var "a$1$1" "a$1$1"], report) names' ∧
        report.outcome = .flattened ∧ names'.history "a" = ["a$1"] := ⟨_, _, rfl, rfl, rfl⟩
  refine ⟨report, names', by decide +kernel, hlower, houtcome, hhistory, ?_⟩
  rintro ⟨added, hadded, stmt', heq, hkept⟩
  obtain rfl := List.singleton_inj.mp heq
  obtain ⟨_, _, heq, hdeclarators⟩ := hkept.declarators (by simp)
  cases heq
  obtain ⟨hfirst, -⟩ := List.forall₂_cons.mp hdeclarators
  cases hfirst with
  | node _ hparts =>
      obtain ⟨hpattern, -⟩ := List.forall₂_cons.mp hparts
      obtain ⟨_, _, heq, hname, -⟩ := hpattern.of_ident (by simp)
      cases heq
      have hdrawn : added "a" = ["a$1"] := (hadded "a").symm.trans hhistory
      simp [hdrawn] at hname

end LoopLowering
