/-
What the blocks of a loop body declare, and what becomes of it.

Flattening makes variables of one function out of what the blocks of a body declare.  Which names
they get can be told from the declarations alone, in the order in which they stand in the tree: a
name that clashes is replaced by a new one, any other stays (`settleNames`).  A clashing name is
renamed in everything under its block, but a block further in that declares it as well keeps it
until its own turn, so what is still to be settled is not touched by what was (`Redeclares`).

The other things that are done to a body leave its declarations alone, but for hoisting, which
takes those by `var` out.
-/
import LoopLowering.Proofs.Hygiene

namespace LoopLowering

/-! ### Declarations -/

/-- The names a `var`, `let` or `const` statement declares, each with the kind of the statement. -/
def Node.declares : Node → List (VarKind × String)
  | .mk (.varDecl kind _) _ declarators => (bindingNamesOf declarators).map (kind, ·)
  | _ => []

mutual

/-- What the statements of each block in a tree declare, the outermost block first.  Closures and
block-scoped loops are left out. -/
def Node.blockDeclares : Node → List (List (VarKind × String))
  | .mk form span parts =>
    if form.isClosure || (Node.mk form span parts).isBlockLoop then []
    else if form = .block then parts.flatMap Node.declares :: blockDeclaresIn parts
    else blockDeclaresIn parts

/-- What the statements of each block in a list of trees declare. -/
def blockDeclaresIn : List Node → List (List (VarKind × String))
  | [] => []
  | node :: nodes => node.blockDeclares ++ blockDeclaresIn nodes

end

/-- What a statement list declares, and then what the blocks in it do. -/
def stmtsDeclare (stmts : List Node) : List (List (VarKind × String)) :=
  stmts.flatMap Node.declares :: blockDeclaresIn stmts

/-- The names that are declared by `let` or `const`. -/
def letsOf (declared : List (VarKind × String)) : List String :=
  (declared.filter (·.1.isBlockScoped)).map (·.2)

theorem blockDeclaresIn_eq_flatMap (nodes : List Node) :
    blockDeclaresIn nodes = nodes.flatMap Node.blockDeclares := by
  induction nodes with
  | nil => rfl
  | cons node nodes ih => rw [blockDeclaresIn, ih, List.flatMap_cons]

theorem letsOf_append (declared more : List (VarKind × String)) :
    letsOf (declared ++ more) = letsOf declared ++ letsOf more := by
  rw [letsOf, List.filter_append, List.map_append, letsOf, letsOf]

theorem letsOf_flatMap (read : Node → List (VarKind × String)) (stmts : List Node) :
    letsOf (stmts.flatMap read) = stmts.flatMap fun stmt => letsOf (read stmt) := by
  induction stmts with
  | nil => rfl
  | cons stmt stmts ih => rw [List.flatMap_cons, letsOf_append, ih, List.flatMap_cons]

theorem letsOf_map (f : String → String) (declared : List (VarKind × String)) :
    letsOf (declared.map (Prod.map id f)) = (letsOf declared).map f := by
  simp only [letsOf, List.filter_map, List.map_map]
  rfl

theorem Node.declares_eq_nil (node : Node) (h : ∀ kind declare, node.form ≠ .varDecl kind declare) :
    node.declares = [] := by
  unfold Node.declares
  split
  · exact absurd rfl (h _ _)
  · rfl

theorem Node.blockScopedNames_eq_letsOf (node : Node) :
    node.blockScopedNames = letsOf node.declares := by
  by_cases h : ∃ kind declare, node.form = .varDecl kind declare
  · obtain ⟨kind, declare, h⟩ := h
    obtain ⟨form, span, declarators⟩ := node
    obtain rfl : form = .varDecl kind declare := h
    cases kind with
    | var => simp [Node.blockScopedNames, Node.declares, letsOf, List.filter_map, Function.comp_def,
        VarKind.isBlockScoped]
    | lexical constant => simp [Node.blockScopedNames, Node.declares, letsOf, List.filter_map,
        Function.comp_def, VarKind.isBlockScoped]
  · rw [Node.declares_eq_nil _ fun kind declare e => h ⟨kind, declare, e⟩]
    refine Node.blockScopedNames_eq_nil ?_
    by_contra hlexical
    obtain ⟨_, _, _, _, rfl⟩ := Node.isLexicalDecl_iff.mp (Bool.not_eq_false _ ▸ hlexical)
    exact h ⟨_, _, rfl⟩

theorem flatMap_blockScopedNames_eq_letsOf (stmts : List Node) :
    stmts.flatMap Node.blockScopedNames = letsOf (stmts.flatMap Node.declares) := by
  rw [letsOf_flatMap]
  exact List.flatMap_congr fun stmt _ => stmt.blockScopedNames_eq_letsOf

section

variable {form : Form} {span : Span} {parts : List Node} {node : Node}

theorem Node.blockDeclares_of_isClosure (h : form.isClosure = true) :
    (Node.mk form span parts).blockDeclares = [] := by
  rw [Node.blockDeclares, h, Bool.true_or, if_pos rfl]

theorem Node.blockDeclares_block :
    (Node.block span parts).blockDeclares = stmtsDeclare parts := by
  rw [Node.blockDeclares]
  rfl

theorem Node.blockDeclares_of_plain (hclosure : form.isClosure = false)
    (hloop : (Node.mk form span parts).isBlockLoop = false) (hblock : form ≠ .block) :
    (Node.mk form span parts).blockDeclares = blockDeclaresIn parts := by
  rw [Node.blockDeclares, hclosure, hloop, Bool.or_self, if_neg Bool.false_ne_true, if_neg hblock]

/-- A node has no blocks if its parts have none, unless it is a block itself. -/
theorem Node.blockDeclares_eq_nil (hblock : form ≠ .block)
    (hparts : form.isClosure = false → ∀ part ∈ parts, part.blockDeclares = []) :
    (Node.mk form span parts).blockDeclares = [] := by
  rw [Node.blockDeclares, if_neg hblock]
  split
  · rfl
  · next hopen =>
    have hclosure : form.isClosure = false := by simp_all
    rw [blockDeclaresIn_eq_flatMap, List.flatMap_eq_nil_iff]
    exact hparts hclosure

/-- A block-scoped loop is left out under its labels as well. -/
theorem Node.blockDeclares_of_isCandidate (h : node.isCandidate = true) :
    node.blockDeclares = [] := by
  induction node using Node.inductionOn with
  | step form span parts ih =>
      rcases Node.isCandidate_cases h with hloop | ⟨label, labelSpan, body, heq, hbody⟩
      · rw [Node.blockDeclares, hloop, Bool.or_true, if_pos rfl]
      · cases heq
        refine Node.blockDeclares_eq_nil (by simp) fun _ => ?_
        exact List.forall_mem_singleton.mpr (ih body List.mem_cons_self hbody)

theorem Node.blockDeclares_of_isQuiet (hwf : node.isWellFormed = true)
    (hquiet : node.isQuiet = true) :
    node.blockDeclares = [] := by
  induction node using Node.inductionOn with
  | step form span parts ih =>
      refine Node.blockDeclares_eq_nil (fun e => ?_) fun hclosure part hmem => ?_
      · subst e
        cases hquiet
      · exact ih part hmem (Node.isWellFormed_part hwf hmem)
          (Node.isQuiet_part hwf hquiet hclosure hmem)

end

theorem Node.isQuiet_ident (role : Role) (name : String) (optional : Bool) (span : Span)
    (parts : List Node) : (Node.mk (.ident role name optional) span parts).isQuiet = true := by
  cases role with
  | _ => rfl

/-- What is declared together is declared by the statements of one block. -/
theorem Node.exists_hasBlock {node : Node} {declared : List (VarKind × String)}
    (h : declared ∈ node.blockDeclares) :
    ∃ stmts, node.HasBlock stmts ∧ declared = stmts.flatMap Node.declares := by
  induction node using Node.inductionOn with
  | step form span parts ih =>
      rw [Node.blockDeclares] at h
      split at h
      · cases h
      · next hopen =>
        rw [Bool.not_eq_true, Bool.or_eq_false_iff] at hopen
        have hinside : declared ∈ blockDeclaresIn parts →
            ∃ stmts, (Node.mk form span parts).HasBlock stmts ∧
            declared = stmts.flatMap Node.declares := by
          intro hmem
          rw [blockDeclaresIn_eq_flatMap] at hmem
          obtain ⟨part, hpart, hmem⟩ := List.mem_flatMap.mp hmem
          obtain ⟨stmts, hblock, heq⟩ := ih part hpart hmem
          exact ⟨stmts, .inside hopen.1 hopen.2 hpart hblock, heq⟩
        split at h
        · next hblock =>
          subst hblock
          rcases List.mem_cons.mp h with rfl | hmem
          · exact ⟨parts, .here, rfl⟩
          · exact hinside hmem
        · exact hinside h

/-! ### Renaming -/

/-- The block lists that come of renaming: some names that were declared by `var` have the new
name, everything else is declared as before. -/
def Redeclares (old new : String) (before after : List (List (VarKind × String))) : Prop :=
  List.Forall₂ (List.Forall₂ fun d d' => d' = d ∨ d = (.var, old) ∧ d' = (.var, new)) before after

/-- What a declaration is if it is by `let` or `const`. -/
def outline (declared : VarKind × String) : Option String :=
  if declared.1.isBlockScoped then some declared.2 else none

theorem letsOf_eq_filterMap (declared : List (VarKind × String)) :
    letsOf declared = declared.filterMap outline := by
  induction declared with
  | nil => rfl
  | cons d declared ih =>
      rw [letsOf] at ih ⊢
      by_cases h : d.1.isBlockScoped = true
      · simp [outline, h, ih]
      · simp [outline, h, ih]

theorem letsOf_congr {declared others : List (VarKind × String)}
    (h : others.map outline = declared.map outline) : letsOf others = letsOf declared := by
  have hid : ∀ list : List (VarKind × String), letsOf list = (list.map outline).filterMap id := by
    intro list
    rw [letsOf_eq_filterMap, List.filterMap_map, Function.id_comp]
  rw [hid, hid, h]

section

variable {old new : String} {before after : List (List (VarKind × String))}

theorem Redeclares.refl (old new : String) (before : List (List (VarKind × String))) :
    Redeclares old new before before :=
  List.forall₂_same.mpr fun _ _ => List.forall₂_same.mpr fun _ _ => Or.inl rfl

theorem Redeclares.append {more more' : List (List (VarKind × String))}
    (h : Redeclares old new before after) (hmore : Redeclares old new more more') :
    Redeclares old new (before ++ more) (after ++ more') :=
  List.rel_append h hmore

theorem Redeclares.flatMap {parts : List Node} {f : Node → Node}
    (h : ∀ part ∈ parts, Redeclares old new part.blockDeclares (f part).blockDeclares) :
    Redeclares old new (blockDeclaresIn parts) (blockDeclaresIn (parts.map f)) := by
  induction parts with
  | nil => exact .nil
  | cons part parts ih =>
      rw [List.forall_mem_cons] at h
      exact h.1.append (ih h.2)

/-- What is declared by `let` or `const` stays. -/
theorem Redeclares.outline (h : Redeclares old new before after) :
    after.map (List.map outline) = before.map (List.map outline) := by
  have hblock : ∀ {block block' : List (VarKind × String)},
      List.Forall₂ (fun d d' => d' = d ∨ d = (.var, old) ∧ d' = (.var, new)) block block' →
        block'.map LoopLowering.outline = block.map LoopLowering.outline := by
    intro block block' hblock
    induction hblock with
    | nil => rfl
    | cons hfirst _ ih =>
        rw [List.map_cons, List.map_cons, ih]
        rcases hfirst with rfl | ⟨rfl, rfl⟩
        · rfl
        · rfl
  induction h with
  | nil => rfl
  | cons hfirst _ ih => rw [List.map_cons, List.map_cons, ih, hblock hfirst]

/-- Nothing changes if no `var` declares the old name. -/
theorem Redeclares.eq_of_notMem (h : Redeclares old new before after)
    (hold : (VarKind.var, old) ∉ before.flatten) : after = before := by
  have hblock : ∀ {block block' : List (VarKind × String)},
      List.Forall₂ (fun d d' => d' = d ∨ d = (.var, old) ∧ d' = (.var, new)) block block' →
        (VarKind.var, old) ∉ block → block' = block := by
    intro block block' hblock hnot
    induction hblock with
    | nil => rfl
    | cons hfirst _ ih =>
        rw [List.mem_cons, not_or] at hnot
        rw [ih hnot.2, hfirst.resolve_right fun hrenamed => hnot.1 hrenamed.1.symm]
  induction h with
  | nil => rfl
  | cons hfirst _ ih =>
      rw [List.flatten_cons, List.mem_append, not_or] at hold
      rw [hblock hfirst hold.1, ih hold.2]

theorem Node.declares_substitute (old new : String) (node : Node) :
    (node.substitute old new).declares =
      node.declares.map (Prod.map id fun name => if name = old then new else name) := by
  obtain ⟨form, span, parts⟩ := node
  by_cases h : ∃ kind declare, form = .varDecl kind declare
  · obtain ⟨kind, declare, rfl⟩ := h
    have hnames : bindingNamesOf (substituteIn old new parts) =
        (bindingNamesOf parts).map fun name => if name = old then new else name := by
      rw [substituteIn_eq_map, bindingNamesOf_eq_flatMap, bindingNamesOf_eq_flatMap,
        List.flatMap_map, List.map_flatMap]
      exact List.flatMap_congr fun part _ => part.bindingNames_substitute old new
    unfold Node.substitute
    rw [if_neg (by simp [Node.scopeNames, Node.headNames])]
    simp only [Node.declares, hnames, List.map_map]
    rfl
  · have hform : ∀ kind declare, form ≠ .varDecl kind declare := fun kind declare e =>
      h ⟨kind, declare, e⟩
    rw [Node.declares_eq_nil (.mk form span parts) hform]
    refine Node.declares_eq_nil _ ?_
    unfold Node.substitute
    split
    · exact hform
    split
    · split
      · exact fun _ _ e => by cases e
      · exact fun _ _ e => by cases e
    · exact fun _ _ e => by cases e
    · split
      · exact fun _ _ e => by cases e
      · exact fun _ _ e => by cases e
    · exact hform

theorem Node.declares_rename (old new : String) (node : Node) :
    (node.rename old new).declares =
      node.declares.map (Prod.map id fun name => if name = old then new else name) := by
  unfold Node.rename
  split
  · next heq =>
    subst heq
    have hsame : (Prod.map id fun name : String => if name = old then old else name) =
        (id : VarKind × String → VarKind × String) := by
      funext d
      simp only [Prod.map, id_eq]
      split
      · next hname => rw [← hname]
      · rfl
    rw [hsame, List.map_id]
  · exact node.declares_substitute old new

theorem Node.flatMap_declares_map {f : Node → Node} {g : VarKind × String → VarKind × String}
    {stmts : List Node} (h : ∀ stmt ∈ stmts, (f stmt).declares = stmt.declares.map g) :
    (stmts.map f).flatMap Node.declares = (stmts.flatMap Node.declares).map g := by
  rw [List.flatMap_map, List.map_flatMap]
  exact List.flatMap_congr h

theorem Node.mem_lexicalNames_of_declares {node : Node} {constant : Bool} {name : String}
    (h : (.lexical constant, name) ∈ node.declares) : name ∈ node.lexicalNames := by
  unfold Node.declares at h
  split at h
  · obtain ⟨used, hmem, heq⟩ := List.mem_map.mp h
    cases heq
    exact hmem
  · cases h

/-- In a block that declares the old name by `let` or `const` nothing is renamed. -/
theorem Redeclares.substitute (old new : String) {node : Node} (hwf : node.isWellFormed = true) :
    Redeclares old new node.blockDeclares (node.substitute old new).blockDeclares := by
  induction node using Node.inductionOn with
  | step form span parts ih =>
      have hwfParts : ∀ part ∈ parts, part.isWellFormed = true :=
        fun part hmem => Node.isWellFormed_part hwf hmem
      by_cases hscope : old ∈ (Node.mk form span parts).scopeNames
      · rw [Node.substitute_of_mem_scopeNames hscope]
        exact .refl _ _ _
      have hnode : Redeclares old new (Node.mk form span parts).blockDeclares
          (Node.mk form span (substituteIn old new parts)).blockDeclares := by
        have hloop : (Node.mk form span (parts.map (·.substitute old new))).isBlockLoop =
            (Node.mk form span parts).isBlockLoop :=
          Node.isBlockLoop_congr (List.forall₂_map_right_iff.mpr (List.forall₂_same.mpr
            fun part hmem => (Node.Stands.substitute old new (hwfParts part hmem)).lexical))
        have hparts : Redeclares old new (blockDeclaresIn parts)
            (blockDeclaresIn (parts.map (·.substitute old new))) :=
          .flatMap fun part hmem => ih part hmem (hwfParts part hmem)
        rw [substituteIn_eq_map, Node.blockDeclares, Node.blockDeclares, hloop]
        split
        · exact .nil
        split
        · next hblock =>
          subst hblock
          refine .cons ?_ hparts
          rw [Node.flatMap_declares_map fun stmt _ => stmt.declares_substitute old new]
          refine List.forall₂_map_right_iff.mpr (List.forall₂_same.mpr fun d hmem => ?_)
          obtain ⟨kind, name⟩ := d
          simp only [Prod.map, id_eq]
          split
          · next hold =>
            subst hold
            obtain ⟨stmt, hstmt, hdeclares⟩ := List.mem_flatMap.mp hmem
            cases kind with
            | var => exact Or.inr ⟨rfl, rfl⟩
            | lexical constant =>
                have hlexical := Node.mem_lexicalNames_of_declares hdeclares
                exact absurd (List.mem_flatMap.mpr ⟨stmt, hstmt, hlexical⟩) hscope
          · exact Or.inl rfl
        · exact hparts
      -- All that becomes another kind of node is a part of an expression or a pattern.
      have hquiet : ∀ after : Node, after.isWellFormed = true →
          (Node.mk form span parts).isQuiet = true →
          after.isQuiet = true →
            Redeclares old new (Node.mk form span parts).blockDeclares after.blockDeclares := by
        intro after hwfAfter hbefore hafter
        rw [Node.blockDeclares_of_isQuiet hwf hbefore,
          Node.blockDeclares_of_isQuiet hwfAfter hafter]
        exact .nil
      suffices h : ∀ after, (Node.mk form span parts).substitute old new = after →
          after.isWellFormed = true →
            Redeclares old new (Node.mk form span parts).blockDeclares after.blockDeclares from
        h _ rfl (Node.Stands.substitute old new hwf).wellFormed
      intro after hafter hwfAfter
      unfold Node.substitute at hafter
      rw [if_neg hscope] at hafter
      split at hafter
      · split at hafter
        · subst hafter
          exact hquiet _ hwfAfter rfl rfl
        · subst hafter
          exact hnode
      · subst hafter
        exact hquiet _ hwfAfter (Node.isQuiet_ident _ _ _ _ _) (Node.isQuiet_ident _ _ _ _ _)
      · split at hafter
        · subst hafter
          exact hquiet _ hwfAfter rfl rfl
        · subst hafter
          exact hquiet _ hwfAfter rfl rfl
      · subst hafter
        exact hnode

theorem Redeclares.rename (old new : String) {node : Node} (hwf : node.isWellFormed = true) :
    Redeclares old new node.blockDeclares (node.rename old new).blockDeclares := by
  unfold Node.rename
  split
  · exact .refl _ _ _
  · exact .substitute old new hwf

theorem Redeclares.rename_stmts (old new : String) {stmts : List Node}
    (hwf : ∀ stmt ∈ stmts, stmt.isWellFormed = true) :
    Redeclares old new (blockDeclaresIn stmts) (blockDeclaresIn (stmts.map (·.rename old new))) :=
  .flatMap fun stmt hmem => .rename old new (hwf stmt hmem)

end

/-! ### Names that are settled -/

/-- The name that takes the place of a given one. -/
def settleName (clashes : String → Bool) (name : String) : Naming String :=
  if clashes name then Naming.rename name else pure name

/-- The names that take the place of given ones when those that clash are renamed, in order. -/
def settleNames (clashes : String → Bool) : List String → Naming (List String)
  | [] => pure []
  | name :: others => do return (← settleName clashes name) :: (← settleNames clashes others)

/-- Declarations turned into `var`: they are what they were, one by one, and where they were by
`let` or `const` they declare these names now. -/
inductive TurnsTo : List (VarKind × String) → List (VarKind × String) → List String → Prop
  | nil : TurnsTo [] [] []
  | kept {before after : List (VarKind × String)} {turned : List String} (old new : String)
      (h : TurnsTo before after turned) : TurnsTo ((.var, old) :: before)
      ((.var, new) :: after) turned
  | turned {before after : List (VarKind × String)} {turned : List String} (constant : Bool)
      (old new : String) (h : TurnsTo before after turned) :
      TurnsTo ((.lexical constant, old) :: before) ((.var, new) :: after) (new :: turned)

section

variable {clashes : String → Bool} {names : Registry} {name : String}
    {before after : List (VarKind × String)}
  {turned : List String}

theorem run_settleNames_cons (clashes : String → Bool) (name : String) (others : List String)
    (names : Registry) :
    (settleNames clashes (name :: others)).run names =
      let first := if clashes name then names.rename name else (name, names)
      let rest := (settleNames clashes others).run first.2
      (first.1 :: rest.1, rest.2) := by
  rw [settleNames, settleName]
  split
  · rfl
  · rfl

theorem run_settleNames_append (clashes : String → Bool) (first second : List String)
    (names : Registry) :
    (settleNames clashes (first ++ second)).run names =
      let settled := (settleNames clashes first).run names
      let more := (settleNames clashes second).run settled.2
      (settled.1 ++ more.1, more.2) := by
  induction first generalizing names with
  | nil => rfl
  | cons name first ih =>
      rw [List.cons_append, run_settleNames_cons, run_settleNames_cons]
      simp only [ih, List.cons_append]

/-- Each name stays or is a new one. -/
theorem forall₂_settleNames (olds : List String) (names : Registry) :
    List.Forall₂ (fun old new => new = old ∧ clashes old = false ∨ new ∉ names.taken) olds
      ((settleNames clashes olds).run names).1 := by
  induction olds generalizing names with
  | nil => exact .nil
  | cons old olds ih =>
      rw [run_settleNames_cons]
      split
      · refine .cons (Or.inr (Registry.rename_notMem names old)) ((ih _).imp fun a b h => ?_)
        refine h.imp_right fun hnew htaken => hnew ?_
        exact (Naming.draws_rename old).subset names htaken
      · next hclear => exact .cons (Or.inl ⟨rfl, by simpa using hclear⟩) (ih names)

/-- The names are different if those that do not clash are. -/
theorem nodup_settleNames {olds : List String} (hknown : olds ⊆ names.taken)
    (hsingle : ∀ name, clashes name = false → olds.count name ≤ 1) :
    ((settleNames clashes olds).run names).1.Nodup := by
  induction olds generalizing names with
  | nil => exact List.nodup_nil
  | cons old olds ih =>
      have hrest : ∀ name, clashes name = false → olds.count name ≤ 1 := fun name hclear =>
        Nat.le_trans (List.count_le_count_cons) (hsingle name hclear)
      have horigin : ∀ names new, new ∈ ((settleNames clashes olds).run names).1 →
          new ∈ olds ∧ clashes new = false ∨ new ∉ names.taken := by
        intro names new hmem
        obtain ⟨old, hold, hcases⟩ :=
          exists_related_of_forall₂ (@forall₂_settleNames clashes olds names) new hmem
        refine hcases.imp_left ?_
        rintro ⟨rfl, hclear⟩
        exact ⟨hold, hclear⟩
      rw [List.cons_subset] at hknown
      rw [run_settleNames_cons]
      split
      · have hsub := (Naming.draws_rename old).subset names
        refine List.nodup_cons.mpr ⟨fun hmem => ?_, ih (List.Subset.trans hknown.2 hsub) hrest⟩
        rcases horigin _ _ hmem with ⟨hold, -⟩ | hnew
        · exact Registry.rename_notMem names old (hknown.2 hold)
        · exact hnew (Registry.taken_rename names old ▸ List.mem_cons_self)
      · next hclear =>
        refine List.nodup_cons.mpr ⟨fun hmem => ?_, ih hknown.2 hrest⟩
        rcases horigin _ _ hmem with ⟨hold, -⟩ | hnew
        · have hcount := hsingle old (by simpa using hclear)
          have hmore : 0 < olds.count old := List.count_pos_iff.mpr hold
          rw [List.count_cons_self] at hcount
          omega
        · exact hnew hknown.1

theorem settleNames_known {olds : List String} (hknown : olds ⊆ names.taken) :
    ((settleNames clashes olds).run names).1 ⊆ ((settleNames clashes olds).run names).2.taken ∧
      names.taken ⊆ ((settleNames clashes olds).run names).2.taken := by
  induction olds generalizing names with
  | nil => exact ⟨List.nil_subset _, List.Subset.refl _⟩
  | cons old olds ih =>
      rw [List.cons_subset] at hknown
      rw [run_settleNames_cons]
      split
      · have hsub := (Naming.draws_rename old).subset names
        obtain ⟨hothers, hgrows⟩ := ih (List.Subset.trans hknown.2 hsub)
        have hnew : (names.rename old).1 ∈ (names.rename old).2.taken :=
          Registry.taken_rename names old ▸ List.mem_cons_self
        exact ⟨List.cons_subset.mpr ⟨hgrows hnew, hothers⟩, List.Subset.trans hsub hgrows⟩
      · obtain ⟨hothers, hgrows⟩ := ih hknown.2
        exact ⟨List.cons_subset.mpr ⟨hgrows hknown.1, hothers⟩, hgrows⟩

theorem TurnsTo.append {more more' : List (VarKind × String)} {others : List String}
    (h : TurnsTo before after turned) (hmore : TurnsTo more more' others) :
    TurnsTo (before ++ more) (after ++ more') (turned ++ others) := by
  induction h with
  | nil => exact hmore
  | kept old new _ ih => exact .kept old new ih
  | turned constant old new _ ih => exact .turned constant old new ih

/-- What was declared by `var` may have had any name. -/
theorem TurnsTo.of_outline {others : List (VarKind × String)} (h : TurnsTo before after turned)
    (houtline : others.map outline = before.map outline) : TurnsTo others after turned := by
  induction h generalizing others with
  | nil => rw [List.map_eq_nil_iff.mp houtline]; exact .nil
  | kept old new _ ih =>
      rw [List.map_cons, List.map_eq_cons_iff] at houtline
      obtain ⟨⟨kind, name⟩, rest, rfl, hfirst, hrest⟩ := houtline
      cases kind with
      | var => exact .kept name new (ih hrest)
      | lexical => cases hfirst
  | turned constant old new _ ih =>
      rw [List.map_cons, List.map_eq_cons_iff] at houtline
      obtain ⟨⟨kind, name⟩, rest, rfl, hfirst, hrest⟩ := houtline
      cases kind with
      | var => cases hfirst
      | lexical other => exact .turned other name new (ih hrest)

/-- Declarations may be renamed and then made `var`. -/
theorem TurnsTo.of_kinds {renamed : List (VarKind × String)}
    (h : renamed.map Prod.fst = before.map Prod.fst) :
    TurnsTo before (renamed.map fun d => (.var, d.2)) (letsOf renamed) := by
  induction renamed generalizing before with
  | nil => rw [List.map_eq_nil_iff.mp h.symm]; exact .nil
  | cons d renamed ih =>
      rw [List.map_cons, eq_comm, List.map_eq_cons_iff] at h
      obtain ⟨⟨kind, name⟩, rest, rfl, hkind, hrest⟩ := h
      obtain ⟨kind', name'⟩ := d
      obtain rfl : kind = kind' := hkind
      cases kind with
      | var => exact .kept name name' (ih hrest.symm)
      | lexical constant => exact .turned constant name name' (ih hrest.symm)

/-- Where nothing was declared by `var`, all that is declared is what was turned. -/
theorem TurnsTo.eq_map (h : TurnsTo before after turned)
    (hlets : ∀ d ∈ before, d.1.isBlockScoped = true) : after = turned.map (VarKind.var, ·) := by
  induction h with
  | nil => rfl
  | kept old new _ ih => cases hlets _ List.mem_cons_self
  | turned constant old new _ ih =>
      rw [List.map_cons, ih fun d hmem => hlets d (List.mem_cons_of_mem _ hmem)]

end

/-! ### Flattening -/

/-- Declarations are turned into `var` while the names that clash are renamed, one after the
other. -/
structure Settles (clashes : String → Bool) (names : Registry)
    (before after : List (VarKind × String)) (names' : Registry) : Prop where
  turns : TurnsTo before after ((settleNames clashes (letsOf before)).run names).1
  names : names' = ((settleNames clashes (letsOf before)).run names).2

/-- The names that the `let` and `const` of each block declare are different, and all of them
known. -/
def SinglyIn (names : Registry) (declared : List (List (VarKind × String))) : Prop :=
  ∀ block ∈ declared, (letsOf block).Nodup ∧ letsOf block ⊆ names.taken

section

variable {clashes : String → Bool} {names between names' : Registry}

theorem Settles.nil : Settles clashes names [] [] names := ⟨.nil, rfl⟩

theorem Settles.append {before after more more' : List (VarKind × String)}
    (h : Settles clashes names before after between)
    (hmore : Settles clashes between more more' names') :
    Settles clashes names (before ++ more) (after ++ more') names' := by
  have hsettled : (settleNames clashes (letsOf (before ++ more))).run names =
      (((settleNames clashes (letsOf before)).run names).1 ++
        ((settleNames clashes (letsOf more)).run between).1, names') := by
    rw [letsOf_append, run_settleNames_append]
    simp only [← h.names, ← hmore.names]
  refine ⟨?_, ?_⟩
  · rw [hsettled]
    exact h.turns.append hmore.turns
  · rw [hsettled]

theorem Settles.of_outline {before others after : List (VarKind × String)}
    (h : Settles clashes names before after names')
    (houtline : others.map outline = before.map outline) :
    Settles clashes names others after names' := by
  have hlets := letsOf_congr houtline
  exact ⟨hlets ▸ h.turns.of_outline houtline, hlets ▸ h.names⟩

theorem SinglyIn.known {declared : List (List (VarKind × String))} (h : SinglyIn names declared) :
    letsOf declared.flatten ⊆ names.taken := by
  intro name hname
  obtain ⟨d, hmem, rfl⟩ := List.mem_map.mp hname
  obtain ⟨hmem, hkind⟩ := List.mem_filter.mp hmem
  obtain ⟨block, hblock, hmem⟩ := List.mem_flatten.mp hmem
  exact (h block hblock).2 (List.mem_map_of_mem (List.mem_filter.mpr ⟨hmem, hkind⟩))

theorem SinglyIn.mono {declared : List (List (VarKind × String))} (h : SinglyIn names declared)
    (hsub : names.taken ⊆ names'.taken) : SinglyIn names' declared :=
  fun block hmem => ⟨(h block hmem).1, List.Subset.trans (h block hmem).2 hsub⟩

theorem SinglyIn.of_outline {declared others : List (List (VarKind × String))}
    (h : SinglyIn names declared)
    (houtline : others.map (List.map outline) = declared.map (List.map outline)) :
    SinglyIn names others := by
  intro block hmem
  have himage : block.map outline ∈ declared.map (List.map outline) :=
    houtline ▸ List.mem_map_of_mem hmem
  obtain ⟨original, horiginal, heq⟩ := List.mem_map.mp himage
  rw [letsOf_congr heq.symm]
  exact h original horiginal

theorem flatten_map_outline {declared others : List (List (VarKind × String))}
    (h : others.map (List.map outline) = declared.map (List.map outline)) :
    others.flatten.map outline = declared.flatten.map outline := by
  rw [List.map_flatten, List.map_flatten, h]

/-- Renaming the clashing names of a statement list leaves what the blocks in it declare by `let`
and `const`. -/
theorem outline_renameClashing (clashes : String → Bool) (vars : List String) {stmts : List Node}
    (hwf : ∀ stmt ∈ stmts, stmt.isWellFormed = true) (names : Registry) :
    (blockDeclaresIn ((renameClashing clashes vars stmts).run names).1).map (List.map outline) =
      (blockDeclaresIn stmts).map (List.map outline) := by
  induction vars generalizing stmts names with
  | nil => rfl
  | cons name vars ih =>
      unfold renameClashing
      split
      · exact (ih (Node.Fits.wellFormed_of_forall₂ ((forall₂_stands_rename name _ hwf).imp
          fun _ _ hs => hs.toFits)) _).trans (Redeclares.rename_stmts name _ hwf).outline
      · exact ih hwf names

/-- Renaming the clashing names of a statement list settles what its statements declare by `let` and
`const`. -/
theorem renameClashing_settles {vars done : List String} {stmts : List Node}
    (hwf : ∀ stmt ∈ stmts, stmt.isWellFormed = true)
    (hlets : letsOf (stmts.flatMap Node.declares) = done ++ vars) (hnodup : (done ++ vars).Nodup)
    (hknown : done ++ vars ⊆ names.taken) :
    let renamed := (renameClashing clashes vars stmts).run names
    let settled := (settleNames clashes vars).run names
    letsOf (renamed.1.flatMap Node.declares) = done ++ settled.1 ∧ renamed.2 = settled.2 ∧
      (renamed.1.flatMap Node.declares).map Prod.fst =
      (stmts.flatMap Node.declares).map Prod.fst := by
  induction vars generalizing done stmts names with
  | nil => exact ⟨hlets, rfl, rfl⟩
  | cons name vars ih =>
      rw [run_settleNames_cons]
      unfold renameClashing
      by_cases hclash : clashes name = true
      · rw [if_pos hclash, if_pos hclash]
        obtain ⟨hreplaced, hdistinct, hused⟩ := Registry.replace_rename hnodup hknown
        have hdeclares := Node.flatMap_declares_map
          fun stmt (_ : stmt ∈ stmts) => stmt.declares_rename name (names.rename name).1
        have hnames : letsOf
            ((stmts.map (·.rename name (names.rename name).1)).flatMap Node.declares) =
            done ++ (names.rename name).1 :: vars := by
          rw [hdeclares, letsOf_map, hlets, hreplaced]
        rw [List.append_cons] at hnames hdistinct hused
        obtain ⟨hsettled, hnames', hkinds⟩ := ih
          (Node.Fits.wellFormed_of_forall₂
            ((forall₂_stands_rename name _ hwf).imp fun _ _ hs => hs.toFits))
          hnames hdistinct hused
        refine ⟨hsettled.trans (List.append_assoc _ _ _), hnames', hkinds.trans ?_⟩
        rw [hdeclares, List.map_map]
        rfl
      · rw [if_neg hclash, if_neg hclash]
        rw [List.append_cons] at hlets hnodup hknown
        obtain ⟨hlets, hmore⟩ := ih hwf hlets hnodup hknown
        exact ⟨hlets.trans (List.append_assoc _ _ _), hmore⟩

theorem Node.declares_flattenDecl (reset : Bool) (stmt : Node) :
    (stmt.flattenDecl reset).declares = stmt.declares.map fun d => (.var, d.2) := by
  cases hlexical : stmt.isLexicalDecl with
  | true =>
      obtain ⟨constant, declare, span, declarators, rfl⟩ := Node.isLexicalDecl_iff.mp hlexical
      have hreset : bindingNamesOf (declarators.map Node.resetInit) =
          bindingNamesOf declarators := by
        rw [bindingNamesOf_eq_flatMap, bindingNamesOf_eq_flatMap, List.flatMap_map]
        exact List.flatMap_congr fun declarator _ => declarator.bindingNames_resetInit
      rw [Node.flattenDecl, Node.declares, Node.declares, List.map_map]
      split
      · rw [hreset]
        rfl
      · rfl
  | false =>
      have hvar : ∀ d ∈ stmt.declares, (VarKind.var, d.2) = d := by
        intro d hmem
        unfold Node.declares at hmem
        split at hmem
        · next kind _ _ _ =>
          obtain ⟨name, -, rfl⟩ := List.mem_map.mp hmem
          cases kind with
          | var => rfl
          | lexical => cases hlexical
        · cases hmem
      rw [Node.flattenDecl_of_not_lexical hlexical, List.map_congr_left hvar, List.map_id']

theorem Node.blockDeclares_flattenDecl (reset : Bool) {stmt : Node}
    (hwf : stmt.isWellFormed = true) :
    (stmt.flattenDecl reset).blockDeclares = stmt.blockDeclares := by
  cases hlexical : stmt.isLexicalDecl with
  | true =>
      have hflat := (Node.Fits.flattenDecl reset hwf).wellFormed
      obtain ⟨constant, declare, span, declarators, rfl⟩ := Node.isLexicalDecl_iff.mp hlexical
      rw [Node.blockDeclares_of_isQuiet hwf rfl, Node.blockDeclares_of_isQuiet hflat rfl]
  | false => rw [Node.flattenDecl_of_not_lexical hlexical]

theorem blockDeclaresIn_map_flattenDecl (reset : Bool) {stmts : List Node}
    (hwf : ∀ stmt ∈ stmts, stmt.isWellFormed = true) :
    blockDeclaresIn (stmts.map (·.flattenDecl reset)) = blockDeclaresIn stmts := by
  rw [blockDeclaresIn_eq_flatMap, blockDeclaresIn_eq_flatMap, List.flatMap_map]
  exact List.flatMap_congr fun stmt hmem => Node.blockDeclares_flattenDecl reset (hwf stmt hmem)

section

variable {change : Bool → List Node → Naming (List Node)} {again : Bool}

/-- What a statement declares itself stays when the blocks in it are changed. -/
theorem Node.declares_changeBlocks {node : Node} (hwf : node.isWellFormed = true) (again : Bool)
    (names : Registry) : ((node.changeBlocks change again).run names).1.declares =
      node.declares := by
  obtain ⟨form, span, parts⟩ := node
  by_cases h : ∃ kind declare, form = .varDecl kind declare
  · obtain ⟨kind, declare, rfl⟩ := h
    rw [Node.changeBlocks_of_isQuiet hwf rfl]
  · have hform : ∀ kind declare, form ≠ .varDecl kind declare := fun kind declare e =>
      h ⟨kind, declare, e⟩
    rw [Node.declares_eq_nil (.mk form span parts) hform]
    refine Node.declares_eq_nil _ ?_
    unfold Node.changeBlocks
    split
    · exact hform
    split
    · exact hform
    · exact hform

theorem flatMap_declares_changeBlocksIn {nodes : List Node}
    (hwf : ∀ node ∈ nodes, node.isWellFormed = true) (names : Registry) :
    ((changeBlocksIn change again nodes).run names).1.flatMap Node.declares =
      nodes.flatMap Node.declares := by
  induction nodes generalizing names with
  | nil => rfl
  | cons node nodes ih =>
      rw [List.forall_mem_cons] at hwf
      rw [List.flatMap_cons, ← ih hwf.2, ← Node.declares_changeBlocks hwf.1 again names]
      rfl

/-- What is settled in each tree of a list is settled in the list. -/
theorem settles_changeBlocksIn {nodes : List Node}
    (hdraws : ∀ node ∈ nodes, (node.changeBlocks change again).Draws)
    (h : ∀ node ∈ nodes, ∀ names : Registry, SinglyIn names node.blockDeclares →
      Settles clashes names node.blockDeclares.flatten
        ((node.changeBlocks change again).run names).1.blockDeclares.flatten
        ((node.changeBlocks change again).run names).2)
    (hsingly : SinglyIn names (blockDeclaresIn nodes)) :
    Settles clashes names (blockDeclaresIn nodes).flatten
      (blockDeclaresIn ((changeBlocksIn change again nodes).run names).1).flatten
      ((changeBlocksIn change again nodes).run names).2 := by
  induction nodes generalizing names with
  | nil => exact .nil
  | cons node nodes ih =>
      rw [List.forall_mem_cons] at hdraws h
      rw [blockDeclaresIn, SinglyIn, List.forall_mem_append] at hsingly
      have hrest : SinglyIn ((node.changeBlocks change again).run names).2
          (blockDeclaresIn nodes) :=
        SinglyIn.mono hsingly.2 (hdraws.1.subset names)
      have hboth := (h.1 names hsingly.1).append (ih hdraws.2 h.2 hrest)
      rw [← List.flatten_append, ← List.flatten_append] at hboth
      exact hboth

/-- Flattening the blocks of a tree. -/
theorem Node.settles_changeBlocks {depth : Nat} {node : Node}
    (hchange : ∀ again stmts names, (∀ stmt ∈ stmts, stmt.isWellFormed = true) →
      blockDepthOf stmts < depth → SinglyIn names (stmtsDeclare stmts) →
      Settles clashes names (stmtsDeclare stmts).flatten
        (stmtsDeclare ((flattenTo clashes depth again stmts).run names).1).flatten
        ((flattenTo clashes depth again stmts).run names).2)
    (hwf : node.isWellFormed = true) (hdepth : node.blockDepth ≤ depth) (again : Bool)
    {names : Registry} (hsingly : SinglyIn names node.blockDeclares) :
    Settles clashes names node.blockDeclares.flatten
      ((node.changeBlocks (flattenTo clashes depth) again).run names).1.blockDeclares.flatten
      ((node.changeBlocks (flattenTo clashes depth) again).run names).2 := by
  induction node using Node.inductionOn generalizing again names with
  | step form span parts ih =>
      have hwfParts : ∀ part ∈ parts, part.isWellFormed = true :=
        fun part hmem => Node.isWellFormed_part hwf hmem
      unfold Node.changeBlocks
      split
      · next hstop =>
        have hnone : (Node.mk form span parts).blockDeclares = [] := by
          rcases Bool.or_eq_true_iff.mp hstop with hclosure | hcandidate
          · exact Node.blockDeclares_of_isClosure hclosure
          · exact Node.blockDeclares_of_isCandidate hcandidate
        show Settles clashes names _ (Node.mk form span parts).blockDeclares.flatten names
        rw [hnone]
        exact .nil
      · next hstop =>
        simp only [Bool.or_eq_true, not_or, Bool.not_eq_true] at hstop
        split
        · rw [Node.blockDeclares_block] at hsingly ⊢
          refine hchange again parts names hwfParts ?_ hsingly
          rw [Node.blockDepth, if_pos rfl] at hdepth
          omega
        · next hblock =>
          have hplain : (Node.mk form span parts).isBlockLoop = false := by
            by_contra hblockLoop
            rw [Node.isCandidate_of_isBlockLoop (by simpa using hblockLoop)] at hstop
            cases hstop.2
          have hafter : ∀ again', (Node.mk form span
              ((changeBlocksIn (flattenTo clashes depth) again' parts).run names).1).blockDeclares =
                blockDeclaresIn ((changeBlocksIn (flattenTo clashes depth) again' parts).run
                  names).1 := by
            intro again'
            refine Node.blockDeclares_of_plain hstop.1 ?_ hblock
            rw [← hplain]
            have hstands : List.Forall₂ Node.Stands parts
                ((changeBlocksIn (flattenTo clashes depth) again' parts).run names).1 :=
              forall₂_changeBlocksIn (fun part hmem names => .changeBlocks
                (forall₂_fits_flattenTo clashes depth) (hwfParts part hmem) again' names) names
            exact Node.isBlockLoop_congr (hstands.imp fun _ _ hs => hs.lexical)
          rw [Node.blockDeclares_of_plain hstop.1 hplain hblock] at hsingly ⊢
          show Settles clashes names _ (Node.mk form span
            ((changeBlocksIn (flattenTo clashes depth) (again || form.isLoop) parts).run
              names).1).blockDeclares.flatten _
          rw [hafter]
          exact settles_changeBlocksIn
            (fun part _ => part.draws_changeBlocks (draws_flattenTo clashes depth) _)
            (fun part hmem names hpart => ih part hmem (hwfParts part hmem)
              (Nat.le_trans (Node.blockDepth_part hmem) hdepth) _ hpart) hsingly

/-- Flattening a statement list, down to a depth that is deep enough. -/
theorem settles_flattenTo (clashes : String → Bool) (depth : Nat) (again : Bool) (stmts : List Node)
    (names : Registry) (hwf : ∀ stmt ∈ stmts, stmt.isWellFormed = true)
    (hdepth : blockDepthOf stmts < depth) (hsingly : SinglyIn names (stmtsDeclare stmts)) :
    Settles clashes names (stmtsDeclare stmts).flatten
      (stmtsDeclare ((flattenTo clashes depth again stmts).run names).1).flatten
      ((flattenTo clashes depth again stmts).run names).2 := by
  induction depth generalizing again stmts names with
  | zero => exact absurd hdepth (Nat.not_lt_zero _)
  | succ depth ih =>
      rw [stmtsDeclare, SinglyIn, List.forall_mem_cons] at hsingly
      obtain ⟨⟨hnodup, hknown⟩, hinside⟩ := hsingly
      have hrenamed := @renameClashing_settles clashes names
        (letsOf (stmts.flatMap Node.declares)) [] stmts hwf rfl hnodup hknown
      have hblocks := outline_renameClashing clashes
          (letsOf (stmts.flatMap Node.declares)) hwf names
      have hfits := forall₂_fits_renameClashing clashes
          (letsOf (stmts.flatMap Node.declares)) hwf names
      have hgrows := (draws_renameClashing clashes (letsOf (stmts.flatMap Node.declares))
          stmts).subset names
      have hdepthRenamed := blockDepthOf_renameClashing_le clashes
        (letsOf (stmts.flatMap Node.declares)) stmts names
      rw [flattenTo, Naming.run_bind, flatMap_blockScopedNames_eq_letsOf]
      generalize (renameClashing clashes (letsOf (stmts.flatMap Node.declares)) stmts).run names =
        renamed at hrenamed hblocks hfits hgrows hdepthRenamed ⊢
      obtain ⟨renamed, drawn⟩ := renamed
      obtain ⟨hlets, hdrawn, hkinds⟩ := hrenamed
      have hwfRenamed := Node.Fits.wellFormed_of_forall₂ hfits
      have hwfFlat : ∀ stmt ∈ renamed.map (·.flattenDecl again), stmt.isWellFormed = true :=
        List.forall_mem_map.mpr fun stmt hmem =>
          (Node.Fits.flattenDecl again (hwfRenamed stmt hmem)).wellFormed
      have hown : Settles clashes names (stmts.flatMap Node.declares)
          ((renamed.map (·.flattenDecl again)).flatMap Node.declares) drawn := by
        rw [Node.flatMap_declares_map fun stmt _ => stmt.declares_flattenDecl again]
        refine ⟨?_, hdrawn⟩
        rw [← List.nil_append (Prod.fst _), ← hlets]
        exact .of_kinds hkinds
      have hinner : Settles clashes drawn (blockDeclaresIn stmts).flatten
          (blockDeclaresIn ((changeBlocksIn (flattenTo clashes depth) again
            (renamed.map (·.flattenDecl again))).run drawn).1).flatten
          ((changeBlocksIn (flattenTo clashes depth) again
            (renamed.map (·.flattenDecl again))).run drawn).2 := by
        refine .of_outline ?_ (flatten_map_outline hblocks.symm)
        rw [← blockDeclaresIn_map_flattenDecl again hwfRenamed]
        refine settles_changeBlocksIn
          (fun stmt _ => stmt.draws_changeBlocks (draws_flattenTo clashes depth) _)
          (fun stmt hmem names hstmt => Node.settles_changeBlocks ih (hwfFlat stmt hmem)
            ?_ again hstmt) ?_
        · obtain ⟨original, horiginal, rfl⟩ := List.mem_map.mp hmem
          have hle := blockDepthOf_le.mp (Nat.le_trans hdepthRenamed (Nat.lt_succ_iff.mp hdepth))
            original horiginal
          exact Nat.le_trans (original.blockDepth_flattenDecl_le again) hle
        · rw [blockDeclaresIn_map_flattenDecl again hwfRenamed]
          exact SinglyIn.of_outline (SinglyIn.mono hinside hgrows) hblocks
      rw [← flatMap_declares_changeBlocksIn hwfFlat drawn] at hown
      exact hown.append hinner

end

end

/-! ### Hoisting -/

theorem Node.blockDeclares_of_isExpr {expr : Node} (h : expr.IsExpr) : expr.blockDeclares = [] :=
  Node.blockDeclares_of_isQuiet h.wellFormed (Slot.allAre_of_admits rfl rfl (by decide) h.admitted)

theorem Node.blockDeclares_exprStmt {expr : Node} (h : expr.IsExpr) :
    (Node.exprStmt expr).blockDeclares = [] :=
  Node.blockDeclares_eq_nil (by simp) fun _ =>
    List.forall_mem_singleton.mpr (Node.blockDeclares_of_isExpr h)

/-- What was declared by `var` is declared no more. -/
theorem Node.declares_hoist {node : Node} (hwf : node.isWellFormed = true) :
    node.hoist.declares = node.declares.filter (·.1.isBlockScoped) := by
  obtain ⟨form, span, parts⟩ := node
  by_cases h : ∃ kind declare, form = .varDecl kind declare
  · obtain ⟨kind, declare, rfl⟩ := h
    cases kind with
    | lexical constant =>
        rw [Node.hoist_lexicalDecl hwf, Node.declares, List.filter_map]
        simp [Function.comp_def, VarKind.isBlockScoped]
    | var =>
        have hnone : ((Node.varDecl .var declare span parts).declares).filter
            (·.1.isBlockScoped) = [] := by
          rw [Node.declares, List.filter_map]
          simp [Function.comp_def, VarKind.isBlockScoped]
        rw [hnone]
        refine Node.declares_eq_nil _ ?_
        show ∀ kind declare, (hoistVar span parts).form ≠ _
        unfold hoistVar
        split
        · exact fun _ _ e => by cases e
        · exact fun _ _ e => by cases e
  · have hform : ∀ kind declare, form ≠ .varDecl kind declare := fun kind declare e =>
      h ⟨kind, declare, e⟩
    rw [Node.declares_eq_nil (.mk form span parts) hform, List.filter_nil]
    refine Node.declares_eq_nil _ fun kind declare => ?_
    have hkept : (Node.mk form span parts).hoist.form = form :=
      Node.form_hoist fun declare => hform .var declare
    rw [hkept]
    exact hform kind declare

theorem flatMap_declares_withoutEmpty (stmts : List Node) :
    (withoutEmpty stmts).flatMap Node.declares = stmts.flatMap Node.declares :=
  flatMap_withoutEmpty fun stmt _ hform => Node.declares_eq_nil stmt (by simp [hform])

theorem blockDeclaresIn_withoutEmpty {stmts : List Node}
    (hwf : ∀ stmt ∈ stmts, stmt.isWellFormed = true) :
    blockDeclaresIn (withoutEmpty stmts) = blockDeclaresIn stmts := by
  rw [blockDeclaresIn_eq_flatMap, blockDeclaresIn_eq_flatMap]
  refine flatMap_withoutEmpty fun stmt hmem hform =>
    Node.blockDeclares_of_isQuiet (hwf stmt hmem) ?_
  rw [Node.isQuiet, Node.allAre, hform]
  rfl

/-- The same node around parts whose blocks declare what becomes of the blocks of its parts. -/
theorem Node.blockDeclares_mk_map {form : Form} {span : Span} {parts parts' : List Node}
    {f : List (VarKind × String) → List (VarKind × String)}
    (hloop : (Node.mk form span parts').isBlockLoop = (Node.mk form span parts).isBlockLoop)
    (hblock : form = .block → parts'.flatMap Node.declares = f (parts.flatMap Node.declares))
    (hparts : blockDeclaresIn parts' = (blockDeclaresIn parts).map f) :
    (Node.mk form span parts').blockDeclares = (Node.mk form span parts).blockDeclares.map f := by
  rw [Node.blockDeclares, Node.blockDeclares, hloop]
  split
  · rfl
  split
  · next heq => rw [List.map_cons, hblock heq, hparts]
  · exact hparts

theorem blockDeclaresIn_map {parts : List Node}
    {f : List (VarKind × String) → List (VarKind × String)} {change : Node → Node}
    (h : ∀ part ∈ parts, (change part).blockDeclares = part.blockDeclares.map f) :
    blockDeclaresIn (parts.map change) = (blockDeclaresIn parts).map f := by
  rw [blockDeclaresIn_eq_flatMap, blockDeclaresIn_eq_flatMap, List.flatMap_map, List.map_flatMap]
  exact List.flatMap_congr h

/-- What stands in a place for expressions, patterns or declarations has no blocks. -/
theorem Node.blockDeclares_of_admits {slot : Slot} {node : Node} (hwf : node.isWellFormed = true)
    (hadmits : slot.admits node = true) (hslot : slot.categories.all (·.isQuiet) = true)
    (hlist : Category.list ∉ slot.categories) : node.blockDeclares = [] :=
  Node.blockDeclares_of_isQuiet hwf (Slot.allAre_of_admits rfl hslot hlist hadmits)

/-- A loop over keys or values, with what remains of its left side. -/
theorem Node.blockDeclares_hoistOver {form : Form} (hshape : form.shape = Form.forInStmt.shape)
    (hform : form ≠ .list ∧ form ≠ .block) {span : Span} {left right body : Node}
    (hwf : (Node.mk form span [left, right, body]).isWellFormed = true)
    (hlexical : body.hoist.isLexicalDecl = body.isLexicalDecl)
    (hbody : body.hoist.blockDeclares = body.blockDeclares.map (List.filter (·.1.isBlockScoped))) :
    (Node.mk form span [left.hoistLeft, right, body.hoist]).blockDeclares =
      (Node.mk form span [left, right, body]).blockDeclares.map
      (List.filter (·.1.isBlockScoped)) := by
  obtain ⟨hfill, hparts⟩ := Node.isWellFormed_mk.mp hwf
  have hfill := hfill.resolve_left hform.1
  rw [hshape] at hfill
  simp only [Form.shape, Shape.admits, fillSlots, Bool.and_true, Bool.and_eq_true] at hfill
  have hleft := Node.headsFor_hoistLeft (hparts left (by simp)) hfill.1
  refine Node.blockDeclares_mk_map (Node.isBlockLoop_congr ?_) (fun e => absurd e hform.2) ?_
  · exact .cons hleft.lexical (.cons rfl (.cons hlexical .nil))
  simp only [blockDeclaresIn, List.append_nil, hbody,
    Node.blockDeclares_of_admits hleft.wellFormed hleft.admits rfl (by decide),
    Node.blockDeclares_of_admits (hparts left (by simp)) hfill.1 rfl (by decide),
    Node.blockDeclares_of_admits (hparts right (by simp)) hfill.2.1 rfl (by decide),
    List.nil_append]

/-- Hoisting leaves the `let` and `const` of each block, and nothing else. -/
theorem Node.blockDeclares_hoist {node : Node} (hwf : node.isWellFormed = true) :
    node.hoist.blockDeclares = node.blockDeclares.map (List.filter (·.1.isBlockScoped)) := by
  induction node using Node.inductionOn with
  | step form span parts ih =>
      have hwfParts : ∀ part ∈ parts, part.isWellFormed = true :=
        fun part hmem => Node.isWellFormed_part hwf hmem
      have hlexical : ∀ part ∈ parts, part.hoist.isLexicalDecl = part.isLexicalDecl :=
        fun part hmem => (Node.HoistsTo.hoist (hwfParts part hmem)).lexical
      unfold Node.hoist
      split
      · next hclosure =>
        rw [Node.blockDeclares_of_isClosure hclosure]
        rfl
      split
      · next declare declarators _ =>
        rw [Node.blockDeclares_of_isQuiet hwf rfl]
        unfold hoistVar
        split
        · next expr hexpr =>
          exact Node.blockDeclares_exprStmt (initAssignments?_eq_some hwfParts hexpr).1
        · rfl
      · next decl declare declSpan declarators _ =>
        have hdecl := Node.blockDeclares_of_isQuiet (hwfParts _ List.mem_cons_self) rfl
        rw [Node.blockDeclares_eq_nil (by simp) fun _ => List.forall_mem_singleton.mpr hdecl]
        rfl
      · next init test update body _ =>
        have hfill := (Node.isWellFormed_mk.mp hwf).1.resolve_left (by simp)
        simp only [Form.shape, Shape.admits, fillSlots, Bool.and_true, Bool.and_eq_true] at hfill
        have hinit := Node.headsFor_hoistInit (hwfParts init (by simp)) hfill.1
        have hbody := ih body (by simp) (hwfParts body (by simp))
        refine Node.blockDeclares_mk_map hinit.lexical (fun e => by cases e) ?_
        simp only [blockDeclaresIn, List.append_nil, hbody,
          Node.blockDeclares_of_admits hinit.wellFormed hinit.admits rfl (by decide),
          Node.blockDeclares_of_admits (hwfParts init (by simp)) hfill.1 rfl (by decide),
          Node.blockDeclares_of_admits (hwfParts test (by simp)) hfill.2.1 rfl (by decide),
          Node.blockDeclares_of_admits (hwfParts update (by simp)) hfill.2.2.1 rfl (by decide),
          List.nil_append]
      · next left right body _ =>
        exact Node.blockDeclares_hoistOver rfl (by simp) hwf (hlexical body (by simp))
          (ih body (by simp) (hwfParts body (by simp)))
      · next isAwait left right body _ =>
        have hshape : (Form.forOfStmt isAwait).shape = Form.forInStmt.shape := rfl
        exact Node.blockDeclares_hoistOver hshape (by simp) hwf (hlexical body (by simp))
          (ih body (by simp) (hwfParts body (by simp)))
      · have hinside : blockDeclaresIn (parts.map Node.hoist) =
            (blockDeclaresIn parts).map (List.filter (·.1.isBlockScoped)) :=
          blockDeclaresIn_map fun part hmem => ih part hmem (hwfParts part hmem)
        have hown : (parts.map Node.hoist).flatMap Node.declares =
            (parts.flatMap Node.declares).filter (·.1.isBlockScoped) := by
          rw [List.flatMap_map, List.filter_flatMap]
          exact List.flatMap_congr fun part hmem => Node.declares_hoist (hwfParts part hmem)
        rw [hoistIn_eq_map]
        split
        · next hholds =>
          have hloop : ∀ parts : List Node, (Node.mk form span parts).isBlockLoop = false := by
            intro parts
            obtain rfl | rfl := Form.eq_of_holdsStmts hholds
            · rfl
            · rfl
          refine Node.blockDeclares_mk_map (by rw [hloop, hloop]) (fun _ => ?_) ?_
          · rw [flatMap_declares_withoutEmpty, hown]
          · rw [blockDeclaresIn_withoutEmpty, hinside]
            exact wellFormed_map_hoist hwfParts
        · refine Node.blockDeclares_mk_map (Node.isBlockLoop_congr ?_) (fun _ => hown) hinside
          exact List.forall₂_map_right_iff.mpr (List.forall₂_same.mpr hlexical)

/-- Hoisting leaves what the statements of a list, and the blocks in it, declare by `let` or
`const`. -/
theorem stmtsDeclare_hoistStmts {stmts : List Node}
    (hwf : ∀ stmt ∈ stmts, stmt.isWellFormed = true) :
    stmtsDeclare (hoistStmts stmts) = (stmtsDeclare stmts).map
      (List.filter (·.1.isBlockScoped)) := by
  rw [stmtsDeclare, stmtsDeclare, hoistStmts, hoistIn_eq_map, flatMap_declares_withoutEmpty,
    blockDeclaresIn_withoutEmpty (wellFormed_map_hoist hwf), List.map_cons,
    blockDeclaresIn_map fun stmt hmem => Node.blockDeclares_hoist (hwf stmt hmem),
    List.flatMap_map, List.filter_flatMap]
  exact congrArg (· :: _) (List.flatMap_congr fun stmt hmem => Node.declares_hoist (hwf stmt hmem))

/-! ### The body of a function -/

theorem Node.bindingNames_useAliases (aliases : Aliases) (node : Node) :
    (node.useAliases aliases).bindingNames = node.bindingNames := by
  induction node using Node.inductionOn with
  | step form span parts ih =>
      unfold Node.useAliases
      split
      · rfl
      split
      · split
        · rfl
        · rfl
      · split
        · rfl
        · rfl
      · split
        · rfl
        · rfl
      · by_cases hident : ∃ role used optional, form = .ident role used optional
        · obtain ⟨role, used, optional, rfl⟩ := hident
          cases role with
          | _ => rfl
        · have hnode : (Node.mk form span (parts.map (·.useAliases aliases))).bindingNames =
              (Node.mk form span parts).bindingNames.map id :=
            Node.bindingNames_mk_map (fun role used optional e => hident ⟨role, used, optional, e⟩)
              fun part hmem => (ih part hmem).trans (List.map_id _).symm
          rw [useAliasesIn_eq_map, hnode, List.map_id]

/-- Naming `this` and `arguments` changes no declaration. -/
theorem Node.declares_useAliases (aliases : Aliases) (node : Node) :
    (node.useAliases aliases).declares = node.declares := by
  obtain ⟨form, span, parts⟩ := node
  by_cases h : ∃ kind declare, form = .varDecl kind declare
  · obtain ⟨kind, declare, rfl⟩ := h
    have hnames : bindingNamesOf (useAliasesIn aliases parts) = bindingNamesOf parts := by
      rw [useAliasesIn_eq_map, bindingNamesOf_eq_flatMap, bindingNamesOf_eq_flatMap,
        List.flatMap_map]
      exact List.flatMap_congr fun part _ => part.bindingNames_useAliases aliases
    rw [Node.declares, ← hnames]
    rfl
  · have hform : ∀ kind declare, form ≠ .varDecl kind declare := fun kind declare e =>
      h ⟨kind, declare, e⟩
    rw [Node.declares_eq_nil (.mk form span parts) hform]
    refine Node.declares_eq_nil _ ?_
    unfold Node.useAliases
    split
    · exact hform
    split
    · split
      · exact fun _ _ e => by cases e
      · exact hform
    · split
      · exact fun _ _ e => by cases e
      · exact hform
    · split
      · exact fun _ _ e => by cases e
      · exact hform
    · exact hform

theorem Node.blockDeclares_useAliases (aliases : Aliases) {node : Node}
    (hwf : node.isWellFormed = true) : (node.useAliases aliases).blockDeclares =
      node.blockDeclares := by
  induction node using Node.inductionOn with
  | step form span parts ih =>
      have hwfParts : ∀ part ∈ parts, part.isWellFormed = true :=
        fun part hmem => Node.isWellFormed_part hwf hmem
      have hquiet : ∀ after : Node, after.isWellFormed = true →
          (Node.mk form span parts).isQuiet = true →
          after.isQuiet = true → after.blockDeclares = (Node.mk form span parts).blockDeclares := by
        intro after hwfAfter hbefore hafter
        rw [Node.blockDeclares_of_isQuiet hwf hbefore,
          Node.blockDeclares_of_isQuiet hwfAfter hafter]
      unfold Node.useAliases
      split
      · rfl
      split
      · split
        · exact hquiet _ rfl rfl rfl
        · rfl
      · split
        · exact hquiet _ (Node.Stands.ident (.refl hwf)).wellFormed rfl rfl
        · rfl
      · split
        · exact hquiet _ rfl rfl rfl
        · rfl
      · rw [useAliasesIn_eq_map]
        have hinside : blockDeclaresIn (parts.map (·.useAliases aliases)) =
            (blockDeclaresIn parts).map id :=
          blockDeclaresIn_map fun part hmem =>
            (ih part hmem (hwfParts part hmem)).trans (List.map_id _).symm
        have hloop : (Node.mk form span (parts.map (·.useAliases aliases))).isBlockLoop =
            (Node.mk form span parts).isBlockLoop :=
          Node.isBlockLoop_congr (List.forall₂_map_right_iff.mpr (List.forall₂_same.mpr
            fun part hmem => (Node.Stands.useAliases aliases (hwfParts part hmem)).lexical))
        refine (Node.blockDeclares_mk_map hloop (fun _ => ?_) hinside).trans (List.map_id _)
        rw [List.flatMap_map]
        exact List.flatMap_congr fun part _ => part.declares_useAliases aliases

end LoopLowering
