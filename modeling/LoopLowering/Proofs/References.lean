/-
What the body of a loop refers to, after it became a function.

A name that is written in a tree refers to something around the tree, unless a scope of the tree
binds it, and `Node.references` lists the places in the source where that is so.  Hoisting leaves
these places for the names that no `var` declares, flattening renames the blocks' own variables
out of the way of the loop variables, and a parameter with a new name takes over all references to
its variable.  So the function refers to its parameters in the places where the body refers to the
loop variables.

Types are left out.  A program does not refer to anything with them when it runs, and a type that is
written at a `var` is lost when the declaration is hoisted.  Generated code is left out as well: it
stands in no place of the source, and copying a parameter back mentions the parameter.
-/
import LoopLowering.Proofs.Apart
import LoopLowering.Proofs.BodyVars
import LoopLowering.Proofs.Equivariance

namespace LoopLowering

/-! ### References -/

/-- Whether a node of this form is a type, or writes one down. -/
def Form.isType : Form → Bool
  | .ascription | .keywordType _ | .typeReference | .arrayType => true
  | _ => false

mutual

/-- Where a name is written in a tree and no scope of the tree binds it.  Types are left out, and
so is generated code. -/
def Node.references (name : String) : Node → List Span
  | .mk (.ident _ used _) span _ => if used = name ∧ span ≠ .generated then [span] else []
  | .mk form span parts =>
    if form.isType = true ∨ name ∈ (Node.mk form span parts).scopeNames then []
      else referencesIn name parts

/-- Where a name is written in a list of trees and no scope of them binds it. -/
def referencesIn (name : String) : List Node → List Span
  | [] => []
  | node :: nodes => node.references name ++ referencesIn name nodes

end

/-- Where a name is written in a statement list that does not declare it. -/
def stmtReferences (name : String) (stmts : List Node) : List Span :=
  if name ∈ lexicalNamesOf stmts then [] else referencesIn name stmts

theorem referencesIn_eq_flatMap (name : String) (nodes : List Node) :
    referencesIn name nodes = nodes.flatMap (Node.references name) := by
  induction nodes with
  | nil => rfl
  | cons node nodes ih => rw [referencesIn, ih, List.flatMap_cons]

section

variable {name : String} {form : Form} {span : Span} {parts : List Node}

theorem Node.references_ident {role : Role} {used : String} {optional : Bool} :
    (Node.mk (.ident role used optional) span parts).references name =
      if used = name ∧ span ≠ .generated then [span] else [] := rfl

/-- An identifier with another name. -/
theorem Node.references_ident_of_ne {role : Role} {used : String} {optional : Bool}
    (h : used ≠ name) :
    (Node.mk (.ident role used optional) span parts).references name = [] :=
  if_neg fun hused => h hused.1

theorem Node.references_mk (hident : ∀ role used optional, form ≠ .ident role used optional) :
    (Node.mk form span parts).references name =
      if form.isType = true ∨ name ∈ (Node.mk form span parts).scopeNames then []
      else referencesIn name parts := by
  unfold Node.references
  split
  · next heq =>
    cases heq
    exact absurd rfl (hident _ _ _)
  · next heq =>
    cases heq
    rfl

/-- A node that opens no scope and is no name. -/
theorem Node.references_plain (hident : ∀ role used optional, form ≠ .ident role used optional)
    (htype : form.isType = false) (hscope : (Node.mk form span parts).scopeNames = []) :
    (Node.mk form span parts).references name = referencesIn name parts := by
  rw [Node.references_mk hident, htype, hscope, if_neg (by simp)]

/-- A node around a single part that opens no scope and is no name. -/
theorem Node.references_single {part : Node}
    (hident : ∀ role used optional, form ≠ .ident role used optional)
    (htype : form.isType = false) (hscope : (Node.mk form span [part]).scopeNames = []) :
    (Node.mk form span [part]).references name = part.references name := by
  rw [Node.references_plain hident htype hscope, referencesIn, referencesIn, List.append_nil]

theorem Node.references_block {stmts : List Node} :
    (Node.mk .block span stmts).references name = stmtReferences name stmts := by
  rw [Node.references_mk (by simp), stmtReferences]
  simp only [Form.isType, Bool.false_eq_true, false_or, Node.scopeNames]

theorem Node.scopeNames_ident {role : Role} {used : String} {optional : Bool} :
    (Node.mk (.ident role used optional) span parts).scopeNames = [] := by
  cases role with
  | _ => rfl

/-- The same node around parts that refer to what its parts did. -/
theorem Node.references_congr {parts' : List Node}
    (hscope : name ∈ (Node.mk form span parts').scopeNames ↔
      name ∈ (Node.mk form span parts).scopeNames)
    (hparts : referencesIn name parts' = referencesIn name parts) :
    (Node.mk form span parts').references name = (Node.mk form span parts).references name := by
  by_cases hident : ∃ role used optional, form = .ident role used optional
  · obtain ⟨role, used, optional, rfl⟩ := hident
    rfl
  · have hident : ∀ role used optional, form ≠ .ident role used optional :=
      fun role used optional e => hident ⟨role, used, optional, e⟩
    rw [Node.references_mk hident, Node.references_mk hident, hparts]
    simp only [hscope]

theorem stmtReferences_congr {stmts others : List Node}
    (hlexical : name ∈ lexicalNamesOf others ↔ name ∈ lexicalNamesOf stmts)
    (h : referencesIn name others = referencesIn name stmts) :
    stmtReferences name others = stmtReferences name stmts := by
  rw [stmtReferences, stmtReferences, h]
  simp only [hlexical]

theorem referencesIn_congr {nodes others : List Node}
    (h : List.Forall₂ (fun a b => b.references name = a.references name) nodes others) :
    referencesIn name others = referencesIn name nodes := by
  rw [referencesIn_eq_flatMap, referencesIn_eq_flatMap]
  exact flatMap_congr_of_forall₂ h

theorem referencesIn_map {f : Node → Node} {nodes : List Node}
    (h : ∀ node ∈ nodes, (f node).references name = node.references name) :
    referencesIn name (nodes.map f) = referencesIn name nodes :=
  referencesIn_congr (List.forall₂_map_right_iff.mpr (List.forall₂_same.mpr h))

theorem referencesIn_append (nodes others : List Node) :
    referencesIn name (nodes ++ others) = referencesIn name nodes ++ referencesIn name others := by
  simp [referencesIn_eq_flatMap]

/-- What a tree refers to is written in it. -/
theorem Node.references_eq_nil {node : Node} (h : name ∉ node.names) :
    node.references name = [] := by
  induction node using Node.inductionOn with
  | step form span parts ih =>
      by_cases hident : ∃ role used optional, form = .ident role used optional
      · obtain ⟨role, used, optional, rfl⟩ := hident
        refine Node.references_ident_of_ne ?_
        rintro rfl
        exact h (by simp [Node.names, Form.names])
      · rw [Node.references_mk fun role used optional e => hident ⟨role, used, optional, e⟩,
          referencesIn_eq_flatMap]
        refine ite_eq_left_iff.mpr fun _ => List.flatMap_eq_nil_iff.mpr fun part hmem => ?_
        exact ih part hmem fun hname => h (Node.names_subset_of_mem hmem hname)

theorem Node.references_of_isAbsent {node : Node} (hwf : node.isWellFormed = true)
    (h : node.isAbsent = true) : node.references name = [] := by
  obtain ⟨span, rfl⟩ := Node.eq_absent_of_isAbsent hwf h
  rfl

end

/-! ### Renaming -/

/-- What a tree refers to after a renaming, if `read` tells where it did before. -/
def referencesAfter (old new name : String) (read : String → List Span) : List Span :=
  if name = new then read old else if name = old then [] else read name

section

variable {old new name : String}

theorem referencesAfter_append (read more : String → List Span) :
    referencesAfter old new name read ++ referencesAfter old new name more =
      referencesAfter old new name fun other => read other ++ more other := by
  unfold referencesAfter
  split_ifs
  · rfl
  · rfl
  · rfl

theorem referencesIn_map_after {f : Node → Node} {nodes : List Node}
    (h : ∀ node ∈ nodes, (f node).references name =
      referencesAfter old new name fun other => node.references other) :
    referencesIn name (nodes.map f) = referencesAfter old new name fun other =>
      referencesIn other nodes := by
  induction nodes with
  | nil => simp [referencesIn, referencesAfter]
  | cons node nodes ih =>
      rw [List.forall_mem_cons] at h
      rw [List.map_cons, referencesIn, h.1, ih h.2, referencesAfter_append]
      rfl

/-- An identifier that is renamed if it has the old name. -/
theorem Node.references_ident_after (role : Role) (optional : Bool)
    (parts : List Node) {role' : Role} {used : String} {optional' : Bool} {span : Span}
    {parts' : List Node} (hused : used ≠ new) :
    (Node.mk (.ident role' (if used = old then new else used) optional')
      span parts').references name =
      referencesAfter old new name fun other =>
        (Node.mk (.ident role used optional) span parts).references other := by
  simp only [referencesAfter, Node.references_ident]
  grind

/-- A scope of the old name is left alone. -/
theorem Node.references_shadowed {form : Form} {span : Span} {parts : List Node}
    (hnew : new ∉ (Node.mk form span parts).names)
    (hscope : old ∈ (Node.mk form span parts).scopeNames) :
    (Node.mk form span parts).references name =
      referencesAfter old new name fun other => (Node.mk form span parts).references other := by
  have hident : ∀ role used optional, form ≠ .ident role used optional := by
    rintro role used optional rfl
    rw [Node.scopeNames_ident] at hscope
    cases hscope
  have hold : (Node.mk form span parts).references old = [] := by
    rw [Node.references_mk hident, if_pos (Or.inr hscope)]
  rw [referencesAfter]
  split_ifs with hisNew hisOld
  · rw [hisNew, hold, Node.references_eq_nil hnew]
  · rw [hisOld, hold]
  · rfl

/-- The renamed parts of a node that is no name, and no scope of the old one. -/
theorem Node.references_mk_after {form : Form} {span : Span} {parts parts' : List Node}
    (hident : ∀ role used optional, form ≠ .ident role used optional)
    (hnew : new ∉ (Node.mk form span parts).names)
    (hold : old ∉ (Node.mk form span parts).scopeNames)
    (hscopes : (Node.mk form span parts').scopeNames = (Node.mk form span parts).scopeNames)
    (hparts : referencesIn name parts' = referencesAfter old new name fun other =>
      referencesIn other parts) :
    (Node.mk form span parts').references name =
      referencesAfter old new name fun other => (Node.mk form span parts).references other := by
  rw [Node.references_mk hident, hscopes, hparts, referencesAfter, referencesAfter]
  by_cases hisNew : name = new
  · have hbound : name ∉ (Node.mk form span parts).scopeNames :=
      fun hmem => hnew (hisNew ▸ Node.scopeNames_subset _ hmem)
    rw [if_pos hisNew, if_pos hisNew, Node.references_mk hident]
    simp only [hbound, hold]
  · rw [if_neg hisNew, if_neg hisNew]
    by_cases hisOld : name = old
    · rw [if_pos hisOld, if_pos hisOld, ite_self]
    · rw [if_neg hisOld, if_neg hisOld, Node.references_mk hident]

/-- The old name in a pattern, `{name}` or `{name = value}`, keeps its property. -/
theorem Node.references_bindShort_after {optional : Bool} {span keySpan : Span}
    {ascription : List Node} {value : Node} (hnew : old ≠ new) (hwf : value.isWellFormed = true)
    (hvalue : (value.substitute old new).references name =
      referencesAfter old new name fun other => value.references other) :
    (Node.mk .keyValuePat span [.mk (.propName old) keySpan [],
        if value.isAbsent then .mk (.ident .bind new optional) keySpan ascription
        else .mk .assignPat span [.mk (.ident .bind new optional) keySpan ascription,
          value.substitute old new]]).references name =
      referencesAfter old new name fun other => (Node.mk .assignPatProp span
        [.mk (.ident .bind old optional) keySpan ascription, value]).references other := by
  have hkey : (Node.mk (.propName old) keySpan []).references name = [] := rfl
  have hbefore : ∀ other, (Node.mk .assignPatProp span
      [.mk (.ident .bind old optional) keySpan ascription, value]).references other =
        (Node.mk (.ident .bind old optional) keySpan ascription).references other ++
          value.references other := by
    intro other
    rw [Node.references_plain (by simp) rfl rfl]
    simp only [referencesIn, List.append_nil]
  have hbound := @Node.references_ident_after old new name .bind optional ascription
    .bind old optional keySpan ascription hnew
  rw [if_pos rfl] at hbound
  have hafter : (if value.isAbsent then Node.mk (.ident .bind new optional) keySpan ascription
      else .mk .assignPat span [.mk (.ident .bind new optional) keySpan ascription,
        value.substitute old new]).references name =
      (Node.mk (.ident .bind new optional) keySpan ascription).references name ++
        (value.substitute old new).references name := by
    split
    · next habsent =>
      obtain ⟨valueSpan, rfl⟩ := Node.eq_absent_of_isAbsent hwf habsent
      exact (List.append_nil _).symm
    · rw [Node.references_plain (by simp) rfl rfl, referencesIn, referencesIn,
        referencesIn, List.append_nil]
  rw [Node.references_plain (by simp) rfl rfl, referencesIn, referencesIn, referencesIn,
    hkey, hafter, hvalue, hbound, referencesAfter_append]
  simp only [hbefore, List.nil_append, List.append_nil]

/-- Renaming replaces the old name by the new one in what a tree refers to. -/
theorem Node.references_substitute {tree : Node} (hwf : tree.isWellFormed = true)
    (hnew : new ∉ tree.names) :
    (tree.substitute old new).references name =
      referencesAfter old new name fun other => tree.references other := by
  induction tree using Node.inductionOn with
  | step form span parts ih =>
      have hpartsNew : ∀ part ∈ parts, new ∉ part.names :=
        fun part hmem hname => hnew (Node.names_subset_of_mem hmem hname)
      have hpartsWf : ∀ part ∈ parts, part.isWellFormed = true :=
        fun part hmem => Node.isWellFormed_part hwf hmem
      by_cases hscope : old ∈ (Node.mk form span parts).scopeNames
      · rw [Node.substitute_of_mem_scopeNames hscope]
        exact Node.references_shadowed hnew hscope
      have hscopes : (Node.mk form span (substituteIn old new parts)).scopeNames =
          (Node.mk form span parts).scopeNames := by
        refine (Node.BindsLike.scopeNames ((Node.Renames.substituteIn hpartsWf hpartsNew).imp
          fun _ _ h => h.binds)).same ?_
        simpa using ⟨hscope, fun hmem => hnew (Node.scopeNames_subset _ hmem)⟩
      have hnode : (∀ role used optional, form ≠ .ident role used optional) →
          (Node.mk form span (substituteIn old new parts)).references name =
            referencesAfter old new name fun other =>
              (Node.mk form span parts).references other := by
        intro hident
        refine Node.references_mk_after hident hnew hscope hscopes ?_
        rw [substituteIn_eq_map]
        exact referencesIn_map_after fun part hmem => ih part hmem (hpartsWf part hmem)
          (hpartsNew part hmem)
      unfold Node.substitute
      rw [if_neg hscope]
      split
      · next used optional =>
        have hused : used ≠ new := by
          rintro rfl
          exact hnew (by simp [Node.names, Form.names])
        rw [← Node.references_ident_after .short optional _ hused]
        split
        · next hold =>
          rw [Node.keyValue, Node.references_plain (by simp) rfl rfl]
          exact List.append_nil _
        · rfl
      · next role used optional _ =>
        refine Node.references_ident_after role optional _ ?_
        rintro rfl
        exact hnew (by simp [Node.names, Form.names])
      · next used optional keySpan ascription value =>
        split
        · next hold =>
          subst hold
          refine Node.references_bindShort_after ?_ (hpartsWf value (by simp))
            (ih value (by simp) (hpartsWf value (by simp)) (hpartsNew value (by simp)))
          rintro rfl
          exact hnew (by simp [Node.names, namesOf, Form.names])
        · next hold =>
          rw [← hnode (by simp), substituteIn,
            Node.substitute_binding optional keySpan ascription hold]
          rfl
      · next hident _ => exact hnode hident

theorem Node.references_rename {tree : Node} (hwf : tree.isWellFormed = true)
    (hnew : new ∉ tree.names) :
    (tree.rename old new).references name = referencesAfter old new name fun other =>
      tree.references other := by
  unfold Node.rename
  split
  · next hsame =>
    subst hsame
    unfold referencesAfter
    split_ifs with hname
    · rw [hname]
    · rfl
  · exact Node.references_substitute hwf hnew

theorem referencesIn_rename {stmts : List Node} (hwf : ∀ stmt ∈ stmts, stmt.isWellFormed = true)
    (hnew : ∀ stmt ∈ stmts, new ∉ stmt.names) : referencesIn name (stmts.map (·.rename old new)) =
      referencesAfter old new name fun other => referencesIn other stmts :=
  referencesIn_map_after fun stmt hmem => Node.references_rename (hwf stmt hmem) (hnew stmt hmem)

/-- A class or a function that is declared has a title. -/
theorem Node.exists_title {form : Form} {span : Span} {parts : List Node}
    (hshape : form.shape = .fixed [.one [.title], .one [.function]] ∨
      form.shape = .fixed [.one [.title], .one [.classBody]])
    (hwf : (Node.mk form span parts).isWellFormed = true) :
    ∃ used optional titleSpan titleParts body,
      parts = [.mk (.ident .title used optional) titleSpan titleParts, body] := by
  have hlist : form ≠ .list := by
    rintro rfl
    rcases hshape with h | h <;> cases h
  have hadmits := (Node.isWellFormed_mk.mp hwf).1.resolve_left hlist
  have hslots : ∃ slot, fillSlots [.one [.title], slot] parts = true := by
    rcases hshape with h | h
    · exact ⟨_, by rwa [h] at hadmits⟩
    · exact ⟨_, by rwa [h] at hadmits⟩
  obtain ⟨slot, hfill⟩ := hslots
  obtain ⟨title, _, rfl, htitle, hrest⟩ := exists_of_fillSlots_cons hfill
  obtain ⟨body, _, rfl, -, hnil⟩ := exists_of_fillSlots_cons hrest
  obtain rfl := eq_nil_of_fillSlots_nil hnil
  obtain ⟨used, optional, titleSpan, titleParts, rfl⟩ :=
    Node.eq_title_of_category (by simpa [Slot.admits] using htitle)
  exact ⟨used, optional, titleSpan, titleParts, body, rfl⟩

/-- Renaming changes what a node is only in that it writes shorthands out. -/
theorem Node.test_substitute {test : Form → Bool}
    (hname : ∀ role used optional, test (.ident role used optional) = false)
    (hkey : test .keyValue = false) (hprop : test .assignPatProp = false)
    (hpat : test .keyValuePat = false) (node : Node) : test (node.substitute old new).form =
      test node.form := by
  obtain ⟨form, span, parts⟩ := node
  unfold Node.substitute
  split
  · rfl
  split
  · split
    · exact hkey.trans (hname _ _ _).symm
    · rfl
  · exact (hname _ _ _).trans (hname _ _ _).symm
  · split
    · exact hpat.trans hprop.symm
    · rfl
  · rfl

theorem Node.declaresInBlock_substitute {node : Node} (h : node.form.declaresInBlock = false) :
    (node.substitute old new).form.declaresInBlock = false :=
  (Node.test_substitute (fun _ _ _ => rfl) rfl rfl rfl node).trans h

theorem Node.blockScopedNames_substitute (old new : String) (node : Node) :
    (node.substitute old new).blockScopedNames =
      node.blockScopedNames.map fun used => if used = old then new else used := by
  rw [Node.blockScopedNames_eq_letsOf, Node.blockScopedNames_eq_letsOf,
    Node.declares_substitute, letsOf_map]

/-- Renaming gives what a statement declares in the block around it the new name. -/
theorem Node.lexicalNames_substitute {node : Node} (hwf : node.isWellFormed = true) :
    (node.substitute old new).lexicalNames =
      node.lexicalNames.map fun used => if used = old then new else used := by
  obtain ⟨form, span, parts⟩ := node
  cases hform : form.declaresInBlock with
  | false =>
      have hnode : (Node.mk form span parts).form.declaresInBlock = false := hform
      rw [Node.lexicalNames_eq_nil hnode,
        Node.lexicalNames_eq_nil (Node.declaresInBlock_substitute hnode)]
      rfl
  | true =>
      cases form with
      | varDecl kind declare => cases kind with
        | var => cases hform
        | lexical constant =>
            exact Node.blockScopedNames_substitute old new
              (.mk (.varDecl (.lexical constant) declare) span parts)
      | functionDecl | classDecl =>
          obtain ⟨used, optional, titleSpan, titleParts, body, rfl⟩ :=
            Node.exists_title (by simp [Form.shape]) hwf
          rfl
      | _ => cases hform

/-- Renaming gives what a statement list declares for itself the new name. -/
theorem lexicalNamesOf_rename (old new : String) {stmts : List Node}
    (hwf : ∀ stmt ∈ stmts, stmt.isWellFormed = true) :
    lexicalNamesOf (stmts.map (·.rename old new)) =
      (lexicalNamesOf stmts).map fun used => if used = old then new else used := by
  rw [lexicalNamesOf, lexicalNamesOf, List.flatMap_map, List.map_flatMap]
  refine List.flatMap_congr fun stmt hmem => ?_
  unfold Node.rename
  split
  · next hsame =>
    subst hsame
    refine (List.map_id'' (fun used => ?_) _).symm
    split
    · next hused => exact hused.symm
    · rfl
  · exact Node.lexicalNames_substitute (hwf stmt hmem)

/-- Renaming replaces the old name by the new one in what a statement list refers to. -/
theorem stmtReferences_rename {stmts : List Node} (hwf : ∀ stmt ∈ stmts, stmt.isWellFormed = true)
    (hnew : ∀ stmt ∈ stmts, new ∉ stmt.names) : stmtReferences name (stmts.map (·.rename old new)) =
      referencesAfter old new name fun other => stmtReferences other stmts := by
  have hdeclared : new ∉ lexicalNamesOf stmts := by
    intro hmem
    obtain ⟨stmt, hstmt, hname⟩ := List.mem_flatMap.mp hmem
    exact hnew stmt hstmt (stmt.lexicalNames_subset hname)
  have hmem : name ∈ lexicalNamesOf (stmts.map (·.rename old new)) ↔
      if name = new then old ∈ lexicalNamesOf stmts else name ≠ old ∧
      name ∈ lexicalNamesOf stmts := by
    rw [lexicalNamesOf_rename old new hwf, List.mem_map]
    grind
  rw [stmtReferences, referencesIn_rename hwf hnew, referencesAfter, referencesAfter]
  by_cases hisNew : name = new
  · rw [if_pos hisNew] at hmem
    rw [if_pos hisNew, if_pos hisNew, stmtReferences]
    simp only [hmem]
  · rw [if_neg hisNew] at hmem
    rw [if_neg hisNew, if_neg hisNew]
    by_cases hisOld : name = old
    · rw [if_pos hisOld, if_pos hisOld, ite_self]
    · rw [if_neg hisOld, if_neg hisOld, stmtReferences]
      simp only [hmem.trans (and_iff_right hisOld)]

end

/-! ### Hoisting -/

section

variable {name : String} {span : Span}

/-- What remains of a declarator of another name refers to what its initialiser does. -/
theorem Node.referencesIn_initAssignment? {declarator : Node} (hwf : declarator.isWellFormed = true)
    (hnames : declarator.declaresName = true) (hname : name ∉ declarator.bindingNames) :
    referencesIn name declarator.initAssignment?.toList = declarator.references name := by
  obtain ⟨definite, span, used, optional, bindSpan, ascription, init, rfl⟩ :=
    Node.exists_of_declaresName hwf hnames
  have hused : used ≠ name := fun e => hname (by simp [Node.bindingNames, e])
  have hinit : (Node.mk (.declarator definite) span
      [.mk (.ident .bind used optional) bindSpan ascription, init]).references name =
        init.references name := by
    rw [Node.references_plain (by simp) rfl rfl]
    simp [referencesIn, Node.references_ident, hused]
  rw [hinit, Node.initAssignment?]
  split
  · next habsent =>
    exact (Node.references_of_isAbsent (Node.isWellFormed_part hwf (by simp)) habsent).symm
  · rw [Option.toList_some, referencesIn, referencesIn, List.append_nil, Node.assignTo,
      Node.references_plain (by simp) rfl rfl]
    simp [referencesIn, Node.references_ident, hused]

theorem referencesIn_initAssignments? {declarators : List Node}
    (hwf : ∀ declarator ∈ declarators, declarator.isWellFormed = true)
    (hnames : ∀ declarator ∈ declarators, declarator.declaresName = true)
    (hname : name ∉ bindingNamesOf declarators) :
    referencesIn name (initAssignments? span declarators).toList =
      referencesIn name declarators := by
  have hall : referencesIn name (declarators.filterMap Node.initAssignment?) =
      referencesIn name declarators := by
    induction declarators with
    | nil => rfl
    | cons declarator declarators ih =>
        rw [List.forall_mem_cons] at hwf hnames
        rw [bindingNamesOf, List.mem_append, not_or] at hname
        rw [referencesIn, ← ih hwf.2 hnames.2 hname.2,
          ← Node.referencesIn_initAssignment? hwf.1 hnames.1 hname.1, ← referencesIn_append,
          List.filterMap_cons]
        cases declarator.initAssignment? with
        | none => rfl
        | some expr => rfl
  rw [← hall]
  unfold initAssignments? Node.sequence?
  split
  · next heq => rw [heq]; rfl
  · next heq => rw [heq]; rfl
  · rw [Option.toList_some, referencesIn, referencesIn, List.append_nil,
      Node.references_plain (by simp) rfl rfl]

theorem Node.references_hoistVar {declarators : List Node}
    (hwf : ∀ declarator ∈ declarators, declarator.isWellFormed = true)
    (hnames : ∀ declarator ∈ declarators, declarator.declaresName = true)
    (hname : name ∉ bindingNamesOf declarators) :
    (hoistVar span declarators).references name = referencesIn name declarators := by
  rw [← referencesIn_initAssignments? hwf hnames hname, hoistVar]
  split
  · next expr heq =>
    rw [heq, Node.exprStmt, Node.references_plain (by simp) rfl rfl]
    rfl
  · next heq =>
    rw [heq]
    rfl

theorem Node.references_hoistInit {init : Node} (hwf : init.isWellFormed = true)
    (hnamed : init.VarsNamed) (hname : name ∉ init.varNames) :
    init.hoistInit.references name = init.references name := by
  unfold Node.hoistInit
  split
  · next declare span declarators =>
    have hall := @referencesIn_initAssignments? name span declarators
      (fun declarator hmem => Node.isWellFormed_part hwf hmem) hnamed.declarators hname
    rw [Node.references_plain (by simp) rfl rfl, ← hall]
    cases initAssignments? span declarators with
    | none => rfl
    | some expr => exact (List.append_nil _).symm
  · rfl

theorem Node.references_hoistLeft {left : Node} (hwf : left.isWellFormed = true)
    (hbare : left.isBareDecl = true) : left.hoistLeft.references name = left.references name := by
  unfold Node.hoistLeft
  split
  · next declare span definite declSpan pattern init =>
    have hdeclarator : (Node.declarator definite declSpan pattern init).isWellFormed = true :=
      Node.isWellFormed_part hwf (by simp)
    have hinit := @Node.references_of_isAbsent name init
        (Node.isWellFormed_part hdeclarator (by simp)) hbare
    rw [Node.references_plain (by simp) rfl rfl, referencesIn, referencesIn,
      Node.references_plain (by simp) rfl rfl, referencesIn, referencesIn, referencesIn, hinit]
    simp
  · rfl

theorem referencesIn_withoutEmpty {stmts : List Node}
    (hwf : ∀ stmt ∈ stmts, stmt.isWellFormed = true) :
    referencesIn name (withoutEmpty stmts) = referencesIn name stmts := by
  rw [referencesIn_eq_flatMap, referencesIn_eq_flatMap]
  refine flatMap_withoutEmpty fun stmt hmem hform => ?_
  obtain ⟨form, span, parts⟩ := stmt
  obtain rfl : form = .empty := hform
  obtain rfl := Node.parts_eq_nil rfl (by simp) (hwf _ hmem)
  rfl

theorem Node.references_hoistOver {form : Form} {left right body : Node}
    (hform : form = .forInStmt ∨ ∃ isAwait, form = .forOfStmt isAwait)
    (hwf : (Node.mk form span [left, right, body]).isWellFormed = true)
    (hbare : (Node.mk form span [left, right, body]).headIsBare = true)
    (hbody : body.hoist.references name = body.references name) :
    (Node.mk form span [left.hoistLeft, right, body.hoist]).references name =
      (Node.mk form span [left, right, body]).references name := by
  have hleft : left.isWellFormed = true := Node.isWellFormed_part hwf (by simp)
  have hscope := Node.blockScopedNames_hoistLeft
    (Node.headsFor_hoistLeft hleft (Node.overStmt_slots hform hwf).1).lexical
  refine Node.references_congr ?_ (referencesIn_congr (.cons ?_ (.cons rfl (.cons hbody .nil))))
  · rcases hform with rfl | ⟨isAwait, rfl⟩
    · exact iff_of_eq (congrArg (name ∈ ·) hscope)
    · exact iff_of_eq (congrArg (name ∈ ·) hscope)
  · rcases hform with rfl | ⟨isAwait, rfl⟩
    · exact Node.references_hoistLeft hleft hbare
    · exact Node.references_hoistLeft hleft hbare

/-- Hoisting leaves all references but those to the names that are hoisted. -/
theorem Node.references_hoist {node : Node} (hwf : node.isWellFormed = true)
    (hbare : node.everywhere Node.headIsBare = true) (hnamed : node.VarsNamed)
    (hname : name ∉ node.varNames) : node.hoist.references name = node.references name := by
  induction node using Node.inductionOn with
  | step form span parts ih =>
      have hpartWf : ∀ part ∈ parts, part.isWellFormed = true :=
        fun part hmem => Node.isWellFormed_part hwf hmem
      cases hclosure : form.isClosure with
      | true =>
          unfold Node.hoist
          rw [if_pos hclosure]
      | false =>
          have hparts : ∀ part ∈ parts, part.hoist.references name = part.references name :=
            fun part hmem =>
            ih part hmem (hpartWf part hmem) ((Node.everywhere_mk.mp hbare).2 part hmem)
              (hnamed.part hclosure hmem) (Node.notMem_varNames_part hwf hclosure hname hmem)
          have hhead := (Node.everywhere_mk.mp hbare).1
          unfold Node.hoist
          rw [hclosure]
          simp only [Bool.false_eq_true, if_false]
          split
          · rw [Node.references_hoistVar hpartWf hnamed.declarators hname,
              Node.references_plain (by simp) rfl rfl]
          · rfl
          · next init test update body =>
            obtain ⟨hinit, -⟩ := Node.forStmt_slots hwf
            have hlexical := (Node.headsFor_hoistInit (hpartWf init (by simp)) hinit).lexical
            refine Node.references_congr ?_ (referencesIn_congr (.cons ?_
              (.cons rfl (.cons rfl (.cons (hparts body (by simp)) .nil)))))
            · exact iff_of_eq (congrArg (name ∈ ·) (Node.blockScopedNames_hoistInit hlexical))
            · exact Node.references_hoistInit (hpartWf init (by simp)) (hnamed.part rfl (by simp))
                (Node.notMem_varNames_part hwf rfl hname (by simp))
          · exact Node.references_hoistOver (Or.inl rfl) hwf hhead (hparts _ (by simp))
          · exact Node.references_hoistOver (Or.inr ⟨_, rfl⟩) hwf hhead (hparts _ (by simp))
          · next hfor hforIn hforOf =>
            have hreads := Node.eq_catchClause_of_readsFirst hwf hfor hforIn hforOf
            have hscope := (Node.reads_hoistIn hclosure hreads hwf).2
            have hafter : referencesIn name (hoistIn parts) = referencesIn name parts := by
              rw [hoistIn_eq_map]
              exact referencesIn_map hparts
            split
            · next hholds =>
              have hafterWf : ∀ stmt ∈ hoistIn parts, stmt.isWellFormed = true := by
                rw [hoistIn_eq_map]
                exact wellFormed_map_hoist hpartWf
              refine Node.references_congr ?_ ((referencesIn_withoutEmpty hafterWf).trans hafter)
              rw [← hscope]
              obtain rfl | rfl := Form.eq_of_holdsStmts hholds
              · exact iff_of_eq (congrArg (name ∈ ·) (lexicalNamesOf_withoutEmpty _))
              · exact Iff.rfl
            · exact Node.references_congr (iff_of_eq (congrArg (name ∈ ·) hscope)) hafter

theorem stmtReferences_hoistStmts {stmts : List Node}
    (hwf : ∀ stmt ∈ stmts, stmt.isWellFormed = true)
    (hbare : ∀ stmt ∈ stmts, stmt.everywhere Node.headIsBare = true)
    (hnamed : ∀ stmt ∈ stmts, stmt.VarsNamed) (hname : name ∉ varNamesOf stmts) :
    stmtReferences name (hoistStmts stmts) = stmtReferences name stmts := by
  have hafterWf : ∀ stmt ∈ hoistIn stmts, stmt.isWellFormed = true := by
    rw [hoistIn_eq_map]
    exact wellFormed_map_hoist hwf
  rw [varNamesOf_eq_flatMap, List.mem_flatMap, not_exists] at hname
  unfold stmtReferences hoistStmts
  rw [lexicalNamesOf_withoutEmpty, lexicalNamesOf_hoistIn hwf, referencesIn_withoutEmpty hafterWf,
    hoistIn_eq_map, referencesIn_map fun stmt hmem => Node.references_hoist (hwf stmt hmem)
      (hbare stmt hmem) (hnamed stmt hmem) fun hvar => hname stmt ⟨hmem, hvar⟩]

end

/-! ### Flattening -/

/-- A list made of a statement list refers to a name in the places where the list does, and
declares it by `var` only if the list does. -/
structure KeepsName (name : String) (stmts others : List Node) : Prop where
  references : stmtReferences name others = stmtReferences name stmts
  vars : name ∈ varNamesOf others → name ∈ varNamesOf stmts

/-- The same of two trees. -/
structure Node.KeepsName (name : String) (a b : Node) : Prop where
  references : b.references name = a.references name
  vars : name ∈ b.varNames → name ∈ a.varNames

theorem KeepsName.trans {name : String} {stmts others more : List Node}
    (h : KeepsName name stmts others) (hmore : KeepsName name others more) :
    KeepsName name stmts more :=
  ⟨hmore.references.trans h.references, h.vars ∘ hmore.vars⟩

section

variable {name : String} {clashes : String → Bool} {names : Registry}

theorem Node.KeepsName.mem_varNamesOf {nodes others : List Node}
    (h : List.Forall₂ (Node.KeepsName name) nodes others) (hmem : name ∈ varNamesOf others) :
    name ∈ varNamesOf nodes := by
  rw [varNamesOf_eq_flatMap] at hmem ⊢
  obtain ⟨other, hother, hname⟩ := List.mem_flatMap.mp hmem
  obtain ⟨node, hnode, hkept⟩ := exists_related_of_forall₂ h other hother
  exact List.mem_flatMap.mpr ⟨node, hnode, hkept.vars hname⟩

/-- Statements that declare the same in the block around them. -/
theorem KeepsName.of_forall₂ {stmts others : List Node}
    (h : List.Forall₂ (fun a b => a.KeepsName name b ∧ b.lexicalNames = a.lexicalNames)
      stmts others) :
    LoopLowering.KeepsName name stmts others where
  references := by
    refine stmtReferences_congr ?_ (referencesIn_congr (h.imp fun _ _ h => h.1.references))
    exact iff_of_eq (congrArg (name ∈ ·) (lexicalNamesOf_congr (h.imp fun _ _ h => h.2)))
  vars := Node.KeepsName.mem_varNamesOf (h.imp fun _ _ h => h.1)

/-- A statement list that refers to a name does so when others that clash have new names, and one
that does not refer to it may declare it and give it a new name. -/
theorem stmtReferences_renameClashing {vars : List String} {stmts : List Node}
    (hwf : ∀ stmt ∈ stmts, stmt.isWellFormed = true) (hknown : ∀ stmt ∈ stmts, stmt.Known names)
    (htaken : name ∈ names.taken)
    (hclear : name ∈ vars → clashes name = true → stmtReferences name stmts = []) :
    stmtReferences name ((renameClashing clashes vars stmts).run names).1 =
      stmtReferences name stmts := by
  induction vars generalizing stmts names with
  | nil => rfl
  | cons var vars ih =>
      unfold renameClashing
      split
      · next hclash =>
        have hnew : (names.rename var).1 ∉ names.taken := Registry.rename_notMem names var
        have hsub := (Naming.draws_rename var).subset names
        have hrenamed : (names.rename var).1 ∈ (names.rename var).2.taken :=
          Registry.taken_rename names var ▸ List.mem_cons_self
        have hfirst : stmtReferences name (stmts.map (·.rename var (names.rename var).1)) =
            stmtReferences name stmts := by
          rw [stmtReferences_rename hwf fun stmt hmem => (hknown stmt hmem).notMem hnew,
            referencesAfter, if_neg (ne_of_mem_of_not_mem htaken hnew)]
          split
          · next hvar =>
            subst hvar
            exact (hclear List.mem_cons_self hclash).symm
          · rfl
        refine (ih ?_ ?_ (hsub htaken) fun hmem hclashes => ?_).trans hfirst
        · exact Node.Fits.wellFormed_of_forall₂
            ((forall₂_stands_rename var _ hwf).imp fun _ _ hs => hs.toFits)
        · exact List.forall_mem_map.mpr fun stmt hmem =>
            ((hknown stmt hmem).mono hsub).rename hrenamed
        · exact hfirst.trans (hclear (List.mem_cons_of_mem _ hmem) hclashes)
      · exact ih hwf hknown htaken fun hmem => hclear (List.mem_cons_of_mem _ hmem)

theorem flatMap_blockScopedNames_rename (old new : String) (stmts : List Node) :
    (stmts.map (·.rename old new)).flatMap Node.blockScopedNames =
      (stmts.flatMap Node.blockScopedNames).map fun used => if used = old then new else used := by
  rw [flatMap_blockScopedNames_eq_letsOf, flatMap_blockScopedNames_eq_letsOf,
    Node.flatMap_declares_map fun stmt _ => stmt.declares_rename old new, letsOf_map]

/-- Of what a statement list declares by `let` and `const`, nothing that clashes is left. -/
theorem notMem_blockScopedNames_renameClashing {vars : List String} {stmts : List Node}
    (htaken : name ∈ names.taken)
    (hclear : name ∈ vars ∧ clashes name = true ∨ name ∉ stmts.flatMap Node.blockScopedNames) :
    name ∉ ((renameClashing clashes vars stmts).run names).1.flatMap Node.blockScopedNames := by
  induction vars generalizing stmts names with
  | nil => exact hclear.resolve_left fun h => List.not_mem_nil h.1
  | cons var vars ih =>
      unfold renameClashing
      split
      · have hne := ne_of_mem_of_not_mem htaken (Registry.rename_notMem names var)
        refine ih ((Naming.draws_rename var).subset names htaken) (?_ : _ ∨
          name ∉ (stmts.map (·.rename var (names.rename var).1)).flatMap Node.blockScopedNames)
        rw [flatMap_blockScopedNames_rename, List.mem_map]
        by_cases hvar : name = var
        · refine Or.inr ?_
          rintro ⟨old, -, heq⟩
          split at heq
          · exact hne heq.symm
          · next hold => exact hold (heq.trans hvar)
        · refine hclear.imp (fun h => ⟨(List.mem_cons.mp h.1).resolve_left hvar, h.2⟩)
            fun hnot => ?_
          rintro ⟨old, hmem, heq⟩
          split at heq
          · exact hne heq.symm
          · exact hnot (heq ▸ hmem)
      · next hclash =>
        refine ih htaken (hclear.imp_left fun h => ⟨(List.mem_cons.mp h.1).resolve_left ?_, h.2⟩)
        rintro rfl
        exact hclash h.2

theorem Node.references_resetInit {declarator : Node} (hwf : declarator.isWellFormed = true) :
    declarator.resetInit.references name = declarator.references name := by
  unfold Node.resetInit
  split
  · next definite span pattern init =>
    refine Node.references_congr Iff.rfl (referencesIn_congr (.cons rfl (.cons ?_ .nil)))
    split
    · next habsent =>
      exact (Node.references_of_isAbsent (Node.isWellFormed_part hwf (by simp)) habsent).symm
    · rfl
  · rfl

theorem Node.references_flattenDecl (reset : Bool) {stmt : Node} (hwf : stmt.isWellFormed = true) :
    (stmt.flattenDecl reset).references name = stmt.references name := by
  unfold Node.flattenDecl
  split
  · rw [Node.references_plain (by simp) rfl rfl, Node.references_plain (by simp) rfl rfl]
    split
    · exact referencesIn_map fun declarator hmem =>
        Node.references_resetInit (Node.isWellFormed_part hwf hmem)
    · rfl
  · rfl

/-- Declaring other names by `var` leaves the references to a name. -/
theorem KeepsName.flattenDecl (reset : Bool) {stmts : List Node}
    (hwf : ∀ stmt ∈ stmts, stmt.isWellFormed = true)
    (hnone : name ∉ stmts.flatMap Node.blockScopedNames) :
    KeepsName name stmts (stmts.map (·.flattenDecl reset)) := by
  have hstmts : ∀ stmt ∈ stmts, name ∉ stmt.blockScopedNames :=
    fun stmt hmem hname => hnone (List.mem_flatMap.mpr ⟨stmt, hmem, hname⟩)
  have hlexical : ∀ stmt ∈ stmts,
      (name ∈ (stmt.flattenDecl reset).lexicalNames ↔ name ∈ stmt.lexicalNames) := by
    intro stmt hmem
    cases hkind : stmt.isLexicalDecl with
    | true =>
        have hbefore := hstmts stmt hmem
        obtain ⟨constant, declare, span, declarators, rfl⟩ := Node.isLexicalDecl_iff.mp hkind
        exact ⟨fun hname => (by cases hname), fun hname => absurd hname hbefore⟩
    | false => rw [Node.flattenDecl_of_not_lexical hkind]
  refine ⟨?_, fun hmem => ?_⟩
  · have hdeclared : name ∈ lexicalNamesOf (stmts.map (·.flattenDecl reset)) ↔
        name ∈ lexicalNamesOf stmts := by
      simp only [lexicalNamesOf, List.flatMap_map, List.mem_flatMap]
      exact exists_congr fun stmt => and_congr_right (hlexical stmt)
    exact stmtReferences_congr hdeclared
      (referencesIn_map fun stmt hmem => Node.references_flattenDecl reset (hwf stmt hmem))
  · have hfollows := @FollowsIn.flattenDecl name reset stmts hwf hstmts
    rw [varNamesOf_eq_flatMap] at hmem ⊢
    exact hfollows.mem_flatMap (fun _ _ h => h.vars) hmem

theorem Node.KeepsName.block {span : Span} {stmts others : List Node}
    (h : LoopLowering.KeepsName name stmts others) :
    (Node.mk .block span stmts).KeepsName name (.mk .block span others) where
  references := by rw [Node.references_block, Node.references_block, h.references]
  vars := h.vars

/-- The same node around parts that keep a name, if it is neither a block nor a `var`. -/
theorem Node.KeepsName.node {form : Form} {span : Span} {parts parts' : List Node}
    (hclosure : form.isClosure = false) (hvar : ∀ declare, form ≠ .varDecl .var declare)
    (hscope : (Node.mk form span parts').scopeNames = (Node.mk form span parts).scopeNames)
    (h : List.Forall₂ (Node.KeepsName name) parts parts') :
    (Node.mk form span parts).KeepsName name (.mk form span parts') where
  references := Node.references_congr (iff_of_eq (congrArg (name ∈ ·) hscope))
    (referencesIn_congr (h.imp fun _ _ hpart => hpart.references))
  vars hmem := by
    rw [Node.varNames_mk hclosure hvar, ← varNamesOf_eq_flatMap] at hmem ⊢
    exact Node.KeepsName.mem_varNamesOf h hmem

/-- A name that is declared by no `let` or `const` that is turned into a `var`, or gives way if it
is. -/
def GivesWay (clashes : String → Bool) (name : String)
    (declared : List (List (VarKind × String))) : Prop :=
  clashes name = true ∨ name ∉ letsOf declared.flatten

theorem GivesWay.part {parts : List Node} {part : Node}
    (h : GivesWay clashes name (blockDeclaresIn parts)) (hmem : part ∈ parts) :
    GivesWay clashes name part.blockDeclares := by
  refine h.imp_right fun hnot hname => hnot ?_
  rw [letsOf_eq_filterMap] at hname ⊢
  obtain ⟨d, hd, heq⟩ := List.mem_filterMap.mp hname
  refine List.mem_filterMap.mpr ⟨d, ?_, heq⟩
  obtain ⟨block, hblock, hd⟩ := List.mem_flatten.mp hd
  rw [blockDeclaresIn_eq_flatMap]
  exact List.mem_flatten.mpr ⟨block, List.mem_flatMap.mpr ⟨part, hmem, hblock⟩, hd⟩

theorem GivesWay.of_outline {declared others : List (List (VarKind × String))}
    (h : GivesWay clashes name declared)
    (houtline : others.map (List.map outline) = declared.map (List.map outline)) :
    GivesWay clashes name others :=
  h.imp_right fun hnot => letsOf_congr (flatten_map_outline houtline) ▸ hnot

/-- Flattening the blocks of a tree. -/
theorem Node.KeepsName.changeBlocks {depth : Nat} {node : Node}
    (hchange : ∀ again stmts (names : Registry), (∀ stmt ∈ stmts, stmt.isWellFormed = true) →
      (∀ stmt ∈ stmts, stmt.Known names) → blockDepthOf stmts < depth →
      GivesWay clashes name (stmtsDeclare stmts) → name ∈ names.taken →
      LoopLowering.KeepsName name stmts ((flattenTo clashes depth again stmts).run names).1)
    (hwf : node.isWellFormed = true) (hknown : node.Known names) (hdepth : node.blockDepth ≤ depth)
    (hname : GivesWay clashes name node.blockDeclares) (htaken : name ∈ names.taken)
    (again : Bool) :
    node.KeepsName name ((node.changeBlocks (flattenTo clashes depth) again).run names).1 := by
  induction node using Node.inductionOn generalizing again names with
  | step form span parts ih =>
      have hwfParts : ∀ part ∈ parts, part.isWellFormed = true :=
        fun part hmem => Node.isWellFormed_part hwf hmem
      by_cases hvar : ∃ declare, form = .varDecl .var declare
      · obtain ⟨declare, rfl⟩ := hvar
        rw [Node.changeBlocks_of_isQuiet hwf rfl]
        exact ⟨rfl, id⟩
      have hvar : ∀ declare, form ≠ .varDecl .var declare := fun declare e => hvar ⟨declare, e⟩
      unfold Node.changeBlocks
      split
      · exact ⟨rfl, id⟩
      · next hstop =>
        simp only [Bool.or_eq_true, not_or, Bool.not_eq_true] at hstop
        split
        · rw [Node.blockDeclares_block] at hname
          refine .block (hchange again parts names hwfParts (fun part hmem => hknown.part hmem) ?_
            hname htaken)
          rw [Node.blockDepth, if_pos rfl] at hdepth
          omega
        · next hblock =>
          rw [Node.blockDeclares_of_plain hstop.1 (Node.isBlockLoop_of_not_isCandidate hstop.2)
            hblock] at hname
          refine .node hstop.1 hvar (Node.reads_congr hstop.1
            (fun hreads => Node.head?_changeBlocksIn hwf hreads names) fun e =>
              absurd e hblock).2 ?_
          exact forall₂_changeBlocksIn_of_grows
            (fun part _ => part.draws_changeBlocks (draws_flattenTo clashes depth) _)
            fun part hmem names hsub => ih part hmem (hwfParts part hmem)
              ((hknown.part hmem).mono hsub) (Nat.le_trans (Node.blockDepth_part hmem) hdepth)
              (hname.part hmem) (hsub htaken) _

/-- Renaming the declarations of a statement list that clash leaves the references to a name that
gives way, and the list no longer declares it. -/
theorem KeepsName.renameClashing {clashes : String → Bool} {stmts : List Node} {names : Registry}
    (hwf : ∀ stmt ∈ stmts, stmt.isWellFormed = true) (hknown : ∀ stmt ∈ stmts, stmt.Known names)
    (hname : GivesWay clashes name (stmtsDeclare stmts)) (htaken : name ∈ names.taken)
    {renamed : List Node}
    (hrenamed : ((LoopLowering.renameClashing clashes (stmts.flatMap Node.blockScopedNames)
      stmts).run names).1 =
      renamed) :
    KeepsName name stmts renamed ∧ name ∉ renamed.flatMap Node.blockScopedNames ∧
      GivesWay clashes name (blockDeclaresIn renamed) := by
  have hown : name ∈ stmts.flatMap Node.blockScopedNames → clashes name = true := by
    intro hmem
    refine hname.resolve_right fun hnot => hnot ?_
    rw [flatMap_blockScopedNames_eq_letsOf] at hmem
    rw [stmtsDeclare, List.flatten_cons, letsOf_append]
    exact List.mem_append_left _ hmem
  subst hrenamed
  refine ⟨⟨stmtReferences_renameClashing hwf hknown htaken fun hmem _ => ?_, fun hmem => ?_⟩,
    ?_, ?_⟩
  · obtain ⟨stmt, hstmt, hmem⟩ := List.mem_flatMap.mp hmem
    have hdeclared : name ∈ lexicalNamesOf stmts :=
      List.mem_flatMap.mpr ⟨stmt, hstmt, stmt.blockScopedNames_subset_lexicalNames hmem⟩
    exact if_pos hdeclared
  · rw [varNamesOf_eq_flatMap] at hmem ⊢
    exact (renameClashing_spec clashes false _ hwf htaken).1.mem_flatMap (fun _ _ h => h.vars) hmem
  · refine notMem_blockScopedNames_renameClashing htaken ?_
    by_cases hmem : name ∈ stmts.flatMap Node.blockScopedNames
    · exact Or.inl ⟨hmem, hown hmem⟩
    · exact Or.inr hmem
  · refine GivesWay.of_outline (hname.imp_right fun hnot hmem => hnot ?_)
      (outline_renameClashing clashes _ hwf names)
    rw [stmtsDeclare, List.flatten_cons, letsOf_append]
    exact List.mem_append_right _ hmem

/-- Flattening a statement list leaves the references to a name that does not become a variable. -/
theorem keepsName_flattenTo (clashes : String → Bool) (depth : Nat) (again : Bool)
    (stmts : List Node) (names : Registry) (hwf : ∀ stmt ∈ stmts, stmt.isWellFormed = true)
    (hknown : ∀ stmt ∈ stmts, stmt.Known names) (hdepth : blockDepthOf stmts < depth)
    (hname : GivesWay clashes name (stmtsDeclare stmts)) (htaken : name ∈ names.taken) :
    KeepsName name stmts ((flattenTo clashes depth again stmts).run names).1 := by
  induction depth generalizing again stmts names with
  | zero => exact absurd hdepth (Nat.not_lt_zero _)
  | succ depth ih =>
      let renamed := (renameClashing clashes (stmts.flatMap Node.blockScopedNames) stmts).run names
      have hwfRenamed : ∀ stmt ∈ renamed.1, stmt.isWellFormed = true :=
        Node.Fits.wellFormed_of_forall₂
          (forall₂_fits_renameClashing clashes (stmts.flatMap Node.blockScopedNames) hwf names)
      have hknownRenamed : ∀ stmt ∈ renamed.1, stmt.Known renamed.2 :=
        keeps_renameClashing clashes _ stmts names hknown
      have htakenRenamed : name ∈ renamed.2.taken :=
        (draws_renameClashing clashes (stmts.flatMap Node.blockScopedNames) stmts).subset
        names htaken
      obtain ⟨hrename, hnone, hinside⟩ :=
        @KeepsName.renameClashing name clashes stmts names hwf hknown hname htaken renamed.1 rfl
      have hdecls := hrename.trans (KeepsName.flattenDecl again hwfRenamed hnone)
      refine hdecls.trans (.of_forall₂ ?_)
      rw [← blockDeclaresIn_map_flattenDecl again hwfRenamed] at hinside
      refine forall₂_changeBlocksIn_of_grows
        (fun stmt _ => stmt.draws_changeBlocks (draws_flattenTo clashes depth) _)
        fun stmt hmem drawn hsub => ?_
      have hpart := hinside.part hmem
      obtain ⟨original, horiginal, rfl⟩ := List.mem_map.mp hmem
      have hwfFlat := (Node.Fits.flattenDecl again (hwfRenamed original horiginal)).wellFormed
      have hknownFlat := (hknownRenamed original horiginal).flattenDecl again
      have hle := blockDepthOf_le.mp
        (Nat.le_trans (blockDepthOf_renameClashing_le clashes _ stmts names)
        (Nat.lt_succ_iff.mp hdepth)) original horiginal
      refine ⟨Node.KeepsName.changeBlocks ih hwfFlat (hknownFlat.mono hsub)
        (Nat.le_trans (original.blockDepth_flattenDecl_le again) hle) hpart
        (hsub htakenRenamed) again, ?_⟩
      exact Node.lexicalNames_changeBlocks hwfFlat drawn

end

/-! ### Parameters -/

section

variable {name : String} {writtenBack : String → Bool} {names : Registry}

/-- Giving parameters their names leaves the references to all other names. -/
theorem stmtReferences_chooseParams {vars : List (String × String)} {stmts : List Node}
    (hwf : ∀ stmt ∈ stmts, stmt.isWellFormed = true) (hknown : ∀ stmt ∈ stmts, stmt.Known names)
    (htaken : name ∈ names.taken) (hname : name ∉ vars.map Prod.fst) :
    stmtReferences name ((chooseParams writtenBack vars stmts).run names).1.stmts =
      stmtReferences name stmts := by
  induction vars generalizing stmts names with
  | nil => rfl
  | cons var vars ih =>
      obtain ⟨old, outer⟩ := var
      rw [List.map_cons, List.mem_cons, not_or] at hname
      unfold chooseParams
      split
      · have hnew : (names.fresh old).1 ∉ names.taken := Registry.fresh_notMem names old
        have hsub := (Naming.draws_fresh old).subset names
        have hparam : (names.fresh old).1 ∈ (names.fresh old).2.taken :=
          Registry.taken_fresh names old ▸ List.mem_cons_self
        have hrename : stmtReferences name (stmts.map (·.rename old (names.fresh old).1)) =
            stmtReferences name stmts := by
          rw [stmtReferences_rename hwf fun stmt hmem => (hknown stmt hmem).notMem hnew,
            referencesAfter, if_neg (ne_of_mem_of_not_mem htaken hnew), if_neg hname.1]
        refine (ih ?_ ?_ (hsub htaken) hname.2).trans hrename
        · exact Node.Fits.wellFormed_of_forall₂
            ((forall₂_stands_rename old _ hwf).imp fun _ _ hs => hs.toFits)
        · exact List.forall_mem_map.mpr fun stmt hmem =>
            ((hknown stmt hmem).mono hsub).rename hparam
      · exact ih hwf hknown htaken hname.2

/-- A parameter has a new name, or the name of its variable, which is not written back then. -/
theorem forall₂_params_chooseParams (vars : List (String × String)) (stmts : List Node)
    (names : Registry) :
    List.Forall₂ (fun var param => (writtenBack var.1 = true ∨ param = var.1) ∧
        (param = var.1 ∨ ∃ n, param = Registry.suffixed var.1 n)) vars
      ((chooseParams writtenBack vars stmts).run names).1.params := by
  induction vars generalizing stmts names with
  | nil => exact .nil
  | cons var vars ih =>
      obtain ⟨old, outer⟩ := var
      unfold chooseParams
      split
      · next hwritten =>
        refine .cons ⟨Or.inl hwritten, ?_⟩ (ih _ _)
        show (names.fresh old).1 = old ∨ ∃ n, (names.fresh old).1 = Registry.suffixed old n
        unfold Registry.fresh
        split
        · exact Or.inr ⟨_, rfl⟩
        · exact Or.inl rfl
      · exact .cons ⟨Or.inr rfl, Or.inl rfl⟩ (ih stmts names)

/-- The statements refer to the parameters as they referred to the variables, and each parameter
has a name of its own. -/
theorem chooseParams_refers {vars : List (String × String)} {stmts : List Node}
    (hwf : ∀ stmt ∈ stmts, stmt.isWellFormed = true) (hknown : ∀ stmt ∈ stmts, stmt.Known names)
    (htaken : ∀ var ∈ vars, var.1 ∈ names.taken) (hnodup : (vars.map Prod.fst).Nodup) :
    let function := ((chooseParams writtenBack vars stmts).run names).1
    function.params.Nodup ∧ List.Forall₂
      (fun var param => stmtReferences param function.stmts = stmtReferences var.1 stmts)
      vars function.params := by
  induction vars generalizing stmts names with
  | nil => exact ⟨List.nodup_nil, .nil⟩
  | cons var vars ih =>
      obtain ⟨old, outer⟩ := var
      rw [List.forall_mem_cons] at htaken
      rw [List.map_cons, List.nodup_cons] at hnodup
      have hvars : ∀ used ∈ vars.map Prod.fst, used ∈ names.taken :=
        List.forall_mem_map.mpr htaken.2
      unfold chooseParams
      split
      · have hnew : (names.fresh old).1 ∉ names.taken := Registry.fresh_notMem names old
        have hsub := (Naming.draws_fresh old).subset names
        have hparam : (names.fresh old).1 ∈ (names.fresh old).2.taken :=
          Registry.taken_fresh names old ▸ List.mem_cons_self
        have hother : (names.fresh old).1 ∉ vars.map Prod.fst := fun hmem => hnew (hvars _ hmem)
        have hrenamedWf := Node.Fits.wellFormed_of_forall₂
          ((forall₂_stands_rename old (names.fresh old).1 hwf).imp fun _ _ hs => hs.toFits)
        have hrenamedKnown : ∀ stmt ∈ stmts.map (·.rename old (names.fresh old).1),
            stmt.Known (names.fresh old).2 :=
          List.forall_mem_map.mpr fun stmt hmem => ((hknown stmt hmem).mono hsub).rename hparam
        have hrename : ∀ used, stmtReferences used (stmts.map (·.rename old (names.fresh old).1)) =
            referencesAfter old (names.fresh old).1 used fun other =>
              stmtReferences other stmts := fun used =>
          stmtReferences_rename hwf fun stmt hmem => (hknown stmt hmem).notMem hnew
        obtain ⟨hdistinct, hrest⟩ :=
          ih hrenamedWf hrenamedKnown (fun var hmem => hsub (htaken.2 var hmem)) hnodup.2
        refine ⟨List.nodup_cons.mpr ⟨fun hmem => ?_, hdistinct⟩, .cons ?_ ?_⟩
        · exact (params_chooseParams vars _ _ writtenBack _ hmem).elim (fun h => h hparam)
            fun h => hother h.1
        · refine (stmtReferences_chooseParams hrenamedWf hrenamedKnown hparam hother).trans ?_
          rw [hrename, referencesAfter, if_pos rfl]
        · have hapart : ∀ var ∈ vars, var.1 ≠ (names.fresh old).1 ∧ var.1 ≠ old := fun var hmem =>
            ⟨ne_of_mem_of_not_mem (htaken.2 var hmem) hnew,
              ne_of_mem_of_not_mem (List.mem_map_of_mem hmem) hnodup.1⟩
          refine ((List.forall₂_and_left _ _).mpr ⟨hapart, hrest⟩).imp ?_
          rintro var param ⟨⟨hisNew, hisOld⟩, hrefers⟩
          refine hrefers.trans ?_
          rw [hrename, referencesAfter, if_neg hisNew, if_neg hisOld]
      · have hself := @stmtReferences_chooseParams old writtenBack names vars stmts hwf
          hknown htaken.1 hnodup.1
        obtain ⟨hdistinct, hrest⟩ := ih hwf hknown htaken.2 hnodup.2
        refine ⟨List.nodup_cons.mpr ⟨fun hmem => ?_, hdistinct⟩, .cons hself hrest⟩
        exact (params_chooseParams vars stmts names writtenBack _ hmem).elim (fun h => h htaken.1)
          fun h => hnodup.1 h.1

end

/-! ### Aliases -/

/-- The names of the variables that stand for `this` and `arguments`. -/
def Aliases.names (aliases : Aliases) : List String :=
  aliases.this?.toList ++ aliases.arguments?.toList

/-- Naming `this` and `arguments` declares nothing else. -/
theorem Node.BindsLike.useAliases {aliases : Aliases} {node : Node}
    (hwf : node.isWellFormed = true) :
    node.BindsLike aliases.names (node.useAliases aliases) := by
  induction node using Node.inductionOn with
  | step form span parts ih =>
      unfold Node.useAliases
      split
      · exact .refl _ _
      split
      · split
        · next new hsome =>
          obtain rfl := Node.parts_eq_nil rfl (by simp) hwf
          refine ⟨.refl _, .refl _, .refl _, .refl _, .refl _, (by simp), ?_⟩
          rintro role used optional span parts heq
          cases heq
          exact Or.inl (List.mem_append_left _ (Option.mem_toList.mpr hsome))
        · exact .refl _ _
      · split
        · next new hsome =>
          refine ⟨.refl _, .refl _, .refl _, .refl _, .refl _, (by simp), ?_⟩
          rintro role used optional span parts heq
          cases heq
          exact Or.inl (List.mem_append_right _ (Option.mem_toList.mpr hsome))
        · exact .refl _ _
      · split
        · obtain rfl := Node.parts_eq_nil rfl (by simp) hwf
          exact ⟨.refl _, .refl _, .refl _, .refl _, .refl _, (by simp), (by simp [keyValue])⟩
        · exact .refl _ _
      · rw [useAliasesIn_eq_map]
        exact .node hwf (List.forall₂_map_right_iff.mpr (List.forall₂_same.mpr fun part hmem =>
          ih part hmem (Node.isWellFormed_part hwf hmem)))

section

variable {name : String} {aliases : Aliases}

/-- Naming `this` and `arguments` leaves the references to all other names. -/
theorem Node.references_useAliases (hname : name ≠ "arguments" ∧ name ∉ aliases.names) {node : Node}
    (hwf : node.isWellFormed = true) (hnew : ∀ new ∈ aliases.names, new ∉ node.names) :
    (node.useAliases aliases).references name = node.references name := by
  induction node using Node.inductionOn with
  | step form span parts ih =>
      have hother : ∀ new, new ∈ aliases.names → new ≠ name :=
        fun new hmem => ne_of_mem_of_not_mem hmem hname.2
      unfold Node.useAliases
      split
      · rfl
      split
      · split
        · next new hthis =>
          obtain rfl := Node.parts_eq_nil rfl (by simp) hwf
          exact Node.references_ident_of_ne
            (hother new (List.mem_append_left _ (Option.mem_toList.mpr hthis)))
        · rfl
      · split
        · next new hargs =>
          rw [Node.references_ident_of_ne hname.1.symm, Node.references_ident_of_ne
            (hother new (List.mem_append_right _ (Option.mem_toList.mpr hargs)))]
        · rfl
      · split
        · next new hargs =>
          rw [Node.references_ident_of_ne hname.1.symm, Node.keyValue,
            Node.references_plain (by simp) rfl rfl,
            referencesIn, referencesIn, Node.use, Node.references_ident_of_ne
              (hother new (List.mem_append_right _ (Option.mem_toList.mpr hargs)))]
          rfl
        · rfl
      · rw [useAliasesIn_eq_map]
        have hbinds : List.Forall₂ (Node.BindsLike aliases.names) parts
            (parts.map (·.useAliases aliases)) :=
          List.forall₂_map_right_iff.mpr (List.forall₂_same.mpr fun part hmem =>
            .useAliases (Node.isWellFormed_part hwf hmem))
        have hscope := (@Node.BindsLike.scopeNames aliases.names form span _ _ hbinds).same
          fun new hmem hscope => hnew new hmem (Node.scopeNames_subset _ hscope)
        refine Node.references_congr (iff_of_eq (congrArg (name ∈ ·) hscope)) ?_
        exact referencesIn_map fun part hmem => ih part hmem (Node.isWellFormed_part hwf hmem)
          fun new hnewMem hmem' => hnew new hnewMem (Node.names_subset_of_mem hmem hmem')

theorem stmtReferences_useAliasesIn (hname : name ≠ "arguments" ∧ name ∉ aliases.names)
    {stmts : List Node} (hwf : ∀ stmt ∈ stmts, stmt.isWellFormed = true)
    (hnew : ∀ new ∈ aliases.names, ∀ stmt ∈ stmts, new ∉ stmt.names) :
    stmtReferences name (useAliasesIn aliases stmts) = stmtReferences name stmts := by
  have hbinds : List.Forall₂ (Node.BindsLike aliases.names) stmts
      (stmts.map (·.useAliases aliases)) :=
    List.forall₂_map_right_iff.mpr (List.forall₂_same.mpr fun stmt hmem =>
      .useAliases (hwf stmt hmem))
  have hlexical := (Node.BindsLike.lexicalNamesOf hbinds).same fun new hmem hdeclared => by
    obtain ⟨stmt, hstmt, hused⟩ := List.mem_flatMap.mp hdeclared
    exact hnew new hmem stmt hstmt (stmt.lexicalNames_subset hused)
  unfold stmtReferences
  rw [useAliasesIn_eq_map, hlexical, referencesIn_map fun stmt hmem =>
    Node.references_useAliases hname (hwf stmt hmem) fun new hnewMem => hnew new hnewMem stmt hmem]

end

/-! ### Jumps -/

section

variable {name : String} {options : Options} {redirection : Redirection}

/-- The value of a `return` refers to what it did. -/
theorem Completion.references_toReturn {span : Span} {parts : List Node}
    (hwf : (Node.mk .returnStmt span parts).isWellFormed = true) :
    ((Completion.result (parts.find? (!·.isAbsent))).toReturn options span).references name =
      (Node.mk .returnStmt span parts).references name := by
  obtain ⟨argument, rest, rfl, -, hrest⟩ :=
    exists_of_fillSlots_cons ((Node.isWellFormed_mk.mp hwf).1.resolve_left (by simp))
  obtain rfl := eq_nil_of_fillSlots_nil hrest
  have hvalue : (([argument].find? (!·.isAbsent)).getD (.undefined span)).references name =
      argument.references name := by
    cases habsent : argument.isAbsent with
    | true =>
        rw [Node.references_of_isAbsent (Node.isWellFormed_part hwf (by simp)) habsent,
          List.find?_cons, habsent]
        rfl
    | false =>
        rw [List.find?_cons, habsent]
        rfl
  have hkey : (Node.mk (.propName options.returnKey) span []).references name = [] := rfl
  rw [Completion.toReturn, Node.returnStmt, Node.objectOf, Node.keyValue,
    Node.references_single (by simp) rfl rfl, Node.references_single (by simp) rfl rfl,
    Node.references_single (by simp) rfl rfl, Node.references_plain (by simp) rfl rfl,
    referencesIn, hkey,
    referencesIn, referencesIn, List.nil_append, List.append_nil]
  exact hvalue

/-- Copying parameters back is generated code. -/
theorem referencesIn_writeBackOf (pairs : List (String × String)) :
    referencesIn name (writeBackOf pairs) = [] := by
  rw [referencesIn_eq_flatMap, List.flatMap_eq_nil_iff]
  intro stmt hmem
  obtain ⟨⟨outer, param⟩, -, rfl⟩ := List.mem_map.mp hmem
  have hplace : ∀ (role : Role) (used : String) (optional : Bool) (parts : List Node),
      (Node.mk (.ident role used optional) .generated parts).references name = [] :=
    fun _ _ _ _ => if_neg fun h => h.2 rfl
  show (Node.exprStmt (.assignTo outer (.use param .generated) .generated)).references name = []
  rw [Node.exprStmt, Node.references_single (by simp) rfl rfl, Node.assignTo,
    Node.references_plain (by simp) rfl rfl]
  simp only [referencesIn, Node.binding, Node.use, hplace, List.append_nil]

theorem Redirection.references_continueStmt (hback : referencesIn name redirection.writeBack = [])
    (span : Span) : (redirection.continueStmt span).references name = [] := by
  unfold Redirection.continueStmt
  split
  · rfl
  · rw [Node.references_block, stmtReferences, referencesIn_append, hback]
    exact ite_self []

/-- Redirecting jumps leaves the references. -/
theorem Node.references_redirect (hback : referencesIn name redirection.writeBack = [])
    (ctx : JumpContext) {node : Node} (hwf : node.isWellFormed = true) :
    (node.redirect redirection ctx).references name = node.references name := by
  induction node using Node.inductionOn generalizing ctx with
  | step form span parts ih =>
      unfold Node.redirect
      split
      · rfl
      next hclosure =>
      split
      · split
        · obtain rfl := Node.parts_eq_nil rfl (by simp) hwf
          rfl
        · rfl
      · split
        · obtain rfl := Node.parts_eq_nil rfl (by simp) hwf
          exact Redirection.references_continueStmt hback span
        · rfl
      · exact Completion.references_toReturn hwf
      · rw [redirectIn_eq_map]
        have hwfParts : ∀ part ∈ parts, part.isWellFormed = true :=
          fun part hmem => Node.isWellFormed_part hwf hmem
        have hlexical : lexicalNamesOf (parts.map (Node.redirect redirection (ctx.enter form))) =
            lexicalNamesOf parts :=
          lexicalNamesOf_congr (List.forall₂_map_right_iff.mpr
            (List.forall₂_same.mpr fun part hmem =>
            Node.lexicalNames_redirect _ (hwfParts part hmem)))
        have hscope := (@Node.reads_congr form span _ _ (by simpa using hclosure)
          (Node.head?_redirect (ctx.enter form) hwf) fun _ => hlexical).2
        refine Node.references_congr (iff_of_eq (congrArg (name ∈ ·) hscope)) ?_
        exact referencesIn_map fun part hmem => ih part hmem _ (hwfParts part hmem)

/-- Redirected statements with the write-backs at their end refer to what they did. -/
theorem stmtReferences_redirectIn (ctx : JumpContext) {stmts : List Node}
    (hwf : ∀ stmt ∈ stmts, stmt.isWellFormed = true)
    (hplain : lexicalNamesOf redirection.writeBack = [])
    (hback : referencesIn name redirection.writeBack = []) :
    stmtReferences name (redirectIn redirection ctx stmts ++ redirection.writeBack) =
      stmtReferences name stmts := by
  have hlexical : lexicalNamesOf (redirectIn redirection ctx stmts ++ redirection.writeBack) =
      lexicalNamesOf stmts := by
    rw [lexicalNamesOf, List.flatMap_append, ← lexicalNamesOf, ← lexicalNamesOf,
      hplain, List.append_nil, redirectIn_eq_map]
    exact lexicalNamesOf_congr
      (List.forall₂_map_right_iff.mpr (List.forall₂_same.mpr fun stmt hmem =>
      Node.lexicalNames_redirect _ (hwf stmt hmem)))
  refine stmtReferences_congr (iff_of_eq (congrArg (name ∈ ·) hlexical)) ?_
  rw [referencesIn_append, hback, List.append_nil, redirectIn_eq_map]
  exact referencesIn_map fun stmt hmem => Node.references_redirect hback ctx (hwf stmt hmem)

end

end LoopLowering
