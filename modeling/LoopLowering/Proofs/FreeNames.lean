/-
Renaming changes the free names of a tree, and nothing else.

The renamer walks down to the nodes that bind the old name and stops there.  What it did can be said
without the walk.  A name that is written in a tree has scopes around it, and it is free if none of
them binds it.  The renamed tree is the tree itself with every free occurrence of the old name
replaced, wherever it stands, and with no other name replaced (`Node.mapNames`).

Two places have to be prepared for that, since a shorthand property is a key and a name in one, and
so is a shorthand pattern.  They are written out first, but only where their name is going to change
(`Node.writeOut`).

There is one name that the renamer does not come to: that of a type which stands behind the name
of a shorthand pattern.  No program text has such a type, but a tree can have one.
-/
import LoopLowering.Proofs.Equivariance

namespace LoopLowering

/-! ### Changing the names of a tree -/

/-- Change the name in a form. -/
def Form.mapName (f : String → String) : Form → Form
  | .ident role name optional => .ident role (f name) optional
  | form => form

mutual

/-- Change the names in a tree by a function that is told what the scopes around a name bind.
Labels, and the names that function expressions give themselves, stay. -/
def Node.mapNames (f : List String → String → String) (bound : List String) : Node → Node
  | .mk form span parts =>
    .mk (form.mapName (f bound)) span
      (mapNamesIn f ((Node.mk form span parts).scopeNames ++ bound) parts)

/-- Change the names in a list of trees. -/
def mapNamesIn (f : List String → String → String) (bound : List String) : List Node → List Node
  | [] => []
  | node :: nodes => node.mapNames f bound :: mapNamesIn f bound nodes

end

theorem mapNamesIn_eq_map (f : List String → String → String) (bound : List String)
    (nodes : List Node) : mapNamesIn f bound nodes = nodes.map (·.mapNames f bound) := by
  induction nodes with
  | nil => rfl
  | cons node nodes ih => rw [mapNamesIn, ih, List.map_cons]

theorem Form.mapName_of_not_ident {form : Form}
    (h : ∀ role name optional, form ≠ .ident role name optional)
    (f : String → String) : form.mapName f = form := by
  cases form with
  | ident => exact absurd rfl (h _ _ _)
  | _ => rfl

section

variable {f : List String → String → String} {bound : List String}

theorem Node.mapNames_ident (role : Role) (name : String) (optional : Bool) (span : Span)
    (parts : List Node) : (Node.mk (.ident role name optional) span parts).mapNames f bound =
      .mk (.ident role (f bound name) optional) span (mapNamesIn f bound parts) := by
  cases role with
  | _ => rfl

/-- A node that is no name and opens no scope. -/
theorem Node.mapNames_plain {form : Form} {span : Span} {parts : List Node}
    (hident : ∀ role name optional, form ≠ .ident role name optional)
    (hscope : (Node.mk form span parts).scopeNames = []) :
    (Node.mk form span parts).mapNames f bound = .mk form span (mapNamesIn f bound parts) := by
  rw [Node.mapNames, hscope, Form.mapName_of_not_ident hident, List.nil_append]

/-- A tree in which no name is changed stays. -/
theorem Node.mapNames_eq_self {tree : Node}
    (h : ∀ more, ∀ name ∈ tree.names, f (more ++ bound) name = name) :
    tree.mapNames f bound = tree := by
  induction tree using Node.inductionOn generalizing bound with
  | step form span parts ih =>
      have hparts : mapNamesIn f ((Node.mk form span parts).scopeNames ++ bound) parts = parts := by
        rw [mapNamesIn_eq_map]
        refine (List.map_congr_left fun part hmem => ih part hmem fun more name hname => ?_).trans
          (List.map_id parts)
        rw [← List.append_assoc]
        exact h _ name (Node.names_subset_of_mem hmem hname)
      have hform : form.mapName (f bound) = form := by
        cases form with
        | ident role name optional =>
            exact congrArg (Form.ident role · optional)
              (h [] name (by simp [Node.names, Form.names]))
        | _ => rfl
      rw [Node.mapNames, hparts, hform]

/-- What becomes of a property that was written out. -/
theorem Node.mapNames_keyValue (key name : String) (span : Span) :
    (Node.keyValue key (.use name span) span).mapNames f bound =
      .keyValue key (.use (f bound name) span) span := by
  have hkey : (Node.mk (.propName key) span []).mapNames f bound = .mk (.propName key) span [] :=
    Node.mapNames_plain (by simp) rfl
  rw [Node.keyValue, Node.mapNames_plain (by simp) rfl]
  simp only [mapNamesIn, Node.mapNames_ident, hkey]
  rfl

end

/-! ### Writing out shorthand -/

/-- The name of a shorthand property or pattern. -/
def Node.shorthand? : Node → Option String
  | .mk (.ident .short name _) _ [] => some name
  | .mk .assignPatProp _ [.mk (.ident .bind name _) _ _, _] => some name
  | _ => none

/-- A shorthand property or pattern written out: `{ i }` as `{ i: i }`, and the pattern `{ i = d }`
as `{ i: i = d }`. -/
def Node.longhand : Node → Node
  | .mk (.ident .short name _) span [] => .keyValue name (.use name span) span
  | .mk .assignPatProp span [.mk (.ident .bind name optional) keySpan ascription, value] =>
    let pattern := Node.mk (.ident .bind name optional) keySpan ascription
    .mk .keyValuePat .generated
      [.mk (.propName name) keySpan [],
       if value.isAbsent then pattern else .mk .assignPat span [pattern, value]]
  | node => node

mutual

/-- Write out the shorthand properties and patterns of a tree whose names are picked. -/
def Node.writeOut (picks : List String → String → Bool) (bound : List String) : Node → Node
  | .mk form span parts =>
    let node := Node.mk form span
      (writeOutIn picks ((Node.mk form span parts).scopeNames ++ bound) parts)
    if node.shorthand?.any (picks bound) then node.longhand else node

/-- Write out the shorthand properties and patterns of a list of trees whose names are picked. -/
def writeOutIn (picks : List String → String → Bool) (bound : List String) : List Node → List Node
  | [] => []
  | node :: nodes => node.writeOut picks bound :: writeOutIn picks bound nodes

end

theorem writeOutIn_eq_map (picks : List String → String → Bool) (bound : List String)
    (nodes : List Node) : writeOutIn picks bound nodes = nodes.map (·.writeOut picks bound) := by
  induction nodes with
  | nil => rfl
  | cons node nodes ih => rw [writeOutIn, ih, List.map_cons]

theorem Node.shorthand?_eq_none {form : Form} {span : Span} {parts : List Node}
    (hident : ∀ name optional, form ≠ .ident .short name optional)
    (hpattern : form ≠ .assignPatProp) :
    (Node.mk form span parts).shorthand? = none := by
  unfold Node.shorthand?
  split
  · next heq =>
    cases heq
    exact absurd rfl (hident _ _)
  · next heq =>
    cases heq
    exact absurd rfl hpattern
  · rfl

theorem Node.mem_names_of_shorthand? {node : Node} {name : String}
    (h : node.shorthand? = some name) :
    name ∈ node.names := by
  unfold Node.shorthand? at h
  split at h
  · cases h
    simp [Node.names, Form.names]
  · cases h
    simp [Node.names, namesOf, Form.names]
  · cases h

section

variable {picks : List String → String → Bool} {bound : List String}

theorem Node.writeOut_plain {form : Form} {span : Span} {parts : List Node}
    (hident : ∀ name optional, form ≠ .ident .short name optional)
    (hpattern : form ≠ .assignPatProp) :
    (Node.mk form span parts).writeOut picks bound =
      .mk form span (writeOutIn picks ((Node.mk form span parts).scopeNames ++ bound) parts) := by
  rw [Node.writeOut, Node.shorthand?_eq_none hident hpattern]
  rfl

/-- A tree in which no shorthand is picked stays. -/
theorem Node.writeOut_eq_self {tree : Node}
    (h : ∀ more, ∀ name ∈ tree.names, picks (more ++ bound) name = false) :
    tree.writeOut picks bound = tree := by
  induction tree using Node.inductionOn generalizing bound with
  | step form span parts ih =>
      have hparts : writeOutIn picks ((Node.mk form span parts).scopeNames ++ bound)
          parts = parts := by
        rw [writeOutIn_eq_map]
        refine (List.map_congr_left fun part hmem => ih part hmem fun more name hname => ?_).trans
          (List.map_id parts)
        rw [← List.append_assoc]
        exact h _ name (Node.names_subset_of_mem hmem hname)
      have hown : (Node.mk form span parts).shorthand?.any (picks bound) = false := by
        cases hshort : (Node.mk form span parts).shorthand? with
        | none => rfl
        | some name => exact h [] name (Node.mem_names_of_shorthand? hshort)
      rw [Node.writeOut, hparts, hown]
      rfl

theorem Node.isAbsent_longhand (node : Node) : node.longhand.isAbsent = node.isAbsent := by
  unfold Node.longhand
  split
  · rfl
  · rfl
  · rfl

theorem Node.isAbsent_writeOut (tree : Node) :
    (tree.writeOut picks bound).isAbsent = tree.isAbsent := by
  obtain ⟨form, span, parts⟩ := tree
  rw [Node.writeOut]
  split
  · rw [Node.isAbsent_longhand]
    rfl
  · rfl

theorem KeptUnless.trans {names names' names'' : List String} (h : KeptUnless [] names names')
    (h' : KeptUnless [] names' names'') : KeptUnless [] names names'' := by
  rw [h'.same (by simp), h.same (by simp)]
  exact .refl names

theorem Node.BindsLike.trans {a b c : Node} (hab : a.BindsLike [] b) (hbc : b.BindsLike [] c) :
    a.BindsLike [] c where
  binding := hab.binding.trans hbc.binding
  blockScoped := hab.blockScoped.trans hbc.blockScoped
  lexical := hab.lexical.trans hbc.lexical
  vars := hab.vars.trans hbc.vars
  body := hab.body.trans hbc.body
  title htitle _ := by
    obtain ⟨_, hb⟩ := hab.title htitle List.not_mem_nil
    exact hbc.title hb List.not_mem_nil
  named hnamed := by
    obtain ⟨_, hb⟩ := (hbc.named hnamed).resolve_left List.not_mem_nil
    exact hab.named hb

/-- A shorthand written out declares what it declared, if a part that is absent declares nothing. -/
theorem Node.bindsLike_longhand {node : Node}
    (habsent : ∀ part ∈ node.parts, part.isAbsent = true → part.varNames = []) :
    node.BindsLike [] node.longhand := by
  unfold Node.longhand
  split
  · exact ⟨.refl _, .refl _, .refl _, .refl _, .refl _, nofun, nofun⟩
  · next span name optional keySpan ascription value =>
    refine ⟨?_, .refl _, .refl _, ?_, .refl _, nofun, nofun⟩
    · cases value.isAbsent <;> exact .refl _
    · cases hvalue : value.isAbsent with
      | true =>
          simpa [Node.varNames, varNamesOf, Form.isClosure,
            habsent value (by simp [Node.parts]) hvalue]
            using KeptUnless.refl (varNamesOf ascription)
      | false =>
          simpa [Node.varNames, varNamesOf, Form.isClosure]
            using KeptUnless.refl (varNamesOf ascription ++ value.varNames)
  · exact .refl [] _

/-- Writing out shorthand changes nothing of what a tree declares. -/
theorem Node.bindsLike_writeOut {tree : Node} (hwf : tree.isWellFormed = true) :
    tree.BindsLike [] (tree.writeOut picks bound) := by
  induction tree using Node.inductionOn generalizing bound with
  | step form span parts ih =>
      have hparts : List.Forall₂ (Node.BindsLike []) parts
          (writeOutIn picks ((Node.mk form span parts).scopeNames ++ bound) parts) := by
        rw [writeOutIn_eq_map]
        refine List.forall₂_map_right_iff.mpr (List.forall₂_same.mpr fun part hmem => ?_)
        exact ih part hmem (Node.isWellFormed_part hwf hmem)
      have hnode := Node.BindsLike.node hwf hparts
      rw [Node.writeOut]
      split
      · refine hnode.trans (Node.bindsLike_longhand fun part hmem habsent => ?_)
        rw [Node.parts, writeOutIn_eq_map] at hmem
        obtain ⟨original, horiginal, rfl⟩ := List.mem_map.mp hmem
        have hwfPart := Node.isWellFormed_part hwf horiginal
        rw [Node.isAbsent_writeOut] at habsent
        obtain ⟨absentSpan, rfl⟩ := Node.eq_absent_of_isAbsent hwfPart habsent
        rfl
      · exact hnode

end

/-! ### Renaming -/

section

variable {old new : String} {bound : List String}

/-- Whether a name is a free occurrence of the old one. -/
def isFreeOld (old : String) (bound : List String) (name : String) : Bool :=
  name == old && decide (old ∉ bound)

/-- The new name for a free occurrence of the old one, and any other name itself. -/
def renameFree (old new : String) (bound : List String) (name : String) : String :=
  if isFreeOld old bound name then new else name

/-- Whether a node is no shorthand pattern of the name with a type that mentions the name too. -/
def Node.keyTypeLacks (name : String) : Node → Bool
  | .mk .assignPatProp _ [.mk (.ident .bind key _) _ ascription, _] =>
    key != name || decide (name ∉ namesOf ascription)
  | _ => true

/-- Where the old name is bound or not mentioned, nothing is written out and nothing is renamed. -/
theorem Node.renameFree_eq_self {tree : Node} (h : old ∈ bound ∨ old ∉ tree.names) :
    tree.writeOut (isFreeOld old) bound = tree ∧
      tree.mapNames (renameFree old new) bound = tree := by
  have hfree : ∀ more, ∀ name ∈ tree.names, isFreeOld old (more ++ bound) name = false := by
    intro more name hname
    rcases h with hbound | hnot
    · simp [isFreeOld, hbound]
    · have hne : name ≠ old := fun heq => hnot (heq ▸ hname)
      simp [isFreeOld, hne]
  refine ⟨Node.writeOut_eq_self hfree, Node.mapNames_eq_self fun more name hname => ?_⟩
  rw [renameFree, hfree more name hname]
  rfl

theorem renameFreeIn_eq_self {trees : List Node} (h : old ∈ bound ∨ old ∉ namesOf trees) :
    writeOutIn (isFreeOld old) bound trees = trees ∧
      mapNamesIn (renameFree old new) bound trees = trees := by
  have htree : ∀ tree ∈ trees, tree.writeOut (isFreeOld old) bound = tree ∧
      tree.mapNames (renameFree old new) bound = tree := by
    intro tree hmem
    refine Node.renameFree_eq_self (h.imp_right fun hnot hname => hnot ?_)
    rw [namesOf_eq_flatMap]
    exact List.mem_flatMap.mpr ⟨tree, hmem, hname⟩
  rw [writeOutIn_eq_map, mapNamesIn_eq_map]
  exact ⟨(List.map_congr_left fun tree hmem => (htree tree hmem).1).trans (List.map_id trees),
    (List.map_congr_left fun tree hmem => (htree tree hmem).2).trans (List.map_id trees)⟩

theorem Node.exists_key {span : Span} {parts : List Node}
    (hwf : (Node.mk .assignPatProp span parts).isWellFormed = true) :
    ∃ name optional keySpan ascription value,
      parts = [.mk (.ident .bind name optional) keySpan ascription, value] := by
  obtain ⟨⟨form, keySpan, ascription⟩, value, rfl⟩ :=
    List.length_eq_two.mp (Node.length_parts hwf (by simp) rfl)
  have hshape := (Node.isWellFormed_mk.mp hwf).1.resolve_left (by simp)
  simp only [Form.shape, Shape.admits, fillSlots, Slot.admits, Node.form,
    Bool.and_eq_true] at hshape
  obtain ⟨hcategory, -⟩ := hshape
  cases form with
  | ident role name optional =>
      cases role with
      | bind => exact ⟨name, optional, keySpan, ascription, value, rfl⟩
      | _ => simp [Form.category] at hcategory
  | _ => simp [Form.category] at hcategory

/-- A shorthand pattern of the old name, written out and renamed.  The type of the name stays. -/
theorem Node.mapNames_writeOut_pattern {span keySpan : Span} {optional : Bool}
    {ascription : List Node} {value : Node} (hbound : old ∉ bound)
    (htype : old ∉ namesOf ascription) :
    ((Node.mk .assignPatProp span [.mk (.ident .bind old optional) keySpan ascription,
      value]).writeOut
        (isFreeOld old) bound).mapNames (renameFree old new) bound =
      .mk .keyValuePat .generated
        [.mk (.propName old) keySpan [],
         if value.isAbsent then .mk (.ident .bind new optional) keySpan ascription
         else .mk .assignPat span [.mk (.ident .bind new optional) keySpan ascription,
          (value.writeOut (isFreeOld old) bound).mapNames (renameFree old new) bound]] := by
  obtain ⟨hwritten, hnamed⟩ := @renameFreeIn_eq_self old new bound ascription (Or.inr htype)
  have hold : isFreeOld old bound old = true := by simp [isFreeOld, hbound]
  have hname : (Node.mk (.ident .bind old optional) keySpan ascription).mapNames
      (renameFree old new) bound =
      .mk (.ident .bind new optional) keySpan ascription := by
    rw [Node.mapNames_ident, hnamed, renameFree, if_pos hold]
  have hpattern : (Node.mk (.ident .bind old optional) keySpan ascription).writeOut
      (isFreeOld old) bound =
      .mk (.ident .bind old optional) keySpan ascription := by
    rw [Node.writeOut_plain (by simp) (by simp)]
    exact congrArg _ hwritten
  have hlong : (Node.mk .assignPatProp span
      [.mk (.ident .bind old optional) keySpan ascription, value]).writeOut (isFreeOld old) bound =
        (Node.mk .assignPatProp span [.mk (.ident .bind old optional) keySpan ascription,
          value.writeOut (isFreeOld old) bound]).longhand := by
    have hscope : (Node.mk .assignPatProp span
        [.mk (.ident .bind old optional) keySpan ascription, value]).scopeNames ++
          bound = bound := rfl
    rw [Node.writeOut, hscope, writeOutIn, writeOutIn, writeOutIn, hpattern]
    exact if_pos hold
  rw [hlong, Node.longhand, Node.isAbsent_writeOut, Node.mapNames_plain (by simp) rfl]
  cases value.isAbsent with
  | true =>
      simp only [if_true, mapNamesIn, hname]
      rfl
  | false =>
      have hassign : ∀ parts, (Node.mk .assignPat span parts).mapNames (renameFree old new) bound =
          .mk .assignPat span (mapNamesIn (renameFree old new) bound parts) :=
        fun parts => Node.mapNames_plain (by simp) rfl
      simp only [Bool.false_eq_true, if_false, mapNamesIn, hname, hassign]
      rfl

/-- A shorthand pattern of another name stays one. -/
theorem Node.writeOut_pattern_of_ne {span keySpan : Span} {name : String} {optional : Bool}
    {ascription : List Node} {value : Node} (hname : name ≠ old) :
    (Node.mk .assignPatProp span [.mk (.ident .bind name optional) keySpan ascription,
      value]).writeOut (isFreeOld old) bound =
      .mk .assignPatProp span (writeOutIn (isFreeOld old) bound
        [.mk (.ident .bind name optional) keySpan ascription, value]) := by
  have hpattern : (Node.mk (.ident .bind name optional) keySpan ascription).writeOut
      (isFreeOld old) bound =
      .mk (.ident .bind name optional) keySpan (writeOutIn (isFreeOld old) bound ascription) :=
    Node.writeOut_plain (by simp) (by simp)
  have hkept : (Node.mk .assignPatProp span (writeOutIn (isFreeOld old) bound
      [.mk (.ident .bind name optional) keySpan ascription, value])).shorthand?.any
        (isFreeOld old bound) = false := by
    rw [writeOutIn, hpattern]
    simp [writeOutIn, Node.shorthand?, isFreeOld, hname]
  rw [Node.writeOut, if_neg (by rw [Bool.not_eq_true]; exact hkept)]
  rfl

/-- A shorthand property, written out if it has the old name, and renamed. -/
theorem Node.mapNames_writeOut_short {span : Span} {name : String} {optional : Bool}
    (hbound : old ∉ bound) :
    ((Node.mk (.ident .short name optional) span []).writeOut (isFreeOld old) bound).mapNames
        (renameFree old new) bound =
      if name = old then .keyValue old (.use new span) span
      else .mk (.ident .short name optional) span [] := by
  by_cases hold : name = old
  · subst hold
    simp [Node.writeOut, Node.shorthand?, writeOutIn, Node.longhand, Node.mapNames_keyValue,
      renameFree, isFreeOld, hbound]
  · simp [Node.writeOut, Node.shorthand?, writeOutIn, Node.mapNames_ident, mapNamesIn, renameFree,
      isFreeOld, hold]

/-- Writing out the parts of a node does not change what it binds. -/
theorem Node.scopeNames_writeOutIn {form : Form} {span : Span} {parts : List Node}
    (hwf : ∀ part ∈ parts, part.isWellFormed = true) :
    (Node.mk form span (writeOutIn (isFreeOld old) bound parts)).scopeNames =
      (Node.mk form span parts).scopeNames := by
  rw [writeOutIn_eq_map]
  refine (Node.BindsLike.scopeNames (List.forall₂_map_right_iff.mpr
    (List.forall₂_same.mpr fun part hmem => ?_))).same fun _ hmem => absurd hmem List.not_mem_nil
  exact Node.bindsLike_writeOut (hwf part hmem)

/-- Where the old name is free, renaming writes out the shorthand of that name and replaces its free
occurrences. -/
theorem Node.substitute_eq_mapNames {tree : Node} (hwf : tree.isWellFormed = true)
    (hkeys : tree.everywhere (Node.keyTypeLacks old) = true) (hbound : old ∉ bound) :
    tree.substitute old new =
      (tree.writeOut (isFreeOld old) bound).mapNames (renameFree old new) bound := by
  induction tree using Node.inductionOn generalizing bound with
  | step form span parts ih =>
      have hpartsWf : ∀ part ∈ parts, part.isWellFormed = true :=
        fun part hmem => Node.isWellFormed_part hwf hmem
      obtain ⟨hkey, hpartsKeys⟩ := Node.everywhere_mk.mp hkeys
      by_cases hscope : old ∈ (Node.mk form span parts).scopeNames
      · -- The node binds the old name, so it is no name itself, and nothing under it changes.
        have hident : ∀ role name optional, form ≠ .ident role name optional := by
          rintro role name optional rfl
          cases role <;> cases hscope
        have hpattern : form ≠ .assignPatProp := by
          rintro rfl
          cases hscope
        obtain ⟨hwritten, hnamed⟩ := @renameFreeIn_eq_self old new
          ((Node.mk form span parts).scopeNames ++ bound) parts
          (Or.inl (List.mem_append_left bound hscope))
        rw [Node.substitute_of_mem_scopeNames hscope,
          Node.writeOut_plain (hident .short) hpattern, hwritten,
          Node.mapNames, hnamed, Form.mapName_of_not_ident hident]
      · have hinner : old ∉ (Node.mk form span parts).scopeNames ++ bound := by
          simp [hscope, hbound]
        have hparts : substituteIn old new parts = mapNamesIn (renameFree old new)
            ((Node.mk form span parts).scopeNames ++ bound) (writeOutIn (isFreeOld old)
              ((Node.mk form span parts).scopeNames ++ bound) parts) := by
          rw [substituteIn_eq_map, mapNamesIn_eq_map, writeOutIn_eq_map, List.map_map]
          exact List.map_congr_left fun part hmem =>
            ih part hmem (hpartsWf part hmem) (hpartsKeys part hmem) hinner
        have hnode : (Node.mk form span (writeOutIn (isFreeOld old)
              ((Node.mk form span parts).scopeNames ++ bound) parts)).mapNames
              (renameFree old new) bound =
            .mk (form.mapName (renameFree old new bound)) span (substituteIn old new parts) := by
          rw [Node.mapNames, Node.scopeNames_writeOutIn hpartsWf, hparts]
        unfold Node.substitute
        rw [if_neg hscope]
        split
        · next name optional =>
          obtain rfl := Node.parts_eq_nil rfl (by simp) hwf
          exact (Node.mapNames_writeOut_short hbound).symm
        · next role name optional hshort =>
          rw [Node.writeOut_plain (fun _ _ heq => by cases heq; exact hshort rfl) (by simp), hnode,
            Form.mapName]
          simp [renameFree, isFreeOld, hbound]
        · next name optional keySpan ascription value =>
          split
          · next hold =>
            subst hold
            have htype : name ∉ namesOf ascription := by simpa [Node.keyTypeLacks] using hkey
            have hvalue := ih value (by simp) (hpartsWf value (by simp))
                (hpartsKeys value (by simp)) hbound
            rw [Node.mapNames_writeOut_pattern hbound htype, hvalue]
          · next hold =>
            rw [Node.writeOut_pattern_of_ne hold]
            refine Eq.trans ?_ hnode.symm
            rw [substituteIn, Node.substitute_binding optional keySpan ascription hold]
            rfl
        · next hident hpattern =>
          have hform : form ≠ .assignPatProp := by
            rintro rfl
            obtain ⟨name, optional, keySpan, ascription, value, rfl⟩ := Node.exists_key hwf
            exact hpattern name optional keySpan ascription value rfl rfl
          rw [Node.writeOut_plain (hident .short) hform, hnode, Form.mapName_of_not_ident hident]

/-! ### Free names -/

/-- The name is written in the tree where no scope of the tree binds it. -/
def Node.OccursFree (name : String) (tree : Node) : Prop :=
  ∃ path, tree.Occurs name path ∧ ∀ node ∈ path, name ∉ node.scopeNames

theorem Node.occursFree_mk {name : String} {form : Form} {span : Span} {parts : List Node} :
    (Node.mk form span parts).OccursFree name ↔
      (∃ role optional, form = .ident role name optional) ∨
        name ∉ (Node.mk form span parts).scopeNames ∧ ∃ part ∈ parts, part.OccursFree name := by
  constructor
  · rintro ⟨path, hoccurs, hfree⟩
    cases hoccurs with
    | here => exact Or.inl ⟨_, _, rfl⟩
    | inside hpart hoccurs =>
        obtain ⟨hnode, hpath⟩ := List.forall_mem_cons.mp hfree
        exact Or.inr ⟨hnode, _, hpart, _, hoccurs, hpath⟩
  · rintro (⟨role, optional, rfl⟩ | ⟨hnode, part, hpart, path, hoccurs, hpath⟩)
    · exact ⟨[], .here, by simp⟩
    · exact ⟨_, .inside hpart hoccurs, List.forall_mem_cons.mpr ⟨hnode, hpath⟩⟩

theorem Node.OccursFree.mem_names {name : String} {tree : Node} (h : tree.OccursFree name) :
    name ∈ tree.names := by
  obtain ⟨path, hoccurs, -⟩ := h
  induction hoccurs with
  | here => simp [Node.names, Form.names]
  | inside hpart _ ih => exact Node.names_subset_of_mem hpart ih

/-- The free names of a tree after a renaming of the old name: that name is gone, and the new one is
there if it was. -/
def FreeAfter (old new name : String) (tree : Node) : Prop :=
  name = new ∧ tree.OccursFree old ∨ name ≠ old ∧ tree.OccursFree name

theorem Node.occursFree_keyValue {key name used : String} {span : Span} :
    (Node.keyValue key (.use used span) span).OccursFree name ↔ name = used := by
  simp [Node.keyValue, Node.occursFree_mk, Node.scopeNames, Node.headNames, eq_comm]

theorem Node.occursFree_ident {role : Role} {name used : String} {optional : Bool} {span : Span}
    {parts : List Node} : (Node.mk (.ident role used optional) span parts).OccursFree name ↔
      name = used ∨ ∃ part ∈ parts, part.OccursFree name := by
  have hscope : (Node.mk (.ident role used optional) span parts).scopeNames = [] := by
    cases role with
    | _ => rfl
  rw [Node.occursFree_mk, hscope]
  simp [eq_comm]

/-- A node with two parts that is no name and opens no scope. -/
theorem Node.occursFree_pair {form : Form} {span : Span} {a b : Node} {name : String}
    (hident : ∀ role used optional, form ≠ .ident role used optional)
    (hscope : (Node.mk form span [a, b]).scopeNames = []) :
    (Node.mk form span [a, b]).OccursFree name ↔ a.OccursFree name ∨ b.OccursFree name := by
  rw [Node.occursFree_mk, hscope]
  simp [hident]

/-- The free names of a shorthand pattern that was written out. -/
theorem Node.occursFree_written {key name new : String} {span keySpan : Span} {optional : Bool}
    {ascription : List Node} {value : Node} {isAbsent : Bool}
    (habsent : isAbsent = true → ¬ value.OccursFree name) :
    (Node.mk .keyValuePat .generated
        [.mk (.propName key) keySpan [],
         if isAbsent then .mk (.ident .bind new optional) keySpan ascription
         else .mk .assignPat span [.mk (.ident .bind new optional) keySpan ascription,
           value]]).OccursFree
      name ↔ (name = new ∨ ∃ part ∈ ascription, part.OccursFree name) ∨ value.OccursFree name := by
  have hkey : ¬ (Node.mk (.propName key) keySpan []).OccursFree name := by simp [Node.occursFree_mk]
  rw [Node.occursFree_pair (by simp) rfl, or_iff_right hkey]
  cases isAbsent with
  | true => simp [Node.occursFree_ident, habsent rfl]
  | false => rw [if_neg (by simp), Node.occursFree_pair (by simp) rfl, Node.occursFree_ident]

/-- The free names of parts that are renamed one by one. -/
theorem exists_occursFree_substituteIn {name : String} {parts : List Node}
    (h : ∀ part ∈ parts, (part.substitute old new).OccursFree name ↔ FreeAfter old new name part) :
    (∃ part ∈ substituteIn old new parts, part.OccursFree name) ↔
      name = new ∧ (∃ part ∈ parts, part.OccursFree old) ∨
        name ≠ old ∧ ∃ part ∈ parts, part.OccursFree name := by
  simp only [substituteIn_eq_map, List.mem_map, exists_exists_and_eq_and]
  constructor
  · rintro ⟨part, hmem, hfree⟩
    rcases (h part hmem).mp hfree with ⟨hname, hold⟩ | ⟨hname, hkept⟩
    · exact Or.inl ⟨hname, part, hmem, hold⟩
    · exact Or.inr ⟨hname, part, hmem, hkept⟩
  · rintro (⟨hname, part, hmem, hold⟩ | ⟨hname, part, hmem, hkept⟩)
    · exact ⟨part, hmem, (h part hmem).mpr (Or.inl ⟨hname, hold⟩)⟩
    · exact ⟨part, hmem, (h part hmem).mpr (Or.inr ⟨hname, hkept⟩)⟩

section

variable {name : String} {form : Form} {span : Span} {parts parts' : List Node}

/-- The free names of a node around parts that are renamed, if it binds neither name. -/
theorem Node.occursFree_frame (hident : ∀ role used optional, form ≠ .ident role used optional)
    (hscopes : (Node.mk form span parts').scopeNames = (Node.mk form span parts).scopeNames)
    (hold : old ∉ (Node.mk form span parts).scopeNames)
    (hnew : new ∉ (Node.mk form span parts).scopeNames)
    (hparts : (∃ part ∈ parts', part.OccursFree name) ↔
      name = new ∧ (∃ part ∈ parts, part.OccursFree old) ∨
        name ≠ old ∧ ∃ part ∈ parts, part.OccursFree name) :
    (Node.mk form span parts').OccursFree name ↔ FreeAfter old new name (.mk form span parts) := by
  rw [FreeAfter, Node.occursFree_mk, Node.occursFree_mk, Node.occursFree_mk, hscopes, hparts]
  simp only [hident, exists_false, false_or]
  constructor
  · rintro ⟨hname, hfree⟩
    exact hfree.imp (And.imp_right fun hgone => ⟨hold, hgone⟩)
      (And.imp_right fun hkept => ⟨hname, hkept⟩)
  · rintro (⟨rfl, -, hfree⟩ | ⟨hne, hname, hkept⟩)
    · exact ⟨hnew, Or.inl ⟨rfl, hfree⟩⟩
    · exact ⟨hname, Or.inr ⟨hne, hkept⟩⟩

/-- The free names of a name that is renamed together with its type. -/
theorem Node.occursFree_renamed {role : Role} {used : String} {optional : Bool}
    (hparts : (∃ part ∈ parts', part.OccursFree name) ↔
      name = new ∧ (∃ part ∈ parts, part.OccursFree old) ∨
        name ≠ old ∧ ∃ part ∈ parts, part.OccursFree name) :
    (Node.mk (.ident role (if used = old then new else used) optional) span parts').OccursFree
        name ↔
      FreeAfter old new name (.mk (.ident role used optional) span parts) := by
  rw [FreeAfter, Node.occursFree_ident, Node.occursFree_ident, Node.occursFree_ident, hparts]
  grind

/-- The free names of a shorthand pattern of the old name, written out and renamed. -/
theorem Node.occursFree_pattern {keySpan : Span} {optional : Bool} {ascription : List Node}
    {value : Node} (hwf : value.isWellFormed = true) (hold : old ∉ namesOf ascription)
    (hnew : new ∉ namesOf ascription)
    (hvalue : (value.substitute old new).OccursFree name ↔ FreeAfter old new name value) :
    (Node.mk .keyValuePat .generated
        [.mk (.propName old) keySpan [],
         if value.isAbsent then .mk (.ident .bind new optional) keySpan ascription
         else .mk .assignPat span [.mk (.ident .bind new optional) keySpan ascription,
           value.substitute old new]]).OccursFree name ↔
      FreeAfter old new name
        (.mk .assignPatProp span [.mk (.ident .bind old optional) keySpan ascription, value]) := by
  have hlacks : ∀ {other}, other ∉ namesOf ascription →
      ¬ ∃ part ∈ ascription, part.OccursFree other := by
    rintro other hnot ⟨part, hmem, hfree⟩
    rw [namesOf_eq_flatMap] at hnot
    exact hnot (List.mem_flatMap.mpr ⟨part, hmem, hfree.mem_names⟩)
  have holdType := hlacks hold
  have hnewType := hlacks hnew
  rw [Node.occursFree_written, hvalue, FreeAfter, FreeAfter, Node.occursFree_pair (by simp) rfl,
    Node.occursFree_pair (by simp) rfl, Node.occursFree_ident, Node.occursFree_ident]
  · grind
  · intro habsent
    obtain ⟨absentSpan, rfl⟩ := Node.eq_absent_of_isAbsent hwf habsent
    simp [Node.substitute, substituteIn, Node.scopeNames, Node.headNames, Node.occursFree_mk]

end

/-- Renaming replaces the old name by the new one among the free names of a tree. -/
theorem Node.occursFree_substitute {name : String} {tree : Node} (hwf : tree.isWellFormed = true)
    (hkeys : tree.everywhere (Node.keyTypeLacks old) = true) (hnew : new ∉ tree.names) :
    (tree.substitute old new).OccursFree name ↔ FreeAfter old new name tree := by
  induction tree using Node.inductionOn with
  | step form span parts ih =>
      obtain ⟨hkey, hpartsKeys⟩ := Node.everywhere_mk.mp hkeys
      have hpartsNew : ∀ part ∈ parts, new ∉ part.names :=
        fun part hmem hname => hnew (Node.names_subset_of_mem hmem hname)
      have hpartsWf : ∀ part ∈ parts, part.isWellFormed = true :=
        fun part hmem => Node.isWellFormed_part hwf hmem
      by_cases hscope : old ∈ (Node.mk form span parts).scopeNames
      · have hgone : ¬ (Node.mk form span parts).OccursFree old := by
          rw [Node.occursFree_mk]
          rintro (⟨role, optional, rfl⟩ | ⟨hnot, -⟩)
          · cases role <;> cases hscope
          · exact hnot hscope
        rw [Node.substitute_of_mem_scopeNames hscope, FreeAfter]
        constructor
        · exact fun h => Or.inr ⟨fun heq => hgone (heq ▸ h), h⟩
        · exact fun h => (h.resolve_left fun hfree => hgone hfree.2).2
      · have hscopes : (Node.mk form span (substituteIn old new parts)).scopeNames =
            (Node.mk form span parts).scopeNames := by
          have hrenames : List.Forall₂ (Node.Renames true [old, new]) parts
              (substituteIn old new parts) :=
            Node.Renames.substituteIn hpartsWf hpartsNew
          refine (Node.BindsLike.scopeNames (hrenames.imp fun _ _ h => h.binds)).same ?_
          simp only [List.mem_cons, List.not_mem_nil, or_false]
          rintro other (rfl | rfl)
          · exact hscope
          · exact fun hmem => hnew (Node.scopeNames_subset _ hmem)
        have hparts := exists_occursFree_substituteIn fun part hmem =>
          ih part hmem (hpartsWf part hmem) (hpartsKeys part hmem) (hpartsNew part hmem)
        have hnode : (∀ role used optional, form ≠ .ident role used optional) →
            ((Node.mk form span (substituteIn old new parts)).OccursFree name ↔
              FreeAfter old new name (.mk form span parts)) := fun hident =>
          Node.occursFree_frame hident hscopes hscope
            (fun hmem => hnew (Node.scopeNames_subset _ hmem)) hparts
        have hident : ∀ role used optional, form = .ident role used optional →
            ((Node.mk (.ident role (if used = old then new else used) optional) span
                (substituteIn old new parts)).OccursFree name ↔
              FreeAfter old new name (.mk form span parts)) := by
          rintro role used optional rfl
          exact Node.occursFree_renamed hparts
        unfold Node.substitute
        rw [if_neg hscope]
        split
        · next used optional =>
          split
          · next hold =>
            obtain rfl := Node.parts_eq_nil rfl (by simp) hwf
            rw [Node.occursFree_keyValue, ← hident .short used optional rfl, Node.occursFree_ident,
              if_pos hold]
            simp [substituteIn]
          · next hold =>
            rw [← hident .short used optional rfl, if_neg hold]
        · exact hident _ _ _ rfl
        · next used optional keySpan ascription value =>
          split
          · next hold =>
            subst hold
            exact Node.occursFree_pattern (hpartsWf value (by simp))
              (by simpa [Node.keyTypeLacks] using hkey)
              (fun hmem => hnew (by simp [Node.names, namesOf, hmem]))
              (ih value (by simp) (hpartsWf value (by simp)) (hpartsKeys value (by simp))
                (hpartsNew value (by simp)))
          · next hold =>
            rw [← hnode (by simp), substituteIn,
              Node.substitute_binding optional keySpan ascription hold]
            rfl
        · next hident _ => exact hnode hident

end

/-- Renaming changes exactly the free occurrences of the old name, and the new name takes its place
among the free names of the tree.

Nothing else changes, but that a shorthand property or pattern of the old name is written out where
it is free.

Every program text meets the condition, since what is read as `{ i: T }` is a pattern `T` under the
key `i`, and the name of a shorthand pattern has no type.  A tree that gave the name of the pattern
`{ i }` the type `i` would keep it: the renamer writes `{ i: j }` and does not come to the type, and
`i` stays free in what it returns. -/
theorem Node.rename_changes_free_names {tree : Node} {old new : String}
    (hwf : tree.isWellFormed = true) (hkeys : tree.everywhere (Node.keyTypeLacks old) = true)
    (hnew : new ∉ tree.names) :
    tree.rename old new = (tree.writeOut (isFreeOld old) []).mapNames (renameFree old new) [] ∧
      ∀ name, (tree.rename old new).OccursFree name ↔
        name = new ∧ tree.OccursFree old ∨ name ≠ old ∧ tree.OccursFree name := by
  by_cases hsame : old = new
  · subst hsame
    have hlacks := @Node.renameFree_eq_self old old [] tree (Or.inr hnew)
    refine ⟨?_, fun name => ?_⟩
    · rw [Node.rename_self, hlacks.1, hlacks.2]
    · rw [Node.rename_self]
      have hgone : ¬ tree.OccursFree old := fun hfree => hnew hfree.mem_names
      grind
  · rw [Node.rename, if_neg hsame]
    exact ⟨Node.substitute_eq_mapNames hwf hkeys List.not_mem_nil,
      fun name => Node.occursFree_substitute hwf hkeys hnew⟩

/-- The body of a loop gets `j` for its free `i`: in a shorthand pattern, and in a shorthand
property of an arrow.  The `i` of an inner block stays. -/
theorem collectingBody_renamed :
    collectingLoop.body.isWellFormed = true ∧
      collectingLoop.body.everywhere (Node.keyTypeLacks "i") = true ∧
      "j" ∉ collectingLoop.body.names ∧
      "i" ∈ (collectingLoop.body.rename "i" "j").names ∧
      (collectingLoop.body.rename "i" "j").OccursFree "j" ∧
      ¬ (collectingLoop.body.rename "i" "j").OccursFree "i" := by
  have hwf : collectingLoop.body.isWellFormed = true := by decide +kernel
  have hkeys : collectingLoop.body.everywhere (Node.keyTypeLacks "i") = true := by decide +kernel
  have hnew : "j" ∉ collectingLoop.body.names := by decide +kernel
  have hfree : collectingLoop.body.OccursFree "i" := by
    simp [collectingLoop, Node.occursFree_mk, Node.scopeNames, Node.headNames, lexicalNamesOf,
      Node.lexicalNames, Node.list, Node.exprStmt]
  have hrenamed := (Node.rename_changes_free_names hwf hkeys hnew).2
  refine ⟨hwf, hkeys, hnew, by decide +kernel, (hrenamed "j").mpr (Or.inl ⟨rfl, hfree⟩), ?_⟩
  rw [hrenamed "i"]
  simp

end LoopLowering
