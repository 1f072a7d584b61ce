/-
A region mentions a name where the name stands outside the first loop and nothing owns it.

Whether a region mentions a name is decided in one walk that remembers things: how many closures
it is in, whether it has passed over the first loop, and whether it has found the name, after
which it does not go into anything any more.  What it answers can be said of the places of the
region, in any order. A place is the way to it, the number of the part to go on with at every
step.  The name is mentioned if it stands at a place that is not in the first loop, and on the way
to it is no part that keeps the name as its own: a closure that binds it, a block-scoped loop
whose head declares it, or the body of one that declares it.

Loops after the first one are asked for the names their heads declare and not searched for them, so
heads have to declare plain names, without types.
-/
import LoopLowering.Proofs.Openings

namespace LoopLowering

/-! ### Places in a tree -/

/-- The node at a place of a tree. -/
def Node.at? : Node → List Nat → Option Node
  | node, [] => some node
  | node, i :: place => node.parts[i]?.bind (·.at? place)

/-- The name stands at the place. -/
def Node.NamesAt (name : String) (tree : Node) (place : List Nat) : Prop :=
  ∃ role optional span parts, tree.at? place = some (.mk (.ident role name optional) span parts)

/-- The node keeps the name as its own in one of its parts. -/
def Node.OwnsPart (name : String) (node : Node) (i : Nat) : Prop :=
  node.form.ownsNames = true ∧ name ∈ node.scopeNames ∨
    node.isBlockLoop = true ∧ (name ∈ node.headNames ∨
      i + 1 = node.parts.length ∧ ∃ body ∈ node.parts[i]?, body.bodyDeclares name = true)

/-- On the way to the place some node keeps the name as its own. -/
def Node.OwnedAt (name : String) (tree : Node) (place : List Nat) : Prop :=
  ∃ around i rest node, place = around ++ i :: rest ∧ tree.at? around = some node ∧
  node.OwnsPart name i

section

variable {name : String} {tree : Node} {i : Nat} {place : List Nat}

theorem Node.not_ownedAt_nil : ¬ tree.OwnedAt name [] := by
  rintro ⟨around, i, rest, -, hplace, -, -⟩
  simp at hplace

theorem Node.ownedAt_cons : tree.OwnedAt name (i :: place) ↔
    tree.OwnsPart name i ∨ ∃ part, tree.parts[i]? = some part ∧ part.OwnedAt name place := by
  constructor
  · rintro ⟨_ | ⟨j, around⟩, k, rest, node, hplace, hat, howns⟩
    · obtain ⟨rfl, rfl⟩ := List.cons.inj hplace
      cases hat
      exact Or.inl howns
    · obtain ⟨rfl, rfl⟩ := List.cons.inj hplace
      obtain ⟨part, hpart, hat⟩ := Option.bind_eq_some_iff.mp hat
      exact Or.inr ⟨part, hpart, around, k, rest, node, rfl, hat, howns⟩
  · rintro (howns | ⟨part, hpart, around, k, rest, node, rfl, hat, howns⟩)
    · exact ⟨[], i, place, tree, rfl, rfl, howns⟩
    · exact ⟨i :: around, k, rest, node, rfl, Option.bind_eq_some_iff.mpr ⟨part, hpart, hat⟩, howns⟩

theorem Node.namesAt_cons : tree.NamesAt name (i :: place) ↔
    ∃ part, tree.parts[i]? = some part ∧ part.NamesAt name place := by
  simp only [Node.NamesAt, Node.at?, Option.bind_eq_some_iff]
  exact ⟨fun ⟨role, optional, span, parts, part, hpart, hat⟩ =>
    ⟨part, hpart, role, optional, span, parts, hat⟩,
    fun ⟨part, hpart, role, optional, span, parts, hat⟩ =>
      ⟨role, optional, span, parts, part, hpart, hat⟩⟩

/-- The name stands at a place that nothing keeps as its own, and that is one of those looked at. -/
def Node.SeenAt (name : String) (tree : Node) (looked : List Nat → Prop) : Prop :=
  ∃ place, tree.NamesAt name place ∧ ¬ tree.OwnedAt name place ∧ looked place

/-- A name is seen in a tree at the root or in a part that is not the tree's own. -/
theorem Node.seenAt_mk {form : Form} {span : Span} {parts : List Node} {looked : List Nat → Prop} :
    (Node.mk form span parts).SeenAt name looked ↔
      (∃ role optional, form = .ident role name optional) ∧ looked [] ∨
        ∃ i part, parts[i]? = some part ∧ ¬ (Node.mk form span parts).OwnsPart name i ∧
          part.SeenAt name fun place => looked (i :: place) := by
  constructor
  · rintro ⟨_ | ⟨i, place⟩, hnames, howned, hlooked⟩
    · obtain ⟨role, optional, _, _, hat⟩ := hnames
      cases hat
      exact Or.inl ⟨⟨role, optional, rfl⟩, hlooked⟩
    · obtain ⟨part, hpart, hnames⟩ := Node.namesAt_cons.mp hnames
      rw [Node.ownedAt_cons, not_or] at howned
      exact Or.inr ⟨i, part, hpart, howned.1, place, hnames,
        fun hinner => howned.2 ⟨part, hpart, hinner⟩, hlooked⟩
  · rintro (⟨⟨role, optional, rfl⟩, hlooked⟩ | ⟨i, part, hpart, howns, place,
      hnames, howned, hlooked⟩)
    · exact ⟨[], ⟨role, optional, span, parts, rfl⟩, Node.not_ownedAt_nil, hlooked⟩
    · refine ⟨i :: place, Node.namesAt_cons.mpr ⟨part, hpart, hnames⟩, ?_, hlooked⟩
      rw [Node.ownedAt_cons, not_or]
      refine ⟨howns, ?_⟩
      rintro ⟨other, hother, hinner⟩
      obtain rfl : part = other := Option.some.inj (hpart.symm.trans hother)
      exact howned hinner

end

theorem exists_getElem?_cons {α : Type} {a : α} {items : List α} {P : Nat → α → Prop} :
    (∃ i item, (a :: items)[i]? = some item ∧ P i item) ↔
      P 0 a ∨ ∃ i item, items[i]? = some item ∧ P (i + 1) item := by
  constructor
  · rintro ⟨_ | i, item, hitem, h⟩
    · cases hitem
      exact Or.inl h
    · exact Or.inr ⟨i, item, hitem, h⟩
  · rintro (h | ⟨i, item, hitem, h⟩)
    · exact ⟨0, a, rfl, h⟩
    · exact ⟨i + 1, item, hitem, h⟩

/-! ### Mentions -/

/-- Whether a declarator is of a plain name without a type. -/
def Node.isPlainDeclarator : Node → Bool
  | .mk (.declarator _) _ [.mk (.ident .bind _ _) _ [.mk .absent _ []], _] => true
  | _ => false

/-- Whether a node, if it is a block-scoped loop, declares plain names in its head. -/
def Node.hasPlainHead (node : Node) : Bool :=
  !node.isBlockLoop || node.parts.head?.any (·.parts.all Node.isPlainDeclarator)

section

variable {name : String} {form : Form} {span : Span} {parts : List Node}

theorem Node.mentions_binding {used : String} {optional : Bool} {absentSpan : Span} :
    (Node.mk (.ident .bind used optional) span [.mk .absent absentSpan []]).mentions name =
      (used == name) := by
  have habsent : (Node.mk .absent absentSpan []).mentions name = false :=
    Node.mentions_of_not_isCandidate rfl rfl name
  rw [Node.mentions_of_not_isCandidate rfl rfl]
  simp [Form.finds, mentionsIn, habsent]

/-- Of a head that declares other names the initialisers are left. -/
theorem mentionsInInits_eq {ds : List Node} (hplain : ds.all Node.isPlainDeclarator = true)
    (hname : name ∉ bindingNamesOf ds) : mentionsInInits name ds = mentionsIn name ds := by
  induction ds with
  | nil => rfl
  | cons declarator ds ih =>
      rw [List.all_cons, Bool.and_eq_true] at hplain
      rw [bindingNamesOf, List.mem_append, not_or] at hname
      obtain ⟨hdeclarator, hrest⟩ := hplain
      unfold Node.isPlainDeclarator at hdeclarator
      split at hdeclarator
      · next used _ _ _ init =>
        have hused : (used == name) = false := by
          rw [beq_eq_false_iff_ne]
          rintro rfl
          exact hname.1 (List.mem_singleton_self _)
        rw [mentionsInInits, mentionsIn, ih hrest hname.2, Node.mentions_of_not_isCandidate rfl rfl]
        simp [Form.finds, mentionsIn, Node.mentions_binding, hused]
      · cases hdeclarator

/-- What the head of a block-scoped loop mentions besides the names that it declares. -/
theorem Node.mentions_head {constant declare : Bool} {ds : List Node}
    (hplain : ds.all Node.isPlainDeclarator = true) (hname : name ∉ bindingNamesOf ds) :
    (Node.mk (.varDecl (.lexical constant) declare) span ds).mentions name =
      mentionsInInits name ds := by
  rw [Node.mentions_of_not_isCandidate rfl rfl, mentionsInInits_eq hplain hname]
  rfl

/-- A block-scoped loop mentions what it does not declare in its head and what one of its parts
mentions that is not a body of its own. -/
theorem Node.mentions_of_isBlockLoop (hloop : (Node.mk form span parts).isBlockLoop = true)
    (hplain : (Node.mk form span parts).hasPlainHead = true) :
    (Node.mk form span parts).mentions name = true ↔
      name ∉ (Node.mk form span parts).headNames ∧ ∃ i part, parts[i]? = some part ∧
        ¬ (i + 1 = parts.length ∧ part.bodyDeclares name = true) ∧ part.mentions name = true := by
  rw [Node.hasPlainHead, hloop, Bool.not_true, Bool.false_or] at hplain
  unfold Node.isBlockLoop at hloop
  split at hloop
  case h_4 => cases hloop
  all_goals
    next heq =>
    obtain ⟨rfl, rfl, rfl⟩ := Node.mk.inj heq
    obtain ⟨constant, declare, declSpan, ds, rfl⟩ := Node.isLexicalDecl_iff.mp hloop
    rw [Node.mentions, if_neg (by simp [Form.ownsNames, Form.isClosure])]
    by_cases hname : name ∈ bindingNamesOf ds
    · simp [hname, Node.headNames, Node.blockScopedNames]
    · have hhead := @Node.mentions_head name declSpan constant declare ds hplain hname
      simp [exists_getElem?_cons, hname, Node.headNames, Node.blockScopedNames, or_assoc, hhead]

theorem Node.mentions_of_owned (hown : form.ownsNames = true ∧
    name ∈ (Node.mk form span parts).scopeNames) :
    (Node.mk form span parts).mentions name = false := by
  unfold Node.mentions
  rw [if_pos (by simpa using hown)]

theorem Node.mentions_of_not_owned
    (hown : ¬ (form.ownsNames = true ∧ name ∈ (Node.mk form span parts).scopeNames))
    (hloop : (Node.mk form span parts).isBlockLoop = false) :
    (Node.mk form span parts).mentions name = true ↔
      (∃ role optional, form = .ident role name optional) ∨ mentionsIn name parts = true := by
  unfold Node.mentions
  rw [if_neg (by simpa using hown)]
  split
  · simp
  · cases hloop
  · cases hloop
  · cases hloop
  · next hident _ _ _ => exact (or_iff_right fun ⟨_, _, heq⟩ => hident _ _ _ heq).symm

theorem Form.not_ident_of_isBlockLoop (hloop : (Node.mk form span parts).isBlockLoop = true) :
    ¬ ∃ role optional, form = .ident role name optional := by
  rintro ⟨role, optional, rfl⟩
  cases hloop

/-- A node mentions a name that it is, or that one of its parts mentions and is not the node's
own. -/
theorem Node.mentions_mk_iff (hplain : (Node.mk form span parts).hasPlainHead = true) :
    (Node.mk form span parts).mentions name = true ↔
      (∃ role optional, form = .ident role name optional) ∨
        ∃ i part, parts[i]? = some part ∧ ¬ (Node.mk form span parts).OwnsPart name i ∧
          part.mentions name = true := by
  by_cases hown : form.ownsNames = true ∧ name ∈ (Node.mk form span parts).scopeNames
  · have hident : ¬ ∃ role optional, form = .ident role name optional := by
      rintro ⟨role, optional, rfl⟩
      cases hown.1
    rw [Node.mentions_of_owned hown]
    refine iff_of_false (by simp) (not_or.mpr ⟨hident, ?_⟩)
    rintro ⟨i, part, -, hpart, -⟩
    exact hpart (Or.inl hown)
  · have howns : ∀ i, (Node.mk form span parts).OwnsPart name i ↔
        (Node.mk form span parts).isBlockLoop = true ∧ (name ∈ (Node.mk form span parts).headNames ∨
          i + 1 = parts.length ∧ ∃ body ∈ parts[i]?, body.bodyDeclares name = true) :=
      fun i => or_iff_right hown
    cases hloop : (Node.mk form span parts).isBlockLoop with
    | true =>
        rw [Node.mentions_of_isBlockLoop hloop hplain,
          or_iff_right (Form.not_ident_of_isBlockLoop hloop)]
        simp only [howns, hloop, true_and, not_or]
        constructor
        · rintro ⟨hname, i, part, hpart, hbody, hmentions⟩
          refine ⟨i, part, hpart, ⟨hname, fun ⟨hlast, body, hmem, hdeclares⟩ => ?_⟩, hmentions⟩
          obtain rfl : part = body := Option.some.inj (hpart.symm.trans hmem)
          exact hbody ⟨hlast, hdeclares⟩
        · rintro ⟨i, part, hpart, ⟨hname, hbody⟩, hmentions⟩
          exact ⟨hname, i, part, hpart, fun ⟨hlast, hdeclares⟩ =>
            hbody ⟨hlast, part, hpart, hdeclares⟩, hmentions⟩
    | false =>
        have hnone : ∀ i, ¬ (Node.mk form span parts).OwnsPart name i := by
          intro i h
          rw [howns, hloop] at h
          cases h.1
        rw [Node.mentions_of_not_owned hown hloop, mentionsIn_eq_any, List.any_eq_true]
        simp only [hnone, not_false_eq_true, true_and, List.mem_iff_getElem?]
        refine or_congr_right ⟨?_, ?_⟩
        · rintro ⟨part, ⟨i, hpart⟩, hmentions⟩
          exact ⟨i, part, hpart, hmentions⟩
        · rintro ⟨i, part, hpart, hmentions⟩
          exact ⟨part, ⟨i, hpart⟩, hmentions⟩

end

/-- A tree mentions a name where it stands and nothing owns it. -/
theorem Node.mentions_iff {name : String} {tree : Node}
    (hplain : tree.everywhere Node.hasPlainHead = true) :
    tree.mentions name = true ↔ tree.SeenAt name fun _ => True := by
  induction tree using Node.inductionOn with
  | step form span parts ih =>
      obtain ⟨hnode, hparts⟩ := Node.everywhere_mk.mp hplain
      rw [Node.mentions_mk_iff hnode, Node.seenAt_mk, and_true]
      refine or_congr_right (exists₂_congr fun i part => and_congr_right fun hpart =>
        and_congr_right fun _ => ?_)
      have hmem : part ∈ parts := List.mem_iff_getElem?.mpr ⟨i, hpart⟩
      exact ih part hmem (hparts part hmem)

/-! ### The place of the first loop -/

mutual

/-- The place of the first block-scoped loop among the parts of a node, closures left out. -/
def Node.firstPlace? : Node → Option (List Nat)
  | .mk form _ parts => if form.isClosure then none else firstPlaceIn? 0 parts

/-- The place of the first block-scoped loop in parts that are numbered from `i` on. -/
def firstPlaceIn? (i : Nat) : List Node → Option (List Nat)
  | [] => none
  | node :: nodes =>
    if node.isCandidate then some [i]
    else match node.firstPlace? with
      | some place => some (i :: place)
      | none => firstPlaceIn? (i + 1) nodes

end

theorem Node.firstPlace?_eq_none {node : Node} :
    node.firstPlace? = none ↔ node.firstCandidate? = none := by
  induction node using Node.inductionOn with
  | step form span parts ih =>
      have hparts : ∀ i, firstPlaceIn? i parts = none ↔ firstCandidateIn? parts = none := by
        intro i
        induction parts generalizing i with
        | nil => simp [firstPlaceIn?, firstCandidateIn?]
        | cons part parts hrest =>
            rw [firstPlaceIn?, firstCandidateIn?]
            split
            · simp
            · have hpart := ih part List.mem_cons_self
              have hothers := hrest (fun other hother =>
                ih other (List.mem_cons_of_mem part hother)) (i + 1)
              cases hplace : part.firstPlace? with
              | none => rw [hpart.mp hplace]; exact hothers
              | some place =>
                  cases hfirst : part.firstCandidate? with
                  | none => rw [hpart.mpr hfirst] at hplace; cases hplace
                  | some stmt => simp
      rw [Node.firstPlace?, Node.firstCandidate?]
      split
      · exact iff_of_true rfl rfl
      · exact hparts 0

/-- What stands before the loop is counted. -/
theorem firstPlaceIn?_append {before : List Node}
    (hbefore : ∀ node ∈ before, node.isCandidate = false ∧ node.firstCandidate? = none) (i : Nat)
    (nodes : List Node) : firstPlaceIn? i (before ++ nodes) = firstPlaceIn?
      (i + before.length) nodes := by
  induction before generalizing i with
  | nil => rfl
  | cons node before ih =>
      obtain ⟨⟨hcandidate, hnone⟩, hrest⟩ := List.forall_mem_cons.mp hbefore
      rw [List.cons_append, firstPlaceIn?, hcandidate, Node.firstPlace?_eq_none.mpr hnone,
        List.length_cons, Nat.add_comm before.length, ← Nat.add_assoc]
      exact ih hrest (i + 1)

namespace Opening

/-- The place that is left open. -/
def place : Opening → List Nat
  | here frame => [frame.before.length]
  | inside frame opening => frame.before.length :: opening.place

theorem at?_place (opening : Opening) (stmt : Node) :
    (opening.fill [stmt]).at? opening.place = some stmt := by
  induction opening with
  | here frame => simp [fill, place, Frame.around, Node.at?, Node.parts]
  | inside frame opening ih => simpa [fill, place, Frame.around, Node.at?, Node.parts] using ih

/-- The place of the loop is where it is found. -/
theorem IsFirst.firstPlace?_fill {opening : Opening} (h : opening.IsFirst) {stmt : Node}
    (hstmt : stmt.isCandidate = true) : (opening.fill [stmt]).firstPlace? = some opening.place := by
  induction opening with
  | here frame =>
      rw [fill, Frame.around_singleton, Node.firstPlace?, h.closure, firstPlaceIn?_append h.before,
        firstPlaceIn?, if_pos hstmt, Nat.zero_add]
      rfl
  | inside frame opening ih =>
      obtain ⟨hclear, hfirst, hnone⟩ := h
      rw [fill, Frame.around_singleton, Node.firstPlace?, hclear.closure,
        firstPlaceIn?_append hclear.before, firstPlaceIn?, hnone stmt hstmt,
        ih hfirst, Nat.zero_add]
      rfl

end Opening

/-- The first loop stands at its place. -/
theorem Node.firstPlace?_bind_at? (region : Node) :
    region.firstPlace?.bind region.at? = region.firstCandidate? := by
  cases hfirst : region.firstCandidate? with
  | none => rw [Node.firstPlace?_eq_none.mpr hfirst, Option.bind_none]
  | some stmt =>
      obtain ⟨opening, hopening, hstmt, rfl⟩ := Node.exists_opening hfirst
      rw [hopening.firstPlace?_fill hstmt]
      exact opening.at?_place stmt

/-! ### Outside the first loop -/

section

variable {name : String}

/-- A node that is no loop keeps a name as its own in all its parts or in none. -/
theorem Node.ownsPart_iff {form : Form} {span : Span} {parts : List Node}
    (hnode : (Node.mk form span parts).isCandidate = false) (i : Nat) :
    (Node.mk form span parts).OwnsPart name i ↔
      form.ownsNames = true ∧ name ∈ (Node.mk form span parts).scopeNames := by
  refine or_iff_left ?_
  rintro ⟨hloop, -⟩
  rw [Node.isBlockLoop_of_not_isCandidate hnode] at hloop
  cases hloop

theorem Form.finds_iff {form : Form} {span : Span} {parts : List Node}
    (hclosure : form.isClosure = false) {found : Bool} :
    form.finds name found = true ↔ (∃ role optional, form = .ident role name optional) ∨
      found = true ∧ ¬ (form.ownsNames = true ∧ name ∈ (Node.mk form span parts).scopeNames) := by
  unfold Form.finds
  split
  · simp [Form.ownsNames, Form.isClosure]
  · next own =>
    have hscope : name ∈ (Node.mk (.functionExpr (some own)) span parts).scopeNames ↔
        own.text = name :=
      List.mem_singleton.trans eq_comm
    simp [Form.ownsNames, hscope, and_comm]
  · next hident hexpr =>
    have hkept : ¬ (form.ownsNames = true ∧ name ∈ (Node.mk form span parts).scopeNames) := by
      rintro ⟨howned, hname⟩
      unfold Form.ownsNames at howned
      split at howned
      · next own =>
        cases own with
        | none => cases hname
        | some own => exact hexpr own rfl
      · rw [hclosure] at howned
        cases howned
    have hused : ¬ ∃ role optional, form = .ident role name optional := by
      rintro ⟨role, optional, heq⟩
      exact hident _ _ _ heq
    rw [or_iff_right hused, and_iff_left hkept]

/-- The parts of a node are the one in the gap and those around it. -/
theorem exists_getElem?_gap {before after : List Node} {node : Node} {P : Nat → Node → Prop}
    {Q : Node → Prop}
    (h : ∀ i part, i ≠ before.length → part ∈ before ++ after → (P i part ↔ Q part)) :
    (∃ i part, (before ++ node :: after)[i]? = some part ∧ P i part) ↔
      P before.length node ∨ ∃ part ∈ before ++ after, Q part := by
  constructor
  · rintro ⟨i, part, hpart, hp⟩
    rcases Nat.lt_trichotomy i before.length with hlt | rfl | hgt
    · rw [List.getElem?_append_left hlt] at hpart
      have hmem := List.mem_append_left after (List.mem_of_getElem? hpart)
      exact Or.inr ⟨part, hmem, (h i part (by omega) hmem).mp hp⟩
    · rw [List.getElem?_append_right (Nat.le_refl _), Nat.sub_self] at hpart
      cases hpart
      exact Or.inl hp
    · obtain ⟨j, rfl⟩ := Nat.exists_eq_add_of_lt hgt
      rw [List.getElem?_append_right (by omega),
        show before.length + j + 1 - before.length = j + 1 by omega] at hpart
      rw [List.getElem?_cons_succ] at hpart
      have hmem := List.mem_append_right before (List.mem_of_getElem? hpart)
      exact Or.inr ⟨part, hmem, (h _ part (by omega) hmem).mp hp⟩
  · rintro (hp | ⟨part, hmem, hq⟩)
    · exact ⟨before.length, node, by simp, hp⟩
    · rcases List.mem_append.mp hmem with hbefore | hafter
      · obtain ⟨i, hi, rfl⟩ := List.getElem_of_mem hbefore
        exact ⟨i, _, by simp [List.getElem?_append_left hi], (h i _ (by omega) hmem).mpr hq⟩
      · obtain ⟨j, hj, rfl⟩ := List.getElem_of_mem hafter
        refine ⟨before.length + (j + 1), _, ?_, (h _ _ (by omega) hmem).mpr hq⟩
        simp [List.getElem?_append_right]

/-- A node with something else in the gap mentions what is seen in it outside the gap, and in the
gap what is seen of the part that was there. -/
theorem Frame.mentions_iff {frame : Frame} {node : Node} {gap : List Node}
    {looked : List Nat → Prop} (hclosure : frame.form.isClosure = false)
    (hnode : (frame.around [node]).isCandidate = false)
    (hgap : (frame.around gap).isCandidate = false)
    (hplain : ∀ part ∈ frame.before ++ frame.after, part.everywhere Node.hasPlainHead = true)
    (hroot : looked []) (hbeside : ∀ i place, i ≠ frame.before.length → looked (i :: place))
    (hinside : mentionsIn name gap = true ↔
      node.SeenAt name fun place => looked (frame.before.length :: place)) :
    (frame.around gap).mentions name = true ↔ (frame.around [node]).SeenAt name looked := by
  rw [Frame.around_singleton] at hnode ⊢
  have hfound : mentionsIn name (frame.before ++ gap ++ frame.after) = true ↔
      ∃ (i : Nat) (part : Node), (frame.before ++ node :: frame.after)[i]? = some part ∧
        part.SeenAt name fun place => looked (i :: place) := by
    rw [exists_getElem?_gap (Q := fun part => part.mentions name = true), ← hinside]
    · simp only [mentionsIn_eq_any, List.any_append, Bool.or_eq_true,
        List.any_eq_true, List.mem_append]
      grind
    · intro i part hi hmem
      rw [Node.mentions_iff (hplain part hmem)]
      simp only [Node.SeenAt, hbeside i _ hi]
  rw [Frame.around, Node.mentions_of_not_isCandidate hclosure hgap,
    @Form.finds_iff name _ frame.span (frame.before ++ node :: frame.after) hclosure, hfound,
    Node.seenAt_mk, and_iff_left hroot]
  simp only [Node.ownsPart_iff hnode]
  refine or_congr_right ⟨?_, ?_⟩
  · rintro ⟨⟨i, part, hpart, hseen⟩, hown⟩
    exact ⟨i, part, hpart, hown, hseen⟩
  · rintro ⟨i, part, hpart, hown, hseen⟩
    exact ⟨⟨i, part, hpart, hseen⟩, hown⟩

/-- What is left of a region without its first loop mentions what is seen in the region outside the
loop. -/
theorem Opening.IsFirst.mentions_iff {opening : Opening} (h : opening.IsFirst) {stmt : Node}
    (hstmt : stmt.isCandidate = true) (hregion : (opening.fill [stmt]).isCandidate = false)
    (hplain : (opening.fill [stmt]).everywhere Node.hasPlainHead = true) :
    (opening.fill (opening.holder.form.standing [])).mentions name = true ↔
      (opening.fill [stmt]).SeenAt name fun place => ¬ opening.place <+: place := by
  have hrest := Node.isCandidate_of_splice? hregion (h.splice?_fill hstmt [])
  induction opening with
  | here frame =>
      refine Frame.mentions_iff h.closure hregion hrest (fun part hmem => ?_) ?_
        (fun i place hi => ?_) ?_
      · exact (Node.everywhere_mk.mp hplain).2 part (by grind)
      · simp [Opening.place]
      · simp [Opening.place, hi, eq_comm]
      · have hgap : mentionsIn name (frame.form.standing []) = false := by
          unfold Form.standing
          split <;> rfl
        simp [Opening.holder, hgap, Opening.place, Node.SeenAt]
  | inside frame opening ih =>
      obtain ⟨hclear, hfirst, hnone⟩ := h
      have hinner := ih hfirst (hnone stmt hstmt) ((Node.everywhere_mk.mp hplain).2 _ (by simp))
        (Node.isCandidate_of_splice? (hnone stmt hstmt) (hfirst.splice?_fill hstmt []))
      refine Frame.mentions_iff hclear.closure hregion hrest (fun part hmem => ?_) ?_
        (fun i place hi => ?_) ?_
      · exact (Node.everywhere_mk.mp hplain).2 part (by grind)
      · simp [Opening.place]
      · simp [Opening.place, hi, eq_comm]
      · simpa [mentionsIn, Opening.holder, Opening.place] using hinner

end

/-! ### The walk that remembers -/

/-- What the walk remembers on its way. -/
structure Search where
  /-- How many closures it is in. -/
  depth : Nat
  /-- Whether it has passed over the first loop. -/
  skipped : Bool
  found : Bool

/-- At the start of a region. -/
def Search.start : Search := ⟨0, false, false⟩

/-- Remember whether the name was found. -/
def Search.find (search : Search) (found : Bool) : Search :=
  { search with found := search.found || found }

mutual

/-- Look for a name in a tree.  The first loop that is in no closure is passed over, and once the
name is found, the nodes that `exits` picks are not entered any more. -/
def Node.search (exits : Form → Bool) (name : String) : Node → Search → Search
  | .mk form span parts, search =>
    if search.found && exits form then search
    else if search.depth == 0 && !search.skipped && (Node.mk form span parts).isCandidate then
      { search with skipped := true }
    else if form.ownsNames && decide (name ∈ (Node.mk form span parts).scopeNames) then search
    else match form, parts with
      | .ident _ used _, parts =>
        searchIn exits name parts (search.find (used == name))
      | .forStmt, [.mk (.varDecl (.lexical _) _) _ ds, test, update, body] =>
        if name ∈ bindingNamesOf ds then search
        else
          let search := update.search exits name
            (test.search exits name (searchInits exits name ds search))
          if body.bodyDeclares name then search else body.search exits name search
      | .forInStmt, [.mk (.varDecl (.lexical _) _) _ ds, right, body] =>
        if name ∈ bindingNamesOf ds then search
        else
          let search := right.search exits name (searchInits exits name ds search)
          if body.bodyDeclares name then search else body.search exits name search
      | .forOfStmt _, [.mk (.varDecl (.lexical _) _) _ ds, right, body] =>
        if name ∈ bindingNamesOf ds then search
        else
          let search := right.search exits name (searchInits exits name ds search)
          if body.bodyDeclares name then search else body.search exits name search
      | form, parts =>
        if form.isClosure then
          { searchIn exits name parts { search with depth := search.depth + 1 } with depth :=
            search.depth }
        else searchIn exits name parts search

/-- Look for a name in one tree after the other. -/
def searchIn (exits : Form → Bool) (name : String) : List Node → Search → Search
  | [], search => search
  | node :: nodes, search => searchIn exits name nodes (node.search exits name search)

/-- Look for a name in the initialisers of declarators. -/
def searchInits (exits : Form → Bool) (name : String) : List Node → Search → Search
  | [], search => search
  | .mk (.declarator _) _ [_, init] :: nodes, search =>
    searchInits exits name nodes (init.search exits name search)
  | _ :: nodes, search => searchInits exits name nodes search

end

namespace Search

variable {search : Search}

/-- The walk is in a closure or past the first loop. -/
def Settled (search : Search) : Prop := search.depth ≠ 0 ∨ search.skipped = true

theorem Settled.find (h : search.Settled) (found : Bool) : (search.find found).Settled := h

theorem find_find (search : Search) (found other : Bool) :
    (search.find found).find other = search.find (found || other) :=
  congrArg (fun found => { search with found := found }) (Bool.or_assoc _ _ _)

theorem find_false (search : Search) : search.find false = search :=
  congrArg (fun found => { search with found := found }) (Bool.or_false _)

theorem find_of_found (h : search.found = true) (found : Bool) : search.find found = search := by
  rw [find, h, Bool.true_or, ← h]

/-- A body is entered if it does not declare the name. -/
theorem find_body {declares mentions : Bool} {entered : Search}
    (h : entered = search.find mentions) :
    (if declares then search else entered) = search.find (!declares && mentions) := by
  cases declares with
  | true => exact search.find_false.symm
  | false => exact h

end Search

section

variable {exits : Form → Bool} {name : String}

mutual

/-- A walk that is in a closure or past the first loop finds what a tree mentions, whenever it
stops. -/
theorem Node.search_settled : ∀ (node : Node) {search : Search}, search.Settled →
    node.search exits name search = search.find (node.mentions name)
  | .mk form span parts, search, h => by
      have hskip : (search.depth == 0 && !search.skipped) = false := by
        rcases h with h | h <;> simp [h]
      unfold Node.search
      rw [hskip, Bool.false_and]
      split
      · next hexit =>
        rw [Bool.and_eq_true] at hexit
        exact (Search.find_of_found hexit.1 _).symm
      rw [if_neg (by simp)]
      split
      · next hown => rw [Node.mentions_of_owned (by simpa using hown), Search.find_false]
      next hown =>
      split
      · rw [Node.mentions, if_neg hown, searchIn_settled _ (h.find _), Search.find_find]
      · next ds test update body _ =>
        rw [Node.mentions, if_neg hown]
        split
        · next hname => simp [hname, Search.find_false]
        · next hname =>
          rw [searchInits_settled ds h, Node.search_settled test (h.find _), Search.find_find,
            Node.search_settled update (h.find _), Search.find_find]
          refine (Search.find_body (Node.search_settled body (h.find _))).trans ?_
          simp [hname, Search.find_find]
      · next ds right body _ =>
        rw [Node.mentions, if_neg hown]
        split
        · next hname => simp [hname, Search.find_false]
        · next hname =>
          rw [searchInits_settled ds h, Node.search_settled right (h.find _), Search.find_find]
          refine (Search.find_body (Node.search_settled body (h.find _))).trans ?_
          simp [hname, Search.find_find]
      · next ds right body _ =>
        rw [Node.mentions, if_neg hown]
        split
        · next hname => simp [hname, Search.find_false]
        · next hname =>
          rw [searchInits_settled ds h, Node.search_settled right (h.find _), Search.find_find]
          refine (Search.find_body (Node.search_settled body (h.find _))).trans ?_
          simp [hname, Search.find_find]
      · next hident hfor hforIn hforOf =>
        have hdeep : ({ search with depth := search.depth + 1 } : Search).Settled :=
          Or.inl (by simp)
        have hmentions : (Node.mk form span parts).mentions name = mentionsIn name parts := by
          unfold Node.mentions
          rw [if_neg hown]
          split
          · exact (hident _ _ _ rfl).elim
          · exact (hfor _ _ _ _ _ _ _ rfl rfl).elim
          · exact (hforIn _ _ _ _ _ _ rfl rfl).elim
          · exact (hforOf _ _ _ _ _ _ _ rfl rfl).elim
          · rfl
        rw [hmentions]
        split
        · rw [searchIn_settled _ hdeep]
          rfl
        · exact searchIn_settled _ h

theorem searchIn_settled : ∀ (nodes : List Node) {search : Search}, search.Settled →
    searchIn exits name nodes search = search.find (mentionsIn name nodes)
  | [], search, h => by rw [searchIn, mentionsIn, Search.find_false]
  | node :: nodes, search, h => by
      rw [searchIn, Node.search_settled node h, searchIn_settled nodes (h.find _), mentionsIn,
        Search.find_find]

theorem searchInits_settled : ∀ (nodes : List Node) {search : Search}, search.Settled →
    searchInits exits name nodes search = search.find (mentionsInInits name nodes)
  | [], search, h => by rw [searchInits, mentionsInInits, Search.find_false]
  | node :: nodes, search, h => by
      unfold searchInits mentionsInInits
      split
      · next heq => cases heq
      · next init others heq =>
        obtain ⟨rfl, rfl⟩ := List.cons.inj heq
        rw [Node.search_settled init h, searchInits_settled nodes (h.find _), Search.find_find]
      · next hnot heq =>
        obtain ⟨rfl, rfl⟩ := List.cons.inj heq
        split
        · next heq => cases heq
        · next heq =>
          cases heq
          exact (hnot _ _ _ _ rfl).elim
        · next heq =>
          cases heq
          exact searchInits_settled nodes h

end

/-- What the walk remembers after a tree, given whether the name is found in it and whether there
was a loop to pass over. -/
structure Search.Passes (search after : Search) (answer : Bool × Bool) : Prop where
  depth : after.depth = 0
  found : after.found = (search.found || answer.1)
  skipped : after.found = false → after.skipped = answer.2

theorem Search.passes_searchIn {parts : List Node} {search : Search} (hdepth : search.depth = 0)
    (hskipped : search.skipped = false)
    (hparts : ∀ part ∈ parts, ∀ search : Search, search.depth = 0 → search.skipped = false →
      search.Passes (part.search exits name search) (part.scan name)) :
    search.Passes (searchIn exits name parts search) (scanIn name parts) := by
  induction parts generalizing search with
  | nil => exact ⟨hdepth, (Bool.or_false _).symm, fun _ => hskipped⟩
  | cons part parts ih =>
      have hpart := hparts part List.mem_cons_self search hdepth hskipped
      have hrest := fun other hmem => hparts other (List.mem_cons_of_mem part hmem)
      rw [searchIn, scanIn]
      generalize part.search exits name search = after at hpart ⊢
      generalize part.scan name = answer at hpart ⊢
      obtain ⟨found, met⟩ := answer
      cases hfound : after.found with
      | true =>
          -- Whether the walk has met the loop by now or not, the name stays found.
          have hkept : (searchIn exits name parts after).depth = 0 ∧
              (searchIn exits name parts after).found = true := by
            cases hafter : after.skipped with
            | true =>
                rw [searchIn_settled parts (Or.inr hafter), Search.find_of_found hfound]
                exact ⟨hpart.depth, hfound⟩
            | false =>
                have hpasses := ih hpart.depth hafter hrest
                exact ⟨hpasses.depth, by rw [hpasses.found, hfound, Bool.true_or]⟩
          have hanswer : (search.found || found) = true := hpart.found.symm.trans hfound
          cases met with
          | _ =>
              refine ⟨hkept.1, ?_, fun h => absurd (hkept.2.symm.trans h) (by simp)⟩
              rw [hkept.2, ← Bool.or_assoc, hanswer, Bool.true_or]
      | false =>
          have hmet := hpart.skipped hfound
          have hanswer : (search.found || found) = false := hpart.found.symm.trans hfound
          cases met with
          | true =>
              rw [searchIn_settled parts (Or.inr hmet)]
              refine ⟨hpart.depth, ?_, fun _ => hmet⟩
              rw [Search.find, hfound, ← Bool.or_assoc, hanswer]
          | false =>
              have hpasses := ih hpart.depth hmet hrest
              refine ⟨hpasses.depth, ?_, hpasses.skipped⟩
              rw [hpasses.found, hfound, ← Bool.or_assoc, hanswer]

/-- A function expression has a function in it, and nothing else. -/
theorem Node.scanIn_of_functionExpr {own : Option Name} {span : Span} {parts : List Node}
    (hwf : (Node.mk (.functionExpr own) span parts).isWellFormed = true) :
    (scanIn name parts).2 = false := by
  obtain ⟨⟨form, functionSpan, inner⟩, rfl⟩ :=
    List.length_eq_one_iff.mp (Node.length_parts hwf (by simp) rfl)
  have hshape := (Node.isWellFormed_mk.mp hwf).1.resolve_left (by simp)
  have hcategory : form.category = .function := by
    simpa [Form.shape, Shape.admits, fillSlots, Slot.admits, Node.form] using hshape
  cases form with
  | function => rfl
  | ident role => cases role <;> cases hcategory
  | _ => cases hcategory

/-- A node that is no loop, no closure and no function with that name is a name or is looked through
part by part. -/
theorem Node.search_of_not_isCandidate {form : Form} {span : Span} {parts : List Node}
    {search : Search} (hexit : ¬ (search.found && exits form) = true)
    (hnode : (Node.mk form span parts).isCandidate = false) (hclosure : form.isClosure = false)
    (hown : ¬ (form.ownsNames = true ∧ name ∈ (Node.mk form span parts).scopeNames)) :
    ∃ here : Bool, (∀ found, form.finds name found = (here || found)) ∧
      (Node.mk form span parts).search exits name search = searchIn exits name parts
      (search.find here) := by
  have hloop := Node.isBlockLoop_of_not_isCandidate hnode
  unfold Node.search
  rw [if_neg hexit, hnode, Bool.and_false, if_neg (by simp), if_neg (by simpa using hown)]
  split
  · exact ⟨_, fun found => rfl, rfl⟩
  · cases hloop
  · cases hloop
  · cases hloop
  · next hident _ _ _ =>
    refine ⟨false, fun found => ?_, by rw [if_neg (by simp [hclosure]), Search.find_false]⟩
    rw [Bool.false_or, Bool.eq_iff_iff, @Form.finds_iff name _ span parts hclosure,
      or_iff_right fun ⟨_, _, heq⟩ => hident _ _ _ heq, and_iff_left hown]

/-- A node that keeps the name as its own is not entered, and the first loop is not in it. -/
theorem Node.scan_of_owned {form : Form} {span : Span} {parts : List Node}
    (hwf : (Node.mk form span parts).isWellFormed = true)
    (hnode : (Node.mk form span parts).isCandidate = false)
    (hown : form.ownsNames = true ∧ name ∈ (Node.mk form span parts).scopeNames) :
    (Node.mk form span parts).scan name = (false, false) := by
  rw [Node.scan, if_neg (by simp [hnode])]
  cases hclosure : form.isClosure with
  | true => rw [if_pos rfl, Node.mentions_of_owned hown]
  | false =>
      have hexpr : ∃ own, form = .functionExpr own := by
        obtain ⟨howns, -⟩ := hown
        unfold Form.ownsNames at howns
        split at howns
        · exact ⟨_, rfl⟩
        · rw [hclosure] at howns
          cases howns
      obtain ⟨own, rfl⟩ := hexpr
      have hfinds : (Form.functionExpr own).finds name (scanIn name parts).1 = false := by
        rw [← Bool.not_eq_true, @Form.finds_iff name _ span parts hclosure]
        simp [hown]
      rw [if_neg (by simp), hfinds, Node.scanIn_of_functionExpr hwf]

/-- A closure that does not bind the name is looked through. -/
theorem Node.search_of_isClosure {form : Form} {span : Span} {parts : List Node} {search : Search}
    (hexit : ¬ (search.found && exits form) = true) (hclosure : form.isClosure = true)
    (hown : ¬ (form.ownsNames = true ∧ name ∈ (Node.mk form span parts).scopeNames)) :
    (Node.mk form span parts).search exits name search =
      search.find ((Node.mk form span parts).mentions name) := by
  have hdeep : ({ search with depth := search.depth + 1 } : Search).Settled := Or.inl (by simp)
  have hnode := Node.isCandidate_of_isClosure hclosure span parts
  have hloop := Node.isBlockLoop_of_not_isCandidate hnode
  have hident : ¬ ∃ role optional, form = .ident role name optional := by
    rintro ⟨role, optional, rfl⟩
    cases hclosure
  have hmentions : (Node.mk form span parts).mentions name = mentionsIn name parts := by
    rw [Bool.eq_iff_iff, Node.mentions_of_not_owned hown hloop, or_iff_right hident]
  unfold Node.search
  rw [if_neg hexit, hnode, Bool.and_false, if_neg (by simp),
    if_neg (by simpa using hown), hmentions]
  split
  · cases hclosure
  · cases hloop
  · cases hloop
  · cases hloop
  · rw [if_pos hclosure, searchIn_settled parts hdeep]
    rfl

/-- Until the walk has passed over a loop, it goes like the one that tells whether there was one. -/
theorem Node.search_passes {node : Node} (hwf : node.isWellFormed = true) {search : Search}
    (hdepth : search.depth = 0) (hskipped : search.skipped = false) :
    search.Passes (node.search exits name search) (node.scan name) := by
  induction node using Node.inductionOn generalizing search with
  | step form span parts ih =>
      by_cases hexit : (search.found && exits form) = true
      · have hfound := (Bool.and_eq_true_iff.mp hexit).1
        unfold Node.search
        rw [if_pos hexit]
        exact ⟨hdepth, by rw [hfound, Bool.true_or], fun h =>
          absurd (hfound.symm.trans h) (by simp)⟩
      cases hnode : (Node.mk form span parts).isCandidate with
      | true =>
          unfold Node.search
          rw [if_neg hexit, if_pos (by simp [hdepth, hskipped, hnode]),
            Node.scan_of_isCandidate hnode]
          exact ⟨hdepth, (Bool.or_false _).symm, fun _ => rfl⟩
      | false =>
        by_cases hown : form.ownsNames = true ∧ name ∈ (Node.mk form span parts).scopeNames
        · unfold Node.search
          rw [if_neg hexit, hnode, Bool.and_false, if_neg (by simp), if_pos (by simpa using hown),
            Node.scan_of_owned hwf hnode hown]
          exact ⟨hdepth, (Bool.or_false _).symm, fun _ => hskipped⟩
        cases hclosure : form.isClosure with
        | true =>
            rw [Node.search_of_isClosure hexit hclosure hown, Node.scan, if_neg (by simp [hnode]),
              if_pos hclosure]
            exact ⟨hdepth, rfl, fun _ => hskipped⟩
        | false =>
            obtain ⟨here, hfinds, hsearch⟩ :=
              Node.search_of_not_isCandidate hexit hnode hclosure hown
            have hpasses : (search.find here).Passes (searchIn exits name parts (search.find here))
                (scanIn name parts) :=
              Search.passes_searchIn hdepth hskipped fun part hmem search =>
                ih part hmem (Node.isWellFormed_part hwf hmem)
            rw [hsearch, Node.scan, if_neg (by simp [hnode]), if_neg (by simp [hclosure]), hfinds]
            exact ⟨hpasses.depth, hpasses.found.trans (Bool.or_assoc _ _ _), hpasses.skipped⟩

end

/-- A region mentions a name if and only if the name stands at a place that is outside the first
loop and that nothing owns on the way there.

The walk that looks for the name may stop at any kind of node once it has found it, and the first
loop is the one that is found in the region. -/
theorem Node.mentionsOutside_iff_standing {region : Node} {name : String}
    (hwf : region.isWellFormed = true) (hregion : region.isCandidate = false)
    (hheads : region.everywhere Node.hasPlainHead = true) :
    (∀ exits : Form → Bool, (region.search exits name .start).found = region.mentionsOutside name) ∧
    region.firstPlace?.bind region.at? = region.firstCandidate? ∧
    (region.mentionsOutside name = true ↔
      ∃ place, region.NamesAt name place ∧ ¬ region.OwnedAt name place ∧
        ∀ first, region.firstPlace? = some first → ¬ first <+: place) := by
  refine ⟨fun exits => ?_, region.firstPlace?_bind_at?, ?_⟩
  · have hpasses : Search.start.Passes (region.search exits name .start) (region.scan name) :=
      Node.search_passes hwf rfl rfl
    rw [hpasses.found, Node.scan_eq hregion]
    rfl
  · cases hfirst : region.firstCandidate? with
    | none =>
        have hsplice : region.splice? [] = none := Node.splice?_eq_none hfirst []
        rw [Node.firstPlace?_eq_none.mpr hfirst, Node.mentionsOutside, hsplice, Option.getD_none,
          Node.mentions_iff hheads]
        simp [Node.SeenAt]
    | some stmt =>
        obtain ⟨opening, hopening, hstmt, rfl⟩ := Node.exists_opening hfirst
        rw [hopening.mentionsOutside_fill hstmt, hopening.mentions_iff hstmt hregion hheads,
          hopening.firstPlace?_fill hstmt]
        simp [Node.SeenAt]

/-- The program `for (let i = 0; ; ) {} for (let i = 0; ; ) { const x = i; } for (let j = x; ; ) {
const x = j; }`. -/
def siblingLoops : Node :=
  let at0 := Span.generated
  let declare := fun constant name init => Node.varDecl (.lexical constant) false at0
    [.declarator false at0 (.binding name false at0 .absent) init]
  let zero := Node.mk (.number 0 none) at0 []
  .mk (.program none) at0
    [.forStmt at0 (declare false "i" zero) .absent .absent (.block at0 []),
     .forStmt at0 (declare false "i" zero) .absent .absent
     (.block at0 [declare true "x" (.use "i" at0)]),
     .forStmt at0 (declare false "j" (.use "x" at0)) .absent .absent
      (.block at0 [declare true "x" (.use "j" at0)])]

/-- The head of the last loop uses an `x` that no loop owns.  Every `i` is owned. -/
theorem siblingLoops_standing :
    siblingLoops.isWellFormed = true ∧ siblingLoops.isCandidate = false ∧
      siblingLoops.everywhere Node.hasPlainHead = true ∧
      (∃ place, siblingLoops.NamesAt "x" place ∧ ¬ siblingLoops.OwnedAt "x" place ∧
        ∀ first, siblingLoops.firstPlace? = some first → ¬ first <+: place) ∧
      ∀ place, siblingLoops.NamesAt "i" place → [0] <+: place ∨ siblingLoops.OwnedAt "i" place := by
  have hwf : siblingLoops.isWellFormed = true := by decide +kernel
  have hregion : siblingLoops.isCandidate = false := by decide +kernel
  have hheads : siblingLoops.everywhere Node.hasPlainHead = true := by decide +kernel
  have hfirst : siblingLoops.firstPlace? = some [0] := by decide +kernel
  refine ⟨hwf, hregion, hheads, ?_, fun place hnames => ?_⟩
  · exact (Node.mentionsOutside_iff_standing hwf hregion hheads).2.2.mp (by decide +kernel)
  · by_contra hnot
    rw [not_or] at hnot
    have hi : siblingLoops.mentionsOutside "i" = true :=
      (Node.mentionsOutside_iff_standing hwf hregion hheads).2.2.mpr
      ⟨place, hnames, hnot.2, fun first h => by cases hfirst.symm.trans h; exact hnot.1⟩
    revert hi
    decide +kernel

end LoopLowering
