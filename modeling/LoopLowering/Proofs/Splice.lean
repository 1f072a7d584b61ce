/-
Putting statements in the place of the first loop of a region.

`Node.Spliced` says what it means to replace one loop of a tree: somewhere outside closures
the loop is a part of a node, and the replacement stands there instead.  What the library
finds and what it replaces are the same loop, so a region changes by a `Spliced` step, and
everything else about splicing is a matter of following the path to the loop.
-/
import LoopLowering.Proofs.Replacement

namespace LoopLowering

/-! ### The path to the loop -/

/-- What stands for a loop among the parts of a node of the given form. -/
def Form.standing (form : Form) (replacement : List Node) : List Node :=
  if form.isStmtList then replacement else [.block .generated replacement]

/-- The second tree is the first with `replacement` in the place of the loop `stmt`. -/
inductive Node.Spliced (stmt : Node) (replacement : List Node) : Node → Node → Prop
  | here {form : Form} {span : Span} {before after : List Node}
      (hclosure : form.isClosure = false) (hcandidate : stmt.isCandidate = true) :
      Spliced stmt replacement (.mk form span (before ++ stmt :: after))
        (.mk form span (before ++ form.standing replacement ++ after))
  | inside {form : Form} {span : Span} {before after : List Node} {node node' : Node}
      (hclosure : form.isClosure = false) (hcandidate : node.isCandidate = false)
      (h : Spliced stmt replacement node node') :
      Spliced stmt replacement (.mk form span (before ++ node :: after))
        (.mk form span (before ++ node' :: after))

/-- The loop that is found among the parts of a node is one of them, or in one of them. -/
theorem firstCandidateIn?_cases {nodes : List Node} {stmt : Node}
    (h : firstCandidateIn? nodes = some stmt) :
    ∃ before node after, nodes = before ++ node :: after ∧
      (∀ other ∈ before, other.isCandidate = false ∧ other.firstCandidate? = none) ∧
      (node = stmt ∧ stmt.isCandidate = true ∨
        node.isCandidate = false ∧ node.firstCandidate? = some stmt) := by
  induction nodes with
  | nil => cases h
  | cons node nodes ih =>
      rw [firstCandidateIn?] at h
      split at h
      · next hcandidate =>
        obtain rfl := Option.some.inj h
        exact ⟨[], _, nodes, rfl, by simp, Or.inl ⟨rfl, hcandidate⟩⟩
      · next hcandidate =>
        rw [Bool.not_eq_true] at hcandidate
        split at h
        · next loop hloop =>
          cases h
          exact ⟨[], node, nodes, rfl, by simp, Or.inr ⟨hcandidate, hloop⟩⟩
        · next hnone =>
          obtain ⟨before, found, after, rfl, hbefore, hfound⟩ := ih h
          refine ⟨node :: before, found, after, rfl, ?_, hfound⟩
          exact List.forall_mem_cons.mpr ⟨⟨hcandidate, hnone⟩, hbefore⟩

/-- Where there is no loop nothing is replaced. -/
theorem Node.splice?_eq_none {node : Node} (h : node.firstCandidate? = none)
    (replacement : List Node) : node.splice? replacement = none := by
  induction node using Node.inductionOn with
  | step form span parts ih =>
      rw [Node.firstCandidate?] at h
      rw [Node.splice?]
      split at h
      · next hclosure => rw [if_pos hclosure]
      · next hclosure =>
        rw [if_neg hclosure, Option.map_eq_none_iff]
        generalize form.isStmtList = inList
        induction parts with
        | nil => rfl
        | cons part parts hrest =>
            rw [firstCandidateIn?] at h
            rw [spliceIn?]
            split at h
            · cases h
            · next hcandidate =>
              rw [if_neg hcandidate]
              split at h
              · cases h
              · next hnone =>
                rw [ih part List.mem_cons_self hnone]
                simp only [Option.map_eq_none_iff]
                exact hrest (fun other hother => ih other (List.mem_cons_of_mem part hother)) h

/-- What stands before the loop is passed over. -/
theorem spliceIn?_append {before : List Node}
    (hbefore : ∀ other ∈ before, other.isCandidate = false ∧ other.firstCandidate? = none)
    (replacement : List Node) (inList : Bool) (nodes : List Node) :
    spliceIn? replacement inList (before ++ nodes) =
      (spliceIn? replacement inList nodes).map (before ++ ·) := by
  induction before with
  | nil => simp
  | cons node before ih =>
      obtain ⟨hcandidate, hnone⟩ := hbefore node List.mem_cons_self
      rw [List.cons_append, spliceIn?, hcandidate, Node.splice?_eq_none hnone,
        ih fun other hother => hbefore other (List.mem_cons_of_mem node hother)]
      simp [Function.comp_def]

/-- The loop that is found is the one that is replaced. -/
theorem Node.exists_spliced {node stmt : Node} (h : node.firstCandidate? = some stmt)
    (replacement : List Node) :
    ∃ node', node.splice? replacement = some node' ∧ Node.Spliced stmt replacement node node' := by
  induction node using Node.inductionOn with
  | step form span parts ih =>
      rw [Node.firstCandidate?] at h
      split at h
      · cases h
      · next hclosure =>
        rw [Bool.not_eq_true] at hclosure
        obtain ⟨before, node, after, rfl, hbefore, hfound⟩ := firstCandidateIn?_cases h
        rw [Node.splice?, hclosure, spliceIn?_append hbefore, spliceIn?]
        rcases hfound with ⟨rfl, hcandidate⟩ | ⟨hcandidate, hinside⟩
        · refine ⟨.mk form span (before ++ form.standing replacement ++ after), ?_,
            .here hclosure hcandidate⟩
          rw [if_pos hcandidate, Form.standing]
          cases form.isStmtList <;> simp
        · obtain ⟨node', hsplice, hspliced⟩ := ih node (by simp) hinside
          refine ⟨.mk form span (before ++ node' :: after), ?_,
            .inside hclosure hcandidate hspliced⟩
          simp [hcandidate, hsplice]

/-! ### What a replacement keeps -/

theorem Form.shape_of_isStmtList {form : Form} (h : form.isStmtList = true) :
    (form.shape = .repeated (.one Category.stmts) ∨ form.shape = .repeated (.one Category.items)) ∧
      form ≠ .list ∧ form ≠ .absent := by
  unfold Form.isStmtList at h
  split at h
  · exact ⟨Or.inl rfl, by simp⟩
  · exact ⟨Or.inl rfl, by simp⟩
  · exact ⟨Or.inr rfl, by simp⟩
  · exact ⟨Or.inr rfl, by simp⟩
  · cases h

theorem Node.category_of_isCandidate {stmt : Node} (h : stmt.isCandidate = true) :
    stmt.form.category = .stmt := by
  rcases Node.isCandidate_cases h with hloop | ⟨label, span, body, rfl, -⟩
  · unfold Node.isBlockLoop at hloop
    split at hloop
    · rfl
    · rfl
    · rfl
    · cases hloop
  · rfl

/-- Statements stand for a loop wherever several statements can. -/
theorem Shape.admits_standing {form : Form} (hlist : form.isStmtList = true)
    {before after : List Node} {stmt : Node} {replacement : List Node}
    (hreplacement : ∀ stmt ∈ replacement, stmt.IsStmt)
    (h : form.shape.admits (before ++ stmt :: after) = true) :
    form.shape.admits (before ++ replacement ++ after) = true := by
  have hadmits : ∀ categories, Category.stmts ⊆ categories →
      ∀ stmt ∈ replacement, (Slot.one categories).admits stmt = true := by
    intro categories hsub stmt hmem
    exact List.contains_iff_mem.mpr (hsub (hreplacement stmt hmem).1)
  rcases (Form.shape_of_isStmtList hlist).1 with hshape | hshape
  · rw [hshape, Shape.admits, List.all_append, List.all_cons, Bool.and_eq_true,
      Bool.and_eq_true] at h
    rw [hshape, Shape.admits, List.all_append, List.all_append, Bool.and_eq_true, Bool.and_eq_true]
    exact ⟨⟨h.1, List.all_eq_true.mpr (hadmits _ (List.Subset.refl _))⟩, h.2.2⟩
  · rw [hshape, Shape.admits, List.all_append, List.all_cons, Bool.and_eq_true,
      Bool.and_eq_true] at h
    rw [hshape, Shape.admits, List.all_append, List.all_append, Bool.and_eq_true, Bool.and_eq_true]
    exact ⟨⟨h.1, List.all_eq_true.mpr (hadmits _ (List.subset_cons_self _ _))⟩, h.2.2⟩

/-- The same node with one part replaced by another that fits. -/
theorem Node.FitsIn.replacePart {places : Form → Bool} {form : Form} (hplace : places form = true)
    {span : Span} {before after : List Node} {a b : Node}
    (hwf : (Node.mk form span (before ++ a :: after)).isWellFormed = true)
    (h : a.FitsIn places b) :
    (Node.mk form span (before ++ a :: after)).FitsIn places
      (.mk form span (before ++ b :: after)) := by
  have hparts := (Node.isWellFormed_mk.mp hwf).2
  refine Node.FitsIn.node hplace hwf (List.rel_append ?_ (.cons h ?_))
  · exact List.forall₂_same.mpr fun other hother => .refl (hparts other (by simp [hother]))
  · exact List.forall₂_same.mpr fun other hother => .refl (hparts other (by simp [hother]))

theorem Node.landmark_replacePart {form : Form} {span : Span}
    {before after : List Node} {a b : Node} (h : b.isLexicalDecl = a.isLexicalDecl) :
    (Node.mk form span (before ++ b :: after)).landmark =
      (Node.mk form span (before ++ a :: after)).landmark := by
  have hsame : ∀ nodes : List Node,
      List.Forall₂ (fun a b => b.isLexicalDecl = a.isLexicalDecl) nodes nodes :=
    fun nodes => List.forall₂_same.mpr fun _ _ => rfl
  exact Node.landmark_congr (List.rel_append (hsame before) (.cons h (hsame after)))

/-- Where a loop stands as a single statement a block can. -/
theorem Node.FitsIn.block_of_isCandidate {stmt : Node} (h : stmt.isCandidate = true)
    {replacement : List Node} (hreplacement : ∀ stmt ∈ replacement, stmt.IsStmt) :
    stmt.FitsIn (fun _ => true) (.block .generated replacement) := by
  have hcategory := Node.category_of_isCandidate h
  refine Node.FitsIn.of_category ?_ ?_ ?_ (Node.isStmt_block hreplacement).2
  · intro e
    rw [e] at hcategory
    cases hcategory
  · intro e
    rw [e] at hcategory
    cases hcategory
  · intro owner _ slot hslot hmem
    rw [hcategory] at hmem
    exact Form.block_mem_of_stmt_mem hslot hmem

theorem Node.tally_of_not_closure {gauge : Gauge}
    (hstop : ∀ landmark : Landmark, landmark.closure = false → gauge.stop landmark = false)
    {form : Form} {span : Span} {parts : List Node} (h : form.isClosure = false) :
    (Node.mk form span parts).tally gauge =
      gauge.weight (Node.mk form span parts).landmark + tallyIn gauge parts :=
  Node.tally_of_not_stop (hstop _ h)

namespace Node.Spliced

variable {stmt node node' : Node} {replacement : List Node}

theorem form_eq (h : Node.Spliced stmt replacement node node') : node'.form = node.form := by
  cases h <;> rfl

theorem isLexicalDecl_eq (h : Node.Spliced stmt replacement node node') :
    node'.isLexicalDecl = node.isLexicalDecl := by
  unfold Node.isLexicalDecl
  rw [h.form_eq]

/-- A tree with a loop replaced stands where the tree did. -/
theorem fitsIn (h : Node.Spliced stmt replacement node node')
    (hreplacement : ∀ stmt ∈ replacement, stmt.IsStmt) (hwf : node.isWellFormed = true) :
    node.FitsIn (fun _ => true) node' := by
  induction h with
  | @here form span before after hclosure hcandidate =>
      cases hlist : form.isStmtList with
      | true =>
          obtain ⟨-, hform, habsent⟩ := Form.shape_of_isStmtList hlist
          obtain ⟨hshape, hparts⟩ := Node.isWellFormed_mk.mp hwf
          rw [Form.standing, if_pos hlist]
          refine Node.FitsIn.of_category hform habsent (fun _ _ _ _ => id)
            (Node.isWellFormed_mk.mpr ⟨Or.inr ?_, fun part hmem => ?_⟩)
          · exact Shape.admits_standing hlist hreplacement (hshape.resolve_left hform)
          · simp only [List.mem_append] at hmem
            rcases hmem with (hmem | hmem) | hmem
            · exact hparts part (by simp [hmem])
            · exact (hreplacement part hmem).2
            · exact hparts part (by simp [hmem])
      | false =>
          rw [Form.standing, hlist, List.append_assoc]
          exact Node.FitsIn.replacePart rfl hwf
            (Node.FitsIn.block_of_isCandidate hcandidate hreplacement)
  | @inside form span before after node node' hclosure hcandidate h ih =>
      exact Node.FitsIn.replacePart rfl hwf (ih (Node.isWellFormed_part hwf (by simp)))

theorem isWellFormed_stmt (h : Node.Spliced stmt replacement node node')
    (hwf : node.isWellFormed = true) : stmt.isWellFormed = true := by
  induction h with
  | here => exact Node.isWellFormed_part hwf (by simp)
  | inside _ _ _ ih => exact ih (Node.isWellFormed_part hwf (by simp))

theorem landmark_eq (h : Node.Spliced stmt replacement node node') :
    node'.landmark = node.landmark := by
  cases h with
  | @here form span before after hclosure hcandidate =>
      cases hlist : form.isStmtList with
      | true =>
          unfold Form.isStmtList at hlist
          split at hlist
          · rfl
          · rfl
          · rfl
          · rfl
          · cases hlist
      | false =>
          rw [Form.standing, hlist, List.append_assoc]
          refine Node.landmark_replacePart ?_
          have hcategory := Node.category_of_isCandidate hcandidate
          cases hlexical : stmt.isLexicalDecl with
          | false => rfl
          | true =>
              rw [Node.category_of_isLexicalDecl hlexical] at hcategory
              cases hcategory
  | inside hclosure hcandidate h => exact Node.landmark_replacePart h.isLexicalDecl_eq

/-- The replacement takes over from the loop in every count that stops at closures only. -/
theorem tally (h : Node.Spliced stmt replacement node node') {gauge : Gauge}
    (hstop : ∀ landmark : Landmark, landmark.closure = false → gauge.stop landmark = false) :
    node'.tally gauge + stmt.tally gauge = node.tally gauge + tallyIn gauge replacement := by
  induction h with
  | @here form span before after hclosure hcandidate =>
      have hspliced : Node.Spliced stmt replacement (.mk form span (before ++ stmt :: after))
          (.mk form span (before ++ form.standing replacement ++ after)) :=
        .here hclosure hcandidate
      rw [Node.tally_of_not_closure hstop hclosure, Node.tally_of_not_closure hstop hclosure,
        hspliced.landmark_eq]
      have hstanding : tallyIn gauge (form.standing replacement) = tallyIn gauge replacement := by
        unfold Form.standing
        split
        · rfl
        · rw [tallyIn_cons, Node.tally_block, tallyIn_nil, Nat.add_zero]
      simp only [tallyIn_append, tallyIn_cons, hstanding]
      omega
  | @inside form span before after node node' hclosure hcandidate h ih =>
      have hspliced : Node.Spliced stmt replacement (.mk form span (before ++ node :: after))
          (.mk form span (before ++ node' :: after)) := .inside hclosure hcandidate h
      rw [Node.tally_of_not_closure hstop hclosure, Node.tally_of_not_closure hstop hclosure,
        hspliced.landmark_eq]
      simp only [tallyIn_append, tallyIn_cons]
      omega

end Node.Spliced

/-! ### No loop left -/

/-- A region in which no loop is found has none. -/
theorem Node.tally_inRegion_of_firstCandidate? {node : Node} (hcandidate : node.isCandidate = false)
    (h : node.firstCandidate? = none) : node.tally .inRegion = 0 := by
  induction node using Node.inductionOn with
  | step form span parts ih =>
      rw [Node.firstCandidate?] at h
      split at h
      · next hclosure => exact Node.tally_of_stop hclosure
      · next hclosure =>
        have hloop : (Node.mk form span parts).isBlockLoop = false := by
          by_contra hloop
          rw [Node.isCandidate_of_isBlockLoop (Bool.not_eq_false _ ▸ hloop)] at hcandidate
          cases hcandidate
        have hparts : tallyIn .inRegion parts = 0 := by
          clear hcandidate hloop
          induction parts with
          | nil => rfl
          | cons part parts hrest =>
              rw [firstCandidateIn?] at h
              split at h
              · cases h
              · next hpart =>
                split at h
                · cases h
                · next hnone =>
                  rw [tallyIn_cons, ih part List.mem_cons_self (Bool.not_eq_true _ ▸ hpart) hnone,
                    hrest (fun other hother => ih other (List.mem_cons_of_mem part hother)) h]
        have hweight : (Node.mk form span parts).landmark.loopWeight = 0 := by
          rw [Landmark.loopWeight_landmark, hloop]
          rfl
        rw [Node.tally_of_not_stop (Bool.not_eq_true _ ▸ hclosure)]
        exact Nat.add_eq_zero_iff.mpr ⟨hweight, hparts⟩

end LoopLowering
