/-
The first loop of a region is one place of it.

A region is searched for its first loop, the loop is replaced, and the rest is searched for names.
These are three walks, and the whole lowering rests on their meaning the same statement: where they
did not, the replacement of one loop would stand in the place of another.

An `Opening` is a region with one place left open.  A region with a first loop is an opening that
leads to it: nothing before the place holds a loop, and nothing around it is a loop or a closure.
What stands in the place plays no part in that.  So any loop put there is the one that is found,
replacing it fills the place and changes nothing else, and the names found outside it are those of
the opening.

`Node.scan` and `Node.loopView?` say the same by other means, the former in one walk which passes
over the first loop it meets, the latter without taking a loop apart.  As the walks agree, no
program comes to the refusals that are kept for the case that they do not.
-/
import LoopLowering.Proofs.Outcomes

namespace LoopLowering

/-! ### Regions with a place left open -/

/-- A node with a gap among its parts. -/
structure Frame where
  form : Form
  span : Span
  before : List Node
  after : List Node

/-- The node with these parts in the gap. -/
def Frame.around (frame : Frame) (nodes : List Node) : Node :=
  .mk frame.form frame.span (frame.before ++ nodes ++ frame.after)

/-- A tree with a place left open for statements. -/
inductive Opening where
  /-- The place is a gap among the parts of the node. -/
  | here (frame : Frame)
  /-- The place is in a part of the node. -/
  | inside (frame : Frame) (opening : Opening)

namespace Opening

/-- The node around the place. -/
def holder : Opening → Frame
  | here frame => frame
  | inside _ opening => opening.holder

/-- The tree with these nodes in the place. -/
def fill : Opening → List Node → Node
  | here frame, nodes => frame.around nodes
  | inside frame opening, nodes => frame.around [opening.fill nodes]

end Opening

/-- The gap is outside closures, and no loop stands before it. -/
structure Frame.Clear (frame : Frame) : Prop where
  closure : frame.form.isClosure = false
  before : ∀ node ∈ frame.before, node.isCandidate = false ∧ node.firstCandidate? = none

/-- A loop in the place is the first loop of the tree. -/
def Opening.IsFirst : Opening → Prop
  | here frame => frame.Clear
  | inside frame opening => frame.Clear ∧ opening.IsFirst ∧
      ∀ stmt, stmt.isCandidate = true → (opening.fill [stmt]).isCandidate = false

/-! ### What stands in the place -/

theorem Frame.around_singleton (frame : Frame) (node : Node) :
    frame.around [node] = .mk frame.form frame.span (frame.before ++ node :: frame.after) := by
  rw [Frame.around, List.append_assoc, List.singleton_append]

/-- A node is a loop whichever of two loops, or of two other nodes, is a part of it. -/
theorem Frame.isCandidate_around {frame : Frame} {node node' : Node}
    (hlexical : node'.isLexicalDecl = node.isLexicalDecl)
    (hcandidate : node'.isCandidate = node.isCandidate) :
    (frame.around [node']).isCandidate = (frame.around [node]).isCandidate := by
  -- The claim is the same in both directions, and one of them is enough.
  have himp : ∀ {a b : Node}, b.isLexicalDecl = a.isLexicalDecl → b.isCandidate = a.isCandidate →
      (frame.around [a]).isCandidate = true → (frame.around [b]).isCandidate = true := by
    intro a b hlexical hcandidate h
    rw [Frame.around_singleton] at h ⊢
    rcases Node.isCandidate_cases h with hloop | ⟨label, span, body, heq, hbody⟩
    · refine Node.isCandidate_of_isBlockLoop ?_
      by_contra hnot
      rw [Node.isBlockLoop_of_landmark (Node.landmark_replacePart hlexical.symm)
        (Bool.not_eq_true _ ▸ hnot)] at hloop
      cases hloop
    · obtain ⟨hform, -, hparts⟩ := Node.mk.inj heq
      obtain ⟨hbefore, rfl, hafter⟩ : frame.before = [] ∧ a = body ∧ frame.after = [] := by
        simpa [List.append_eq_singleton_iff] using hparts
      rw [hform, hbefore, hafter]
      exact (Node.isCandidate_labeled label frame.span b).trans (hcandidate.trans hbody)
  rw [Bool.eq_iff_iff]
  exact ⟨himp hlexical.symm hcandidate.symm, himp hlexical hcandidate⟩

theorem Node.isLexicalDecl_of_isCandidate {stmt : Node} (h : stmt.isCandidate = true) :
    stmt.isLexicalDecl = false := by
  by_contra hlexical
  have hcategory := Node.category_of_isLexicalDecl (Bool.not_eq_false _ ▸ hlexical)
  rw [Node.category_of_isCandidate h] at hcategory
  cases hcategory

namespace Opening

variable {opening : Opening} {stmt other : Node}

theorem form_fill (opening : Opening) (nodes nodes' : List Node) :
    (opening.fill nodes').form = (opening.fill nodes).form := by
  cases opening <;> rfl

/-- Which loop stands in the place does not matter for what is around it. -/
theorem isCandidate_fill (hstmt : stmt.isCandidate = true) (hother : other.isCandidate = true) :
    (opening.fill [other]).isCandidate = (opening.fill [stmt]).isCandidate := by
  induction opening with
  | here frame =>
      apply Frame.isCandidate_around
      · rw [Node.isLexicalDecl_of_isCandidate hother, Node.isLexicalDecl_of_isCandidate hstmt]
      · rw [hother, hstmt]
  | inside frame opening ih =>
      apply Frame.isCandidate_around
      · rw [Node.isLexicalDecl, Node.isLexicalDecl, opening.form_fill [stmt]]
      · exact ih

end Opening

/-- What stands before the loop is passed over. -/
theorem firstCandidateIn?_append {before : List Node}
    (hbefore : ∀ node ∈ before, node.isCandidate = false ∧ node.firstCandidate? = none)
    (nodes : List Node) : firstCandidateIn? (before ++ nodes) = firstCandidateIn? nodes := by
  induction before with
  | nil => rfl
  | cons node before ih =>
      obtain ⟨⟨hcandidate, hnone⟩, hrest⟩ := List.forall_mem_cons.mp hbefore
      rw [List.cons_append, firstCandidateIn?, hcandidate, hnone]
      exact ih hrest

namespace Opening.IsFirst

variable {opening : Opening} {stmt : Node}

/-- The loop in the place is found. -/
theorem firstCandidate?_fill (h : opening.IsFirst) (hstmt : stmt.isCandidate = true) :
    (opening.fill [stmt]).firstCandidate? = some stmt := by
  induction opening with
  | here frame =>
      rw [Opening.fill, Frame.around_singleton, Node.firstCandidate?, h.closure,
        firstCandidateIn?_append h.before, firstCandidateIn?, if_pos hstmt]
      rfl
  | inside frame opening ih =>
      obtain ⟨hclear, hfirst, hnone⟩ := h
      rw [Opening.fill, Frame.around_singleton, Node.firstCandidate?, hclear.closure,
        firstCandidateIn?_append hclear.before, firstCandidateIn?, hnone stmt hstmt, ih hfirst]
      rfl

/-- The loop in the place is replaced, and nothing else. -/
theorem splice?_fill (h : opening.IsFirst) (hstmt : stmt.isCandidate = true)
    (replacement : List Node) :
    (opening.fill [stmt]).splice? replacement =
      some (opening.fill (opening.holder.form.standing replacement)) := by
  induction opening with
  | here frame =>
      rw [Opening.fill, Frame.around_singleton, Node.splice?, h.closure,
        spliceIn?_append h.before, spliceIn?, if_pos hstmt]
      cases hlist : frame.form.isStmtList <;>
        simp [Opening.fill, Opening.holder, Frame.around, Form.standing, hlist]
  | inside frame opening ih =>
      obtain ⟨hclear, hfirst, hnone⟩ := h
      rw [Opening.fill, Frame.around_singleton, Node.splice?, hclear.closure,
        spliceIn?_append hclear.before, spliceIn?, hnone stmt hstmt, ih hfirst]
      simp [Opening.fill, Opening.holder, Frame.around]

/-- What is mentioned outside the loop in the place does not depend on it. -/
theorem mentionsOutside_fill (h : opening.IsFirst) (hstmt : stmt.isCandidate = true)
    (name : String) : (opening.fill [stmt]).mentionsOutside name =
      (opening.fill (opening.holder.form.standing [])).mentions name := by
  rw [Node.mentionsOutside, h.splice?_fill hstmt]
  rfl

end Opening.IsFirst

/-- A region with a first loop is an opening with the loop in it. -/
theorem Node.exists_opening {region stmt : Node} (h : region.firstCandidate? = some stmt) :
    ∃ opening : Opening, opening.IsFirst ∧ stmt.isCandidate = true ∧
      region = opening.fill [stmt] := by
  induction region using Node.inductionOn with
  | step form span parts ih =>
      rw [Node.firstCandidate?] at h
      split at h
      · cases h
      · next hclosure =>
        obtain ⟨before, node, after, rfl, hbefore, hfound⟩ := firstCandidateIn?_cases h
        have hclear : Frame.Clear ⟨form, span, before, after⟩ :=
          ⟨Bool.not_eq_true _ ▸ hclosure, hbefore⟩
        rcases hfound with ⟨rfl, hstmt⟩ | ⟨hnode, hinside⟩
        · refine ⟨.here ⟨form, span, before, after⟩, hclear, hstmt, ?_⟩
          rw [Opening.fill, Frame.around_singleton]
        · obtain ⟨opening, hfirst, hstmt, rfl⟩ := ih node (by simp) hinside
          refine ⟨.inside ⟨form, span, before, after⟩ opening, ⟨hclear, hfirst, ?_⟩, hstmt, ?_⟩
          · intro other hother
            rw [Opening.isCandidate_fill hstmt hother]
            exact hnode
          · rw [Opening.fill, Frame.around_singleton]

theorem Node.isSome_splice? (region : Node) (replacement : List Node) :
    (region.splice? replacement).isSome = region.firstCandidate?.isSome := by
  cases hfirst : region.firstCandidate? with
  | none => rw [Node.splice?_eq_none hfirst]
  | some stmt =>
      obtain ⟨region', hsplice, -⟩ := Node.exists_spliced hfirst replacement
      rw [hsplice]
      rfl

/-- A region does not become a loop when its first loop is replaced. -/
theorem Node.isCandidate_of_splice? {region region' : Node} {replacement : List Node}
    (hregion : region.isCandidate = false) (h : region.splice? replacement = some region') :
    region'.isCandidate = false := by
  have hsome : region.firstCandidate?.isSome = true := by
    rw [← region.isSome_splice? replacement, h]
    rfl
  obtain ⟨stmt, hfirst⟩ := Option.isSome_iff_exists.mp hsome
  obtain ⟨spliced, hsplice, hspliced⟩ := Node.exists_spliced hfirst replacement
  obtain rfl : spliced = region' := Option.some.inj (hsplice.symm.trans h)
  exact hspliced.isCandidate_eq_false (Node.isBlockLoop_of_not_isCandidate hregion)

/-! ### Looking for a name in one walk -/

/-- Whether a node that is no loop and no closure mentions a name, given whether its parts do. -/
def Form.finds (name : String) (found : Bool) : Form → Bool
  | .ident _ used _ => used == name || found
  | .functionExpr (some own) => !(own.text == name) && found
  | _ => found

mutual

/-- Look for a name in a tree, passing over the first loop on the way: whether the name is found,
and whether there was a loop to pass over. -/
def Node.scan (name : String) : Node → Bool × Bool
  | .mk form span parts =>
    if (Node.mk form span parts).isCandidate then (false, true)
    else if form.isClosure then ((Node.mk form span parts).mentions name, false)
    else ((form.finds name (scanIn name parts).1), (scanIn name parts).2)

/-- Look for a name in a list of trees, passing over the first loop on the way. -/
def scanIn (name : String) : List Node → Bool × Bool
  | [] => (false, false)
  | node :: nodes =>
    match node.scan name with
    | (found, true) => (found || mentionsIn name nodes, true)
    | (found, false) => (found || (scanIn name nodes).1, (scanIn name nodes).2)

end

/-- A node that is no loop and no closure mentions what its parts mention. -/
theorem Node.mentions_of_not_isCandidate {form : Form} (hclosure : form.isClosure = false)
    {span : Span} {parts : List Node} (h : (Node.mk form span parts).isCandidate = false)
    (name : String) :
    (Node.mk form span parts).mentions name = form.finds name (mentionsIn name parts) := by
  by_cases hexpr : ∃ own, form = .functionExpr own
  · obtain ⟨own | own, rfl⟩ := hexpr
    · rfl
    · unfold Node.mentions
      by_cases hname : name = own.text
      · simp [Form.ownsNames, Node.scopeNames, Form.finds, hname]
      · simp [Form.ownsNames, Node.scopeNames, Form.finds, hname, Ne.symm hname]
  · have howns : form.ownsNames = false := by
      unfold Form.ownsNames
      split
      · exact absurd ⟨_, rfl⟩ hexpr
      · exact hclosure
    unfold Node.mentions
    rw [howns, Bool.false_and]
    simp only [Bool.false_eq_true, if_false]
    split
    · rfl
    · cases h
    · cases h
    · cases h
    · next hident _ _ _ =>
      unfold Form.finds
      split
      · exact (hident _ _ _ rfl).elim
      · exact absurd ⟨_, rfl⟩ hexpr
      · rfl

theorem Node.scan_of_isCandidate {node : Node} (h : node.isCandidate = true) (name : String) :
    node.scan name = (false, true) := by
  obtain ⟨form, span, parts⟩ := node
  rw [Node.scan, if_pos h]

/-- The walk finds the name where it is once the loop is taken out, and meets the loop that is
taken out. -/
theorem Node.scan_eq {node : Node} (h : node.isCandidate = false) (name : String) :
    node.scan name = (node.mentionsOutside name, (node.splice? []).isSome) := by
  induction node using Node.inductionOn with
  | step form span parts ih =>
      have hparts : ∀ inList, scanIn name parts =
          (mentionsIn name ((spliceIn? [] inList parts).getD parts),
            (spliceIn? [] inList parts).isSome) := by
        intro inList
        clear h
        induction parts with
        | nil => rfl
        | cons part parts hrest =>
            rw [scanIn, spliceIn?]
            by_cases hpart : part.isCandidate = true
            · have hblock : (Node.block .generated []).mentions name = false := rfl
              rw [Node.scan_of_isCandidate hpart, if_pos hpart]
              cases inList <;> simp [mentionsIn, hblock]
            · rw [ih part List.mem_cons_self (Bool.not_eq_true _ ▸ hpart), if_neg hpart,
                Node.mentionsOutside]
              cases hsplice : part.splice? [] with
              | some part' => simp [mentionsIn]
              | none =>
                  simp only [Option.isSome_none, Option.getD_none, Option.isSome_map,
                    hrest fun other hother => ih other (List.mem_cons_of_mem part hother)]
                  cases spliceIn? [] inList parts <;> rfl
      cases hclosure : form.isClosure with
      | true => rw [Node.scan, h, hclosure, Node.mentionsOutside, Node.splice?, hclosure]; rfl
      | false =>
          have hsplice : (Node.mk form span parts).splice? [] =
              (spliceIn? [] form.isStmtList parts).map (.mk form span) := by
            rw [Node.splice?, hclosure]
            rfl
          rw [Node.scan, h, hclosure, hparts form.isStmtList, Node.mentionsOutside, hsplice]
          cases hspliced : spliceIn? [] form.isStmtList parts with
          | none =>
              show _ = ((Node.mk form span parts).mentions name, false)
              rw [Node.mentions_of_not_isCandidate hclosure h]
              rfl
          | some parts' =>
              have hcandidate : (Node.mk form span parts').isCandidate = false :=
                Node.isCandidate_of_splice? h (hsplice.trans (by rw [hspliced]; rfl))
              show _ = ((Node.mk form span parts').mentions name, true)
              rw [Node.mentions_of_not_isCandidate hclosure hcandidate]
              rfl

/-! ### Looking at a loop without taking it apart -/

/-- What can be seen of a block-scoped loop through its labels. -/
structure LoopView where
  decl : Node
  /-- The expressions of the head that are there. -/
  exprs : List Node
  body : Node

/-- Look at a block-scoped loop. -/
def Node.loopView? : Node → Option LoopView
  | .mk (.labeled _) _ [body] => body.loopView?
  | .mk .forStmt _ [head, test, update, body] =>
    if head.isLexicalDecl then some ⟨head, [test, update].filter (!·.isAbsent), body⟩ else none
  | .mk .forInStmt _ [head, right, body] | .mk (.forOfStmt _) _ [head, right, body] =>
    if head.isLexicalDecl then some ⟨head, [right].filter (!·.isAbsent), body⟩ else none
  | _ => none

/-- What can be seen of a loop that is taken apart. -/
def Loop.view (loop : Loop) : LoopView :=
  ⟨loop.decl.toNode, loop.head.exprs.filter (!·.isAbsent), loop.body⟩

/-- A statement is taken apart if and only if it looks like a loop, and into what is seen. -/
theorem Node.loopView?_eq (stmt : Node) : stmt.loopView? = (Loop.ofNode? stmt).map Loop.view := by
  fun_induction Node.loopView? stmt with
  | case1 label span body ih =>
      rw [ih, Loop.ofNode?, Option.map_map]
      rfl
  | case2 span head test update body hlexical =>
      obtain ⟨constant, declare, declSpan, ds, rfl⟩ := Node.isLexicalDecl_iff.mp hlexical
      rfl
  | case3 span head test update body hlexical =>
      rw [Loop.ofNode?_of_not_isBlockLoop (by simp) (Bool.not_eq_true _ ▸ hlexical)]
      rfl
  | case4 span head right body hlexical =>
      obtain ⟨constant, declare, declSpan, ds, rfl⟩ := Node.isLexicalDecl_iff.mp hlexical
      rfl
  | case5 span head right body hlexical =>
      rw [Loop.ofNode?_of_not_isBlockLoop (by simp) (Bool.not_eq_true _ ▸ hlexical)]
      rfl
  | case6 isAwait span head right body hlexical =>
      obtain ⟨constant, declare, declSpan, ds, rfl⟩ := Node.isLexicalDecl_iff.mp hlexical
      rfl
  | case7 isAwait span head right body hlexical =>
      rw [Loop.ofNode?_of_not_isBlockLoop (by simp) (Bool.not_eq_true _ ▸ hlexical)]
      rfl
  | case8 stmt hlabeled hfor hforIn hforOf =>
      unfold Loop.ofNode?
      split
      · exact (hlabeled _ _ _ rfl).elim
      · exact (hfor _ _ _ _ _ rfl).elim
      · exact (hforIn _ _ _ _ rfl).elim
      · exact (hforOf _ _ _ _ _ rfl).elim
      · rfl

/-! ### The refusals that do not occur -/

theorem extractionRefusal?_ne_internal {record : Capture.Record} {span other : Span}
    {message : String} : extractionRefusal? record span ≠ some (.internal message other) := by
  unfold extractionRefusal?
  split <;> simp

/-- A block-scoped loop is refused for what is in it. -/
theorem Node.lowerLoop_ne_internal {stmt : Node} (hstmt : stmt.isCandidate = true)
    {mentioned : String → Bool} {options : Options} {names names' : Registry} {message : String}
    {span : Span} :
    ¬ (stmt.lowerLoop mentioned options).Fails names (.internal message span) names' := by
  intro h
  obtain ⟨loop, hloop⟩ := Option.isSome_iff_exists.mp hstmt
  rw [Node.lowerLoop, hloop] at h
  rcases Loop.fails_lower h with ⟨hhead, -⟩ | ⟨hinner, -⟩ | ⟨-, _, _, _, -, hextracted⟩
  · cases hhead
  · cases hinner
  · rcases Loop.fails_extracted hextracted with hrefusal | ⟨_, _, _, hstray, -, -⟩
    · exact extractionRefusal?_ne_internal hrefusal
    · cases hstray

/-- A run of the lowering never comes to a moment at which the request does not fit the tree. -/
theorem Moment.refuses_ne_internal {moment : Moment} {options : Options} {names' : Registry}
    {message : String} {span : Span} :
    ¬ moment.Refuses options (.internal message span) names' := by
  intro h
  obtain ⟨region, region', hrefuses⟩ := Node.AtRegion.exists_region h
  obtain ⟨hfirst, hfails⟩ := hrefuses
  obtain ⟨-, -, hstmt, -⟩ := Node.exists_opening hfirst
  exact Node.lowerLoop_ne_internal hstmt hfails

theorem Node.lowerWith_ne_internal {program : Node} (hprogram : program.IsProgram)
    {options : Options} {names names' : Registry} {message : String} {span : Span} :
    ¬ (program.lowerWith options).Fails names (.internal message span) names' := by
  intro h
  obtain ⟨reports, last, -, hends⟩ := Node.lowerWith_runs hprogram options names
  rw [show (program.lowerWith options).run.run names = _ from h] at hends
  cases hends with
  | refused hrefuses => exact Moment.refuses_ne_internal hrefuses

/-- The walks over a region mean the same statement.  There is a loop to find if and only if there
is one to replace; it stands in a place of the region, which is what is filled when it is replaced
and whose surroundings are searched for names, whichever loop stands there; one walk that passes
over it finds the same names; a statement that looks like a loop can be taken apart into what is
seen; and no program is refused because these disagree. -/
theorem Node.region_walks_agree :
    (∀ (region : Node) (replacement : List Node),
      (region.splice? replacement).isSome = region.firstCandidate?.isSome) ∧
    (∀ region stmt : Node, region.firstCandidate? = some stmt →
      ∃ opening : Opening, region = opening.fill [stmt] ∧
        (∀ replacement, region.splice? replacement =
          some (opening.fill (if opening.holder.form.isStmtList then replacement
            else [.block .generated replacement]))) ∧
        ∀ other : Node, other.isCandidate = true →
          (opening.fill [other]).firstCandidate? = some other ∧
            ∀ name, (opening.fill [other]).mentionsOutside name = region.mentionsOutside name) ∧
    (∀ region : Node, region.isCandidate = false →
      ∀ name, region.scan name = (region.mentionsOutside name, region.firstCandidate?.isSome)) ∧
    (∀ stmt : Node, (Loop.ofNode? stmt).map Loop.view = stmt.loopView? ∧
      stmt.isCandidate = stmt.loopView?.isSome) ∧
    ∀ (program : Node) (options : Options), program.IsProgram →
      ∀ (message : String) (span : Span),
        program.lower options ≠ .error (.internal message span) ∧
          ∀ names : Registry, ((program.lowerWith options).run.run names).1 ≠
            .error (.internal message span) := by
  refine ⟨Node.isSome_splice?, ?_, ?_, ?_, ?_⟩
  · intro region stmt hfirst
    obtain ⟨opening, hopening, hstmt, rfl⟩ := Node.exists_opening hfirst
    refine ⟨opening, rfl, hopening.splice?_fill hstmt, fun other hother => ⟨?_, fun name => ?_⟩⟩
    · exact hopening.firstCandidate?_fill hother
    · rw [hopening.mentionsOutside_fill hother, hopening.mentionsOutside_fill hstmt]
  · intro region hregion name
    rw [Node.scan_eq hregion, Node.isSome_splice?]
  · intro stmt
    rw [Node.loopView?_eq, Option.isSome_map]
    exact ⟨rfl, rfl⟩
  · intro program options hprogram message span
    have hlowerWith : ∀ names : Registry, ((program.lowerWith options).run.run names).1 ≠
        .error (.internal message span) := by
      intro names h
      exact Node.lowerWith_ne_internal hprogram (Prod.ext h rfl)
    refine ⟨?_, hlowerWith⟩
    intro h
    unfold Node.lower at h
    cases hresult : ((program.lowerWith options).run.run (.ofTree program)).1 with
    | ok result => rw [hresult] at h; cases h
    | error refusal =>
        rw [hresult] at h
        cases h
        exact hlowerWith _ hresult

/-- A loop that is the only statement of a branch whose test uses the name of its variable. -/
def guardedLoop : Node :=
  let at0 := Span.generated
  .mk (.program none) at0
    [.ifStmt (.use "x" at0)
      (.forOfStmt false ⟨7, 30⟩
        (.varDecl (.lexical true) false at0
          [.declarator false at0 (.binding "x" false at0 .absent) .absent])
        (.use "xs" at0) (.block at0 [])) at0]

/-- The place of the loop is in the branch, and takes another loop.  Outside it the test uses `x`,
and nothing uses `xs`. -/
theorem guardedLoop_walks_agree :
    (∃ stmt other : Node, guardedLoop.firstCandidate? = some stmt ∧
      (outerJump true).firstCandidate? = some other ∧
      ∃ opening : Opening, guardedLoop = opening.fill [stmt] ∧
        (opening.fill [other]).firstCandidate? = some other) ∧
      guardedLoop.mentionsOutside "x" = true ∧ guardedLoop.mentionsOutside "xs" = false ∧
      ∀ message span, guardedLoop.lower {} ≠ .error (.internal message span) := by
  obtain ⟨-, hopening, hscan, -, hlower⟩ := Node.region_walks_agree
  have hregion : guardedLoop.isCandidate = false := by decide +kernel
  refine ⟨?_, ?_, ?_,
    fun message span => (hlower guardedLoop {} (by decide +kernel) message span).1⟩
  · let other := (outerJump true).parts.headD .absent
    obtain ⟨stmt, hfirst⟩ := Option.isSome_iff_exists.mp
      (show guardedLoop.firstCandidate?.isSome = true by decide +kernel)
    obtain ⟨opening, hfill, -, hother⟩ := hopening guardedLoop stmt hfirst
    exact ⟨stmt, other, hfirst, rfl, opening, hfill, (hother other (by decide +kernel)).1⟩
  · have hx := congrArg Prod.fst (hscan guardedLoop hregion "x")
    exact hx.symm.trans (by decide +kernel)
  · have hxs := congrArg Prod.fst (hscan guardedLoop hregion "xs")
    exact hxs.symm.trans (by decide +kernel)

end LoopLowering
