/-
Trees in which loops are judged alike.

What decides whether a loop is refused is found by reading the loop, so a rewriting keeps the
verdict on every loop in a tree if it changes nothing a reader would tell.  Most findings tell
nothing: which names are free, which variables are assigned or declared.  Those that tell are
that a closure reaches a binding and that something in the body belongs to the function around
it.

A rewriting changes names everywhere, or statements outside closures, or the jumps among
these.  `Node.Alike` says of two trees that such a rewriting made one of the other without
changing what a reader tells of the loops in it, and `Node.Alike.node` carries it from the
parts of a node to the node.
-/
import LoopLowering.Proofs.Places
import LoopLowering.Proofs.Resolution

namespace LoopLowering

namespace Capture

/-! ### Findings that tell -/

/-- Whether a finding decides about a loop: whether its body becomes a function, and whether
the loop is refused. -/
def Finding.isTelling : Finding → Bool
  | .captured _ | .suspends _ _ | .functionBound _ _ | .destructuringVar _ => true
  | _ => false

/-- The findings of a tree that tell. -/
def tellings (ctx : Context) (node : Node) : List Finding :=
  (findings ctx node).filter Finding.isTelling

/-- The findings of a list of trees that tell. -/
def tellingsIn (ctx : Context) (nodes : List Node) : List Finding :=
  nodes.flatMap (tellings ctx)

theorem tellings_mk (ctx : Context) (form : Form) (span : Span) (parts : List Node) :
    tellings ctx (.mk form span parts) =
      (ctx.own (.mk form span parts)).filter Finding.isTelling ++
        tellingsIn (ctx.enter (.mk form span parts)) parts := by
  rw [tellings, findings, List.filter_append, findingsIn_eq_flatMap, List.filter_flatMap]
  rfl

theorem Finding.findSome?_filter {α : Type} {f : Finding → Option α} {findings : List Finding}
    (hf : ∀ finding, finding.isTelling = false → f finding = none) :
    (findings.filter isTelling).findSome? f = findings.findSome? f := by
  induction findings with
  | nil => rfl
  | cons finding findings ih =>
      cases htelling : finding.isTelling with
      | true => rw [List.filter_cons_of_pos htelling, List.findSome?_cons, List.findSome?_cons, ih]
      | false =>
          rw [List.filter_cons_of_neg (by simp [htelling]), List.findSome?_cons,
            hf finding htelling, ih]

/-- Findings of the same tellings show the same captures. -/
theorem captured_mem_of_tellings {findings others : List Finding}
    (h : findings.filter Finding.isTelling = others.filter Finding.isTelling) (origin : Origin) :
    Finding.captured origin ∈ findings ↔ Finding.captured origin ∈ others := by
  have hiff := congrArg (Finding.captured origin ∈ ·) h
  simpa [Finding.isTelling] using hiff

/-- A record says no more of a loop than the findings that tell. -/
theorem Record.ofFindings_of_tellings {findings others : List Finding}
    (h : findings.filter Finding.isTelling = others.filter Finding.isTelling) :
    (Record.ofFindings findings).needsExtraction = (Record.ofFindings others).needsExtraction ∧
      (Record.ofFindings findings).innerLoopBindingCaptured =
        (Record.ofFindings others).innerLoopBindingCaptured ∧
      (Record.ofFindings findings).isBound = (Record.ofFindings others).isBound := by
  have hmem := captured_mem_of_tellings h
  have hsome : ∀ {α : Type} (f : Finding → Option α),
      (∀ finding, finding.isTelling = false → f finding = none) →
        findings.findSome? f = others.findSome? f := by
    intro α f hf
    rw [← Finding.findSome?_filter hf, h, Finding.findSome?_filter hf]
  refine ⟨?_, ?_, ?_⟩
  · simp only [Record.needsExtraction, Record.ofFindings, hmem]
  · simp only [Record.ofFindings, hmem]
  · simp only [Record.isBound, Record.ofFindings]
    rw [hsome, hsome, hsome]
    all_goals
      intro finding hfinding
      cases finding with
      | captured | suspends | functionBound | destructuringVar => cases hfinding
      | _ => rfl

/-! ### What a node tells by itself -/

theorem Context.filter_isTelling_writes (ctx : Context) (names : List String) :
    (ctx.writes names).filter Finding.isTelling = [] := by
  rw [List.filter_eq_nil_iff]
  intro finding h
  obtain ⟨name, -, h⟩ := List.mem_flatMap.mp h
  unfold Context.write at h
  split at h
  · cases h
  · split at h
    · rw [List.mem_singleton.mp h]; simp [Finding.isTelling]
    · cases h

theorem Context.filter_isTelling_declarations (ctx : Context) (names : List String) :
    (ctx.declarations names).filter Finding.isTelling = [] := by
  rw [List.filter_eq_nil_iff]
  intro finding h
  unfold Context.declarations at h
  split at h
  · obtain ⟨name, -, rfl⟩ := List.mem_map.mp h; simp [Finding.isTelling]
  · obtain ⟨name, -, rfl⟩ := List.mem_map.mp h; simp [Finding.isTelling]
  · cases h

theorem Context.varDeclarator_cases (span : Span) (declarator : Node) :
    (declarator.declaresName = true ∧ ∃ name, varDeclarator span declarator = .bodyVar name) ∨
      declarator.declaresName = false ∧ varDeclarator span declarator = .destructuringVar span := by
  unfold varDeclarator Node.declaresName
  split <;> simp_all

theorem Context.filter_isTelling_varDeclarator (span : Span) (declarators : List Node) :
    (declarators.map (varDeclarator span)).filter Finding.isTelling =
      ((declarators.map Node.declaresName).filter (!·)).map fun _ => .destructuringVar span := by
  induction declarators with
  | nil => rfl
  | cons declarator declarators ih =>
      simp only [List.map_cons, List.filter_cons, ih]
      rcases Context.varDeclarator_cases span declarator with ⟨hnames, name, heq⟩ | ⟨hnames, heq⟩
      · simp [hnames, heq, Finding.isTelling]
      · simp [hnames, heq, Finding.isTelling]

/-- Apart from the declarators of a `var`, what a node tells by itself depends on its form
only. -/
theorem Context.filter_isTelling_own (ctx : Context) {form : Form} (span : Span)
    {parts parts' : List Node} (hempty : parts' = [] ↔ parts = [])
    (hvar : ∀ declare, form = .varDecl .var declare →
      parts'.map Node.declaresName = parts.map Node.declaresName) :
    (ctx.own (.mk form span parts')).filter Finding.isTelling =
      (ctx.own (.mk form span parts)).filter Finding.isTelling := by
  by_cases hform : ∃ declare, form = .varDecl .var declare
  · obtain ⟨declare, rfl⟩ := hform
    simp only [Context.own]
    split
    · rw [Context.filter_isTelling_varDeclarator, Context.filter_isTelling_varDeclarator,
        hvar declare rfl]
    · rfl
  · cases parts with
    | nil => rw [hempty.mpr rfl]
    | cons part parts =>
        obtain _ | ⟨part', parts'⟩ := parts'
        · exact absurd (hempty.mp rfl) (by simp)
        · cases form with
          | varDecl kind declare =>
              cases kind with
              | var => exact absurd ⟨declare, rfl⟩ hform
              | lexical => rfl
          | assign | update | forInStmt =>
              simp only [Context.own, Context.filter_isTelling_writes]
          | forOfStmt =>
              simp only [Context.own, List.filter_append, Context.filter_isTelling_writes]
          | block => simp only [Context.own, Context.filter_isTelling_declarations]
          | metaProperty kind => cases kind <;> rfl
          | _ => rfl

/-- A name that no closure lies in front of tells nothing. -/
theorem Context.filter_isTelling_reference {ctx : Context} {name : String}
    (h : ∀ origin, ctx.resolve name ≠ some (origin, true)) :
    (ctx.reference name).filter Finding.isTelling = [] := by
  unfold Context.reference
  split
  · next origin heq => exact absurd heq (h origin)
  · rfl
  · split <;> rfl

/-- A name that is bound nowhere around is not captured. -/
theorem Context.resolve_of_notMem {ctx : Context} {name : String}
    (h : ∀ frame ∈ ctx.frames, name ∉ frame.names) (origin : Origin) :
    ctx.resolve name ≠ some (origin, true) := by
  have hfrom : ∀ (frames : List Frame) (crossed : Bool), (∀ frame ∈ frames, name ∉ frame.names) →
      resolveFrom name crossed frames ≠ some (origin, true) := by
    intro frames
    induction frames with
    | nil => simp [resolveFrom]
    | cons frame frames ih =>
        intro crossed h
        rw [List.forall_mem_cons] at h
        rw [resolveFrom, if_neg h.1]
        split
        · simp
        · exact ih _ h.2
  exact hfrom ctx.frames false h

/-- Outside closures no name is captured. -/
theorem Context.resolve_of_inClosure {ctx : Context} (h : ctx.inClosure = false) (name : String)
    (origin : Origin) : ctx.resolve name ≠ some (origin, true) := by
  have hfrom : ∀ frames : List Frame, frames.any (·.boundary != .block) = false →
      resolveFrom name false frames ≠ some (origin, true) := by
    intro frames
    induction frames with
    | nil => simp [resolveFrom]
    | cons frame frames ih =>
        intro h
        rw [List.any_cons, Bool.or_eq_false_iff] at h
        rw [resolveFrom, h.1]
        split
        · simp
        · split
          · simp
          · exact ih h.2
  exact hfrom ctx.frames h

/-! ### The context of the parts -/

/-- The context of the parts depends on the form, on the names of the scope and on what is a
`let` or `const` only. -/
theorem Context.enter_congr (ctx : Context) {form : Form} (span : Span) {parts parts' : List Node}
    (hlexical : List.Forall₂ (fun a b => b.isLexicalDecl = a.isLexicalDecl) parts parts')
    (hscope : (Node.mk form span parts').scopeNames = (Node.mk form span parts).scopeNames) :
    ctx.enter (.mk form span parts') = ctx.enter (.mk form span parts) := by
  cases hlexical with
  | nil => rfl
  | @cons head head' rest rest' hhead _ =>
      cases form with
      | forStmt =>
          cases hlex : head.isLexicalDecl with
          | true =>
              obtain ⟨_, _, _, _, rfl⟩ := Node.isLexicalDecl_iff.mp hlex
              obtain ⟨_, _, _, _, rfl⟩ := Node.isLexicalDecl_iff.mp (hhead.trans hlex)
              exact congrArg (fun names => ({ ctx with inNestedLoop := true }).push
                ⟨.block, names, .untracked⟩) hscope
          | false =>
              have hplain : ∀ (head : Node) (rest : List Node), head.isLexicalDecl = false →
                  ctx.enter (.mk .forStmt span (head :: rest)) =
                    { ctx with inInnerLoop := true } := by
                intro head rest h
                obtain ⟨form, headSpan, declarators⟩ := head
                cases form with
                | varDecl kind => cases kind with
                  | var => rfl
                  | lexical => cases h
                | _ => rfl
              rw [hplain head rest hlex, hplain head' rest' (hhead.trans hlex)]
      | forInStmt | forOfStmt =>
          have hnames : head'.blockScopedNames = head.blockScopedNames := hscope
          simp only [Context.enter, Context.enterOver, hnames]
      | block | catchClause | functionExpr | arrow =>
          simp only [Context.enter, hscope]
      | function | classBody | constructor | getter | setter =>
          simp only [Context.enter, hscope]
      | _ => rfl

end Capture

/-! ### Rewritings -/

/-- What a rewriting changes. -/
inductive Pass where
  /-- Names, in closures too, as long as no scope around them binds one of those given. -/
  | names (avoided : List String)
  /-- Statements outside closures. -/
  | stmts
  /-- Jumps outside closures, but for those to one of the labels `inner`, which stand around
  the tree.  The labels `rest` stand further out. -/
  | jumps (inner : List String) (rest : List (String × Bool))

namespace Pass

/-- The names that must not be bound around the tree. -/
def avoided : Pass → List String
  | names avoided => avoided
  | _ => []

/-- Whether the rewriting leaves closures alone. -/
def staysOutside : Pass → Bool
  | names _ => false
  | _ => true

/-- The labels that only the tree before the rewriting stands under. -/
def rest : Pass → List (String × Bool)
  | jumps _ rest => rest
  | _ => []

/-- Whether jumps to a label stay. -/
def keeps : Pass → String → Bool
  | jumps inner _, label => decide (label ∈ inner)
  | _, _ => true

/-- The rewriting in the parts of a node. -/
def inside (pass : Pass) (form : Form) : Pass :=
  match pass, form with
  | jumps inner rest, .labeled label => jumps (label.text :: inner) rest
  | pass, _ => pass

/-- The labels can stand around the tree after the rewriting. -/
def Under : Pass → List (String × Bool) → Prop
  | jumps inner _, around => around.map Prod.fst = inner
  | _, _ => True

/-- A jump to the label stays, or the label belongs to a loop whose body becomes a function. -/
def Covers (pass : Pass) (label : String) : Prop :=
  pass.keeps label = true ∨ pass.rest.lookup label = some true

/-- The rewriting applies to trees that are read in the context. -/
structure Clear (pass : Pass) (ctx : Capture.Context) : Prop where
  frames : ∀ frame ∈ ctx.frames, ∀ name ∈ pass.avoided, name ∉ frame.names
  closure : pass.staysOutside = true → ctx.inClosure = false

variable {pass : Pass} {form : Form}

theorem inside_of_ne_labeled (h : ∀ label, form ≠ .labeled label) : pass.inside form = pass := by
  unfold inside
  split
  · exact absurd rfl (h _)
  · rfl

@[simp] theorem rest_inside : (pass.inside form).rest = pass.rest := by
  unfold inside
  split <;> rfl

@[simp] theorem avoided_inside : (pass.inside form).avoided = pass.avoided := by
  unfold inside
  split <;> rfl

@[simp] theorem staysOutside_inside : (pass.inside form).staysOutside = pass.staysOutside := by
  unfold inside
  split <;> rfl

theorem keeps_inside_labeled (name : Name) (label : String) :
    (pass.inside (.labeled name)).keeps label = (label == name.text || pass.keeps label) := by
  cases pass with
  | jumps inner rest => simp [inside, keeps, ← beq_eq_decide]
  | names | stmts => simp [inside, keeps]

theorem Under.inside_labeled {around : List (String × Bool)} (h : pass.Under around) (name : Name)
    (flag : Bool) : (pass.inside (.labeled name)).Under ((name.text, flag) :: around) := by
  cases pass with
  | jumps inner rest => exact congrArg (name.text :: ·) h
  | names | stmts => trivial

/-- A rewriting that goes into a closure changes no jump. -/
theorem rest_of_isClosure (henters : pass.staysOutside = true → form.isClosure = false)
    (h : form.isClosure = true) : pass.rest = [] ∧ pass.Under [] := by
  cases pass with
  | names => exact ⟨rfl, trivial⟩
  | stmts => exact ⟨rfl, trivial⟩
  | jumps => rw [henters rfl] at h; cases h

/-- A jump that is kept, or was covered, stays outside a function if and only if it did. -/
theorem Covers.lookup {around : List (String × Bool)} (hunder : pass.Under around) {label : String}
    (h : pass.Covers label) :
    (pass.keeps label = true ∧ around.lookup label ≠ some true) ↔
      (around ++ pass.rest).lookup label ≠ some true := by
  cases pass with
  | names | stmts => simp [keeps, rest]
  | jumps inner rest =>
      obtain rfl : around.map Prod.fst = inner := hunder
      have hnone : around.lookup label = none ↔ label ∉ around.map Prod.fst := by
        rw [List.lookup_eq_none_iff]
        grind
      simp only [Covers, keeps, decide_eq_true_eq, Pass.rest, List.lookup_append] at h ⊢
      by_cases hmem : label ∈ around.map Prod.fst
      · have hsome : around.lookup label ≠ none := fun e => hnone.mp e hmem
        obtain ⟨flag, hflag⟩ := Option.ne_none_iff_exists'.mp hsome
        simp [hmem, hflag]
      · have hrest := h.resolve_left hmem
        rw [hnone.mpr hmem]
        simp [hmem, hrest]

theorem Clear.enter {ctx : Capture.Context} (h : pass.Clear ctx) {node : Node}
    (henters : pass.staysOutside = true → node.form.isClosure = false)
    (havoids : ∀ name ∈ pass.avoided, name ∉ node.scopeNames) : pass.Clear (ctx.enter node) := by
  have hframes : ∀ frame ∈ (ctx.enter node).frames, ∀ name ∈ pass.avoided, name ∉ frame.names := by
    rcases ctx.frames_enter node with heq | ⟨heq, -, -⟩
    · rw [heq]
      exact List.forall_mem_cons.mpr ⟨havoids, h.frames⟩
    · rw [heq]
      exact h.frames
  refine ⟨hframes, fun houtside => ?_⟩
  rw [ctx.inClosure_enter, h.closure houtside, henters houtside]
  rfl

/-- A name to avoid, or any name outside closures, tells nothing. -/
theorem Clear.filter_isTelling_reference {ctx : Capture.Context}
    (h : pass.Clear ctx) {name : String} (hname : pass.staysOutside = true ∨ name ∈ pass.avoided) :
    (ctx.reference name).filter Capture.Finding.isTelling = [] := by
  refine Capture.Context.filter_isTelling_reference fun origin => ?_
  rcases hname with houtside | hmem
  · exact Capture.Context.resolve_of_inClosure (h.closure houtside) name origin
  · exact Capture.Context.resolve_of_notMem
      (fun frame hframe => h.frames frame hframe name hmem) origin

end Pass

/-! ### Loops in rewritten trees -/

/-- Whether a node, if it is a `let` or `const`, declares single names only. -/
def Node.declaresNames : Node → Bool
  | .mk (.varDecl (.lexical _) _) _ declarators => declarators.all Node.declaresName
  | _ => true

/-- The second tree is made of the first by a rewriting that changes nothing a reader would
tell of the loops in it. -/
structure Node.Alike (judged : Bool) (pass : Pass) (a b : Node) : Prop where
  lexical : b.isLexicalDecl = a.isLexicalDecl
  declares : b.declaresNames = a.declaresNames
  labels : b.outerLabels = a.outerLabels.filter pass.keeps
  sound : b.everywhere (Node.isSound judged) = a.everywhere (Node.isSound judged)
  tellings : judged = true → ∀ ctx, pass.Clear ctx → Capture.tellings ctx b = Capture.tellings ctx a
  extracts : judged = true → b.extracts = a.extracts
  verdicts : ∀ around, pass.Under around →
    b.verdicts judged around = a.verdicts judged (around ++ pass.rest)

/-- The same of two lists of trees, taken together. -/
structure AlikeIn (judged : Bool) (pass : Pass) (nodes others : List Node) : Prop where
  labels : outerLabelsIn others = (outerLabelsIn nodes).filter pass.keeps
  sound : everywhereIn (Node.isSound judged) others = everywhereIn (Node.isSound judged) nodes
  tellings : judged = true → ∀ ctx, pass.Clear ctx →
    Capture.tellingsIn ctx others = Capture.tellingsIn ctx nodes
  verdicts : ∀ around, pass.Under around →
    verdictsIn judged around others = verdictsIn judged (around ++ pass.rest) nodes

namespace AlikeIn

variable {judged : Bool} {pass : Pass} {nodes others : List Node}

theorem nil : AlikeIn judged pass [] [] := ⟨rfl, rfl, fun _ _ _ => rfl, fun _ _ => rfl⟩

theorem cons {a b : Node} (h : AlikeIn judged pass nodes others) (hhead : a.Alike judged pass b) :
    AlikeIn judged pass (a :: nodes) (b :: others) where
  labels := by rw [outerLabelsIn, outerLabelsIn, List.filter_append, hhead.labels, h.labels]
  sound := by rw [everywhereIn, everywhereIn, hhead.sound, h.sound]
  tellings hjudged ctx hclear := by
    have hrest := h.tellings hjudged ctx hclear
    simp only [Capture.tellingsIn, List.flatMap_cons] at hrest ⊢
    rw [hhead.tellings hjudged ctx hclear, hrest]
  verdicts around hunder := by
    rw [verdictsIn_cons, verdictsIn_cons, hhead.verdicts around hunder, h.verdicts around hunder]

theorem of_forall₂ (h : List.Forall₂ (Node.Alike judged pass) nodes others) :
    AlikeIn judged pass nodes others := by
  induction h with
  | nil => exact nil
  | cons hhead _ ih => exact ih.cons hhead

end AlikeIn

/-- The context in which the head or the body of a loop is read. -/
def Loop.context (loop : Loop) (inBody : Bool) : Capture.Context where
  frames := [⟨.block, loop.decl.names, .loopVariable⟩]
  inBody := inBody
  inNestedLoop := false
  inInnerLoop := false

theorem Loop.filter_isTelling_findings (loop : Loop) :
    loop.findings.filter Capture.Finding.isTelling =
      Capture.tellings (loop.context false) loop.decl.toNode ++
        Capture.tellingsIn (loop.context false) loop.head.exprs ++
        Capture.tellings (loop.context true) loop.body := by
  simp only [Loop.findings, List.filter_append, Capture.findingsIn_eq_flatMap, List.filter_flatMap]
  rfl

theorem Loop.scopeNames_of_ofNode? {form : Form} (hlabel : ∀ label, form ≠ .labeled label)
    {span : Span} {parts : List Node} {loop : Loop}
    (h : Loop.ofNode? (.mk form span parts) = some loop) :
    (Node.mk form span parts).scopeNames = loop.decl.names := by
  unfold Loop.ofNode? at h
  split at h
  · next heq =>
    cases heq
    exact absurd rfl (hlabel _)
  · next heq => cases heq; cases h; rfl
  · next heq => cases heq; cases h; rfl
  · next heq => cases heq; cases h; rfl
  · cases h

/-- Parts that are related one by one make loops that are. -/
theorem Loop.exists_of_forall₂ {related : Node → Node → Prop}
    (hrelated : ∀ {a b : Node}, related a b → b.isLexicalDecl = a.isLexicalDecl) {form : Form}
    (hlabel : ∀ label, form ≠ .labeled label) {span : Span} {parts parts' : List Node}
    (hparts : List.Forall₂ related parts parts') {loop : Loop}
    (h : Loop.ofNode? (.mk form span parts) = some loop) :
    ∃ loop', Loop.ofNode? (.mk form span parts') = some loop' ∧ loop'.span = loop.span ∧
      loop.decl.kind.isBlockScoped = true ∧ loop'.decl.kind.isBlockScoped = true ∧
      related loop.decl.toNode loop'.decl.toNode ∧
      List.Forall₂ related loop.head.exprs loop'.head.exprs ∧ related loop.body loop'.body := by
  unfold Loop.ofNode? at h
  split at h
  · next heq =>
    cases heq
    exact absurd rfl (hlabel _)
  · next heq =>
    cases heq
    cases h
    obtain _ | ⟨hhead, _ | ⟨htest, _ | ⟨hupdate, _ | ⟨hbody, ⟨⟩⟩⟩⟩⟩ := hparts
    obtain ⟨_, _, _, _, rfl⟩ := Node.isLexicalDecl_iff.mp (hrelated hhead)
    exact ⟨_, rfl, rfl, rfl, rfl, hhead, .cons htest (.cons hupdate .nil), hbody⟩
  · next heq =>
    cases heq
    cases h
    obtain _ | ⟨hhead, _ | ⟨hright, _ | ⟨hbody, ⟨⟩⟩⟩⟩ := hparts
    obtain ⟨_, _, _, _, rfl⟩ := Node.isLexicalDecl_iff.mp (hrelated hhead)
    exact ⟨_, rfl, rfl, rfl, rfl, hhead, .cons hright .nil, hbody⟩
  · next heq =>
    cases heq
    cases h
    obtain _ | ⟨hhead, _ | ⟨hright, _ | ⟨hbody, ⟨⟩⟩⟩⟩ := hparts
    obtain ⟨_, _, _, _, rfl⟩ := Node.isLexicalDecl_iff.mp (hrelated hhead)
    exact ⟨_, rfl, rfl, rfl, rfl, hhead, .cons hright .nil, hbody⟩
  · cases h

theorem Node.declaresNames_toNode {decl : Declaration} (h : decl.kind.isBlockScoped = true) :
    decl.toNode.declaresNames = false ↔
      ∃ declarator ∈ decl.declarators, declarator.declaresName = false := by
  obtain ⟨kind, declare, span, declarators⟩ := decl
  cases kind with
  | var => cases h
  | lexical => simp [Declaration.toNode, Node.declaresNames]

section

variable {judged : Bool} {pass : Pass}

/-- Loops that are read alike have the same findings that tell. -/
theorem Loop.filter_isTelling_of_alike (hjudged : judged = true) {loop loop' : Loop}
    (hnames : loop'.decl.names = loop.decl.names)
    (havoids : ∀ name ∈ pass.avoided, name ∉ loop.decl.names)
    (hdecl : loop.decl.toNode.Alike judged pass loop'.decl.toNode)
    (hexprs : AlikeIn judged pass loop.head.exprs loop'.head.exprs)
    (hbody : loop.body.Alike judged pass loop'.body) :
    loop'.findings.filter Capture.Finding.isTelling =
      loop.findings.filter Capture.Finding.isTelling := by
  have hcontext : ∀ inBody, loop'.context inBody = loop.context inBody := by
    intro inBody
    unfold Loop.context
    rw [hnames]
  have hclear : ∀ inBody, pass.Clear (loop.context inBody) := fun inBody =>
    ⟨by simpa [Loop.context] using havoids, fun _ => rfl⟩
  rw [Loop.filter_isTelling_findings, Loop.filter_isTelling_findings, hcontext, hcontext,
    hdecl.tellings hjudged _ (hclear false), hexprs.tellings hjudged _ (hclear false),
    hbody.tellings hjudged _ (hclear true)]

/-- Loops that are read alike are refused at the same places. -/
theorem Loop.refusedUnder_of_alike {loop loop' : Loop}
    (hfindings : loop'.findings.filter Capture.Finding.isTelling =
      loop.findings.filter Capture.Finding.isTelling)
    (hscoped : loop.decl.kind.isBlockScoped = true)
    (hscoped' : loop'.decl.kind.isBlockScoped = true)
    (hdecl : loop.decl.toNode.Alike judged pass loop'.decl.toNode)
    (hbody : loop.body.Alike judged pass loop'.body)
    (hcovers : ∀ label ∈ loop.body.outerLabels, pass.Covers label)
    {around : List (String × Bool)} (hunder : pass.Under around) :
    loop'.RefusedUnder around ↔ loop.RefusedUnder (around ++ pass.rest) := by
  obtain ⟨hneeds, hinner, hbound⟩ := Capture.Record.ofFindings_of_tellings hfindings
  have hdeclares : (∃ d ∈ loop'.decl.declarators, d.declaresName = false) ↔
      ∃ d ∈ loop.decl.declarators, d.declaresName = false := by
    rw [← Node.declaresNames_toNode hscoped, ← Node.declaresNames_toNode hscoped', hdecl.declares]
  have hjumps : (∃ label ∈ loop'.body.outerLabels, around.lookup label ≠ some true) ↔
      ∃ label ∈ loop.body.outerLabels, (around ++ pass.rest).lookup label ≠ some true := by
    rw [hbody.labels]
    simp only [List.mem_filter, and_assoc]
    refine exists_congr fun label => and_congr_right fun hmem => ?_
    exact (hcovers label hmem).lookup hunder
  unfold Loop.RefusedUnder Loop.capture
  rw [hdeclares, hneeds, hinner, hbound, hjumps]

/-- A tree that does not depend on the labels around it is alike to itself. -/
theorem Node.Alike.self {node : Node} (hlabels : node.outerLabels = [])
    (hverdicts : ∀ around around', node.verdicts judged around = node.verdicts judged around') :
    node.Alike judged pass node where
  lexical := rfl
  declares := rfl
  labels := by rw [hlabels]; rfl
  sound := rfl
  tellings _ _ _ := rfl
  extracts _ := rfl
  verdicts _ _ := hverdicts _ _

/-- A rewriting that changes no jump may leave a tree as it is. -/
theorem Node.Alike.refl (hkeeps : ∀ label, pass.keeps label = true) (hrest : pass.rest = [])
    (node : Node) : node.Alike judged pass node where
  lexical := rfl
  declares := rfl
  labels := (List.filter_eq_self.mpr fun label _ => hkeeps label).symm
  sound := rfl
  tellings _ _ _ := rfl
  extracts _ := rfl
  verdicts around _ := by rw [hrest, List.append_nil]

theorem Node.Alike.of_isQuiet {node : Node} (hwf : node.isWellFormed = true)
    (hquiet : node.isQuiet = true) : node.Alike judged pass node :=
  .self (Node.outerLabels_of_isQuiet hwf hquiet) fun _ _ =>
    Node.verdicts_of_isQuiet hwf hquiet _ _ _

theorem Node.Alike.of_isClosure {form : Form} (h : form.isClosure = true) {span : Span}
    {parts : List Node} : (Node.mk form span parts).Alike judged pass (.mk form span parts) :=
  .self (Node.outerLabels_of_isClosure h span parts) fun around around' => by
    rw [Node.verdicts_of_isClosure h, Node.verdicts_of_isClosure h]

/-! ### Nodes that are nothing but their parts -/

/-- Whether a node of the form is neither loop, closure nor label, opens no scope and declares
nothing in the block around it. -/
def Form.isInert : Form → Bool
  | .block | .catchClause | .functionExpr _ | .labeled _ | .breakStmt _ | .continueStmt _
  | .forStmt | .forInStmt | .forOfStmt _ | .whileStmt | .doWhileStmt
  | .varDecl (.lexical _) _ => false
  | form => !form.isClosure

/-- All there is to say of the node it says of its parts. -/
structure Node.IsInert (node : Node) : Prop where
  labels : node.outerLabels = outerLabelsIn node.parts
  verdicts : ∀ judged around, node.verdicts judged around = verdictsIn judged around node.parts
  sound : ∀ judged, node.isSound judged = true
  lexical : node.isLexicalDecl = false
  declares : node.declaresNames = true
  extracts : node.extracts = false
  enter : ∀ ctx : Capture.Context, ctx.enter node = ctx

theorem Node.isInert_mk {form : Form} (h : form.isInert = true) (span : Span) (parts : List Node) :
    (Node.mk form span parts).IsInert := by
  have hfacts : (form.isClosure = false ∧ (∀ label, form ≠ .labeled label) ∧ form.jumpLabels = []) ∧
      Loop.ofNode? (.mk form span parts) = none ∧
      (∀ judged, (Node.mk form span parts).isSound judged = true) ∧
      (Node.mk form span parts).isLexicalDecl = false ∧
      (Node.mk form span parts).declaresNames = true ∧
      ∀ ctx : Capture.Context, ctx.enter (.mk form span parts) = ctx := by
    cases form with
    | varDecl kind => cases kind with
      | var => exact ⟨⟨rfl, by simp, rfl⟩, rfl, fun judged => by cases judged <;> rfl, rfl, rfl,
          fun _ => rfl⟩
      | lexical => cases h
    | _ =>
        first
        | exact ⟨⟨rfl, by simp, rfl⟩, rfl, fun judged => by cases judged <;> rfl, rfl, rfl,
            fun _ => rfl⟩
        | cases h
  obtain ⟨⟨hclosure, hlabel, hjump⟩, hnone, hsound, hlexical, hdeclares, henter⟩ := hfacts
  refine ⟨?_, fun judged around => ?_, hsound, hlexical, hdeclares, ?_, henter⟩
  · rw [Node.outerLabels_mk hclosure hlabel, hjump, List.nil_append]
    rfl
  · rw [Node.verdicts_mk hclosure hlabel, hnone]
    rfl
  · rw [Node.extracts, hnone]
    rfl

/-- Inert nodes are alike if their parts are and they tell the same by themselves. -/
theorem Node.Alike.inert {a b : Node} (ha : a.IsInert) (hb : b.IsInert)
    (hparts : AlikeIn judged pass a.parts b.parts)
    (hown : judged = true → ∀ ctx, pass.Clear ctx →
      (ctx.own b).filter Capture.Finding.isTelling = (ctx.own a).filter Capture.Finding.isTelling) :
    a.Alike judged pass b where
  lexical := by rw [hb.lexical, ha.lexical]
  declares := by rw [hb.declares, ha.declares]
  labels := by rw [hb.labels, ha.labels, hparts.labels]
  sound := by
    obtain ⟨_, _, _⟩ := a
    obtain ⟨_, _, _⟩ := b
    rw [Node.everywhere, Node.everywhere, hb.sound, ha.sound]
    exact congrArg (true && ·) hparts.sound
  tellings hjudged ctx hclear := by
    obtain ⟨_, _, _⟩ := a
    obtain ⟨_, _, _⟩ := b
    rw [Capture.tellings_mk, Capture.tellings_mk, hown hjudged ctx hclear, hb.enter, ha.enter]
    exact congrArg (_ ++ ·) (hparts.tellings hjudged ctx hclear)
  extracts _ := by rw [hb.extracts, ha.extracts]
  verdicts around hunder := by rw [hb.verdicts, ha.verdicts, hparts.verdicts around hunder]

/-! ### Nodes that can come and go -/

/-- The tree holds no loop and tells nothing. -/
structure Node.IsSilent (judged : Bool) (pass : Pass) (node : Node) : Prop where
  labels : node.outerLabels = []
  sound : node.everywhere (Node.isSound judged) = true
  tellings : judged = true → ∀ ctx, pass.Clear ctx → Capture.tellings ctx node = []
  verdicts : ∀ around, node.verdicts judged around = []

theorem Node.IsInert.isSilent {node : Node} (h : node.IsInert)
    (hown : judged = true → ∀ ctx, pass.Clear ctx →
      (ctx.own node).filter Capture.Finding.isTelling = [])
    (hparts : ∀ part ∈ node.parts, part.IsSilent judged pass) : node.IsSilent judged pass where
  labels := by
    rw [h.labels, outerLabelsIn_eq_flatMap, List.flatMap_eq_nil_iff]
    exact fun part hmem => (hparts part hmem).labels
  sound := by
    obtain ⟨_, _, _⟩ := node
    exact Node.everywhere_mk.mpr ⟨h.sound judged, fun part hmem => (hparts part hmem).sound⟩
  tellings hjudged ctx hclear := by
    obtain ⟨_, _, _⟩ := node
    rw [Capture.tellings_mk, hown hjudged ctx hclear, h.enter, List.nil_append, Capture.tellingsIn,
      List.flatMap_eq_nil_iff]
    exact fun part hmem => (hparts part hmem).tellings hjudged ctx hclear
  verdicts around := by
    rw [h.verdicts, verdictsIn, List.flatMap_eq_nil_iff]
    exact fun part hmem => (hparts part hmem).verdicts around

theorem Node.isSilent_ident {role : Role} {name : String} {optional : Bool} {span : Span}
    {parts : List Node} (hname : pass.staysOutside = true ∨ name ∈ pass.avoided)
    (hparts : ∀ part ∈ parts, part.IsSilent judged pass) :
    (Node.mk (.ident role name optional) span parts).IsSilent judged pass :=
  (Node.isInert_mk rfl span parts).isSilent
    (fun _ _ hclear => hclear.filter_isTelling_reference hname) hparts

/-- A leaf that is neither name nor keyword is silent. -/
theorem Node.isSilent_leaf {form : Form} (h : form.isInert = true) (span : Span)
    (hown : ∀ ctx : Capture.Context,
      (ctx.own (.mk form span [])).filter Capture.Finding.isTelling = []) :
    (Node.mk form span []).IsSilent judged pass :=
  (Node.isInert_mk h span []).isSilent (fun _ ctx _ => hown ctx)
    fun _ hmem => absurd hmem List.not_mem_nil

theorem Node.eq_absent_of_isAbsent {node : Node} (hwf : node.isWellFormed = true)
    (h : node.isAbsent = true) : ∃ span, node = .mk .absent span [] := by
  obtain ⟨form, span, parts⟩ := node
  obtain rfl : form = .absent := by simpa [Node.isAbsent, Node.form] using h
  exact ⟨span, by rw [Node.parts_eq_nil rfl (by simp) hwf]⟩

namespace AlikeIn

variable {nodes others : List Node} {node : Node}

theorem silent_left (h : AlikeIn judged pass nodes others) (hnode : node.IsSilent judged pass) :
    AlikeIn judged pass (node :: nodes) others where
  labels := by rw [outerLabelsIn, hnode.labels, List.nil_append, h.labels]
  sound := by rw [everywhereIn, hnode.sound, Bool.true_and, h.sound]
  tellings hjudged ctx hclear := by
    rw [h.tellings hjudged ctx hclear, Capture.tellingsIn, Capture.tellingsIn, List.flatMap_cons,
      hnode.tellings hjudged ctx hclear, List.nil_append]
  verdicts around hunder := by
    rw [verdictsIn_cons, hnode.verdicts, List.nil_append, h.verdicts around hunder]

theorem silent_right (h : AlikeIn judged pass nodes others) (hnode : node.IsSilent judged pass) :
    AlikeIn judged pass nodes (node :: others) where
  labels := by rw [outerLabelsIn, hnode.labels, List.nil_append, h.labels]
  sound := by rw [everywhereIn, hnode.sound, Bool.true_and, h.sound]
  tellings hjudged ctx hclear := by
    rw [← h.tellings hjudged ctx hclear, Capture.tellingsIn, Capture.tellingsIn, List.flatMap_cons,
      hnode.tellings hjudged ctx hclear, List.nil_append]
  verdicts around hunder := by
    rw [verdictsIn_cons, hnode.verdicts, List.nil_append, h.verdicts around hunder]

/-- An inert node around the parts makes no difference. -/
theorem wrap_right (hnode : node.IsInert)
    (hown : judged = true → ∀ ctx, pass.Clear ctx →
      (ctx.own node).filter Capture.Finding.isTelling = [])
    (h : AlikeIn judged pass nodes node.parts) : AlikeIn judged pass nodes [node] where
  labels := by rw [outerLabelsIn, hnode.labels, outerLabelsIn, List.append_nil, h.labels]
  sound := by
    obtain ⟨_, _, _⟩ := node
    rw [everywhereIn, everywhereIn, Bool.and_true, Node.everywhere, hnode.sound, Bool.true_and]
    exact h.sound
  tellings hjudged ctx hclear := by
    obtain ⟨_, _, _⟩ := node
    rw [Capture.tellingsIn, List.flatMap_singleton, Capture.tellings_mk, hown hjudged ctx hclear,
      hnode.enter, List.nil_append]
    exact h.tellings hjudged ctx hclear
  verdicts around hunder := by
    rw [verdictsIn_cons, verdictsIn_nil, List.append_nil, hnode.verdicts, h.verdicts around hunder]

end AlikeIn

/-- What an inert node is made of may take its place. -/
theorem Node.Alike.of_parts {a b : Node} (ha : a.IsInert) (hb : b.IsInert)
    (hown : judged = true → ∀ ctx, pass.Clear ctx →
      (ctx.own a).filter Capture.Finding.isTelling = [])
    (h : AlikeIn judged pass a.parts [b]) : a.Alike judged pass b where
  lexical := by rw [hb.lexical, ha.lexical]
  declares := by rw [hb.declares, ha.declares]
  labels := by simpa [outerLabelsIn, ← ha.labels] using h.labels
  sound := by
    obtain ⟨_, _, _⟩ := a
    have hparts := h.sound
    rw [everywhereIn, everywhereIn, Bool.and_true] at hparts
    rw [hparts, Node.everywhere, ha.sound]
    rfl
  tellings hjudged ctx hclear := by
    obtain ⟨_, _, _⟩ := a
    have hparts := h.tellings hjudged ctx hclear
    rw [Capture.tellingsIn, List.flatMap_singleton] at hparts
    rw [hparts, Capture.tellings_mk, hown hjudged ctx hclear, ha.enter]
    rfl
  extracts _ := by rw [hb.extracts, ha.extracts]
  verdicts around hunder := by simpa [← ha.verdicts] using h.verdicts around hunder

/-! ### From the parts to the node -/

theorem Node.extracts_labeled (label : Name) (span : Span) (body : Node) :
    (Node.labeled label span body).extracts = body.extracts := by
  unfold Node.extracts
  rw [Loop.ofNode?, Option.any_map]
  rfl

/-- What a node has to keep itself, if its parts are alike: what stands in the head of a loop,
what it declares, the scope it opens. -/
structure Node.Keeps (judged : Bool) (pass : Pass) (a b : Node) : Prop where
  enters : pass.staysOutside = true → a.form.isClosure = false
  covers : ∀ label ∈ a.outerLabels, pass.Covers label
  jumps : ∀ label ∈ a.form.jumpLabels, pass.keeps label = true
  head : b.headIsBare = a.headIsBare
  declares : b.declaresNames = a.declaresNames
  vars : ∀ declare, a.form = .varDecl .var declare →
    b.parts.map Node.declaresName = a.parts.map Node.declaresName
  scope : judged = true → b.scopeNames = a.scopeNames
  avoids : judged = true → ∀ name ∈ pass.avoided, name ∉ a.scopeNames

variable {form : Form} {span : Span} {parts parts' : List Node}

/-- A node that is no loop stays none. -/
theorem Node.ofNode?_eq_none (hlabel : ∀ label, form ≠ .labeled label)
    (hlexical : List.Forall₂ (fun a b => b.isLexicalDecl = a.isLexicalDecl) parts parts')
    (h : Loop.ofNode? (.mk form span parts) = none) :
    Loop.ofNode? (.mk form span parts') = none := by
  by_contra hsome
  have hcandidate : (Node.mk form span parts').isCandidate = true :=
    Option.isSome_iff_ne_none.mpr hsome
  have hloop : (Node.mk form span parts).isBlockLoop = true :=
    Node.isBlockLoop_of_forall₂ (hlexical.flip.imp fun _ _ e => e.symm)
      (Node.isBlockLoop_of_isCandidate hlabel hcandidate)
  have hbefore : (Node.mk form span parts).isCandidate = true :=
    Node.isCandidate_of_isBlockLoop hloop
  rw [Node.isCandidate, h] at hbefore
  cases hbefore

theorem Node.Keeps.everywhere
    (hkeeps : (Node.mk form span parts).Keeps judged pass (.mk form span parts'))
    (hparts : everywhereIn (Node.isSound judged) parts' =
      everywhereIn (Node.isSound judged) parts) :
    (Node.mk form span parts').everywhere (Node.isSound judged) =
      (Node.mk form span parts).everywhere (Node.isSound judged) := by
  have hself : (Node.mk form span parts').isSound judged =
      (Node.mk form span parts).isSound judged := by
    unfold Node.isSound Node.keepsArguments
    rw [hkeeps.head]
    cases hjudged : judged with
    | false => rfl
    | true => rw [hkeeps.scope hjudged]
  rw [Node.everywhere, Node.everywhere, hself, hparts]

/-- A loop whose parts are alike stays a loop and keeps its verdict. -/
theorem Node.Keeps.loop
    (hkeeps : (Node.mk form span parts).Keeps judged pass (.mk form span parts'))
    (hlabel : ∀ label, form ≠ .labeled label)
    (hparts : List.Forall₂ (Node.Alike judged pass) parts parts')
    (hsound : (Node.mk form span parts').everywhere (Node.isSound judged) =
      (Node.mk form span parts).everywhere (Node.isSound judged))
    {loop : Loop} (hloop : Loop.ofNode? (.mk form span parts) = some loop) :
    ∃ loop', Loop.ofNode? (.mk form span parts') = some loop' ∧
      (judged = true → loop'.capture.needsExtraction = loop.capture.needsExtraction) ∧
      ∀ around, pass.Under around →
        Place.verdict judged ⟨loop', around⟩ = Place.verdict judged
          ⟨loop, around ++ pass.rest⟩ := by
  obtain ⟨loop', hloop', hspan, hscoped, hscoped', hdecl, hexprs, hbody⟩ :=
    Loop.exists_of_forall₂ (fun h => h.lexical) hlabel hparts hloop
  have hfindings : judged = true → loop'.findings.filter Capture.Finding.isTelling =
      loop.findings.filter Capture.Finding.isTelling := by
    intro hjudged
    refine Loop.filter_isTelling_of_alike hjudged ?_ ?_ hdecl (.of_forall₂ hexprs) hbody
    · rw [← Loop.scopeNames_of_ofNode? hlabel hloop', hkeeps.scope hjudged,
        Loop.scopeNames_of_ofNode? hlabel hloop]
    · rw [← Loop.scopeNames_of_ofNode? hlabel hloop]
      exact hkeeps.avoids hjudged
  refine ⟨loop', hloop', fun hjudged => ?_, fun around hunder => ?_⟩
  · exact (Capture.Record.ofFindings_of_tellings (hfindings hjudged)).1
  · have hcovers : ∀ label ∈ loop.body.outerLabels, pass.Covers label := by
      intro label hmem
      refine hkeeps.covers label ?_
      have hnode := Loop.toUnlabeled_of_ofNode? hlabel hloop
      have hclosure : form.isClosure = false := by
        rw [Loop.toUnlabeled_eq] at hnode
        cases hnode
        cases loop.head <;> rfl
      rw [Node.outerLabels_mk hclosure hlabel, outerLabelsIn_eq_flatMap]
      refine List.mem_append_right _ (List.mem_flatMap.mpr ⟨loop.body, ?_, hmem⟩)
      rw [Loop.toUnlabeled_eq] at hnode
      cases hnode
      simp
    have hrefused : judged = true →
        (loop'.RefusedUnder around ↔ loop.RefusedUnder (around ++ pass.rest)) := fun hjudged =>
      Loop.refusedUnder_of_alike (hfindings hjudged) hscoped hscoped' hdecl hbody hcovers hunder
    have hcaptures : ∀ origin, judged = true →
        (.captured origin ∈ loop'.findings ↔ .captured origin ∈ loop.findings) :=
      fun origin hjudged => Capture.captured_mem_of_tellings (hfindings hjudged) origin
    simp only [Place.verdict, Place.Refused, hspan, Loop.toUnlabeled_of_ofNode? hlabel hloop',
      Loop.toUnlabeled_of_ofNode? hlabel hloop, hsound, and_congr_right_iff.mpr hrefused,
      and_congr_right_iff.mpr (hcaptures _)]

/-- A node around parts that are alike tells of a loop what it told. -/
theorem Node.Keeps.tellings
    (hkeeps : (Node.mk form span parts).Keeps judged pass (.mk form span parts'))
    (hparts : List.Forall₂ (Node.Alike judged (pass.inside form)) parts parts')
    (hjudged : judged = true) {ctx : Capture.Context} (hclear : pass.Clear ctx) :
    Capture.tellings ctx (.mk form span parts') = Capture.tellings ctx (.mk form span parts) := by
  have hempty : parts' = [] ↔ parts = [] := by cases hparts <;> simp
  have hvars : ∀ declare, form = .varDecl .var declare →
      parts'.map Node.declaresName = parts.map Node.declaresName := hkeeps.vars
  have hin : (pass.inside form).Clear (ctx.enter (.mk form span parts)) := by
    have h := hclear.enter hkeeps.enters (hkeeps.avoids hjudged)
    exact ⟨by simpa using h.frames, by simpa using h.closure⟩
  rw [Capture.tellings_mk, Capture.tellings_mk, ctx.filter_isTelling_own span hempty hvars,
    ctx.enter_congr span (hparts.imp fun _ _ h => h.lexical) (hkeeps.scope hjudged),
    (AlikeIn.of_forall₂ hparts).tellings hjudged _ hin]

theorem Node.Alike.closure
    (hkeeps : (Node.mk form span parts).Keeps judged pass (.mk form span parts'))
    (hparts : List.Forall₂ (Node.Alike judged (pass.inside form)) parts parts')
    (hclosure : form.isClosure = true) :
    (Node.mk form span parts).Alike judged pass (.mk form span parts') := by
  obtain ⟨hrest, hunder⟩ := Pass.rest_of_isClosure hkeeps.enters hclosure
  have hlabel : ∀ label, form ≠ .labeled label := by
    rintro label rfl
    cases hclosure
  have hextracts : ∀ parts, (Node.mk form span parts).extracts = false := fun parts =>
    Node.extracts_of_not_isCandidate (Node.isCandidate_of_isClosure hclosure span parts)
  have hall := AlikeIn.of_forall₂ hparts
  refine ⟨rfl, hkeeps.declares, ?_, hkeeps.everywhere hall.sound,
    fun hjudged _ => hkeeps.tellings hparts hjudged, fun _ => ?_, fun around _ => ?_⟩
  · rw [Node.outerLabels_of_isClosure hclosure, Node.outerLabels_of_isClosure hclosure]
    rfl
  · rw [hextracts, hextracts]
  · rw [Pass.inside_of_ne_labeled hlabel] at hall
    rw [Node.verdicts_of_isClosure hclosure, Node.verdicts_of_isClosure hclosure,
      hall.verdicts [] hunder, hrest]
    rfl

theorem Node.Alike.labeled {name : Name}
    (hkeeps : (Node.mk (.labeled name) span parts).Keeps judged pass
      (.mk (.labeled name) span parts'))
    (hparts : List.Forall₂ (Node.Alike judged (pass.inside (.labeled name))) parts parts') :
    (Node.mk (.labeled name) span parts).Alike judged pass (.mk (.labeled name) span parts') := by
  have hall := AlikeIn.of_forall₂ hparts
  have hextracts : judged = true → (Node.mk (.labeled name) span parts').extracts =
      (Node.mk (.labeled name) span parts).extracts := by
    intro hjudged
    match parts, parts', hparts with
    | [], [], _ => rfl
    | [part], [part'], .cons hpart .nil =>
        rw [Node.extracts_labeled, Node.extracts_labeled]
        exact hpart.extracts hjudged
    | _ :: _ :: _, _ :: _ :: _, _ => rfl
  refine ⟨rfl, hkeeps.declares, ?_, hkeeps.everywhere hall.sound,
    fun hjudged _ => hkeeps.tellings hparts hjudged, hextracts, fun around hunder => ?_⟩
  · rw [Node.outerLabels_labeled, Node.outerLabels_labeled, hall.labels,
      List.filter_filter, List.filter_filter]
    refine List.filter_congr fun label _ => ?_
    rw [Pass.keeps_inside_labeled, bne]
    cases label == name.text <;> simp
  · rw [Node.verdicts_labeled, Node.verdicts_labeled,
      hall.verdicts _ (hunder.inside_labeled name _), Pass.rest_inside, List.cons_append]
    cases hjudged : judged with
    | true => rw [hextracts hjudged]
    | false => exact List.flatMap_congr fun part _ => part.verdicts_false _ _

/-- The same node around parts that are alike. -/
theorem Node.Alike.node
    (hkeeps : (Node.mk form span parts).Keeps judged pass (.mk form span parts'))
    (hparts : List.Forall₂ (Node.Alike judged (pass.inside form)) parts parts') :
    (Node.mk form span parts).Alike judged pass (.mk form span parts') := by
  cases hclosure : form.isClosure with
  | true => exact .closure hkeeps hparts hclosure
  | false =>
      by_cases hlabel : ∃ label, form = .labeled label
      · obtain ⟨name, rfl⟩ := hlabel
        exact .labeled hkeeps hparts
      · have hlabel : ∀ label, form ≠ .labeled label := fun label e => hlabel ⟨label, e⟩
        have hall := AlikeIn.of_forall₂ hparts
        have hsound := hkeeps.everywhere hall.sound
        have htellings : judged = true → ∀ ctx, pass.Clear ctx →
            Capture.tellings ctx (.mk form span parts') = Capture.tellings ctx
              (.mk form span parts) :=
          fun hjudged _ => hkeeps.tellings hparts hjudged
        rw [Pass.inside_of_ne_labeled hlabel] at hparts hall
        have hlabels : (Node.mk form span parts').outerLabels =
            (Node.mk form span parts).outerLabels.filter pass.keeps := by
          have hjumps : form.jumpLabels.filter pass.keeps = form.jumpLabels :=
            List.filter_eq_self.mpr hkeeps.jumps
          rw [Node.outerLabels_mk hclosure hlabel, Node.outerLabels_mk hclosure hlabel,
            hall.labels, List.filter_append, hjumps]
        cases hloop : Loop.ofNode? (.mk form span parts) with
        | none =>
            have hnone := Node.ofNode?_eq_none hlabel (hparts.imp fun _ _ h => h.lexical) hloop
            refine ⟨rfl, hkeeps.declares, hlabels, hsound, htellings, fun _ => ?_,
              fun around hunder => ?_⟩
            · rw [Node.extracts, Node.extracts, hloop, hnone]
            · rw [Node.verdicts_mk hclosure hlabel, Node.verdicts_mk hclosure hlabel, hloop, hnone,
                hall.verdicts around hunder]
              rfl
        | some loop =>
            obtain ⟨loop', hloop', hneeds, hverdict⟩ := hkeeps.loop hlabel hparts hsound hloop
            refine ⟨rfl, hkeeps.declares, hlabels, hsound, htellings, fun hjudged => ?_,
              fun around hunder => ?_⟩
            · rw [Node.extracts, Node.extracts, hloop, hloop']
              exact hneeds hjudged
            · rw [Node.verdicts_mk hclosure hlabel, Node.verdicts_mk hclosure hlabel, hloop, hloop',
                hall.verdicts around hunder]
              simp only [Option.toList_some, List.map_cons, List.map_nil, hverdict around hunder]

end

end LoopLowering
