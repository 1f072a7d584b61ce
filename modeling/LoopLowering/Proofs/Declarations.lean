/-
What becomes of the declarations in a loop body.

Flattening makes a `var` of every `let` and `const` among the statements of a block, and of these
only: a declaration that stands elsewhere in the body, in a case of a `switch`, stays what it was.
Those in closures and in block-scoped loops are not for this loop to change.  So what matters of a
declaration is the setting it stands in, its kind, and the place in the source by which it can be
told from others (`Node.placements`).

All that is done to a body before and after it is flattened leaves this list alone, but for
hoisting, which takes the `var` declarations out.  How much hoisting leaves of a list of
declarations is `LeftOf`.
-/
import LoopLowering.Proofs.BodyVars

namespace LoopLowering

/-! ### Settings -/

/-- Where a declaration stands in the body of a loop. -/
inductive Setting where
  /-- Among the statements of a block. -/
  | block
  /-- In a block-scoped loop in the body, be it the head of the loop. -/
  | loop
  /-- In a function or a class. -/
  | closure
  /-- In a place of the body that is none of these, such as a case of a `switch`. -/
  | elsewhere
deriving DecidableEq

namespace Setting

/-- Whether the declaration belongs to a loop or closure in the body. -/
def isNested : Setting → Bool
  | loop | closure => true
  | _ => false

/-- The setting of the parts of most nodes. -/
def inner : Setting → Setting
  | loop => loop
  | closure => closure
  | _ => elsewhere

/-- The setting of the parts of a node. -/
def inside (setting : Setting) (node : Node) : Setting :=
  if setting = closure ∨ node.form.isClosure = true then closure
  else if setting = loop ∨ node.isBlockLoop = true then loop
  else if node.form = .block then block
  else elsewhere

@[simp] theorem inner_inner (setting : Setting) : setting.inner.inner = setting.inner := by
  cases setting <;> rfl

variable {setting : Setting} {form : Form} {span : Span} {parts parts' : List Node}

theorem inside_of_isClosure (h : form.isClosure = true) :
    setting.inside (.mk form span parts) = closure :=
  if_pos (Or.inr h)

@[simp] theorem inside_closure (node : Node) : closure.inside node = closure := if_pos (Or.inl rfl)

theorem inside_of_plain (hclosure : form.isClosure = false)
    (hloop : (Node.mk form span parts).isBlockLoop = false) (hblock : form ≠ .block) :
    setting.inside (.mk form span parts) = setting.inner := by
  cases setting <;> simp [inside, inner, Node.form, hclosure, hloop, hblock]

/-- The setting of the parts depends on what they declare, not on what they are. -/
theorem inside_congr (h : List.Forall₂ (fun a b => b.isLexicalDecl = a.isLexicalDecl)
    parts parts') :
    setting.inside (.mk form span parts') = setting.inside (.mk form span parts) := by
  unfold inside
  rw [Node.isBlockLoop_congr h]
  rfl

theorem inside_ne_closure (h : setting ≠ closure) (hclosure : form.isClosure = false) :
    setting.inside (.mk form span parts) ≠ closure := by
  unfold inside
  rw [if_neg (by simp [h, Node.form, hclosure])]
  split
  · exact fun e => by cases e
  · split
    · exact fun e => by cases e
    · exact fun e => by cases e

theorem inner_inside (hblock : form ≠ .block) :
    (setting.inside (.mk form span parts)).inner = setting.inside (.mk form span parts) := by
  unfold inside
  split
  · rfl
  split
  · rfl
  · rw [if_neg (by simpa [Node.form] using hblock)]
    rfl

/-- What is nested stays so. -/
theorem isNested_inside (h : setting.isNested = true) (node : Node) :
    (setting.inside node).isNested = true := by
  unfold inside
  cases setting with
  | loop => split <;> rfl
  | closure => rfl
  | block | elsewhere => cases h

end Setting

/-! ### Declarations -/

/-- A `var`, `let` or `const` declaration in a setting. -/
structure Placement where
  setting : Setting
  kind : VarKind
  span : Span
deriving DecidableEq

namespace Placement

/-- What flattening makes of the declaration. -/
def turned (d : Placement) : Placement := if d.setting = .block then { d with kind := .var } else d

/-- Whether it is a `let` or `const` for the loop at hand to change. -/
def isOwnLet (d : Placement) : Bool := d.kind.isBlockScoped && !d.setting.isNested

/-- Whether it is a `let` or `const` outside closures. -/
def isOpenLet (d : Placement) : Bool := d.kind.isBlockScoped && d.setting != .closure

/-- Whether it stands in a closure. -/
def inClosure (d : Placement) : Bool := d.setting == .closure

/-- Whether hoisting leaves the declaration where it is. -/
def isKept (d : Placement) : Bool := d.kind.isBlockScoped || d.setting == .closure

@[simp] theorem setting_turned (d : Placement) : d.turned.setting = d.setting := by
  unfold turned
  split <;> rfl

theorem turned_of_ne {d : Placement} (h : d.setting ≠ .block) : d.turned = d := if_neg h

theorem turned_of_isNested {d : Placement} (h : d.setting.isNested = true) : d.turned = d :=
  turned_of_ne fun e => by rw [e] at h; cases h

end Placement

/-- The declaration a node of the form is. -/
def Form.placement (setting : Setting) (span : Span) : Form → List Placement
  | .varDecl kind _ => [⟨setting, kind, span⟩]
  | _ => []

mutual

/-- The declarations of a tree, in source order. -/
def Node.placements (setting : Setting) : Node → List Placement
  | .mk form span parts =>
    form.placement setting span ++ placementsIn (setting.inside (.mk form span parts)) parts

/-- The declarations of a list of trees, in source order. -/
def placementsIn (setting : Setting) : List Node → List Placement
  | [] => []
  | node :: nodes => node.placements setting ++ placementsIn setting nodes

end

theorem placementsIn_eq_flatMap (setting : Setting) (nodes : List Node) :
    placementsIn setting nodes = nodes.flatMap (Node.placements setting) := by
  induction nodes with
  | nil => rfl
  | cons node nodes ih => rw [placementsIn, ih, List.flatMap_cons]

theorem placementsIn_append (setting : Setting) (nodes more : List Node) :
    placementsIn setting (nodes ++ more) = placementsIn setting nodes ++
      placementsIn setting more := by
  simp only [placementsIn_eq_flatMap, List.flatMap_append]

/-- What is done to each tree of a list and leaves its declarations leaves those of the list. -/
theorem placementsIn_map {setting : Setting} {nodes : List Node} {f : Node → Node}
    (h : ∀ node ∈ nodes, (f node).placements setting = node.placements setting) :
    placementsIn setting (nodes.map f) = placementsIn setting nodes := by
  rw [placementsIn_eq_flatMap, placementsIn_eq_flatMap, List.flatMap_map]
  exact List.flatMap_congr h

section

variable {setting : Setting} {form : Form} {span : Span} {parts : List Node}

theorem Node.mem_placements {d : Placement} :
    d ∈ (Node.mk form span parts).placements setting ↔ d ∈ form.placement setting span ∨
      ∃ part ∈ parts, d ∈ part.placements (setting.inside (.mk form span parts)) := by
  rw [Node.placements, placementsIn_eq_flatMap, List.mem_append, List.mem_flatMap]

theorem Form.eq_of_mem_placement {d : Placement} (h : d ∈ form.placement setting span) :
    (∃ kind declare, form = .varDecl kind declare) ∧ d.setting = setting := by
  unfold Form.placement at h
  split at h
  · next kind declare =>
    rw [List.mem_singleton.mp h]
    exact ⟨⟨kind, declare, rfl⟩, rfl⟩
  · cases h

/-- Of what is in a closure, all is in a closure. -/
theorem Node.placements_closure {node : Node} :
    ∀ d ∈ node.placements .closure, d.setting = .closure := by
  induction node using Node.inductionOn with
  | step form span parts ih =>
      intro d hmem
      rcases Node.mem_placements.mp hmem with hown | ⟨part, hpart, hmem⟩
      · exact (Form.eq_of_mem_placement hown).2
      · exact ih part hpart d (by rwa [Setting.inside_closure] at hmem)

/-- What is in a nested setting is nested. -/
theorem Node.placements_of_isNested (hnested : setting.isNested = true) {node : Node} :
    ∀ d ∈ node.placements setting, d.setting.isNested = true := by
  induction node using Node.inductionOn generalizing setting with
  | step form span parts ih =>
      intro d hmem
      rcases Node.mem_placements.mp hmem with hown | ⟨part, hpart, hmem⟩
      · rw [(Form.eq_of_mem_placement hown).2]
        exact hnested
      · exact ih part hpart (Setting.isNested_inside hnested _) d hmem

/-- The same node around parts with the same declarations. -/
theorem Node.placements_map {f : Node → Node}
    (hlexical : ∀ part ∈ parts, (f part).isLexicalDecl = part.isLexicalDecl)
    (h : ∀ part ∈ parts, ∀ setting, (f part).placements setting = part.placements setting) :
    (Node.mk form span (parts.map f)).placements setting =
      (Node.mk form span parts).placements setting := by
  have hinside : setting.inside (.mk form span (parts.map f)) = setting.inside
      (.mk form span parts) :=
    Setting.inside_congr (List.forall₂_map_right_iff.mpr (List.forall₂_same.mpr hlexical))
  rw [Node.placements, Node.placements, hinside, placementsIn_map fun part hmem => h part hmem _]

/-- The declarations of a node that is neither a declaration, a block, a loop nor a closure are
those of its parts. -/
theorem Node.placements_of_plain (hdecl : ∀ kind declare, form ≠ .varDecl kind declare)
    (hclosure : form.isClosure = false) (hloop : (Node.mk form span parts).isBlockLoop = false)
    (hblock : form ≠ .block) :
    (Node.mk form span parts).placements setting = placementsIn setting.inner parts := by
  have hown : form.placement setting span = [] := by
    unfold Form.placement
    split
    · exact absurd rfl (hdecl _ _)
    · rfl
  rw [Node.placements, hown, List.nil_append, Setting.inside_of_plain hclosure hloop hblock]

end

/-! ### Expressions -/

theorem Node.placements_of_isAbsent {node : Node} (hwf : node.isWellFormed = true)
    (h : node.isAbsent = true) (setting : Setting) : node.placements setting = [] := by
  obtain ⟨form, span, parts⟩ := node
  obtain rfl : form = .absent := by simpa [Node.isAbsent, Node.form] using h
  obtain rfl := Node.parts_eq_nil rfl (by simp) hwf
  rfl

/-- Where there are no statements, all declarations are in closures. -/
theorem Node.placements_of_isStill {node : Node} (hwf : node.isWellFormed = true)
    (hstill : node.allAre (·.isStill) = true) {setting : Setting} :
    ∀ d ∈ node.placements setting, d.setting = .closure := by
  induction node using Node.inductionOn generalizing setting with
  | step form span parts ih =>
      intro d hmem
      have hcategory : form ≠ .list → form.category.isStill = true := by
        intro hform
        rwa [Node.allAre, if_neg (by simpa [Node.form] using hform)] at hstill
      rcases Node.mem_placements.mp hmem with hown | ⟨part, hpart, hmem⟩
      · obtain ⟨⟨kind, declare, rfl⟩, -⟩ := Form.eq_of_mem_placement hown
        cases hcategory (by simp)
      · cases hclosure : form.isClosure with
        | true =>
            rw [Setting.inside_of_isClosure hclosure] at hmem
            exact Node.placements_closure d hmem
        | false =>
            refine ih part hpart (Node.isWellFormed_part hwf hpart) ?_ d hmem
            exact Node.allAre_part rfl rfl hwf hstill
              (fun hform => Form.isStill_slots (hcategory hform) hclosure) hpart

/-- A type declares nothing. -/
theorem Node.placements_of_type {node : Node} (hwf : node.isWellFormed = true)
    (hcategory : node.form.category ∈ [.absent, .ascription, .type, .title]) (setting : Setting) :
    node.placements setting = [] := by
  induction node using Node.inductionOn generalizing setting with
  | step form span parts ih =>
      rw [List.eq_nil_iff_forall_not_mem]
      intro d hmem
      rcases Node.mem_placements.mp hmem with hown | ⟨part, hpart, hmem⟩
      · obtain ⟨⟨kind, declare, rfl⟩, -⟩ := Form.eq_of_mem_placement hown
        simp [Node.form, Form.category] at hcategory
      · rw [ih part hpart (Node.isWellFormed_part hwf hpart)
          (Node.category_part_of_type hwf hcategory hpart)] at hmem
        cases hmem

/-- Generated code and names declare nothing. -/
@[simp] theorem Node.placements_use (setting : Setting) (name : String) (span : Span) :
    (Node.use name span).placements setting = [] := rfl

theorem Node.placements_keyValue (setting : Setting) (key : String) (value : Node) (span : Span) :
    (Node.keyValue key value span).placements setting = value.placements setting.inner := by
  rw [Node.keyValue, Node.placements_of_plain (by simp) rfl rfl (by simp)]
  exact List.append_nil _

theorem Node.placements_exprStmt (setting : Setting) (expr : Node) :
    (Node.exprStmt expr).placements setting = expr.placements setting.inner := by
  rw [Node.exprStmt, Node.placements_of_plain (by simp) rfl rfl (by simp)]
  exact List.append_nil _

theorem Node.placements_assignTo (setting : Setting) (target : String)
    (value : Node) (span : Span) :
    (Node.assignTo target value span).placements setting = value.placements setting.inner := by
  rw [Node.assignTo, Node.placements_of_plain (by simp) rfl rfl (by simp)]
  exact List.append_nil _

/-! ### Renaming -/

/-- Renaming leaves the declarations. -/
theorem Node.placements_substitute (old new : String) {node : Node} (hwf : node.isWellFormed = true)
    (setting : Setting) : (node.substitute old new).placements setting =
      node.placements setting := by
  induction node using Node.inductionOn generalizing setting with
  | step form span parts ih =>
      have hwfParts : ∀ part ∈ parts, part.isWellFormed = true :=
        fun part hmem => Node.isWellFormed_part hwf hmem
      have hparts : (Node.mk form span (substituteIn old new parts)).placements setting =
          (Node.mk form span parts).placements setting := by
        rw [substituteIn_eq_map]
        exact Node.placements_map
          (fun part hmem => (Node.Stands.substitute old new (hwfParts part hmem)).lexical)
          fun part hmem setting => ih part hmem (hwfParts part hmem) setting
      unfold Node.substitute
      split
      · rfl
      split
      · split
        · obtain rfl := Node.parts_eq_nil rfl (by simp) hwf
          rw [Node.placements_keyValue]
          rfl
        · exact hparts
      · rw [← hparts]
        rfl
      · next name optional keySpan ascription value _ =>
        have hvalue := ih value (by simp) (hwfParts value (by simp)) setting.inner
        have hname : ∀ (name : String) (setting : Setting),
            (Node.mk (.ident .bind name optional) keySpan ascription).placements setting =
              placementsIn setting.inner ascription :=
          fun name setting => Node.placements_of_plain (by simp) rfl rfl (by simp)
        have hbefore : (Node.mk .assignPatProp span
            [.mk (.ident .bind name optional) keySpan ascription, value]).placements setting =
              placementsIn setting.inner [.mk (.ident .bind name optional)
                keySpan ascription, value] :=
          Node.placements_of_plain (by simp) rfl rfl (by simp)
        split
        · rw [hbefore, Node.placements_of_plain (by simp) rfl rfl (by simp)]
          split
          · next habsent =>
            simp [placementsIn, hname, Node.placements_of_isAbsent
              (hwfParts value (by simp)) habsent]
            rfl
          · have hpat : ∀ bound value : Node,
              (Node.mk .assignPat span [bound, value]).placements setting.inner =
                placementsIn setting.inner [bound, value] := by
              intro bound value
              rw [Node.placements_of_plain (by simp) rfl rfl (by simp), Setting.inner_inner]
            simp [placementsIn, hname, hpat, hvalue]
            rfl
        · next hother =>
          rw [← hparts, substituteIn, substituteIn, substituteIn,
            Node.substitute_binding _ _ _ hother]
      · exact hparts

theorem Node.placements_rename (old new : String) {node : Node} (hwf : node.isWellFormed = true)
    (setting : Setting) : (node.rename old new).placements setting = node.placements setting := by
  unfold Node.rename
  split
  · rfl
  · exact Node.placements_substitute old new hwf setting

theorem placementsIn_rename (old new : String) {nodes : List Node}
    (hwf : ∀ node ∈ nodes, node.isWellFormed = true) (setting : Setting) :
    placementsIn setting (nodes.map (·.rename old new)) = placementsIn setting nodes :=
  placementsIn_map fun node hmem => Node.placements_rename old new (hwf node hmem) setting

theorem Node.placements_renameAll (renamings : List (String × String)) {node : Node}
    (hwf : node.isWellFormed = true) (setting : Setting) :
    (renameAll renamings node).placements setting = node.placements setting := by
  induction renamings generalizing node with
  | nil => rfl
  | cons pair renamings ih =>
      have hrest := ih (Node.Stands.rename pair.1 pair.2 hwf).wellFormed
      exact hrest.trans (Node.placements_rename pair.1 pair.2 hwf setting)

theorem placementsIn_renameClashing (clashes : String → Bool) (declared : List String)
    {stmts : List Node} (hwf : ∀ stmt ∈ stmts, stmt.isWellFormed = true) (names : Registry)
    (setting : Setting) :
    placementsIn setting ((renameClashing clashes declared stmts).run names).1 =
      placementsIn setting stmts := by
  induction declared generalizing stmts names with
  | nil => rfl
  | cons name declared ih =>
      unfold renameClashing
      split
      · have hrename := forall₂_stands_rename name (names.rename name).1 hwf
        have hwfRenamed := Node.Fits.wellFormed_of_forall₂ (hrename.imp fun _ _ hs => hs.toFits)
        exact (ih hwfRenamed (names.rename name).2).trans (placementsIn_rename name _ hwf setting)
      · exact ih hwf names

/-- The statements of a function have the declarations they had, and its write-backs have none. -/
theorem placements_chooseParams {writtenBack : String → Bool} {vars : List (String × String)}
    {stmts : List Node} (hwf : ∀ stmt ∈ stmts, stmt.isWellFormed = true) {function : LoopFunction}
    {names names' : Registry}
    (h : (chooseParams writtenBack vars stmts).run names = (function, names')) (setting : Setting) :
    placementsIn setting function.stmts = placementsIn setting stmts ∧
      ∀ stmt ∈ function.writeBack, ∀ setting, stmt.placements setting = [] := by
  obtain rfl : ((chooseParams writtenBack vars stmts).run names).1 = function := congrArg Prod.fst h
  clear h
  induction vars generalizing stmts names with
  | nil => exact ⟨rfl, fun _ hmem => absurd hmem List.not_mem_nil⟩
  | cons var vars ih =>
      obtain ⟨name, outer⟩ := var
      unfold chooseParams
      split
      · have hrename := forall₂_stands_rename name (names.fresh name).1 hwf
        have hwfRenamed := Node.Fits.wellFormed_of_forall₂ (hrename.imp fun _ _ hs => hs.toFits)
        obtain ⟨hstmts, hback⟩ := @ih _ hwfRenamed (names.fresh name).2
        refine ⟨hstmts.trans (placementsIn_rename name _ hwf setting),
          List.forall_mem_cons.mpr ⟨fun setting => ?_, hback⟩⟩
        rw [Node.placements_exprStmt, Node.placements_assignTo, Node.placements_use]
      · exact ih hwf

/-! ### Aliases and jumps -/

/-- Naming `this` and `arguments` leaves the declarations. -/
theorem Node.placements_useAliases (aliases : Aliases) {node : Node}
    (hwf : node.isWellFormed = true) (setting : Setting) :
    (node.useAliases aliases).placements setting = node.placements setting := by
  induction node using Node.inductionOn generalizing setting with
  | step form span parts ih =>
      have hwfParts : ∀ part ∈ parts, part.isWellFormed = true :=
        fun part hmem => Node.isWellFormed_part hwf hmem
      unfold Node.useAliases
      split
      · rfl
      split
      · split
        · obtain rfl := Node.parts_eq_nil rfl (by simp) hwf
          rfl
        · rfl
      · split
        · rfl
        · rfl
      · split
        · obtain rfl := Node.parts_eq_nil rfl (by simp) hwf
          rw [Node.placements_keyValue]
          rfl
        · rfl
      · rw [useAliasesIn_eq_map]
        exact Node.placements_map
          (fun part hmem => (Node.Stands.useAliases aliases (hwfParts part hmem)).lexical)
          fun part hmem setting => ih part hmem (hwfParts part hmem) setting

theorem Completion.placements_toReturn (setting : Setting) (value? : Option Node)
    (options : Options) (span : Span) :
    ((Completion.result value?).toReturn options span).placements setting =
      (value?.map (·.placements setting.inner)).getD [] := by
  have hundefined : (Node.undefined span).placements setting.inner = [] := by
    rw [Node.undefined, Node.placements_of_plain (by simp) rfl rfl (by simp)]
    rfl
  have hobject : ∀ value : Node,
      (Node.objectOf options.returnKey value span).placements setting.inner =
      value.placements setting.inner := by
    intro value
    rw [Node.objectOf, Node.placements_of_plain (by simp) rfl rfl (by simp)]
    simp [placementsIn, Node.placements_keyValue]
  rw [Completion.toReturn, Node.returnStmt, Node.placements_of_plain (by simp) rfl rfl (by simp)]
  cases value? with
  | none => simp [placementsIn, hobject, hundefined]
  | some value => simp [placementsIn, hobject]

/-- Redirecting jumps leaves the declarations. -/
theorem Node.placements_redirect {redirection : Redirection}
    (hback : ∀ stmt ∈ redirection.writeBack, stmt.IsPlainStmt)
    (hnone : ∀ stmt ∈ redirection.writeBack, ∀ setting, stmt.placements setting = [])
    (ctx : JumpContext) {node : Node} (hwf : node.isWellFormed = true) (setting : Setting) :
    (node.redirect redirection ctx).placements setting = node.placements setting := by
  induction node using Node.inductionOn generalizing ctx setting with
  | step form span parts ih =>
      have hwfParts : ∀ part ∈ parts, part.isWellFormed = true :=
        fun part hmem => Node.isWellFormed_part hwf hmem
      have hplain : ∀ completion : Completion, (∀ value?, completion ≠ .result value?) →
          ∀ setting, (completion.toReturn redirection.options span).placements setting = [] := by
        intro completion hcompletion setting
        cases completion with
        | normal | leave =>
            rw [Completion.toReturn, Node.returnStmt,
              Node.placements_of_plain (by simp) rfl rfl (by simp)]
            rfl
        | result value? => exact absurd rfl (hcompletion value?)
      unfold Node.redirect
      split
      · rfl
      split
      · split
        · obtain rfl := Node.parts_eq_nil rfl (by simp) hwf
          exact hplain .leave (by simp) setting
        · rfl
      · split
        · obtain rfl := Node.parts_eq_nil rfl (by simp) hwf
          unfold Redirection.continueStmt
          split
          · exact hplain .normal (by simp) setting
          · have hstmts : ∀ setting, placementsIn setting (redirection.writeBack ++
                [Completion.normal.toReturn redirection.options span]) = [] := by
              intro setting
              rw [placementsIn_eq_flatMap, List.flatMap_eq_nil_iff]
              intro stmt hmem
              rcases List.mem_append.mp hmem with hmem | hmem
              · exact hnone stmt hmem setting
              · rw [List.mem_singleton.mp hmem]
                exact hplain .normal (by simp) setting
            rw [Node.placements, hstmts]
            rfl
        · rfl
      · obtain ⟨argument, rest, rfl, -, hrest⟩ :=
          exists_of_fillSlots_cons ((Node.isWellFormed_mk.mp hwf).1.resolve_left (by simp))
        obtain rfl := eq_nil_of_fillSlots_nil hrest
        rw [Completion.placements_toReturn, Node.placements_of_plain (by simp) rfl rfl (by simp)]
        cases habsent : argument.isAbsent with
        | true =>
            simp [placementsIn, habsent,
              Node.placements_of_isAbsent (hwfParts argument (by simp)) habsent]
        | false => simp [placementsIn, habsent]
      · rw [redirectIn_eq_map]
        exact Node.placements_map
          (fun part hmem => (Node.Stands.redirect hback _ (hwfParts part hmem)).lexical)
          fun part hmem setting => ih part hmem _ (hwfParts part hmem) setting

/-! ### Flattening -/

theorem Node.placements_resetInit {node : Node} (hwf : node.isWellFormed = true)
    (setting : Setting) :
    node.resetInit.placements setting = node.placements setting := by
  unfold Node.resetInit
  split
  · next definite span pattern init =>
    split
    · next habsent =>
      have hinit := Node.placements_of_isAbsent (Node.isWellFormed_part hwf (by simp)) habsent
        setting.inner
      have hundefined : (Node.undefined span).placements setting.inner = [] := by
        rw [Node.undefined, Node.placements_of_plain (by simp) rfl rfl (by simp)]
        rfl
      rw [Node.placements_of_plain (by simp) rfl rfl (by simp),
        Node.placements_of_plain (by simp) rfl rfl (by simp)]
      simp [placementsIn, hinit, hundefined]
    · rfl
  · rfl

theorem map_turned_eq_self {placed : List Placement} (h : ∀ d ∈ placed, d.setting ≠ .block) :
    placed.map Placement.turned = placed := by
  rw [List.map_congr_left fun d hmem => Placement.turned_of_ne (h d hmem), List.map_id']

/-- A statement of a block is turned itself; what it holds is not. -/
theorem Node.placements_flattenDecl (reset : Bool) {constant declare : Bool} {span : Span}
    {declarators : List Node}
    (hwf : (Node.varDecl (.lexical constant) declare span declarators).isWellFormed = true) :
    ((Node.varDecl (.lexical constant) declare span declarators).flattenDecl reset).placements
      .block =
      ((Node.varDecl (.lexical constant) declare span declarators).placements .block).map
        Placement.turned := by
  have hparts : ∀ d ∈ placementsIn .elsewhere declarators, d.setting ≠ .block := by
    intro d hmem
    rw [placementsIn_eq_flatMap, List.mem_flatMap] at hmem
    obtain ⟨declarator, hdeclarator, hmem⟩ := hmem
    rw [Node.placements_of_isStill (Node.isWellFormed_part hwf hdeclarator)
      (Node.isStill_declarator hwf hdeclarator) d hmem]
    exact fun e => by cases e
  have hreset : placementsIn .elsewhere
      (if reset && !constant then declarators.map Node.resetInit else declarators) =
        placementsIn .elsewhere declarators := by
    split
    · exact placementsIn_map fun d hmem =>
        Node.placements_resetInit (Node.isWellFormed_part hwf hmem) .elsewhere
    · rfl
  have hinside : ∀ kind : VarKind, ∀ parts,
      Setting.block.inside (.varDecl kind declare span parts) = .elsewhere :=
    fun kind parts => Setting.inside_of_plain rfl rfl (by simp)
  rw [Node.flattenDecl, Node.placements, Node.placements, hinside, hinside, hreset, List.map_append,
    map_turned_eq_self hparts]
  rfl

/-- Turning a statement first makes no difference to what is turned. -/
theorem Node.map_turned_flattenDecl (reset : Bool) {stmt : Node} (hwf : stmt.isWellFormed = true) :
    ((stmt.flattenDecl reset).placements .block).map Placement.turned =
      (stmt.placements .block).map Placement.turned := by
  cases hlexical : stmt.isLexicalDecl with
  | true =>
      obtain ⟨constant, declare, span, declarators, rfl⟩ := Node.isLexicalDecl_iff.mp hlexical
      rw [Node.placements_flattenDecl reset hwf, List.map_map]
      refine List.map_congr_left fun d _ => ?_
      simp only [Function.comp_apply, Placement.turned]
      split
      · simp
      · simp
  | false => rw [Node.flattenDecl_of_not_lexical hlexical]

/-- A block-scoped loop is left alone, whatever labels it has. -/
theorem Node.isNested_placements_of_isCandidate {node : Node} (h : node.isCandidate = true)
    {setting : Setting} : ∀ d ∈ node.placements setting, d.setting.isNested = true := by
  induction node using Node.inductionOn generalizing setting with
  | step form span parts ih =>
      intro d hmem
      rcases Node.isCandidate_cases h with hloop | ⟨label, labelSpan, body, heq, hbody⟩
      · have hform : ∀ kind declare, form ≠ .varDecl kind declare := by
          rintro kind declare rfl
          cases hloop
        rcases Node.mem_placements.mp hmem with hown | ⟨part, -, hmem⟩
        · obtain ⟨⟨kind, declare, rfl⟩, -⟩ := Form.eq_of_mem_placement hown
          exact absurd rfl (hform kind declare)
        · refine Node.placements_of_isNested ?_ d hmem
          unfold Setting.inside
          split
          · rfl
          · rw [if_pos (Or.inr hloop)]
            rfl
      · cases heq
        rcases Node.mem_placements.mp hmem with hown | ⟨part, hpart, hmem⟩
        · cases hown
        · rw [List.mem_singleton.mp hpart] at hmem
          exact ih body List.mem_cons_self hbody d hmem

theorem Node.map_turned_of_isNested {node : Node} {setting : Setting}
    (h : ∀ d ∈ node.placements setting, d.setting.isNested = true) :
    (node.placements setting).map Placement.turned = node.placements setting :=
  (List.map_congr_left fun d hmem => Placement.turned_of_isNested (h d hmem)).trans (List.map_id' _)

/-- A closure is left alone. -/
theorem Node.isNested_placements_of_isClosure {form : Form}
    (h : form.isClosure = true) {span : Span} {parts : List Node} {setting : Setting} :
    ∀ d ∈ (Node.mk form span parts).placements setting, d.setting.isNested = true := by
  intro d hmem
  rcases Node.mem_placements.mp hmem with hown | ⟨part, -, hmem⟩
  · obtain ⟨⟨kind, declare, rfl⟩, -⟩ := Form.eq_of_mem_placement hown
    cases h
  · rw [Setting.inside_of_isClosure h] at hmem
    rw [Node.placements_closure d hmem]
    rfl

section

variable {clashes : String → Bool} {names : Registry} {setting : Setting}

theorem placementsIn_changeBlocksIn {change : Bool → List Node → Naming (List Node)} {again : Bool}
    {nodes : List Node}
    (h : ∀ node ∈ nodes, ∀ names,
      ((node.changeBlocks change again).run names).1.placements setting =
      (node.placements setting).map Placement.turned) (names : Registry) :
    placementsIn setting ((changeBlocksIn change again nodes).run names).1 =
      (placementsIn setting nodes).map Placement.turned := by
  induction nodes generalizing names with
  | nil => rfl
  | cons node nodes ih =>
      rw [List.forall_mem_cons] at h
      rw [placementsIn, List.map_append, ← h.1 names, ← ih h.2]
      rfl

/-- Flattening the blocks of a tree turns what their statements declare. -/
theorem Node.placements_changeBlocks {depth : Nat} {node : Node}
    (hchange : ∀ again stmts names, (∀ stmt ∈ stmts, stmt.isWellFormed = true) →
      blockDepthOf stmts < depth →
      placementsIn .block ((flattenTo clashes depth again stmts).run names).1 =
        (placementsIn .block stmts).map Placement.turned)
    (hwf : node.isWellFormed = true) (hdepth : node.blockDepth ≤ depth)
    (again : Bool) (names : Registry) (hopen : setting.isNested = false)
    (hown : setting = .block → node.isLexicalDecl = false) :
    ((node.changeBlocks (flattenTo clashes depth) again).run names).1.placements setting =
      (node.placements setting).map Placement.turned := by
  induction node using Node.inductionOn generalizing setting again names with
  | step form span parts ih =>
      have hwfParts : ∀ part ∈ parts, part.isWellFormed = true :=
        fun part hmem => Node.isWellFormed_part hwf hmem
      have hmine : (form.placement setting span).map Placement.turned =
          form.placement setting span := by
        unfold Form.placement
        split
        · next kind declare =>
          unfold Placement.turned
          cases setting with
          | block =>
              cases kind with
              | var => rfl
              | lexical => cases hown rfl
          | _ => rfl
        · rfl
      unfold Node.changeBlocks
      split
      · next hstop =>
        refine (Node.map_turned_of_isNested ?_).symm
        rcases Bool.or_eq_true_iff.mp hstop with hclosure | hcandidate
        · exact Node.isNested_placements_of_isClosure hclosure
        · exact Node.isNested_placements_of_isCandidate hcandidate
      · next hstop =>
        simp only [Bool.or_eq_true, not_or, Bool.not_eq_true] at hstop
        split
        · have hinside : ∀ parts, setting.inside (.block span parts) = .block := by
            intro parts
            cases setting with
            | loop | closure => cases hopen
            | _ => rfl
          rw [Node.placements, hinside, List.map_append, ← hchange again parts names hwfParts]
          · show (Node.block span ((flattenTo clashes depth again parts).run names).1).placements
              setting = _
            rw [Node.placements, hinside]
            rfl
          · rw [Node.blockDepth, if_pos rfl] at hdepth
            omega
        · next hblock =>
          have hplain : (Node.mk form span parts).isBlockLoop = false := by
            by_contra hloop
            rw [Node.isCandidate_of_isBlockLoop (by simpa using hloop)] at hstop
            cases hstop.2
          have hinner : setting.inside (.mk form span parts) = .elsewhere := by
            rw [Setting.inside_of_plain hstop.1 hplain hblock]
            cases setting with
            | loop | closure => cases hopen
            | _ => rfl
          have hstands : List.Forall₂ Node.Stands parts
              ((changeBlocksIn (flattenTo clashes depth) (again || form.isLoop) parts).run
                names).1 :=
            forall₂_changeBlocksIn (fun part hmem names => .changeBlocks
              (forall₂_fits_flattenTo clashes depth) (hwfParts part hmem) _ names) names
          have hparts := placementsIn_changeBlocksIn (fun part hmem names =>
            @ih part hmem .elsewhere (hwfParts part hmem)
              (Nat.le_trans (Node.blockDepth_part hmem) hdepth)
              (again || form.isLoop) names rfl fun e => by cases e) names
          show (Node.mk form span ((changeBlocksIn (flattenTo clashes depth) (again || form.isLoop)
            parts).run names).1).placements setting = _
          rw [Node.placements, Setting.inside_congr (hstands.imp fun _ _ hs => hs.lexical),
            Node.placements, hinner, hparts, List.map_append, hmine]

/-- Flattening a statement list, down to a depth that is deep enough, turns what its statements and
those of the blocks in it declare. -/
theorem placementsIn_flattenTo (clashes : String → Bool) (depth : Nat) (again : Bool)
    (stmts : List Node) (names : Registry) (hwf : ∀ stmt ∈ stmts, stmt.isWellFormed = true)
    (hdepth : blockDepthOf stmts < depth) :
    placementsIn .block ((flattenTo clashes depth again stmts).run names).1 =
      (placementsIn .block stmts).map Placement.turned := by
  induction depth generalizing again stmts names with
  | zero => exact absurd hdepth (Nat.not_lt_zero _)
  | succ depth ih =>
      have hrenamed := placementsIn_renameClashing clashes (stmts.flatMap Node.blockScopedNames)
          hwf names .block
      have hfits := forall₂_fits_renameClashing clashes
          (stmts.flatMap Node.blockScopedNames) hwf names
      have hshallow := blockDepthOf_renameClashing_le clashes
          (stmts.flatMap Node.blockScopedNames) stmts names
      rw [flattenTo, Naming.run_bind]
      generalize (renameClashing clashes (stmts.flatMap Node.blockScopedNames) stmts).run names =
        drawn at hrenamed hfits hshallow ⊢
      obtain ⟨renamed, names'⟩ := drawn
      have hwfRenamed := Node.Fits.wellFormed_of_forall₂ hfits
      have hflat : placementsIn .block ((changeBlocksIn (flattenTo clashes depth) again
          (renamed.map (·.flattenDecl again))).run names').1 =
            (placementsIn .block (renamed.map (·.flattenDecl again))).map Placement.turned := by
        refine placementsIn_changeBlocksIn
          (List.forall_mem_map.mpr fun stmt hmem names => ?_) names'
        have hstmt := Nat.le_trans hshallow (Nat.lt_succ_iff.mp hdepth)
        refine Node.placements_changeBlocks ih
          (Node.Fits.flattenDecl again (hwfRenamed stmt hmem)).wellFormed
          ?_ again names rfl fun _ => Node.isLexicalDecl_flattenDecl again stmt
        exact Nat.le_trans (stmt.blockDepth_flattenDecl_le again)
          (blockDepthOf_le.mp hstmt stmt hmem)
      refine hflat.trans ?_
      rw [← hrenamed, placementsIn_eq_flatMap, placementsIn_eq_flatMap, List.flatMap_map,
        List.map_flatMap, List.map_flatMap]
      exact List.flatMap_congr fun stmt hmem => Node.map_turned_flattenDecl again
        (hwfRenamed stmt hmem)

theorem placementsIn_flattenStmts (clashes : String → Bool) (again : Bool) {stmts : List Node}
    (hwf : ∀ stmt ∈ stmts, stmt.isWellFormed = true) (names : Registry) :
    placementsIn .block ((flattenStmts clashes again stmts).run names).1 =
      (placementsIn .block stmts).map Placement.turned :=
  placementsIn_flattenTo clashes _ again stmts names hwf (Nat.lt_succ_self _)

/-- Flattening a loop body in place turns what its blocks declare. -/
theorem Node.placements_flatten (clashes : String → Bool) {body : Node}
    (hwf : body.isWellFormed = true) (names : Registry) :
    ((body.flatten clashes).run names).1.placements .elsewhere =
      (body.placements .elsewhere).map Placement.turned :=
  Node.placements_changeBlocks
    (fun again stmts names hwf hdepth =>
      placementsIn_flattenTo clashes _ again stmts names hwf hdepth)
    hwf (Nat.le_refl _) true names rfl fun e => by cases e

end

/-! ### Hoisting -/

/-- What hoisting leaves of some declarations.  It takes `var` declarations out and, where they are
not plain, what stands in an initialiser it drops. -/
structure LeftOf (plain : Prop) (before after : List Placement) : Prop where
  sublist : after.Sublist before
  /-- Outside closures no `let` or `const` is lost. -/
  lets : after.filter Placement.isOpenLet = before.filter Placement.isOpenLet
  all : plain → after = before.filter Placement.isKept

namespace LeftOf

variable {plain : Prop} {before after : List Placement}

theorem of_kept {placed : List Placement} (h : ∀ d ∈ placed, d.isKept = true) :
    LeftOf plain placed placed :=
  ⟨.refl _, rfl, fun _ => (List.filter_eq_self.mpr h).symm⟩

theorem of_closed (hclosed : ∀ d ∈ before, d.setting = .closure) (hsublist : after.Sublist before)
    (hall : plain → after = before) : LeftOf plain before after := by
  have hnone : ∀ {placed : List Placement}, placed.Sublist before →
      placed.filter Placement.isOpenLet = [] := by
    intro placed hsub
    rw [List.filter_eq_nil_iff]
    intro d hmem
    simp [Placement.isOpenLet, hclosed d (hsub.subset hmem)]
  refine ⟨hsublist, (hnone hsublist).trans (hnone (.refl _)).symm, fun hplain => ?_⟩
  rw [hall hplain, eq_comm, List.filter_eq_self]
  intro d hmem
  simp [Placement.isKept, hclosed d hmem]

theorem append {more more' : List Placement} (h : LeftOf plain before after)
    (hmore : LeftOf plain more more') : LeftOf plain (before ++ more) (after ++ more') := by
  refine ⟨h.sublist.append hmore.sublist, ?_, fun hplain => ?_⟩
  · rw [List.filter_append, List.filter_append, h.lets, hmore.lets]
  · rw [List.filter_append, h.all hplain, hmore.all hplain]

theorem mono {other : Prop} (h : LeftOf plain before after) (himp : other → plain) :
    LeftOf other before after :=
  ⟨h.sublist, h.lets, fun hother => h.all (himp hother)⟩

theorem parts {setting : Setting} {nodes : List Node} {f : Node → Node}
    (h : ∀ node ∈ nodes, LeftOf plain (node.placements setting) ((f node).placements setting)) :
    LeftOf plain (placementsIn setting nodes) (placementsIn setting (nodes.map f)) := by
  induction nodes with
  | nil => exact .of_kept fun _ hmem => absurd hmem List.not_mem_nil
  | cons node nodes ih =>
      rw [List.forall_mem_cons] at h
      exact h.1.append (ih h.2)

end LeftOf

section

variable {setting : Setting} {span : Span}

/-- Of a declarator its initialiser is left, if it declares a single name. -/
theorem Node.leftOf_initAssignment? {d : Node} (hwf : d.isWellFormed = true)
    (hstill : d.allAre (·.isStill) = true) :
    LeftOf (d.declaresName = true) (d.placements setting)
      (d.initAssignment?.toList.flatMap (Node.placements setting)) := by
  have hclosed : ∀ placed ∈ d.placements setting, placed.setting = .closure :=
    Node.placements_of_isStill hwf hstill
  unfold Node.initAssignment?
  split
  · next definite dSpan name optional nameSpan ascription init =>
    have hname : (Node.mk (.ident .bind name optional) nameSpan ascription).isWellFormed = true :=
      Node.isWellFormed_part hwf (by simp)
    have htype : placementsIn setting.inner ascription = [] := by
      rw [placementsIn_eq_flatMap, List.flatMap_eq_nil_iff]
      intro part hmem
      obtain ⟨slot, hslot, hadmits⟩ :=
        Shape.exists_slot ((Node.isWellFormed_mk.mp hname).1.resolve_left (by simp)) hmem
      obtain rfl : slot = .optional [.ascription] := by simpa [Form.shape, Shape.slots] using hslot
      refine Node.placements_of_type (Node.isWellFormed_part hname hmem) ?_ _
      rw [Slot.admits, Bool.or_eq_true] at hadmits
      rcases hadmits with habsent | hcategory
      · rw [show part.form = .absent by simpa [Node.isAbsent] using habsent]
        simp [Form.category]
      · rw [show part.form.category = .ascription by simpa using hcategory]
        simp
    have hparts : (Node.declarator definite dSpan
        (.mk (.ident .bind name optional) nameSpan ascription)
        init).placements setting = init.placements setting.inner := by
      rw [Node.placements_of_plain (by simp) rfl rfl (by simp), placementsIn,
        Node.placements_of_plain (by simp) rfl rfl (by simp), Setting.inner_inner, htype,
        placementsIn, placementsIn,
        List.append_nil, List.nil_append]
    rw [hparts] at hclosed ⊢
    split
    · next habsent =>
      have hinit : init.isWellFormed = true := Node.isWellFormed_part hwf (by simp)
      rw [Node.placements_of_isAbsent hinit habsent]
      exact .of_kept fun _ hmem => absurd hmem List.not_mem_nil
    · refine .of_closed hclosed ?_ fun _ => ?_
      · simp [Node.placements_assignTo]
      · simp [Node.placements_assignTo]
  · next hother =>
    refine .of_closed hclosed (List.nil_sublist _) fun hname => ?_
    obtain ⟨definite, span, name, optional, nameSpan, ascription, init, rfl⟩ :=
      Node.exists_of_declaresName hwf hname
    exact absurd rfl (hother _ _ _ _ _ _ _)

theorem placementsIn_initAssignments {ds : List Node} :
    placementsIn setting (ds.filterMap Node.initAssignment?) =
      ds.flatMap fun d => d.initAssignment?.toList.flatMap (Node.placements setting) := by
  induction ds with
  | nil => rfl
  | cons d ds ih =>
      rw [List.filterMap_cons, List.flatMap_cons, ← ih]
      cases d.initAssignment? with
      | none => rfl
      | some expr => simp [placementsIn]

/-- Of a `var` its initialisers are left, if it declares single names. -/
theorem leftOf_initAssignments {declare : Bool} {ds : List Node}
    (hwf : (Node.varDecl .var declare span ds).isWellFormed = true) (hopen : setting ≠ .closure) :
    LeftOf (∀ d ∈ ds, d.declaresName = true)
      ((Node.varDecl .var declare span ds).placements setting)
      ((initAssignments? span ds).toList.flatMap (Node.placements setting.inner)) := by
  have hds : LeftOf (∀ d ∈ ds, d.declaresName = true) (placementsIn setting.inner ds)
      (placementsIn setting.inner (ds.filterMap Node.initAssignment?)) := by
    rw [placementsIn_initAssignments]
    have hwfParts : ∀ d ∈ ds, d.isWellFormed = true ∧ d.allAre (·.isStill) = true := fun d hmem =>
      ⟨Node.isWellFormed_part hwf hmem, Node.isStill_declarator hwf hmem⟩
    clear hwf
    induction ds with
    | nil => exact .of_kept fun _ hmem => absurd hmem List.not_mem_nil
    | cons d ds ih =>
        rw [List.forall_mem_cons] at hwfParts
        exact ((Node.leftOf_initAssignment? hwfParts.1.1 hwfParts.1.2).mono fun h =>
          h d List.mem_cons_self).append ((ih hwfParts.2).mono fun h d hmem =>
            h d (List.mem_cons_of_mem _ hmem))
  have hexpr : (initAssignments? span ds).toList.flatMap (Node.placements setting.inner) =
      placementsIn setting.inner (ds.filterMap Node.initAssignment?) := by
    unfold initAssignments? Node.sequence?
    split
    · next hnil => rw [hnil]; rfl
    · next expr hone => rw [hone]; simp [placementsIn]
    · rw [Option.toList_some, List.flatMap_cons, List.flatMap_nil, List.append_nil,
        Node.placements_of_plain (by simp) rfl rfl (by simp), Setting.inner_inner]
  have hinside : setting.inside (.varDecl .var declare span ds) = setting.inner :=
    Setting.inside_of_plain rfl rfl (by simp)
  rw [hexpr, Node.placements, hinside]
  refine ⟨hds.sublist.cons _, hds.lets, fun hnames => ?_⟩
  rw [hds.all hnames]
  cases setting with
  | closure => exact absurd rfl hopen
  | _ => rfl

/-- What stays in the head of a loop are declarations by `let` or `const`, and closures. -/
theorem Node.isKept_of_isQuiet {node : Node} (hwf : node.isWellFormed = true)
    (hquiet : node.form.category.isQuiet = true)
    (hvar : ∀ declare, node.form ≠ .varDecl .var declare) :
    ∀ d ∈ node.placements setting, d.isKept = true := by
  intro d hmem
  obtain ⟨form, formSpan, parts⟩ := node
  by_cases hdecl : ∃ kind declare, form = .varDecl kind declare
  · obtain ⟨kind, declare, rfl⟩ := hdecl
    cases kind with
    | var => exact absurd rfl (hvar declare)
    | lexical constant =>
        rcases Node.mem_placements.mp hmem with hown | ⟨part, hpart, hmem⟩
        · rw [List.mem_singleton.mp hown]
          rfl
        · have hclosed := Node.placements_of_isStill (Node.isWellFormed_part hwf hpart)
            (Node.isStill_declarator hwf hpart) d hmem
          simp [Placement.isKept, hclosed]
  · have hcategory : form.category ≠ .varDecl := by
      intro heq
      cases form with
      | varDecl => exact hdecl ⟨_, _, rfl⟩
      | ident role => cases role <;> cases heq
      | _ => cases heq
    have hlist : form ≠ .list := by
      rintro rfl
      cases hquiet
    have hstill : (Node.mk form formSpan parts).allAre (·.isStill) = true := by
      rw [Node.allAre, if_neg (by simpa [Node.form] using hlist), Category.isStill]
      simpa [Node.form, hcategory] using hquiet
    simp [Placement.isKept, Node.placements_of_isStill hwf hstill d hmem]

theorem LeftOf.of_still {plain : Prop} {node : Node} (hwf : node.isWellFormed = true)
    (hstill : node.allAre (·.isStill) = true) (setting : Setting) :
    LeftOf plain (node.placements setting) (node.placements setting) :=
  .of_kept fun d hmem => by simp [Placement.isKept, Node.placements_of_isStill hwf hstill d hmem]

theorem Node.leftOf_hoistInit {init : Node} (hwf : init.isWellFormed = true)
    (hslot : (Slot.optional (.varDecl :: Category.exprs)).admits init = true)
    (hopen : setting ≠ .closure) (hinner : setting.inner = setting) :
    LeftOf init.PlainCode (init.placements setting) (init.hoistInit.placements setting) := by
  rcases init.hoistInit_cases with ⟨declare, span, ds, rfl, heq⟩ | ⟨hvar, heq⟩
  · have hleft := leftOf_initAssignments hwf hopen
    rw [hinner] at hleft
    have hafter : ((initAssignments? span ds).getD .absent).placements setting =
        (initAssignments? span ds).toList.flatMap (Node.placements setting) := by
      cases initAssignments? span ds with
      | none => rfl
      | some expr => simp
    rw [heq, hafter]
    exact hleft.mono fun hplain => List.all_eq_true.mp (Node.openly_mk hplain.plain rfl).1
  · rw [heq]
    exact .of_kept (Node.isKept_of_isQuiet hwf (Slot.isQuiet_of_optional rfl hslot) hvar)

theorem Node.leftOf_hoistLeft {left : Node} (hwf : left.isWellFormed = true)
    (hslot : (Slot.one (.varDecl :: .usingDecl :: Category.patterns)).admits left = true)
    (hopen : setting ≠ .closure) (hinner : setting.inner = setting) :
    LeftOf (∀ declare, left.form = .varDecl .var declare → left.isBareDecl = true)
      (left.placements setting) (left.hoistLeft.placements setting) := by
  unfold Node.hoistLeft
  split
  · next declare span definite dSpan pattern init =>
    have hd : (Node.declarator definite dSpan pattern init).isWellFormed = true :=
      Node.isWellFormed_part hwf (by simp)
    have hclosed : ∀ d ∈ (Node.declarator definite dSpan pattern init).placements setting,
        d.setting = .closure := Node.placements_of_isStill hd
          (Node.isStill_declarator hwf (by simp))
    have hparts : (Node.declarator definite dSpan pattern init).placements setting =
        pattern.placements setting ++ init.placements setting := by
      rw [Node.placements_of_plain (by simp) rfl rfl (by simp), hinner]
      simp [placementsIn]
    have hinside : setting.inside
        (.varDecl .var declare span [.declarator definite dSpan pattern init]) =
        setting := (Setting.inside_of_plain rfl rfl (by simp)).trans hinner
    have hbefore : (Node.varDecl .var declare span
        [.declarator definite dSpan pattern init]).placements
        setting = ⟨setting, .var, span⟩ :: (Node.declarator definite dSpan pattern init).placements
          setting := by
      rw [Node.placements, hinside]
      simp [placementsIn, Form.placement]
    have hleft : LeftOf (init.isAbsent = true)
        ((Node.declarator definite dSpan pattern init).placements setting)
        (pattern.placements setting) := by
      refine .of_closed hclosed ?_ fun habsent => ?_
      · rw [hparts]
        exact List.sublist_append_left _ _
      · rw [hparts, Node.placements_of_isAbsent (Node.isWellFormed_part hd (by simp)) habsent,
          List.append_nil]
    rw [hbefore]
    refine ⟨hleft.sublist.cons _, hleft.lets, fun hbare => ?_⟩
    rw [hleft.all (hbare declare rfl)]
    cases setting with
    | closure => exact absurd rfl hopen
    | _ => rfl
  · next hnot =>
    refine ⟨.refl _, rfl, fun hbare => ?_⟩
    rw [eq_comm, List.filter_eq_self]
    refine Node.isKept_of_isQuiet hwf (Slot.isQuiet_of_one rfl hslot) fun declare hvar => ?_
    obtain ⟨form, span, ds⟩ := left
    have hsingle := hbare declare hvar
    obtain rfl : form = .varDecl .var declare := hvar
    rcases Node.hoistLeft_cases (fun _ => hsingle) with ⟨_, _, _, _, _, _, heq, -⟩ | ⟨hother, -⟩
    · cases heq
      exact hnot _ _ _ _ _ _ rfl
    · exact hother declare rfl

theorem placementsIn_withoutEmpty {stmts : List Node}
    (hwf : ∀ stmt ∈ stmts, stmt.isWellFormed = true)
    (setting : Setting) : placementsIn setting (withoutEmpty stmts) =
      placementsIn setting stmts := by
  rw [placementsIn_eq_flatMap, placementsIn_eq_flatMap]
  refine flatMap_withoutEmpty fun stmt hmem hform => ?_
  obtain ⟨form, span, parts⟩ := stmt
  obtain rfl : form = .empty := hform
  obtain rfl := Node.parts_eq_nil rfl (by simp) (hwf _ hmem)
  rfl

/-- Of a loop over keys or values all declarations are left but those by `var`. -/
theorem Node.leftOf_hoistOver {form : Form}
    (hform : form = .forInStmt ∨ ∃ isAwait, form = .forOfStmt isAwait)
    {left right body : Node} (hwf : (Node.mk form span [left, right, body]).isWellFormed = true)
    (hopen : setting ≠ .closure) (hlexical : body.hoist.isLexicalDecl = body.isLexicalDecl)
    (hbody : ∀ {setting : Setting}, setting ≠ .closure →
      LeftOf body.PlainCode (body.placements setting) (body.hoist.placements setting)) :
    LeftOf (Node.mk form span [left, right, body]).PlainCode
      ((Node.mk form span [left, right, body]).placements setting)
      ((Node.mk form span [left.hoistLeft, right, body.hoist]).placements setting) := by
  obtain ⟨hleft, hright, -⟩ := Node.overStmt_slots hform hwf
  have hplace : form.isClosure = false ∧ form ≠ .block ∧ form.placement setting span = [] := by
    obtain rfl | ⟨isAwait, rfl⟩ := hform
    · exact ⟨rfl, by simp, rfl⟩
    · exact ⟨rfl, by simp, rfl⟩
  have hwfParts : ∀ part ∈ [left, right, body], part.isWellFormed = true :=
    fun part hmem => Node.isWellFormed_part hwf hmem
  have hhead := Node.headsFor_hoistLeft (hwfParts left (by simp)) hleft
  have hinside : setting.inside (.mk form span [left.hoistLeft, right, body.hoist]) =
      setting.inside (.mk form span [left, right, body]) :=
    Setting.inside_congr (.cons hhead.lexical (.cons rfl (.cons hlexical .nil)))
  have hinner := @Setting.inner_inside setting form span [left, right, body] hplace.2.1
  have hin := @Setting.inside_ne_closure setting form span [left, right, body] hopen hplace.1
  rw [Node.placements, Node.placements, hinside, hplace.2.2, List.nil_append, List.nil_append]
  generalize setting.inside (.mk form span [left, right, body]) = inside at hinner hin ⊢
  have hparts := ((Node.leftOf_hoistLeft (hwfParts left (by simp)) hleft hin hinner).mono
      fun (hplain : (Node.mk form span [left, right, body]).PlainCode) _ hvar =>
        hplain.isBareDecl hform hvar).append
    ((LeftOf.of_still (hwfParts right (by simp)) (Node.isStill_of_one hright) inside).append
      ((hbody hin).mono fun hplain => hplain.part hplace.1 (by simp)))
  simpa [placementsIn] using hparts

/-- The same of a plain `for` loop. -/
theorem Node.leftOf_hoistFor {init test update body : Node}
    (hwf : (Node.mk .forStmt span [init, test, update, body]).isWellFormed = true)
    (hopen : setting ≠ .closure) (hlexical : body.hoist.isLexicalDecl = body.isLexicalDecl)
    (hbody : ∀ {setting : Setting}, setting ≠ .closure →
      LeftOf body.PlainCode (body.placements setting) (body.hoist.placements setting)) :
    LeftOf (Node.mk .forStmt span [init, test, update, body]).PlainCode
      ((Node.mk .forStmt span [init, test, update, body]).placements setting)
      ((Node.mk .forStmt span [init.hoistInit, test, update, body.hoist]).placements setting) := by
  obtain ⟨hinit, htest, hupdate, -⟩ := Node.forStmt_slots hwf
  have hwfParts : ∀ part ∈ [init, test, update, body], part.isWellFormed = true :=
    fun part hmem => Node.isWellFormed_part hwf hmem
  have hhead := Node.headsFor_hoistInit (hwfParts init (by simp)) hinit
  have hinside : setting.inside (.mk .forStmt span [init.hoistInit, test, update, body.hoist]) =
      setting.inside (.mk .forStmt span [init, test, update, body]) :=
    Setting.inside_congr (.cons hhead.lexical (.cons rfl (.cons rfl (.cons hlexical .nil))))
  have hinner := @Setting.inner_inside setting .forStmt span [init, test, update, body] (by simp)
  have hin := @Setting.inside_ne_closure setting .forStmt span [init, test, update, body] hopen rfl
  have hplain : ∀ part ∈ [init, test, update, body],
      (Node.mk .forStmt span [init, test, update, body]).PlainCode → part.PlainCode :=
    fun part hmem hplain => hplain.part rfl hmem
  rw [Node.placements, Node.placements, hinside]
  generalize setting.inside (.mk .forStmt span [init, test, update, body]) = inside at hinner hin ⊢
  have hparts := ((Node.leftOf_hoistInit (hwfParts init (by simp)) hinit hin hinner).mono
      (hplain init (by simp))).append
    ((LeftOf.of_still (hwfParts test (by simp)) (Node.isStill_of_optional htest) inside).append
      ((LeftOf.of_still (hwfParts update (by simp)) (Node.isStill_of_optional hupdate)
        inside).append ((hbody hin).mono (hplain body (by simp)))))
  simpa [placementsIn, Form.placement] using hparts

/-- Hoisting takes out the `var` declarations, and nothing else if they are plain. -/
theorem Node.leftOf_hoist {node : Node} (hwf : node.isWellFormed = true)
    (hopen : setting ≠ .closure) :
    LeftOf node.PlainCode (node.placements setting) (node.hoist.placements setting) := by
  induction node using Node.inductionOn generalizing setting with
  | step form span parts ih =>
      have hwfParts : ∀ part ∈ parts, part.isWellFormed = true :=
        fun part hmem => Node.isWellFormed_part hwf hmem
      have hhoists : ∀ part ∈ parts, part.HoistsTo part.hoist :=
        fun part hmem => .hoist (hwfParts part hmem)
      unfold Node.hoist
      split
      · next hclosure =>
        refine .of_kept fun d hmem => ?_
        rcases Node.mem_placements.mp hmem with hown | ⟨part, -, hmem⟩
        · obtain ⟨⟨kind, declare, rfl⟩, -⟩ := Form.eq_of_mem_placement hown
          cases hclosure
        · rw [Setting.inside_of_isClosure hclosure] at hmem
          simp [Placement.isKept, Node.placements_closure d hmem]
      · next hclosure =>
        rw [Bool.not_eq_true] at hclosure
        split
        · next declare =>
          have hafter : (hoistVar span parts).placements setting =
              (initAssignments? span parts).toList.flatMap (Node.placements setting.inner) := by
            unfold hoistVar
            cases initAssignments? span parts with
            | none => rfl
            | some expr => simp [Node.placements_exprStmt]
          rw [hafter]
          exact (leftOf_initAssignments hwf hopen).mono fun hplain =>
            List.all_eq_true.mp (Node.openly_mk hplain.plain rfl).1
        · exact ⟨.refl _, rfl, fun hplain => absurd rfl hplain.ne_exportDecl⟩
        · next init test update body =>
          exact Node.leftOf_hoistFor hwf hopen (hhoists body (by simp)).lexical
            (ih body (by simp) (hwfParts body (by simp)))
        · next left right body =>
          exact Node.leftOf_hoistOver (Or.inl rfl) hwf hopen (hhoists body (by simp)).lexical
            (ih body (by simp) (hwfParts body (by simp)))
        · next isAwait left right body =>
          exact Node.leftOf_hoistOver (Or.inr ⟨isAwait, rfl⟩) hwf hopen
            (hhoists body (by simp)).lexical (ih body (by simp) (hwfParts body (by simp)))
        · next hvar _ _ _ _ =>
          have hinside : ∀ parts', List.Forall₂ (fun a b => b.isLexicalDecl = a.isLexicalDecl)
              parts parts' →
              setting.inside (.mk form span parts') = setting.inside (.mk form span parts) :=
            fun parts' h => Setting.inside_congr h
          have hown : LeftOf (Node.mk form span parts).PlainCode (form.placement setting span)
              (form.placement setting span) := by
            refine .of_kept fun d hmem => ?_
            obtain ⟨⟨kind, declare, rfl⟩, -⟩ := Form.eq_of_mem_placement hmem
            rw [List.mem_singleton.mp hmem]
            cases kind with
            | var => exact absurd rfl (hvar declare)
            | lexical => rfl
          have hparts : LeftOf (Node.mk form span parts).PlainCode
              (placementsIn (setting.inside (.mk form span parts)) parts)
              (placementsIn (setting.inside (.mk form span parts)) (parts.map Node.hoist)) :=
            .parts fun part hmem => (ih part hmem (hwfParts part hmem)
              (Setting.inside_ne_closure hopen hclosure)).mono fun hplain =>
                hplain.part hclosure hmem
          rw [hoistIn_eq_map]
          split
          · next hholds =>
            have hsame : ∀ parts', setting.inside (.mk form span parts') =
                setting.inside (.mk form span parts) := by
              intro parts'
              obtain rfl | rfl := Form.eq_of_holdsStmts hholds
              · rfl
              · rfl
            rw [Node.placements, Node.placements, hsame (withoutEmpty _),
              placementsIn_withoutEmpty (wellFormed_map_hoist hwfParts)]
            exact hown.append hparts
          · rw [Node.placements, Node.placements, hinside _ (List.forall₂_map_right_iff.mpr
              (List.forall₂_same.mpr fun part hmem => (hhoists part hmem).lexical))]
            exact hown.append hparts

theorem leftOf_hoistStmts {stmts : List Node} (hwf : ∀ stmt ∈ stmts, stmt.isWellFormed = true) :
    LeftOf (∀ stmt ∈ stmts, stmt.PlainCode) (placementsIn .block stmts)
      (placementsIn .block (hoistStmts stmts)) := by
  rw [hoistStmts, hoistIn_eq_map, placementsIn_withoutEmpty (wellFormed_map_hoist hwf)]
  exact .parts fun stmt hmem =>
    (Node.leftOf_hoist (hwf stmt hmem) (fun e => by cases e)).mono fun hplain => hplain stmt hmem

end

/-! ### One loop -/

/-- Whether it is a `let` or `const` in a block-scoped loop of the body. -/
def Placement.isLetInLoop (d : Placement) : Bool := d.kind.isBlockScoped && d.setting == .loop

/-- What the statements of the function that a loop body became declare. -/
structure Node.MovedInto (body : Node) (stmts : List Node) : Prop where
  /-- The `let` and `const` are those of block-scoped loops and closures. -/
  own : ∀ d ∈ placementsIn .block stmts, d.isOwnLet = false
  /-- Those of block-scoped loops stay. -/
  loops : (placementsIn .block stmts).filter Placement.isLetInLoop =
    (placementsIn .block body.bodyStmts).filter Placement.isLetInLoop
  /-- Those of closures stay what they were, and none is lost if the `var` declarations of the body
  are plain. -/
  closures : ((placementsIn .block stmts).filter Placement.inClosure).Sublist
    ((placementsIn .block body.bodyStmts).filter Placement.inClosure)
  allClosures : body.openly Node.hasPlainVars = true →
    (placementsIn .block stmts).filter Placement.inClosure =
      (placementsIn .block body.bodyStmts).filter Placement.inClosure

/-- Turning the declarations of blocks makes no difference to those of other settings. -/
theorem filter_map_turned {test : Placement → Bool}
    (htest : ∀ d, test d = true → d.setting ≠ .block)
    (placed : List Placement) : (placed.map Placement.turned).filter test = placed.filter test := by
  have hsame : test ∘ Placement.turned = test := by
    funext d
    by_cases hblock : d.setting = .block
    · rw [Function.comp_apply, Bool.eq_iff_iff]
      refine iff_of_false (fun h => htest _ h ?_) fun h => htest _ h hblock
      rw [Placement.setting_turned, hblock]
    · rw [Function.comp_apply, Placement.turned_of_ne hblock]
  rw [List.filter_map, hsame, map_turned_eq_self]
  exact fun d hmem => htest d (List.of_mem_filter hmem)

theorem Placement.isOwnLet_turned {d : Placement} (h : d.setting = .elsewhere → d.kind = .var) :
    d.turned.isOwnLet = false := by
  obtain ⟨setting, kind, span⟩ := d
  cases setting with
  | block => rfl
  | elsewhere =>
      obtain rfl : kind = .var := h rfl
      rfl
  | loop | closure => exact Bool.and_false _

/-- Of the statements of a body, what stands elsewhere stands elsewhere in the body. -/
theorem Node.mem_placements_of_bodyStmts {body : Node} {d : Placement}
    (hmem : d ∈ placementsIn .block body.bodyStmts) (helsewhere : d.setting = .elsewhere) :
    d ∈ body.placements .elsewhere := by
  unfold Node.bodyStmts at hmem
  split at hmem
  · exact hmem
  · obtain ⟨form, span, parts⟩ := body
    rw [placementsIn, placementsIn, List.append_nil] at hmem
    rcases Node.mem_placements.mp hmem with hown | hpart
    · rw [(Form.eq_of_mem_placement hown).2] at helsewhere
      cases helsewhere
    · have hinside : Setting.elsewhere.inside (.mk form span parts) =
          Setting.block.inside (.mk form span parts) := by
        simp [Setting.inside]
      exact Node.mem_placements.mpr (Or.inr (hinside ▸ hpart))

/-- Running an iteration declares its result by `var`, and nothing else. -/
theorem JumpSites.isOwnLet_dispatch (sites : JumpSites) (callee : String) (args : List String)
    (resultName : String) (options : Options) (setting : Setting) :
    ∀ d ∈ (sites.dispatch (.callOf callee args .generated) resultName options).placements setting,
      d.kind = .var := by
  have hcall : ∀ setting, (Node.callOf callee args .generated).placements setting = [] := by
    intro setting
    have hargs : placementsIn setting.inner
        (args.map fun arg => Node.mk (.arg none) .generated [.use arg .generated]) = [] := by
      rw [placementsIn_eq_flatMap, List.flatMap_eq_nil_iff]
      exact List.forall_mem_map.mpr fun arg _ => by cases setting <;> rfl
    have hlist : (Node.list (args.map fun arg =>
        Node.mk (.arg none) .generated [.use arg .generated])).placements setting.inner = [] := by
      rw [Node.list, Node.placements_of_plain (by simp) rfl rfl (by simp),
        Setting.inner_inner, hargs]
    rw [Node.callOf, Node.placements_of_plain (by simp) rfl rfl (by simp)]
    simp [placementsIn, hlist]
  unfold JumpSites.dispatch
  split
  · simp [Node.placements_exprStmt, hcall]
  · intro d hmem
    rcases Node.mem_placements.mp hmem with hown | ⟨stmt, hstmt, hmem⟩
    · cases hown
    generalize setting.inside _ = inside at hmem
    simp only [List.mem_append, List.mem_singleton] at hstmt
    rcases hstmt with (rfl | hstmt) | hstmt
    · rcases Node.mem_placements.mp hmem with hown | ⟨declarator, hdeclarator, hmem⟩
      · rw [List.mem_singleton.mp hown]
      · rw [List.map_singleton, List.mem_singleton] at hdeclarator
        rw [hdeclarator, Node.placements_of_plain (by simp) rfl rfl (by simp)] at hmem
        simp only [placementsIn, hcall, List.append_nil] at hmem
        cases inside <;> cases hmem
    · split at hstmt
      · rw [List.mem_singleton.mp hstmt] at hmem
        cases inside <;> cases hmem
      · cases hstmt
    · split at hstmt
      · rw [List.mem_singleton.mp hstmt] at hmem
        cases inside <;> cases hmem
      · cases hstmt

section

variable {loop : Loop} {loopVars outer : List String} {record : Capture.Record} {options : Options}
  {names names' : Registry} {extraction : Extraction}

/-- The function declares what hoisting leaves of the body, and its blocks declare by `var`. -/
theorem Loop.ExtractsTo.placements
    (h : loop.ExtractsTo loopVars outer record options names extraction names')
    (hbody : loop.body.IsStmt) :
    placementsIn .block (extraction.stmts loop.labelNames options ++
      extraction.function.writeBack) =
      (placementsIn .block (hoistStmts loop.body.bodyStmts)).map Placement.turned := by
  obtain ⟨_, flattened, _, hflatten, hparams, -, hhoisted, hstages, hfunction, -, -⟩ :=
    h.stages hbody
  have hflat := placementsIn_flattenStmts (bodyClash record loopVars) false
    (fun stmt hmem => (hhoisted stmt hmem).2) names
  rw [hflatten] at hflat
  have hwfFlat := fun stmt hmem => (hstages stmt hmem).2
  obtain ⟨hchosen, hnone⟩ := placements_chooseParams hwfFlat hparams .block
  have hback := (chooseParams_fits (fun name => loop.head.isPlain && record.needsWriteBack name)
    (loopVars.zip outer) hwfFlat flattened).2
  rw [hparams] at hback
  have hwriteBack : placementsIn .block extraction.function.writeBack = [] := by
    rw [placementsIn_eq_flatMap, List.flatMap_eq_nil_iff]
    exact fun stmt hmem => hnone stmt hmem .block
  rw [placementsIn_append, hwriteBack, List.append_nil, ← hflat, ← hchosen, Extraction.stmts,
    redirectIn_eq_map, useAliasesIn_eq_map, List.map_map]
  refine placementsIn_map fun stmt hmem => ?_
  have haliased := Node.Stands.useAliases ⟨extraction.this?, extraction.arguments?⟩
      (hfunction stmt hmem).2
  exact (Node.placements_redirect hback hnone _ haliased.wellFormed .block).trans
    (Node.placements_useAliases _ (hfunction stmt hmem).2 .block)

/-- The body of a loop is hoisted and flattened on its way into the function. -/
theorem Loop.ExtractsTo.movedInto
    (h : loop.ExtractsTo loopVars outer record options names extraction names')
    (hwf : loop.WellFormed) (hcases : ∀ d ∈ loop.body.placements .elsewhere,
      d.setting = .elsewhere → d.kind = .var) :
    loop.body.MovedInto (extraction.stmts loop.labelNames options ++
      extraction.function.writeBack) := by
  have hstmts := Node.isStmt_bodyStmts hwf.body
  have hturned := h.placements hwf.body
  have hleft := leftOf_hoistStmts fun stmt hmem => (hstmts stmt hmem).2
  refine ⟨?_, ?_, ?_, fun hplain => ?_⟩
  · rw [hturned]
    exact List.forall_mem_map.mpr fun d hmem => Placement.isOwnLet_turned fun helsewhere =>
      hcases d (Node.mem_placements_of_bodyStmts (hleft.sublist.subset hmem) helsewhere) helsewhere
  · have hopen : ∀ placed : List Placement, placed.filter Placement.isLetInLoop =
        (placed.filter Placement.isOpenLet).filter Placement.isLetInLoop := by
      intro placed
      rw [List.filter_filter]
      refine List.filter_congr fun d _ => ?_
      obtain ⟨setting, kind, span⟩ := d
      cases setting <;> simp [Placement.isLetInLoop, Placement.isOpenLet]
    rw [hturned, filter_map_turned, hopen, hleft.lets, ← hopen]
    rintro ⟨setting, kind, span⟩ hd rfl
    simp [Placement.isLetInLoop] at hd
  · rw [hturned, filter_map_turned]
    · exact hleft.sublist.filter _
    · rintro ⟨setting, kind, span⟩ hd rfl
      cases hd
  · rw [hturned, filter_map_turned, hleft.all (Node.PlainCode.of_isStmt hwf.body hplain).bodyStmts,
      List.filter_filter]
    · refine List.filter_congr fun d _ => ?_
      obtain ⟨setting, kind, span⟩ := d
      cases setting <;> simp [Placement.inClosure, Placement.isKept]
    · rintro ⟨setting, kind, span⟩ hd rfl
      cases hd

end

/-- What lowering makes of a loop declares by `var`.  Its head does, and so does its body: if that
stays in place, every declaration in it is what it was, but for the `let` and `const` of its
blocks, which are `var`, and otherwise the function it became has no `let` or `const` but those of
block-scoped loops and closures, which it keeps.  The body may not have any outside blocks, such
as in the cases of a `switch`. -/
theorem Loop.lets_become_vars {stmt : Node} {loop : Loop} (hwf : stmt.isWellFormed = true)
    (hloop : Loop.ofNode? stmt = some loop)
    (hcases : ∀ d ∈ loop.body.placements .elsewhere, d.setting = .elsewhere → d.kind = .var)
    {mentioned : String → Bool} {options : Options} {names names' : Registry}
    {replacement : List Node} {report : Report}
    (hlower : (stmt.lowerLoop mentioned options).Gives names (replacement, report) names') :
    ∃ front, ∃ rebuilt : Loop, replacement = front ++ [rebuilt.toNode] ∧ rebuilt.decl.kind = .var ∧
      (∀ d ∈ rebuilt.body.placements .elsewhere, d.isOwnLet = false) ∧
      (report.outcome = .flattened → front = [] ∧
        rebuilt.body.placements .elsewhere =
          (loop.body.placements .elsewhere).map Placement.turned) ∧
      ∀ functionName, report.outcome = .extracted functionName → ∃ aliases params stmts,
        front = aliases ++
          [.varStmt .generated [(functionName, .functionOf params stmts loop.span)]] ∧
          loop.body.MovedInto stmts := by
  have hloopWf := Loop.wellFormed_of_ofNode? hloop hwf
  rw [Node.lowerLoop, hloop] at hlower
  obtain ⟨outer, renamed, between, hrename, houtcome⟩ := Loop.gives_lower hlower
  have hrenamed := Loop.Renamed.renameMentioned mentioned loop.decl.names hloopWf names
  rw [hrename] at hrenamed
  rcases houtcome with ⟨-, hextract⟩ | ⟨-, hflatten⟩
  · obtain ⟨extraction, hextracts, rfl, rfl⟩ := Loop.extractsTo_of_gives hextract
    refine ⟨_, _, rfl, rfl, fun d hmem => ?_, (by simp), fun functionName houtcome => ?_⟩
    · have hkind := JumpSites.isOwnLet_dispatch _ _ _ _ _ _ d hmem
      rw [Placement.isOwnLet, hkind]
      rfl
    · cases houtcome
      refine ⟨_, _, _, by rw [← hrenamed.span]; rfl, ?_⟩
      rw [← hrenamed.body] at hcases ⊢
      exact hextracts.movedInto hrenamed.wellFormed hcases
  · obtain ⟨body, hbody, rfl, rfl⟩ := Loop.run_flattened hflatten
    have hall := (Node.Stands.renameAll (loop.decl.names.zip outer)
        hrenamed.wellFormed.body.2).wellFormed
    have hflat := Node.placements_flatten
      (fun name => bodyClash loop.capture loop.decl.names name || mentioned name) hall between
    rw [hbody, Node.placements_renameAll _ hrenamed.wellFormed.body.2, hrenamed.body] at hflat
    refine ⟨[], _, rfl, rfl, fun d hmem => ?_, fun _ => ⟨rfl, hflat⟩, by simp⟩
    obtain ⟨original, horiginal, rfl⟩ := List.mem_map.mp (hflat ▸ hmem)
    exact Placement.isOwnLet_turned (hcases original horiginal)

/-- The statement `let name = value;`, or `const name = value;`. -/
def declaring (constant : Bool) (name : String) (value : Node) : Node :=
  .varDecl (.lexical constant) false .generated
    [.declarator false .generated (.binding name false .generated .absent) value]

/-- The loop

    for (const x of xs) { let a = x; switch (a) { case x: stmts } rest }
-/
def switchingLoop (stmts rest : List Node) : Loop where
  labels := []
  span := .generated
  decl := ⟨.lexical true, false, .generated,
    [.declarator false .generated (.binding "x" false .generated .absent) .absent]⟩
  head := .values false (.use "xs" .generated)
  body := .block .generated (declaring false "a" (.use "x" .generated) ::
    .mk .switchStmt .generated [.use "a" .generated,
      .list [.mk .switchCase .generated [.use "x" .generated, .mk .caseBody .generated stmts]]]
      :: rest)

/-- The statements

    for (let k of xs) { let d = k; }
    stored = () => { let c = x; return c; };
-/
def nestingStmts : List Node :=
  [.forOfStmt false .generated (declaring false "k" .absent) (.use "xs" .generated)
      (.block .generated [declaring false "d" (.use "k" .generated)]),
    .exprStmt (.assignTo "stored" (.mk (.arrow false false) .generated
      [.list [], .block .generated [declaring false "c" (.use "x" .generated),
        .returnStmt (.use "c" .generated) .generated], .absent]) .generated)]

/-- The block `{ const b = x; }`. -/
def caseStmts : List Node := [.block .generated [declaring true "b" (.use "x" .generated)]]

/-- The names of these loops. -/
def switchingNames : Registry := ⟨["x", "xs", "a", "b", "k", "d", "stored", "c"], []⟩

/-- Where a case of the `switch` has a block of its own, the loop is flattened, or its body
becomes a function, and keeps no `let` or `const` but those of the inner loop and of the arrow. -/
theorem switchingLoop_without_lets :
    (switchingLoop caseStmts nestingStmts).body.placements .elsewhere =
        [⟨.block, .lexical false, .generated⟩, ⟨.block, .lexical true, .generated⟩,
          ⟨.loop, .lexical false, .generated⟩, ⟨.loop, .lexical false, .generated⟩,
          ⟨.closure, .lexical false, .generated⟩] ∧
      (∃ rebuilt : Loop, ∃ report names',
        ((switchingLoop caseStmts []).toNode.lowerLoop (fun _ => false) {}).Gives switchingNames
            ([rebuilt.toNode], report) names' ∧
          rebuilt.decl.kind = .var ∧ rebuilt.body.placements .elsewhere =
            [⟨.block, .var, .generated⟩, ⟨.block, .var, .generated⟩]) ∧
      ∃ replacement report names' params stmts,
        ((switchingLoop caseStmts nestingStmts).toNode.lowerLoop (fun _ => false) {}).Gives
            switchingNames (replacement, report) names' ∧
          .varStmt .generated [("loop", .functionOf params stmts .generated)] ∈ replacement ∧
          (switchingLoop caseStmts nestingStmts).body.MovedInto stmts := by
  refine ⟨by decide +kernel, ?_, ?_⟩
  · obtain ⟨replacement, report, names', hlower, houtcome⟩ : ∃ replacement report names',
        ((switchingLoop caseStmts []).toNode.lowerLoop (fun _ => false) {}).Gives switchingNames
          (replacement, report) names' ∧ report.outcome = .flattened := ⟨_, _, _, rfl, rfl⟩
    obtain ⟨front, rebuilt, rfl, hkind, -, hflattened, -⟩ :=
      Loop.lets_become_vars (by decide +kernel)
      (Loop.ofNode?_toNode _ rfl) (by decide +kernel) hlower
    obtain ⟨rfl, hplaced⟩ := hflattened houtcome
    exact ⟨rebuilt, report, names', hlower, hkind, hplaced.trans (by decide +kernel)⟩
  · obtain ⟨replacement, report, names', hlower, houtcome⟩ : ∃ replacement report names',
        ((switchingLoop caseStmts nestingStmts).toNode.lowerLoop (fun _ => false) {}).Gives
          switchingNames (replacement, report) names' ∧ report.outcome = .extracted "loop" :=
            ⟨_, _, _, rfl, rfl⟩
    obtain ⟨front, rebuilt, rfl, -, -, -, hextracted⟩ := Loop.lets_become_vars (by decide +kernel)
      (Loop.ofNode?_toNode _ rfl) (by decide +kernel) hlower
    obtain ⟨aliases, params, stmts, rfl, hmoved⟩ := hextracted "loop" houtcome
    exact ⟨_, report, names', params, stmts, hlower, by simp [switchingLoop], hmoved⟩

/-- A `let` that stands in a case of a `switch` stays a `let`. -/
theorem switchingLoop_keeps_let : ∃ rebuilt : Loop, ∃ report names',
    (switchingLoop [declaring false "b" (.use "x" .generated)] []).toNode.isWellFormed = true ∧
      ((switchingLoop [declaring false "b" (.use "x" .generated)] []).toNode.lowerLoop
          (fun _ => false) {}).Gives switchingNames ([rebuilt.toNode], report) names' ∧
      report.outcome = .flattened ∧
      rebuilt.body.placements .elsewhere =
        [⟨.block, .var, .generated⟩, ⟨.elsewhere, .lexical false, .generated⟩] :=
  ⟨_, _, _, by decide +kernel, rfl, rfl, by decide +kernel⟩

end LoopLowering
