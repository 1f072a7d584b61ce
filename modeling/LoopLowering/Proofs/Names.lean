/-
Names that are drawn are new.

The search for an unused suffix looks at as many numbers as there are names in use.  Since
different numbers make different names, they cannot all be in use, and the search ends at a
name that is not.

Nothing ever gives a name back, so a name that was new when it was drawn differs from all
names that were in use before and from all that are drawn later.  `Registry.Draws` lists the
names drawn between two states of a registry, and everything that works on a registry goes
from one state to another by drawing names.
-/
import LoopLowering.Proofs.Landmarks
import LoopLowering.Proofs.Results
import Mathlib.Data.List.Nodup
import Mathlib.Data.List.Perm.Subperm

namespace LoopLowering

/-! ### The search for a suffix -/

namespace Registry

theorem suffixed_injective (base : String) : Function.Injective (suffixed base) := by
  intro m n h
  have hrepr : Nat.repr m = Nat.repr n := (String.append_right_inj (base ++ "$")).mp h
  have hdigits := congrArg String.toList hrepr
  rw [Nat.toList_repr, Nat.toList_repr] at hdigits
  have hnumber := congrArg (Nat.ofDigitChars 10 · 0) hdigits
  simpa using hnumber

/-- The search stops early at a name that is not in use. -/
theorem suffixed_firstFree_of_lt (taken : List String) (base : String) (fuel n : Nat)
    (h : firstFree taken base fuel n < n + fuel) :
    suffixed base (firstFree taken base fuel n) ∉ taken := by
  induction fuel generalizing n with
  | zero => exact absurd (le_firstFree taken base 0 n) (Nat.not_le.mpr h)
  | succ fuel ih =>
      unfold firstFree at h ⊢
      split
      · next hmem =>
        rw [if_pos hmem] at h
        exact ih (n + 1) (by omega)
      · next hmem => exact hmem

/-- The name the search ends at is not in use. -/
theorem freshSuffixed_notMem (names : Registry) (base : String) :
    (names.freshSuffixed base).1 ∉ names.taken := by
  change suffixed base (firstFree names.taken base names.taken.length 1) ∉ names.taken
  intro hmem
  have hend : 1 + names.taken.length ≤ firstFree names.taken base names.taken.length 1 := by
    by_contra hlt
    exact suffixed_firstFree_of_lt _ _ _ _ (Nat.not_le.mp hlt) hmem
  -- all candidates up to the one it ends at are in use, one more than there are names
  have hsubset : (List.range' 1 (names.taken.length + 1)).map (suffixed base) ⊆ names.taken := by
    intro name hname
    obtain ⟨n, hn, rfl⟩ := List.mem_map.mp hname
    rw [List.mem_range'_1] at hn
    rcases Nat.lt_or_eq_of_le
        (show n ≤ firstFree names.taken base names.taken.length 1 by omega) with
      hlt | rfl
    · exact suffixed_mem_of_lt_firstFree _ _ _ 1 n hn.1 hlt
    · exact hmem
  have hnodup : ((List.range' 1 (names.taken.length + 1)).map (suffixed base)).Nodup :=
    List.Nodup.map (suffixed_injective base) (List.nodup_range' 1)
  have hlength := (hnodup.subperm hsubset).length_le
  rw [List.length_map, List.length_range'] at hlength
  omega

theorem fresh_notMem (names : Registry) (base : String) : (names.fresh base).1 ∉ names.taken := by
  unfold fresh
  split
  · exact freshSuffixed_notMem names base
  · next hfree => simpa [isTaken] using hfree

theorem rename_notMem (names : Registry) (name : String) :
    (names.rename name).1 ∉ names.taken :=
  freshSuffixed_notMem names name

end Registry

/-! ### Drawing names -/

/-- The second registry is what the first becomes when these names are drawn, one after the
other. -/
inductive Registry.Draws : Registry → List String → Registry → Prop
  | done {names : Registry} : Draws names [] names
  | fresh {names names' : Registry} {drawn : List String} (base : String)
      (h : Draws (names.fresh base).2 drawn names') :
      Draws names ((names.fresh base).1 :: drawn) names'
  | freshSuffixed {names names' : Registry} {drawn : List String} (base : String)
      (h : Draws (names.freshSuffixed base).2 drawn names') :
      Draws names ((names.freshSuffixed base).1 :: drawn) names'
  | rename {names names' : Registry} {drawn : List String} (name : String)
      (h : Draws (names.rename name).2 drawn names') :
      Draws names ((names.rename name).1 :: drawn) names'

namespace Registry.Draws

variable {names between names' : Registry} {drawn more : List String}

theorem trans (h : names.Draws drawn between) (hmore : between.Draws more names') :
    names.Draws (drawn ++ more) names' := by
  induction h with
  | done => exact hmore
  | fresh base _ ih => exact .fresh base (ih hmore)
  | freshSuffixed base _ ih => exact .freshSuffixed base (ih hmore)
  | rename name _ ih => exact .rename name (ih hmore)

/-- The names in use are those that were and those drawn. -/
theorem taken_eq (h : names.Draws drawn names') : names'.taken = drawn.reverse ++ names.taken := by
  induction h with
  | done => rfl
  | fresh base _ ih => rw [ih, Registry.taken_fresh]; simp
  | freshSuffixed base _ ih => rw [ih, Registry.taken_freshSuffixed]; simp
  | rename name _ ih => rw [ih, Registry.taken_rename]; simp

/-- Drawing a name that is new, and then others, is drawing new names, each of them once. -/
theorem new_cons {name : String} {drawn : List String} {taken : List String}
    (hname : name ∉ taken) (h : drawn.Nodup ∧ ∀ other ∈ drawn, other ∉ name :: taken) :
    (name :: drawn).Nodup ∧ ∀ other ∈ name :: drawn, other ∉ taken := by
  refine ⟨List.nodup_cons.mpr ⟨fun hmem => h.2 name hmem List.mem_cons_self, h.1⟩, ?_⟩
  refine List.forall_mem_cons.mpr ⟨hname, fun other hother hmem => ?_⟩
  exact h.2 other hother (List.mem_cons_of_mem name hmem)

/-- No name is drawn twice, and none that was in use before. -/
theorem new (h : names.Draws drawn names') :
    drawn.Nodup ∧ ∀ name ∈ drawn, name ∉ names.taken := by
  induction h with
  | done => simp
  | @fresh names _ _ base _ ih =>
      rw [Registry.taken_fresh] at ih
      exact new_cons (names.fresh_notMem base) ih
  | @freshSuffixed names _ _ base _ ih =>
      rw [Registry.taken_freshSuffixed] at ih
      exact new_cons (names.freshSuffixed_notMem base) ih
  | @rename names _ _ name _ ih =>
      rw [Registry.taken_rename] at ih
      exact new_cons (names.rename_notMem name) ih

/-- No name is given back. -/
theorem subset (h : names.Draws drawn names') : names.taken ⊆ names'.taken := by
  rw [h.taken_eq]
  exact List.subset_append_right _ _

end Registry.Draws

/-- The computation does nothing to the registry but to draw names. -/
def Naming.Draws {α : Type} (x : Naming α) : Prop :=
  ∀ names : Registry, ∃ drawn, names.Draws drawn (x.run names).2

namespace Naming

variable {α β : Type}

theorem draws_pure (a : α) : (pure a : Naming α).Draws := fun _ => ⟨[], .done⟩

theorem Draws.bind {x : Naming α} {f : α → Naming β} (hx : x.Draws) (hf : ∀ a, (f a).Draws) :
    (x >>= f).Draws := fun names => by
  obtain ⟨drawn, hdrawn⟩ := hx names
  obtain ⟨more, hmore⟩ := hf (x.run names).1 (x.run names).2
  exact ⟨drawn ++ more, hdrawn.trans hmore⟩

theorem Draws.map {x : Naming α} (hx : x.Draws) (f : α → β) : (f <$> x).Draws := hx

theorem draws_fresh (base : String) : (Naming.fresh base).Draws := fun _ => ⟨_, .fresh base .done⟩

theorem draws_freshSuffixed (base : String) : (Naming.freshSuffixed base).Draws :=
  fun _ => ⟨_, .freshSuffixed base .done⟩

theorem draws_rename (name : String) : (Naming.rename name).Draws :=
  fun _ => ⟨_, .rename name .done⟩

theorem Draws.subset {x : Naming α} (hx : x.Draws) (names : Registry) :
    names.taken ⊆ (x.run names).2.taken := by
  obtain ⟨_, hdrawn⟩ := hx names
  exact hdrawn.subset

theorem Draws.subset_of_run {x : Naming α} (hx : x.Draws) {names names' : Registry} {a : α}
    (h : x.run names = (a, names')) : names.taken ⊆ names'.taken := by
  have hsub := hx.subset names
  rwa [h] at hsub

end Naming

/-- A name that is drawn is in use from then on. -/
theorem Naming.mem_of_run_fresh {base name : String} {names names' : Registry}
    (h : (Naming.fresh base).run names = (name, names')) : name ∈ names'.taken := by
  have hrun : ((names.fresh base).1, (names.fresh base).2) = (name, names') := h
  rw [Prod.mk.injEq] at hrun
  obtain ⟨rfl, rfl⟩ := hrun
  exact Registry.taken_fresh names base ▸ List.mem_cons_self

/-- A list with every name once has the names of the list it was made from. -/
theorem mem_foldl_addName {names acc : List String} {name : String} :
    name ∈ names.foldl addName acc ↔ name ∈ acc ∨ name ∈ names := by
  induction names generalizing acc with
  | nil => simp
  | cons first names ih => rw [List.foldl_cons, ih, mem_addName, List.mem_cons, or_assoc]

theorem draws_renameClashing (clashes : String → Bool) (vars : List String) (stmts : List Node) :
    (renameClashing clashes vars stmts).Draws := by
  induction vars generalizing stmts with
  | nil => exact Naming.draws_pure stmts
  | cons name vars ih =>
      unfold renameClashing
      split
      · exact (Naming.draws_rename name).bind fun renamed => ih _
      · exact ih stmts

section Blocks

variable {change : Bool → List Node → Naming (List Node)}

theorem draws_changeBlocksIn {nodes : List Node} {again : Bool}
    (hnodes : ∀ node ∈ nodes, (node.changeBlocks change again).Draws) :
    (changeBlocksIn change again nodes).Draws := by
  induction nodes with
  | nil => exact Naming.draws_pure []
  | cons node nodes ih =>
      rw [List.forall_mem_cons] at hnodes
      unfold changeBlocksIn
      exact hnodes.1.bind fun _ => (ih hnodes.2).bind fun _ => Naming.draws_pure _

theorem Node.draws_changeBlocks (hchange : ∀ again stmts, (change again stmts).Draws) (node : Node)
    (again : Bool) :
    (node.changeBlocks change again).Draws := by
  induction node using Node.inductionOn generalizing again with
  | step form span parts ih =>
      unfold Node.changeBlocks
      split
      · exact Naming.draws_pure _
      · split
        · exact (hchange again parts).bind fun _ => Naming.draws_pure _
        · exact (draws_changeBlocksIn fun part hmem => ih part hmem _).bind
            fun _ => Naming.draws_pure _

end Blocks

theorem draws_flattenTo (clashes : String → Bool) (depth : Nat) (again : Bool) (stmts : List Node) :
    (flattenTo clashes depth again stmts).Draws := by
  induction depth generalizing again stmts with
  | zero => exact Naming.draws_pure stmts
  | succ depth ih =>
      unfold flattenTo
      exact (draws_renameClashing clashes _ stmts).bind fun _ =>
        draws_changeBlocksIn fun node _ => node.draws_changeBlocks ih again

/-- Flattening draws names for the bindings that clash. -/
theorem draws_flattenStmts (clashes : String → Bool) (again : Bool) (stmts : List Node) :
    (flattenStmts clashes again stmts).Draws :=
  draws_flattenTo clashes _ again stmts

/-- Flattening gives no name back. -/
theorem grows_flattenStmts (clashes : String → Bool) (again : Bool) (stmts : List Node)
    (names : Registry) : names.taken ⊆ ((flattenStmts clashes again stmts).run names).2.taken :=
  (draws_flattenStmts clashes again stmts).subset names

theorem Node.draws_flatten (clashes : String → Bool) (body : Node) : (body.flatten clashes).Draws :=
  body.draws_changeBlocks (draws_flattenTo clashes _) true

theorem draws_chooseParams (writtenBack : String → Bool) (vars : List (String × String))
    (stmts : List Node) : (chooseParams writtenBack vars stmts).Draws := by
  induction vars generalizing stmts with
  | nil => exact Naming.draws_pure _
  | cons var vars ih =>
      unfold chooseParams
      split
      · exact (Naming.draws_fresh var.1).bind fun _ => (ih _).bind fun _ => Naming.draws_pure _
      · exact (ih stmts).bind fun _ => Naming.draws_pure _

theorem draws_aliasFor (needed : Bool) (base : String) : (aliasFor needed base).Draws := by
  unfold aliasFor
  split
  · exact (Naming.draws_freshSuffixed base).map some
  · exact Naming.draws_pure none

theorem Loop.draws_renameMentioned (mentioned : String → Bool) (vars : List String) (loop : Loop) :
    (loop.renameMentioned mentioned vars).Draws := by
  induction vars generalizing loop with
  | nil => exact Naming.draws_pure _
  | cons name vars ih =>
      unfold Loop.renameMentioned
      split
      · exact (Naming.draws_rename name).bind fun _ => (ih _).bind fun _ => Naming.draws_pure _
      · exact (ih loop).bind fun _ => Naming.draws_pure _

/-! ### Lowering draws names -/

/-- Whether it refuses or not, the computation does nothing to the registry but to draw
names. -/
def Lowering.Draws {α : Type} (x : Lowering α) : Prop :=
  ∀ names : Registry, ∃ drawn, names.Draws drawn (x.run.run names).2

namespace Lowering

variable {α β : Type}

theorem draws_pure (a : α) : (pure a : Lowering α).Draws := fun _ => ⟨[], .done⟩

theorem draws_throw (refusal : Refusal) : (throw refusal : Lowering α).Draws := fun _ => ⟨[], .done⟩

theorem draws_liftM {x : Naming α} (hx : x.Draws) : (liftM x : Lowering α).Draws := hx

theorem draws_ofExcept (result : Except Refusal α) :
    Lowering.Draws (ExceptT.mk (pure result)) := fun _ => ⟨[], .done⟩

theorem Draws.bind {x : Lowering α} {f : α → Lowering β} (hx : x.Draws) (hf : ∀ a, (f a).Draws) :
    (x >>= f).Draws := fun names => by
  obtain ⟨drawn, hdrawn⟩ := hx names
  rw [run_bind]
  split
  · next a between heq =>
    rw [heq] at hdrawn
    obtain ⟨more, hmore⟩ := hf a between
    exact ⟨drawn ++ more, hdrawn.trans hmore⟩
  · next refusal between heq =>
    rw [heq] at hdrawn
    exact ⟨drawn, hdrawn⟩

theorem Draws.of_gives {x : Lowering α} (hx : x.Draws) {names names' : Registry} {a : α}
    (h : x.Gives names a names') : ∃ drawn, names.Draws drawn names' := by
  have hdrawn := hx names
  rwa [h] at hdrawn

theorem Draws.of_fails {x : Lowering α} (hx : x.Draws) {names names' : Registry}
    {refusal : Refusal} (h : x.Fails names refusal names') : ∃ drawn, names.Draws drawn names' := by
  have hdrawn := hx names
  rwa [h] at hdrawn

end Lowering

theorem Loop.draws_extracted (loop : Loop) (loopVars outer : List String) (record : Capture.Record)
    (options : Options) : (loop.extracted loopVars outer record options).Draws := by
  unfold Loop.extracted
  cases extractionRefusal? record loop.span with
  | some refusal => exact fun _ => ⟨[], .done⟩
  | none =>
      simp only
      refine (Lowering.draws_liftM (draws_flattenStmts _ _ _)).bind fun _ => ?_
      refine (Lowering.draws_liftM (draws_chooseParams _ _ _)).bind fun _ => ?_
      refine (Lowering.draws_liftM (draws_aliasFor _ _)).bind fun _ => ?_
      refine (Lowering.draws_liftM (draws_aliasFor _ _)).bind fun _ => ?_
      refine (Lowering.draws_ofExcept _).bind fun sites => ?_
      refine (Lowering.draws_liftM (Naming.draws_fresh _)).bind fun _ => ?_
      cases sites.needDispatch with
      | true => exact (Lowering.draws_liftM (Naming.draws_fresh _)).bind fun _ =>
        Lowering.draws_pure _
      | false => exact (Lowering.draws_pure _).bind fun _ => Lowering.draws_pure _

/-- Whatever becomes of a loop, names are drawn and nothing else is done to the registry. -/
theorem Loop.draws_lower (loop : Loop) (mentioned : String → Bool) (options : Options) :
    (loop.lower mentioned options).Draws := by
  unfold Loop.lower
  split
  · exact Lowering.draws_throw _
  · simp only
    split
    · exact Lowering.draws_throw _
    · refine (Lowering.draws_liftM (loop.draws_renameMentioned mentioned _)).bind fun _ => ?_
      split
      · exact Loop.draws_extracted _ _ _ _ _
      · exact Lowering.draws_liftM ((Node.draws_flatten _ _).bind fun _ => Naming.draws_pure _)

theorem Node.draws_lowerLoop (stmt : Node) (mentioned : String → Bool) (options : Options) :
    (stmt.lowerLoop mentioned options).Draws := by
  unfold Node.lowerLoop
  split
  · exact Loop.draws_lower _ mentioned options
  · exact Lowering.draws_throw _

/-- Different names, all of them in use, stay different when one of them is renamed. -/
theorem Registry.replace_rename {names : Registry} {name : String} {done rest : List String}
    (hnodup : (done ++ name :: rest).Nodup) (hknown : done ++ name :: rest ⊆ names.taken) :
    let new := (names.rename name).1
    (done ++ name :: rest).map (fun other => if other = name then new else other) =
    done ++ new :: rest ∧
      (done ++ new :: rest).Nodup ∧ done ++ new :: rest ⊆ (names.rename name).2.taken := by
  obtain ⟨hname, hrest⟩ := List.nodup_cons.mp (List.nodup_middle.mp hnodup)
  have hnew : (names.rename name).1 ∉ names.taken := Registry.rename_notMem names name
  have hothers : done ++ rest ⊆ names.taken := fun other hmem => hknown <|
    List.mem_append.mpr ((List.mem_append.mp hmem).imp_right (List.mem_cons_of_mem name))
  have hkept : ∀ others ⊆ done ++ rest,
      others.map (fun other => if other = name then (names.rename name).1 else other) = others :=
    fun others hsub => (List.map_congr_left fun other hmem =>
      if_neg fun heq : other = name => hname (heq ▸ hsub hmem)).trans (List.map_id' _)
  refine ⟨?_, List.nodup_middle.mpr (List.nodup_cons.mpr ⟨fun hmem => hnew (hothers hmem), hrest⟩),
    ?_⟩
  · rw [List.map_append, List.map_cons, if_pos rfl, hkept done (List.subset_append_left _ _),
      hkept rest (List.subset_append_right _ _)]
  · rw [Registry.taken_rename]
    intro other hmem
    rcases List.mem_cons.mp (List.perm_middle.mem_iff.mp hmem) with rfl | hmem
    · exact List.mem_cons_self
    · exact List.mem_cons_of_mem _ (hothers hmem)

/-! ### The names of loop variables -/

theorem Loop.length_outer (loop : Loop) (mentioned : String → Bool) (vars : List String)
    (names : Registry) : ((loop.renameMentioned mentioned vars).run names).1.1.length =
      vars.length := by
  induction vars generalizing loop names with
  | nil => rfl
  | cons name vars ih =>
      unfold Loop.renameMentioned
      split
      · exact congrArg Nat.succ (ih _ _)
      · exact congrArg Nat.succ (ih _ _)

/-- The variables of a loop have different names in its head, all of them in use. -/
theorem Loop.outer_renameMentioned (loop : Loop) (mentioned : String → Bool) {vars : List String}
    (names : Registry) (hnodup : vars.Nodup) (hknown : ∀ name ∈ vars, name ∈ names.taken) :
    let result := (loop.renameMentioned mentioned vars).run names
    result.1.1.Nodup ∧ (∀ name ∈ result.1.1, name ∈ vars ∨ name ∉ names.taken) ∧
      result.1.1 ⊆ result.2.taken ∧ names.taken ⊆ result.2.taken := by
  induction vars generalizing loop names with
  | nil =>
      exact ⟨List.nodup_nil, fun name hmem => absurd hmem List.not_mem_nil, List.nil_subset _,
        List.Subset.refl _⟩
  | cons name vars ih =>
      obtain ⟨hname, hvars⟩ := List.nodup_cons.mp hnodup
      obtain ⟨hfirst, hrest⟩ := List.forall_mem_cons.mp hknown
      unfold Loop.renameMentioned
      split
      · have htaken := Registry.taken_rename names name
        have hnew := Registry.rename_notMem names name
        have hmono : names.taken ⊆ (names.rename name).2.taken :=
          htaken ▸ List.subset_cons_self _ _
        obtain ⟨hothers, horigin, hused, hgrows⟩ := ih
          (loop.renameHead name (names.rename name).1) (names.rename name).2 hvars
          fun other hother => hmono (hrest other hother)
        refine ⟨List.nodup_cons.mpr ⟨fun hmem => ?_, hothers⟩, List.forall_mem_cons.mpr
          ⟨Or.inr hnew, fun other hother => ?_⟩, List.cons_subset.mpr ⟨hgrows ?_, hused⟩,
          List.Subset.trans hmono hgrows⟩
        · rcases horigin _ hmem with hvar | hfresh
          · exact hnew (hrest _ hvar)
          · exact hfresh (htaken ▸ List.mem_cons_self)
        · exact (horigin other hother).imp (List.mem_cons_of_mem name) fun h hmem => h (hmono hmem)
        · exact htaken ▸ List.mem_cons_self
      · obtain ⟨hothers, horigin, hused, hgrows⟩ := ih loop names hvars hrest
        refine ⟨List.nodup_cons.mpr ⟨fun hmem => ?_, hothers⟩, List.forall_mem_cons.mpr
          ⟨Or.inl List.mem_cons_self, fun other hother => ?_⟩,
          List.cons_subset.mpr ⟨hgrows hfirst, hused⟩, hgrows⟩
        · rcases horigin _ hmem with hvar | hfresh
          · exact hname hvar
          · exact hfresh hfirst
        · exact (horigin other hother).imp_left (List.mem_cons_of_mem name)

end LoopLowering
