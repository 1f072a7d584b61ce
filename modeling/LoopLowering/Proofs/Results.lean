/-
When a computation gives a result.

Lowering draws names and may refuse.  `Lowering.Gives` relates a computation, and the names
it starts from, to the result it gives and the names it leaves; there is one equivalence
for each way to put computations together, so that a result can be followed back to the
results it was made from.  `ProgramLowering.Gives` does the same where reports are kept as
well.  `Lowering.Fails` and `ProgramLowering.Fails` say that a computation refuses instead.
-/
import LoopLowering.Program

namespace LoopLowering

/-! ### The supply of names -/

@[simp] theorem Naming.run_pure {α : Type} (a : α) (names : Registry) :
    (pure a : Naming α).run names = (a, names) := rfl

@[simp] theorem Naming.run_bind {α β : Type} (x : Naming α) (f : α → Naming β) (names : Registry) :
    (x >>= f).run names = (f (x.run names).1).run (x.run names).2 := rfl

/-! ### Lowering a loop -/

/-- The computation gives `a`, and the registry is `names'` then. -/
def Lowering.Gives {α : Type} (x : Lowering α) (names : Registry) (a : α) (names' : Registry) :
    Prop :=
  x.run.run names = (.ok a, names')

namespace Lowering

variable {α β : Type} {names names' : Registry}

@[simp] theorem gives_pure {a b : α} :
    (pure a : Lowering α).Gives names b names' ↔ a = b ∧ names = names' := by
  change (Except.ok a, names) = (Except.ok b, names') ↔ _
  simp

@[simp] theorem gives_throw {refusal : Refusal} {a : α} :
    ¬ (throw refusal : Lowering α).Gives names a names' := by
  change ¬ (Except.error refusal, names) = (Except.ok a, names')
  simp

theorem run_bind (x : Lowering α) (f : α → Lowering β) (names : Registry) :
    (x >>= f).run.run names = match x.run.run names with
      | (.ok a, between) => (f a).run.run between
      | (.error refusal, between) => (.error refusal, between) := by
  change (ExceptT.bindCont f (x.run.run names).1).run (x.run.run names).2 = _
  rcases x.run.run names with ⟨refusal | a, between⟩
  · rfl
  · rfl

@[simp] theorem gives_bind {x : Lowering α} {f : α → Lowering β} {b : β} :
    (x >>= f).Gives names b names' ↔
      ∃ a between, x.Gives names a between ∧ (f a).Gives between b names' := by
  unfold Gives
  rw [run_bind]
  constructor
  · intro h
    split at h
    · next a between heq => exact ⟨a, between, heq, h⟩
    · cases h
  · rintro ⟨a, between, hx, hf⟩
    rw [hx]
    exact hf

/-- What follows a computation matters for the results that it gives only. -/
theorem bind_congr {x : Lowering α} {f g : α → Lowering β}
    (h : ∀ {names a names'}, x.Gives names a names' → f a = g a) : x >>= f = x >>= g := by
  have hrun : ∀ names, (x >>= f).run.run names = (x >>= g).run.run names := by
    intro names
    rw [run_bind, run_bind]
    rcases hx : x.run.run names with ⟨refusal | a, between⟩
    · rfl
    · show (f a).run.run between = (g a).run.run between
      rw [h hx]
  exact funext hrun

/-- Drawing names never fails. -/
@[simp] theorem gives_liftM {x : Naming α} {a : α} :
    (liftM x : Lowering α).Gives names a names' ↔ x.run names = (a, names') := by
  change (Except.ok (x.run names).1, (x.run names).2) = (Except.ok a, names') ↔ _
  rw [Prod.ext_iff, Prod.ext_iff, Except.ok.injEq]

@[simp] theorem gives_ofExcept {result : Except Refusal α} {a : α} :
    Lowering.Gives (ExceptT.mk (pure result)) names a names' ↔
      result = .ok a ∧ names = names' := by
  change (result, names) = (Except.ok a, names') ↔ _
  rw [Prod.mk.injEq]

end Lowering

/-- The computation refuses, and the registry is `names'` then. -/
def Lowering.Fails {α : Type} (x : Lowering α) (names : Registry) (refusal : Refusal)
    (names' : Registry) : Prop :=
  x.run.run names = (.error refusal, names')

namespace Lowering

variable {α β : Type} {names names' : Registry} {refusal : Refusal}

@[simp] theorem fails_pure {a : α} : ¬ (pure a : Lowering α).Fails names refusal names' := by
  change ¬ (Except.ok a, names) = (Except.error refusal, names')
  simp

@[simp] theorem fails_throw {thrown : Refusal} :
    (throw thrown : Lowering α).Fails names refusal names' ↔ thrown = refusal ∧ names = names' := by
  change (Except.error thrown, names) = (Except.error refusal, names') ↔ _
  simp

@[simp] theorem fails_bind {x : Lowering α} {f : α → Lowering β} :
    (x >>= f).Fails names refusal names' ↔
      x.Fails names refusal names' ∨
        ∃ a between, x.Gives names a between ∧ (f a).Fails between refusal names' := by
  unfold Fails Gives
  rw [run_bind]
  constructor
  · intro h
    split at h
    · next a between heq => exact Or.inr ⟨a, between, heq, h⟩
    · next thrown between heq =>
      cases h
      exact Or.inl heq
  · rintro (hx | ⟨a, between, hx, hf⟩)
    · rw [hx]
    · rw [hx]
      exact hf

@[simp] theorem fails_liftM {x : Naming α} :
    ¬ (liftM x : Lowering α).Fails names refusal names' := by
  change ¬ (Except.ok (x.run names).1, (x.run names).2) = (Except.error refusal, names')
  simp

@[simp] theorem fails_ofExcept {result : Except Refusal α} :
    Lowering.Fails (ExceptT.mk (pure result)) names refusal names' ↔
      result = .error refusal ∧ names = names' := by
  change (result, names) = (Except.error refusal, names') ↔ _
  rw [Prod.mk.injEq]

end Lowering

/-! ### Lowering a program -/

/-- The computation gives `a`, the registry is `names'` then, and the reports are
`reports'`. -/
def ProgramLowering.Gives {α : Type} (x : ProgramLowering α) (reports : List Report)
    (names : Registry) (a : α) (reports' : List Report) (names' : Registry) : Prop :=
  (x.run reports).Gives names (a, reports') names'

namespace ProgramLowering

variable {α β : Type} {names names' : Registry} {reports reports' : List Report}

@[simp] theorem gives_pure {a b : α} :
    (pure a : ProgramLowering α).Gives reports names b reports' names' ↔
      a = b ∧ reports = reports' ∧ names = names' := by
  unfold Gives
  rw [StateT.run_pure, Lowering.gives_pure, Prod.mk.injEq, and_assoc]

@[simp] theorem gives_bind {x : ProgramLowering α} {f : α → ProgramLowering β} {b : β} :
    (x >>= f).Gives reports names b reports' names' ↔
      ∃ a kept between, x.Gives reports names a kept between ∧
        (f a).Gives kept between b reports' names' := by
  unfold Gives
  rw [StateT.run_bind, Lowering.gives_bind]
  constructor
  · rintro ⟨⟨a, kept⟩, between, hx, hf⟩
    exact ⟨a, kept, between, hx, hf⟩
  · rintro ⟨a, kept, between, hx, hf⟩
    exact ⟨⟨a, kept⟩, between, hx, hf⟩

/-- What follows a computation matters for the results that it gives only. -/
theorem bind_congr {x : ProgramLowering α} {f g : α → ProgramLowering β}
    (h : ∀ {reports names a reports' names'}, x.Gives reports names a reports' names' → f a = g a) :
    x >>= f = x >>= g := by
  have hrun : ∀ reports, (x >>= f).run reports = (x >>= g).run reports := by
    intro reports
    rw [StateT.run_bind, StateT.run_bind]
    exact Lowering.bind_congr fun {_ result _} hx => by rw [h (a := result.1) hx]
  exact funext hrun

@[simp] theorem gives_liftM {x : Lowering α} {a : α} :
    (liftM x : ProgramLowering α).Gives reports names a reports' names' ↔
      x.Gives names a names' ∧ reports = reports' := by
  unfold Gives
  have hrun : (liftM x : ProgramLowering α).run reports = x >>= fun a => pure (a, reports) := rfl
  rw [hrun, Lowering.gives_bind]
  constructor
  · rintro ⟨b, between, hx, hpure⟩
    rw [Lowering.gives_pure, Prod.mk.injEq] at hpure
    obtain ⟨⟨rfl, rfl⟩, rfl⟩ := hpure
    exact ⟨hx, rfl⟩
  · rintro ⟨hx, rfl⟩
    exact ⟨a, names', hx, Lowering.gives_pure.mpr ⟨rfl, rfl⟩⟩

@[simp] theorem gives_modify {f : List Report → List Report} {a : PUnit} :
    (modify f : ProgramLowering PUnit).Gives reports names a reports' names' ↔
      f reports = reports' ∧ names = names' := by
  unfold Gives
  have hrun : (modify f : ProgramLowering PUnit).run reports =
      (pure (⟨⟩, f reports) : Lowering _) := rfl
  rw [hrun, Lowering.gives_pure, Prod.mk.injEq]
  simp

end ProgramLowering

/-- The computation refuses, and the registry is `names'` then. -/
def ProgramLowering.Fails {α : Type} (x : ProgramLowering α) (reports : List Report)
    (names : Registry) (refusal : Refusal) (names' : Registry) : Prop :=
  (x.run reports).Fails names refusal names'

namespace ProgramLowering

variable {α β : Type} {names names' : Registry} {reports : List Report} {refusal : Refusal}

@[simp] theorem fails_pure {a : α} :
    ¬ (pure a : ProgramLowering α).Fails reports names refusal names' := by
  unfold Fails
  rw [StateT.run_pure]
  exact Lowering.fails_pure

@[simp] theorem fails_bind {x : ProgramLowering α} {f : α → ProgramLowering β} :
    (x >>= f).Fails reports names refusal names' ↔
      x.Fails reports names refusal names' ∨
        ∃ a kept between, x.Gives reports names a kept between ∧
          (f a).Fails kept between refusal names' := by
  unfold Fails Gives
  rw [StateT.run_bind, Lowering.fails_bind, Prod.exists]

@[simp] theorem fails_liftM {x : Lowering α} :
    (liftM x : ProgramLowering α).Fails reports names refusal names' ↔
      x.Fails names refusal names' := by
  unfold Fails
  have hrun : (liftM x : ProgramLowering α).run reports = x >>= fun a => pure (a, reports) := rfl
  rw [hrun, Lowering.fails_bind]
  simp

@[simp] theorem fails_modify {f : List Report → List Report} :
    ¬ (modify f : ProgramLowering PUnit).Fails reports names refusal names' := by
  unfold Fails
  have hrun : (modify f : ProgramLowering PUnit).run reports =
      (pure (⟨⟩, f reports) : Lowering _) := rfl
  rw [hrun]
  exact Lowering.fails_pure

end ProgramLowering

end LoopLowering
