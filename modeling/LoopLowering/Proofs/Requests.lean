/-
What a registry answers, whatever it is asked.

A registry can be told to reserve a name and asked for names in three ways.  Each request adds
one name to those in use, and `Request.Answered` says which.  Two requests can come to want the
same text by different ways, `a` with a second suffix and `a$1` with a first one, so that no
request alone can tell that its answer is new to all the others.  What tells is the set of
names in use: it only grows, and every answer is outside it when it is given.

A request changes a registry by one step, and the facts about a whole sequence of requests
follow from those about the step by induction on the sequence.
-/
import LoopLowering.Proofs.Names
import Mathlib.Order.Bounds.Basic

namespace LoopLowering

namespace Registry

/-! ### The least free suffix -/

/-- The name is `base` with the least suffix that is not in use. -/
def IsFirstSuffixed (taken : List String) (base name : String) : Prop :=
  ∃ n, name = suffixed base n ∧ IsLeast {n | 1 ≤ n ∧ suffixed base n ∉ taken} n

theorem isFirstSuffixed_freshSuffixed (names : Registry) (base : String) :
    IsFirstSuffixed names.taken base (names.freshSuffixed base).1 := by
  refine ⟨firstFree names.taken base names.taken.length 1, rfl,
    ⟨le_firstFree .., freshSuffixed_notMem names base⟩, fun n hn => ?_⟩
  by_contra hlt
  exact hn.2 (suffixed_mem_of_lt_firstFree _ _ _ 1 n hn.1 (Nat.not_le.mp hlt))

theorem fresh_of_mem {names : Registry} {base : String} (h : base ∈ names.taken) :
    names.fresh base = names.freshSuffixed base := by
  unfold fresh isTaken
  rw [decide_eq_true h, if_pos rfl]

theorem fresh_of_notMem {names : Registry} {base : String} (h : base ∉ names.taken) :
    names.fresh base = (base, names.reserve base) := by
  unfold fresh isTaken
  rw [decide_eq_false h, if_neg Bool.false_ne_true]

/-! ### One request -/

/-- What a registry can be asked. -/
inductive Request where
  | reserve (name : String)
  | fresh (base : String)
  | freshSuffixed (base : String)
  | rename (name : String)
deriving DecidableEq, Repr

namespace Request

/-- Whether the request is for a new name. -/
def draws : Request → Bool
  | reserve _ => false
  | _ => true

/-- Whether the request is for a new name of the binding `name`. -/
def renames (name : String) : Request → Bool
  | rename other => other == name
  | _ => false

/-- What the request adds to the names in use, given what these are. -/
def Answered (taken : List String) : Request → String → Prop
  | reserve given, name => name = given
  | fresh base, name =>
    (name = base ↔ base ∉ taken) ∧ (base ∈ taken → IsFirstSuffixed taken base name)
  | freshSuffixed base, name => IsFirstSuffixed taken base name
  | rename base, name => IsFirstSuffixed taken base name

end Request

/-- The name a request adds to those in use, and the registry after it. -/
def answer (names : Registry) : Request → String × Registry
  | .reserve name => (name, names.reserve name)
  | .fresh base => names.fresh base
  | .freshSuffixed base => names.freshSuffixed base
  | .rename name => names.rename name

section

variable (names : Registry) (request : Request)

theorem taken_answer :
    (names.answer request).2.taken = (names.answer request).1 :: names.taken := by
  cases request with
  | reserve name => rfl
  | fresh base => exact taken_fresh names base
  | freshSuffixed base => rfl
  | rename name => rfl

theorem answered_answer : request.Answered names.taken (names.answer request).1 := by
  cases request with
  | reserve name => rfl
  | fresh base =>
      by_cases hmem : base ∈ names.taken
      · have hfirst := isFirstSuffixed_freshSuffixed names base
        have hnew := freshSuffixed_notMem names base
        rw [← fresh_of_mem hmem] at hfirst hnew
        refine ⟨iff_of_false (fun heq => ?_) (not_not_intro hmem), fun _ => hfirst⟩
        exact hnew (by rw [show (names.fresh base).1 = base from heq]; exact hmem)
      · refine ⟨iff_of_true ?_ hmem, fun h => absurd h hmem⟩
        exact congrArg Prod.fst (fresh_of_notMem hmem)
  | freshSuffixed base => exact isFirstSuffixed_freshSuffixed names base
  | rename name => exact isFirstSuffixed_freshSuffixed names name

/-- A name that is drawn was not in use. -/
theorem answer_notMem (hdraws : request.draws = true) :
    (names.answer request).1 ∉ names.taken := by
  cases request with
  | reserve name => cases hdraws
  | fresh base => exact fresh_notMem names base
  | freshSuffixed base => exact freshSuffixed_notMem names base
  | rename name => exact rename_notMem names name

/-- Only a renaming adds to a history, and it adds the new name to that of its binding. -/
theorem history_answer (name : String) :
    (names.answer request).2.history name = names.history name ++
      if request.renames name = true then [(names.answer request).1] else [] := by
  cases request with
  | reserve other => simp [answer, Request.renames, history, reserve]
  | fresh base =>
      by_cases hmem : base ∈ names.taken
      · simp [answer, Request.renames, history, fresh_of_mem hmem, freshSuffixed, reserve]
      · simp [answer, Request.renames, history, fresh_of_notMem hmem, reserve]
  | freshSuffixed base => simp [answer, Request.renames, history, freshSuffixed, reserve]
  | rename other =>
      simp only [answer, Request.renames, history_rename, beq_iff_eq]

end

/-! ### Any number of requests -/

/-- The registry after some requests. -/
def serve (names : Registry) (requests : List Request) : Registry :=
  requests.foldl (fun names request => (names.answer request).2) names

/-- The requests, each with the name it added. -/
def trace (names : Registry) : List Request → List (Request × String)
  | [] => []
  | request :: requests =>
    (request, (names.answer request).1) :: trace (names.answer request).2 requests

/-- The names drawn in a trace, in order. -/
def drawnIn (trace : List (Request × String)) : List String :=
  (trace.filter (·.1.draws)).map (·.2)

/-- The new names of a binding in a trace, in order. -/
def renamedIn (name : String) (trace : List (Request × String)) : List String :=
  (trace.filter (·.1.renames name)).map (·.2)

/-- A renaming draws a name. -/
theorem renamedIn_sublist_drawnIn (name : String) (trace : List (Request × String)) :
    (renamedIn name trace).Sublist (drawnIn trace) := by
  refine (List.monotone_filter_right trace fun entry => ?_).map _
  obtain ⟨request, -⟩ := entry
  cases request with
  | rename other => exact fun _ => rfl
  | _ => exact fun hrenames => absurd hrenames Bool.false_ne_true

/-- The names in use are those that were, and those that were added. -/
theorem taken_serve (names : Registry) (requests : List Request) :
    (names.serve requests).taken =
      ((names.trace requests).map (·.2)).reverse ++ names.taken := by
  induction requests generalizing names with
  | nil => rfl
  | cons request requests ih =>
      change ((names.answer request).2.serve requests).taken = _
      rw [ih, taken_answer, trace, List.map_cons, List.reverse_cons, List.append_assoc,
        List.singleton_append]

theorem history_serve (names : Registry) (requests : List Request) (name : String) :
    (names.serve requests).history name =
      names.history name ++ renamedIn name (names.trace requests) := by
  induction requests generalizing names with
  | nil => exact (List.append_nil _).symm
  | cons request requests ih =>
      change ((names.answer request).2.serve requests).history name = _
      rw [ih, history_answer, List.append_assoc, trace]
      unfold renamedIn
      rw [List.filter_cons]
      cases request.renames name <;> rfl

/-- No name is drawn twice, and none that was in use before. -/
theorem drawnIn_trace_new (names : Registry) (requests : List Request) :
    (drawnIn (names.trace requests)).Nodup ∧
      ∀ name ∈ drawnIn (names.trace requests), name ∉ names.taken := by
  induction requests generalizing names with
  | nil => exact ⟨List.nodup_nil, by simp [trace, drawnIn]⟩
  | cons request requests ih =>
      have hlater := ih (names.answer request).2
      rw [taken_answer] at hlater
      unfold drawnIn trace
      rw [List.filter_cons]
      split
      · next hdraws => exact Draws.new_cons (names.answer_notMem request hdraws) hlater
      · exact ⟨hlater.1, fun name hname hmem => hlater.2 name hname (List.mem_cons_of_mem _ hmem)⟩

/-- The laws of a registry.  Whatever it has been asked, the names in use are those it started
with and those its requests added, none of which is ever removed; the next request is answered
as it should be and adds its answer and nothing else.  The names drawn all differ from each
other and from what was in use or reserved before them, and the history of a binding lists the
new names it was given, in order and each of them once. -/
theorem serves_new_names (taken : List String) (requests : List Request) :
    let start : Registry := ⟨taken, []⟩
    let names := start.serve requests
    let trace := start.trace requests
    names.taken = (trace.map (·.2)).reverse ++ taken ∧
      (∀ request : Request,
        let (name, names') := names.answer request
        request.Answered names.taken name ∧ names'.taken = name :: names.taken ∧
          (request.draws = true → name ∉ names.taken)) ∧
      (drawnIn trace).Nodup ∧
      ∀ name, names.history name = renamedIn name trace ∧ (names.history name).Nodup := by
  intro start names trace
  have hnew := drawnIn_trace_new start requests
  refine ⟨taken_serve start requests, fun request => ?_, hnew.1, fun name => ?_⟩
  · exact ⟨answered_answer names request, taken_answer names request,
      answer_notMem names request⟩
  · have hhistory : names.history name = renamedIn name trace :=
      history_serve start requests name
    exact ⟨hhistory, hhistory ▸ (renamedIn_sublist_drawnIn name trace).nodup hnew.1⟩

/-- The second suffix of `a` and the first of `a$1` are kept apart from names that look like
them. -/
example : ((Registry.mk ["a"] []).trace [.fresh "a$1", .rename "a", .rename "a$1", .fresh "b",
    .reserve "b$1", .fresh "b"]).map (·.2) = ["a$1", "a$2", "a$1$1", "b", "b$1", "b$2"] := by
  decide +kernel

end Registry

end LoopLowering
