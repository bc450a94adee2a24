import Mathlib.Logic.Relation
import Mathlib.Order.OrderIsoNat
import Mathlib.Order.Monotone.Basic
import Mathlib.Data.List.Induction

/-!
Runs of a step relation: what a step keeps holds throughout a run, and a run
whose steps all lower a natural number comes to an end. A `Trace` is a run of a
relation with labels, together with the labels of its steps.
-/

namespace Ouroboros.Transition

open Relation

variable {α : Type} {step : α → α → Prop}

/-- An invariant holds in every state of a run. -/
theorem invariant {I : α → Prop} (hstep : ∀ a b, I a → step a b → I b) {a b : α}
    (h : ReflTransGen step a b) (ha : I a) : I b := by
  induction h with
  | refl => exact ha
  | tail _ hbc ih => exact hstep _ _ ih hbc

/-- There is no infinite run if every step lowers `rank` under the invariant. -/
theorem terminates {I : α → Prop} (hstep : ∀ a b, I a → step a b → I b) (rank : α → ℕ)
    (hrank : ∀ a b, I a → step a b → rank b < rank a) {a : α} (ha : I a) :
    ¬ ∃ run : ℕ → α, run 0 = a ∧ ∀ i, step (run i) (run (i + 1)) := by
  rintro ⟨run, rfl, hrun⟩
  have hI : ∀ i, I (run i) := by
    intro i
    induction i with
    | zero => exact ha
    | succ i ih => exact hstep _ _ ih (hrun i)
  have hanti : StrictAnti fun i => rank (run i) :=
    strictAnti_nat_of_succ_lt fun i => hrank _ _ (hI i) (hrun i)
  exact not_strictAnti_of_wellFoundedLT _ hanti

/-! ### Labels -/

variable {ι : Type} {does : α → ι → α → Prop}

/-- A run and its labels, oldest first. -/
inductive Trace (does : α → ι → α → Prop) (a : α) : List ι → α → Prop
  | nil : Trace does a [] a
  | snoc {xs : List ι} {x : ι} {b c : α} : Trace does a xs b → does b x c →
      Trace does a (xs ++ [x]) c

namespace Trace

variable {a b c : α} {xs ys : List ι} {x : ι}

/-- An invariant may speak of the labels so far. -/
theorem invariant {I : List ι → α → Prop} (h : Trace does a xs b) (ha : I [] a)
    (hstep : ∀ xs x b c, I xs b → does b x c → I (xs ++ [x]) c) : I xs b := by
  induction h with
  | nil => exact ha
  | snoc _ hdoes ih => exact hstep _ _ _ _ ih hdoes

theorem run (h : Trace does a xs b) : ReflTransGen (fun a b => ∃ x, does a x b) a b := by
  induction h with
  | nil => exact .refl
  | snoc _ hdoes ih => exact ih.tail ⟨_, hdoes⟩

theorem last (h : Trace does a (xs ++ [x]) c) : ∃ b, Trace does a xs b ∧ does b x c := by
  generalize hxs : xs ++ [x] = ys at h
  cases h with
  | nil => simp at hxs
  | snoc htrace hdoes =>
      obtain ⟨rfl, hx⟩ := List.append_inj' hxs rfl
      obtain ⟨rfl, -⟩ := List.cons.inj hx
      exact ⟨_, htrace, hdoes⟩

theorem append (h : Trace does a xs b) (h' : Trace does b ys c) : Trace does a (xs ++ ys) c := by
  induction h' with
  | nil => rwa [List.append_nil]
  | snoc _ hdoes ih =>
      rw [← List.append_assoc]
      exact ih.snoc hdoes

/-- There is a state between any two parts of a trace. -/
theorem split (h : Trace does a (xs ++ ys) c) : ∃ b, Trace does a xs b ∧ Trace does b ys c := by
  induction ys using List.reverseRecOn generalizing c with
  | nil => exact ⟨c, by rwa [List.append_nil] at h, .nil⟩
  | append_singleton ys y ih =>
      rw [← List.append_assoc] at h
      obtain ⟨b', htrace, hdoes⟩ := h.last
      obtain ⟨b, hxs, hys⟩ := ih htrace
      exact ⟨b, hxs, hys.snoc hdoes⟩

end Trace

end Ouroboros.Transition
