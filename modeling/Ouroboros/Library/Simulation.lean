import Ouroboros.Library.Transition
import Mathlib.Order.WellFounded

/-!
Stuttering simulations.

A step of the concrete relation is a step of the abstract one, or the abstract
state stays where it is and a rank is lowered. What is known of the abstract runs
then holds of the concrete ones: where they lead, that they come to an end, and
that they do not get stuck on the way.

The simulation may rest on a condition `J` on the abstract states that its runs
are known to keep.
-/

namespace Ouroboros.Transition

open Relation

variable {γ α : Type} {step : γ → γ → Prop} {step' : α → α → Prop} {J : α → Prop}
  {R : γ → α → Prop} {rank : γ → ℕ}

/-- `R c a` says that the concrete state `c` stands for `a`. -/
structure Simulation (step : γ → γ → Prop) (step' : α → α → Prop) (J : α → Prop)
    (R : γ → α → Prop) (rank : γ → ℕ) : Prop where
  forward : ∀ {c c' a}, R c a → step c c' →
    (∃ a', step' a a' ∧ (J a' → R c' a')) ∨ R c' a ∧ rank c' < rank c
  progress : ∀ {c a a'}, R c a → step' a a' → ∃ c', step c c'

/-- If no run goes on for ever, some run comes to a state that is stuck. -/
theorem exists_stuck {a : α}
    (hfinite : ¬ ∃ run : ℕ → α, run 0 = a ∧ ∀ i, step' (run i) (run (i + 1))) :
    ∃ b, ReflTransGen step' a b ∧ ∀ c, ¬ step' b c := by
  rw [← not_acc_iff_exists_descending_chain (r := fun b a => step' a b), not_not] at hfinite
  induction hfinite with
  | intro a _ ih =>
      by_cases hnext : ∃ c, step' a c
      · obtain ⟨c, hc⟩ := hnext
        obtain ⟨b, hb, hstuck⟩ := ih c hc
        exact ⟨b, .head hc hb, hstuck⟩
      · exact ⟨a, .refl, fun c hc => hnext ⟨c, hc⟩⟩

section

/-! The runs of a partial function. -/

variable {next : α → Option α} {a b c : α}

/-- A run that has not come to its end is on the way to it. -/
theorem toward_end (hab : ReflTransGen (fun a b => next a = some b) a b) (hend : next b = none)
    (hac : ReflTransGen (fun a b => next a = some b) a c) :
    ReflTransGen (fun a b => next a = some b) c b := by
  have hunique : Relator.RightUnique fun a b => next a = some b := fun _ _ _ h h' =>
    Option.some.inj (h.symm.trans h')
  rcases hab.total_of_right_unique hunique hac with hbc | hcb
  · rcases hbc.cases_head with rfl | ⟨d, hd, -⟩
    · exact .refl
    · rw [hend] at hd
      cases hd
  · exact hcb

theorem finite_of_end (hab : ReflTransGen (fun a b => next a = some b) a b)
    (hend : next b = none) :
    ¬ ∃ run : ℕ → α, run 0 = a ∧ ∀ i, next (run i) = some (run (i + 1)) := by
  rw [← not_acc_iff_exists_descending_chain (r := fun b a => next a = some b), not_not]
  induction hab using ReflTransGen.head_induction_on with
  | refl =>
      refine .intro _ fun c hc => ?_
      rw [hend] at hc
      cases hc
  | head hstep _ ih =>
      refine .intro _ fun c hc => ?_
      cases hstep.symm.trans hc
      exact ih

end

namespace Simulation

variable {c c' : γ} {a : α}

/-- A concrete run stands for an abstract one. -/
theorem run (h : Simulation step step' J R rank) (hJ : ∀ a', ReflTransGen step' a a' → J a')
    (hR : R c a) (hrun : ReflTransGen step c c') : ∃ a', ReflTransGen step' a a' ∧ R c' a' := by
  induction hrun with
  | refl => exact ⟨a, .refl, hR⟩
  | tail _ hstep ih =>
      obtain ⟨b, hb, hRb⟩ := ih
      rcases h.forward hRb hstep with ⟨b', hb', hR'⟩ | ⟨hR', -⟩
      · exact ⟨b', hb.tail hb', hR' (hJ b' (hb.tail hb'))⟩
      · exact ⟨b, hb, hR'⟩

/-- A concrete state that is stuck stands for an abstract one that is. -/
theorem stuck (h : Simulation step step' J R rank) (hR : R c a) (hstuck : ∀ c', ¬ step c c')
    (a' : α) : ¬ step' a a' := by
  intro hstep
  obtain ⟨c', hc'⟩ := h.progress hR hstep
  exact hstuck c' hc'

/-- By induction on the abstract runs, and on the rank while they stand still. -/
theorem acc (h : Simulation step step' J R rank) (hacc : Acc (fun b a => step' a b) a)
    (hJ : ∀ a', ReflTransGen step' a a' → J a') (hR : R c a) : Acc (fun b a => step a b) c := by
  induction hacc generalizing c with
  | intro a _ ih =>
      induction hn : rank c using Nat.strongRecOn generalizing c with
      | _ n ihn =>
          refine .intro c fun c' hstep => ?_
          rcases h.forward hR hstep with ⟨a', ha', hR'⟩ | ⟨hR', hlt⟩
          · have hJ' : ∀ b, ReflTransGen step' a' b → J b := fun b hb => hJ b (.head ha' hb)
            exact ih a' ha' hJ' (hR' (hJ' a' .refl))
          · exact ihn (rank c') (hn ▸ hlt) hR' rfl

/-- If no abstract run goes on for ever, neither does a concrete one. -/
theorem terminates (h : Simulation step step' J R rank)
    (hJ : ∀ a', ReflTransGen step' a a' → J a') (hR : R c a)
    (hfinite : ¬ ∃ run : ℕ → α, run 0 = a ∧ ∀ i, step' (run i) (run (i + 1))) :
    ¬ ∃ run : ℕ → γ, run 0 = c ∧ ∀ i, step (run i) (run (i + 1)) := by
  rw [← not_acc_iff_exists_descending_chain (r := fun b a => step' a b), not_not] at hfinite
  rw [← not_acc_iff_exists_descending_chain (r := fun b a => step a b), not_not]
  exact h.acc hfinite hJ hR

end Simulation

end Ouroboros.Transition
