import Ouroboros.SerdeCbor.Value
import Mathlib.Data.List.Forall2

/-!
What a call of the crate comes to: a value, an `Err`, or a panic.

The crate's `Error` is a `String`. An error here is the literal text of the
source together with the argument of its placeholder.
-/

namespace Ouroboros

inductive Error
  /-- A fixed text. -/
  | text (s : String)
  /-- `format!("{s}{:?}", other)` of the next item of an iterator. -/
  | found (s : String) (other : Option Value)
  /-- `format!("{s}{n}{t}")`. -/
  | number (s : String) (n : Int) (t : String)
  /-- `format!("{s}{:?}", value)` of an enumeration, by the name of its variant. -/
  | variant (s : String) (name : String)
  /-- `format!("{s}{:?}{t}{:?}.", value, value')` of two of them. -/
  | variants (s name t name' : String)

inductive Outcome (α : Type)
  | ok (a : α)
  | err (e : Error)
  | panic (e : Error)

namespace Outcome

def bind {α β : Type} : Outcome α → (α → Outcome β) → Outcome β
  | .ok a, f => f a
  | .err e, _ => .err e
  | .panic e, _ => .panic e

instance : Monad Outcome where
  pure := .ok
  bind := bind

@[simp] theorem pure_eq {α : Type} (a : α) : (pure a : Outcome α) = .ok a := rfl

@[simp] theorem ok_bind {α β : Type} (a : α) (f : α → Outcome β) : (ok a >>= f) = f a := rfl

@[simp] theorem err_bind {α β : Type} (e : Error) (f : α → Outcome β) :
    (err e >>= f) = .err e := rfl

@[simp] theorem panic_bind {α β : Type} (e : Error) (f : α → Outcome β) :
    (panic e >>= f) = .panic e := rfl

instance : LawfulMonad Outcome :=
  LawfulMonad.mk' Outcome (fun o => by cases o <;> rfl) (fun _ _ => rfl)
    (fun o _ _ => by cases o <;> rfl)

/-- A list is mapped without an error if every item is. -/
theorem mapM_ok {α β : Type} {f : α → Outcome β} (Q : α → β → Prop) {as : List α}
    (h : ∀ a ∈ as, ∃ b, f a = .ok b ∧ Q a b) :
    ∃ bs, as.mapM f = .ok bs ∧ ∀ b ∈ bs, ∃ a ∈ as, Q a b := by
  induction as with
  | nil => exact ⟨[], rfl, by simp⟩
  | cons a as ih =>
      obtain ⟨⟨b, hb, hQ⟩, hrest⟩ := List.forall_mem_cons.mp h
      obtain ⟨bs, hbs, hmem⟩ := ih hrest
      refine ⟨b :: bs, by rw [List.mapM_cons, hb, hbs]; rfl, List.forall_mem_cons.mpr ⟨?_, ?_⟩⟩
      · exact ⟨a, List.mem_cons_self, hQ⟩
      · intro c hc
        obtain ⟨a', ha', hQ'⟩ := hmem c hc
        exact ⟨a', List.mem_cons_of_mem a ha', hQ'⟩

theorem bind_ok_iff {α β : Type} {o : Outcome α} {f : α → Outcome β} {b : β} :
    (o >>= f) = .ok b ↔ ∃ a, o = .ok a ∧ f a = .ok b := by
  cases o <;> simp

theorem mapM_ok_iff {α β : Type} {f : α → Outcome β} {as : List α} {bs : List β} :
    as.mapM f = .ok bs ↔ List.Forall₂ (fun a b => f a = .ok b) as bs := by
  induction as generalizing bs with
  | nil =>
      rw [List.mapM_nil, pure_eq, ok.injEq, List.forall₂_nil_left_iff]
      exact eq_comm
  | cons a as ih =>
      simp only [List.mapM_cons, bind_ok_iff, pure_eq, ok.injEq, List.forall₂_cons_left_iff, ih]
      constructor
      · rintro ⟨b, hb, bs, hbs, rfl⟩
        exact ⟨b, bs, hb, hbs, rfl⟩
      · rintro ⟨b, bs, hb, hbs, rfl⟩
        exact ⟨b, hb, bs, hbs, rfl⟩

/-- `Result::unwrap`. -/
def unwrap {α : Type} : Outcome α → Outcome α
  | .ok a => .ok a
  | .err e | .panic e => .panic e

@[simp] theorem unwrap_ok {α : Type} (a : α) : (ok a).unwrap = .ok a := rfl
@[simp] theorem unwrap_err {α : Type} (e : Error) : (err e : Outcome α).unwrap = .panic e := rfl
@[simp] theorem unwrap_panic {α : Type} (e : Error) : (panic e : Outcome α).unwrap = .panic e := rfl

/-- `map_err(|e| format!("{:?}", e))` of a `serde_cbor` result. -/
def ofExcept {α : Type} : Except String α → Outcome α
  | .ok a => .ok a
  | .error e => .err (.text e)

@[simp] theorem ofExcept_ok {α : Type} (a : α) : ofExcept (.ok a) = .ok a := rfl

end Outcome

end Ouroboros
