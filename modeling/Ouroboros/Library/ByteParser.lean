import Ouroboros.Library.StreamDecoder

/-!
Parsers that know when they need more input.

A parser returns a value and the rest of its input, or says that the input ends
too early, or fails. `Reads p w a` is the judgment every format proof is
written in: `p` reads exactly the word `w`, returns `a` whatever follows, and
on every proper prefix of `w` asks for more. It composes along `bind`, so a
round trip and the end-of-input law of a format are proved together, one
combinator at a time. `Reads.codeword` turns the judgment into the codeword law
of streaming decoders.
-/

namespace Ouroboros.Streaming

/-- The outcome of a parser. -/
inductive Parsed (β ε α : Type)
  | done (a : α) (rest : List β)
  | eof
  | fail (e : ε)

def Parser (β ε α : Type) := List β → Parsed β ε α

namespace Parser

variable {β ε α γ : Type}

def pure (a : α) : Parser β ε α := fun xs => .done a xs

def raise (e : ε) : Parser β ε α := fun _ => .fail e

def bind (p : Parser β ε α) (f : α → Parser β ε γ) : Parser β ε γ := fun xs =>
  match p xs with
  | .done a rest => f a rest
  | .eof => .eof
  | .fail e => .fail e

def map (f : α → γ) (p : Parser β ε α) : Parser β ε γ := p.bind fun a => pure (f a)

/-- One letter. -/
def one : Parser β ε β
  | [] => .eof
  | x :: xs => .done x xs

/-- The next `n` letters. -/
def take : ℕ → Parser β ε (List β)
  | 0 => pure []
  | n + 1 => one.bind fun x => (take n).map (x :: ·)

/-- `n` items in a row. -/
def count (p : Parser β ε α) : ℕ → Parser β ε (List α)
  | 0 => pure []
  | n + 1 => p.bind fun a => (count p n).map (a :: ·)

/-- The parser reads exactly `w`, returns `a`, and asks for more on every proper
prefix of `w`. -/
structure Reads (p : Parser β ε α) (w : List β) (a : α) : Prop where
  done : ∀ rest, p (w ++ rest) = .done a rest
  eof : ∀ q, q <+: w → q ≠ w → p q = .eof

theorem reads_pure (a : α) : Reads (pure a : Parser β ε α) [] a where
  done _ := rfl
  eof _ hq hne := absurd (List.prefix_nil.mp hq) hne

theorem reads_one (x : β) : Reads (one : Parser β ε β) [x] x where
  done _ := rfl
  eof q hq hne := by
    cases q with
    | nil => rfl
    | cons y ys =>
        have hlen := hq.length_le
        have hys : ys = [] := by
          apply List.length_eq_zero_iff.mp
          simp only [List.length_cons, List.length_nil] at hlen
          omega
        subst hys
        exact absurd (hq.eq_of_length rfl) hne

theorem Reads.bind {p : Parser β ε α} {f : α → Parser β ε γ} {w w' : List β} {a : α} {c : γ}
    (hp : Reads p w a) (hf : Reads (f a) w' c) : Reads (p.bind f) (w ++ w') c where
  done rest := by
    simp only [Parser.bind, List.append_assoc, hp.done, hf.done]
  eof q hq hne := by
    obtain ⟨t, ht⟩ := hq
    rcases List.append_eq_append_iff.mp ht with ⟨v, hw, -⟩ | ⟨q', rfl, hw'⟩
    · by_cases h : q = w
      · -- `p` has read all of `w`, and the rest is read from nothing
        subst h
        have hne' : w' ≠ [] := by
          rintro rfl
          exact hne (List.append_nil q).symm
        have hdone := hp.done []
        rw [List.append_nil] at hdone
        simp only [Parser.bind, hdone]
        exact hf.eof [] List.nil_prefix hne'.symm
      · simp only [Parser.bind, hp.eof q ⟨v, hw.symm⟩ h]
    · simp only [Parser.bind, hp.done]
      exact hf.eof q' ⟨t, hw'.symm⟩ fun h => hne (by rw [h])

theorem Reads.map {p : Parser β ε α} {w : List β} {a : α} (hp : Reads p w a) (f : α → γ) :
    Reads (p.map f) w (f a) := by
  have h := Reads.bind (f := fun a => Parser.pure (f a)) hp (reads_pure (f a))
  rwa [List.append_nil] at h

theorem reads_take (w : List β) : Reads (take w.length : Parser β ε (List β)) w w := by
  induction w with
  | nil => exact reads_pure []
  | cons x xs ih => exact (reads_one x).bind (ih.map (x :: ·))

/-- A list of items, each written as `enc` of it. -/
theorem reads_count {p : Parser β ε α} {enc : α → List β} :
    ∀ (as : List α), (∀ a ∈ as, Reads p (enc a) a) →
      Reads (count p as.length) (as.flatMap enc) as
  | [], _ => reads_pure []
  | a :: as, h => by
      have ha := h a List.mem_cons_self
      have has := reads_count as fun b hb => h b (List.mem_cons_of_mem a hb)
      exact ha.bind (has.map (a :: ·))

/-- A parser as a streaming decoder. A parser that returns without reading
anything is no item of a stream; `stalled` is what it fails with. -/
def decoder (p : Parser β ε α) (stalled : ε) : Decoder β α ε where
  next
    | [] => .none
    | x :: xs =>
      match p (x :: xs) with
      | .done a rest =>
        if rest.length < (x :: xs).length then .item a ((x :: xs).length - rest.length)
        else .fail stalled
      | .eof => .eof
      | .fail e => .fail e
  next_none xs := by
    cases xs with
    | nil => simp
    | cons x xs =>
        simp only [reduceCtorEq, iff_false]
        split
        · split <;> simp
        · simp
        · simp
  next_len {xs a n} h := by
    cases xs with
    | nil => cases h
    | cons x xs =>
        simp only at h
        split at h
        · split at h
          · cases h
            omega
          · cases h
        · cases h
        · cases h

theorem Reads.codeword {p : Parser β ε α} {w : List β} {a : α} (h : Reads p w a)
    (hw : w ≠ []) (stalled : ε) : (p.decoder stalled).Codeword w a where
  item rest := by
    obtain ⟨x, xs, rfl⟩ := List.exists_cons_of_ne_nil hw
    have hdone := h.done rest
    rw [List.cons_append] at hdone
    simp only [decoder, List.cons_append, hdone]
    have hlt : rest.length < (x :: (xs ++ rest)).length := by
      simp only [List.length_cons, List.length_append]
      omega
    rw [if_pos hlt]
    congr 1
    simp only [List.length_cons, List.length_append]
    omega
  eof q hq hne hqw := by
    obtain ⟨x, xs, rfl⟩ := List.exists_cons_of_ne_nil hne
    simp only [decoder, h.eof _ hq hqw]

end Parser

end Ouroboros.Streaming
