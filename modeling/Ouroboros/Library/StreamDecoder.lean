import Mathlib.Data.List.Basic
import Mathlib.Tactic.Common

/-!
Streaming decoders over an arbitrary alphabet.

A decoder looks at the input in front of it and says one of four things:
there is nothing, here is an item and its length, the input ends inside an
item, or the input is malformed. `Decoder.parse` iterates it over a buffer, and
`Decoder.feed` is the carry discipline: what is left of one buffer is prepended
to the next segment of the stream.

The law everything rests on is `Codeword`: a word that is read as one item
whatever follows it, and whose proper prefixes all ask for more input. A stream
of codewords is parsed to the same items however it is cut into segments
(`Pending.feed`), and a buffer never holds a complete codeword back
(`Pending.eq_of_partial`).
-/

namespace Ouroboros.Streaming

/-- What a decoder says of the input in front of it. -/
inductive Next (α ε : Type)
  | none
  | item (a : α) (len : ℕ)
  | eof
  | fail (e : ε)

/-- A streaming decoder. It says `none` exactly on empty input, and an item
takes at least one letter and no more than there are. -/
structure Decoder (β α ε : Type) where
  next : List β → Next α ε
  next_none : ∀ xs, next xs = .none ↔ xs = []
  next_len : ∀ {xs a n}, next xs = .item a n → 0 < n ∧ n ≤ xs.length

/-- What is left of a buffer once its items have been read. -/
inductive Tail (β ε : Type)
  | done
  | more (rest : List β)
  | fail (e : ε)

/-- The letters kept for the next segment. -/
def Tail.carry {β ε : Type} : Tail β ε → List β
  | .more rest => rest
  | .done | .fail _ => []

/-- The tail of a buffer that ends in the unfinished item `rest`. -/
def Tail.ofCarry {β ε : Type} : List β → Tail β ε
  | [] => .done
  | x :: xs => .more (x :: xs)

@[simp] theorem Tail.carry_ofCarry {β ε : Type} (xs : List β) :
    (Tail.ofCarry xs : Tail β ε).carry = xs := by
  cases xs <;> rfl

namespace Decoder

variable {β α ε : Type} (D : Decoder β α ε)

/-- All items at the front of a buffer, and what follows them. -/
def parse (xs : List β) : List α × Tail β ε :=
  match _h : D.next xs with
  | .none => ([], .done)
  | .eof => ([], .more xs)
  | .fail e => ([], .fail e)
  | .item a n => (a :: (parse (xs.drop n)).1, (parse (xs.drop n)).2)
termination_by xs.length
decreasing_by
  all_goals
    have hn := D.next_len ‹_›
    simp only [List.length_drop]
    omega

@[simp] theorem parse_nil : D.parse [] = ([], .done) := by
  rw [parse]
  split
  case h_1 => rfl
  case h_2 h => rw [(D.next_none []).mpr rfl] at h; cases h
  case h_3 h => rw [(D.next_none []).mpr rfl] at h; cases h
  case h_4 h => rw [(D.next_none []).mpr rfl] at h; cases h

theorem parse_eof {xs : List β} (h : D.next xs = .eof) : D.parse xs = ([], .more xs) := by
  rw [parse]
  split <;> simp_all

theorem parse_fail {xs : List β} {e : ε} (h : D.next xs = .fail e) :
    D.parse xs = ([], .fail e) := by
  rw [parse]
  split <;> simp_all

theorem parse_item {xs : List β} {a : α} {n : ℕ} (h : D.next xs = .item a n) :
    D.parse xs = (a :: (D.parse (xs.drop n)).1, (D.parse (xs.drop n)).2) := by
  rw [parse]
  split <;> simp_all

/-- One segment of the stream: it is appended to the carry and the buffer is
parsed. -/
def feed (carry segment : List β) : List α × Tail β ε := D.parse (carry ++ segment)

/-! ### Codewords -/

/-- `w` is read as the item `a` whatever follows it, and every proper non-empty
prefix of it asks for more. -/
structure Codeword (w : List β) (a : α) : Prop where
  item : ∀ rest, D.next (w ++ rest) = .item a w.length
  eof : ∀ p, p <+: w → p ≠ [] → p ≠ w → D.next p = .eof

/-- A proper prefix of some codeword, possibly empty. -/
def Partial (p : List β) : Prop := ∃ w a, D.Codeword w a ∧ p <+: w ∧ p ≠ w

/-- Items paired with codewords for them. -/
def Coded (es : List (α × List β)) : Prop := ∀ e ∈ es, D.Codeword e.2 e.1

/-- `xs` holds the codewords of the items `es` and then the partial item `p`. -/
structure Pending (es : List (α × List β)) (p xs : List β) : Prop where
  rest : D.Partial p
  coded : D.Coded es
  eq : xs = es.flatMap Prod.snd ++ p

variable {D}

theorem Codeword.ne_nil {w : List β} {a : α} (h : D.Codeword w a) : w ≠ [] := by
  rintro rfl
  have hlen := D.next_len (h.item [])
  simp at hlen

theorem Codeword.partial_nil {w : List β} {a : α} (h : D.Codeword w a) : D.Partial [] :=
  ⟨w, a, h, List.nil_prefix, h.ne_nil.symm⟩

theorem Codeword.parse_append {w : List β} {a : α} (h : D.Codeword w a) (rest : List β) :
    D.parse (w ++ rest) = (a :: (D.parse rest).1, (D.parse rest).2) := by
  rw [D.parse_item (h.item rest), List.drop_left]

theorem Coded.parse_append {es : List (α × List β)} (h : D.Coded es) (rest : List β) :
    D.parse (es.flatMap Prod.snd ++ rest) =
      (es.map Prod.fst ++ (D.parse rest).1, (D.parse rest).2) := by
  induction es with
  | nil => rfl
  | cons e es ih =>
      have hes : D.Coded es := fun f hf => h f (List.mem_cons_of_mem e hf)
      rw [List.flatMap_cons, List.append_assoc, (h e List.mem_cons_self).parse_append, ih hes]
      rfl

/-- A whole number of codewords is used up. -/
theorem Coded.parse {es : List (α × List β)} (h : D.Coded es) :
    D.parse (es.flatMap Prod.snd) = (es.map Prod.fst, .done) := by
  have hparse := h.parse_append []
  rwa [D.parse_nil, List.append_nil, List.append_nil] at hparse

/-- A partial item yields nothing and is kept whole. -/
theorem Partial.parse {p : List β} (h : D.Partial p) : D.parse p = ([], .ofCarry p) := by
  obtain ⟨w, a, hw, hpre, hne⟩ := h
  cases p with
  | nil => exact D.parse_nil
  | cons x xs => exact D.parse_eof (hw.eof _ hpre (List.cons_ne_nil _ _) hne)

/-- No partial item starts with a codeword. -/
theorem Codeword.not_initial {w p : List β} {a : α} (h : D.Codeword w a)
    (hp : D.Partial p) : ¬ w <+: p := by
  rintro ⟨rest, rfl⟩
  obtain ⟨w', a', hw', hpre, hne⟩ := hp
  have hnil : w ++ rest ≠ [] := by simp [h.ne_nil]
  have heof := hw'.eof _ hpre hnil hne
  rw [h.item rest] at heof
  cases heof

/-! ### Cutting a stream of codewords -/

/-- Any initial part `xs` of a stream of codewords is parsed to the items it
completes. What is kept is a partial item, and with the rest of the stream it
still spells the remaining items. -/
theorem Pending.parse {es : List (α × List β)} {p xs future : List β}
    (h : D.Pending es p (xs ++ future)) :
    ∃ done todo c, es = done ++ todo ∧ D.parse xs = (done.map Prod.fst, .ofCarry c) ∧
      D.Partial c ∧ D.Pending todo p (c ++ future) := by
  obtain ⟨hp, hcoded, heq⟩ := h
  -- on the codewords still to come: the first one ends in `xs`, or `xs` ends in it
  induction es generalizing xs with
  | nil =>
      have hxs : D.Partial xs := by
        obtain ⟨w, a, hw, hpre, hne⟩ := hp
        have hxp : xs <+: p := ⟨future, by simpa using heq⟩
        refine ⟨w, a, hw, hxp.trans hpre, ?_⟩
        rintro rfl
        exact hne (hpre.eq_of_length_le hxp.length_le)
      exact ⟨[], [], xs, rfl, hxs.parse, hxs, hp, hcoded, heq⟩
  | cons e es ih =>
      have hw : D.Codeword e.2 e.1 := hcoded e List.mem_cons_self
      have hes : D.Coded es := fun f hf => hcoded f (List.mem_cons_of_mem e hf)
      rw [List.flatMap_cons, List.append_assoc] at heq
      rcases List.append_eq_append_iff.mp heq with ⟨c, hw', hfuture⟩ | ⟨c, rfl, hrest⟩
      · by_cases hc : c = []
        · -- the segment ends exactly at the end of the codeword
          subst hc
          have hxs : xs = e.2 ++ [] := by simpa using hw'.symm
          have hfut : [] ++ future = es.flatMap Prod.snd ++ p := by simpa using hfuture
          obtain ⟨done, todo, c, rfl, hparse, hpart, hrest⟩ := ih hes hfut
          refine ⟨e :: done, todo, c, rfl, ?_, hpart, hrest⟩
          rw [hxs, hw.parse_append, hparse, List.map_cons]
        · -- the segment ends inside the codeword
          have hxs : D.Partial xs := by
            refine ⟨e.2, e.1, hw, ⟨c, hw'.symm⟩, fun h => hc ?_⟩
            rw [h] at hw'
            simpa using hw'
          refine ⟨[], e :: es, xs, rfl, hxs.parse, hxs, hp, hcoded, ?_⟩
          rw [List.flatMap_cons, List.append_assoc, heq]
      · obtain ⟨done, todo, c', rfl, hparse, hpart, hrest'⟩ := ih hes hrest.symm
        refine ⟨e :: done, todo, c', rfl, ?_, hpart, hrest'⟩
        rw [hw.parse_append, hparse, List.map_cons]

/-- Initial parts of a stream of codewords are parsed in one go or in two, with the
carry in front of the second. -/
theorem Pending.parse_append {es : List (α × List β)} {p xs ys future : List β}
    (h : D.Pending es p (xs ++ (ys ++ future))) :
    ∃ ms c, D.parse xs = (ms, .ofCarry c) ∧
      D.parse (xs ++ ys) = (ms ++ (D.feed c ys).1, (D.feed c ys).2) := by
  obtain ⟨done, todo, c, rfl, hparse, -, hrest⟩ := h.parse
  refine ⟨done.map Prod.fst, c, hparse, ?_⟩
  have hxs : xs = done.flatMap Prod.snd ++ c := by
    have heq : xs ++ (ys ++ future) = done.flatMap Prod.snd ++ c ++ (ys ++ future) := by
      rw [h.eq, List.flatMap_append, List.append_assoc, ← hrest.eq, List.append_assoc]
    exact List.append_cancel_right heq
  have hdone : D.Coded done := fun e he => h.coded e (List.mem_append_left _ he)
  rw [hxs, List.append_assoc, hdone.parse_append]
  rfl

/-- Carry and segment: a partial carry stays partial, and the items handed out
are exactly those the segment completes. -/
theorem Pending.feed {es : List (α × List β)} {p carry segment future : List β}
    (h : D.Pending es p (carry ++ (segment ++ future))) :
    ∃ done todo c, es = done ++ todo ∧
      D.feed carry segment = (done.map Prod.fst, .ofCarry c) ∧
      D.Partial c ∧ D.Pending todo p (c ++ future) :=
  Pending.parse (by rwa [← List.append_assoc] at h)

/-- Once the stream is exhausted no item is left waiting in the carry. -/
theorem Pending.eq_of_partial {es : List (α × List β)} {p c : List β} (h : D.Pending es p c)
    (hc : D.Partial c) : es = [] ∧ c = p := by
  obtain ⟨-, hcoded, rfl⟩ := h
  cases es with
  | nil => exact ⟨rfl, rfl⟩
  | cons e es =>
      refine absurd ?_ ((hcoded e List.mem_cons_self).not_initial hc)
      rw [List.flatMap_cons, List.append_assoc]
      exact List.prefix_append _ _

end Decoder

end Ouroboros.Streaming
