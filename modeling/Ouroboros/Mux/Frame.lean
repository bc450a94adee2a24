import Ouroboros.Library.BigEndian
import Ouroboros.Library.Framing
import Ouroboros.Outcome

/-!
The frames of `mux.rs`.

`Connection::send` makes four writes. Those of the three header words go on until
the word is written; that of the payload is a single call of `write`, which takes
as much as it likes. The length word is the length of the payload modulo `2 ^ 16`.

`demux` is what the loop of `run_demux` makes of a stream of bytes that is there
as a whole.
-/

namespace Ouroboros.Mux

open BigEndian Streaming

abbrev Payload := Bytes

/-! ### Writing -/

/-- The writing half of a socket: what a call of `write` takes of the bytes it is
offered, given all that has been written before, or `none` for an error. -/
structure Transport where
  accept : Bytes → Bytes → Option ℕ
  accept_le : ∀ {written offered n}, accept written offered = some n → n ≤ offered.length

/-- A transport that takes everything. -/
def Transport.Greedy (T : Transport) : Prop :=
  ∀ written offered, T.accept written offered = some offered.length

/-- A transport that takes something. -/
def Transport.Live (T : Transport) : Prop :=
  ∀ written offered, offered ≠ [] → ∃ n, 0 < n ∧ T.accept written offered = some n

theorem Transport.Greedy.live {T : Transport} (h : T.Greedy) : T.Live :=
  fun written offered hne => ⟨_, List.length_pos_iff.mpr hne, h written offered⟩

/-- The result of a write, and all that has been written by then. -/
abbrev Written := Outcome Unit × Bytes

/-- `.await.unwrap()`, and the next write. -/
def Written.andThen (r : Written) (next : Bytes → Written) : Written :=
  match r with
  | (.ok (), written) => next written
  | r => r

/-- `write_u32` and `write_u16`. -/
def writeAll (T : Transport) (written offered : Bytes) : Written :=
  if offered = [] then (.ok (), written)
  else match T.accept written offered with
    | none => (.panic (.text "called `Result::unwrap()` on an `Err` value"), written)
    | some n =>
      if n = 0 then (.panic (.text "called `Result::unwrap()` on an `Err` value"), written)
      else writeAll T (written ++ offered.take n) (offered.drop n)
termination_by offered.length
decreasing_by
  have hpos := List.length_pos_iff.mpr ‹¬ offered = []›
  rw [List.length_drop]
  omega

/-- `write`. The number of bytes it has taken is dropped. -/
def write (T : Transport) (written offered : Bytes) : Written :=
  match T.accept written offered with
  | none => (.panic (.text "called `Result::unwrap()` on an `Err` value"), written)
  | some n => (.ok (), written ++ offered.take n)

/-- `Connection::send`. The timestamp is what the clock says. -/
def send (T : Transport) (timestamp : UInt32) (idx : UInt16) (payload : Payload)
    (written : Bytes) : Written :=
  (writeAll T written (bytes 4 timestamp.toNat)).andThen fun written =>
    (writeAll T written (bytes 2 idx.toNat)).andThen fun written =>
      (writeAll T written (bytes 2 (UInt16.ofNat payload.length).toNat)).andThen fun written =>
        write T written payload

/-- Of the writes that are to take all of `offered` one fails, or takes nothing. -/
inductive Refuses (T : Transport) : Bytes → Bytes → Prop
  | now {written offered : Bytes} : offered ≠ [] →
      T.accept written offered = none ∨ T.accept written offered = some 0 →
      Refuses T written offered
  | later {written offered : Bytes} {n : ℕ} : T.accept written offered = some n → 0 < n →
      Refuses T (written ++ offered.take n) (offered.drop n) → Refuses T written offered

theorem Refuses.ne_nil {T : Transport} {written offered : Bytes} (h : Refuses T written offered) :
    offered ≠ [] := by
  cases h with
  | now hne _ => exact hne
  | later haccept hpos _ =>
      have hle := T.accept_le haccept
      exact List.ne_nil_of_length_pos (by omega)

theorem writeAll_of_refuses {T : Transport} {written offered : Bytes}
    (h : Refuses T written offered) : ∃ e, (writeAll T written offered).1 = .panic e := by
  induction h with
  | now hne haccept =>
      rw [writeAll, if_neg hne]
      rcases haccept with haccept | haccept
      · exact ⟨_, by rw [haccept]⟩
      · exact ⟨_, by simp only [haccept, if_true]; rfl⟩
  | later haccept hpos hrest ih =>
      rw [writeAll, if_neg (Refuses.later haccept hpos hrest).ne_nil]
      simp only [haccept, if_neg (Nat.ne_of_gt hpos)]
      exact ih

theorem writeAll_of_not_refuses {T : Transport} {written offered : Bytes}
    (h : ¬ Refuses T written offered) :
    writeAll T written offered = (.ok (), written ++ offered) := by
  induction hn : offered.length using Nat.strongRecOn generalizing written offered with
  | _ n ih =>
    rw [writeAll]
    split_ifs with hnil
    · rw [hnil, List.append_nil]
    · have hpos := List.length_pos_iff.mpr hnil
      cases haccept : T.accept written offered with
      | none => exact absurd (.now hnil (.inl haccept)) h
      | some k =>
        have hk : k ≠ 0 := by
          rintro rfl
          exact h (.now hnil (.inr haccept))
        have hrest : ¬ Refuses T (written ++ offered.take k) (offered.drop k) := fun hr =>
          h (.later haccept (Nat.pos_of_ne_zero hk) hr)
        simp only [if_neg hk]
        rw [ih (offered.drop k).length (by rw [List.length_drop]; omega) hrest rfl,
          List.append_assoc, List.take_append_drop]

theorem Transport.Live.not_refuses {T : Transport} (hT : T.Live) {written offered : Bytes} :
    ¬ Refuses T written offered := by
  intro h
  induction h with
  | @now written offered hne haccept =>
      obtain ⟨n, hpos, hn⟩ := hT written offered hne
      simp [hn] at haccept
      omega
  | later _ _ _ ih => exact ih

theorem writeAll_live {T : Transport} (hT : T.Live) (written offered : Bytes) :
    writeAll T written offered = (.ok (), written ++ offered) :=
  writeAll_of_not_refuses hT.not_refuses

/-! ### Reading -/

/-- Four bytes of timestamp, two of index, two of length. -/
def format : Framing.Format UInt8 where
  size := 8
  size_pos := by decide
  length header := value (header.drop 6)

abbrev Frame := Framing.Frame format

/-- The channel a header is for: the index with its top bit flipped. -/
def idxOf (header : Bytes) : UInt16 := UInt16.ofNat (value ((header.drop 4).take 2)) ^^^ 0x8000

/-- What the loop dispatches of a frame. -/
def Frame.dispatched (f : Frame) : UInt16 × Payload := (idxOf f.header, f.payload)

/-- What the loop dispatches of a stream, and what it has begun to read at its end. -/
def demux (stream : Bytes) : List (UInt16 × Payload) × Tail UInt8 Empty :=
  ((format.decoder.parse stream).1.map Frame.dispatched, (format.decoder.parse stream).2)

/-- The length word has two bytes. -/
theorem Frame.payload_length_lt (f : Frame) : f.payload.length < 2 ^ 16 := by
  have hlt := value_lt (f.header.drop 6)
  have hlen : (f.header.drop 6).length = 2 := by
    rw [List.length_drop, f.header_length]
    rfl
  rw [hlen] at hlt
  rw [f.payload_length]
  exact hlt

end Ouroboros.Mux
