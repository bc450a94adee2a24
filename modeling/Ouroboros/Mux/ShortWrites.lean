import Ouroboros.Mux.RoundTrip

/-!
Frames over a transport that takes less than it is offered.

The three header words go through `writeAll`, which offers again what was not taken.
The payload goes through a single `write`. So a frame is on the stream as a whole
exactly when that one write takes all of it.
-/

namespace Ouroboros.Mux

open BigEndian Streaming Framing

variable {T : Transport} {c : Call} {calls : List Call} {written : Bytes}

/-- The eight bytes of the header, with the length itself in the length word, and the
payload. -/
def Call.bytes (c : Call) : Bytes :=
  BigEndian.bytes 4 c.timestamp.toNat ++ BigEndian.bytes 2 c.idx.toNat ++
    BigEndian.bytes 2 c.payload.length ++ c.payload

/-- A payload that fits has its own length in the length word. -/
theorem Call.wire_eq_bytes (h : c.payload.length ≤ 65535) : c.wire = c.bytes := by
  have hlen : (UInt16.ofNat c.payload.length).toNat = c.payload.length := by
    rw [UInt16.toNat_ofNat']
    omega
  rw [wire, header, hlen, bytes]

theorem exists_frames (h : ∀ c ∈ calls, c.payload.length ≤ 65535) :
    ∃ fs : List Frame, calls.flatMap Call.bytes = encode fs := by
  induction calls with
  | nil => exact ⟨[], rfl⟩
  | cons c calls ih =>
      obtain ⟨hc, hcalls⟩ := List.forall_mem_cons.mp h
      obtain ⟨fs, hfs⟩ := ih hcalls
      refine ⟨c.frame (by omega) :: fs, ?_⟩
      rw [List.flatMap_cons, hfs, ← Call.wire_eq_bytes hc]
      rfl

/-- What is expected of a sequence of sends: as far as they return, the stream has grown
by the bytes of these calls, and so by whole frames. -/
structure Intact (T : Transport) (calls : List Call) (written : Bytes) : Prop where
  appended : ∀ k, (sendAll T (calls.take k) written).1 = .ok () →
    (sendAll T (calls.take k) written).2 = written ++ (calls.take k).flatMap Call.bytes
  frames : ∀ k, (sendAll T (calls.take k) written).1 = .ok () →
    ∃ fs : List Frame, (sendAll T (calls.take k) written).2 = written ++ encode fs

/-- The write of each payload takes all of it, up to one that fails. -/
inductive TakenWhole (T : Transport) : List Call → Bytes → Prop
  | nil {written : Bytes} : TakenWhole T [] written
  | failed {c : Call} {calls : List Call} {written : Bytes} :
      T.accept (written ++ c.header) c.payload = none → TakenWhole T (c :: calls) written
  | cons {c : Call} {calls : List Call} {written : Bytes} :
      T.accept (written ++ c.header) c.payload = some c.payload.length →
      TakenWhole T calls (written ++ c.bytes) → TakenWhole T (c :: calls) written

/-- The header words are always complete. -/
theorem send_live (hT : T.Live) (c : Call) (written : Bytes) :
    send T c.timestamp c.idx c.payload written = write T (written ++ c.header) c.payload := by
  simp only [send, writeAll_live hT, Written.andThen, Call.header, List.append_assoc]

theorem send_taken (hT : T.Live) {n : ℕ}
    (h : T.accept (written ++ c.header) c.payload = some n) :
    send T c.timestamp c.idx c.payload written =
      (.ok (), written ++ c.header ++ c.payload.take n) := by
  simp only [send_live hT, write, h]

theorem send_failed (hT : T.Live) (h : T.accept (written ++ c.header) c.payload = none) :
    ∃ e, send T c.timestamp c.idx c.payload written = (.panic e, written ++ c.header) :=
  ⟨.text "called `Result::unwrap()` on an `Err` value", by rw [send_live hT, write, h]⟩

theorem send_whole (hT : T.Live) (hfits : c.payload.length ≤ 65535)
    (h : T.accept (written ++ c.header) c.payload = some c.payload.length) :
    send T c.timestamp c.idx c.payload written = (.ok (), written ++ c.bytes) := by
  rw [send_taken hT h, List.take_length, List.append_assoc, ← Call.wire, Call.wire_eq_bytes hfits]

theorem sendAll_singleton (c : Call) (written : Bytes) :
    sendAll T [c] written = send T c.timestamp c.idx c.payload written := by
  rw [sendAll]
  cases send T c.timestamp c.idx c.payload written with
  | mk r written' => cases r <;> rfl

/-- Sends whose payloads are taken as wholes grow the stream by their bytes. -/
theorem TakenWhole.appended (hT : T.Live) (h : TakenWhole T calls written)
    (hfits : ∀ c ∈ calls, c.payload.length ≤ 65535) (k : ℕ)
    (hok : (sendAll T (calls.take k) written).1 = .ok ()) :
    (sendAll T (calls.take k) written).2 = written ++ (calls.take k).flatMap Call.bytes := by
  induction h generalizing k with
  | nil => simp [sendAll]
  | failed haccept =>
      cases k with
      | zero => simp [sendAll]
      | succ k =>
          obtain ⟨e, hsend⟩ := send_failed hT haccept
          rw [List.take_succ_cons, sendAll, hsend] at hok
          cases hok
  | cons haccept _ ih =>
      obtain ⟨hc, hcalls⟩ := List.forall_mem_cons.mp hfits
      cases k with
      | zero => simp [sendAll]
      | succ k =>
          rw [List.take_succ_cons, sendAll, send_whole hT hc haccept] at hok ⊢
          rw [Written.andThen, ih hcalls k hok, List.flatMap_cons, List.append_assoc]

theorem TakenWhole.intact (hT : T.Live) (h : TakenWhole T calls written)
    (hfits : ∀ c ∈ calls, c.payload.length ≤ 65535) : Intact T calls written where
  appended := h.appended hT hfits
  frames k hok := by
    obtain ⟨fs, hfs⟩ := exists_frames fun c hc => hfits c (List.mem_of_mem_take (i := k) hc)
    exact ⟨fs, by rw [h.appended hT hfits k hok, hfs]⟩

/-- A send that appends its bytes has had its payload taken as a whole. -/
theorem length_of_appended (hT : T.Live) (hfits : c.payload.length ≤ 65535) {n : ℕ}
    (haccept : T.accept (written ++ c.header) c.payload = some n)
    (h : (send T c.timestamp c.idx c.payload written).2 = written ++ c.bytes) :
    n = c.payload.length := by
  rw [send_taken hT haccept, ← Call.wire_eq_bytes hfits, Call.wire, ← List.append_assoc] at h
  have htake := List.append_cancel_left h
  have hle := T.accept_le haccept
  have hlen := congrArg List.length htake
  rw [List.length_take] at hlen
  omega

theorem whole_of_appended (hT : T.Live) (hfits : ∀ c ∈ calls, c.payload.length ≤ 65535)
    (h : ∀ k, (sendAll T (calls.take k) written).1 = .ok () →
      (sendAll T (calls.take k) written).2 = written ++ (calls.take k).flatMap Call.bytes) :
    TakenWhole T calls written := by
  induction calls generalizing written with
  | nil => exact .nil
  | cons c calls ih =>
      obtain ⟨hc, hcalls⟩ := List.forall_mem_cons.mp hfits
      cases haccept : T.accept (written ++ c.header) c.payload with
      | none => exact .failed haccept
      | some n =>
          have hone := h 1
          simp only [List.take_succ_cons, List.take_zero, sendAll_singleton,
            List.flatMap_singleton] at hone
          obtain rfl := length_of_appended hT hc haccept (hone (by rw [send_taken hT haccept]))
          refine .cons haccept (ih hcalls fun k hok => ?_)
          have hsucc := h (k + 1)
          rw [List.take_succ_cons, sendAll, send_whole hT hc haccept, Written.andThen] at hsucc
          rw [hsucc hok, List.flatMap_cons, List.append_assoc]

/-- **Frames and short writes.** Over a transport that takes something of what it is
offered, the stream is made of whole frames if and only if the one write of each
payload takes all of it. -/
theorem frames_intact_iff (hT : T.Live) (hfits : ∀ c ∈ calls, c.payload.length ≤ 65535)
    (written : Bytes) : Intact T calls written ↔ TakenWhole T calls written :=
  ⟨fun h => whole_of_appended hT hfits h.appended, fun h => h.intact hT hfits⟩

/-- A transport that takes up to `n` bytes at a time. -/
def Transport.upTo (n : ℕ) : Transport where
  accept _ offered := some (min n offered.length)
  accept_le h := by
    cases h
    exact Nat.min_le_right _ _

theorem Transport.live_upTo {n : ℕ} (hn : 0 < n) : (Transport.upTo n).Live := by
  intro written offered hne
  have hpos := List.length_pos_iff.mpr hne
  exact ⟨min n offered.length, by omega, rfl⟩

/-- Two frames over a transport that takes two bytes at a time. -/
theorem frames_intact_pairs :
    Intact (Transport.upTo 2) [⟨0, 2, [1, 2]⟩, ⟨5, 3, [7]⟩] [] :=
  (frames_intact_iff (Transport.live_upTo (by decide)) (by decide) []).mpr
    (.cons rfl (.cons rfl .nil))

/-- A payload of which half is taken. -/
theorem payload_cut : ¬ Intact (Transport.upTo 2) [⟨0, 2, [1, 2, 3, 4]⟩] [] := by
  intro h
  have hT : (Transport.upTo 2).Live := Transport.live_upTo (by decide)
  have hwhole := whole_of_appended hT (by decide) h.appended
  cases hwhole with
  | failed haccept => cases haccept
  | cons haccept _ => cases haccept

end Ouroboros.Mux
