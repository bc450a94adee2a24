import Ouroboros.Mux.Frame
import Ouroboros.Protocols.Chainsync
import Ouroboros.SerdeCbor.Codec
import Mathlib.Data.List.Forall2

/-!
Payloads across the connection.

`send` writes the whole payload behind a length word that counts modulo `2 ^ 16`.
The two agree on a payload of up to 65535 bytes, and its frame is read back. A
longer payload does not come back as one frame, as its header announces less,
nor as several: they would need a header each, and the bytes on the wire leave
room for one.
-/

namespace Ouroboros.Mux

open BigEndian Streaming Framing

/-- A call of `Connection::send`, with what the clock says then. -/
structure Call where
  timestamp : UInt32
  idx : UInt16
  payload : Payload

namespace Call

def header (c : Call) : Bytes :=
  bytes 4 c.timestamp.toNat ++ bytes 2 c.idx.toNat ++ bytes 2 (UInt16.ofNat c.payload.length).toNat

def wire (c : Call) : Bytes := c.header ++ c.payload

@[simp] theorem length_header (c : Call) : c.header.length = 8 := by
  simp [header]

theorem length_wire (c : Call) : c.wire.length = 8 + c.payload.length := by
  rw [wire, List.length_append, c.length_header]

theorem idxOf_header (c : Call) : idxOf c.header = c.idx ^^^ 0x8000 := by
  have hdrop : (c.header.drop 4).take 2 = bytes 2 c.idx.toNat := by
    rw [header, List.append_assoc, List.drop_left' (bytes_length 4 _),
      List.take_left' (bytes_length 2 _)]
  rw [idxOf, hdrop, value_bytes_of_lt c.idx.toNat_lt, UInt16.ofNat_toNat]

theorem length_announced (c : Call) : format.length c.header = c.payload.length % 2 ^ 16 := by
  have hdrop : c.header.drop 6 = bytes 2 (UInt16.ofNat c.payload.length).toNat := by
    rw [header, List.drop_left' (by simp)]
  show value (c.header.drop 6) = c.payload.length % 2 ^ 16
  rw [hdrop, value_bytes_of_lt (UInt16.toNat_lt _), UInt16.toNat_ofNat']

/-- The frame of a payload whose length fits its word. -/
def frame (c : Call) (h : c.payload.length < 2 ^ 16) : Frame where
  header := c.header
  payload := c.payload
  header_length := c.length_header
  payload_length := by rw [c.length_announced, Nat.mod_eq_of_lt h]

end Call

/-- The calls one after the other, as long as none of them panics. -/
def sendAll (T : Transport) (calls : List Call) (written : Bytes) : Written :=
  match calls with
  | [] => (.ok (), written)
  | c :: calls => (send T c.timestamp c.idx c.payload written).andThen (sendAll T calls)

variable {T : Transport}

theorem send_greedy (hT : T.Greedy) (c : Call) (written : Bytes) :
    send T c.timestamp c.idx c.payload written = (.ok (), written ++ c.wire) := by
  simp only [send, writeAll_live hT.live, Written.andThen, write, hT _ c.payload, List.take_length]
  simp only [Call.wire, Call.header, List.append_assoc]

theorem sendAll_greedy (hT : T.Greedy) (calls : List Call) (written : Bytes) :
    sendAll T calls written = (.ok (), written ++ calls.flatMap Call.wire) := by
  induction calls generalizing written with
  | nil => simp [sendAll]
  | cons c calls ih =>
      rw [sendAll, send_greedy hT, Written.andThen, ih, List.flatMap_cons, List.append_assoc]

/-- The frames of `group` carry the payload of the call, and no other. -/
def Call.CarriedBy (c : Call) (group : List (UInt16 × Payload)) : Prop :=
  (∀ f ∈ group, f.1 = c.idx ^^^ 0x8000) ∧ group.flatMap Prod.snd = c.payload

/-- Every call returns, and the loop at the other end recovers its payload, from one
frame or from several, and is between two frames after it. -/
def Recovered (T : Transport) (calls : List Call) : Prop :=
  (sendAll T calls []).1 = .ok () ∧
    ∃ groups, List.Forall₂ Call.CarriedBy calls groups ∧
      ∀ k ≤ calls.length,
        demux (sendAll T (calls.take k) []).2 = ((groups.take k).flatten, .done)

/-- Payloads that fit come back in one frame each. -/
theorem demux_wire {calls : List Call} (h : ∀ c ∈ calls, c.payload.length ≤ 65535) :
    demux (calls.flatMap Call.wire) =
      (calls.map fun c => (c.idx ^^^ 0x8000, c.payload), .done) := by
  have hframes : ∃ fs : List Frame, calls.flatMap Call.wire = encode fs ∧
      fs.map Frame.dispatched = calls.map fun c => (c.idx ^^^ 0x8000, c.payload) := by
    induction calls with
    | nil => exact ⟨[], rfl, rfl⟩
    | cons c calls ih =>
        obtain ⟨hc, hcalls⟩ := List.forall_mem_cons.mp h
        obtain ⟨fs, hfs, hmap⟩ := ih hcalls
        refine ⟨c.frame (by omega) :: fs, by rw [List.flatMap_cons, hfs]; rfl, ?_⟩
        rw [List.map_cons, List.map_cons, hmap, ← c.idxOf_header]
        rfl
  obtain ⟨fs, hfs, hmap⟩ := hframes
  rw [demux, parse_done_iff.mpr hfs, hmap]

/-- If the wire of a call is a whole number of frames that carry its payload, there is
one of them, and the payload fits. -/
theorem Call.fits_of_carriedBy {c : Call} {fs : List Frame} (hwire : c.wire = encode fs)
    (hcarried : c.CarriedBy (fs.map Frame.dispatched)) : c.payload.length ≤ 65535 := by
  have hencode : ∀ fs : List Frame, (encode fs).length =
      8 * fs.length + ((fs.map Frame.dispatched).flatMap Prod.snd).length := by
    intro fs
    induction fs with
    | nil => rfl
    | cons f fs ih =>
        have hsize : format.size = 8 := rfl
        simp only [encode_cons, List.length_append, f.length_bytes, ih, List.length_cons,
          List.map_cons, List.flatMap_cons, Frame.dispatched, hsize]
        omega
  have hlen := hencode fs
  rw [← hwire, hcarried.2, c.length_wire] at hlen
  -- eight bytes of header on the wire, and eight for each frame
  have hone : fs.length = 1 := by omega
  obtain ⟨f, rfl⟩ := List.length_eq_one_iff.mp hone
  have hpayload : f.payload = c.payload := by
    simpa [Frame.dispatched] using hcarried.2
  have hlt := f.payload_length_lt
  rw [hpayload] at hlt
  omega

theorem Recovered.fits (hT : T.Greedy) {calls : List Call} (h : Recovered T calls) :
    ∀ c ∈ calls, c.payload.length ≤ 65535 := by
  obtain ⟨-, groups, hgroups, hdemux⟩ := h
  intro c hc
  obtain ⟨k, hk, rfl⟩ := List.getElem_of_mem hc
  have hlen := hgroups.length_eq
  -- the streams before and after the call are whole numbers of frames
  have hstream : ∀ k ≤ calls.length, ∃ fs : List Frame,
      (calls.take k).flatMap Call.wire = encode fs ∧
        fs.map Frame.dispatched = (groups.take k).flatten := by
    intro k hk
    have h := hdemux k hk
    rw [sendAll_greedy hT, List.nil_append, demux] at h
    obtain ⟨hmap, hdone⟩ := Prod.mk.inj h
    exact ⟨_, parse_done_iff.mp (Prod.ext rfl hdone), hmap⟩
  obtain ⟨fs, hfs, hmap⟩ := hstream k (Nat.le_of_lt hk)
  obtain ⟨gs, hgs, hmap'⟩ := hstream (k + 1) hk
  rw [List.take_succ_eq_append_getElem hk, List.flatMap_append, hfs] at hgs
  obtain ⟨rest, rfl, hrest⟩ := encode_append_eq hgs
  rw [List.take_succ_eq_append_getElem (hlen ▸ hk), List.flatten_append, List.map_append,
    hmap] at hmap'
  have hwire : calls[k].wire = encode rest := by simpa using hrest
  apply Call.fits_of_carriedBy hwire
  rw [List.append_cancel_left hmap', List.flatten_singleton]
  exact hgroups.get hk (hlen ▸ hk)

/-- **The framing round trip.** Over a transport that takes every byte it is offered,
the payloads of a sequence of calls are recovered if and only if each of them has
at most 65535 bytes. -/
theorem framing_round_trip (hT : T.Greedy) (calls : List Call) :
    Recovered T calls ↔ ∀ c ∈ calls, c.payload.length ≤ 65535 := by
  refine ⟨Recovered.fits hT, fun hfits => ⟨by rw [sendAll_greedy hT],
    calls.map fun c => [(c.idx ^^^ 0x8000, c.payload)], ?_, fun k hk => ?_⟩⟩
  · rw [List.forall₂_map_right_iff]
    exact List.forall₂_same.mpr fun c _ => ⟨by simp, by simp⟩
  · rw [sendAll_greedy hT, List.nil_append,
      demux_wire fun c hc => hfits c (List.mem_of_mem_take hc), ← List.map_take,
      ← List.flatMap_def, ← List.map_eq_flatMap]

/-- A transport that takes everything. -/
def Transport.greedy : Transport where
  accept _ offered := some offered.length
  accept_le h := by
    cases h
    exact Nat.le_refl _

/-- Two calls, the second with nothing to say. -/
theorem framing_round_trip_two :
    Recovered Transport.greedy [⟨0, 2, [1, 2, 3]⟩, ⟨5, 0x8002, []⟩] :=
  (framing_round_trip (fun _ _ => rfl) _).mpr (by decide)

/-- The message of a list of points is at least as long as the list. -/
theorem length_findIntersect (points : List Point) :
    ∃ w, (Chainsync.protocol Cbor.serdeCbor id).toBytes Cbor.serdeCbor (.findIntersect points) =
      .ok w ∧ points.length ≤ w.length := by
  have hvalues : ∀ values, values.length ≤ (Cbor.encodeValues values).length := by
    intro values
    induction values with
    | nil => exact Nat.zero_le _
    | cons v vs ih =>
        have hv : 0 < (Cbor.encode v).length := List.length_pos_iff.mpr (Cbor.encode_ne_nil v)
        rw [Cbor.encodeValues, List.length_append, List.length_cons]
        omega
  refine ⟨_, rfl, ?_⟩
  have hpoints := hvalues (points.map fun point =>
    .array [.integer point.slot.toNat, .bytes point.hash])
  rw [List.length_map] at hpoints
  simp only [Cbor.encodeValues, Cbor.encode, Chainsync.Message.toValues, List.length_append]
  omega

/-- A query for 65536 points does not come back. -/
theorem findIntersect_not_recovered :
    ∃ w, (Chainsync.protocol Cbor.serdeCbor id).toBytes Cbor.serdeCbor
        (.findIntersect (List.replicate 65536 ⟨0, []⟩)) = .ok w ∧
      ¬ Recovered Transport.greedy [⟨0, 2, w⟩] := by
  obtain ⟨w, hw, hlen⟩ := length_findIntersect (List.replicate 65536 ⟨0, []⟩)
  refine ⟨w, hw, fun hrecovered => ?_⟩
  have hfits := hrecovered.fits (fun _ _ => rfl) _ List.mem_cons_self
  rw [List.length_replicate] at hlen
  simp only at hfits
  omega

end Ouroboros.Mux
