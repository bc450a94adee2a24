import Ouroboros.Protocols.ChainsyncCodec
import Ouroboros.Protocols.BlockfetchCodec
import Ouroboros.Protocols.HandshakeCodec

/-!
Integers of the wire in the fields of decoded values.

Every decoder reads an `i128` and stores what `as` makes of it. What is stored is
the number on the wire exactly if that number is in the range of the field; no
decoder looks, and the others wrap around.
-/

set_option linter.dupNamespace false

namespace Ouroboros

theorem narrowed_append (fields fields' : List Field) :
    narrowed (fields ++ fields') = narrowed fields ++ narrowed fields' := List.map_append

end Ouroboros

namespace Ouroboros.Chainsync.Message

def stored : Message → List Int
  | .rollForward _ tip => tip.stored
  | .rollBackward point tip => point.stored ++ tip.stored
  | .findIntersect points => points.flatMap Point.stored
  | .intersectFound point tip => point.stored ++ tip.stored
  | .intersectNotFound tip => tip.stored
  | .requestNext | .awaitReply | .done => []

theorem stored_points {read : List Values} {points : List Point}
    (h : List.Forall₂ (fun vs point => Point.tryInto vs = .ok point) read points) :
    points.flatMap Point.stored = narrowed (read.flatMap pointFields) := by
  induction h with
  | nil => rfl
  | cons hpoint _ ih =>
      rw [List.flatMap_cons, List.flatMap_cons, narrowed_append, ← Point.stored_eq hpoint, ih]

theorem stored_eq {vals : Values} {m : Message} (h : fromIter.eval vals = .ok m) :
    m.stored = narrowed (fields vals) := by
  cases accepts_iff.mp h with
  | rollForward _ htip => exact Tip.stored_eq htip
  | rollBackward hpoint htip =>
      rw [fields, narrowed_append, ← Point.stored_eq hpoint, ← Tip.stored_eq htip]
      rfl
  | findIntersect hpoints =>
      obtain ⟨read, rest, rfl, hread, hrest⟩ := readPoints_ok_iff.mp hpoints
      rw [fields_findIntersect read hrest]
      exact stored_points hread
  | intersectFound hpoint htip =>
      rw [fields, narrowed_append, ← Point.stored_eq hpoint, ← Tip.stored_eq htip]
      rfl
  | intersectNotFound htip => exact Tip.stored_eq htip
  | _ => rfl

end Ouroboros.Chainsync.Message

namespace Ouroboros.Blockfetch.Message

def stored : Message → List Int
  | .requestRange first last => first.stored ++ last.stored
  | _ => []

theorem stored_eq {vals : Values} {m : Message} (h : fromIter.eval vals = .ok m) :
    m.stored = narrowed (fields vals) := by
  cases accepts_of_fromIter h with
  | requestRange hfirst hlast =>
      rw [fields, narrowed_append, ← Point.stored_eq hfirst, ← Point.stored_eq hlast]
      rfl
  | _ => rfl

end Ouroboros.Blockfetch.Message

namespace Ouroboros.Handshake

open Values

/-- The number of a version, with its flag, and the magic. -/
def Version.stored (version : Version) (magic : UInt32) : List Int :=
  [version.number, magic.toNat]

/-- The number and the magic of an entry in a proposal. -/
def Version.fields (key value : Value) : List Field :=
  match key, value with
  | .integer version, .integer magic => [⟨.u32, version⟩, ⟨.u32, magic⟩]
  | .integer version, .array (.integer magic :: _) => [⟨.u32, version⟩, ⟨.u32, magic⟩]
  | _, _ => []

theorem Version.stored_fromValues {key value : Value} {version : Version} {magic : UInt32}
    (h : fromValues key value = .ok (version, magic)) :
    version.stored magic = narrowed (fields key value) := by
  cases key with
  | integer n =>
      -- the flag is taken out of the number and put back
      have hflag : 0x8000 ^^^ (0x8000 ^^^ UInt32.ofInt n).toNat = (UInt32.ofInt n).toNat := by
        rw [UInt32.toNat_xor, ← Nat.xor_assoc]
        exact (congrArg (· ^^^ _) (Nat.xor_self _)).trans (Nat.zero_xor _)
      simp only [fromValues] at h
      split_ifs at h with h₃ h₇ h₉
      · split at h
        · cases h
          rfl
        · cases h
      · split at h
        · split at h
          · split at h
            · cases h
              rfl
            · cases h
          · cases h
        · cases h
      · split at h
        · cases h
          rw [stored, number, Int.toNat_natCast, hflag]
          rfl
        · cases h
  | _ => cases h

/-- The number of an accepted version is the sixteen bits on the wire. -/
theorem Version.number_fromU16 (k : UInt16) : (fromU16 k).number = k.toNat := by
  rw [fromU16]
  split_ifs
  · rw [number, Int.toNat_natCast, UInt16.toNat_xor, Nat.xor_comm, Nat.xor_assoc]
    exact (congrArg (k.toNat ^^^ ·) (Nat.xor_self _)).trans (Nat.xor_zero _)
  · rfl

namespace Message

def stored : Message → List Int
  | .proposeVersions versions => versions.flatMap fun v => v.1.stored v.2
  | .acceptVersion version magic => version.stored magic
  | .refuse => []

def fields : Values → List Field
  | .integer 0 :: .map entries :: _ => entries.flatMap fun e => Version.fields e.1 e.2
  | .integer 1 :: .integer version :: .array (.integer magic :: _) :: _ =>
    [⟨.u16, version⟩, ⟨.u32, magic⟩]
  | _ => []

theorem stored_entries {entries : List (Value × Value)} {versions : List (Version × UInt32)}
    (h : List.Forall₂ (fun e v => Version.fromValues e.1 e.2 = .ok v) entries versions) :
    (versions.flatMap fun v => v.1.stored v.2) =
      narrowed (entries.flatMap fun e => Version.fields e.1 e.2) := by
  induction h with
  | nil => rfl
  | cons he _ ih =>
      rw [List.flatMap_cons, List.flatMap_cons, narrowed_append, ih, Version.stored_fromValues he]

theorem stored_eq {vals : Values} {m : Message} (h : fromIter.eval vals = .ok m) :
    m.stored = narrowed (fields vals) := by
  cases accepts_iff.mp h with
  | proposeVersions hversions => exact stored_entries hversions
  | acceptVersion n magic items rest =>
      rw [stored, Version.stored, Version.number_fromU16]
      rfl
  | refuse reason rest => rfl

end Message

end Ouroboros.Handshake

namespace Ouroboros

/-- A decoder accepts the values; `fields` are the integers in the positions of its
fields, and `stored` is what it stores of them. -/
inductive Decodes (S : SerdeCbor) (blake2b : Bytes → Bytes) :
    Values → List Field → List Int → Prop
  | point {vs : Values} {point : Point} : Point.tryInto vs = .ok point →
      Decodes S blake2b vs (pointFields vs) point.stored
  | tip {vs : Values} {tip : Tip} : Tip.tryInto vs = .ok tip →
      Decodes S blake2b vs (tipFields vs) tip.stored
  | header {vs : Values} {w : WrappedBlockHeader} {header : BlockHeader} :
      S.fromSlice w.bytes = .ok vs → BlockHeader.tryInto S blake2b w = .ok header →
      Decodes S blake2b vs (headerFields vs) header.stored
  | version {key value : Value} {version : Handshake.Version} {magic : UInt32} :
      Handshake.Version.fromValues key value = .ok (version, magic) →
      Decodes S blake2b [key, value] (Handshake.Version.fields key value) (version.stored magic)
  | handshake {vs : Values} {m : Handshake.Message} : Handshake.Message.fromIter.eval vs = .ok m →
      Decodes S blake2b vs (Handshake.Message.fields vs) m.stored
  | chainsync {vs : Values} {m : Chainsync.Message} : Chainsync.Message.fromIter.eval vs = .ok m →
      Decodes S blake2b vs (Chainsync.Message.fields vs) m.stored
  | blockfetch {vs : Values} {m : Blockfetch.Message} :
      Blockfetch.Message.fromIter.eval vs = .ok m →
      Decodes S blake2b vs (Blockfetch.Message.fields vs) m.stored

variable {S : SerdeCbor} {blake2b : Bytes → Bytes} {vs : Values} {fields : List Field}
  {stored : List Int}

/-- What a decoder stores are the casts of what was on the wire. -/
theorem Decodes.narrowed (h : Decodes S blake2b vs fields stored) : stored = narrowed fields := by
  cases h with
  | point h => exact Point.stored_eq h
  | tip h => exact Tip.stored_eq h
  | header hvs h => exact BlockHeader.stored_eq hvs h
  | version h => exact Handshake.Version.stored_fromValues h
  | handshake h => exact Handshake.Message.stored_eq h
  | chainsync h => exact Chainsync.Message.stored_eq h
  | blockfetch h => exact Blockfetch.Message.stored_eq h

/-- **Integers from the wire.** Of accepted values, every integer is stored as it was
on the wire if and only if every integer is in the range of its field. -/
theorem integers_kept_iff (h : Decodes S blake2b vs fields stored) :
    stored = fields.map Field.wire ↔ Fits fields := by
  rw [h.narrowed, narrowed_eq_iff]

/-- A tip below block 0. -/
theorem integers_kept_tip : (⟨-1, 7, []⟩ : Tip).stored = [7, -1] := by
  have hdecodes : Decodes Cbor.serdeCbor id [.array [.integer 7, .bytes []], .integer (-1)]
      [⟨.u64, 7⟩, ⟨.i64, -1⟩] (⟨-1, 7, []⟩ : Tip).stored := .tip rfl
  refine (integers_kept_iff hdecodes).mpr ?_
  simp [Width.Holds]

/-- The slot -1 is accepted, and stored as 2⁶⁴ - 1. Nor does the check of version
numbers see that the number 2³² + 6 is none. -/
theorem integers_wrapped :
    (∃ fields stored, Decodes Cbor.serdeCbor id [.integer (-1), .bytes []] fields stored ∧
        stored = [0xffffffffffffffff] ∧ stored ≠ fields.map Field.wire) ∧
      Handshake.Version.fromValues (.integer 0x100000006) (.array [.integer 0, .bool false]) =
        .ok (.n2n 6, 0) := by
  have haccepted : Point.tryInto [.integer (-1), .bytes []] = .ok ⟨0xffffffffffffffff, []⟩ :=
    Point.tryInto_ok_iff.mpr ⟨-1, rfl, by decide⟩
  exact ⟨⟨_, _, .point haccepted, rfl, by decide⟩, rfl⟩

end Ouroboros
