import Ouroboros.Protocols.Acceptance
import Ouroboros.SerdeCbor.Codec

/-!
Block headers and their bytes.

A header is written as an array in an array, with its hash left out, and is read
with the hash of the bytes that it is read from. So a header comes back as it was
if its hash is that of its bytes, and with that hash otherwise.
-/

namespace Ouroboros

open Values

/-! ### The round trip -/

section Reads

variable {α : Type}

theorem integer_bind (f : Int → Cursor α) (n : Int) (vs : Values) :
    (integer >>= f) (.integer n :: vs) = f n vs := rfl

theorem bytes_bind (f : Bytes → Cursor α) (b : Bytes) (vs : Values) :
    (bytes >>= f) (.bytes b :: vs) = f b vs := rfl

theorem vrfPair_bind (f : Bytes × Bytes → Cursor α) (fst snd : Bytes) (vs : Values) :
    (vrfPair >>= f) (.array [.bytes fst, .bytes snd] :: vs) = f (fst, snd) vs := rfl

end Reads

namespace BlockHeader

theorem plain_toValues (header : BlockHeader) : Plain header.toValues := by
  have hpair (fst snd : Bytes) : (Value.array [.bytes fst, .bytes snd]).Plain 2 :=
    plain_array (by simp)
  have hinteger (n : Int64) : (Value.integer n.toInt).Plain 2 := plain_i64 n 2
  intro v hv
  obtain rfl := List.mem_singleton.mp hv
  apply plain_array
  simp only [List.forall_mem_cons, List.not_mem_nil, false_implies, implies_true, and_true,
    plain_bytes, true_and]
  exact ⟨hinteger _, hinteger _, hpair _ _, hpair _ _, hinteger _, hinteger _, hinteger _,
    hinteger _, hinteger _⟩

/-- What was written is read back, with the hash of the bytes. -/
theorem tryInto_toValues {S : SerdeCbor} (blake2b : Bytes → Bytes) {w : WrappedBlockHeader}
    {header : BlockHeader} (h : S.fromSlice w.bytes = .ok header.toValues) :
    tryInto S blake2b w = .ok { header with hash := w.hash blake2b } := by
  simp only [tryInto, h, Outcome.ofExcept_ok, Outcome.ok_bind, toValues, Cursor.eval]
  rw [Cursor.bind_apply, array_cons]
  simp only [integer_bind, bytes_bind, vrfPair_bind, Int64.ofInt_toInt]
  rfl

end BlockHeader

theorem WrappedBlockHeader.tryFrom_ok {S : SerdeCbor} (hS : S.Lawful) (header : BlockHeader) :
    ∃ w, tryFrom S header = .ok w ∧ S.fromSlice w.bytes = .ok header.toValues := by
  obtain ⟨b, hb⟩ := hS.toVec_ok _ header.plain_toValues
  exact ⟨⟨b⟩, by rw [tryFrom, hb]; rfl, hS.fromSlice _ b header.plain_toValues hb⟩

/-- One array, of the fifteen items of a header. -/
inductive HeaderShape : Values → Prop
  | mk (blockNumber slotNumber : Int)
      (prevHash nodeVkey nodeVrfVkey etaVrf0 etaVrf1 leaderVrf0 leaderVrf1 : Bytes)
      (blockSize : Int) (blockBodyHash poolOpcert : Bytes) (unknown0 unknown1 : Int)
      (unknown2 : Bytes) (protocolMajorVersion protocolMinorVersion : Int) :
      HeaderShape [.array [.integer blockNumber, .integer slotNumber, .bytes prevHash,
        .bytes nodeVkey, .bytes nodeVrfVkey, .array [.bytes etaVrf0, .bytes etaVrf1],
        .array [.bytes leaderVrf0, .bytes leaderVrf1], .integer blockSize, .bytes blockBodyHash,
        .bytes poolOpcert, .integer unknown0, .integer unknown1, .bytes unknown2,
        .integer protocolMajorVersion, .integer protocolMinorVersion]]

theorem headerShape_toValues (h : BlockHeader) : HeaderShape h.toValues :=
  .mk _ _ _ _ _ _ _ _ _ _ _ _ _ _ _ _ _

/-- With integers in range, the shape is that of the headers that are written. -/
theorem HeaderShape.eq_toValues {vs : Values} (h : HeaderShape vs)
    (hfits : Fits (headerFields vs)) : ∃ header : BlockHeader, vs = header.toValues := by
  obtain ⟨n₁, n₂, prevHash, nodeVkey, nodeVrfVkey, etaVrf0, etaVrf1, leaderVrf0, leaderVrf1, n₃,
    blockBodyHash, poolOpcert, n₄, n₅, unknown2, n₆, n₇⟩ := h
  simp only [headerFields, List.filterMap_cons, Value.integer?, List.filterMap_nil, List.map_cons,
    List.map_nil, fits_cons, fits_nil, and_true, ← Width.cast_eq_iff, Width.cast] at hfits
  obtain ⟨h₁, h₂, h₃, h₄, h₅, h₆, h₇⟩ := hfits
  refine ⟨⟨.ofInt n₁, .ofInt n₂, [], prevHash, nodeVkey, nodeVrfVkey, etaVrf0, etaVrf1, leaderVrf0,
    leaderVrf1, .ofInt n₃, blockBodyHash, poolOpcert, .ofInt n₄, .ofInt n₅, unknown2, .ofInt n₆,
    .ofInt n₇⟩, ?_⟩
  rw [BlockHeader.toValues, h₁, h₂, h₃, h₄, h₅, h₆, h₇]

/-- What is read as a header is its values. -/
theorem BlockHeader.eq_toValues {S : SerdeCbor} {blake2b : Bytes → Bytes} {w : WrappedBlockHeader}
    {vs : Values} {header : BlockHeader} (hvs : S.fromSlice w.bytes = .ok vs)
    (hfits : Fits (headerFields vs)) (h : BlockHeader.tryInto S blake2b w = .ok header) :
    vs = header.toValues ∧ header.hash = w.hash blake2b := by
  obtain ⟨n₁, n₂, n₃, n₄, n₅, n₆, n₇, rfl, -⟩ := BlockHeader.tryInto_ok hvs h
  obtain ⟨header', heq⟩ := (HeaderShape.mk _ _ _ _ _ _ _ _ _ _ _ _ _ _ _ _ _).eq_toValues hfits
  rw [heq] at hvs ⊢
  have hread := BlockHeader.tryInto_toValues blake2b hvs
  obtain rfl := Outcome.ok.inj (h.symm.trans hread)
  exact ⟨rfl, rfl⟩

/-- **The header decoder accepts what the encoder writes.** Let the bytes be read as
the values `vs`, with integers in range. The conversion succeeds if and only if `vs`
has the shape of a header. Then the header has these values, also when it is written
and read again, and the hash of the bytes it was read from. In every other case the
conversion returns an error. -/
theorem header_accepts_iff {S : SerdeCbor} (hS : S.Lawful) (blake2b : Bytes → Bytes) {b : Bytes}
    {vs : Values} (hb : S.fromSlice b = .ok vs) (hfits : Fits (headerFields vs)) :
    ((∃ h, BlockHeader.tryInto S blake2b ⟨b⟩ = .ok h) ↔ HeaderShape vs) ∧
      (∀ h, BlockHeader.tryInto S blake2b ⟨b⟩ = .ok h →
        vs = h.toValues ∧ h.hash = blake2b b ∧
          ∃ w, WrappedBlockHeader.tryFrom S h = .ok w ∧ S.fromSlice w.bytes = .ok vs) ∧
      (¬ HeaderShape vs → ∃ e, BlockHeader.tryInto S blake2b ⟨b⟩ = .err e) := by
  have hiff : (∃ h, BlockHeader.tryInto S blake2b ⟨b⟩ = .ok h) ↔ HeaderShape vs := by
    constructor
    · rintro ⟨h, hread⟩
      rw [(BlockHeader.eq_toValues hb hfits hread).1]
      exact headerShape_toValues h
    · intro hshape
      obtain ⟨h, rfl⟩ := hshape.eq_toValues hfits
      exact ⟨_, BlockHeader.tryInto_toValues blake2b hb⟩
  refine ⟨hiff, fun h hread => ?_, fun hshape => ?_⟩
  · obtain ⟨rfl, hhash⟩ := BlockHeader.eq_toValues hb hfits hread
    exact ⟨rfl, hhash, WrappedBlockHeader.tryFrom_ok hS h⟩
  · have hreturns := BlockHeader.tryInto_returns S blake2b ⟨b⟩
    cases hread : BlockHeader.tryInto S blake2b ⟨b⟩ with
    | ok h => exact absurd (hiff.mp ⟨h, hread⟩) hshape
    | err e => exact ⟨e, rfl⟩
    | panic e => exact absurd hread (hreturns e)

/-- A header with an integer that is not in its shortest form. -/
theorem header_accepts_long :
    ∃ h : BlockHeader, h.blockNumber = 1 ∧
      h.hash = [0x81, 0x8f, 0x18, 1, 0, 0x40, 0x40, 0x40, 0x82, 0x40, 0x40, 0x82, 0x40, 0x40, 0,
        0x40, 0x40, 0, 0, 0x40, 0, 0] ∧
      BlockHeader.tryInto Cbor.serdeCbor id ⟨[0x81, 0x8f, 0x18, 1, 0, 0x40, 0x40, 0x40, 0x82, 0x40,
        0x40, 0x82, 0x40, 0x40, 0, 0x40, 0x40, 0, 0, 0x40, 0, 0]⟩ = .ok h := by
  have hvs : Cbor.serdeCbor.fromSlice [0x81, 0x8f, 0x18, 1, 0, 0x40, 0x40, 0x40, 0x82, 0x40, 0x40,
      0x82, 0x40, 0x40, 0, 0x40, 0x40, 0, 0, 0x40, 0, 0] =
      .ok [.array [.integer 1, .integer 0, .bytes [], .bytes [], .bytes [],
        .array [.bytes [], .bytes []], .array [.bytes [], .bytes []], .integer 0, .bytes [],
        .bytes [], .integer 0, .integer 0, .bytes [], .integer 0, .integer 0]] := rfl
  obtain ⟨hiff, hread, -⟩ := header_accepts_iff Cbor.serdeCbor_lawful id hvs
    (by simp [headerFields, List.filterMap_cons, Value.integer?, Width.Holds])
  obtain ⟨h, hh⟩ := hiff.mpr (.mk _ _ _ _ _ _ _ _ _ _ _ _ _ _ _ _ _)
  obtain ⟨hvalues, hhash, -⟩ := hread h hh
  refine ⟨h, ?_, hhash, hh⟩
  simp only [BlockHeader.toValues, List.cons.injEq, Value.array.injEq, Value.integer.injEq]
    at hvalues
  exact Int64.toInt_inj.mp hvalues.1.1.symm

end Ouroboros
