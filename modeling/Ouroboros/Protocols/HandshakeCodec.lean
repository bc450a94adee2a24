import Ouroboros.Library.KeyedList
import Ouroboros.Protocols.Acceptance
import Ouroboros.Protocols.Handshake
import Ouroboros.SerdeCbor.Codec
import Mathlib.Data.Nat.Bitwise

/-!
The codec of the handshake messages.

The map of a proposal is the map that `KeyedList.ofList` makes of its versions, by
their numbers on the wire. A proposal of supported versions in ascending order is
written as a map with the same entries in the same order, and the acceptance of a
version with a number of fifteen bits is read back as well. The refusal is not: it is
written with the tag of an acceptance, and the decoder expects a version behind it.
-/

namespace Ouroboros.Handshake

open Values KeyedList

/-! ### Versions and their numbers -/

/-- The flag of the node-to-client versions. -/
theorem flag_iff (k : UInt16) : k &&& 0x8000 ≠ 0 ↔ k.toNat.testBit 15 = true := by
  have htop : (0x8000 : UInt16).toNat = 2 ^ 15 := by decide
  rw [ne_eq, ← UInt16.toNat_inj, UInt16.toNat_and, htop, Nat.and_two_pow]
  cases k.toNat.testBit 15 <;> simp

namespace Version

/-- The versions that `toValues` and `fromValues` know. -/
def Supported : Version → Prop
  | .n2n v => 1 ≤ v ∧ v ≤ 7
  | .c2n v => 1 ≤ v ∧ v ≤ 9

/-- The number of a version on the wire. -/
def number : Version → ℕ
  | .n2n v => v.toNat
  | .c2n v => 0x8000 ^^^ v.toNat

theorem number_lt {v : Version} (h : v.Supported) : v.number < 2 ^ 64 := by
  cases v <;> obtain ⟨hlo, hhi⟩ := h <;> rename_i v <;> interval_cases v <;> decide

/-- The numbers that an acceptance can carry. -/
def Short : Version → Prop
  | .n2n v => 0 ≤ v ∧ v < 0x8000
  | .c2n v => 0 ≤ v ∧ v < 0x8000

theorem tryU16_short {v : Int} (h : 0 ≤ v ∧ v < 0x8000) :
    ∃ k : UInt16, tryU16 v = .ok k ∧ (k.toNat : Int) = v ∧ k.toNat.testBit 15 = false := by
  have hrange : 0 ≤ v ∧ v < 2 ^ 16 := by omega
  have hk : ((UInt16.ofInt v).toNat : Int) = v := (Width.u16.cast_eq_iff v).mpr hrange
  refine ⟨UInt16.ofInt v, by rw [tryU16, if_pos hrange], hk, ?_⟩
  apply Nat.testBit_lt_two_pow
  omega

theorem fromU16_toU16 {v : Version} (h : v.Short) : ∃ k, v.toU16 = .ok k ∧ fromU16 k = v := by
  cases v with
  | n2n v =>
      obtain ⟨k, hk, rfl, hbit⟩ := tryU16_short h
      have hflag : ¬ k &&& 0x8000 ≠ 0 := by
        rw [flag_iff, hbit]
        decide
      exact ⟨k, hk, by rw [fromU16, if_neg hflag]⟩
  | c2n v =>
      obtain ⟨k, hk, rfl, hbit⟩ := tryU16_short h
      have hflag : (0x8000 ^^^ k) &&& 0x8000 ≠ 0 := by
        rw [flag_iff, UInt16.toNat_xor, Nat.testBit_xor, hbit]
        decide
      refine ⟨0x8000 ^^^ k, ?_, ?_⟩
      · rw [toU16, hk]
        rfl
      · rw [fromU16, if_pos hflag, UInt16.xor_comm, ← UInt16.xor_assoc, UInt16.xor_self,
          UInt16.zero_xor]

theorem Supported.short {v : Version} (h : v.Supported) : v.Short := by
  cases v with
  | n2n v =>
      obtain ⟨hlo, hhi⟩ := h
      exact ⟨by omega, by omega⟩
  | c2n v =>
      obtain ⟨hlo, hhi⟩ := h
      exact ⟨by omega, by omega⟩

/-- The entry of a supported version has a plain value, and the version and the
magic are read back from it. -/
theorem fromValues_toValues {v : Version} (h : v.Supported) (magic : UInt32) :
    ∃ value, v.toValues magic = .ok (.integer v.number, value) ∧
      fromValues (.integer v.number) value = .ok (v, magic) ∧ value.Plain 2 := by
  have hlt := magic.toNat_lt
  have hok (v : Version) := congrArg (fun m => Outcome.ok (v, m)) (u32_ofInt_toNat magic)
  have hplain : (Value.integer magic.toNat).Plain 2 := plain_integer.mpr ⟨by omega, by omega⟩
  have hparams : (Value.array [.integer magic.toNat, .bool false]).Plain 2 :=
    plain_array (by simp [Value.Plain]; omega)
  cases v with
  | n2n v =>
      obtain ⟨hlo, hhi⟩ := h
      by_cases hv : v ≤ 3
      · interval_cases v <;> exact ⟨_, rfl, hok _, hplain⟩
      · have hlo' : 4 ≤ v := by omega
        interval_cases v <;> exact ⟨_, rfl, hok _, hparams⟩
  | c2n v =>
      obtain ⟨hlo, hhi⟩ := h
      interval_cases v <;> exact ⟨_, rfl, hok _, hplain⟩

/-- The entry of a supported version in a proposal. -/
def entry (v : Version × UInt32) : Value × Value :=
  (.integer v.1.number,
    match v.1.toValues v.2 with
    | .ok (_, value) => value
    | .err _ | .panic _ => .null)

theorem entry_spec {v : Version × UInt32} (h : v.1.Supported) :
    (v.1.toValues v.2).unwrap = .ok (entry v) ∧
      fromValues (entry v).1 (entry v).2 = .ok v ∧ (entry v).2.Plain 2 := by
  obtain ⟨value, hto, hfrom, hplain⟩ := fromValues_toValues h v.2
  simp only [entry, hto]
  exact ⟨rfl, hfrom, hplain⟩

end Version

namespace Message

/-! ### The map of a proposal -/

section

open Version

variable {versions : List (Version × UInt32)}

theorem mapM_toValues (h : ∀ v ∈ versions, v.1.Supported) :
    (versions.mapM fun (v, m) => (v.toValues m).unwrap) = .ok (versions.map entry) := by
  induction versions with
  | nil => rfl
  | cons v versions ih =>
      obtain ⟨hv, hversions⟩ := List.forall_mem_cons.mp h
      have hentry : (match v with | (v, m) => (v.toValues m).unwrap) = .ok (entry v) :=
        (entry_spec hv).1
      rw [List.mapM_cons, hentry, ih hversions]
      rfl

theorem mapM_fromValues (h : ∀ v ∈ versions, v.1.Supported) :
    ((versions.map entry).mapM fun e => Version.fromValues e.1 e.2) = .ok versions := by
  induction versions with
  | nil => rfl
  | cons v versions ih =>
      obtain ⟨hv, hversions⟩ := List.forall_mem_cons.mp h
      rw [List.map_cons, List.mapM_cons, (entry_spec hv).2.1, ih hversions]
      rfl

/-- The key of a version in the map of a proposal. -/
def key (v : Version × UInt32) : ℕ := v.1.number

/-- `BTreeMap::insert` is the insertion by number. -/
theorem insert_entry {S : SerdeCbor} (hS : S.Lawful) (v : Version × UInt32) :
    insert S (entry v) (versions.map entry) = (KeyedList.insert key v versions).map entry := by
  induction versions with
  | nil => rfl
  | cons w versions ih =>
      have hcmp : S.cmp (entry v).1 (entry w).1 = compare (key v) (key w) := hS.cmp_integer _ _
      rw [List.map_cons, insert, hcmp, KeyedList.insert]
      cases compare (key v) (key w) with
      | lt => rfl
      | eq => rfl
      | gt =>
          simp only [ih]
          rfl

theorem collect_entries {S : SerdeCbor} (hS : S.Lawful) (versions : List (Version × UInt32)) :
    collect S (versions.map entry) = (ofList key versions).map entry := by
  induction versions using List.reverseRecOn with
  | nil => rfl
  | append_singleton versions v ih =>
      rw [ofList_append_singleton, ← insert_entry hS, ← ih, List.map_append, collect,
        List.foldl_append]
      rfl

/-- A proposal as it is written, whatever the order of its versions. -/
theorem toValues_versions {S : SerdeCbor} (hS : S.Lawful) (h : ∀ v ∈ versions, v.1.Supported) :
    toValues S (.proposeVersions versions) =
      .ok [.integer 0, .map ((ofList key versions).map entry)] := by
  simp only [toValues, mapM_toValues h, Outcome.ok_bind, collect_entries hS]
  rfl

theorem fromIter_versions (h : ∀ v ∈ versions, v.1.Supported) :
    fromIter.eval [.integer 0, .map (versions.map entry)] = .ok (.proposeVersions versions) := by
  simp [fromIter, Cursor.eval, Cursor.bind_apply, mapM_fromValues h]

theorem supported_ofList (h : ∀ v ∈ versions, v.1.Supported) :
    ∀ v ∈ ofList key versions, v.1.Supported :=
  fun v hv => h v (mem_ofList.mp hv).mem

/-- The keys are numbers and ascend. -/
structure Sorted (map : List (Value × Value)) : Prop where
  keys : ∀ e ∈ map, ∃ k : ℕ, e.1 = .integer k
  ascending : map.Pairwise fun e f =>
    ∀ j k : ℕ, e.1 = .integer j → f.1 = .integer k → j < k

theorem sorted_entries {versions : List (Version × UInt32)} (h : Ascending key versions) :
    Sorted (versions.map entry) where
  keys e he := by
    obtain ⟨v, -, rfl⟩ := List.mem_map.mp he
    exact ⟨_, rfl⟩
  ascending := by
    refine List.pairwise_map.mpr (h.imp fun {v w} hlt j k hj hk => ?_)
    cases hj
    cases hk
    exact hlt

end

/-! ### What the decoder accepts -/

/-- What the decoder accepts, and as what. Nothing checks that an array ends. -/
inductive Accepts : Values → Message → Prop
  | proposeVersions {entries : List (Value × Value)} {rest : Values}
      {versions : List (Version × UInt32)} :
      List.Forall₂ (fun e v => Version.fromValues e.1 e.2 = .ok v) entries versions →
      Accepts (.integer 0 :: .map entries :: rest) (.proposeVersions versions)
  | acceptVersion (n magic : Int) (items rest : Values) :
      Accepts (.integer 1 :: .integer n :: .array (.integer magic :: .bool false :: items) :: rest)
        (.acceptVersion (.fromU16 (.ofInt n)) (.ofInt magic))
  | refuse (reason rest : Values) : Accepts (.integer 2 :: .array reason :: rest) .refuse

theorem accepts_iff {vals : Values} {m : Message} :
    fromIter.eval vals = .ok m ↔ Accepts vals m := by
  constructor
  · intro h
    simp only [fromIter, Cursor.eval_ok_iff, Cursor.bind_ok_iff, integer_ok_iff] at h
    obtain ⟨_, n, mid, rfl, hm⟩ := h
    split at hm
    · simp only [Cursor.bind_ok_iff, Cursor.pure_apply, Cursor.lift_ok_iff, map_ok_iff,
        Prod.mk.injEq, Outcome.ok.injEq] at hm
      obtain ⟨entries, rest, rfl, versions, _, ⟨hversions, rfl⟩, rfl, -⟩ := hm
      exact .proposeVersions (Outcome.mapM_ok_iff.mp hversions)
    · simp only [Cursor.bind_ok_iff, Cursor.lift_ok_iff, Cursor.eval_ok_iff, Cursor.pure_apply,
        integer_ok_iff, array_ok_iff, bool_ok_iff, Prod.mk.injEq, Outcome.ok.injEq] at hm
      obtain ⟨version, _, rfl, items, rest, rfl, _, _, ⟨⟨_, magic, _, rfl, b, _, rfl, rfl, -⟩, rfl⟩,
        hm⟩ := hm
      split at hm
      · rename_i hb
        subst hb
        cases hm
        exact .acceptVersion _ _ _ _
      · cases hm
    · simp only [Cursor.bind_ok_iff, Cursor.pure_apply, array_ok_iff, Prod.mk.injEq,
        Outcome.ok.injEq] at hm
      obtain ⟨reason, rest, rfl, rfl, -⟩ := hm
      exact .refuse reason rest
    · cases hm
  · intro h
    cases h with
    | proposeVersions hversions =>
        simp [fromIter, Cursor.eval, Cursor.bind_apply, Outcome.mapM_ok_iff.mpr hversions]
    | acceptVersion n magic items rest => simp [fromIter, Cursor.eval, Cursor.bind_apply]
    | refuse reason rest => simp [fromIter, Cursor.eval, Cursor.bind_apply]

/-! ### The round trip -/

/-- Supported versions in strictly ascending order, versions with a number of fifteen
bits, and refusals. -/
def Regular : Message → Prop
  | .proposeVersions versions => (∀ v ∈ versions, v.1.Supported) ∧
      versions.Pairwise fun v w => v.1.number < w.1.number
  | .acceptVersion version _ => version.Short
  | .refuse => True

/-- The message is read back from its values. -/
def RoundTrips (S : SerdeCbor) (m : Message) : Prop :=
  ∃ values, toValues S m = .ok values ∧ fromIter.eval values = .ok m

/-- A proposal of supported versions is written as plain values, and what is read
back from them is a proposal. -/
theorem toValues_proposeVersions {S : SerdeCbor} (hS : S.Lawful) {versions : List Version}
    (h : ∀ v ∈ versions, v.Supported) (magic : UInt32) :
    ∃ values read, toValues S (.proposeVersions (versions.map fun v => (v, magic))) = .ok values ∧
      Plain values ∧ fromIter.eval values = .ok (.proposeVersions read) := by
  have hsupported : ∀ v ∈ versions.map fun v => (v, magic), v.1.Supported := by
    simpa using h
  have hmem := supported_ofList hsupported
  refine ⟨_, _, toValues_versions hS hsupported, ?_, fromIter_versions hmem⟩
  have hmap : (Value.map ((ofList key (versions.map fun v => (v, magic))).map Version.entry)).Plain
      3 := by
    refine ⟨?_, (sorted_entries (ascending_ofList _)).ascending⟩
    rw [List.forall_mem_map]
    intro v hv
    exact ⟨⟨_, Version.number_lt (hmem v hv), rfl⟩, (Version.entry_spec (hmem v hv)).2.2⟩
  simp [Plain, hmap]

theorem toValues_acceptVersion {S : SerdeCbor} {v : Version} (h : v.Short) (magic : UInt32) :
    ∃ values, toValues S (.acceptVersion v magic) = .ok values ∧ Plain values ∧
      fromIter.eval values = .ok (.acceptVersion v magic) := by
  obtain ⟨k, hto, hfrom⟩ := Version.fromU16_toU16 h
  have hmagic := magic.toNat_lt
  have hlt := k.toNat_lt
  have hparams : (Value.array [.integer magic.toNat, .bool false]).Plain 3 :=
    plain_array (by simp [Value.Plain]; omega)
  refine ⟨[.integer 1, .integer k.toNat, .array [.integer magic.toNat, .bool false]], ?_, ?_, ?_⟩
  · simp [toValues, hto]
  · simp [Plain, hparams]
    omega
  · simp [fromIter, Cursor.eval, Cursor.bind_apply, hfrom]

theorem roundTrips_proposeVersions {S : SerdeCbor} (hS : S.Lawful)
    {versions : List (Version × UInt32)} (h : Regular (.proposeVersions versions)) :
    RoundTrips S (.proposeVersions versions) := by
  obtain ⟨hsupported, hascending⟩ := h
  have hmap : ofList key versions = versions := Ascending.ofList_eq hascending
  refine ⟨_, toValues_versions hS hsupported, ?_⟩
  rw [hmap, fromIter_versions hsupported]

theorem roundTrips_acceptVersion (S : SerdeCbor) {version : Version} (h : version.Short)
    (magic : UInt32) : RoundTrips S (.acceptVersion version magic) := by
  obtain ⟨values, hto, -, hfrom⟩ := toValues_acceptVersion (S := S) h magic
  exact ⟨values, hto, hfrom⟩

/-- The values of a refusal begin like those of an acceptance, and then there is no
version. -/
theorem not_roundTrips_refuse (S : SerdeCbor) : ¬ RoundTrips S .refuse := by
  rintro ⟨values, hto, hfrom⟩
  cases hto
  simp [fromIter, Cursor.eval, Cursor.bind_apply, integer, next] at hfrom

/-- **The handshake codec round trip.** Of the proposals of supported versions in
ascending order, the acceptances of a version with a number of fifteen bits, and the
refusal, all but the refusal are read back from their values. -/
theorem round_trips_iff_not_refuse {S : SerdeCbor} (hS : S.Lawful) {m : Message} (hm : m.Regular) :
    RoundTrips S m ↔ m ≠ .refuse := by
  cases m with
  | proposeVersions versions => exact iff_of_true (roundTrips_proposeVersions hS hm) (by simp)
  | acceptVersion version magic =>
      exact iff_of_true (roundTrips_acceptVersion S hm magic) (by simp)
  | refuse => exact iff_of_false (not_roundTrips_refuse S) (by simp)

/-- A proposal for both kinds of peers. -/
theorem round_trips_both :
    RoundTrips Cbor.serdeCbor (.proposeVersions [(.n2n 7, 0x12345678), (.c2n 9, 0)]) := by
  have hregular : Regular (.proposeVersions [(.n2n 7, 0x12345678), (.c2n 9, 0)]) := by
    constructor
    · simp [Version.Supported]
    · simp [Version.number]
  exact (round_trips_iff_not_refuse Cbor.serdeCbor_lawful hregular).mpr (by simp)

/-- A refusal is read as an acceptance whose version is an array. -/
theorem refusal_misread :
    Regular .refuse ∧ ¬ RoundTrips Cbor.serdeCbor .refuse ∧
      ∃ values e, toValues Cbor.serdeCbor .refuse = .ok values ∧
        fromIter.eval values = .err e :=
  ⟨trivial, not_roundTrips_refuse _, _, _, rfl, rfl⟩

end Message

end Ouroboros.Handshake
