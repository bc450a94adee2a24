import Ouroboros.Protocols.Narrowing

/-!
The parameters of a version, in a proposal and in an acceptance.

A proposal has a bare magic for the first node-to-node versions and for all
node-to-client versions, and an array of a magic and a flag for the others. An
acceptance has the array for all of them. Neither decoder looks behind the flag, or
behind the message.
-/

namespace Ouroboros.Handshake

open Values

/-! ### One format -/

/-- An acceptance carries what a proposal carries, and what a proposal carries can be
accepted. -/
structure OneFormat (S : SerdeCbor) (v : Version) (magic : UInt32) : Prop where
  written : ∃ number params, v.toValues magic = .ok (number, params) ∧
    Message.toValues S (.acceptVersion v magic) = .ok [.integer 1, number, params]
  read : ∃ number params, v.toValues magic = .ok (number, params) ∧
    Message.fromIter.eval [.integer 1, number, params] = .ok (.acceptVersion v magic)

/-- The versions with an array of parameters. -/
def Version.Parameterised : Version → Prop
  | .n2n v => 4 ≤ v ∧ v ≤ 7
  | .c2n _ => False

/-- A version without an array is proposed with a bare magic. -/
theorem Version.toValues_bare {v : Version} (h : v.Supported) (hbare : ¬ v.Parameterised)
    (magic : UInt32) : ∃ number, v.toValues magic = .ok (number, .integer magic.toNat) := by
  cases v with
  | n2n v =>
      obtain ⟨hlo, hhi⟩ := h
      have hv : 1 ≤ v ∧ v ≤ 3 := by
        simp only [Parameterised] at hbare
        omega
      exact ⟨_, by rw [toValues, if_pos hv]⟩
  | c2n v =>
      have hv : 1 ≤ v ∧ v ≤ 9 := h
      exact ⟨_, by rw [toValues, if_pos hv]⟩

theorem Version.toValues_parameterised {v : Version} (h : v.Parameterised) (magic : UInt32) :
    ∃ k : UInt16, v.toU16 = .ok k ∧ fromU16 k = v ∧
      v.toValues magic = .ok (.integer k.toNat, .array [.integer magic.toNat, .bool false]) := by
  cases v with
  | n2n v =>
      obtain ⟨hlo, hhi⟩ := h
      interval_cases v <;> exact ⟨_, rfl, by decide, rfl⟩
  | c2n v => exact h.elim

/-- **Proposal and acceptance.** The two use one format for a supported version if and
only if it is one of the node-to-node versions 4 to 7. -/
theorem one_format_iff (S : SerdeCbor) {v : Version} (h : v.Supported) (magic : UInt32) :
    OneFormat S v magic ↔ v.Parameterised := by
  constructor
  · intro hformat
    by_contra hbare
    obtain ⟨number, hvalues⟩ := Version.toValues_bare h hbare magic
    obtain ⟨number', params, hvalues', hread⟩ := hformat.read
    rw [hvalues] at hvalues'
    cases hvalues'
    cases Message.accepts_iff.mp hread
  · intro hparameterised
    obtain ⟨k, hk, hfrom, hvalues⟩ := Version.toValues_parameterised hparameterised magic
    refine ⟨⟨_, _, hvalues, ?_⟩, ⟨_, _, hvalues, Message.accepts_iff.mpr ?_⟩⟩
    · rw [Message.toValues, hk]
      rfl
    · have haccepts := Message.Accepts.acceptVersion k.toNat magic.toNat [] []
      rwa [u16_ofInt_toNat, u32_ofInt_toNat, hfrom] at haccepts

theorem one_format_seven : OneFormat Cbor.serdeCbor (.n2n 7) 764824073 := by
  refine (one_format_iff Cbor.serdeCbor ?_ _).mpr ?_
  · simp [Version.Supported]
  · simp [Version.Parameterised]

/-- The version that a client for local connections proposes is not accepted in the form
it is proposed in, nor proposed in the form it is accepted in. -/
theorem two_formats :
    Version.toValues (.c2n 9) 764824073 = .ok (.integer 0x8009, .integer 764824073) ∧
      Message.toValues Cbor.serdeCbor (.acceptVersion (.c2n 9) 764824073) =
        .ok [.integer 1, .integer 0x8009, .array [.integer 764824073, .bool false]] ∧
      (∃ e, Message.fromIter.eval [.integer 1, .integer 0x8009, .integer 764824073] = .err e) ∧
      ¬ OneFormat Cbor.serdeCbor (.c2n 9) 764824073 := by
  refine ⟨rfl, rfl, ⟨_, rfl⟩, ?_⟩
  rintro ⟨-, number, params, hvalues, hread⟩
  cases hvalues
  cases Message.accepts_iff.mp hread

/-! ### What is not looked at -/

namespace Version

/-- What is read as an entry of a proposal. -/
inductive Readable : Value → Value → Prop
  | early {n magic : Int} : 1 ≤ n ∧ n ≤ 3 → Readable (.integer n) (.integer magic)
  | parameterised {n magic : Int} {items : Values} : 4 ≤ n ∧ n ≤ 7 →
      Readable (.integer n) (.array (.integer magic :: .bool false :: items))
  | client {n magic : Int} : 0x8001 ≤ n ∧ n ≤ 0x8009 → Readable (.integer n) (.integer magic)

/-- An array with more than a magic and a flag. -/
def Long (params : Value) : Prop := ∃ x y z items, params = .array (x :: y :: z :: items)

theorem not_long_of_toValues {v : Version} {magic : UInt32} {key params : Value}
    (h : v.toValues magic = .ok (key, params)) : ¬ Long params := by
  rintro ⟨x, y, z, items, rfl⟩
  cases v <;> simp only [toValues] at h <;> split_ifs at h <;> simp at h

/-- A readable entry is written as it was read, up to what is behind the flag. -/
theorem Readable.spec {key params : Value} (h : Readable key params)
    (hfits : Fits (fields key params)) :
    ∃ v magic params', fromValues key params = .ok (v, magic) ∧
      v.toValues magic = .ok (key, params') ∧ (¬ Long params → params' = params) := by
  have hcast {n magic : Int} (hfields : Fits [⟨.u32, n⟩, ⟨.u32, magic⟩]) :
      ((UInt32.ofInt magic).toNat : Int) = magic :=
    (Width.u32.cast_eq_iff magic).mpr (fits_cons.mp (fits_cons.mp hfields).2).1
  cases h with
  | @early n magic hn =>
      obtain ⟨hlo, hhi⟩ := hn
      refine ⟨.n2n n, UInt32.ofInt magic, .integer magic, ?_, ?_, fun _ => rfl⟩
      · interval_cases n <;> rfl
      · rw [toValues, if_pos ⟨hlo, hhi⟩, hcast hfits]
  | @parameterised n magic items hn =>
      obtain ⟨hlo, hhi⟩ := hn
      refine ⟨.n2n n, UInt32.ofInt magic, .array [.integer magic, .bool false], ?_, ?_, ?_⟩
      · interval_cases n <;> rfl
      · rw [toValues, if_neg (by omega), if_pos ⟨hlo, hhi⟩, hcast hfits]
      · intro hlong
        cases items with
        | nil => rfl
        | cons x items => exact absurd ⟨_, _, _, _, rfl⟩ hlong
  | @client n magic hn =>
      obtain ⟨hlo, hhi⟩ := hn
      refine ⟨.c2n (n - 0x8000), UInt32.ofInt magic, .integer magic, ?_, ?_, fun _ => rfl⟩
      · interval_cases n <;> rfl
      · rw [toValues, if_pos (by omega), hcast hfits]
        interval_cases n <;> rfl

/-- Nothing else is read. -/
theorem readable_of_fromValues {key params : Value} {v : Version} {magic : UInt32}
    (h : fromValues key params = .ok (v, magic)) (hfits : Fits (fields key params)) :
    Readable key params := by
  have hcast {n : Int} (hn : Width.u32.Holds n) : ((UInt32.ofInt n).toNat : Int) = n :=
    (Width.u32.cast_eq_iff n).mpr hn
  cases key with
  | integer n =>
      simp only [fromValues, UInt32.le_iff_toNat_le] at h
      split_ifs at h with h₃ h₇ h₉
      · split at h
        · have hn : ((UInt32.ofInt n).toNat : Int) = n := hcast (fits_cons.mp hfits).1
          refine .early ?_
          simp at h₃
          omega
        · cases h
      · split at h
        · split at h
          · split at h
            · have hn : ((UInt32.ofInt n).toNat : Int) = n := hcast (fits_cons.mp hfits).1
              refine .parameterised ?_
              simp at h₇
              omega
            · cases h
          · cases h
        · cases h
      · split at h
        · have hn : ((UInt32.ofInt n).toNat : Int) = n := hcast (fits_cons.mp hfits).1
          refine .client ?_
          simp at h₉
          omega
        · cases h
  | _ => cases h

/-- An acceptance is written with the number it was read with. -/
theorem toU16_fromU16 (k : UInt16) : (fromU16 k).toU16 = .ok k := by
  have htry (k : UInt16) : tryU16 k.toNat = .ok k := by
    have hlt := k.toNat_lt
    have hrange : 0 ≤ (k.toNat : Int) ∧ (k.toNat : Int) < 2 ^ 16 := by omega
    rw [tryU16, if_pos hrange, u16_ofInt_toNat]
  rw [fromU16]
  split_ifs
  · rw [toU16, htry, Outcome.ok_bind, Outcome.pure_eq, UInt16.xor_comm, UInt16.xor_assoc,
      UInt16.xor_self, UInt16.xor_zero]
  · exact htry k

end Version

namespace Message

open Version

/-- The values are those of the versions that are decoded, each with its parameters in
the form it has been read in, and nothing else. -/
structure Exact (vals : Values) : Prop where
  proposal : ∀ versions, fromIter.eval vals = .ok (.proposeVersions versions) →
    ∃ entries, (versions.mapM fun v => v.1.toValues v.2) = .ok entries ∧
      vals = [.integer 0, .map entries]
  acceptance : ∀ v magic, fromIter.eval vals = .ok (.acceptVersion v magic) →
    ∃ k, v.toU16 = .ok k ∧
      vals = [.integer 1, .integer k.toNat, .array [.integer magic.toNat, .bool false]]

/-- A proposal or an acceptance with more elements than are read: behind the message, or
behind the flag of a version. -/
inductive Padded : Values → Prop
  | proposal {entries : List (Value × Value)} {rest : Values} :
      (∀ e ∈ entries, Readable e.1 e.2) → (rest ≠ [] ∨ ∃ e ∈ entries, Long e.2) →
      Padded (.integer 0 :: .map entries :: rest)
  | acceptance {n magic : Int} {items rest : Values} : (items ≠ [] ∨ rest ≠ []) →
      Padded (.integer 1 :: .integer n :: .array (.integer magic :: .bool false :: items) :: rest)

variable {entries : List (Value × Value)} {versions : List (Version × UInt32)}

theorem fits_entries {rest : Values} (h : Fits (fields (.integer 0 :: .map entries :: rest))) :
    ∀ e ∈ entries, Fits (Version.fields e.1 e.2) := by
  intro e he f hf
  exact h f (List.mem_flatMap.mpr ⟨e, he, hf⟩)

/-- A proposal of readable entries is accepted. -/
theorem exists_versions (hreadable : ∀ e ∈ entries, Readable e.1 e.2)
    (hfits : ∀ e ∈ entries, Fits (Version.fields e.1 e.2)) :
    ∃ versions, List.Forall₂ (fun e v => Version.fromValues e.1 e.2 = .ok v) entries versions := by
  have hread : ∀ e ∈ entries, ∃ v, Version.fromValues e.1 e.2 = .ok v ∧ True := by
    intro e he
    obtain ⟨v, magic, -, hfrom, -⟩ := (hreadable e he).spec (hfits e he)
    exact ⟨_, hfrom, trivial⟩
  obtain ⟨versions, hversions, -⟩ := Outcome.mapM_ok _ hread
  exact ⟨versions, Outcome.mapM_ok_iff.mp hversions⟩

/-- Entries with nothing behind their flags are written as they were read. -/
theorem mapM_toValues_of_read
    (h : List.Forall₂ (fun e v => Version.fromValues e.1 e.2 = .ok v) entries versions)
    (hfits : ∀ e ∈ entries, Fits (Version.fields e.1 e.2))
    (hshort : ∀ e ∈ entries, ¬ Long e.2) :
    (versions.mapM fun v => v.1.toValues v.2) = .ok entries := by
  rw [Outcome.mapM_ok_iff]
  induction h with
  | nil => exact .nil
  | @cons e v entries versions hev _ ih =>
      obtain ⟨he, hentries⟩ := List.forall_mem_cons.mp hfits
      obtain ⟨hlong, hshort'⟩ := List.forall_mem_cons.mp hshort
      refine .cons ?_ (ih hentries hshort')
      obtain ⟨w, magic, params, hfrom, hto, hparams⟩ :=
        (readable_of_fromValues hev he).spec he
      obtain rfl := Outcome.ok.inj (hev.symm.trans hfrom)
      rw [hto, hparams hlong]

theorem Padded.not_exact {vals : Values} (h : Padded vals) (hfits : Fits (fields vals)) :
    ¬ Exact vals := by
  intro hexact
  cases h with
  | @proposal entries rest hreadable hmore =>
      obtain ⟨versions, hversions⟩ := exists_versions hreadable (fits_entries hfits)
      obtain ⟨entries', hto, heq⟩ :=
        hexact.proposal versions (accepts_iff.mpr (.proposeVersions hversions))
      simp only [List.cons.injEq, Value.map.injEq, true_and] at heq
      obtain ⟨rfl, rfl⟩ := heq
      rcases hmore with hrest | ⟨e, he, hlong⟩
      · exact hrest rfl
      · -- what is written has nothing behind the flag
        obtain ⟨k, hk, rfl⟩ := List.getElem_of_mem he
        have hwritten := (Outcome.mapM_ok_iff.mp hto).get (by
          rw [(Outcome.mapM_ok_iff.mp hto).length_eq]; exact hk) hk
        exact not_long_of_toValues hwritten hlong
  | @acceptance n magic items rest hmore =>
      obtain ⟨k, -, heq⟩ :=
        hexact.acceptance _ _ (accepts_iff.mpr (.acceptVersion n magic items rest))
      simp only [List.cons.injEq, Value.array.injEq, true_and] at heq
      obtain ⟨-, ⟨-, hitems⟩, hrest⟩ := heq
      rcases hmore with hne | hne
      · exact hne hitems
      · exact hne hrest

/-- **What the handshake decoder ignores.** Let the numbers and magics be in range. The
values of an accepted message are those of what is decoded if and only if nothing is
behind the message and nothing behind the flag of a version. -/
theorem ignores_nothing_iff {vals : Values} (hfits : Fits (fields vals)) :
    Exact vals ↔ ¬ Padded vals := by
  refine ⟨fun hexact hpadded => hpadded.not_exact hfits hexact, fun hpadded => ⟨?_, ?_⟩⟩
  · intro versions h
    cases accepts_iff.mp h with
    | @proposeVersions entries rest _ hversions =>
        have hentries := fits_entries hfits
        have hreadable : ∀ e ∈ entries, Readable e.1 e.2 := by
          intro e he
          obtain ⟨k, hk, rfl⟩ := List.getElem_of_mem he
          exact readable_of_fromValues (hversions.get hk (hversions.length_eq ▸ hk))
            (hentries _ he)
        have hshort : ∀ e ∈ entries, ¬ Long e.2 := fun e he hlong =>
          hpadded (.proposal hreadable (.inr ⟨e, he, hlong⟩))
        obtain rfl : rest = [] := by
          by_contra hrest
          exact hpadded (.proposal hreadable (.inl hrest))
        exact ⟨entries, mapM_toValues_of_read hversions hentries hshort, rfl⟩
  · intro v magic h
    cases accepts_iff.mp h with
    | acceptVersion n magic items rest =>
        obtain rfl : items = [] := by
          by_contra hitems
          exact hpadded (.acceptance (.inl hitems))
        obtain rfl : rest = [] := by
          by_contra hrest
          exact hpadded (.acceptance (.inr hrest))
        obtain ⟨hn, hmagic⟩ := fits_cons.mp hfits
        have hnumber : ((UInt16.ofInt n).toNat : Int) = n := (Width.u16.cast_eq_iff n).mpr hn
        have hcast : ((UInt32.ofInt magic).toNat : Int) = magic :=
          (Width.u32.cast_eq_iff magic).mpr (fits_cons.mp hmagic).1
        exact ⟨_, toU16_fromU16 _, by rw [hnumber, hcast]⟩

/-- An acceptance without anything behind it. -/
theorem ignores_nothing_seven :
    Exact [.integer 1, .integer 7, .array [.integer 764824073, .bool false]] := by
  refine (ignores_nothing_iff ?_).mpr ?_
  · simp [fields, Width.Holds]
  · rintro ⟨⟩
    simp_all

/-- An acceptance with an element behind the flag, and one behind the message. -/
theorem padding_ignored :
    fromIter.eval [.integer 1, .integer 7, .array [.integer 0, .bool false, .integer 5], .null] =
        .ok (.acceptVersion (.n2n 7) 0) ∧
      Fits (fields [.integer 1, .integer 7, .array [.integer 0, .bool false, .integer 5], .null]) ∧
      ¬ Exact [.integer 1, .integer 7, .array [.integer 0, .bool false, .integer 5], .null] := by
  refine ⟨rfl, ?_, fun hexact => ?_⟩
  · simp [fields, Width.Holds]
  · obtain ⟨k, -, heq⟩ := hexact.acceptance _ _ rfl
    simp at heq

end Message

end Ouroboros.Handshake
