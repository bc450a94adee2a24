import Ouroboros.Protocols.HandshakeCodec

/-!
Proposals in any order and with repetitions.

What is read back from a proposal is the map that `KeyedList.ofList` makes of its
versions. It has them in the order of their numbers on the wire.
-/

namespace Ouroboros.Handshake

open Values KeyedList

namespace Version

/-- The versions are in the order of the map: those of nodes, then those of clients. -/
def Before : Version → Version → Prop
  | .n2n v, .n2n w => v < w
  | .n2n _, .c2n _ => True
  | .c2n _, .n2n _ => False
  | .c2n v, .c2n w => v < w

/-- The flag is above the numbers of the versions. -/
theorem number_c2n {v : Int} (h : (c2n v).Supported) : (c2n v).number = 0x8000 + v.toNat := by
  obtain ⟨hlo, hhi⟩ := h
  interval_cases v <;> rfl

theorem number_lt_iff {v w : Version} (hv : v.Supported) (hw : w.Supported) :
    v.number < w.number ↔ v.Before w := by
  cases v with
  | n2n v =>
      obtain ⟨hv₁, hv₂⟩ := hv
      cases w with
      | n2n w =>
          obtain ⟨hw₁, hw₂⟩ := hw
          simp only [number, Before]
          omega
      | c2n w =>
          rw [number_c2n hw]
          simp only [number, Before, iff_true]
          omega
  | c2n v =>
      rw [number_c2n hv]
      obtain ⟨hv₁, hv₂⟩ := hv
      cases w with
      | n2n w =>
          obtain ⟨hw₁, hw₂⟩ := hw
          simp only [number, Before, iff_false]
          omega
      | c2n w =>
          rw [number_c2n hw]
          obtain ⟨hw₁, hw₂⟩ := hw
          simp only [Before]
          omega

theorem number_injective {v w : Version} (hv : v.Supported) (hw : w.Supported)
    (h : v.number = w.number) : v = w := by
  have hvw : ¬ v.Before w := fun hb => absurd ((number_lt_iff hv hw).mpr hb) (by omega)
  have hwv : ¬ w.Before v := fun hb => absurd ((number_lt_iff hw hv).mpr hb) (by omega)
  cases v <;> cases w <;> simp only [Before, not_lt, not_true_eq_false] at hvw hwv
  · rw [le_antisymm hwv hvw]
  · rw [le_antisymm hwv hvw]

end Version

namespace Message

open Version

variable {versions : List (Version × UInt32)}

/-- `ws` has each version of `vs` once, with its last magic, in the order of the map. -/
structure Normalises (vs ws : List (Version × UInt32)) : Prop where
  last : ∀ v m, (v, m) ∈ ws ↔
    ∃ before after, vs = before ++ (v, m) :: after ∧ ∀ w ∈ after, w.1 ≠ v
  once : (ws.map Prod.fst).Nodup
  all : ∀ v, v ∈ ws.map Prod.fst ↔ v ∈ vs.map Prod.fst
  order : ws.Pairwise fun v w => v.1.Before w.1

theorem last_iff (h : ∀ v ∈ versions, v.1.Supported) {v : Version × UInt32} :
    Last key versions v ↔
      ∃ before after, versions = before ++ v :: after ∧ ∀ w ∈ after, w.1 ≠ v.1 := by
  constructor
  · rintro ⟨before, after, rfl, hafter⟩
    refine ⟨before, after, rfl, fun w hw hwv => hafter w hw ?_⟩
    rw [key, key, hwv]
  · rintro ⟨before, after, rfl, hafter⟩
    refine ⟨before, after, rfl, fun w hw hkey => hafter w hw ?_⟩
    exact number_injective (h w (by simp [hw])) (h v (by simp)) hkey

theorem Before.ne {v w : Version} (h : v.Before w) : v ≠ w := by
  rintro rfl
  cases v <;> exact lt_irrefl _ h

theorem normalises_ofList (h : ∀ v ∈ versions, v.1.Supported) :
    Normalises versions (ofList key versions) := by
  have hsupported := supported_ofList h
  have horder : (ofList key versions).Pairwise fun v w => v.1.Before w.1 := by
    refine (ascending_ofList versions).imp_of_mem fun {v w} hv hw hlt => ?_
    exact (number_lt_iff (hsupported v hv) (hsupported w hw)).mp hlt
  refine ⟨fun v m => mem_ofList.trans (last_iff h), ?_, fun v => ?_, horder⟩
  · exact List.pairwise_map.mpr (horder.imp Before.ne)
  · rw [List.mem_map, List.mem_map]
    constructor
    · rintro ⟨w, hw, rfl⟩
      exact ⟨w, (mem_ofList.mp hw).mem, rfl⟩
    · rintro ⟨w, hw, rfl⟩
      have hexists : ∃ w', Last key versions w' ∧ key w' = key w := exists_last hw
      obtain ⟨w', hlast, hkey⟩ := hexists
      exact ⟨w', mem_ofList.mpr hlast, number_injective (h w' hlast.mem) (h w hw) hkey⟩

/-- **Proposals are normalised.** A list of supported versions, in any order and with
repetitions, is written as a map with ascending keys. What is read back has each
version once, with its last magic, in the order of the numbers on the wire, and is
written as the same values again. -/
theorem proposals_normalised {S : SerdeCbor} (hS : S.Lawful)
    (h : ∀ v ∈ versions, v.1.Supported) :
    ∃ entries ws, toValues S (.proposeVersions versions) = .ok [.integer 0, .map entries] ∧
      Sorted entries ∧ fromIter.eval [.integer 0, .map entries] = .ok (.proposeVersions ws) ∧
      Normalises versions ws ∧
      toValues S (.proposeVersions ws) = .ok [.integer 0, .map entries] := by
  have hascending : Ascending key (ofList key versions) := ascending_ofList versions
  refine ⟨(ofList key versions).map entry, ofList key versions, toValues_versions hS h,
    sorted_entries hascending, ?_, normalises_ofList h, ?_⟩
  · exact fromIter_versions (supported_ofList h)
  · rw [toValues_versions hS (supported_ofList h), hascending.ofList_eq]

/-- A version that is listed twice, in front of and behind one with a lower number. -/
theorem proposals_normalised_twice :
    ∃ values ws, toValues Cbor.serdeCbor
        (.proposeVersions [(.c2n 9, 1), (.n2n 7, 2), (.c2n 9, 3)]) = .ok values ∧
      fromIter.eval values = .ok (.proposeVersions ws) ∧
      (.c2n 9, 3) ∈ ws ∧ (.c2n 9, 1) ∉ ws := by
  have hsupported : ∀ v ∈ [((.c2n 9 : Version), (1 : UInt32)), (.n2n 7, 2), (.c2n 9, 3)],
      v.1.Supported := by
    simp [Version.Supported]
  obtain ⟨entries, ws, hto, -, hfrom, hnormal, -⟩ :=
    proposals_normalised Cbor.serdeCbor_lawful hsupported
  have hlast : (.c2n 9, 3) ∈ ws :=
    (hnormal.last _ _).mpr ⟨[(.c2n 9, 1), (.n2n 7, 2)], [], rfl, by simp⟩
  refine ⟨_, ws, hto, hfrom, hlast, fun hfirst => ?_⟩
  have hmagic := congrArg Prod.snd (List.inj_on_of_nodup_map hnormal.once hfirst hlast rfl)
  exact absurd hmagic (by decide)

end Message

end Ouroboros.Handshake
