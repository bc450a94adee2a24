import Ouroboros.Protocols.Acceptance
import Ouroboros.Protocols.Chainsync
import Mathlib.Data.List.Forall2

/-!
The codec of the chain-sync messages, in both directions.

Every message is read back from its values. Conversely the values behind an
accepted message are those that the message is written as, up to the era number
in front of a header, with one exception. The loop over the points of
`FindIntersect` ends when a read fails, and a failed read takes its value off the
iterator all the same. The check of the end then looks behind that value, so one
element that is no array may follow the points.
-/

namespace Ouroboros.Chainsync.Message

open Values

/-- What the decoder accepts, and as what. -/
inductive Accepts : Values → Message → Prop
  | requestNext : Accepts [.integer 0] .requestNext
  | awaitReply : Accepts [.integer 1] .awaitReply
  | rollForward {hs ts : Values} {header : WrappedBlockHeader} {tip : Tip} :
      WrappedBlockHeader.tryInto hs = .ok header → Tip.tryInto ts = .ok tip →
      Accepts [.integer 2, .array hs, .array ts] (.rollForward header tip)
  | rollBackward {ps ts : Values} {point : Point} {tip : Tip} :
      Point.tryInto ps = .ok point → Tip.tryInto ts = .ok tip →
      Accepts [.integer 3, .array ps, .array ts] (.rollBackward point tip)
  | findIntersect {items : Values} {points : List Point} : readPoints items = .ok points →
      Accepts [.integer 4, .array items] (.findIntersect points)
  | intersectFound {ps ts : Values} {point : Point} {tip : Tip} :
      Point.tryInto ps = .ok point → Tip.tryInto ts = .ok tip →
      Accepts [.integer 5, .array ps, .array ts] (.intersectFound point tip)
  | intersectNotFound {ts : Values} {tip : Tip} : Tip.tryInto ts = .ok tip →
      Accepts [.integer 6, .array ts] (.intersectNotFound tip)
  | done : Accepts [.integer 7] .done

theorem accepts_iff {vals : Values} {m : Message} :
    fromIter.eval vals = .ok m ↔ Accepts vals m := by
  constructor
  · intro h
    simp only [fromIter, Cursor.eval_ok_iff, Cursor.bind_ok_iff, integer_ok_iff] at h
    obtain ⟨_, n, mid, rfl, hm⟩ := h
    split at hm <;>
      simp only [Cursor.bind_ok_iff, Cursor.pure_apply, Cursor.lift_ok_iff, array_ok_iff,
        end_ok_iff, Prod.mk.injEq, Outcome.ok.injEq] at hm
    · obtain ⟨_, _, ⟨rfl, rfl⟩, _, _, ⟨rfl, -⟩, rfl, -⟩ := hm
      exact .requestNext
    · obtain ⟨_, _, ⟨rfl, rfl⟩, _, _, ⟨rfl, -⟩, rfl, -⟩ := hm
      exact .awaitReply
    · obtain ⟨hs, _, rfl, header, _, ⟨hheader, rfl⟩, ts, _, rfl, tip, _, ⟨htip, rfl⟩, _, _,
        ⟨rfl, rfl⟩, _, _, ⟨rfl, -⟩, rfl, -⟩ := hm
      exact .rollForward hheader htip
    · obtain ⟨ps, _, rfl, point, _, ⟨hpoint, rfl⟩, ts, _, rfl, tip, _, ⟨htip, rfl⟩, _, _,
        ⟨rfl, rfl⟩, _, _, ⟨rfl, -⟩, rfl, -⟩ := hm
      exact .rollBackward hpoint htip
    · obtain ⟨items, _, rfl, points, _, ⟨hpoints, rfl⟩, _, _, ⟨rfl, rfl⟩, _, _, ⟨rfl, -⟩, rfl,
        -⟩ := hm
      exact .findIntersect hpoints
    · obtain ⟨ps, _, rfl, point, _, ⟨hpoint, rfl⟩, ts, _, rfl, tip, _, ⟨htip, rfl⟩, _, _,
        ⟨rfl, rfl⟩, _, _, ⟨rfl, -⟩, rfl, -⟩ := hm
      exact .intersectFound hpoint htip
    · obtain ⟨ts, _, rfl, tip, _, ⟨htip, rfl⟩, _, _, ⟨rfl, rfl⟩, _, _, ⟨rfl, -⟩, rfl, -⟩ := hm
      exact .intersectNotFound htip
    · obtain ⟨_, _, ⟨rfl, rfl⟩, _, _, ⟨rfl, -⟩, rfl, -⟩ := hm
      exact .done
    · obtain ⟨_, _, ⟨h, -⟩, -⟩ := hm
      cases h
  · intro h
    cases h <;> simp [fromIter, Cursor.eval, Cursor.bind_apply, *]

/-- A message is written as values that the decoder accepts. -/
theorem accepts_toValues (m : Message) : Accepts m.toValues m := by
  cases m with
  | requestNext => exact .requestNext
  | awaitReply => exact .awaitReply
  | rollForward header tip =>
      exact .rollForward (WrappedBlockHeader.tryInto_values 0 header) (Tip.tryInto_tipToVec tip)
  | rollBackward point tip =>
      exact .rollBackward (Point.tryInto_pointToVec point) (Tip.tryInto_tipToVec tip)
  | findIntersect points => exact .findIntersect (readPoints_map points)
  | intersectFound point tip =>
      exact .intersectFound (Point.tryInto_pointToVec point) (Tip.tryInto_tipToVec tip)
  | intersectNotFound tip => exact .intersectNotFound (Tip.tryInto_tipToVec tip)
  | done => exact .done

/-- **The chain-sync codec round trip.** -/
theorem codec_round_trip (m : Message) : fromIter.eval m.toValues = .ok m :=
  accepts_iff.mpr m.accepts_toValues

/-- What `to_vec` writes for a message is the message on the wire. -/
theorem encoded {S : SerdeCbor} (hS : S.Lawful) {blake2b : Bytes → Bytes} {m : Message}
    {w : Bytes} (hw : S.toVec m.toValues = .ok w) : (protocol S blake2b).Encoded S m w :=
  Protocol.encoded_of_toVec hS m.plain_toValues hw (accepts_iff.mpr m.accepts_toValues)

/-! ### The points of a query -/

/-- No array. -/
def Stray (v : Value) : Prop := ∀ values, v ≠ .array values

theorem readPoints_array {vs items : Values} {points : List Point} :
    readPoints (.array vs :: items) = .ok points ↔
      ∃ point points', Point.tryInto vs = .ok point ∧ readPoints items = .ok points' ∧
        points = point :: points' := by
  rw [readPoints]
  cases Point.tryInto vs <;> cases readPoints items <;> simp [eq_comm]

/-- The read that finds no array takes what it finds, if there is anything. -/
theorem readPoints_stray {v : Value} (hv : Stray v) {items : Values} {points : List Point} :
    readPoints (v :: items) = .ok points ↔ items = [] ∧ points = [] := by
  cases v with
  | array values => exact absurd rfl (hv values)
  | _ => cases items <;> simp [readPoints, array, next, Cursor.eval, end_, eq_comm]

/-- The loop takes arrays as long as there are any, and at most one more value. -/
theorem readPoints_ok_iff {items : Values} {points : List Point} :
    readPoints items = .ok points ↔
      ∃ read rest, items = read.map .array ++ rest ∧
        List.Forall₂ (fun vs point => Point.tryInto vs = .ok point) read points ∧
        (rest = [] ∨ ∃ v, Stray v ∧ rest = [v]) := by
  constructor
  · intro h
    induction items generalizing points with
    | nil =>
        cases h
        exact ⟨[], [], rfl, .nil, .inl rfl⟩
    | cons v items ih =>
        by_cases hv : Stray v
        · obtain ⟨rfl, rfl⟩ := (readPoints_stray hv).mp h
          exact ⟨[], [v], rfl, .nil, .inr ⟨v, hv, rfl⟩⟩
        · simp only [Stray, not_forall, not_not] at hv
          obtain ⟨vs, rfl⟩ := hv
          obtain ⟨point, points', hpoint, hpoints, rfl⟩ := readPoints_array.mp h
          obtain ⟨read, rest, rfl, hread, hrest⟩ := ih hpoints
          exact ⟨vs :: read, rest, rfl, .cons hpoint hread, hrest⟩
  · rintro ⟨read, rest, rfl, hread, hrest⟩
    induction hread with
    | nil =>
        rcases hrest with rfl | ⟨v, hv, rfl⟩
        · rfl
        · exact (readPoints_stray hv).mpr ⟨rfl, rfl⟩
    | cons hpoint _ ih => exact readPoints_array.mpr ⟨_, _, hpoint, ih, rfl⟩

/-! ### Reading what was not written -/

/-- The values of a message, with some era number in front of its header. -/
def withEra (era : Int) : Message → List Value
  | .rollForward header tip =>
    [.integer 2, .array [.integer era, .bytes header.bytes], .array (tipToVec tip)]
  | m => m.toValues

/-- The values are those of the message, up to the era number. -/
def Spells (m : Message) (vals : Values) : Prop := ∃ era, vals = m.withEra era

/-- Points, and one element behind them that is none. -/
def Strayed (vals : Values) : Prop :=
  ∃ (points : List Point) (v : Value), Stray v ∧
    vals = [.integer 4, .array (points.map (fun point => .array (pointToVec point)) ++ [v])]

/-- The integers in the positions of slots and of block numbers. -/
def fields : Values → List Field
  | [.integer 2, _, .array tip] => tipFields tip
  | [.integer 3, .array point, .array tip] => pointFields point ++ tipFields tip
  | [.integer 4, .array points] => points.flatMap fun
    | .array point => pointFields point
    | _ => []
  | [.integer 5, .array point, .array tip] => pointFields point ++ tipFields tip
  | [.integer 6, .array tip] => tipFields tip
  | _ => []

/-- Points with slots in range are those that were written. -/
theorem read_eq_map {read : List Values} {points : List Point}
    (h : List.Forall₂ (fun vs point => Point.tryInto vs = .ok point) read points)
    (hfits : Fits (read.flatMap pointFields)) : read = points.map pointToVec := by
  induction h with
  | nil => rfl
  | cons hpoint _ ih =>
      rw [List.flatMap_cons, fits_append] at hfits
      rw [List.map_cons, ← ih hfits.2, ← Point.eq_pointToVec hpoint hfits.1]

theorem fields_findIntersect (read : List Values) {rest : Values}
    (hrest : rest = [] ∨ ∃ v, Stray v ∧ rest = [v]) :
    fields [.integer 4, .array (read.map .array ++ rest)] = read.flatMap pointFields := by
  have hread : fields [.integer 4, .array (read.map .array ++ rest)] =
      read.flatMap pointFields ++ rest.flatMap fun
        | .array point => pointFields point
        | _ => [] := by
    rw [fields, List.flatMap_append, List.flatMap_map]
  rw [hread]
  rcases hrest with rfl | ⟨v, hv, rfl⟩
  · simp
  · cases v with
    | array values => exact absurd rfl (hv values)
    | _ => simp

/-- What the decoder makes of points with an element behind them. -/
theorem fromIter_strayed (points : List Point) {v : Value} (hv : Stray v) :
    fromIter.eval
        [.integer 4, .array (points.map (fun point => .array (pointToVec point)) ++ [v])] =
      .ok (.findIntersect points) := by
  apply accepts_iff.mpr
  apply Accepts.findIntersect
  refine readPoints_ok_iff.mpr ⟨points.map pointToVec, [v], ?_, ?_, .inr ⟨v, hv, rfl⟩⟩
  · rw [List.map_map]
    rfl
  · rw [List.forall₂_map_left_iff, List.forall₂_same]
    exact fun point _ => Point.tryInto_pointToVec point

/-- **The chain-sync decoder and its grammar.** Let the integers in the positions of
slots and block numbers be in range. If a message is accepted, its values are those
it is written as, up to the era number; this is so for all values but points with an
element behind them that is no array. -/
theorem accepts_grammar (vals : Values) (hfits : Fits (fields vals)) :
    (∀ m, fromIter.eval vals = .ok m → m.Spells vals) ↔ ¬ Strayed vals := by
  constructor
  · rintro hspells ⟨points, v, hv, rfl⟩
    obtain ⟨era, hera⟩ := hspells _ (fromIter_strayed points hv)
    simp only [withEra, toValues, pointToVec, List.cons.injEq, Value.array.injEq] at hera
    have hlen := congrArg List.length hera.2.1
    simp at hlen
  · intro hstrayed m h
    cases accepts_iff.mp h with
    | requestNext => exact ⟨0, rfl⟩
    | awaitReply => exact ⟨0, rfl⟩
    | rollForward hheader htip =>
        obtain ⟨era, rfl⟩ := WrappedBlockHeader.tryInto_ok_iff.mp hheader
        exact ⟨era, by rw [Tip.eq_tipToVec htip hfits, withEra]⟩
    | rollBackward hpoint htip =>
        obtain ⟨hpointFits, htipFits⟩ := fits_append.mp hfits
        exact ⟨0, by rw [Point.eq_pointToVec hpoint hpointFits, Tip.eq_tipToVec htip htipFits]; rfl⟩
    | findIntersect hpoints =>
        obtain ⟨read, rest, rfl, hread, hrest⟩ := readPoints_ok_iff.mp hpoints
        rw [fields_findIntersect read hrest] at hfits
        have hmap := read_eq_map hread hfits
        subst hmap
        rw [List.map_map] at hstrayed ⊢
        rcases hrest with rfl | ⟨v, hv, rfl⟩
        · exact ⟨0, by rw [List.append_nil]; rfl⟩
        · exact absurd ⟨_, v, hv, rfl⟩ hstrayed
    | intersectFound hpoint htip =>
        obtain ⟨hpointFits, htipFits⟩ := fits_append.mp hfits
        exact ⟨0, by rw [Point.eq_pointToVec hpoint hpointFits, Tip.eq_tipToVec htip htipFits]; rfl⟩
    | intersectNotFound htip => exact ⟨0, by rw [Tip.eq_tipToVec htip hfits]; rfl⟩
    | done => exact ⟨0, rfl⟩

/-- A roll forward of era 5, with a tip below block 0. -/
theorem accepts_grammar_forward :
    (rollForward ⟨[1]⟩ ⟨-1, 7, []⟩).Spells [.integer 2, .array [.integer 5, .bytes [1]],
      .array [.array [.integer 7, .bytes []], .integer (-1)]] := by
  refine (accepts_grammar _ ?_).mpr ?_ _ rfl
  · simp [fields, tipFields, pointFields, Width.Holds]
  · rintro ⟨points, v, -, h⟩
    simp at h

/-- An element behind the points that is no point is ignored. -/
theorem stray_ignored :
    ∃ vals m, Fits (fields vals) ∧ fromIter.eval vals = .ok m ∧ ¬ m.Spells vals := by
  refine ⟨[.integer 4, .array [.integer 7]], .findIntersect [], ?_, rfl, ?_⟩
  · simp [fields]
  · rintro ⟨era, h⟩
    simp [withEra, toValues] at h

end Ouroboros.Chainsync.Message
