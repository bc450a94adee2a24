import Ouroboros.Protocols.Acceptance
import Ouroboros.Protocols.Blockfetch

/-!
The codec of the block-fetch messages, in both directions.

The encoder writes its points inline and the decoder uses the parser of points
that is shared with chain-sync; what the one writes is all that the other accepts.
-/

namespace Ouroboros.Blockfetch.Message

open Values

/-- What the decoder accepts, and as what. -/
inductive Accepts : Values → Message → Prop
  | requestRange {ps qs : Values} {first last : Point} : Point.tryInto ps = .ok first →
      Point.tryInto qs = .ok last →
      Accepts [.integer 0, .array ps, .array qs] (.requestRange first last)
  | clientDone : Accepts [.integer 1] .clientDone
  | startBatch : Accepts [.integer 2] .startBatch
  | noBlocks : Accepts [.integer 3] .noBlocks
  | block (bytes : Bytes) : Accepts [.integer 4, .bytes bytes] (.block bytes)
  | batchDone : Accepts [.integer 5] .batchDone

theorem accepts_of_fromIter {vals : Values} {m : Message} (h : fromIter.eval vals = .ok m) :
    Accepts vals m := by
  simp only [fromIter, Cursor.eval_ok_iff, Cursor.bind_ok_iff, integer_ok_iff] at h
  obtain ⟨_, n, mid, rfl, hm⟩ := h
  split at hm <;>
    simp only [Cursor.bind_ok_iff, Cursor.pure_apply, Cursor.lift_ok_iff, array_ok_iff,
      bytes_ok_iff, end_ok_iff, Prod.mk.injEq, Outcome.ok.injEq] at hm
  · obtain ⟨ps, _, rfl, first, _, ⟨hfirst, rfl⟩, qs, _, rfl, last, _, ⟨hlast, rfl⟩, _, _,
      ⟨rfl, rfl⟩, _, _, ⟨rfl, -⟩, rfl, -⟩ := hm
    exact .requestRange hfirst hlast
  · obtain ⟨_, _, ⟨rfl, rfl⟩, _, _, ⟨rfl, -⟩, rfl, -⟩ := hm
    exact .clientDone
  · obtain ⟨_, _, ⟨rfl, rfl⟩, _, _, ⟨rfl, -⟩, rfl, -⟩ := hm
    exact .startBatch
  · obtain ⟨_, _, ⟨rfl, rfl⟩, _, _, ⟨rfl, -⟩, rfl, -⟩ := hm
    exact .noBlocks
  · obtain ⟨bytes, _, rfl, _, _, ⟨rfl, rfl⟩, _, _, ⟨rfl, -⟩, rfl, -⟩ := hm
    exact .block bytes
  · obtain ⟨_, _, ⟨rfl, rfl⟩, _, _, ⟨rfl, -⟩, rfl, -⟩ := hm
    exact .batchDone
  · obtain ⟨_, _, ⟨h, -⟩, -⟩ := hm
    cases h

/-- The integers in the positions of slots. -/
def fields : Values → List Field
  | [.integer 0, .array first, .array last] => pointFields first ++ pointFields last
  | _ => []

/-- What is accepted with slots in range is what was written. -/
theorem eq_toValues {vals : Values} {m : Message} (hfits : Fits (fields vals))
    (h : fromIter.eval vals = .ok m) : vals = m.toValues := by
  cases accepts_of_fromIter h with
  | requestRange hfirst hlast =>
      obtain ⟨hfirstFits, hlastFits⟩ := fits_append.mp hfits
      rw [Point.eq_pointToVec hfirst hfirstFits, Point.eq_pointToVec hlast hlastFits]
      rfl
  | _ => rfl

/-- **The block-fetch codec is a bijection.** Every message is read back from its
values, and values with slots in range that are accepted are those of the message
they are accepted as, so no two of them are accepted as the same message. -/
theorem codec_bijection :
    (∀ m : Message, fromIter.eval m.toValues = .ok m) ∧
      (∀ vals m, Fits (fields vals) → fromIter.eval vals = .ok m → vals = m.toValues) ∧
      ∀ vals vals' m, Fits (fields vals) → Fits (fields vals') → fromIter.eval vals = .ok m →
        fromIter.eval vals' = .ok m → vals = vals' := by
  refine ⟨fromIter_toValues, fun vals m => eq_toValues, ?_⟩
  intro vals vals' m hfits hfits' h h'
  rw [eq_toValues hfits h, eq_toValues hfits' h']

/-- A range of two points. -/
theorem codec_bijection_range :
    fromIter.eval [.integer 0, .array [.integer 1, .bytes []], .array [.integer 2, .bytes []]] =
        .ok (requestRange ⟨1, []⟩ ⟨2, []⟩) ∧
      [.integer 0, .array [.integer 1, .bytes []], .array [.integer 2, .bytes []]] =
        (requestRange ⟨1, []⟩ ⟨2, []⟩).toValues := by
  have hread := codec_bijection.1 (requestRange ⟨1, []⟩ ⟨2, []⟩)
  refine ⟨hread, codec_bijection.2.1 _ _ ?_ hread⟩
  simp [fields, pointFields, Width.Holds]

end Ouroboros.Blockfetch.Message
