import Ouroboros.Protocols.Chainsync
import Ouroboros.Protocols.Blockfetch
import Ouroboros.Protocols.Handshake
import Ouroboros.Protocols.Acceptance

/-!
Decoders on values that the peer has chosen.

Every reader of a cursor returns a value or an `Err`, and what is put together from
them does so as well. Two panics are written out: the block-fetch decoder has one
for a tag it does not know, where the others return an error, and the handshake
decoder asserts that the flag of an acceptance is false.
-/

namespace Ouroboros.Chainsync.Message

open Values

theorem readPoints_returns (items : Values) : (readPoints items).Returns := by
  induction items with
  | nil => exact (end_total _).bind fun _ => Outcome.returns_ok []
  | cons v items ih =>
      cases v with
      | array item =>
          exact (Point.tryInto_returns item).bind fun point => ih.bind fun points =>
            Outcome.returns_ok (point :: points)
      | _ => exact (end_total _).bind fun _ => Outcome.returns_ok []

theorem fromIter_total : fromIter.Total := by
  refine integer_total.bind fun n => ?_
  dsimp only
  split
  · exact ended (Cursor.total_pure _)
  · exact ended (Cursor.total_pure _)
  · exact array_total.bind fun hs =>
      (Cursor.total_lift (WrappedBlockHeader.tryInto_returns hs)).bind fun _ =>
        array_total.bind fun ts =>
          (Cursor.total_lift (Tip.tryInto_returns ts)).bind fun _ => ended (Cursor.total_pure _)
  · exact array_total.bind fun ps =>
      (Cursor.total_lift (Point.tryInto_returns ps)).bind fun _ => array_total.bind fun ts =>
        (Cursor.total_lift (Tip.tryInto_returns ts)).bind fun _ => ended (Cursor.total_pure _)
  · exact array_total.bind fun items =>
      (Cursor.total_lift (readPoints_returns items)).bind fun _ => ended (Cursor.total_pure _)
  · exact array_total.bind fun ps =>
      (Cursor.total_lift (Point.tryInto_returns ps)).bind fun _ => array_total.bind fun ts =>
        (Cursor.total_lift (Tip.tryInto_returns ts)).bind fun _ => ended (Cursor.total_pure _)
  · exact array_total.bind fun ts =>
      (Cursor.total_lift (Tip.tryInto_returns ts)).bind fun _ => ended (Cursor.total_pure _)
  · exact ended (Cursor.total_pure _)
  · exact ended (Cursor.total_lift (Outcome.returns_err _))

end Ouroboros.Chainsync.Message

namespace Ouroboros.Blockfetch.Message

open Values

/-- The values begin with a number that is the tag of no message. -/
def Unknown (vals : Values) : Prop :=
  ∃ n rest, vals = .integer n :: rest ∧ ¬ (0 ≤ n ∧ n ≤ 5)

/-- What is read behind a tag. -/
theorem returns_of_tag {n : Int} (h : 0 ≤ n ∧ n ≤ 5) (rest : Values) :
    (fromIter.eval (.integer n :: rest)).Returns := by
  obtain ⟨hlo, hhi⟩ := h
  interval_cases n
  · exact array_total.bind (fun ps =>
      (Cursor.total_lift (Point.tryInto_returns ps)).bind fun _ => array_total.bind fun qs =>
        (Cursor.total_lift (Point.tryInto_returns qs)).bind fun _ =>
          ended (Cursor.total_pure _)) rest
  · exact ended (Cursor.total_pure _) rest
  · exact ended (Cursor.total_pure _) rest
  · exact ended (Cursor.total_pure _) rest
  · exact bytes_total.bind (fun _ => ended (Cursor.total_pure _)) rest
  · exact ended (Cursor.total_pure _) rest

theorem panic_of_unknown {vals : Values} (h : Unknown vals) :
    fromIter.eval vals = .panic (.text "explicit panic") := by
  obtain ⟨n, rest, rfl, hn⟩ := h
  simp only [fromIter, Cursor.eval, Cursor.bind_apply, integer_cons]
  split
  all_goals first | rfl | omega

theorem fromIter_returns_iff (vals : Values) :
    (fromIter.eval vals).Returns ↔ ¬ Unknown vals := by
  constructor
  · intro hreturns hunknown
    rw [panic_of_unknown hunknown] at hreturns
    exact Outcome.not_returns_panic _ hreturns
  · intro hknown
    rcases vals with _ | ⟨v, rest⟩
    · exact Outcome.returns_err _
    · cases v with
      | integer n =>
          by_cases hn : 0 ≤ n ∧ n ≤ 5
          · exact returns_of_tag hn rest
          · exact absurd ⟨n, rest, rfl, hn⟩ hknown
      | _ => exact Outcome.returns_err _

end Ouroboros.Blockfetch.Message

namespace Ouroboros.Handshake

open Values

theorem Version.fromValues_returns (key value : Value) : (fromValues key value).Returns := by
  cases key with
  | integer n =>
      simp only [fromValues]
      split_ifs
      · split <;> simp
      · split
        · split
          · split <;> simp
          · simp
        · simp
      · split <;> simp
      · simp
  | _ => exact Outcome.returns_err _

namespace Message

/-- The values of an acceptance whose flag is true. -/
def Flagged (vals : Values) : Prop :=
  ∃ n magic items rest,
    vals = .integer 1 :: .integer n :: .array (.integer magic :: .bool true :: items) :: rest

theorem panic_of_flagged {vals : Values} (h : Flagged vals) :
    fromIter.eval vals = .panic (.text "assertion failed") := by
  obtain ⟨n, magic, items, rest, rfl⟩ := h
  rfl

/-- The magic and the flag of an acceptance. -/
theorem params_total : Cursor.Total (do
    let magic := UInt32.ofInt (← integer)
    let _false ← bool
    pure (magic, _false)) :=
  integer_total.bind fun _ => bool_total.bind fun _ => Cursor.total_pure _

theorem params_true {items : Values} {magic : UInt32}
    (h : Cursor.eval (do
      let magic := UInt32.ofInt (← integer)
      let _false ← bool
      pure (magic, _false)) items = .ok (magic, true)) :
    ∃ n rest, items = .integer n :: .bool true :: rest := by
  simp only [Cursor.eval_ok_iff, Cursor.bind_ok_iff, Cursor.pure_apply, integer_ok_iff,
    bool_ok_iff, Prod.mk.injEq, Outcome.ok.injEq] at h
  obtain ⟨_, n, _, rfl, b, rest, rfl, ⟨-, rfl⟩, -⟩ := h
  exact ⟨n, rest, rfl⟩

/-- An acceptance that is not flagged. -/
theorem returns_acceptance {vals : Values} (h : ¬ Flagged (.integer 1 :: vals)) :
    (fromIter.eval (.integer 1 :: vals)).Returns := by
  rcases vals with _ | ⟨v, vals⟩
  · exact Outcome.returns_err _
  cases v with
  | integer n =>
      rcases vals with _ | ⟨v, vals⟩
      · exact Outcome.returns_err _
      cases v with
      | array items =>
          have hparams := params_total items
          show ((Cursor.lift _ >>= _ : Cursor Message).eval vals).Returns
          rw [Cursor.eval, Cursor.bind_apply, Cursor.lift_apply]
          generalize hread : Cursor.eval _ items = r at hparams ⊢
          cases r with
          | ok read =>
              obtain ⟨magic, flag⟩ := read
              cases flag with
              | false => exact Outcome.returns_ok _
              | true =>
                  obtain ⟨k, rest, rfl⟩ := params_true hread
                  exact absurd ⟨n, k, rest, vals, rfl⟩ h
          | err e => exact Outcome.returns_err e
          | panic e => exact absurd rfl (hparams e)
      | _ => exact Outcome.returns_err _
  | _ => exact Outcome.returns_err _

theorem fromIter_returns_iff (vals : Values) :
    (fromIter.eval vals).Returns ↔ ¬ Flagged vals := by
  constructor
  · intro hreturns hflagged
    rw [panic_of_flagged hflagged] at hreturns
    exact Outcome.not_returns_panic _ hreturns
  · intro hflagged
    rcases vals with _ | ⟨v, vals⟩
    · exact Outcome.returns_err _
    · cases v with
      | integer n =>
          by_cases hn : n = 1
          · subst hn
            exact returns_acceptance hflagged
          · show (Cursor.eval _ vals).Returns
            dsimp only
            split
            · exact map_total.bind (fun entries => (Cursor.total_lift
                (Outcome.returns_mapM entries fun e => Version.fromValues_returns e.1 e.2)).bind
                  fun _ => Cursor.total_pure _) vals
            · exact absurd rfl hn
            · exact array_total.bind (fun _ => Cursor.total_pure _) vals
            · exact Outcome.returns_err _
      | _ => exact Outcome.returns_err _

end Message

end Ouroboros.Handshake

namespace Ouroboros

/-- **Decoders on hostile input.** On every list of values, the chain-sync decoder
returns. The handshake decoder returns except on an acceptance whose flag is true,
and the block-fetch decoder except on a number in front that is no tag. -/
theorem decoding_returns_iff (vals : Values) :
    (Chainsync.Message.fromIter.eval vals).Returns ∧
      ((Handshake.Message.fromIter.eval vals).Returns ↔ ¬ Handshake.Message.Flagged vals) ∧
      ((Blockfetch.Message.fromIter.eval vals).Returns ↔ ¬ Blockfetch.Message.Unknown vals) :=
  ⟨Chainsync.Message.fromIter_total vals, Handshake.Message.fromIter_returns_iff vals,
    Blockfetch.Message.fromIter_returns_iff vals⟩

/-- Two inputs that a peer can send. -/
theorem decoding_panics :
    ¬ (Handshake.Message.fromIter.eval
        [.integer 1, .integer 7, .array [.integer 0, .bool true]]).Returns ∧
      ¬ (Blockfetch.Message.fromIter.eval [.integer 6]).Returns := by
  constructor
  · intro h
    exact h _ rfl
  · intro h
    exact h _ rfl

end Ouroboros
