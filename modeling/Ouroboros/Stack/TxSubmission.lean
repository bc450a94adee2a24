import Ouroboros.Protocols.TxSubmission
import Ouroboros.Stack.Client

/-!
The transaction-submission client over the multiplexer.

It has no public call, and `execute` would return at once. What the peer sends on its
channel stays in the queue.
-/

namespace Ouroboros.TxSubmission

open Relation Mux Mux.Connection

variable {S : SerdeCbor} {T : Transport}

theorem advance_once (p : Party TxSubmission Message) :
    Program.once.advance protocol S ((), p) = none :=
  Program.advance_stop (turn_eq_stop S p) rfl

/-- Nothing but the demux task and the peer moves. -/
theorem step_written {stream : Bytes} {c c' : Client Unit TxSubmission Message}
    (h : Client.Step protocol S T .once stream c c') :
    c'.endpoint.written = c.endpoint.written := by
  cases h with
  | arrive _ _ _ => rfl
  | endpoint hstep =>
      cases hstep with
      | send _ hturn _ _ =>
          rw [turn_eq_stop] at hturn
          cases hturn
      | recv _ _ _ => rfl
      | demux _ _ => rfl
  | call _ hcall => cases hcall

/-- What a client that does nothing comes to. -/
structure Inert (S : SerdeCbor) (T : Transport) (stream : Bytes)
    (start : Client Unit TxSubmission Message) (payloads : List Payload) : Prop where
  still : ∀ c, ReflTransGen (Client.Step protocol S T .once stream) start c →
    c.endpoint.written = start.endpoint.written ∧ c.endpoint.party.proto.state = .idle ∧
      c.endpoint.party.log = [] ∧ c.endpoint.party.channel.receiver <+: payloads
  queued : ∀ c, ReflTransGen (Client.Step protocol S T .once stream) start c →
    (∀ c', ¬ Client.Step protocol S T .once stream c c') →
    c.endpoint.party.channel.receiver = payloads
  ends : ¬ ∃ run : ℕ → Client Unit TxSubmission Message, run 0 = start ∧
    ∀ i, Client.Step protocol S T .once stream (run i) (run (i + 1))

/-- **Transaction submission does nothing.** The client opens its channel on a settled
connection, and the peer writes frames for any channels. In whatever order things happen,
nothing is written, no message is handed to the client and its state stays `Idle`. All
payloads for its channel come into its queue, and none of them leaves it. -/
theorem inert (hT : T.Greedy) {s : Connection} (hs : Settled s) (written : Bytes) {cs : List Call}
    (hcs : ∀ c ∈ cs, c.payload.length ≤ 65535) :
    Inert S T (s.history.consumed ++ cs.flatMap Call.wire) ⟨(), .make new s written⟩
      (payloadsFor 0x0004 cs) := by
  have hfollows := @Client.follows_make _ _ _ _ _ hs new _ rfl () written hcs
  have hsequential : Client.Sequential protocol S T .once _ cs _ _ := hfollows.comes hT
  have hdetermined := hsequential.determined .refl (advance_once _)
  refine ⟨fun c hc => ?_, fun c hc hstuck => ?_, hdetermined.ends⟩
  · obtain ⟨payloads, htoward⟩ := hdetermined.toward c hc
    have hparty : c.endpoint.party.arrive payloads = new.arrive (payloadsFor 0x0004 cs) := by
      rcases htoward.cases_head with heq | ⟨y, hy, -⟩
      · exact (Prod.mk.inj heq).2
      · rw [advance_once] at hy
        cases hy
    have hwritten : c.endpoint.written = written := by
      refine Transition.invariant (I := fun c => c.endpoint.written = written)
        (fun a b ha hab => (step_written hab).trans ha) hc rfl
    refine ⟨hwritten, ?_, ?_, ?_⟩
    · exact congrArg (fun p => p.proto.state) hparty
    · exact congrArg (fun p => p.log) hparty
    · exact ⟨payloads, congrArg (fun p => p.channel.receiver) hparty⟩
  · have hparty := (Prod.mk.inj (hdetermined.result c hc hstuck)).2
    rw [hparty]
    rfl

/-- Two requests, and a frame for another channel. -/
theorem inert_requests :
    Inert Cbor.serdeCbor .greedy (([⟨0, 0x8004, [0x84, 0, 0xf5, 0, 1]⟩, ⟨1, 0x8002, [0x81, 1]⟩,
        ⟨2, 0x8004, [0x84, 0, 0xf4, 0, 1]⟩] : List Call).flatMap Call.wire)
      ⟨(), .make new .new []⟩ [[0x84, 0, 0xf5, 0, 1], [0x84, 0, 0xf4, 0, 1]] :=
  @inert _ _ (fun _ _ => rfl) _ settled_new [] [⟨0, 0x8004, [0x84, 0, 0xf5, 0, 1]⟩,
    ⟨1, 0x8002, [0x81, 1]⟩, ⟨2, 0x8004, [0x84, 0, 0xf4, 0, 1]⟩] (by decide)

end Ouroboros.TxSubmission
