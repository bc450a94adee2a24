import Ouroboros.Stack.HandshakeParties

/-!
What holds of two parties over an ideal transport holds of them over the multiplexer.

The two sides open their channels on settled connections, which may have been used
before. What is asked of the parties is that they do not send, over the ideal transport,
what no frame can carry.
-/

namespace Ouroboros

open Relation

namespace Mux

open Connection

variable {σ μ : Type} {P : Protocol σ μ} {S : SerdeCbor} {T : Transport} {pc ps : Party σ μ}
  {sc ss : Connection} {idx : UInt16}

namespace Link

/-- Both sides open a channel. Each has read all that the other one has written. -/
def make (pc ps : Party σ μ) (sc ss : Connection) : Link σ μ where
  client := .make pc sc ss.history.consumed
  server := .make ps ss sc.history.consumed

theorem stands_make (hsc : Settled sc) (hss : Settled ss) (hpc : pc.channel = .open idx)
    (hps : ps.channel = .open (idx ^^^ 0x8000)) :
    Stands ss.history.consumed sc.history.consumed sc.tasks.length ss.tasks.length
      (make pc ps sc ss) ⟨pc, ps, [], []⟩ := by
  have hidx : idx ^^^ 0x8000 ^^^ 0x8000 = idx := by
    rw [UInt16.xor_assoc, UInt16.xor_self, UInt16.xor_zero]
  refine ⟨Endpoint.live_make hsc pc _, Endpoint.live_make hss ps _, ?_, ?_,
    ⟨[], [], ⟨?_, ?_, ?_, ?_⟩, rfl⟩, ⟨[], [], ⟨?_, ?_, ?_, ?_⟩, rfl⟩, ?_⟩
  · exact (Endpoint.party_make hsc (by rw [hpc]; rfl) _).symm
  · exact (Endpoint.party_make hss (by rw [hps]; rfl) _).symm
  · exact Carries.opened hss _
  · simp [make, Endpoint.make, hpc, Channel.open]
  · simp
  · simp [make, Endpoint.make, hpc, hps, Channel.open]
  · exact Carries.opened hsc _
  · simp [make, Endpoint.make, hps, Channel.open]
  · simp
  · show ps.channel.idx ^^^ 0x8000 = pc.channel.idx
    rw [hpc, hps]
    exact hidx
  · simp [Fits, hpc, hps, Channel.open]

/-- The link does what the network does: its runs lead where those of the network lead, it
is not stuck unless the network is, and it does not go on for ever on its own. -/
structure Implements (P : Protocol σ μ) (S : SerdeCbor) (T : Transport) (l : Link σ μ)
    (n : Network σ μ) : Prop where
  runs : ∀ l', ReflTransGen (Step P S T) l l' →
    ∃ n', ReflTransGen (Network.Step P S) n n' ∧ n'.client = l'.client.party ∧
      n'.server = l'.server.party ∧
      ((∀ l'', ¬ Step P S T l' l'') → ∀ n'', ¬ Network.Step P S n' n'')
  ends : (¬ ∃ run : ℕ → Network σ μ, run 0 = n ∧ ∀ i, Network.Step P S (run i) (run (i + 1))) →
    ¬ ∃ run : ℕ → Link σ μ, run 0 = l ∧ ∀ i, Step P S T (run i) (run (i + 1))

theorem Stands.refines (hT : T.Greedy) {toServer toClient : Bytes} {client server : ℕ}
    {l : Link σ μ} {n : Network σ μ} (h : Stands toServer toClient client server l n)
    (hfits : ∀ n', ReflTransGen (Network.Step P S) n n' → Fits n') : Implements P S T l n := by
  have hsimulation := simulation (P := P) (S := S) hT toServer toClient client server
  refine ⟨fun l' hrun => ?_, hsimulation.terminates hfits h⟩
  obtain ⟨n', hrun', hstands⟩ := hsimulation.run hfits h hrun
  exact ⟨n', hrun', hstands.client, hstands.server, hsimulation.stuck hstands⟩

/-- **The multiplexer refines the ideal transport.** Two parties open their channels on
settled connections, over sockets that take every byte they are offered. If over an
ideal transport they never send a payload that is empty or does not fit a frame, then
whatever they do over the multiplexer they do over the ideal transport. -/
theorem implements (hT : T.Greedy) (hsc : Settled sc) (hss : Settled ss)
    (hpc : pc.channel = .open idx) (hps : ps.channel = .open (idx ^^^ 0x8000))
    (hfits : ∀ n, ReflTransGen (Network.Step P S) ⟨pc, ps, [], []⟩ n → Fits n) :
    Implements P S T (make pc ps sc ss) ⟨pc, ps, [], []⟩ :=
  (stands_make hsc hss hpc hps).refines hT hfits

/-- A handshake between two new connections. -/
theorem implements_handshake :
    ∃ client server, Handshake.builder.client = .ok client ∧
      Handshake.builder.server = .ok server ∧
      Implements (Handshake.protocol Cbor.serdeCbor) Cbor.serdeCbor .greedy
        (make client server .new .new) ⟨client, server, [], []⟩ :=
  ⟨_, _, rfl, rfl, @implements _ _ _ _ _ _ _ _ _ 0 (fun _ _ => rfl) settled_new settled_new rfl rfl
    fun _ hrun => (Handshake.sound_builder rfl rfl hrun).1⟩

/-- **In order, and once.** Two parties open their channels on settled connections. If
over an ideal transport they never send a payload that is empty, does not fit a frame or
cannot be read, then over the multiplexer each of them is handed what the other one has
said: each message once, in the order in which they were sent, and none that was not.
When nothing can move any more, a party that still waits has been handed all of them. -/
theorem in_order (hT : T.Greedy) (hsc : Settled sc) (hss : Settled ss)
    (hpc : pc.channel = .open idx) (hps : ps.channel = .open (idx ^^^ 0x8000))
    (hlogc : pc.log = []) (hlogs : ps.log = []) {m : μ} {w : Bytes} (hm : P.Encoded S m w)
    (hsound : ∀ n, ReflTransGen (Network.Step P S) ⟨pc, ps, [], []⟩ n →
      Fits n ∧ Network.Readable P S n)
    {l : Link σ μ} (hrun : ReflTransGen (Step P S T) (make pc ps sc ss) l) :
    Delivers P S l.client.party l.server.party
        ((∀ l', ¬ Step P S T l l') ∧ Party.turn P S l.server.party = .wait) ∧
      Delivers P S l.server.party l.client.party
        ((∀ l', ¬ Step P S T l l') ∧ Party.turn P S l.client.party = .wait) := by
  have hsimulation := simulation (P := P) (S := S) hT ss.history.consumed sc.history.consumed
    sc.tasks.length ss.tasks.length
  obtain ⟨n, hrun', hstands⟩ := hsimulation.run (fun n hn => (hsound n hn).1)
    (stands_make hsc hss hpc hps) hrun
  have hhears := Network.Hears.run hpc hps hlogc hlogs hm (fun n hn => (hsound n hn).2) hrun'
  rw [← hstands.client, ← hstands.server]
  obtain ⟨hserver, hclient⟩ := hhears.delivers
  exact ⟨hserver.imp fun ⟨hstuck, hwait⟩ => ⟨hsimulation.stuck hstands hstuck, hwait⟩,
    hclient.imp fun ⟨hstuck, hwait⟩ => ⟨hsimulation.stuck hstands hstuck, hwait⟩⟩

/-- The two sides of a handshake. -/
theorem in_order_handshake :
    ∃ client server, Handshake.builder.client = .ok client ∧
      Handshake.builder.server = .ok server ∧
      ∀ l, ReflTransGen (Step (Handshake.protocol Cbor.serdeCbor) Cbor.serdeCbor .greedy)
          (make client server .new .new) l →
        ∃ ms, List.Forall₂ ((Handshake.protocol Cbor.serdeCbor).Reads Cbor.serdeCbor)
          l.client.party.told ms ∧ l.server.party.handed <+: ms := by
  obtain ⟨w, hw⟩ := Handshake.exists_encoded
  refine ⟨_, _, rfl, rfl, fun l hrun => ?_⟩
  obtain ⟨ms, htold, hhanded, -⟩ := (@in_order _ _ _ _ _ _ _ _ _ 0 (fun _ _ => rfl) settled_new
    settled_new rfl rfl rfl rfl _ w hw (fun _ hrun => Handshake.sound_builder rfl rfl hrun) l
    hrun).1
  exact ⟨ms, htold, hhanded⟩

end Link

end Mux

end Ouroboros
