import Ouroboros.Mux.Closing
import Ouroboros.Stack.Refinement

/-!
The handshake over the multiplexer.

What `Coherent` says of the network carries over to the link. When a side has returned,
all that its peer has written has been read and dispatched, so that it may drop its
channel, and open the next one.
-/

set_option linter.dupNamespace false

namespace Ouroboros.Handshake

open Relation Mux Mux.Connection

variable {S : SerdeCbor} {T : Transport} {bc bs : HandshakeBuilder} {v : Version}
  {proposal answer : Bytes} {p : Party Handshake Message} {delivered : Bytes}
  {n : Network Handshake Message} {x : Version × UInt32}

/-! ### When a side has returned -/

theorem ClientAt.of_returns (h : ClientAt bc bs v proposal answer p delivered)
    (hx : Returns S p (.ok x)) : delivered = answer := by
  have hdone := hx.done
  cases h with
  | asking hproto _ =>
      rw [hproto] at hdone
      cases hdone
  | waiting hproto _ _ =>
      rw [hproto] at hdone
      cases hdone
  | finished _ _ _ _ => rfl

theorem ServerAt.of_returns (h : ServerAt bs v proposal answer p delivered)
    (hx : Returns S p (.ok x)) : delivered = proposal := by
  cases h with
  | waiting hproto _ _ =>
      have hdone := hx.done
      rw [hproto] at hdone
      cases hdone
  | answering _ _ _ => rfl
  | finished _ _ _ => rfl

/-- A server that has sent something has returned. -/
theorem ServerAt.returns_of_sent (h : ServerAt bs v proposal answer p delivered)
    (hsent : p.channel.sent ≠ []) : Returns S p (.ok (v, bs.magic)) := by
  cases h with
  | waiting _ hquiet _ => exact absurd hquiet hsent
  | answering _ hquiet _ => exact absurd hquiet hsent
  | finished hproto _ _ =>
      have hdone : p.proto.state = .done := by
        rw [hproto]
        rfl
      have hstop : Party.turn (protocol S) S p = .stop := by
        rw [Party.turn_stop_iff]
        simp [protocol, Handshake.agency, hdone]
      refine ⟨hstop, ?_⟩
      rw [negotiate_of_stop rfl hdone]
      simp [hproto, HandshakeBuilder.serving]

/-- All of the answer has been delivered to a client that has returned. -/
theorem Coherent.client_returned (h : Coherent bc bs v proposal answer n)
    (hx : Returns S n.client (.ok x)) : n.toClient = n.server.channel.sent.flatten := by
  have hle := h.server.sent_flatten
  have hanswer := h.client.of_returns hx
  rw [← hanswer] at hle
  exact h.toClient.eq_of_length_le hle.length_le

theorem Coherent.server_returned (h : Coherent bc bs v proposal answer n)
    (hx : Returns S n.server (.ok x)) : n.toServer = n.client.channel.sent.flatten := by
  have hle := h.client.sent_flatten
  have hproposal := h.server.of_returns hx
  rw [← hproposal] at hle
  exact h.toServer.eq_of_length_le hle.length_le

/-- When the client has returned, so has the server, and the same. -/
theorem Coherent.both_return (hw : Wire S bc bs v proposal answer)
    (h : Coherent bc bs v proposal answer n) (hx : Returns S n.client (.ok x)) :
    Returns S n.server (.ok x) := by
  obtain ⟨rfl, -, hmagic⟩ := h.client.returns hx
  have hsent : n.server.channel.sent ≠ [] := by
    intro hnil
    have hall := h.client_returned hx
    rw [h.client.of_returns hx, hnil] at hall
    exact hw.answerRead.codeword.ne_nil hall
  rw [← hmagic]
  exact h.server.returns_of_sent hsent

/-! ### Over the multiplexer -/

/-- A state of the link, and the state of the network that it stands for. -/
structure Linked (bc bs : HandshakeBuilder) (v : Version) (proposal answer : Bytes)
    (sc ss : Connection) (l : Link Handshake Message) (n : Network Handshake Message) : Prop where
  coherent : Coherent bc bs v proposal answer n
  stands : Link.Stands ss.history.consumed sc.history.consumed sc.tasks.length ss.tasks.length l n

variable {client server : Party Handshake Message} {sc ss : Connection}
  {l : Link Handshake Message}

/-- **The run lemma.** -/
theorem linked_run (hS : S.Lawful) (hcompact : S.Compact) (hT : T.Greedy)
    (hw : Wire S bc bs v proposal answer) (hc : ∀ v ∈ bc.versions, v.Supported)
    (hs : ∀ v ∈ bs.versions, v.Supported) (hclient : bc.client = .ok client)
    (hserver : bs.server = .ok server) (hsc : Settled sc) (hss : Settled ss)
    (hrun : ReflTransGen (Link.Step (protocol S) S T) (.make client server sc ss) l) :
    ∃ n, Linked bc bs v proposal answer sc ss l n ∧
      ((∀ l', ¬ Link.Step (protocol S) S T l l') → ∀ n', ¬ Network.Step (protocol S) S n n') := by
  obtain ⟨hproposal, hanswer⟩ := hw.lengths hS hcompact hc hs
  have hsimulation := Link.simulation (P := protocol S) (S := S) hT ss.history.consumed
    sc.history.consumed sc.tasks.length ss.tasks.length
  have hstands := @Link.stands_make _ _ client server _ _ 0 hsc hss
    (by cases hclient; rfl) (by cases hserver; rfl)
  obtain ⟨n, hn, hstands'⟩ := hsimulation.run
    (fun n hn => (coherent_run hw hclient hserver hn).fits hw hproposal hanswer) hstands hrun
  exact ⟨n, ⟨coherent_run hw hclient hserver hn, hstands'⟩, hsimulation.stuck hstands'⟩

theorem linked_terminates (hS : S.Lawful) (hcompact : S.Compact) (hT : T.Greedy)
    (hw : Wire S bc bs v proposal answer) (hc : ∀ v ∈ bc.versions, v.Supported)
    (hs : ∀ v ∈ bs.versions, v.Supported) (hclient : bc.client = .ok client)
    (hserver : bs.server = .ok server) (hsc : Settled sc) (hss : Settled ss) :
    ¬ ∃ run : ℕ → Link Handshake Message, run 0 = .make client server sc ss ∧
      ∀ i, Link.Step (protocol S) S T (run i) (run (i + 1)) := by
  obtain ⟨hproposal, hanswer⟩ := hw.lengths hS hcompact hc hs
  refine (Link.simulation hT _ _ _ _).terminates
    (fun n hn => (coherent_run hw hclient hserver hn).fits hw hproposal hanswer)
    (@Link.stands_make _ _ client server _ _ 0 hsc hss (by cases hclient; rfl)
      (by cases hserver; rfl)) ?_
  exact Transition.terminates (fun a b ha hab => (ha.step hw hab).1) (rank proposal answer)
    (fun a b ha hab => (ha.step hw hab).2) (coherent_run hw hclient hserver .refl)

namespace Linked

/-- When the client has returned, so has the server, and the same. -/
theorem both_return (h : Linked bc bs v proposal answer sc ss l n)
    (hw : Wire S bc bs v proposal answer) (hx : Returns S l.client.party (.ok x)) :
    Returns S l.server.party (.ok x) ∧ x = (v, bc.magic) ∧ v ∈ bc.versions ∧
      bs.magic = bc.magic := by
  obtain ⟨hcoherent, hstands⟩ := h
  rw [← hstands.client] at hx
  rw [← hstands.server]
  obtain ⟨hxv, hv, hmagic⟩ := hcoherent.client.returns hx
  exact ⟨hcoherent.both_return hw hx, hxv, hv, hmagic⟩

theorem client_drained (h : Linked bc bs v proposal answer sc ss l n)
    (hx : Returns S l.client.party (.ok x)) : l.client.connection.Drained l.server.written := by
  rw [← h.stands.client] at hx
  exact h.stands.client_drained (h.coherent.client_returned hx)

theorem server_drained (h : Linked bc bs v proposal answer sc ss l n)
    (hx : Returns S l.server.party (.ok x)) : l.server.connection.Drained l.client.written := by
  rw [← h.stands.server] at hx
  exact h.stands.swap.client_drained (h.coherent.server_returned hx)

end Linked

/-- What holds of the runs of a client and a server over the multiplexer. -/
structure Negotiates (S : SerdeCbor) (T : Transport) (bc bs : HandshakeBuilder)
    (start : Link Handshake Message) : Prop where
  agree : ∀ l, ReflTransGen (Link.Step (protocol S) S T) start l → ∀ x,
    Returns S l.client.party (.ok x) → Returns S l.server.party (.ok x) ∧
      x.1 ∈ bc.versions ∧ x.1 ∈ bs.versions ∧ x.2 = bc.magic ∧ x.2 = bs.magic
  sound : ∀ l, ReflTransGen (Link.Step (protocol S) S T) start l → ∀ x,
    Returns S l.client.party (.ok x) → Compatible bc bs
  complete : Compatible bc bs → ∀ l, ReflTransGen (Link.Step (protocol S) S T) start l →
    (∀ l', ¬ Link.Step (protocol S) S T l l') → ∃ x, Returns S l.client.party (.ok x)
  terminates : ¬ ∃ run : ℕ → Link Handshake Message,
    run 0 = start ∧ ∀ i, Link.Step (protocol S) S T (run i) (run (i + 1))

/-- **The handshake over the multiplexer.** A client and a server with supported versions
run against each other over two settled connections and sockets that take every byte.
When the client returns `Ok` the server has returned the same pair, which is known to
both. The client returns `Ok` only if the configurations are compatible; in that case
every run comes to an end, and brings it there. -/
theorem negotiates (hS : S.Lawful) (hcompact : S.Compact) (hT : T.Greedy)
    (hc : ∀ v ∈ bc.versions, v.Supported) (hne : bs.versions ≠ [])
    (hs : ∀ v ∈ bs.versions, v.Supported) (hclient : bc.client = .ok client)
    (hserver : bs.server = .ok server) (hsc : Settled sc) (hss : Settled ss) :
    Negotiates S T bc bs (.make client server sc ss) := by
  obtain ⟨v, proposal, answer, hw⟩ := exists_wire hS hc hne hs
  have hrun := fun l => linked_run (l := l) hS hcompact hT hw hc hs hclient hserver hsc hss
  refine ⟨fun l hl x hx => ?_, fun l hl x hx => ?_, fun hcompatible l hl hstuck => ?_, ?_⟩
  · obtain ⟨n, hn, -⟩ := hrun l hl
    obtain ⟨hserver', rfl, hv, hmagic⟩ := hn.both_return hw hx
    exact ⟨hserver', hv, List.mem_of_getLast? hw.last, rfl, hmagic.symm⟩
  · obtain ⟨n, hn, -⟩ := hrun l hl
    obtain ⟨-, rfl, hv, hmagic⟩ := hn.both_return hw hx
    exact ⟨v, hw.last, hv, hmagic.symm⟩
  · obtain ⟨n, hn, hstuck'⟩ := hrun l hl
    rw [← hn.stands.client]
    exact ⟨_, hn.coherent.terminal hw hcompatible (hstuck' hstuck)⟩
  · exact linked_terminates hS hcompact hT hw hc hs hclient hserver hsc hss

/-- The builder's own configuration on two new connections. -/
theorem negotiates_builder :
    ∃ client server, builder.client = .ok client ∧ builder.server = .ok server ∧
      Negotiates Cbor.serdeCbor .greedy builder builder (.make client server .new .new) :=
  ⟨_, _, rfl, rfl, negotiates Cbor.serdeCbor_lawful Cbor.serdeCbor_compact (fun _ _ => rfl)
    supported_builder (by simp [builder]) supported_builder rfl rfl settled_new settled_new⟩

/-! ### After the handshake -/

/-- Both sides may drop their channels. Where that ends any two parties may open theirs,
and what is on the sockets goes on from there. -/
structure Reopens (T : Transport) {σ μ : Type} (l : Link σ μ) : Prop where
  client : Closes l.client.connection
  server : Closes l.server.connection
  next : ∀ sc ss, ReflTransGen Close l.client.connection sc → (∀ s, ¬ Close sc s) →
    ReflTransGen Close l.server.connection ss → (∀ s, ¬ Close ss s) →
    ∀ {σ' μ' : Type} (P : Protocol σ' μ') (S : SerdeCbor) (pc ps : Party σ' μ') (idx : UInt16),
      pc.channel = .open idx → ps.channel = .open (idx ^^^ 0x8000) →
      (∀ n, ReflTransGen (Network.Step P S) ⟨pc, ps, [], []⟩ n → Link.Fits n) →
      (Link.make pc ps sc ss).client.written = l.client.written ∧
        (Link.make pc ps sc ss).server.written = l.server.written ∧
        Link.Implements P S T (.make pc ps sc ss) ⟨pc, ps, [], []⟩

/-- Both sides have read all that has been written. -/
theorem reopens_of_drained {σ μ : Type} {toServer toClient : Bytes} {client server : ℕ}
    {l : Link σ μ} {n : Network σ μ} (hT : T.Greedy)
    (h : Link.Stands toServer toClient client server l n)
    (hclient : l.client.connection.Drained l.server.written)
    (hserver : l.server.connection.Drained l.client.written) : Reopens T l := by
  have hcc := (h.clientLive.draining hclient.idle).closes
  have hcs := (h.serverLive.draining hserver.idle).closes
  refine ⟨hcc, hcs, fun sc ss hsc hsc' hss hss' σ' μ' P S pc ps idx hpc hps hfits => ⟨?_, ?_, ?_⟩⟩
  · exact (hcs.whole ss hss).2.trans hserver.consumed
  · exact (hcc.whole sc hsc).2.trans hclient.consumed
  · exact (Link.stands_make (hcc.settles sc hsc hsc') (hcs.settles ss hss hss') hpc hps).refines
      hT hfits

/-- **From the handshake to the next protocol.** When the client has returned `Ok`, both
sides may drop their channels, in any order of the steps. No part of a frame is lost, and
the two connections settle. The next two parties then run over the same connections as
over an ideal transport. -/
theorem reopens (hS : S.Lawful) (hcompact : S.Compact) (hT : T.Greedy)
    (hc : ∀ v ∈ bc.versions, v.Supported) (hne : bs.versions ≠ [])
    (hs : ∀ v ∈ bs.versions, v.Supported) (hclient : bc.client = .ok client)
    (hserver : bs.server = .ok server) (hsc : Settled sc) (hss : Settled ss)
    (hrun : ReflTransGen (Link.Step (protocol S) S T) (.make client server sc ss) l)
    (hx : Returns S l.client.party (.ok x)) : Reopens T l := by
  obtain ⟨v, proposal, answer, hw⟩ := exists_wire hS hc hne hs
  obtain ⟨n, hn, -⟩ := linked_run hS hcompact hT hw hc hs hclient hserver hsc hss hrun
  exact reopens_of_drained hT hn.stands (hn.client_drained hx)
    (hn.server_drained (hn.both_return hw hx).1)

/-- The builder's own configuration, on two new connections. -/
theorem reopens_builder :
    ∃ client server, builder.client = .ok client ∧ builder.server = .ok server ∧
      ∃ l, ReflTransGen (Link.Step (protocol Cbor.serdeCbor) Cbor.serdeCbor .greedy)
        (.make client server .new .new) l ∧ Reopens .greedy l := by
  obtain ⟨v, proposal, answer, hw⟩ := exists_wire Cbor.serdeCbor_lawful supported_builder
    (by simp [builder]) supported_builder
  obtain ⟨l, hrun, hstuck⟩ := Transition.exists_stuck (linked_terminates Cbor.serdeCbor_lawful
    Cbor.serdeCbor_compact (T := .greedy) (fun _ _ => rfl) hw supported_builder supported_builder
    rfl rfl settled_new settled_new)
  obtain ⟨n, hn, hstuck'⟩ := linked_run Cbor.serdeCbor_lawful Cbor.serdeCbor_compact
    (T := .greedy) (fun _ _ => rfl) hw supported_builder supported_builder rfl rfl settled_new
    settled_new hrun
  have hx := hn.coherent.terminal hw ⟨v, hw.last, List.mem_of_getLast? hw.last, rfl⟩
    (hstuck' hstuck)
  rw [hn.stands.client] at hx
  exact ⟨_, _, rfl, rfl, l, hrun, reopens Cbor.serdeCbor_lawful Cbor.serdeCbor_compact
    (fun _ _ => rfl) supported_builder (by simp [builder]) supported_builder rfl rfl settled_new
    settled_new hrun hx⟩

end Ouroboros.Handshake
