import Ouroboros.Protocols.HandshakeServer
import Ouroboros.Protocols.Network
import Mathlib.Data.List.Infix

/-!
Agreement of a handshake client with a handshake server.

The proposal and its answer are the only two messages of the conversation. At
every moment the client has yet to ask, waits for the answer, or has seen it,
and the server has yet to see the proposal, is about to answer, or has answered
(`ClientAt`, `ServerAt`). `Coherent` ties the two to what the transport has
delivered; every step keeps it, and every step lowers `rank`.
-/

set_option linter.dupNamespace false

namespace Ouroboros.Handshake

open Streaming

variable {S : SerdeCbor}

/-- The two messages on the wire: the client's proposal, and the server's
acceptance of its own last version. -/
structure Wire (S : SerdeCbor) (bc bs : HandshakeBuilder) (v : Version) (proposal answer : Bytes) :
    Prop where
  last : bs.versions.getLast? = some v
  sent : (protocol S).toBytes S
    (.proposeVersions (bc.versions.map fun v => (v, bc.magic))) = .ok proposal
  read : ∃ versions, (protocol S).Encoded S (.proposeVersions versions) proposal
  answerSent : (protocol S).toBytes S (.acceptVersion v bs.magic) = .ok answer
  answerRead : (protocol S).Encoded S (.acceptVersion v bs.magic) answer

theorem exists_wire (hS : S.Lawful) {bc bs : HandshakeBuilder}
    (hc : ∀ v ∈ bc.versions, v.Supported) (hne : bs.versions ≠ [])
    (hs : ∀ v ∈ bs.versions, v.Supported) :
    ∃ v proposal answer, Wire S bc bs v proposal answer := by
  obtain ⟨v, hlast⟩ : ∃ v, bs.versions.getLast? = some v :=
    ⟨_, List.getLast?_eq_some_getLast hne⟩
  obtain ⟨values, versions, hvalues, hplain, hread⟩ :=
    Message.toValues_proposeVersions hS hc bc.magic
  obtain ⟨values', hvalues', hplain', hread'⟩ :=
    Message.toValues_acceptVersion (S := S) (hs v (List.mem_of_getLast? hlast)).short bs.magic
  obtain ⟨proposal, hproposal⟩ := hS.toVec_ok values hplain
  obtain ⟨answer, hanswer⟩ := hS.toVec_ok values' hplain'
  refine ⟨v, proposal, answer, hlast, ?_, ⟨versions, ?_⟩, ?_, ?_⟩
  · simp [Protocol.toBytes, protocol, hvalues, hproposal]
  · exact Protocol.encoded_of_toVec hS hplain hproposal hread
  · simp [Protocol.toBytes, protocol, hvalues', hanswer]
  · exact Protocol.encoded_of_toVec hS hplain' hanswer hread'

def HandshakeBuilder.asking (b : HandshakeBuilder) (state : State) (version : Option Version) :
    Handshake :=
  { role := .client, versions := b.versions, networkMagic := b.magic, state, version }

@[simp] theorem role_asking (b : HandshakeBuilder) (state : State) (version : Option Version) :
    (protocol S).role (b.asking state version) = .client := rfl

@[simp] theorem agency_asking_propose (b : HandshakeBuilder) (version : Option Version) :
    (protocol S).agency (b.asking .propose version) = .client := rfl

@[simp] theorem agency_asking_confirm (b : HandshakeBuilder) (version : Option Version) :
    (protocol S).agency (b.asking .confirm version) = .server := rfl

/-- Where the client is, once `delivered` has arrived. -/
inductive ClientAt (bc bs : HandshakeBuilder) (v : Version) (proposal answer : Bytes) :
    Party Handshake Message → Bytes → Prop
  | asking {p : Party Handshake Message} : p.proto = bc.asking .propose none →
      p.channel = .open 0x0000 → ClientAt bc bs v proposal answer p []
  | waiting {p : Party Handshake Message} {delivered : Bytes} :
      p.proto = bc.asking .confirm none → p.channel.sent = [proposal] →
      p.Receiving answer delivered → ClientAt bc bs v proposal answer p delivered
  | finished {p : Party Handshake Message} : bs.magic = bc.magic →
      p.proto = bc.asking .done (bc.versions.find? (· = v)) → p.channel.sent = [proposal] →
      p.channel.receiver = [] → ClientAt bc bs v proposal answer p answer

/-- Where the server is, once `delivered` has arrived. -/
inductive ServerAt (bs : HandshakeBuilder) (v : Version) (proposal answer : Bytes) :
    Party Handshake Message → Bytes → Prop
  | waiting {p : Party Handshake Message} {delivered : Bytes} :
      p.proto = bs.serving .propose none → p.channel.sent = [] →
      p.Receiving proposal delivered → ServerAt bs v proposal answer p delivered
  | answering {p : Party Handshake Message} : p.proto = bs.serving .confirm none →
      p.channel.sent = [] → p.channel.receiver = [] → ServerAt bs v proposal answer p proposal
  | finished {p : Party Handshake Message} : p.proto = bs.serving .done (some v) →
      p.channel.sent = [answer] → p.channel.receiver = [] →
      ServerAt bs v proposal answer p proposal

variable {bc bs : HandshakeBuilder} {v : Version} {proposal answer : Bytes}
  {p p' : Party Handshake Message} {delivered : Bytes}

/-- What a turn of either side takes down. -/
def clientRank (p : Party Handshake Message) : ℕ :=
  p.channel.receiver.length + if p.proto.state = .propose then 1 else 0

def serverRank (p : Party Handshake Message) : ℕ :=
  p.channel.receiver.length + if p.proto.state = .done then 0 else 1

theorem clientRank_arrive (p : Party Handshake Message) (chunk : Bytes) :
    clientRank (p.arrive [chunk]) = clientRank p + 1 := by
  simp only [clientRank, Party.arrive, List.length_append, List.length_singleton]
  exact Nat.add_right_comm _ _ _

theorem serverRank_arrive (p : Party Handshake Message) (chunk : Bytes) :
    serverRank (p.arrive [chunk]) = serverRank p + 1 := by
  simp only [serverRank, Party.arrive, List.length_append, List.length_singleton]
  exact Nat.add_right_comm _ _ _

/-! ### The client's turns -/

/-- Only a client that has yet to ask sends anything: its proposal. -/
theorem ClientAt.asks {m : Message} {s : Handshake} {data : Bytes}
    (hw : Wire S bc bs v proposal answer) (h : ClientAt bc bs v proposal answer p delivered)
    (hnone : (protocol S).agency p.proto ≠ .none)
    (hrole : (protocol S).agency p.proto = (protocol S).role p.proto)
    (hsend : (protocol S).send p.proto = (.ok m, s)) (hdata : (protocol S).toBytes S m = .ok data) :
    ClientAt bc bs v proposal answer (p.afterSend s m data) delivered ∧
      p.channel.sent <+: (p.afterSend s m data).channel.sent ∧
      clientRank (p.afterSend s m data) < clientRank p := by
  cases h with
  | asking hproto hchannel =>
      rw [hproto] at hsend
      cases hsend
      cases hw.sent.symm.trans hdata
      refine ⟨.waiting rfl ?_ ⟨?_, List.nil_prefix, ?_, ?_⟩, List.prefix_append _ _, ?_⟩
      · simp [Party.afterSend, hchannel, Channel.open]
      · simp [Party.afterSend, hchannel, Channel.open]
      · simpa [Party.afterSend, hchannel, Channel.open] using hw.answerRead.codeword.ne_nil.symm
      · simp [Party.afterSend, hchannel, Channel.open]
      · simp [clientRank, Party.afterSend, hproto, HandshakeBuilder.asking]
  | waiting hproto hsent hreceiving =>
      rw [hproto] at hrole
      cases hrole
  | finished hmagic hproto hsent hreceiver =>
      rw [hproto] at hnone
      exact absurd rfl hnone

/-- An acceptance that the client takes shows that the magics agree. -/
theorem magic_of_deliver {s : Handshake} (hproto : p.proto = bc.asking .confirm none)
    (hdeliver : (protocol S).deliver [.acceptVersion v bs.magic] p.proto = (.ok (), s)) :
    bs.magic = bc.magic := by
  rw [hproto] at hdeliver
  by_contra hne
  simp [protocol, Protocol.deliver, Handshake.recv, HandshakeBuilder.asking, hne] at hdeliver

/-- Only a client that waits for its answer reads, and it takes the answer only if
the magics agree. -/
theorem ClientAt.hears {q : Bytes} {qs : List Bytes} {ms : List Message} {tail : Tail UInt8 Error}
    {s : Handshake} (hw : Wire S bc bs v proposal answer)
    (h : ClientAt bc bs v proposal answer p delivered)
    (hrole : (protocol S).agency p.proto ≠ (protocol S).role p.proto)
    (hq : p.channel.receiver = q :: qs)
    (hfeed : ((protocol S).decoder S).feed p.channel.bytes q = (ms, tail))
    (hdeliver : (protocol S).deliver ms p.proto = (.ok (), s)) :
    ClientAt bc bs v proposal answer (p.afterRecv (protocol S) ms qs tail.carry) delivered ∧
      clientRank (p.afterRecv (protocol S) ms qs tail.carry) < clientRank p := by
  cases h with
  | asking hproto hchannel =>
      rw [hproto] at hrole
      exact absurd rfl hrole
  | waiting hproto hsent hreceiving =>
      rcases hreceiving.feed hw.answerRead.codeword hq with
        ⟨rfl, rfl, hfeed'⟩ | ⟨hfeed', hreceiving'⟩
      · rw [hfeed] at hfeed'
        cases hfeed'
        have hmagic : bs.magic = bc.magic := magic_of_deliver hproto hdeliver
        have hafter : (p.afterRecv (protocol S) [.acceptVersion v bs.magic] []
            (Tail.carry (Tail.done : Tail UInt8 Error))).proto =
            bc.asking .done (bc.versions.find? (· = v)) := by
          simp [Party.afterRecv, Party.delivered, hproto, protocol, Protocol.deliver,
            Handshake.recv, HandshakeBuilder.asking, hmagic]
        refine ⟨.finished hmagic hafter hsent rfl, ?_⟩
        simp only [clientRank, hafter, hq]
        simp [Party.afterRecv, HandshakeBuilder.asking]
      · rw [hfeed] at hfeed'
        cases hfeed'
        refine ⟨.waiting hproto hsent hreceiving', ?_⟩
        simp [clientRank, Party.afterRecv, Party.delivered, Protocol.deliver, hq, hproto,
          HandshakeBuilder.asking]
  | finished hmagic hproto hsent hreceiver =>
      rw [hq] at hreceiver
      cases hreceiver

/-- Asking sends the proposal, and the answer is taken only if the magics agree. -/
theorem ClientAt.turned (hw : Wire S bc bs v proposal answer)
    (h : ClientAt bc bs v proposal answer p delivered)
    (ht : Party.Turned (protocol S) S p p') :
    ClientAt bc bs v proposal answer p' delivered ∧
      p.channel.sent <+: p'.channel.sent ∧ clientRank p' < clientRank p := by
  cases ht with
  | send hnone hrole hsend hdata => exact h.asks hw hnone hrole hsend hdata
  | recv hnone hrole hq hfeed hdeliver htail =>
      obtain ⟨hclient, hrank⟩ := h.hears hw hrole hq hfeed hdeliver
      exact ⟨hclient, List.prefix_refl _, hrank⟩

/-! ### The server's turns -/

/-- Only a server that has seen the proposal sends anything: its acceptance. -/
theorem ServerAt.answers {m : Message} {s : Handshake} {data : Bytes}
    (hw : Wire S bc bs v proposal answer) (h : ServerAt bs v proposal answer p delivered)
    (hnone : (protocol S).agency p.proto ≠ .none)
    (hrole : (protocol S).agency p.proto = (protocol S).role p.proto)
    (hsend : (protocol S).send p.proto = (.ok m, s)) (hdata : (protocol S).toBytes S m = .ok data) :
    ServerAt bs v proposal answer (p.afterSend s m data) delivered ∧
      p.channel.sent <+: (p.afterSend s m data).channel.sent ∧
      serverRank (p.afterSend s m data) < serverRank p := by
  cases h with
  | waiting hproto hsent hreceiving =>
      rw [hproto] at hrole
      cases hrole
  | answering hproto hsent hreceiver =>
      rw [hproto] at hsend
      simp only [protocol, Handshake.send, HandshakeBuilder.serving, hw.last] at hsend
      cases hsend
      cases hw.answerSent.symm.trans hdata
      refine ⟨.finished rfl ?_ hreceiver, List.prefix_append _ _, ?_⟩
      · simp [Party.afterSend, hsent]
      · simp [serverRank, Party.afterSend, hproto, HandshakeBuilder.serving]
  | finished hproto hsent hreceiver =>
      rw [hproto] at hnone
      exact absurd rfl hnone

/-- Only a server that waits for the proposal reads. -/
theorem ServerAt.hears {q : Bytes} {qs : List Bytes} {ms : List Message} {tail : Tail UInt8 Error}
    (hw : Wire S bc bs v proposal answer) (h : ServerAt bs v proposal answer p delivered)
    (hq : p.channel.receiver = q :: qs)
    (hfeed : ((protocol S).decoder S).feed p.channel.bytes q = (ms, tail)) :
    ServerAt bs v proposal answer (p.afterRecv (protocol S) ms qs tail.carry) delivered ∧
      serverRank (p.afterRecv (protocol S) ms qs tail.carry) < serverRank p := by
  cases h with
  | waiting hproto hsent hreceiving =>
      obtain ⟨versions, hread⟩ := hw.read
      rcases hreceiving.feed hread.codeword hq with ⟨rfl, rfl, hfeed'⟩ | ⟨hfeed', hreceiving'⟩
      · rw [hfeed] at hfeed'
        cases hfeed'
        have hafter : (p.afterRecv (protocol S) [.proposeVersions versions] []
            (Tail.carry (Tail.done : Tail UInt8 Error))).proto = bs.serving .confirm none := by
          simp only [Party.afterRecv, Party.delivered, hproto]
          rfl
        refine ⟨.answering hafter hsent rfl, ?_⟩
        simp only [serverRank, hafter, hq, hproto]
        simp [Party.afterRecv, HandshakeBuilder.serving]
      · rw [hfeed] at hfeed'
        cases hfeed'
        refine ⟨.waiting hproto hsent hreceiving', ?_⟩
        simp [serverRank, Party.afterRecv, Party.delivered, Protocol.deliver, hq, hproto,
          HandshakeBuilder.serving]
  | answering hproto hsent hreceiver =>
      rw [hq] at hreceiver
      cases hreceiver
  | finished hproto hsent hreceiver =>
      rw [hq] at hreceiver
      cases hreceiver

theorem ServerAt.turned (hw : Wire S bc bs v proposal answer)
    (h : ServerAt bs v proposal answer p delivered)
    (ht : Party.Turned (protocol S) S p p') :
    ServerAt bs v proposal answer p' delivered ∧
      p.channel.sent <+: p'.channel.sent ∧ serverRank p' < serverRank p := by
  cases ht with
  | send hnone hrole hsend hdata => exact h.answers hw hnone hrole hsend hdata
  | recv hnone hrole hq hfeed hdeliver htail =>
      obtain ⟨hserver, hrank⟩ := h.hears hw hq hfeed
      exact ⟨hserver, List.prefix_refl _, hrank⟩

/-! ### The network -/

/-- Both sides are where the delivered bytes have brought them, and nothing has
been delivered that was not sent. -/
structure Coherent (bc bs : HandshakeBuilder) (v : Version) (proposal answer : Bytes)
    (n : Network Handshake Message) : Prop where
  client : ClientAt bc bs v proposal answer n.client n.toClient
  server : ServerAt bs v proposal answer n.server n.toServer
  toServer : n.toServer <+: n.client.channel.sent.flatten
  toClient : n.toClient <+: n.server.channel.sent.flatten

variable {n n' : Network Handshake Message}

theorem ClientAt.sent_flatten (h : ClientAt bc bs v proposal answer p delivered) :
    p.channel.sent.flatten <+: proposal := by
  cases h with
  | asking hproto hchannel => simp [hchannel, Channel.open]
  | waiting hproto hsent hreceiving => simp [hsent]
  | finished hmagic hproto hsent hreceiver => simp [hsent]

theorem ServerAt.sent_flatten (h : ServerAt bs v proposal answer p delivered) :
    p.channel.sent.flatten <+: answer := by
  cases h with
  | waiting hproto hsent hreceiving => simp [hsent]
  | answering hproto hsent hreceiver => simp [hsent]
  | finished hproto hsent hreceiver => simp [hsent]

/-- Bytes that are still to come find the client waiting for them. -/
theorem Coherent.arrive_client (hw : Wire S bc bs v proposal answer)
    (h : Coherent bc bs v proposal answer n) {chunk : Bytes} (hchunk : chunk ≠ [])
    (hsent : n.toClient ++ chunk <+: n.server.channel.sent.flatten) :
    ClientAt bc bs v proposal answer (n.client.arrive [chunk]) (n.toClient ++ chunk) := by
  have hall : n.toClient ++ chunk <+: answer := hsent.trans h.server.sent_flatten
  obtain ⟨hclient, hserver, htoServer, -⟩ := h
  generalize hd : n.toClient = delivered at hclient hall
  cases hclient with
  | asking hproto hchannel =>
      -- the server has nothing to answer yet
      exfalso
      rw [hchannel] at htoServer
      have hnil : n.toServer = [] := List.prefix_nil.mp htoServer
      obtain ⟨versions, hread⟩ := hw.read
      have hne := hread.codeword.ne_nil
      have hquiet : n.server.channel.sent = [] := by
        generalize hd' : n.toServer = d at hserver hnil
        cases hserver with
        | waiting _ hquiet _ => exact hquiet
        | answering _ hquiet _ => exact hquiet
        | finished _ _ _ => exact absurd hnil hne
      rw [hquiet, List.flatten_nil, List.prefix_nil] at hsent
      exact hchunk (List.append_eq_nil_iff.mp hsent).2
  | waiting hproto hproposal hreceiving =>
      exact .waiting hproto hproposal (hreceiving.arrive hchunk hall)
  | finished hmagic hproto hproposal hreceiver =>
      have hlen := hall.length_le
      rw [List.length_append] at hlen
      exact absurd (List.eq_nil_of_length_eq_zero (by omega)) hchunk

theorem Coherent.arrive_server (h : Coherent bc bs v proposal answer n) {chunk : Bytes}
    (hchunk : chunk ≠ []) (hsent : n.toServer ++ chunk <+: n.client.channel.sent.flatten) :
    ServerAt bs v proposal answer (n.server.arrive [chunk]) (n.toServer ++ chunk) := by
  have hall : n.toServer ++ chunk <+: proposal := hsent.trans h.client.sent_flatten
  have hserver := h.server
  have hfull : n.toServer ≠ proposal := by
    intro hd
    have hlen := hall.length_le
    rw [hd, List.length_append] at hlen
    exact hchunk (List.eq_nil_of_length_eq_zero (by omega))
  generalize n.toServer = delivered at hserver hall hfull
  cases hserver with
  | waiting hproto hquiet hreceiving => exact .waiting hproto hquiet (hreceiving.arrive hchunk hall)
  | answering hproto hquiet hreceiver => exact absurd rfl hfull
  | finished hproto hanswer hreceiver => exact absurd rfl hfull

/-- What every step of the network takes down. -/
def rank (proposal answer : Bytes) (n : Network Handshake Message) : ℕ :=
  2 * (proposal.length - n.toServer.length) + serverRank n.server +
    (2 * (answer.length - n.toClient.length) + clientRank n.client)

theorem Coherent.step (hw : Wire S bc bs v proposal answer)
    (h : Coherent bc bs v proposal answer n) (hstep : Network.Step (protocol S) S n n') :
    Coherent bc bs v proposal answer n' ∧ rank proposal answer n' < rank proposal answer n := by
  cases hstep with
  | client ht =>
      obtain ⟨hclient, hsent, hrank⟩ := h.client.turned hw (Party.turned_of_next ht)
      refine ⟨⟨hclient, h.server, h.toServer.trans hsent.flatten, h.toClient⟩, ?_⟩
      simp only [rank]
      omega
  | server ht =>
      obtain ⟨hserver, hsent, hrank⟩ := h.server.turned hw (Party.turned_of_next ht)
      refine ⟨⟨h.client, hserver, h.toServer, h.toClient.trans hsent.flatten⟩, ?_⟩
      simp only [rank]
      omega
  | @toServer chunk hchunk hsent =>
      refine ⟨⟨h.client, h.arrive_server hchunk hsent, hsent, h.toClient⟩, ?_⟩
      have hlen := (hsent.trans h.client.sent_flatten).length_le
      have hpos : 0 < chunk.length := List.length_pos_iff.mpr hchunk
      simp only [List.length_append] at hlen
      simp only [rank, serverRank_arrive, List.length_append]
      omega
  | @toClient chunk hchunk hsent =>
      refine ⟨⟨h.arrive_client hw hchunk hsent, h.server, h.toServer, hsent⟩, ?_⟩
      have hlen := (hsent.trans h.server.sent_flatten).length_le
      have hpos : 0 < chunk.length := List.length_pos_iff.mpr hchunk
      simp only [List.length_append] at hlen
      simp only [rank, clientRank_arrive, List.length_append]
      omega

/-! ### Where a conversation ends -/

/-- The loop of `negotiate` is over, and it returns `x`. -/
def Returns (S : SerdeCbor) (p : Party Handshake Message) (x : Exit (Version × UInt32)) : Prop :=
  Party.turn (protocol S) S p = .stop ∧ (negotiate S p).1 = x

theorem Returns.done {x : Exit (Version × UInt32)} (h : Returns S p x) :
    p.proto.state = .done := by
  have hnone := Party.turn_stop_iff.mp h.1
  revert hnone
  simp only [protocol, Handshake.agency]
  cases p.proto.state <;> simp

theorem ClientAt.returns (h : ClientAt bc bs v proposal answer p delivered)
    {x : Version × UInt32} (hx : Returns S p (.ok x)) :
    x = (v, bc.magic) ∧ v ∈ bc.versions ∧ bs.magic = bc.magic := by
  have hdone := hx.done
  have hresult := hx.2
  rw [negotiate_of_stop rfl hdone] at hresult
  cases h with
  | asking hproto hchannel =>
      rw [hproto] at hdone
      cases hdone
  | waiting hproto hsent hreceiving =>
      rw [hproto] at hdone
      cases hdone
  | finished hmagic hproto hsent hreceiver =>
      rw [hproto] at hresult
      by_cases hv : v ∈ bc.versions
      · simp only [HandshakeBuilder.asking, find_version hv] at hresult
        cases hresult
        exact ⟨rfl, hv, hmagic⟩
      · simp only [HandshakeBuilder.asking, find_version_none hv] at hresult
        cases hresult

theorem ServerAt.returns (h : ServerAt bs v proposal answer p delivered)
    {x : Version × UInt32} (hx : Returns S p (.ok x)) : x = (v, bs.magic) := by
  have hdone := hx.done
  have hresult := hx.2
  rw [negotiate_of_stop rfl hdone] at hresult
  cases h with
  | waiting hproto hsent hreceiving =>
      rw [hproto] at hdone
      cases hdone
  | answering hproto hsent hreceiver =>
      rw [hproto] at hdone
      cases hdone
  | finished hproto hsent hreceiver =>
      rw [hproto] at hresult
      cases hresult
      rfl

/-- The server's last version is one of the client's, and the magics are equal. -/
def Compatible (bc bs : HandshakeBuilder) : Prop :=
  ∃ v, bs.versions.getLast? = some v ∧ v ∈ bc.versions ∧ bc.magic = bs.magic

/-- The client can move, or it has asked and returns once the answer is there. -/
theorem ClientAt.advances (hw : Wire S bc bs v proposal answer) (hv : v ∈ bc.versions)
    (hmagic : bs.magic = bc.magic) (h : ClientAt bc bs v proposal answer p delivered) :
    (∃ p', Party.turn (protocol S) S p = .next p') ∨
      p.channel.sent = [proposal] ∧ (delivered = answer → Returns S p (.ok (v, bc.magic))) := by
  cases h with
  | asking hproto hchannel =>
      left
      have hnone : (protocol S).agency p.proto ≠ .none := by simp [hproto]
      have hrole : (protocol S).agency p.proto = (protocol S).role p.proto := by simp [hproto]
      have hsend : (protocol S).send p.proto = (.ok (.proposeVersions
          (bc.versions.map fun v => (v, bc.magic))), bc.asking .confirm none) := by
        rw [hproto]
        rfl
      exact ⟨_, Party.turn_send_ok hnone hrole hsend hw.sent⟩
  | waiting hproto hsent hreceiving =>
      by_cases hfull : delivered = answer
      · left
        subst hfull
        have hnone : (protocol S).agency p.proto ≠ .none := by simp [hproto]
        have hrole : (protocol S).agency p.proto ≠ (protocol S).role p.proto := by simp [hproto]
        obtain ⟨q, qs, hq⟩ := hreceiving.ready
        rcases hreceiving.feed hw.answerRead.codeword hq with ⟨-, -, hfeed⟩ | ⟨hfeed, -⟩
        · have hdeliver : (protocol S).deliver [.acceptVersion v bs.magic] p.proto =
              (.ok (), bc.asking .done (bc.versions.find? (· = v))) := by
            simp [hproto, protocol, Protocol.deliver, Handshake.recv, HandshakeBuilder.asking,
              hmagic]
          exact ⟨_, Party.turn_recv_ok hnone hrole hq hfeed hdeliver (by simp)⟩
        · exact ⟨_, Party.turn_recv_ok (s := p.proto) hnone hrole hq hfeed rfl (by simp)⟩
      · exact .inr ⟨hsent, fun h => absurd h hfull⟩
  | finished _ hproto hsent hreceiver =>
      right
      have hdone : p.proto.state = .done := by
        rw [hproto]
        rfl
      have hstop : Party.turn (protocol S) S p = .stop := by
        rw [Party.turn_stop_iff]
        simp [protocol, Handshake.agency, hdone]
      refine ⟨hsent, fun _ => ⟨hstop, ?_⟩⟩
      rw [negotiate_of_stop rfl hdone]
      simp [hproto, HandshakeBuilder.asking, find_version hv]

/-- The server can move, or it has answered once the proposal is there. -/
theorem ServerAt.advances (hw : Wire S bc bs v proposal answer)
    (h : ServerAt bs v proposal answer p delivered) :
    (∃ p', Party.turn (protocol S) S p = .next p') ∨
      (delivered = proposal → p.channel.sent = [answer]) := by
  cases h with
  | waiting hproto hsent hreceiving =>
      by_cases hfull : delivered = proposal
      · left
        subst hfull
        have hnone : (protocol S).agency p.proto ≠ .none := by simp [hproto]
        have hrole : (protocol S).agency p.proto ≠ (protocol S).role p.proto := by simp [hproto]
        obtain ⟨versions, hread⟩ := hw.read
        obtain ⟨q, qs, hq⟩ := hreceiving.ready
        rcases hreceiving.feed hread.codeword hq with ⟨-, -, hfeed⟩ | ⟨hfeed, -⟩
        · have hdeliver : (protocol S).deliver [.proposeVersions versions] p.proto =
              (.ok (), bs.serving .confirm none) := by
            rw [hproto]
            rfl
          exact ⟨_, Party.turn_recv_ok hnone hrole hq hfeed hdeliver (by simp)⟩
        · exact ⟨_, Party.turn_recv_ok (s := p.proto) hnone hrole hq hfeed rfl (by simp)⟩
      · exact .inr fun h => absurd h hfull
  | answering hproto hsent hreceiver =>
      left
      have hnone : (protocol S).agency p.proto ≠ .none := by simp [hproto]
      have hrole : (protocol S).agency p.proto = (protocol S).role p.proto := by simp [hproto]
      have hsend : (protocol S).send p.proto =
          (.ok (.acceptVersion v bs.magic), bs.serving .done (some v)) := by
        simp [hproto, protocol, Handshake.send, HandshakeBuilder.serving, hw.last]
      exact ⟨_, Party.turn_send_ok hnone hrole hsend hw.answerSent⟩
  | finished hproto hsent hreceiver => exact .inr fun _ => hsent

theorem exists_chunk {delivered sent : Bytes} (h : delivered <+: sent) (hne : delivered ≠ sent) :
    ∃ chunk, chunk ≠ [] ∧ delivered ++ chunk <+: sent := by
  obtain ⟨chunk, rfl⟩ := h
  refine ⟨chunk, ?_, List.prefix_refl _⟩
  rintro rfl
  exact hne (List.append_nil delivered).symm

/-- A network of compatible parties that cannot move any more has brought the
client its version. -/
theorem Coherent.terminal (hw : Wire S bc bs v proposal answer)
    (h : Coherent bc bs v proposal answer n) (hcompatible : Compatible bc bs)
    (hterminal : ∀ n', ¬ Network.Step (protocol S) S n n') :
    Returns S n.client (.ok (v, bc.magic)) := by
  obtain ⟨v', hlast, hv, hmagic⟩ := hcompatible
  cases hlast.symm.trans hw.last
  rcases h.client.advances hw hv hmagic.symm with ⟨p', ht⟩ | ⟨hproposal, hreturns⟩
  · exact absurd (.client ht) (hterminal _)
  rcases h.server.advances hw with ⟨p', ht⟩ | hanswer
  · exact absurd (.server ht) (hterminal _)
  -- everything sent has been delivered
  have htoServer : n.toServer = n.client.channel.sent.flatten := by
    by_contra hne
    obtain ⟨chunk, hchunk, hsent⟩ := exists_chunk h.toServer hne
    exact hterminal _ (.toServer hchunk hsent)
  have htoClient : n.toClient = n.server.channel.sent.flatten := by
    by_contra hne
    obtain ⟨chunk, hchunk, hsent⟩ := exists_chunk h.toClient hne
    exact hterminal _ (.toClient hchunk hsent)
  rw [hproposal] at htoServer
  have hsent := hanswer (by simpa using htoServer)
  rw [hsent] at htoClient
  exact hreturns (by simpa using htoClient)

/-! ### Agreement -/

/-- What holds of the runs of a client and a server. -/
structure Agreement (S : SerdeCbor) (bc bs : HandshakeBuilder) (start : Network Handshake Message) :
    Prop where
  agree : ∀ n, Relation.ReflTransGen (Network.Step (protocol S) S) start n → ∀ x y,
    Returns S n.client (.ok x) → Returns S n.server (.ok y) →
      x = y ∧ x.1 ∈ bc.versions ∧ x.1 ∈ bs.versions ∧ x.2 = bc.magic ∧ x.2 = bs.magic
  sound : ∀ n, Relation.ReflTransGen (Network.Step (protocol S) S) start n → ∀ x,
    Returns S n.client (.ok x) → Compatible bc bs
  complete : Compatible bc bs → ∀ n, Relation.ReflTransGen (Network.Step (protocol S) S) start n →
    (∀ n', ¬ Network.Step (protocol S) S n n') → ∃ x, Returns S n.client (.ok x)
  terminates : ¬ ∃ run : ℕ → Network Handshake Message,
    run 0 = start ∧ ∀ i, Network.Step (protocol S) S (run i) (run (i + 1))

/-- **Agreement.** A client and a server with supported versions run against each
other over a reliable transport. If both return `Ok` they return the same pair,
which is known to both. The client returns `Ok` exactly when the server's last
version is one of its own and the magics are equal: never otherwise, and in that
case every run comes to an end and brings the client there. -/
theorem agreement (hS : S.Lawful) {bc bs : HandshakeBuilder}
    (hc : ∀ v ∈ bc.versions, v.Supported) (hne : bs.versions ≠ [])
    (hs : ∀ v ∈ bs.versions, v.Supported) {client server : Party Handshake Message}
    (hclient : bc.client = .ok client) (hserver : bs.server = .ok server) :
    Agreement S bc bs { client, server, toServer := [], toClient := [] } := by
  obtain ⟨v, proposal, answer, hw⟩ := exists_wire hS hc hne hs
  have hstart : Coherent bc bs v proposal answer
      { client, server, toServer := [], toClient := [] } := by
    cases hclient
    cases hserver
    obtain ⟨versions, hread⟩ := hw.read
    have hquiet : proposal ≠ [] := hread.codeword.ne_nil
    exact ⟨.asking rfl rfl, .waiting rfl rfl ⟨rfl, List.nil_prefix, hquiet.symm, by
      simp [Channel.open]⟩, List.nil_prefix, List.nil_prefix⟩
  have hcoherent : ∀ n, Relation.ReflTransGen (Network.Step (protocol S) S)
      { client, server, toServer := [], toClient := [] } n →
      Coherent bc bs v proposal answer n := fun n hn =>
    Transition.invariant (fun a b ha hab => (ha.step hw hab).1) hn hstart
  refine ⟨fun n hn x y hx hy => ?_, fun n hn x hx => ?_, fun hcompatible n hn hterminal => ?_, ?_⟩
  · obtain ⟨rfl, hv, hmagic⟩ := (hcoherent n hn).client.returns hx
    have hy' := (hcoherent n hn).server.returns hy
    refine ⟨by rw [hy', hmagic], hv, List.mem_of_getLast? hw.last, rfl, hmagic.symm⟩
  · obtain ⟨rfl, hv, hmagic⟩ := (hcoherent n hn).client.returns hx
    exact ⟨v, hw.last, hv, hmagic.symm⟩
  · exact ⟨_, (hcoherent n hn).terminal hw hcompatible hterminal⟩
  · exact Transition.terminates (fun a b ha hab => (ha.step hw hab).1) (rank proposal answer)
      (fun a b ha hab => (ha.step hw hab).2) hstart

/-- The builder's own configuration against itself. -/
theorem agreement_builder :
    ∃ client server, builder.client = .ok client ∧ builder.server = .ok server ∧
      Agreement Cbor.serdeCbor builder builder
        { client, server, toServer := [], toClient := [] } := by
  have hsupported : ∀ v ∈ builder.versions, v.Supported := by
    simp [builder, Version.Supported]
  exact ⟨_, _, rfl, rfl, agreement Cbor.serdeCbor_lawful hsupported (by simp [builder])
    hsupported rfl rfl⟩

end Ouroboros.Handshake
