import Ouroboros.Protocols.HandshakeOutcome
import Ouroboros.Stack.HandshakeParties
import Ouroboros.Stack.Phases

/-!
A session with a node: the handshake, and what comes after it.

Either side of the handshake runs over the multiplexer against any peer. A call that has
returned has read all that the peer has written, if the last frame has something for it.
So its channel may be dropped, and the next protocol starts between two frames.
-/

namespace Ouroboros

open Relation Mux Mux.Connection

/-- When all messages have been delivered, nothing is left in the queue. -/
theorem Party.Awaits.flatten {σ μ : Type} {P : Protocol σ μ} {S : SerdeCbor} {p : Party σ μ}
    (h : p.Awaits P S []) : p.channel.receiver.flatten = [] := by
  obtain ⟨before, es, h⟩ := h
  have heq : p.channel.bytes ++ p.channel.receiver.flatten = [] := by
    simpa using h.pending.eq
  exact (List.append_eq_nil_iff.mp heq).2

namespace Handshake

variable {S : SerdeCbor} {T : Transport} {b : HandshakeBuilder} {m : Message} {v : Version}
  {proposal answer w : Bytes} {p : Party Handshake Message} {cs : List Call}

/-! ### The two sides by themselves -/

/-- The client: it has to ask, it waits for the answer `m`, or it has it. -/
inductive Asking (b : HandshakeBuilder) (m : Message) (proposal : Bytes) :
    List Message → Handshake → List Bytes → Prop
  | asking : Asking b m proposal [m] (b.asking .propose none) []
  | waiting : Asking b m proposal [m] (b.asking .confirm none) [proposal]
  | done {version : Option Version} :
      Concludes b m (match version with
        | some v => .ok (v, b.magic)
        | none => .err (.text "Handshake failed.")) →
      Asking b m proposal [] (b.asking .done version) [proposal]

theorem asking_follows (htaken : Taken b m)
    (hproposal : (protocol S).toBytes S (.proposeVersions (b.versions.map fun v => (v, b.magic))) =
      .ok proposal) : (protocol S).Follows S (Asking b m proposal) where
  send h hnone hrole := by
    cases h with
    | asking => exact ⟨_, _, proposal, rfl, hproposal, .waiting⟩
    | waiting => simp at hrole
    | done _ => exact absurd rfl hnone
  recv h hrole := by
    cases h with
    | asking => exact absurd rfl hrole
    | waiting =>
        rcases htaken with rfl | ⟨v, rfl⟩
        · exact ⟨b.asking .done none, rfl, .done (.of_refuse rfl _), .inl rfl⟩
        · refine ⟨b.asking .done (b.versions.find? (· = v)), ?_, .done (.of_accept rfl), .inl rfl⟩
          simp [protocol, Handshake.recv, HandshakeBuilder.asking]
  rest h := by
    cases h with
    | done _ => exact .inl rfl

/-- The server: it waits for the message `m`, has to answer, or has answered. -/
inductive Serving (b : HandshakeBuilder) (m : Message) (v : Version) (answer : Bytes) :
    List Message → Handshake → List Bytes → Prop
  | waiting : Serving b m v answer [m] (b.serving .propose none) []
  | answering : Serving b m v answer [] (b.serving .confirm none) []
  | done : Serving b m v answer [] (b.serving .done (some v)) [answer]

theorem serving_follows (hv : b.versions.getLast? = some v)
    (hanswer : (protocol S).toBytes S (.acceptVersion v b.magic) = .ok answer) :
    (protocol S).Follows S (Serving b m v answer) where
  send h hnone hrole := by
    cases h with
    | waiting => simp at hrole
    | answering =>
        refine ⟨.acceptVersion v b.magic, b.serving .done (some v), answer, ?_, hanswer, .done⟩
        simp [protocol, Handshake.send, HandshakeBuilder.serving, hv]
    | done => exact absurd rfl hnone
  recv h hrole := by
    cases h with
    | waiting => exact ⟨b.serving .confirm none, rfl, .answering, .inl rfl⟩
  rest h := by
    cases h with
    | answering => exact .inr rfl
    | done => exact .inl rfl

/-! ### Over the multiplexer -/

/-- What `negotiate` comes to against a peer. It has sent `said` by then. -/
structure Joins (S : SerdeCbor) (T : Transport) (stream : Bytes)
    (start : Client Unit Handshake Message) (result : Exit (Version × UInt32) → Prop)
    (said : Bytes) : Prop where
  result : ∀ c, ReflTransGen (Client.Step (protocol S) S T .once stream) start c → ∀ x,
    Returns S c.endpoint.party x → result x ∧ c.endpoint.party.channel.sent = [said]
  returns : ∀ c, ReflTransGen (Client.Step (protocol S) S T .once stream) start c →
    (∀ c', ¬ Client.Step (protocol S) S T .once stream c c') →
    ∃ x, Returns S c.endpoint.party x
  next : ∀ c, ReflTransGen (Client.Step (protocol S) S T .once stream) start c → ∀ x,
    Returns S c.endpoint.party x → Client.GoesOn T stream c.endpoint
  ends : ¬ ∃ run : ℕ → Client Unit Handshake Message, run 0 = start ∧
    ∀ i, Client.Step (protocol S) S T .once stream (run i) (run (i + 1))

/-- One message from the peer is enough for a side that follows `A`. -/
theorem joins_of_follows {A : List Message → Handshake → List Bytes → Prop}
    (hA : (protocol S).Follows S A) (hT : T.Greedy) {s : Connection} (hs : Settled s)
    {idx : UInt16} (hp : p.channel = .open idx) (hstart : A [m] p.proto [])
    {result : Exit (Version × UInt32) → Prop} {said : Bytes}
    (hend : ∀ {ms s' sent}, A ms s' sent → (protocol S).agency s' = .none →
      ms = [] ∧ sent = [said] ∧ ∀ p' : Party Handshake Message, p'.proto = s' →
        result (negotiate S p').1)
    (hm : (protocol S).Encoded S m w) (written : Bytes)
    (hcs : ∀ c ∈ cs, c.payload.length ≤ 65535)
    (hlast : ∀ d, cs.getLast? = some d → d.idx ^^^ 0x8000 = idx ∧ d.payload ≠ [])
    (hpayloads : (payloadsFor idx cs).flatten = w) :
    Joins S T (s.history.consumed ++ cs.flatMap Call.wire) ⟨(), .make p s written⟩ result said := by
  have hawaits : Party.Awaits (protocol S) S [(m, w)] (p.arrive (payloadsFor idx cs)) := by
    refine Party.awaits_arrive (by simp) ?_ (by rw [hp]; rfl) (by rw [hp]; rfl)
      (by simpa using hpayloads)
    exact List.forall_mem_singleton.mpr hm
  obtain ⟨todo, final, hexecute, hnone, hawaits', hfinal, -, hidx⟩ :=
    hA.execute hawaits (by simpa [Party.arrive, hp, Channel.open] using hstart)
  obtain ⟨htodo, hsent, hresult⟩ := hend hfinal hnone
  rw [List.map_eq_nil_iff.mp htodo] at hawaits'
  have honce := Client.once hT hs hp written hcs hlast hexecute
    (hidx.trans (by simp [Party.arrive, hp, Channel.open])) hawaits'.flatten
  have hstop : Party.turn (protocol S) S final = .stop := Party.turn_stop_iff.mpr hnone
  refine ⟨fun c hc x hx => ?_, fun c hc hstuck => ?_, fun c hc x hx => ?_, honce.ends⟩
  · obtain ⟨hparty, -⟩ := honce.stopped c hc hx.1
    rw [hparty] at hx ⊢
    rw [← hx.2]
    exact ⟨hresult final rfl, hsent⟩
  · exact ⟨_, honce.returns c hc hstuck, rfl⟩
  · exact (honce.stopped c hc hx.1).2

theorem exists_proposal (hS : S.Lawful) (hb : ∀ v ∈ b.versions, v.Supported) :
    ∃ proposal, (protocol S).toBytes S
      (.proposeVersions (b.versions.map fun v => (v, b.magic))) = .ok proposal := by
  obtain ⟨values, -, hvalues, hplain, -⟩ := Message.toValues_proposeVersions hS hb b.magic
  obtain ⟨proposal, hproposal⟩ := hS.toVec_ok values hplain
  exact ⟨proposal, by simp [Protocol.toBytes, protocol, hvalues, hproposal]⟩

theorem exists_answer (hS : S.Lawful) (hv : v.Supported) (magic : UInt32) :
    ∃ answer, (protocol S).toBytes S (.acceptVersion v magic) = .ok answer := by
  obtain ⟨values, hvalues, hplain, -⟩ := Message.toValues_acceptVersion (S := S) hv.short magic
  obtain ⟨answer, hanswer⟩ := hS.toVec_ok values hplain
  exact ⟨answer, by simp [Protocol.toBytes, protocol, hvalues, hanswer]⟩

/-- The client against a peer that answers it. -/
theorem joins_client (hT : T.Greedy) {s : Connection} (hs : Settled s)
    (hclient : b.client = .ok p)
    (hproposal : (protocol S).toBytes S (.proposeVersions (b.versions.map fun v => (v, b.magic))) =
      .ok proposal)
    (hm : (protocol S).Encoded S m w) (htaken : Taken b m) (written : Bytes)
    (hcs : ∀ c ∈ cs, c.payload.length ≤ 65535)
    (hlast : ∀ d, cs.getLast? = some d → d.idx = 0x8000 ∧ d.payload ≠ [])
    (hpayloads : (payloadsFor 0 cs).flatten = w) :
    Joins S T (s.history.consumed ++ cs.flatMap Call.wire) ⟨(), .make p s written⟩
      (Concludes b m) proposal := by
  cases hclient
  refine joins_of_follows (asking_follows htaken hproposal) hT hs rfl .asking ?_ hm written hcs
    (fun d hd => ⟨by rw [(hlast d hd).1]; rfl, (hlast d hd).2⟩) hpayloads
  intro ms s' sent h hnone
  cases h with
  | asking => simp at hnone
  | waiting => simp at hnone
  | @done version hconcludes =>
      refine ⟨rfl, rfl, fun p' hp' => ?_⟩
      rw [negotiate_of_stop rfl (by rw [hp']; rfl), hp']
      cases version <;> exact hconcludes

/-- **A client and a node.** The client of the handshake opens its channel on a settled
connection. The peer writes frames for any channels; those for channel 0 carry, cut in any
way, a refusal or an acceptance with the client's magic, and the last frame ends it. In
whatever order things happen, `negotiate` comes to its end: it returns `Ok` with what has
been accepted if the client knows the version, and an error otherwise. It has sent its
proposal, and when it has returned the channel may be dropped and any program goes on. -/
theorem joins (hS : S.Lawful) (hT : T.Greedy) {s : Connection} (hs : Settled s)
    (hclient : b.client = .ok p) (hb : ∀ v ∈ b.versions, v.Supported)
    (hm : (protocol S).Encoded S m w) (htaken : Taken b m) (written : Bytes)
    (hcs : ∀ c ∈ cs, c.payload.length ≤ 65535)
    (hlast : ∀ d, cs.getLast? = some d → d.idx = 0x8000 ∧ d.payload ≠ [])
    (hpayloads : (payloadsFor 0 cs).flatten = w) :
    ∃ proposal, (protocol S).toBytes S (.proposeVersions (b.versions.map fun v => (v, b.magic))) =
        .ok proposal ∧
      Joins S T (s.history.consumed ++ cs.flatMap Call.wire) ⟨(), .make p s written⟩
        (Concludes b m) proposal := by
  obtain ⟨proposal, hproposal⟩ := exists_proposal hS hb
  exact ⟨proposal, hproposal,
    joins_client hT hs hclient hproposal hm htaken written hcs hlast hpayloads⟩

/-- A node accepts version 7, in two frames, and there is one for another channel in
between. -/
def acceptance : List Call :=
  [⟨0, 0x8000, [0x83, 1, 7, 0x82]⟩, ⟨1, 0x8002, [0x81, 1]⟩, ⟨2, 0x8000, [0, 0xf4]⟩]

theorem joins_builder :
    ∃ p proposal, builder.client = .ok p ∧
      Joins Cbor.serdeCbor .greedy (acceptance.flatMap Call.wire) ⟨(), .make p .new []⟩
        (Concludes builder (.acceptVersion (.n2n 7) 0)) proposal := by
  obtain ⟨proposal, -, hjoins⟩ := @joins _ .greedy _ _ _ _ acceptance Cbor.serdeCbor_lawful
    (fun _ _ => rfl) _ settled_new rfl supported_builder (encoded_acceptance 0 rfl)
    (.inr ⟨_, rfl⟩) [] (by decide) (by simp [acceptance]) rfl
  exact ⟨_, proposal, rfl, hjoins⟩

/-- **A server and any client.** The server opens its channel on a settled connection. The
peer's frames for it carry, cut in any way, one message, and the last frame ends it.
Whatever the message is, `negotiate` returns the last version of the server, which it has
sent; then the channel may be dropped and any program goes on. -/
theorem admits (hS : S.Lawful) (hT : T.Greedy) {s : Connection} (hs : Settled s)
    (hserver : b.server = .ok p) (hv : b.versions.getLast? = some v) (hsupported : v.Supported)
    (hm : (protocol S).Encoded S m w) (written : Bytes)
    (hcs : ∀ c ∈ cs, c.payload.length ≤ 65535)
    (hlast : ∀ d, cs.getLast? = some d → d.idx = 0 ∧ d.payload ≠ [])
    (hpayloads : (payloadsFor 0x8000 cs).flatten = w) :
    ∃ answer, (protocol S).toBytes S (.acceptVersion v b.magic) = .ok answer ∧
      Joins S T (s.history.consumed ++ cs.flatMap Call.wire) ⟨(), .make p s written⟩
        (· = .ok (v, b.magic)) answer := by
  obtain ⟨answer, hanswer⟩ := exists_answer hS hsupported b.magic
  refine ⟨answer, hanswer, ?_⟩
  cases hserver
  refine joins_of_follows (serving_follows hv hanswer) hT hs rfl .waiting ?_ hm written hcs
    (fun d hd => ⟨by rw [(hlast d hd).1]; rfl, (hlast d hd).2⟩) hpayloads
  intro ms s' sent h hnone
  cases h with
  | waiting => simp at hnone
  | answering => simp at hnone
  | done =>
      refine ⟨rfl, rfl, fun p' hp' => ?_⟩
      rw [negotiate_of_stop rfl (by rw [hp']; rfl), hp']
      rfl

/-- A client proposes version 7, in two frames. -/
theorem admits_builder :
    ∃ p answer, builder.server = .ok p ∧
      Joins Cbor.serdeCbor .greedy
        (([⟨0, 0, [0x82, 0, 0xa1]⟩, ⟨1, 0, [7, 0x82, 0, 0xf4]⟩] : List Call).flatMap Call.wire)
        ⟨(), .make p .new []⟩ (· = .ok (.n2n 7, 0)) answer := by
  obtain ⟨answer, -, hjoins⟩ := @admits _ .greedy builder _ _ _ _
    [⟨0, 0, [0x82, 0, 0xa1]⟩, ⟨1, 0, [7, 0x82, 0, 0xf4]⟩] Cbor.serdeCbor_lawful (fun _ _ => rfl) _
    settled_new rfl rfl (supported_builder (.n2n 7) (by simp [builder]))
    (encoded_proposal 7 0 (by decide) (by decide) rfl rfl) [] (by decide) (by simp) rfl
  exact ⟨_, answer, rfl, hjoins⟩

end Handshake

end Ouroboros
