import Ouroboros.Protocols.ChainsyncCodec
import Ouroboros.Protocols.Conversation
import Ouroboros.SerdeCbor.Codec

/-!
Chain-sync calls against a conforming server.

`Expects` lists the situations the client can be in while it works on a query:
it has yet to ask, it waits for the answer, or the answer has settled the query.
-/

namespace Ouroboros.Chainsync

/-- One call, the messages the server answers it with, and the payloads that
carry them. -/
structure Exchange where
  query : Query
  awaited : Bool
  final : Message
  answer : Answer
  wire : List (Message × Bytes)
  payloads : List Bytes

def Exchange.messages (x : Exchange) : List Message :=
  if x.awaited then [.awaitReply, x.final] else [x.final]

/-- The server answers the query, and may ask for patience before a reply. -/
structure Exchange.Conforms (S : SerdeCbor) (blake2b : Bytes → Bytes) (x : Exchange) : Prop where
  awaited : x.awaited → x.query = .reply
  final : x.final.answer S blake2b x.query = some x.answer
  messages : x.wire.map Prod.fst = x.messages
  encoded : ∀ e ∈ x.wire, (protocol S blake2b).Encoded S e.1 e.2
  segments : x.payloads.flatten = x.wire.flatMap Prod.snd
  nonempty : ∀ q ∈ x.payloads, q ≠ []

/-- Every call returns the answer to its own query, has sent one request and
leaves nothing behind. -/
def Served (S : SerdeCbor) (blake2b : Bytes → Bytes) :
    List Exchange → Party ChainSync Message → Prop
  | [], _ => True
  | x :: xs, p => ∃ p' request,
      perform S blake2b x.query (p.arrive x.payloads) = (.ok x.answer, p') ∧
      p'.proto = { query := none, intersect := none, reply := none, state := .idle } ∧
      p'.channel.bytes = [] ∧
      (protocol S blake2b).toBytes S x.query.request = .ok request ∧
      p'.channel.sent = p.channel.sent ++ [request] ∧
      Served S blake2b xs p'

/-! ### During a call -/

/-- The client with an answer in the slot it belongs to. -/
def settled : Answer → ChainSync
  | .intersect intersect =>
    { query := none, intersect := some intersect, reply := none, state := .idle }
  | .reply reply => { query := none, intersect := none, reply := some reply, state := .idle }

/-- The client at work on a query. -/
def working (query : Query) (state : State) : ChainSync :=
  { query := some query, intersect := none, reply := none, state }

inductive Expects (x : Exchange) (past : List Bytes) (request : Bytes) :
    List Message → ChainSync → List Bytes → Prop
  | asking : Expects x past request x.messages (working x.query .idle) past
  | waiting {ms : List Message} {state : State} : ms = x.messages ∨ ms = [x.final] →
      (working x.query state).agency = .server →
      Expects x past request ms (working x.query state) (past ++ [request])
  | finished : Expects x past request [] (settled x.answer) (past ++ [request])

theorem Exchange.messages_ne_nil (x : Exchange) : x.messages ≠ [] := by
  rw [messages]
  split <;> simp

variable {S : SerdeCbor} {blake2b : Bytes → Bytes} {x : Exchange} {past : List Bytes}
  {request : Bytes}

/-- A message that answers the query settles it, whatever the client waits for. -/
theorem recv_answer {query : Query} {m : Message} {answer : Answer}
    (h : m.answer S blake2b query = some answer) (state : State) :
    (working query state).recv S blake2b m = (.ok (), settled answer) := by
  cases query <;> cases m <;> simp only [Message.answer, reduceCtorEq] at h <;> try cases h
  case intersect.intersectFound.refl => rfl
  case intersect.intersectNotFound.refl => rfl
  case reply.rollForward =>
    split at h
    case h_1 header hheader =>
      cases h
      simp only [ChainSync.recv, hheader]
      rfl
    all_goals cases h
  case reply.rollBackward.refl => rfl

/-- Asking leaves the turn to the server. -/
theorem send_working (query : Query) :
    ∃ state, (working query .idle).send = (.ok query.request, working query state) ∧
      (working query state).agency = .server := by
  cases query with
  | intersect points => exact ⟨.intersect, rfl, rfl⟩
  | reply => exact ⟨.canAwait, rfl, rfl⟩

theorem settled_agency (answer : Answer) : (settled answer).agency = .none := by
  cases answer <;> rfl

theorem Expects.recv (hfinal : x.final.answer S blake2b x.query = some x.answer)
    {m : Message} {ms : List Message} {s : ChainSync} {sent : List Bytes}
    (h : Expects x past request (m :: ms) s sent) (hrole : s.agency ≠ .client) :
    ∃ s', s.recv S blake2b m = (.ok (), s') ∧ Expects x past request ms s' sent ∧
      (ms = [] ∨ s'.agency ≠ .client) := by
  generalize hall : m :: ms = all at h
  cases h with
  | asking => exact absurd rfl hrole
  | @waiting _ state hms hserver =>
      have hlast : m = x.final → ms = [] → ∃ s',
          (working x.query state).recv S blake2b m = (.ok (), s') ∧
          Expects x past request ms s' (past ++ [request]) ∧ (ms = [] ∨ s'.agency ≠ .client) := by
        rintro rfl rfl
        exact ⟨_, recv_answer hfinal state, .finished, .inl rfl⟩
      subst hall
      rcases hms with hms | hms
      · rw [Exchange.messages] at hms
        split at hms
        · cases hms
          exact ⟨working x.query .mustReply, rfl, .waiting (.inr rfl) rfl,
            .inr (by simp [working, ChainSync.agency])⟩
        · cases hms
          exact hlast rfl rfl
      · cases hms
        exact hlast rfl rfl
  | finished => cases hall

theorem expects_follows (hfinal : x.final.answer S blake2b x.query = some x.answer)
    (hrequest : (protocol S blake2b).toBytes S x.query.request = .ok request) :
    (protocol S blake2b).Follows S (Expects x past request) where
  send {ms s sent} h hnone hrole := by
    cases h with
    | asking =>
        obtain ⟨state, hsend, hserver⟩ := send_working x.query
        exact ⟨_, _, request, hsend, hrequest, .waiting (.inl rfl) hserver⟩
    | waiting hms hserver => cases hserver.symm.trans hrole
    | finished => exact absurd (settled_agency x.answer) hnone
  recv h hrole := h.recv hfinal hrole
  rest {s sent} h := by
    generalize hall : ([] : List Message) = all at h
    cases h with
    | asking => exact absurd hall.symm x.messages_ne_nil
    | waiting hms hserver =>
        rcases hms with rfl | rfl
        · exact absurd hall.symm x.messages_ne_nil
        · cases hall
    | finished => exact .inl (settled_agency x.answer)

/-! ### Any number of calls -/

/-- The client between two calls. -/
structure Clean (past : List Bytes) (p : Party ChainSync Message) : Prop where
  proto : p.proto = { query := none, intersect := none, reply := none, state := .idle }
  bytes : p.channel.bytes = []
  receiver : p.channel.receiver = []
  sent : p.channel.sent = past

/-- The loop of one call reads the whole answer and settles the query. -/
theorem Clean.execute (hx : x.Conforms S blake2b)
    (hrequest : (protocol S blake2b).toBytes S x.query.request = .ok request)
    {p : Party ChainSync Message} (h : Clean past p) :
    ∃ p', Party.execute (protocol S blake2b) S
        { p.arrive x.payloads with proto := p.proto.ask x.query } = (.ok (), p') ∧
      p'.proto = settled x.answer ∧ p'.channel.bytes = [] ∧ p'.channel.receiver = [] ∧
      p'.channel.sent = past ++ [request] := by
  have hne : x.wire ≠ [] := by
    intro hnil
    have hmessages := hx.messages
    rw [hnil] at hmessages
    exact x.messages_ne_nil hmessages.symm
  obtain ⟨before, es, hfed⟩ :=
    Party.awaits_arrive hne hx.encoded h.bytes h.receiver hx.segments
  have hasking : Expects x past request (x.wire.map Prod.fst) (p.proto.ask x.query)
      p.channel.sent := by
    rw [hx.messages, h.proto, h.sent]
    exact .asking
  have hstart : Party.Awaits (protocol S blake2b) S x.wire
      { p.arrive x.payloads with proto := p.proto.ask x.query } :=
    ⟨before, es, hfed.handed, hfed.carry, hfed.pending⟩
  obtain ⟨todo, p', hexecute, hnone, hawaits, hexpects, hsuffix, -⟩ :=
    (expects_follows hx.final hrequest).execute hstart hasking
  have hqueue : ∀ q ∈ p'.channel.receiver, q ≠ [] := by
    intro q hq
    have hmem := hsuffix.subset hq
    simp only [Party.arrive, h.receiver, List.nil_append] at hmem
    exact hx.nonempty q hmem
  refine ⟨p', hexecute, ?_⟩
  generalize hms : todo.map Prod.fst = ms at hexpects
  generalize hsent : p'.channel.sent = sent at hexpects
  generalize hproto : p'.proto = s at hexpects hnone
  cases hexpects with
  | asking => cases hnone
  | waiting _ hserver => cases hserver.symm.trans hnone
  | finished =>
      rw [List.map_eq_nil_iff] at hms
      subst hms
      obtain ⟨hbytes, hreceiver⟩ := hawaits.clean hqueue
      exact ⟨rfl, hbytes, hreceiver, rfl⟩

/-- The call takes its answer out of the slot. -/
theorem perform_settled {query : Query} {m : Message} {answer : Answer}
    (hanswer : m.answer S blake2b query = some answer) {p p' : Party ChainSync Message}
    (h : Party.execute (protocol S blake2b) S { p with proto := p.proto.ask query } =
      (.ok (), p')) (hproto : p'.proto = settled answer) :
    perform S blake2b query p = (.ok answer, { p' with proto :=
      { query := none, intersect := none, reply := none, state := .idle } }) := by
  cases query <;> cases m <;> simp only [Message.answer, reduceCtorEq] at hanswer <;>
    try cases hanswer
  case intersect.intersectFound.refl =>
    simp [perform, findIntersect, Party.call, h, hproto, settled, ChainSync.takeIntersect, Exit.map]
  case intersect.intersectNotFound.refl =>
    simp [perform, findIntersect, Party.call, h, hproto, settled, ChainSync.takeIntersect, Exit.map]
  case reply.rollForward =>
    split at hanswer
    · cases hanswer
      simp [perform, requestNext, Party.call, h, hproto, settled, ChainSync.takeReply, Exit.map]
    all_goals cases hanswer
  case reply.rollBackward.refl =>
    simp [perform, requestNext, Party.call, h, hproto, settled, ChainSync.takeReply, Exit.map]

theorem Clean.served (hS : S.Lawful) {xs : List Exchange}
    (hxs : ∀ x ∈ xs, x.Conforms S blake2b) {p : Party ChainSync Message} (h : Clean past p) :
    Served S blake2b xs p := by
  induction xs generalizing p past with
  | nil => trivial
  | cons x xs ih =>
      obtain ⟨hx, hrest⟩ := List.forall_mem_cons.mp hxs
      obtain ⟨request, htoVec⟩ := hS.toVec_ok _ (Message.plain_toValues x.query.request)
      have hrequest : (protocol S blake2b).toBytes S x.query.request = .ok request := by
        simp [Protocol.toBytes, protocol, htoVec]
      obtain ⟨p', hexecute, hproto, hbytes, hreceiver, hsent⟩ := h.execute hx hrequest
      have hperform := perform_settled (p := p.arrive x.payloads) hx.final hexecute hproto
      refine ⟨_, request, hperform, rfl, hbytes, hrequest, ?_,
        ih hrest ⟨rfl, hbytes, hreceiver, hsent⟩⟩
      rw [h.sent]
      exact hsent

/-- **Every call is answered.** However the answers of a conforming server are
cut into payloads, each call sends exactly one request with the caller's points,
returns what the final message of its own answer says, and leaves the client
idle with both slots and the carry empty. -/
theorem calls_answered (hS : S.Lawful) {xs : List Exchange}
    (hxs : ∀ x ∈ xs, x.Conforms S blake2b) : Served S blake2b xs client :=
  Clean.served hS hxs ⟨rfl, rfl, rfl, rfl⟩

/-- An intersection and, after some patience, a roll backward; the payloads cut
both final messages. -/
theorem calls_answered_twice :
    Served Cbor.serdeCbor (fun bytes => bytes)
      [⟨.intersect [⟨5, [1]⟩], false, .intersectNotFound ⟨9, 8, [2]⟩,
          .intersect (.notFound ⟨9, 8, [2]⟩),
          [(.intersectNotFound ⟨9, 8, [2]⟩, [0x82, 6, 0x82, 0x82, 8, 0x41, 2, 9])],
          [[0x82, 6, 0x82], [0x82, 8, 0x41, 2, 9]]⟩,
        ⟨.reply, true, .rollBackward ⟨5, [1]⟩ ⟨9, 8, [2]⟩,
          .reply (.backward ⟨5, [1]⟩ ⟨9, 8, [2]⟩),
          [(.awaitReply, [0x81, 1]),
            (.rollBackward ⟨5, [1]⟩ ⟨9, 8, [2]⟩,
              [0x83, 3, 0x82, 5, 0x41, 1, 0x82, 0x82, 8, 0x41, 2, 9])],
          [[0x81], [1, 0x83, 3, 0x82, 5, 0x41], [1, 0x82, 0x82, 8, 0x41, 2, 9]]⟩]
      client := by
  have hencoded {m : Message} {w : Bytes} (hw : Cbor.serdeCbor.toVec m.toValues = .ok w) :
      (protocol Cbor.serdeCbor fun bytes => bytes).Encoded Cbor.serdeCbor m w :=
    Message.encoded Cbor.serdeCbor_lawful hw
  apply calls_answered Cbor.serdeCbor_lawful
  simp only [List.forall_mem_cons, List.not_mem_nil, false_implies, implies_true, and_true]
  refine ⟨⟨by decide, rfl, rfl, ?_, rfl, by decide⟩, ⟨fun _ => rfl, rfl, rfl, ?_, rfl, by decide⟩⟩
  · simp only [List.forall_mem_cons, List.not_mem_nil, false_implies, implies_true, and_true]
    exact hencoded rfl
  · simp only [List.forall_mem_cons, List.not_mem_nil, false_implies, implies_true, and_true]
    exact ⟨hencoded rfl, hencoded rfl⟩

end Ouroboros.Chainsync
