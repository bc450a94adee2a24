import Ouroboros.Protocols.ChainsyncSession
import Ouroboros.Stack.Node

/-!
Chain-sync programs over the multiplexer.

A program decides from the answers it has got what to ask next, as `sync` does.
Against a server that answers what it is asked, its answers are the ones that the server
gave, whatever else is on the connection and in whatever order things happen.
-/

namespace Ouroboros.Chainsync

open Relation Mux Mux.Connection

namespace ChainSync

/-- What a call does when `execute` has returned. -/
def take (query : Query) (s : ChainSync) : Outcome Answer × ChainSync :=
  match query with
  | .intersect _ => (.intersect <$> s.takeIntersect.1, s.takeIntersect.2)
  | .reply => (.reply <$> s.takeReply.1, s.takeReply.2)

/-- The next call begins, if there is one. -/
def begin (ask : List Answer → Option Query) (answers : List Answer) (s : ChainSync) : ChainSync :=
  match ask answers with
  | some query => s.ask query
  | none => s

end ChainSync

/-- Calls of `find_intersect` and `request_next`, one after the other. -/
def calls (ask : List Answer → Option Query) : Program (List Answer) ChainSync :=
  fun answers s =>
    match ask answers with
    | none => none
    | some query =>
      match s.take query with
      | (.ok answer, s) => some (answers ++ [answer], s.begin ask (answers ++ [answer]))
      | (.err _, _) | (.panic _, _) => none

/-- The example `sync`. -/
def sync (points : List Point) : List Answer → Option Query
  | [] => some (.intersect points)
  | _ :: _ => some .reply

/-- The example `tip`. It asks for an intersection at the tip after each block, and it panics
if there is none at the beginning. -/
def tip (points : List Point) (answers : List Answer) : Option Query :=
  match answers.getLast? with
  | none => some (.intersect points)
  | some (.intersect (.found _ _)) => some .reply
  | some (.intersect (.notFound _)) => if answers.length = 1 then none else some .reply
  | some (.reply (.forward _ tip)) => some (.intersect [tip.into])
  | some (.reply (.backward _ _)) => some .reply

variable {S : SerdeCbor} {blake2b : Bytes → Bytes}

theorem call_map {σ μ α β : Type} (P : Protocol σ μ) (f : α → β) (setup : σ → σ)
    (finish : σ → Outcome α × σ) (p : Party σ μ) :
    p.call P S setup (fun s => (f <$> (finish s).1, (finish s).2)) =
      ((p.call P S setup finish).1.map f, (p.call P S setup finish).2) := by
  rw [Party.call, Party.call]
  rcases Party.execute P S { p with proto := setup p.proto } with ⟨x, q⟩
  cases x with
  | ok u =>
      rcases hfinish : finish q.proto with ⟨r, s⟩
      simp only [hfinish]
      cases r <;> rfl
  | _ => rfl

/-- The calls are those of the client. -/
theorem perform_eq (query : Query) (p : Party ChainSync Message) :
    perform S blake2b query p =
      p.call (protocol S blake2b) S (.ask query) (ChainSync.take query) := by
  cases query with
  | intersect points => exact (call_map _ Answer.intersect _ _ p).symm
  | reply => exact (call_map _ Answer.reply _ _ p).symm

/-- What the settled client takes out of its slot. -/
theorem take_settled {query : Query} {m : Message} {answer : Answer}
    (h : m.answer S blake2b query = some answer) :
    (settled answer).take query =
      (.ok answer, { query := none, intersect := none, reply := none, state := .idle }) := by
  cases query <;> cases m <;> simp only [Message.answer, reduceCtorEq] at h <;> try cases h
  case intersect.intersectFound.refl => rfl
  case intersect.intersectNotFound.refl => rfl
  case reply.rollForward =>
    split at h
    · cases h
      rfl
    all_goals cases h
  case reply.rollBackward.refl => rfl

/-- The queries of the exchanges are those that the program makes. -/
def Asked (ask : List Answer → Option Query) : List Answer → List Exchange → Prop
  | _, [] => True
  | answers, x :: xs => ask answers = some x.query ∧ Asked ask (answers ++ [x.answer]) xs

variable {ask : List Answer → Option Query} {answers : List Answer} {xs : List Exchange}
  {past : List Bytes} {p : Party ChainSync Message}

/-- The program by itself gets the answers, one after the other. -/
theorem Clean.calls (hS : S.Lawful) (hxs : ∀ x ∈ xs, x.Conforms S blake2b) (h : Clean past p)
    (hask : Asked ask answers xs) :
    ∃ p' requests, (calls ask).Run (protocol S blake2b) S
        (answers, { p.arrive (xs.flatMap Exchange.payloads) with
          proto := p.proto.begin ask answers })
        (answers ++ xs.map Exchange.answer, { p' with
          proto := p'.proto.begin ask (answers ++ xs.map Exchange.answer) }) ∧
      Clean (past ++ requests) p' ∧ List.Forall₂ (fun x request =>
        (protocol S blake2b).toBytes S x.query.request = .ok request) xs requests := by
  induction xs generalizing p past answers with
  | nil =>
      refine ⟨p, [], ?_, by rwa [List.append_nil], .nil⟩
      simp only [List.flatMap_nil, List.map_nil, List.append_nil, Party.arrive]
      exact .refl
  | cons x xs ih =>
      obtain ⟨hx, hrest⟩ := List.forall_mem_cons.mp hxs
      obtain ⟨hquery, hask'⟩ := hask
      obtain ⟨request, htoVec⟩ := hS.toVec_ok _ (Message.plain_toValues x.query.request)
      have hrequest : (protocol S blake2b).toBytes S x.query.request = .ok request := by
        simp [Protocol.toBytes, protocol, htoVec]
      obtain ⟨q, hexecute, hproto, hbytes, hreceiver, hsent⟩ := h.execute hx hrequest
      obtain ⟨hrun, hstop⟩ := @Program.run_execute _ _ _ (Chainsync.calls ask) _ _ answers _ _
        hexecute
      have hcall : Chainsync.calls ask answers q.proto = some (answers ++ [x.answer],
          ChainSync.begin ask (answers ++ [x.answer])
            { query := none, intersect := none, reply := none, state := .idle }) := by
        simp only [Chainsync.calls, hquery, hproto, take_settled hx.final]
      have hidle : Clean (past ++ [request]) { q with proto :=
          { query := none, intersect := none, reply := none, state := .idle } } :=
        ⟨rfl, hbytes, hreceiver, hsent⟩
      obtain ⟨p', requests, hrun', hclean, hrequests⟩ := ih hrest hidle hask'
      simp only [List.append_assoc, List.cons_append, List.nil_append] at hrun' hclean
      refine ⟨p', request :: requests, ?_, hclean, .cons hrequest hrequests⟩
      have hbegin : p.proto.begin ask answers = p.proto.ask x.query := by
        rw [ChainSync.begin, hquery]
      have hqueue : p.arrive ((x :: xs).flatMap Exchange.payloads) =
          (p.arrive x.payloads).arrive (xs.flatMap Exchange.payloads) := by
        simp [Party.arrive]
      rw [hbegin, hqueue]
      exact ((Program.run_arrive hrun _).tail
        (Program.advance_call (Program.turn_stop_arrive hstop _) hcall)).trans hrun'

/-- Then it is over, or it has asked for more and waits. -/
theorem Clean.last (hS : S.Lawful) (h : Clean past p) (ask : List Answer → Option Query)
    (answers : List Answer) :
    ∃ p' requests, (Chainsync.calls ask).Run (protocol S blake2b) S
        (answers, { p with proto := p.proto.begin ask answers }) (answers, p') ∧
      (Chainsync.calls ask).advance (protocol S blake2b) S (answers, p') = none ∧
      p'.channel.sent = past ++ requests ∧
      List.Forall₂ (fun query request =>
        (protocol S blake2b).toBytes S query.request = .ok request) (ask answers).toList
        requests := by
  cases hask : ask answers with
  | none =>
      have hbegin : p.proto.begin ask answers = p.proto := by rw [ChainSync.begin, hask]
      rw [hbegin]
      refine ⟨p, [], .refl, ?_, by rw [h.sent, List.append_nil], .nil⟩
      have hstop : Party.turn (protocol S blake2b) S p = .stop := by
        rw [Party.turn_stop_iff, h.proto]
        rfl
      simp [Program.advance, hstop, Chainsync.calls, hask]
  | some query =>
      obtain ⟨request, htoVec⟩ := hS.toVec_ok _ (Message.plain_toValues query.request)
      have hrequest : (protocol S blake2b).toBytes S query.request = .ok request := by
        simp [Protocol.toBytes, protocol, htoVec]
      have hbegin : p.proto.begin ask answers = working query .idle := by
        rw [ChainSync.begin, hask, h.proto]
        rfl
      rw [hbegin]
      obtain ⟨state, hsend, hserver⟩ := send_working query
      have hturn : Party.turn (protocol S blake2b) S { p with proto := working query .idle } = _ :=
        Party.turn_send_ok (P := protocol S blake2b) (p := { p with proto := working query .idle })
          (by simp [protocol, working, ChainSync.agency]) rfl hsend hrequest
      refine ⟨_, [request], .single (Program.advance_next hturn), ?_, ?_, .cons hrequest .nil⟩
      · have hagency : (protocol S blake2b).agency (working query state) = .server := hserver
        refine Program.advance_wait (Party.turn_wait_iff.mpr ⟨?_, ?_, h.receiver⟩)
        · simp [Party.afterSend, hagency]
        · simp [Party.afterSend, protocol, ChainSync.role, hserver]
      · simp [Party.afterSend, h.sent]

/-- A program never forgets an answer. -/
theorem run_answers {x y : List Answer × Party ChainSync Message}
    (h : (calls ask).Run (protocol S blake2b) S x y) : x.1 <+: y.1 := by
  induction h with
  | refl => exact List.prefix_refl _
  | @tail y z _ hstep ih =>
      rcases Program.advance_cases hstep with ⟨p, -, rfl⟩ | ⟨answers, s, -, hcall, rfl⟩
      · exact ih
      · refine ih.trans ?_
        simp only [calls] at hcall
        split at hcall
        · cases hcall
        · split at hcall
          · cases hcall
            exact List.prefix_append _ _
          all_goals cases hcall

/-- What a program comes to. -/
structure Gets (S : SerdeCbor) (blake2b : Bytes → Bytes) (T : Transport)
    (ask : List Answer → Option Query) (stream : Bytes)
    (start : Client (List Answer) ChainSync Message) (answers : List Answer)
    (queries : List Query) : Prop where
  sofar : ∀ c, ReflTransGen (Client.Step (protocol S blake2b) S T (calls ask) stream) start c →
    c.caller <+: answers
  all : ∀ c, ReflTransGen (Client.Step (protocol S blake2b) S T (calls ask) stream) start c →
    (∀ c', ¬ Client.Step (protocol S blake2b) S T (calls ask) stream c c') →
    c.caller = answers ∧ List.Forall₂ (fun query request =>
      (protocol S blake2b).toBytes S query.request = .ok request) queries
      c.endpoint.party.channel.sent
  ends : ¬ ∃ run : ℕ → Client (List Answer) ChainSync Message, run 0 = start ∧
    ∀ i, Client.Step (protocol S blake2b) S T (calls ask) stream (run i) (run (i + 1))

/-- A client that comes to what the program does by itself gets the server's answers. -/
theorem gets_of_sequential (hS : S.Lawful) {T : Transport} (hxs : ∀ x ∈ xs, x.Conforms S blake2b)
    (hask : Asked ask [] xs) {base : Bytes} {cs : List Call}
    {start : Client (List Answer) ChainSync Message}
    (h : Client.Sequential (protocol S blake2b) S T (calls ask) base cs start
      ([], { (client.arrive (xs.flatMap Exchange.payloads)) with
        proto := client.proto.begin ask [] })) :
    Gets S blake2b T ask (base ++ cs.flatMap Call.wire) start (xs.map Exchange.answer)
      (xs.map Exchange.query ++ (ask (xs.map Exchange.answer)).toList) := by
  have hclean : Clean [] client := ⟨rfl, rfl, rfl, rfl⟩
  obtain ⟨p, requests, hrun, hclean', hrequests⟩ := hclean.calls hS hxs hask
  obtain ⟨p', requests', hlast, hend, hsent, hrequests'⟩ :=
    @Clean.last S blake2b _ p hS hclean' ask (xs.map Exchange.answer)
  have hdetermined := h.determined (hrun.trans hlast) hend
  refine ⟨fun c hc => ?_, fun c hc hstuck => ?_, hdetermined.ends⟩
  · obtain ⟨payloads, htoward⟩ := hdetermined.toward c hc
    exact run_answers htoward
  · obtain ⟨hcaller, hparty⟩ := Prod.mk.inj (hdetermined.result c hc hstuck)
    refine ⟨hcaller, ?_⟩
    have hall : p'.channel.sent = requests ++ requests' := by
      rw [hsent]
      rfl
    rw [hparty, hall]
    exact List.rel_append (List.forall₂_map_left_iff.mpr hrequests) hrequests'

/-- **A chain-sync program gets its answers.** The program opens its channel on a settled
connection. The peer writes frames for any channels; those for channel 2 carry, cut in any
way, what a conforming server answers to the queries of the program. In whatever order
things happen, the answers of the program are the first of the server's, and in the end
they are all of them. Then each query has been sent once, with the one that comes next. -/
theorem gets (hS : S.Lawful) {T : Transport} (hT : T.Greedy) {s : Connection} (hs : Settled s)
    (written : Bytes) (hxs : ∀ x ∈ xs, x.Conforms S blake2b) (hask : Asked ask [] xs)
    {cs : List Call} (hcs : ∀ c ∈ cs, c.payload.length ≤ 65535)
    (hpayloads : payloadsFor 0x0002 cs = xs.flatMap Exchange.payloads) :
    Gets S blake2b T ask (s.history.consumed ++ cs.flatMap Call.wire)
      ⟨[], .make { client with proto := client.proto.begin ask [] } s written⟩
      (xs.map Exchange.answer)
      (xs.map Exchange.query ++ (ask (xs.map Exchange.answer)).toList) := by
  have hfollows := @Client.follows_make _ _ _ _ _ hs
    { client with proto := client.proto.begin ask [] } _ rfl ([] : List Answer) written hcs
  rw [hpayloads] at hfollows
  exact gets_of_sequential hS hxs hask (hfollows.comes hT)

/-- A server finds an intersection, and then rolls back. -/
def rollback : List Exchange :=
  [⟨.intersect [⟨5, [1]⟩], false, .intersectFound ⟨5, [1]⟩ ⟨9, 8, [2]⟩,
      .intersect (.found ⟨5, [1]⟩ ⟨9, 8, [2]⟩),
      [(.intersectFound ⟨5, [1]⟩ ⟨9, 8, [2]⟩,
        [0x83, 5, 0x82, 5, 0x41, 1, 0x82, 0x82, 8, 0x41, 2, 9])],
      [[0x83, 5, 0x82, 5, 0x41, 1, 0x82, 0x82, 8, 0x41, 2, 9]]⟩,
    ⟨.reply, false, .rollBackward ⟨5, [1]⟩ ⟨9, 8, [2]⟩, .reply (.backward ⟨5, [1]⟩ ⟨9, 8, [2]⟩),
      [(.rollBackward ⟨5, [1]⟩ ⟨9, 8, [2]⟩,
        [0x83, 3, 0x82, 5, 0x41, 1, 0x82, 0x82, 8, 0x41, 2, 9])],
      [[0x83, 3, 0x82, 5, 0x41], [1, 0x82, 0x82, 8, 0x41, 2, 9]]⟩]

theorem rollback_conforms : ∀ x ∈ rollback, x.Conforms Cbor.serdeCbor fun bytes => bytes := by
  have hencoded {m : Message} {w : Bytes} (hw : Cbor.serdeCbor.toVec m.toValues = .ok w) :
      (protocol Cbor.serdeCbor fun bytes => bytes).Encoded Cbor.serdeCbor m w :=
    Message.encoded Cbor.serdeCbor_lawful hw
  simp only [rollback, List.forall_mem_cons, List.not_mem_nil, false_implies, implies_true,
    and_true]
  refine ⟨⟨by decide, rfl, rfl, ?_, rfl, by decide⟩, ⟨by decide, rfl, rfl, ?_, rfl, by decide⟩⟩
  · simp only [List.forall_mem_cons, List.not_mem_nil, false_implies, implies_true, and_true]
    exact hencoded rfl
  · simp only [List.forall_mem_cons, List.not_mem_nil, false_implies, implies_true, and_true]
    exact hencoded rfl

/-- Its frames. There is one for another channel in between. -/
def rollbackCalls : List Call :=
  [⟨0, 0x8002, [0x83, 5, 0x82, 5, 0x41, 1, 0x82, 0x82, 8, 0x41, 2, 9]⟩, ⟨1, 0x8003, [0x81, 5]⟩,
    ⟨2, 0x8002, [0x83, 3, 0x82, 5, 0x41]⟩, ⟨3, 0x8002, [1, 0x82, 0x82, 8, 0x41, 2, 9]⟩]

/-- The program `sync` and this server. -/
theorem gets_sync :
    Gets Cbor.serdeCbor (fun bytes => bytes) .greedy (sync [⟨5, [1]⟩])
      (rollbackCalls.flatMap Call.wire)
      ⟨[], .make { client with proto := client.proto.begin (sync [⟨5, [1]⟩]) [] } .new []⟩
      [.intersect (.found ⟨5, [1]⟩ ⟨9, 8, [2]⟩), .reply (.backward ⟨5, [1]⟩ ⟨9, 8, [2]⟩)]
      [.intersect [⟨5, [1]⟩], .reply, .reply] :=
  @gets _ _ _ rollback Cbor.serdeCbor_lawful _ (fun _ _ => rfl) _ settled_new [] rollback_conforms
    ⟨rfl, rfl, trivial⟩ rollbackCalls (by decide) rfl

/-! ### From the connection to the answers -/

/-- What a program comes to that begins with the handshake. `stream` is what the peer has
written by the end of it, and `cs` are its frames from there on. -/
structure Syncs (S : SerdeCbor) (blake2b : Bytes → Bytes) (T : Transport)
    (ask : List Answer → Option Query) (stream : Bytes) (cs : List Call)
    (start : Client Unit Handshake.Handshake Handshake.Message)
    (x : Handshake.Version × UInt32) (answers : List Answer) (queries : List Query) : Prop where
  negotiates : ∀ c, ReflTransGen (Client.Step (Handshake.protocol S) S T .once stream) start c →
    (∀ c', ¬ Client.Step (Handshake.protocol S) S T .once stream c c') →
    Handshake.Returns S c.endpoint.party (.ok x)
  ends : ¬ ∃ run : ℕ → Client Unit Handshake.Handshake Handshake.Message, run 0 = start ∧
    ∀ i, Client.Step (Handshake.protocol S) S T .once stream (run i) (run (i + 1))
  gets : ∀ c, ReflTransGen (Client.Step (Handshake.protocol S) S T .once stream) start c →
    Party.turn (Handshake.protocol S) S c.endpoint.party = .stop →
    Handshake.Returns S c.endpoint.party (.ok x) ∧ Closes c.endpoint.connection ∧
      ∀ s, ReflTransGen Close c.endpoint.connection s → (∀ s', ¬ Close s s') →
        Gets S blake2b T ask (stream ++ cs.flatMap Call.wire)
          ⟨[], .make { client with proto := client.proto.begin ask [] } s c.endpoint.written⟩
          answers queries

/-- **From the connection to the answers.** A program makes a handshake, drops its channel
and goes on with chain-sync, on a connection that has settled. The node accepts a version
of the client, and then answers the queries of the program. In whatever order things
happen, the handshake ends with this version, nothing that the node has written is lost
with its channel, and the program gets all of its answers. -/
theorem syncs (hS : S.Lawful) {T : Transport} (hT : T.Greedy) {s : Connection} (hs : Settled s)
    {b : Handshake.HandshakeBuilder} {p : Party Handshake.Handshake Handshake.Message}
    (hclient : b.client = .ok p) (hb : ∀ v ∈ b.versions, v.Supported) {v : Handshake.Version}
    (hv : v ∈ b.versions) {w : Bytes}
    (hm : (Handshake.protocol S).Encoded S (.acceptVersion v b.magic) w) (written : Bytes)
    {first cs : List Call} (hfirst : ∀ c ∈ first, c.payload.length ≤ 65535)
    (hlast : ∀ d, first.getLast? = some d → d.idx = 0x8000 ∧ d.payload ≠ [])
    (hanswer : (payloadsFor 0 first).flatten = w)
    (hxs : ∀ x ∈ xs, x.Conforms S blake2b) (hask : Asked ask [] xs)
    (hcs : ∀ c ∈ cs, c.payload.length ≤ 65535)
    (hpayloads : payloadsFor 0x0002 cs = xs.flatMap Exchange.payloads) :
    Syncs S blake2b T ask (s.history.consumed ++ first.flatMap Call.wire) cs
      ⟨(), .make p s written⟩ (v, b.magic) (xs.map Exchange.answer)
      (xs.map Exchange.query ++ (ask (xs.map Exchange.answer)).toList) := by
  obtain ⟨proposal, hproposal⟩ := Handshake.exists_proposal hS hb
  have hjoins := Handshake.joins_client hT hs hclient hproposal hm (.inr ⟨v, rfl⟩) written hfirst
    hlast hanswer
  have hreturns : ∀ c, ReflTransGen (Client.Step (Handshake.protocol S) S T .once
      (s.history.consumed ++ first.flatMap Call.wire)) ⟨(), .make p s written⟩ c → ∀ x,
      Handshake.Returns S c.endpoint.party x →
      Handshake.Returns S c.endpoint.party (.ok (v, b.magic)) := by
    intro c hc x hx
    obtain ⟨hconcludes, -⟩ := hjoins.result c hc x hx
    rwa [(hconcludes.ok v b.magic).mpr ⟨rfl, hv, rfl⟩] at hx
  refine ⟨fun c hc hstuck => ?_, hjoins.ends, fun c hc hstop => ?_⟩
  · obtain ⟨x, hx⟩ := hjoins.returns c hc hstuck
    exact hreturns c hc x hx
  · have hgoes := hjoins.next c hc _ ⟨hstop, rfl⟩
    refine ⟨hreturns c hc _ ⟨hstop, rfl⟩, hgoes.closes, fun s' hclose hstuck => ?_⟩
    have hsequential := hgoes.next s' hclose hstuck (protocol S blake2b) S (calls ask) []
      { client with proto := client.proto.begin ask [] } 0x0002 cs rfl hcs
    rw [hpayloads] at hsequential
    exact gets_of_sequential hS hxs hask hsequential

/-- The program `tip`. -/
theorem syncs_tip :
    ∃ p, Handshake.builder.client = .ok p ∧
      Syncs Cbor.serdeCbor (fun bytes => bytes) .greedy (tip [⟨5, [1]⟩])
        (Handshake.acceptance.flatMap Call.wire) rollbackCalls ⟨(), .make p .new []⟩ (.n2n 7, 0)
        [.intersect (.found ⟨5, [1]⟩ ⟨9, 8, [2]⟩), .reply (.backward ⟨5, [1]⟩ ⟨9, 8, [2]⟩)]
        [.intersect [⟨5, [1]⟩], .reply, .reply] :=
  ⟨_, rfl, @syncs _ _ _ rollback Cbor.serdeCbor_lawful _ (fun _ _ => rfl) _ settled_new _ _ rfl
    Handshake.supported_builder (.n2n 7) (by simp [Handshake.builder]) _
    (Handshake.encoded_acceptance 0 rfl) [] Handshake.acceptance rollbackCalls (by decide)
    (by simp [Handshake.acceptance]) rfl rollback_conforms ⟨rfl, rfl, trivial⟩ (by decide) rfl⟩

end Ouroboros.Chainsync
