import Ouroboros.Protocols.BlockfetchCalls

/-!
The block-fetch client and a conforming server.

The server answers every request once, and its bytes arrive in any pieces. The history
of the streams is kept beside the client: what has been sent when a run is called and
when it returns, and the blocks its stream has returned.

`World.Sound` holds in every world that can be reached, however many streams are dropped.
It accounts for each block that the server has sent: it has been returned, it is in the
result queue, or it is still to come.
-/

namespace Ouroboros.Blockfetch

open Relation Streaming

variable {S : SerdeCbor}

/-- The server's answer to a request, with the bytes of its messages. -/
structure Reply where
  answer : Answer
  wire : List (Message × Bytes)

def Reply.blocks (r : Reply) : List Bytes := r.answer.blocks

def Reply.bytes (r : Reply) : Bytes := r.wire.flatMap Prod.snd

structure Reply.Conforms (S : SerdeCbor) (r : Reply) : Prop where
  messages : r.wire.map Prod.fst = r.answer.messages
  encoded : ∀ e ∈ r.wire, protocol.Encoded S e.1 e.2

/-- How many times `RequestRange` has been sent. -/
def requests (p : Party BlockFetch Message) : ℕ :=
  p.log.countP fun
    | .tx (.requestRange _ _) => true
    | _ => false

/-- The history of a call of `run` and of its stream. -/
structure Stream where
  /-- The requests that had been sent when `run` was called, -/
  before : ℕ
  /-- and when it returned. -/
  opened : Option ℕ
  returned : List Bytes

/-- What becomes of the history when a client with party `p` does `a`. -/
def record (a : Action) (p : Party BlockFetch Message) (streams : List Stream) : List Stream :=
  match a with
  | .run => streams ++ [⟨requests p, none, []⟩]
  | .opened => streams.modifyLast fun s => { s with opened := some (requests p) }
  | .yields (some block) =>
    streams.modifyLast fun s => { s with returned := s.returned ++ [block] }
  | _ => streams

/-- The server has answered the first requests with `replies`, one for each, and of the
bytes of these `delivered` has arrived. There is a stream for every call of `run`. -/
structure World where
  client : Client
  replies : List Reply
  delivered : Bytes
  streams : List Stream

namespace World

def start (p : Party BlockFetch Message) : World := ⟨⟨p, .outside⟩, [], [], []⟩

/-- More bytes of the server arrive, as one payload. -/
def arrive (chunk : Bytes) (w : World) : World :=
  { w with
    client := { w.client with party := w.client.party.arrive [chunk] }
    delivered := w.delivered ++ chunk }

/-- Of what a client can do, `ok` is done. -/
inductive Step (S : SerdeCbor) (ok : Client → Action → Prop) (w : World) : World → Prop
  | client {a : Action} {c : Client} : ok w.client a → w.client.Does S a c →
      Step S ok w { w with client := c, streams := record a w.client.party w.streams }
  | answer {r : Reply} : r.Conforms S → w.replies.length < requests w.client.party →
      Step S ok w { w with replies := w.replies ++ [r] }
  | arrive (chunk : Bytes) : w.delivered ++ chunk <+: w.replies.flatMap Reply.bytes →
      Step S ok w (w.arrive chunk)

abbrev Run (S : SerdeCbor) (ok : Client → Action → Prop) : World → World → Prop :=
  ReflTransGen (Step S ok)

theorem Run.mono {ok ok' : Client → Action → Prop} (himp : ∀ c a, ok c a → ok' c a)
    {w w' : World} (h : Run S ok w w') : Run S ok' w w' := by
  refine ReflTransGen.mono (fun u v huv => ?_) w w' h
  cases huv with
  | client hok hdoes => exact .client (himp _ _ hok) hdoes
  | answer hr hlt => exact .answer hr hlt
  | arrive chunk hchunk => exact .arrive chunk hchunk

/-! A call that returns is a run of the world. -/

variable {w : World} {p : Party BlockFetch Message}

theorem run_turns {ok : Client → Action → Prop} (hok : ∀ c, ok c .turn)
    (hcalling : w.client.place.Calling) {p : Party BlockFetch Message}
    (h : Party.Turns protocol S w.client.party p) :
    Run S ok w { w with client := { w.client with party := p } } := by
  induction h with
  | refl => exact .refl
  | tail _ ht ih => exact ih.tail (.client (hok _) (.turn hcalling ht))

theorem run_of_run (hplace : w.client.place = .outside)
    (h : Blockfetch.run S w.client.party = (.ok (), p)) :
    Run S (fun _ _ => True) w
      { w with
        client := ⟨p, .stream⟩
        streams := record .opened p (record .run w.client.party w.streams) } := by
  obtain ⟨hturns, hstop⟩ := run_ok_iff.mp h
  have hbegin : Step S (fun _ _ => True) w _ := .client trivial (.run hplace)
  have hrun := (run_turns (fun _ => trivial) (by trivial) hturns).head hbegin
  exact hrun.tail (.client trivial (.opened rfl hstop))

theorem run_of_next (hplace : w.client.place = .stream) {block : Option Bytes}
    (h : Blockfetch.next S w.client.party = (.ok block, p)) :
    Run S (fun _ _ => True) w
      { w with client := ⟨p, .stream⟩, streams := record (.yields block) p w.streams } := by
  by_cases hpeek : w.client.party.proto.result ≠ [] ∨ w.client.party.proto.state = .idle
  · obtain ⟨block', s, hpop⟩ := pop_ok w.client.party.proto
    rw [next_of_pop hpeek hpop] at h
    cases h
    exact .single (.client trivial (.peek hplace hpeek hpop))
  · obtain ⟨hresult, hidle⟩ := not_or.mp hpeek
    rw [not_not] at hresult
    have hstreaming : w.client.party.proto.state = .streaming := by
      cases hstate : w.client.party.proto.state with
      | streaming => rfl
      | idle => exact absurd hstate hidle
      | busy | done => simp [Blockfetch.next, hresult, hstate] at h
    obtain ⟨q, s, hturns, hstop, hpop, rfl⟩ := (next_ok_iff hresult hstreaming).mp h
    have hbegin : Step S (fun _ _ => True) w _ :=
      .client trivial (.next hplace hresult hstreaming)
    have hrun := (run_turns (fun _ => trivial) (by trivial) hturns).head hbegin
    exact hrun.tail (.client trivial (.yields rfl hstop hpop))

theorem run_of_done (hplace : w.client.place = .outside)
    (h : Blockfetch.done S w.client.party = (.ok (), p)) :
    Run S (fun _ _ => True) w { w with client := ⟨p, .closed⟩ } := by
  obtain ⟨hturns, hstop⟩ := done_ok_iff.mp h
  have hbegin : Step S (fun _ _ => True) w _ := .client trivial (.done hplace)
  have hrun := (run_turns (fun _ => trivial) (by trivial) hturns).head hbegin
  exact hrun.tail (.client trivial (.closed rfl hstop))

end World

/-! ### What a turn can do -/

/-- The requests of a client that are not answered yet, and of the last answer the
messages and blocks that the client has not read. -/
inductive Due : State → ℕ → List Message → List Bytes → Prop
  | idle : Due .idle 0 [] []
  | done : Due .done 0 [] []
  | asked : Due .busy 1 [] []
  | busy (answer : Answer) : Due .busy 0 answer.messages answer.blocks
  | streaming (coming : List Bytes) :
      Due .streaming 0 (coming.map .block ++ [.batchDone]) coming

/-- What the messages of a server can do to a client. -/
structure Later (s s' : BlockFetch) : Prop where
  done : s'.done = s.done
  moved : s' = s ∨ s'.state = .streaming ∨ s'.state = .idle ∧ s'.running = false

theorem Due.answered {state : State} {n : ℕ} {ms : List Message} {coming : List Bytes}
    (h : Due state n ms coming) (hstate : state ≠ .busy) : n = 0 := by
  cases h with
  | asked => exact absurd rfl hstate
  | _ => rfl

theorem Later.refl (s : BlockFetch) : Later s s := ⟨rfl, .inl rfl⟩

theorem Later.trans {s s' s'' : BlockFetch} (h : Later s s') (h' : Later s' s'') :
    Later s s'' where
  done := h'.done.trans h.done
  moved := by
    rcases h'.moved with rfl | h'
    · exact h.moved
    · exact .inr h'

variable {s : BlockFetch} {m : Message} {ms rest : List Message} {n : ℕ} {coming : List Bytes}

/-- A message that is taken starts a batch, or it stops the client. -/
theorem recv_later (s : BlockFetch) (m : Message) : Later s (s.recv m).2 := by
  obtain ⟨config, state, result, running, done⟩ := s
  cases state with
  | busy =>
      cases m with
      | noBlocks => exact ⟨rfl, .inr (.inr ⟨rfl, rfl⟩)⟩
      | startBatch => exact ⟨rfl, .inr (.inl rfl)⟩
      | _ => exact .refl _
  | streaming =>
      cases m with
      | block bytes => exact ⟨rfl, .inr (.inl rfl)⟩
      | batchDone => exact ⟨rfl, .inr (.inr ⟨rfl, rfl⟩)⟩
      | _ => exact .refl _
  | _ => exact .refl _

theorem Later.of_recv {r : Outcome Unit} {s' : BlockFetch} (h : s.recv m = (r, s')) :
    Later s s' := by
  have hlater := recv_later s m
  rwa [h] at hlater

/-- One case for each message of an answer. -/
theorem Due.recv (h : Due s.state n (m :: ms) coming) :
    ∃ s' fresh coming', s.recv m = (.ok (), s') ∧ Later s s' ∧ coming = fresh ++ coming' ∧
      s'.result = s.result ++ fresh ∧ Due s'.state n ms coming' := by
  generalize hstate : s.state = state at h
  generalize hms : m :: ms = all at h
  cases h with
  | idle | done | asked => cases hms
  | busy answer =>
      cases answer with
      | noBlocks =>
          cases hms
          have hrecv : s.recv .noBlocks =
              (.ok (), { s with running := false, state := .idle }) := by
            simp only [BlockFetch.recv, hstate]
          exact ⟨_, [], [], hrecv, .of_recv hrecv, rfl, (List.append_nil _).symm, .idle⟩
      | batch blocks =>
          cases hms
          have hrecv : s.recv .startBatch = (.ok (), { s with state := .streaming }) := by
            simp only [BlockFetch.recv, hstate]
          exact ⟨_, [], blocks, hrecv, .of_recv hrecv, rfl, (List.append_nil _).symm,
            .streaming blocks⟩
  | streaming coming =>
      cases coming with
      | nil =>
          cases hms
          have hrecv : s.recv .batchDone =
              (.ok (), { s with running := false, state := .idle }) := by
            simp only [BlockFetch.recv, hstate]
          exact ⟨_, [], [], hrecv, .of_recv hrecv, rfl, (List.append_nil _).symm, .idle⟩
      | cons block coming =>
          cases hms
          have hrecv : s.recv (.block block) = (.ok (),
              { s with running := false, result := s.result ++ [block], state := .streaming }) := by
            simp only [BlockFetch.recv, hstate]
          exact ⟨_, [block], coming, hrecv, .of_recv hrecv, rfl, rfl, .streaming coming⟩

theorem Due.deliver (h : Due s.state n (ms ++ rest) coming) :
    ∃ s' fresh coming', protocol.deliver ms s = (.ok (), s') ∧ Later s s' ∧
      coming = fresh ++ coming' ∧ s'.result = s.result ++ fresh ∧
      Due s'.state n rest coming' := by
  induction ms generalizing s coming with
  | nil => exact ⟨s, [], coming, rfl, .refl s, rfl, (List.append_nil _).symm, h⟩
  | cons m ms ih =>
      obtain ⟨t, fresh, coming', hrecv, hlater, rfl, hresult, hdue⟩ := h.recv
      obtain ⟨s', fresh', coming'', hdeliver, hlater', rfl, hresult', hdue'⟩ := ih hdue
      refine ⟨s', fresh ++ fresh', coming'', ?_, hlater.trans hlater', ?_, ?_, hdue'⟩
      · rw [Protocol.deliver_cons_ok hrecv, hdeliver]
      · rw [List.append_assoc]
      · rw [hresult', hresult, List.append_assoc]

/-- What the server still owes the client `p`, and the blocks it has sent: those that
have been returned, those in the result queue, and those to come. -/
structure Ledger (S : SerdeCbor) (replies : List Reply) (undelivered : Bytes)
    (seen : List Bytes) (todo : List (Message × Bytes)) (unanswered : ℕ)
    (coming : List Bytes) (p : Party BlockFetch Message) : Prop where
  owed : p.Owed protocol S todo undelivered
  due : Due p.proto.state unanswered (todo.map Prod.fst) coming
  requests : requests p = replies.length + unanswered
  blocks : seen ++ p.proto.result ++ coming = replies.flatMap Reply.blocks

/-- The turns of a client, with what they do to the protocol value. -/
inductive Moves (S : SerdeCbor) (p p' : Party BlockFetch Message) : Prop
  | asks : p.proto.running = true → p.proto.done = false → p.proto.state = .idle →
      p'.proto = { p.proto with state := .busy } → requests p' = requests p + 1 → Moves S p p'
  | leaves {data : Bytes} : p.proto.running = true → p.proto.done = true →
      p.proto.state = .idle → p'.proto = { p.proto with state := .done } →
      requests p' = requests p → protocol.toBytes S .clientDone = .ok data →
      p'.channel.sent = p.channel.sent ++ [data] → Moves S p p'
  | reads : p.proto.running = true → p.proto.state ≠ .idle → p.proto.state ≠ .done →
      Later p.proto p'.proto → requests p' = requests p → Moves S p p'

variable {p p' : Party BlockFetch Message} {replies : List Reply} {undelivered : Bytes}
  {seen : List Bytes} {todo : List (Message × Bytes)} {unanswered : ℕ}

theorem requests_afterRecv (p : Party BlockFetch Message) (ms : List Message) (qs : List Bytes)
    (carry : Bytes) : requests (p.afterRecv protocol ms qs carry) = requests p := by
  have hdeliveries : ∀ (ms : List Message) (s : BlockFetch),
      (protocol.deliveries ms s).countP (fun
        | .tx (.requestRange _ _) => true
        | _ => false) = 0 := by
    intro ms
    induction ms with
    | nil => exact fun _ => rfl
    | cons m ms ih =>
        intro s
        rw [Protocol.deliveries]
        split <;> simp [ih]
  simp only [requests, Party.afterRecv, Party.delivered, List.countP_append, hdeliveries,
    Nat.add_zero]

theorem requests_afterSend (p : Party BlockFetch Message) (s : BlockFetch) (data : Bytes)
    (first last : Point) :
    requests (p.afterSend s (.requestRange first last) data) = requests p + 1 := by
  simp [requests, Party.afterSend]

theorem requests_afterSend_clientDone (p : Party BlockFetch Message) (s : BlockFetch)
    (data : Bytes) : requests (p.afterSend s .clientDone data) = requests p := by
  simp [requests, Party.afterSend]

theorem agency_client (h : protocol.agency p.proto = protocol.role p.proto) :
    p.proto.running = true ∧ p.proto.state = .idle :=
  BlockFetch.idle_of_turn h

theorem agency_server (hnone : protocol.agency p.proto ≠ .none)
    (hrole : protocol.agency p.proto ≠ protocol.role p.proto) :
    p.proto.running = true ∧ p.proto.state ≠ .idle ∧ p.proto.state ≠ .done := by
  simp only [protocol, BlockFetch.agency, BlockFetch.role] at hnone hrole
  split at hnone <;> try split at hnone
  all_goals simp_all

/-- A client that is idle asks for its range or, after `done`, leaves. -/
theorem Ledger.sends (h : Ledger S replies undelivered seen todo unanswered coming p)
    (hrole : protocol.agency p.proto = protocol.role p.proto) {m : Message} {s : BlockFetch}
    {data : Bytes} (hsend : protocol.send p.proto = (.ok m, s))
    (hdata : protocol.toBytes S m = .ok data) :
    Moves S p (p.afterSend s m data) ∧ ∃ todo' unanswered' coming',
      Ledger S replies undelivered seen todo' unanswered' coming' (p.afterSend s m data) := by
  obtain ⟨howed, hdue, hrequests, hblocks⟩ := h
  obtain ⟨hrunning, hidle⟩ := agency_client hrole
  rw [hidle] at hdue
  generalize hms : todo.map Prod.fst = ms at hdue
  cases hdue with
  | idle =>
  cases hdone : p.proto.done with
  | false =>
      have heq : protocol.send p.proto =
          (.ok (.requestRange p.proto.config.first p.proto.config.last),
            { p.proto with state := .busy }) := by
        simp [protocol, BlockFetch.send, hdone, hidle]
      cases heq.symm.trans hsend
      refine ⟨.asks hrunning hdone hidle rfl (requests_afterSend _ _ _ _ _), todo, 1, [],
        ⟨howed.carry, howed.pending⟩, ?_, ?_, hblocks⟩
      · rw [hms]
        exact .asked
      · rw [requests_afterSend, hrequests]
  | true =>
      have heq : protocol.send p.proto = (.ok .clientDone, { p.proto with state := .done }) := by
        simp [protocol, BlockFetch.send, hdone, hidle]
      cases heq.symm.trans hsend
      refine ⟨.leaves hrunning hdone hidle rfl (requests_afterSend_clientDone _ _ _) hdata rfl,
        todo, 0, [], ⟨howed.carry, howed.pending⟩, ?_, ?_, hblocks⟩
      · rw [hms]
        exact .done
      · rw [requests_afterSend_clientDone, hrequests]

/-- **The step lemma.** A turn asks, leaves or reads, and the ledger is kept. -/
theorem Ledger.turned (h : Ledger S replies undelivered seen todo unanswered coming p)
    (hturned : Party.Turned protocol S p p') :
    Moves S p p' ∧ ∃ todo' unanswered' coming',
      Ledger S replies undelivered seen todo' unanswered' coming' p' := by
  cases hturned with
  | send _ hrole hsend hdata => exact h.sends hrole hsend hdata
  | @recv q qs ms tail s hnone hrole hq hfeed _ _ =>
      obtain ⟨howed, hdue, hrequests, hblocks⟩ := h
      obtain ⟨hrunning, hidle, hdone⟩ := agency_server hnone hrole
      obtain ⟨done, todo', carry, rfl, hfeed', howed'⟩ := howed.feed hq
      cases hfeed.symm.trans hfeed'
      rw [List.map_append] at hdue
      obtain ⟨s', fresh, coming', hdeliver, hlater, rfl, hresult, hdue'⟩ := hdue.deliver
      rw [Tail.carry_ofCarry]
      have hproto : (p.afterRecv protocol (done.map Prod.fst) qs carry).proto = s' := by
        simp [Party.afterRecv, Party.delivered, hdeliver]
      refine ⟨.reads hrunning hidle hdone (hproto ▸ hlater) (requests_afterRecv _ _ _ _), todo',
        unanswered, coming', howed', hproto ▸ hdue', ?_, ?_⟩
      · rw [requests_afterRecv, hrequests]
      · rw [hproto, hresult, ← hblocks]
        simp only [List.append_assoc]

theorem toBytes_ok (hS : S.Lawful) (m : Message) : ∃ data, protocol.toBytes S m = .ok data := by
  obtain ⟨data, hdata⟩ := hS.toVec_ok _ m.plain_toValues
  exact ⟨data, by simp [Protocol.toBytes, protocol, hdata]⟩

/-- A conforming server does not make a client panic. -/
theorem Ledger.not_faulted (hS : S.Lawful)
    (h : Ledger S replies undelivered seen todo unanswered coming p) {e : Error} :
    ¬ Party.Faulted protocol S p e p' := by
  intro hfault
  cases hfault with
  | @send r s e hnone hrole hsend hpanic =>
      obtain ⟨-, hidle⟩ := agency_client hrole
      have hmessage : ∃ m, r = .ok m := by
        cases hdone : p.proto.done <;>
          simp only [protocol, BlockFetch.send, hdone, hidle] at hsend <;> cases hsend <;>
          exact ⟨_, rfl⟩
      obtain ⟨m, rfl⟩ := hmessage
      obtain ⟨data, hdata⟩ := toBytes_ok hS m
      simp [hdata] at hpanic
  | @recv q qs ms tail e hnone hrole hq hfeed hpanic =>
      obtain ⟨done, todo', carry, rfl, hfeed', -⟩ := h.owed.feed hq
      cases hfeed.symm.trans hfeed'
      have hdue := h.due
      rw [List.map_append] at hdue
      obtain ⟨s', -, -, hdeliver, -⟩ := hdue.deliver
      rcases hpanic with hpanic | ⟨-, htail⟩
      · rw [hdeliver] at hpanic
        cases hpanic
      · cases carry <;> cases htail

/-- Calls that leave state and result alone keep the ledger. -/
theorem Ledger.call (h : Ledger S replies undelivered seen todo unanswered coming p)
    {s : BlockFetch} (hstate : s.state = p.proto.state) (hresult : s.result = p.proto.result) :
    Ledger S replies undelivered seen todo unanswered coming { p with proto := s } where
  owed := ⟨h.owed.carry, h.owed.pending⟩
  due := hstate ▸ h.due
  requests := h.requests
  blocks := hresult ▸ h.blocks

/-- A request that is not answered yet can be. -/
theorem Ledger.answer (h : Ledger S replies undelivered seen todo unanswered coming p)
    {r : Reply} (hr : r.Conforms S) (hlt : replies.length < Blockfetch.requests p) :
    Ledger S (replies ++ [r]) (undelivered ++ r.bytes) seen r.wire 0 r.blocks p := by
  obtain ⟨howed, hdue, hrequests, hblocks⟩ := h
  generalize hstate : p.proto.state = state at hdue
  generalize hms : todo.map Prod.fst = ms at hdue
  cases hdue with
  | asked =>
      obtain rfl := List.map_eq_nil_iff.mp hms
      refine ⟨howed.answer hr.encoded, ?_, ?_, ?_⟩
      · rw [hstate, hr.messages]
        exact .busy r.answer
      · rw [hrequests, List.length_append]
        rfl
      · rw [List.append_nil] at hblocks
        rw [hblocks]
        simp
  | idle | done | busy | streaming => omega

/-! ### Every world -/

/-- What the flags and the state can be at a place. -/
def Place.Allows : Place → BlockFetch → Prop
  | .outside, s | .stream, s =>
    s.running = false ∧ s.done = false ∧ (s.state = .idle ∨ s.state = .streaming)
  | .run, s => s.done = false ∧ s.state ≠ .done ∧ (s.state = .busy → s.running = true)
  | .next, s =>
    s.done = false ∧ (s.state = .streaming ∨ s.state = .idle ∧ s.running = false)
  | .done, s => s.done = true ∧ s.state ≠ .busy
  | .closed, _ => True
  | .panicked, _ => False

/-- The last call of `run`, or its stream, is in use. -/
def Place.Open : Place → Prop
  | .run | .stream | .next => True
  | .outside | .done | .closed | .panicked => False

structure World.Sound (S : SerdeCbor) (w : World) : Prop where
  ledger : ∃ undelivered todo unanswered coming,
    w.replies.flatMap Reply.bytes = w.delivered ++ undelivered ∧
      Ledger S w.replies undelivered (w.streams.flatMap Stream.returned) todo unanswered coming
        w.client.party
  allows : w.client.place.Allows w.client.party.proto
  streams : w.client.place.Open → w.streams ≠ []

theorem Moves.allows {place : Place} (h : Moves S p p') (hallows : place.Allows p.proto)
    (hcalling : place.Calling) : place.Allows p'.proto := by
  cases h with
  | asks hrunning hdone hidle hproto _ =>
      rw [hproto]
      cases place with
      | run => exact ⟨hdone, by simp, fun _ => hrunning⟩
      | next => simp [Place.Allows, hidle, hrunning] at hallows
      | done => simp [Place.Allows, hdone] at hallows
      | _ => exact hcalling.elim
  | leaves hrunning hdone hidle hproto _ _ _ =>
      rw [hproto]
      cases place with
      | run => simp [Place.Allows, hdone] at hallows
      | next => simp [Place.Allows, hdone] at hallows
      | done => exact ⟨hdone, by simp⟩
      | _ => exact hcalling.elim
  | reads hrunning hidle _ hlater _ =>
      obtain ⟨hdone, hmoved⟩ := hlater
      cases place with
      | run =>
          obtain ⟨hdone', hstate, hbusy⟩ := hallows
          rcases hmoved with heq | hs | ⟨hi, hr⟩
          · rw [heq]
            exact ⟨hdone', hstate, hbusy⟩
          · exact ⟨hdone.trans hdone', by simp [hs], by simp [hs]⟩
          · exact ⟨hdone.trans hdone', by simp [hi], by simp [hi]⟩
      | next =>
          obtain ⟨hdone', hstate⟩ := hallows
          rcases hmoved with heq | hs | hi
          · rw [heq]
            exact ⟨hdone', hstate⟩
          · exact ⟨hdone.trans hdone', .inl hs⟩
          · exact ⟨hdone.trans hdone', .inr hi⟩
      | done =>
          obtain ⟨hdone', hstate⟩ := hallows
          rcases hmoved with heq | hs | ⟨hi, hr⟩
          · rw [heq]
            exact ⟨hdone', hstate⟩
          · exact ⟨hdone.trans hdone', by simp [hs]⟩
          · exact ⟨hdone.trans hdone', by simp [hi]⟩
      | _ => exact hcalling.elim

theorem not_running_of_stop (h : Party.turn protocol S p = .stop) :
    p.proto.running = false ∨ p.proto.state = .done := by
  rw [Party.turn_stop_iff] at h
  simp only [protocol, BlockFetch.agency] at h
  split at h <;> try split at h
  all_goals simp_all

/-- What `pop` returns is taken from the front of the result. -/
theorem pop_spec {s s' : BlockFetch} {block : Option Bytes} (h : s.pop = (.ok block, s')) :
    s.result = block.toList ++ s'.result ∧ s' = { s with result := s'.result } := by
  obtain ⟨config, state, result, running, done⟩ := s
  cases result <;> cases h <;> exact ⟨rfl, rfl⟩

/-- The block that an action returns. -/
def Action.returned : Action → List Bytes
  | .yields block => block.toList
  | _ => []

section

variable {c c' : Client} {a : Action} {history : List Stream}

theorem Ledger.pop (h : Ledger S replies undelivered seen todo unanswered coming p)
    {s : BlockFetch} {block : Option Bytes} (hpop : p.proto.pop = (.ok block, s)) :
    Ledger S replies undelivered (seen ++ block.toList) todo unanswered coming
      { p with proto := s } := by
  obtain ⟨hresult, hs⟩ := pop_spec hpop
  refine ⟨⟨h.owed.carry, h.owed.pending⟩, ?_, h.requests, ?_⟩
  · rw [hs]
    exact h.due
  · have hblocks := h.blocks
    rw [hresult] at hblocks
    simpa only [List.append_assoc] using hblocks

/-- What a client does keeps the ledger, and goes with the place it is at. -/
theorem Ledger.does (hS : S.Lawful)
    (h : Ledger S replies undelivered seen todo unanswered coming c.party)
    (hallows : c.place.Allows c.party.proto) (hdoes : c.Does S a c') :
    (∃ todo' unanswered' coming', Ledger S replies undelivered (seen ++ a.returned) todo'
      unanswered' coming' c'.party) ∧ c'.place.Allows c'.party.proto := by
  have hquiet : ∀ {p : Party BlockFetch Message},
      Ledger S replies undelivered seen todo unanswered coming p →
        Ledger S replies undelivered (seen ++ []) todo unanswered coming p := by
    intro p h
    rwa [List.append_nil]
  cases hdoes with
  | turn hcalling hturn =>
      obtain ⟨hmoves, hledger⟩ := h.turned (Party.turned_of_next hturn)
      exact ⟨by simpa [Action.returned] using hledger, hmoves.allows hallows hcalling⟩
  | panic hcalling hturn => exact absurd (Party.faulted_of_panic hturn) (h.not_faulted hS)
  | unexpected hplace _ hstate =>
      rw [hplace] at hallows
      obtain ⟨-, -, hidle | hstreaming⟩ := hallows
      · simp [hidle] at hstate
      · simp [hstreaming] at hstate
  | run hplace =>
      rw [hplace] at hallows
      obtain ⟨-, hdone, hstate⟩ := hallows
      refine ⟨⟨todo, unanswered, coming, ?_⟩, hdone, ?_, fun _ => rfl⟩
      · exact hquiet (h.call rfl rfl)
      · rcases hstate with hstate | hstate <;> simp [Client.go, BlockFetch.start, hstate]
  | opened hplace hstop =>
      rw [hplace] at hallows
      obtain ⟨hdone, hstate, hbusy⟩ := hallows
      have hrunning := (not_running_of_stop hstop).resolve_right hstate
      refine ⟨⟨todo, unanswered, coming, ?_⟩, hrunning, hdone, ?_⟩
      · exact hquiet h
      · cases hs : c.party.proto.state <;> simp_all
  | next hplace _ hstreaming =>
      rw [hplace] at hallows
      exact ⟨⟨todo, unanswered, coming, hquiet (h.call rfl rfl)⟩, hallows.2.1, .inl hstreaming⟩
  | drop hplace =>
      rw [hplace] at hallows
      exact ⟨⟨todo, unanswered, coming, hquiet h⟩, hallows⟩
  | done hplace =>
      rw [hplace] at hallows
      obtain ⟨-, -, hstate⟩ := hallows
      refine ⟨⟨todo, unanswered, coming, ?_⟩, rfl, ?_⟩
      · exact hquiet (h.call rfl rfl)
      · rcases hstate with hstate | hstate <;> simp [Client.go, BlockFetch.finish, hstate]
  | closed _ _ => exact ⟨⟨todo, unanswered, coming, hquiet h⟩, trivial⟩
  | peek hplace _ hpop =>
      rw [hplace] at hallows
      refine ⟨⟨todo, unanswered, coming, h.pop hpop⟩, ?_⟩
      rw [Client.go, (pop_spec hpop).2]
      exact hallows
  | yields hplace hstop hpop =>
      rw [hplace] at hallows
      obtain ⟨hdone, hstate⟩ := hallows
      have hrunning : c.party.proto.running = false := by
        rcases not_running_of_stop hstop with hrunning | hleft
        · exact hrunning
        · simp [hleft] at hstate
      refine ⟨⟨todo, unanswered, coming, h.pop hpop⟩, ?_⟩
      rw [Client.go, (pop_spec hpop).2]
      exact ⟨hrunning, hdone, hstate.symm.imp_left And.left⟩

/-- The history records the block that is returned. -/
theorem Client.Does.returned (hdoes : c.Does S a c') (hstreams : c.place.Open → history ≠ []) :
    (record a c.party history).flatMap Stream.returned =
      history.flatMap Stream.returned ++ a.returned := by
  have hlast : c.place.Open → ∃ past current, history = past ++ [current] := fun hopen =>
    (List.eq_nil_or_concat' history).resolve_left (hstreams hopen)
  cases hdoes with
  | opened hplace _ =>
      obtain ⟨past, current, rfl⟩ := hlast (by rw [hplace]; trivial)
      simp [record, Action.returned, List.modifyLast_concat]
  | @peek block _ hplace _ _ | @yields block _ hplace _ _ =>
      obtain ⟨past, current, rfl⟩ := hlast (by rw [hplace]; trivial)
      cases block <;> simp [record, Action.returned, List.modifyLast_concat]
  | _ => simp [record, Action.returned]

theorem Client.Does.streams (hdoes : c.Does S a c') (hstreams : c.place.Open → history ≠ [])
    (hopen : c'.place.Open) : record a c.party history ≠ [] := by
  have hlast : c.place.Open → ∃ past current, history = past ++ [current] := fun hopen =>
    (List.eq_nil_or_concat' history).resolve_left (hstreams hopen)
  cases hdoes with
  | turn _ _ => exact hstreams hopen
  | run _ => simp [record]
  | next hplace _ _ => exact hstreams (by rw [hplace]; trivial)
  | opened hplace _ =>
      obtain ⟨past, current, rfl⟩ := hlast (by rw [hplace]; trivial)
      simp [record, List.modifyLast_concat]
  | @peek block _ hplace _ _ | @yields block _ hplace _ _ =>
      obtain ⟨past, current, rfl⟩ := hlast (by rw [hplace]; trivial)
      cases block <;> simp [record, List.modifyLast_concat]
  | _ => exact hopen.elim

end

theorem World.sound_start (hS : S.Lawful) {b : Builder} (hp : b.client = .ok p) :
    (World.start p).Sound S := by
  obtain ⟨data, hdata⟩ := hS.toVec_ok _ (Message.plain_toValues .clientDone)
  have hword : (protocol.decoder S).Codeword data .clientDone :=
    (Message.encoded hS hdata).codeword
  obtain ⟨first, last⟩ := b
  cases first with
  | none => cases hp
  | some first =>
      cases last with
      | none => cases hp
      | some last =>
          cases hp
          refine ⟨⟨[], [], 0, [], rfl, ?_⟩, ⟨rfl, rfl, .inl rfl⟩, fun h => h.elim⟩
          refine ⟨⟨hword.partial_nil, hword.partial_nil, ?_, rfl⟩, .idle, rfl, rfl⟩
          exact fun e he => absurd he List.not_mem_nil

/-- **The step lemma.** -/
theorem World.Sound.step (hS : S.Lawful) {ok : Client → Action → Prop} {w w' : World}
    (h : w.Sound S) (hstep : World.Step S ok w w') : w'.Sound S := by
  obtain ⟨⟨undelivered, todo, unanswered, coming, hwire, hledger⟩, hallows, hstreams⟩ := h
  cases hstep with
  | client _ hdoes =>
      obtain ⟨⟨todo', unanswered', coming', hledger'⟩, hallows'⟩ :=
        hledger.does hS hallows hdoes
      rw [← hdoes.returned hstreams] at hledger'
      exact ⟨⟨undelivered, todo', unanswered', coming', hwire, hledger'⟩, hallows',
        hdoes.streams hstreams⟩
  | @answer r hr hlt =>
      refine ⟨⟨undelivered ++ r.bytes, r.wire, 0, r.blocks, ?_, hledger.answer hr hlt⟩, hallows,
        hstreams⟩
      rw [List.flatMap_append, hwire, List.flatMap_singleton, List.append_assoc]
  | arrive chunk hchunk =>
      obtain ⟨rest, hrest⟩ := hchunk
      rw [hwire, List.append_assoc] at hrest
      obtain rfl := List.append_cancel_left hrest
      refine ⟨⟨rest, todo, unanswered, coming, ?_, ?_⟩, hallows, hstreams⟩
      · rw [World.arrive, hwire, List.append_assoc]
      · exact ⟨hledger.owed.arrive, hledger.due, hledger.requests, hledger.blocks⟩

/-- **The run lemma.** -/
theorem World.Run.sound (hS : S.Lawful) {b : Builder} (hp : b.client = .ok p)
    {ok : Client → Action → Prop} {w : World} (h : World.Run S ok (World.start p) w) :
    w.Sound S :=
  Transition.invariant (fun _ _ h hstep => h.step hS hstep) h (World.sound_start hS hp)

end Ouroboros.Blockfetch
