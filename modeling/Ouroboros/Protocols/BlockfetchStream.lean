import Ouroboros.Protocols.Blockfetch
import Ouroboros.Protocols.Conversation
import Ouroboros.SerdeCbor.Codec

/-!
Block streams against a conforming server.

The `running` flag ends a call as soon as a block has been received, while the
rest of the payload that held it is still processed. How far the client is
ahead of the stream's reader depends on the packing of the messages.
`Expects` lists the situations during a call and `Ready` those between two
calls. Both say the same of the blocks: what is in the result queue and what
the server has yet to send make up what the reader has yet to see.
-/

namespace Ouroboros.Blockfetch

/-- What a conforming server answers a request with. -/
inductive Answer
  | noBlocks
  | batch (blocks : List Bytes)

def Answer.messages : Answer → List Message
  | .noBlocks => [.noBlocks]
  | .batch blocks => .startBatch :: (blocks.map .block ++ [.batchDone])

def Answer.blocks : Answer → List Bytes
  | .noBlocks => []
  | .batch blocks => blocks

/-- The answer to one request: its messages with their bytes, and the payloads
that carry them. -/
structure Exchange where
  answer : Answer
  wire : List (Message × Bytes)
  payloads : List Bytes

structure Exchange.Conforms (S : SerdeCbor) (x : Exchange) : Prop where
  messages : x.wire.map Prod.fst = x.answer.messages
  encoded : ∀ e ∈ x.wire, protocol.Encoded S e.1 e.2
  segments : x.payloads.flatten = x.wire.flatMap Prod.snd
  nonempty : ∀ q ∈ x.payloads, q ≠ []

/-- Calls of `BlockStream::next`, one after the other. -/
def nexts (S : SerdeCbor) : ℕ → Party BlockFetch Message →
    List (Exit (Option Bytes)) × Party BlockFetch Message
  | 0, p => ([], p)
  | k + 1, p => ((next S p).1 :: (nexts S k (next S p).2).1, (nexts S k (next S p).2).2)

/-- Every exchange is one call of `run` and then calls of `next`. -/
def Served (S : SerdeCbor) : List Exchange → Party BlockFetch Message → Prop
  | [], _ => True
  | x :: xs, p => ∃ p₁ p₂ request,
      run S (p.arrive x.payloads) = (.ok (), p₁) ∧
      nexts S (x.answer.blocks.length + 1) p₁ =
        (x.answer.blocks.map (fun block => .ok (some block)) ++ [.ok none], p₂) ∧
      (∀ k payloads, nexts S k (p₂.arrive payloads) =
        (List.replicate k (.ok none), p₂.arrive payloads)) ∧
      p₂.proto.state = .idle ∧ p₂.proto.result = [] ∧ p₂.channel.bytes = [] ∧
      protocol.toBytes S (.requestRange p.proto.config.first p.proto.config.last) =
        .ok request ∧
      p₂.channel.sent = p.channel.sent ++ [request] ∧
      Served S xs p₂

/-! ### During a call -/

/-- The client during a call. `blocks` are those the reader has yet to see,
`past` is what had been sent before the request. -/
inductive Expects (config : Config) (past : List Bytes) (request : Bytes) (blocks : List Bytes) :
    List Message → BlockFetch → List Bytes → Prop
  | asking (answer : Answer) : answer.blocks = blocks →
      Expects config past request blocks answer.messages ⟨config, .idle, [], true, false⟩ past
  | busy (answer : Answer) : answer.blocks = blocks →
      Expects config past request blocks answer.messages ⟨config, .busy, [], true, false⟩
        (past ++ [request])
  | streaming (coming result : List Bytes) : result ++ coming = blocks →
      Expects config past request blocks (coming.map .block ++ [.batchDone])
        ⟨config, .streaming, result, result.isEmpty, false⟩ (past ++ [request])
  | finished : Expects config past request blocks [] ⟨config, .idle, blocks, false, false⟩
      (past ++ [request])

theorem Answer.messages_ne_nil (answer : Answer) : answer.messages ≠ [] := by
  cases answer <;> simp [messages]

variable {S : SerdeCbor} {config : Config} {past : List Bytes} {request : Bytes}
  {blocks : List Bytes}

/-- One case for each message of an answer. -/
theorem Expects.recv {m : Message} {ms : List Message} {s : BlockFetch} {sent : List Bytes}
    (h : Expects config past request blocks (m :: ms) s sent) (hrole : s.agency ≠ s.role) :
    ∃ s', s.recv m = (.ok (), s') ∧ Expects config past request blocks ms s' sent ∧
      s'.agency ≠ s'.role := by
  generalize hms : m :: ms = all at h
  cases h with
  | asking answer hblocks => exact absurd rfl hrole
  | busy answer hblocks =>
      cases answer with
      | noBlocks =>
          cases hms
          subst hblocks
          exact ⟨_, rfl, .finished, by simp [BlockFetch.agency, BlockFetch.role]⟩
      | batch coming =>
          cases hms
          exact ⟨_, rfl, .streaming coming [] hblocks, by simp [BlockFetch.agency, BlockFetch.role]⟩
  | streaming coming result hblocks =>
      cases coming with
      | nil =>
          cases hms
          rw [List.append_nil] at hblocks
          subst hblocks
          exact ⟨_, rfl, .finished, by simp [BlockFetch.agency, BlockFetch.role]⟩
      | cons block coming =>
          cases hms
          have hcoming : (result ++ [block]) ++ coming = blocks := by
            rw [List.append_assoc]
            exact hblocks
          have hnext := @Expects.streaming config past request blocks coming _ hcoming
          have hresult : (result ++ [block]).isEmpty = false := by simp
          rw [hresult] at hnext
          exact ⟨_, rfl, hnext, by simp [BlockFetch.agency, BlockFetch.role]⟩
  | finished => cases hms

theorem expects_follows
    (hrequest : protocol.toBytes S (.requestRange config.first config.last) = .ok request) :
    protocol.Follows S (Expects config past request blocks) where
  send {ms s sent} h hnone hrole := by
    cases h with
    | asking answer hblocks => exact ⟨_, _, request, rfl, hrequest, .busy answer hblocks⟩
    | busy answer hblocks => cases hrole
    | streaming coming result hblocks => cases result <;> cases hrole
    | finished => cases hrole
  recv {m ms s sent} h hrole := by
    obtain ⟨s', hrecv, hnext, hrole'⟩ := h.recv hrole
    exact ⟨s', hrecv, hnext, .inr hrole'⟩
  rest {s sent} h := by
    generalize hms : ([] : List Message) = all at h
    cases h with
    | asking answer hblocks => exact absurd hms.symm answer.messages_ne_nil
    | busy answer hblocks => exact absurd hms.symm answer.messages_ne_nil
    | streaming coming result hblocks => simp at hms
    | finished => exact .inl rfl

/-! ### Between two calls -/

/-- The client when no call is running. -/
inductive Paused (config : Config) (blocks : List Bytes) : List Message → BlockFetch → Prop
  | streaming (coming result : List Bytes) : result ++ coming = blocks →
      Paused config blocks (coming.map .block ++ [.batchDone])
        ⟨config, .streaming, result, false, false⟩
  | finished : Paused config blocks [] ⟨config, .idle, blocks, false, false⟩

/-- The reader has yet to see `blocks`; `sent` is what has been sent so far. -/
structure Ready (S : SerdeCbor) (config : Config) (blocks : List Bytes) (sent : List Bytes)
    (p : Party BlockFetch Message) : Prop where
  paused : ∃ todo, Party.Awaits protocol S todo p ∧
    Paused config blocks (todo.map Prod.fst) p.proto
  nonempty : ∀ q ∈ p.channel.receiver, q ≠ []
  sent : p.channel.sent = sent

/-- The stream is over. -/
structure Finished (config : Config) (sent : List Bytes) (p : Party BlockFetch Message) :
    Prop where
  proto : p.proto = ⟨config, .idle, [], false, false⟩
  bytes : p.channel.bytes = []
  receiver : p.channel.receiver = []
  sent : p.channel.sent = sent

/-- A call of `execute` comes to its end and leaves the blocks in order. If it
has started with an empty result, there is a block unless none is left. -/
theorem execute_ready
    (hrequest : protocol.toBytes S (.requestRange config.first config.last) = .ok request)
    {todo : List (Message × Bytes)} {p : Party BlockFetch Message}
    (hp : Party.Awaits protocol S todo p) (hne : ∀ q ∈ p.channel.receiver, q ≠ [])
    (hexpects : Expects config past request blocks (todo.map Prod.fst) p.proto
      p.channel.sent) :
    ∃ p', Party.execute protocol S p = (.ok (), p') ∧
      Ready S config blocks (past ++ [request]) p' ∧
      (p'.proto.result = [] → blocks = [] ∧ p'.proto.state = .idle) := by
  obtain ⟨todo', p', hexecute, hnone, hawaits, hexpects', hsuffix, -⟩ :=
    (expects_follows hrequest).execute hp hexpects
  have hne' : ∀ q ∈ p'.channel.receiver, q ≠ [] := fun q hq => hne q (hsuffix.subset hq)
  refine ⟨p', hexecute, ?_⟩
  generalize hms : todo'.map Prod.fst = ms at hexpects'
  generalize hsent : p'.channel.sent = sent at hexpects'
  generalize hproto : p'.proto = s at hexpects' hnone
  cases hexpects' with
  | asking answer hblocks => cases hnone
  | busy answer hblocks => cases hnone
  | streaming coming result hblocks =>
      cases result with
      | nil => cases hnone
      | cons block result =>
          refine ⟨⟨⟨todo', hawaits, ?_⟩, hne', hsent⟩, fun h => by cases h⟩
          rw [hms, hproto]
          exact .streaming coming (block :: result) hblocks
  | finished =>
      refine ⟨⟨⟨todo', hawaits, ?_⟩, hne', hsent⟩, fun h => ⟨h, rfl⟩⟩
      rw [hms, hproto]
      exact .finished

/-- Once the client is idle and the reader has seen every block, nothing is left
over. -/
theorem Ready.finished {sent : List Bytes} {p : Party BlockFetch Message}
    (h : Ready S config [] sent p) (hidle : p.proto.state = .idle) : Finished config sent p := by
  obtain ⟨⟨todo, hawaits, hpaused⟩, hne, hsent⟩ := h
  generalize hms : todo.map Prod.fst = ms at hpaused
  generalize hproto : p.proto = s at hpaused hidle
  cases hpaused with
  | streaming coming result hblocks => cases hidle
  | finished =>
      rw [List.map_eq_nil_iff] at hms
      subst hms
      obtain ⟨hbytes, hreceiver⟩ := hawaits.clean hne
      exact ⟨hproto, hbytes, hreceiver, hsent⟩

/-- The oldest block of the result is the next one of the stream. -/
theorem Ready.pop {sent : List Bytes} {block : Bytes} {result : List Bytes}
    {p : Party BlockFetch Message} (h : Ready S config blocks sent p)
    (hresult : p.proto.result = block :: result) :
    ∃ blocks', blocks = block :: blocks' ∧
      Ready S config blocks' sent { p with proto := { p.proto with result } } := by
  obtain ⟨⟨todo, hawaits, hpaused⟩, hne, hsent⟩ := h
  generalize hms : todo.map Prod.fst = ms at hpaused
  generalize hproto : p.proto = s at hpaused hresult
  obtain ⟨before, es, hfed⟩ := hawaits
  cases hpaused with
  | streaming coming result' hblocks =>
      cases hresult
      refine ⟨result ++ coming, hblocks.symm, ⟨todo, ?_, ?_⟩, hne, hsent⟩
      · exact ⟨before, es, hfed.handed, hfed.carry, hfed.pending⟩
      · rw [hms]
        exact .streaming coming result rfl
  | finished =>
      cases hresult
      refine ⟨result, rfl, ⟨todo, ?_, ?_⟩, hne, hsent⟩
      · exact ⟨before, es, hfed.handed, hfed.carry, hfed.pending⟩
      · rw [hms]
        exact .finished

/-- With an empty result `next` reads on, unless the stream is over. -/
theorem Ready.execute
    (hrequest : protocol.toBytes S (.requestRange config.first config.last) = .ok request)
    {p : Party BlockFetch Message} (h : Ready S config blocks (past ++ [request]) p)
    (hresult : p.proto.result = []) (hstreaming : p.proto.state = .streaming) :
    ∃ p', Party.execute protocol S { p with proto := p.proto.start } = (.ok (), p') ∧
      Ready S config blocks (past ++ [request]) p' ∧
      (p'.proto.result = [] → blocks = [] ∧ p'.proto.state = .idle) := by
  obtain ⟨⟨todo, ⟨before, es, hfed⟩, hpaused⟩, hne, hsent⟩ := h
  have hawaits : Party.Awaits protocol S todo { p with proto := p.proto.start } :=
    ⟨before, es, hfed.handed, hfed.carry, hfed.pending⟩
  apply execute_ready hrequest hawaits hne
  generalize hms : todo.map Prod.fst = ms at hpaused
  generalize hproto : p.proto = s at hpaused hresult hstreaming
  cases hpaused with
  | streaming coming result hblocks =>
      cases hresult
      rw [hsent]
      exact .streaming coming [] hblocks
  | finished => cases hstreaming

theorem Ready.next_some
    (hrequest : protocol.toBytes S (.requestRange config.first config.last) = .ok request)
    {block : Bytes} {p : Party BlockFetch Message}
    (h : Ready S config (block :: blocks) (past ++ [request]) p) :
    ∃ p', next S p = (.ok (some block), p') ∧ Ready S config blocks (past ++ [request]) p' := by
  cases hresult : p.proto.result with
  | cons b result =>
      obtain ⟨blocks', heq, hready⟩ := h.pop hresult
      cases heq
      exact ⟨_, by simp only [next, hresult], hready⟩
  | nil =>
      have hstreaming : p.proto.state = .streaming := by
        obtain ⟨⟨todo, -, hpaused⟩, -, -⟩ := h
        generalize hms : todo.map Prod.fst = ms at hpaused
        generalize p.proto = s at hpaused hresult
        cases hpaused with
        | streaming coming result hblocks => rfl
        | finished => cases hresult
      obtain ⟨p', hexecute, hready, hempty⟩ := h.execute hrequest hresult hstreaming
      cases hresult' : p'.proto.result with
      | nil => cases (hempty hresult').1
      | cons b result =>
          obtain ⟨blocks', heq, hready'⟩ := hready.pop hresult'
          cases heq
          refine ⟨_, ?_, hready'⟩
          simp only [next, hresult, hstreaming, Party.call, hexecute, BlockFetch.pop, hresult']

/-- Once the reader has seen every block, `next` returns `None`. -/
theorem Ready.next_none
    (hrequest : protocol.toBytes S (.requestRange config.first config.last) = .ok request)
    {p : Party BlockFetch Message} (h : Ready S config [] (past ++ [request]) p) :
    ∃ p', next S p = (.ok none, p') ∧ Finished config (past ++ [request]) p' := by
  cases hresult : p.proto.result with
  | cons b result =>
      obtain ⟨blocks', heq, -⟩ := h.pop hresult
      cases heq
  | nil =>
      by_cases hidle : p.proto.state = .idle
      · exact ⟨p, by simp only [next, hresult, hidle], h.finished hidle⟩
      · have hstreaming : p.proto.state = .streaming := by
          obtain ⟨⟨todo, -, hpaused⟩, -, -⟩ := h
          generalize hms : todo.map Prod.fst = ms at hpaused
          generalize p.proto = s at hpaused hidle
          cases hpaused with
          | streaming coming result hblocks => rfl
          | finished => exact absurd rfl hidle
        obtain ⟨p', hexecute, hready, hempty⟩ := h.execute hrequest hresult hstreaming
        have hresult' : p'.proto.result = [] := by
          cases hresult' : p'.proto.result with
          | nil => rfl
          | cons b result =>
              obtain ⟨blocks', heq, -⟩ := hready.pop hresult'
              cases heq
        refine ⟨p', ?_, hready.finished (hempty hresult').2⟩
        simp only [next, hresult, hstreaming, Party.call, hexecute, BlockFetch.pop, hresult']

theorem Finished.next {sent : List Bytes} {p : Party BlockFetch Message}
    (h : Finished config sent p) (payloads : List Bytes) :
    next S (p.arrive payloads) = (.ok none, p.arrive payloads) := by
  simp [Blockfetch.next, Party.arrive, h.proto]

theorem Finished.nexts {sent : List Bytes} {p : Party BlockFetch Message}
    (h : Finished config sent p) (payloads : List Bytes) (k : ℕ) :
    nexts S k (p.arrive payloads) = (List.replicate k (.ok none), p.arrive payloads) := by
  induction k with
  | zero => rfl
  | succ k ih => simp only [Blockfetch.nexts, h.next, ih, List.replicate_succ]

theorem Ready.nexts
    (hrequest : protocol.toBytes S (.requestRange config.first config.last) = .ok request)
    {p : Party BlockFetch Message} (h : Ready S config blocks (past ++ [request]) p) :
    ∃ p', nexts S (blocks.length + 1) p =
        (blocks.map (fun block => .ok (some block)) ++ [.ok none], p') ∧
      Finished config (past ++ [request]) p' := by
  induction blocks generalizing p with
  | nil =>
      obtain ⟨p', hnext, hfinished⟩ := h.next_none hrequest
      exact ⟨p', by simp [Blockfetch.nexts, hnext], hfinished⟩
  | cons block blocks ih =>
      obtain ⟨p', hnext, hready⟩ := h.next_some hrequest
      obtain ⟨p'', hnexts, hfinished⟩ := ih hready
      refine ⟨p'', ?_, hfinished⟩
      rw [List.length_cons, Blockfetch.nexts, hnext, hnexts]
      rfl

/-! ### Any number of runs -/

/-- A run asks for its range, and the answer makes the stream ready. -/
theorem Finished.run
    (hrequest : protocol.toBytes S (.requestRange config.first config.last) = .ok request)
    {p : Party BlockFetch Message} (h : Finished config past p) {x : Exchange}
    (hx : x.Conforms S) :
    ∃ p', run S (p.arrive x.payloads) = (.ok (), p') ∧
      Ready S config x.answer.blocks (past ++ [request]) p' := by
  have hne : x.wire ≠ [] := by
    intro hnil
    have hmessages := hx.messages
    rw [hnil] at hmessages
    exact x.answer.messages_ne_nil hmessages.symm
  obtain ⟨before, es, hfed⟩ :=
    Party.awaits_arrive hne hx.encoded h.bytes h.receiver hx.segments
  have hawaits : Party.Awaits protocol S x.wire
      { p.arrive x.payloads with proto := p.proto.start } :=
    ⟨before, es, hfed.handed, hfed.carry, hfed.pending⟩
  have hqueue : ∀ q ∈ (p.arrive x.payloads).channel.receiver, q ≠ [] := by
    simpa [Party.arrive, h.receiver] using hx.nonempty
  have hasking : Expects config past request x.answer.blocks (x.wire.map Prod.fst)
      p.proto.start p.channel.sent := by
    rw [hx.messages, h.proto, h.sent]
    exact .asking x.answer rfl
  obtain ⟨p', hexecute, hready, -⟩ := execute_ready hrequest hawaits hqueue hasking
  refine ⟨p', ?_, hready⟩
  have hstart : (p.arrive x.payloads).proto.start = p.proto.start := rfl
  simp only [Blockfetch.run, Party.call, hstart, hexecute]

theorem Finished.served (hS : S.Lawful) {xs : List Exchange} (hxs : ∀ x ∈ xs, x.Conforms S)
    {p : Party BlockFetch Message} (h : Finished config past p) : Served S xs p := by
  induction xs generalizing p past with
  | nil => trivial
  | cons x xs ih =>
      obtain ⟨hx, hrest⟩ := List.forall_mem_cons.mp hxs
      obtain ⟨request, htoVec⟩ :=
        hS.toVec_ok _ (Message.plain_toValues (.requestRange config.first config.last))
      have hrequest :
          protocol.toBytes S (.requestRange config.first config.last) = .ok request := by
        simp [Protocol.toBytes, protocol, htoVec]
      obtain ⟨p₁, hrun, hready⟩ := h.run hrequest hx
      obtain ⟨p₂, hnexts, hfinished⟩ := hready.nexts hrequest
      refine ⟨p₁, p₂, request, hrun, hnexts, fun k payloads => hfinished.nexts payloads k,
        ?_, ?_, hfinished.bytes, ?_, ?_, ih hrest hfinished⟩
      · rw [hfinished.proto]
      · rw [hfinished.proto]
      · rw [h.proto]
        exact hrequest
      · rw [hfinished.sent, h.sent]

/-- **Blocks arrive exactly once and in order.** However the answers of a
conforming server are cut into payloads, every run of the client sends one
`RequestRange`, its stream yields the blocks of the answer and then `None` for
ever, and the client is left idle with nothing queued or carried over. -/
theorem blocks_delivered (hS : S.Lawful) {b : Builder} {p : Party BlockFetch Message}
    (hp : b.client = .ok p) {xs : List Exchange} (hxs : ∀ x ∈ xs, x.Conforms S) :
    Served S xs p := by
  obtain ⟨first, last⟩ := b
  cases first with
  | none => cases hp
  | some first =>
      cases last with
      | none => cases hp
      | some last =>
          cases hp
          exact Finished.served hS hxs ⟨rfl, rfl, rfl, rfl⟩

/-- Two runs: two blocks in three payloads, the first of which ends inside a
block, and then no blocks. -/
theorem blocks_delivered_twice :
    Served Cbor.serdeCbor
      [⟨.batch [[7], [8, 9]],
          [(.startBatch, [0x81, 2]), (.block [7], [0x82, 4, 0x41, 7]),
            (.block [8, 9], [0x82, 4, 0x42, 8, 9]), (.batchDone, [0x81, 5])],
          [[0x81, 2, 0x82, 4], [0x41, 7, 0x82, 4, 0x42, 8, 9], [0x81, 5]]⟩,
        ⟨.noBlocks, [(.noBlocks, [0x81, 3])], [[0x81, 3]]⟩]
      { proto := { config := { first := ⟨42, [1]⟩, last := ⟨44, [2]⟩ }, state := .idle,
                   result := [], running := false, done := false }
        channel := .open 0x0003
        log := [] } := by
  have hencoded {m : Message} {w : Bytes} (hw : Cbor.serdeCbor.toVec m.toValues = .ok w) :
      protocol.Encoded Cbor.serdeCbor m w :=
    Message.encoded Cbor.serdeCbor_lawful hw
  refine blocks_delivered (b := ⟨some ⟨42, [1]⟩, some ⟨44, [2]⟩⟩) Cbor.serdeCbor_lawful rfl ?_
  simp only [List.forall_mem_cons, List.not_mem_nil, false_implies, implies_true, and_true]
  refine ⟨⟨rfl, ?_, rfl, by decide⟩, ⟨rfl, ?_, rfl, by decide⟩⟩
  · simp only [List.forall_mem_cons, List.not_mem_nil, false_implies, implies_true, and_true]
    exact ⟨hencoded rfl, hencoded rfl, hencoded rfl, hencoded rfl⟩
  · simp only [List.forall_mem_cons, List.not_mem_nil, false_implies, implies_true, and_true]
    exact hencoded rfl

end Ouroboros.Blockfetch
