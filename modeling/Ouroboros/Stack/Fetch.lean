import Ouroboros.Protocols.BlockfetchStream
import Ouroboros.Stack.Client

/-!
A block-fetch program over the multiplexer.

The program asks for its range, reads the stream until `next` returns `None`, and may ask
again. Against a server that answers what it is asked it sees every block once and in
order, whatever else is on the connection and in whatever order things happen.
-/

namespace Ouroboros.Blockfetch

open Relation Mux Mux.Connection

/-- Where a program is between two returns of `execute`. -/
inductive Spot
  /-- In `run`. -/
  | running
  /-- At the head of the loop over the stream. -/
  | looping
  /-- In `next`, which has found no block in the result. -/
  | calling
  | finished
  deriving DecidableEq

/-- What a program has seen: the blocks of the streams that are over, and of the present one. -/
structure Fetch where
  spot : Spot
  streams : List (List Bytes)
  blocks : List Bytes

namespace Fetch

/-- The next call of `run`, unless there have been enough of them. -/
def begin (rounds : ℕ) (streams : List (List Bytes)) (s : BlockFetch) : Fetch × BlockFetch :=
  if streams.length < rounds then (⟨.running, streams, []⟩, s.start)
  else (⟨.finished, streams, []⟩, s)

/-- All blocks that have been seen. -/
def seen (k : Fetch) : List Bytes := k.streams.flatten ++ k.blocks

end Fetch

/-- The example `blockfetch`: `while let Some(block) = blocks.next()`, any number of times. -/
def fetch (rounds : ℕ) : Program Fetch BlockFetch := fun k s =>
  match k.spot with
  | .running => some ({ k with spot := .looping }, s)
  | .looping =>
    match s.result with
    | block :: result => some ({ k with blocks := k.blocks ++ [block] }, { s with result })
    | [] =>
      match s.state with
      | .streaming => some ({ k with spot := .calling }, s.start)
      | .idle => some (Fetch.begin rounds (k.streams ++ [k.blocks]) s)
      -- `next` panics
      | .busy | .done => none
  | .calling =>
    match s.pop with
    | (.ok (some block), s) =>
      some ({ k with spot := .looping, blocks := k.blocks ++ [block] }, s)
    | (.ok none, s) => some (Fetch.begin rounds (k.streams ++ [k.blocks]) s)
    | (.err _, _) | (.panic _, _) => none
  | .finished => none

variable {S : SerdeCbor} {rounds : ℕ} {streams : List (List Bytes)} {blocks : List Bytes}
  {p p' : Party BlockFetch Message}

/-- The call of `next` is that of the client, if it is at rest. -/
theorem run_next {r : Option Bytes} (hstop : Party.turn protocol S p = .stop)
    (h : next S p = (.ok r, p')) :
    (fetch rounds).Run protocol S (⟨.looping, streams, blocks⟩, p)
      (match r with
      | some block => (⟨.looping, streams, blocks ++ [block]⟩, p')
      | none => ((Fetch.begin rounds (streams ++ [blocks]) p'.proto).1,
          { p' with proto := (Fetch.begin rounds (streams ++ [blocks]) p'.proto).2 })) := by
  simp only [next] at h
  split at h
  · rename_i hresult
    split at h
    · rename_i hstate
      -- `execute` reads on
      obtain ⟨q, s, hexecute, hpop, rfl⟩ := Party.call_ok_iff.mp h
      have hcalling : fetch rounds ⟨.looping, streams, blocks⟩ p.proto =
          some (⟨.calling, streams, blocks⟩, p.proto.start) := by
        simp only [fetch, hresult, hstate]
      obtain ⟨hrun, hstop'⟩ := @Program.run_execute _ _ _ (fetch rounds) _ _
        ⟨.calling, streams, blocks⟩ _ _ hexecute
      have hcalled : (fetch rounds).Run protocol S (⟨.looping, streams, blocks⟩, p)
          (⟨.calling, streams, blocks⟩, q) := .head (Program.advance_call hstop hcalling) hrun
      cases r with
      | some block =>
          refine hcalled.tail (Program.advance_call hstop' ?_)
          simp only [fetch, hpop]
      | none =>
          refine hcalled.tail (Program.advance_call hstop' ?_)
          simp only [fetch, hpop]
    · rename_i hstate
      cases h
      refine .single (Program.advance_call hstop ?_)
      simp only [fetch, hresult, hstate]
    all_goals cases h
  · rename_i block result hresult
    cases h
    refine .single (Program.advance_call hstop ?_)
    simp only [fetch, hresult]

variable {config : Config} {past : List Bytes} {request : Bytes} {xs : List Exchange}

/-- Between two calls the client is at rest. -/
theorem Ready.stop {sent : List Bytes} (h : Ready S config blocks sent p) :
    Party.turn protocol S p = .stop := by
  obtain ⟨⟨todo, -, hpaused⟩, -, -⟩ := h
  rw [Party.turn_stop_iff]
  generalize todo.map Prod.fst = ms at hpaused
  generalize p.proto = s at hpaused
  cases hpaused <;> rfl

/-- The loop reads the stream to its end. -/
theorem Ready.fetches
    (hrequest : protocol.toBytes S (.requestRange config.first config.last) = .ok request)
    (h : Ready S config blocks (past ++ [request]) p) (seen : List Bytes) :
    ∃ p', (fetch rounds).Run protocol S (⟨.looping, streams, seen⟩, p)
        ((Fetch.begin rounds (streams ++ [seen ++ blocks]) p'.proto).1,
          { p' with proto := (Fetch.begin rounds (streams ++ [seen ++ blocks]) p'.proto).2 }) ∧
      Finished config (past ++ [request]) p' := by
  induction blocks generalizing p seen with
  | nil =>
      obtain ⟨p', hnext, hfinished⟩ := h.next_none hrequest
      rw [List.append_nil]
      exact ⟨p', run_next h.stop hnext, hfinished⟩
  | cons block blocks ih =>
      obtain ⟨q, hnext, hready⟩ := h.next_some hrequest
      obtain ⟨p', hrun, hfinished⟩ := ih hready (seen ++ [block])
      rw [List.append_assoc, List.singleton_append] at hrun
      exact ⟨p', (run_next h.stop hnext).trans hrun, hfinished⟩

/-- The program by itself reads one stream after the other. -/
theorem Finished.fetches
    (hrequest : protocol.toBytes S (.requestRange config.first config.last) = .ok request)
    (hxs : ∀ x ∈ xs, x.Conforms S) (h : Finished config past p)
    (hrounds : streams.length + xs.length = rounds) :
    ∃ p', (fetch rounds).Run protocol S
        ((Fetch.begin rounds streams p.proto).1, { p.arrive (xs.flatMap Exchange.payloads) with
          proto := (Fetch.begin rounds streams p.proto).2 })
        (⟨.finished, streams ++ xs.map fun x => x.answer.blocks, []⟩, p') ∧
      Finished config (past ++ List.replicate xs.length request) p' := by
  induction xs generalizing p past streams with
  | nil =>
      have hover : ¬ streams.length < rounds := by
        rw [List.length_nil] at hrounds
        omega
      refine ⟨p, ?_, by simpa using h⟩
      simp only [Fetch.begin, if_neg hover, List.flatMap_nil, List.map_nil, List.append_nil,
        Party.arrive]
      exact .refl
  | cons x xs ih =>
      obtain ⟨hx, hrest⟩ := List.forall_mem_cons.mp hxs
      have hmore : streams.length < rounds := by
        rw [List.length_cons] at hrounds
        omega
      obtain ⟨q, hrun, hready⟩ := h.run hrequest hx
      obtain ⟨q', s, hexecute, hfinish, rfl⟩ := Party.call_ok_iff.mp hrun
      cases hfinish
      obtain ⟨hcall, hstop⟩ := @Program.run_execute _ _ _ (fetch rounds) _ _
        ⟨.running, streams, []⟩ _ _ hexecute
      have hlooping : fetch rounds ⟨.running, streams, []⟩ q'.proto =
          some (⟨.looping, streams, []⟩, q'.proto) := rfl
      obtain ⟨q'', hloop, hfinished⟩ := @Ready.fetches _ rounds streams _ _ _ _ _ hrequest hready []
      have hlength : (streams ++ [[] ++ x.answer.blocks]).length + xs.length = rounds := by
        rw [← hrounds]
        simp
        omega
      obtain ⟨p', hrun', hfinished'⟩ := ih hrest hfinished hlength
      refine ⟨p', ?_, ?_⟩
      · have hstream := (hcall.tail (Program.advance_call hstop hlooping)).trans hloop
        have harrived := (Program.run_arrive hstream (xs.flatMap Exchange.payloads)).trans hrun'
        have hqueue : p.arrive ((x :: xs).flatMap Exchange.payloads) =
            (p.arrive x.payloads).arrive (xs.flatMap Exchange.payloads) := by
          simp [Party.arrive]
        have hstreams : streams ++ (x :: xs).map (fun x => x.answer.blocks) =
            streams ++ [[] ++ x.answer.blocks] ++ xs.map fun x => x.answer.blocks := by
          simp
        rw [hqueue, hstreams]
        simp only [Fetch.begin, if_pos hmore]
        exact harrived
      · simpa [List.replicate_succ] using hfinished'

theorem Fetch.seen_begin (k : Fetch) (rounds : ℕ) (s : BlockFetch) :
    (Fetch.begin rounds (k.streams ++ [k.blocks]) s).1.seen = k.seen := by
  rw [Fetch.begin]
  split_ifs <;> simp [Fetch.seen]

theorem Fetch.seen_concat (k : Fetch) (spot : Spot) (block : Bytes) :
    k.seen <+: ({ k with spot, blocks := k.blocks ++ [block] } : Fetch).seen := by
  simp only [Fetch.seen]
  rw [← List.append_assoc]
  exact List.prefix_append _ _

/-- A program sees a block more, or none. -/
theorem seen_fetch {k k' : Fetch} {s s' : BlockFetch} (h : fetch rounds k s = some (k', s')) :
    k.seen <+: k'.seen := by
  have hbegin : ∀ {t : BlockFetch},
      some (Fetch.begin rounds (k.streams ++ [k.blocks]) t) = some (k', s') →
        k.seen <+: k'.seen := by
    intro t ht
    have hk : (Fetch.begin rounds (k.streams ++ [k.blocks]) t).1 = k' := by rw [Option.some.inj ht]
    rw [← hk, Fetch.seen_begin]
  simp only [fetch] at h
  split at h
  · cases h
    exact List.prefix_refl _
  · split at h
    · cases h
      exact k.seen_concat _ _
    · split at h
      · cases h
        exact List.prefix_refl _
      · exact hbegin h
      all_goals cases h
  · split at h
    · cases h
      exact k.seen_concat _ _
    · exact hbegin h
    all_goals cases h
  · cases h

theorem run_seen {x y : Fetch × Party BlockFetch Message} (h : (fetch rounds).Run protocol S x y) :
    x.1.seen <+: y.1.seen := by
  induction h with
  | refl => exact List.prefix_refl _
  | @tail y z _ hstep ih =>
      rcases Program.advance_cases hstep with ⟨p, -, rfl⟩ | ⟨k, s, -, hfetch, rfl⟩
      · exact ih
      · exact ih.trans (seen_fetch hfetch)

/-- What a program comes to. -/
structure Sees (S : SerdeCbor) (T : Transport) (rounds : ℕ) (stream : Bytes)
    (start : Mux.Client Fetch BlockFetch Message) (streams : List (List Bytes)) (request : Bytes) :
    Prop where
  sofar : ∀ c, ReflTransGen (Mux.Client.Step protocol S T (fetch rounds) stream) start c →
    c.caller.seen <+: streams.flatten
  all : ∀ c, ReflTransGen (Mux.Client.Step protocol S T (fetch rounds) stream) start c →
    (∀ c', ¬ Mux.Client.Step protocol S T (fetch rounds) stream c c') →
    c.caller = ⟨.finished, streams, []⟩ ∧
      c.endpoint.party.channel.sent = List.replicate streams.length request
  ends : ¬ ∃ run : ℕ → Mux.Client Fetch BlockFetch Message, run 0 = start ∧
    ∀ i, Mux.Client.Step protocol S T (fetch rounds) stream (run i) (run (i + 1))

/-- **A block-fetch program sees every block.** The program opens its channel on a settled
connection. The peer writes frames for any channels; those for channel 3 carry, cut in any
way, what a conforming server answers to its requests. In whatever order things happen,
the blocks it has seen are the first of the server's, in their order; in the end it has
seen them all, each in its stream, and has sent one request for each stream. -/
theorem sees (hS : S.Lawful) {T : Transport} (hT : T.Greedy) {s : Connection} (hs : Settled s)
    (written : Bytes) {b : Builder} (hb : b.client = .ok p) (hxs : ∀ x ∈ xs, x.Conforms S)
    {cs : List Call} (hcs : ∀ c ∈ cs, c.payload.length ≤ 65535)
    (hpayloads : payloadsFor 0x0003 cs = xs.flatMap Exchange.payloads) :
    ∃ request, protocol.toBytes S
        (.requestRange p.proto.config.first p.proto.config.last) = .ok request ∧
      Sees S T xs.length (s.history.consumed ++ cs.flatMap Call.wire)
        ⟨(Fetch.begin xs.length [] p.proto).1,
          .make { p with proto := (Fetch.begin xs.length [] p.proto).2 } s written⟩
        (xs.map fun x => x.answer.blocks) request := by
  obtain ⟨config, hfinished, hidx⟩ : ∃ config, Finished config [] p ∧ p.channel = .open 0x0003 := by
    obtain ⟨_ | first, _ | last⟩ := b <;> cases hb
    exact ⟨_, ⟨rfl, rfl, rfl, rfl⟩, rfl⟩
  obtain ⟨request, htoVec⟩ :=
    hS.toVec_ok _ (Message.plain_toValues (.requestRange config.first config.last))
  have hrequest : protocol.toBytes S (.requestRange config.first config.last) = .ok request := by
    simp [Protocol.toBytes, protocol, htoVec]
  obtain ⟨p', hrun, hfinished'⟩ := @Finished.fetches S xs.length [] _ _ _ _ _ hrequest hxs hfinished
    (Nat.zero_add _)
  have hfollows := @Mux.Client.follows_make _ _ _ _ _ hs
    { p with proto := (Fetch.begin xs.length [] p.proto).2 } _ hidx
    (Fetch.begin xs.length [] p.proto).1 written hcs
  rw [hpayloads] at hfollows
  have hend : (fetch xs.length).advance protocol S
      (⟨.finished, xs.map fun x => x.answer.blocks, []⟩, p') = none := by
    have hstop : Party.turn protocol S p' = .stop := by
      rw [Party.turn_stop_iff, hfinished'.proto]
      rfl
    simp [Program.advance, hstop, fetch]
  have hdetermined := (hfollows.comes hT).determined hrun hend
  refine ⟨request, by rw [hfinished.proto]; exact hrequest, fun c hc => ?_,
    fun c hc hstuck => ?_, hdetermined.ends⟩
  · obtain ⟨payloads, htoward⟩ := hdetermined.toward c hc
    simpa [Fetch.seen] using run_seen htoward
  · obtain ⟨hcaller, hparty⟩ := Prod.mk.inj (hdetermined.result c hc hstuck)
    refine ⟨hcaller, ?_⟩
    rw [hparty, hfinished'.sent]
    simp

/-- A server sends two blocks, which are cut into two frames, and then none. There is a frame
for another channel in between. -/
def twoStreams : List Call :=
  [⟨0, 0x8003, [0x81, 2, 0x82, 4]⟩, ⟨1, 0x8002, [0x81, 1]⟩,
    ⟨2, 0x8003, [0x41, 7, 0x82, 4, 0x42, 8, 9, 0x81, 5]⟩, ⟨3, 0x8003, [0x81, 3]⟩]

theorem sees_blocks :
    ∃ p request, Builder.client ⟨some ⟨42, [1]⟩, some ⟨44, [2]⟩⟩ = .ok p ∧
      Sees Cbor.serdeCbor .greedy 2 (twoStreams.flatMap Call.wire)
        ⟨(Fetch.begin 2 [] p.proto).1,
          .make { p with proto := (Fetch.begin 2 [] p.proto).2 } .new []⟩
        [[[7], [8, 9]], []] request := by
  have hencoded {m : Message} {w : Bytes} (hw : Cbor.serdeCbor.toVec m.toValues = .ok w) :
      protocol.Encoded Cbor.serdeCbor m w :=
    Message.encoded Cbor.serdeCbor_lawful hw
  have hxs : ∀ x ∈ ([⟨.batch [[7], [8, 9]],
          [(.startBatch, [0x81, 2]), (.block [7], [0x82, 4, 0x41, 7]),
            (.block [8, 9], [0x82, 4, 0x42, 8, 9]), (.batchDone, [0x81, 5])],
          [[0x81, 2, 0x82, 4], [0x41, 7, 0x82, 4, 0x42, 8, 9, 0x81, 5]]⟩,
        ⟨.noBlocks, [(.noBlocks, [0x81, 3])], [[0x81, 3]]⟩] : List Exchange),
      x.Conforms Cbor.serdeCbor := by
    simp only [List.forall_mem_cons, List.not_mem_nil, false_implies, implies_true, and_true]
    refine ⟨⟨rfl, ?_, rfl, by decide⟩, ⟨rfl, ?_, rfl, by decide⟩⟩
    · simp only [List.forall_mem_cons, List.not_mem_nil, false_implies, implies_true, and_true]
      exact ⟨hencoded rfl, hencoded rfl, hencoded rfl, hencoded rfl⟩
    · simp only [List.forall_mem_cons, List.not_mem_nil, false_implies, implies_true, and_true]
      exact hencoded rfl
  obtain ⟨request, -, hsees⟩ := @sees Cbor.serdeCbor _ _ Cbor.serdeCbor_lawful .greedy
    (fun _ _ => rfl) _ settled_new [] ⟨some ⟨42, [1]⟩, some ⟨44, [2]⟩⟩ rfl hxs twoStreams
    (by decide) rfl
  exact ⟨_, request, rfl, hsees⟩

end Ouroboros.Blockfetch
