import Ouroboros.Library.Transition
import Ouroboros.Protocols.BlockfetchStream
import Mathlib.Data.List.ModifyLast

/-!
The block-fetch client turn by turn.

A stream borrows the client and can be dropped at any time. What it has not been asked
for stays in the client: the blocks in the result queue, and the state of the protocol.
`Client.Does` lists what the caller and the client can do: a call, the end of a call, or
one turn of the loop in `execute`.
-/

namespace Ouroboros

open Relation Streaming

namespace Party

variable {σ μ : Type} {P : Protocol σ μ} {S : SerdeCbor} {p p' : Party σ μ}

/-- The peer owes the messages `todo`. Of their bytes some are in the carry, some in the
queue, and `undelivered` is yet to arrive. -/
structure Owed (P : Protocol σ μ) (S : SerdeCbor) (todo : List (μ × Bytes))
    (undelivered : Bytes) (p : Party σ μ) : Prop where
  carry : (P.decoder S).Partial p.channel.bytes
  pending : (P.decoder S).Pending todo []
    (p.channel.bytes ++ (p.channel.receiver.flatten ++ undelivered))

variable {todo : List (μ × Bytes)} {undelivered chunk : Bytes}

theorem Owed.arrive (h : Owed P S todo (chunk ++ undelivered) p) :
    Owed P S todo undelivered (p.arrive [chunk]) where
  carry := h.carry
  pending := by simpa [Party.arrive] using h.pending

/-- More messages are owed once all that were have arrived. -/
theorem Owed.answer (h : Owed P S [] undelivered p) {wire : List (μ × Bytes)}
    (hwire : ∀ e ∈ wire, P.Encoded S e.1 e.2) :
    Owed P S wire (undelivered ++ wire.flatMap Prod.snd) p where
  carry := h.carry
  pending := by
    refine ⟨h.pending.rest, Protocol.coded_of_encoded hwire, ?_⟩
    have heq := h.pending.eq
    rw [List.flatMap_nil, List.append_nil] at heq
    rw [← List.append_assoc, ← List.append_assoc, List.append_assoc _ _ undelivered, heq,
      List.nil_append, List.append_nil]

/-- The next payload completes some of the messages. -/
theorem Owed.feed (h : Owed P S todo undelivered p) {q : Bytes} {qs : List Bytes}
    (hq : p.channel.receiver = q :: qs) :
    ∃ done todo' carry, todo = done ++ todo' ∧
      (P.decoder S).feed p.channel.bytes q = (done.map Prod.fst, .ofCarry carry) ∧
      Owed P S todo' undelivered (p.afterRecv P (done.map Prod.fst) qs carry) := by
  have hpending := h.pending
  rw [hq, List.flatten_cons, List.append_assoc] at hpending
  obtain ⟨done, todo', carry, htodo, hfeed, hcarry, hrest⟩ := hpending.feed
  exact ⟨done, todo', carry, htodo, hfeed, hcarry, hrest⟩

/-- The rest of the bytes may as well be in the queue. -/
theorem Owed.awaits (h : Owed P S todo undelivered p) :
    Awaits P S todo (p.arrive [undelivered]) := by
  refine ⟨p.handed, todo, ⟨[], rfl, ?_⟩, h.carry, ?_⟩
  · simp [Party.arrive, handed]
  · simpa [Party.arrive] using h.pending

end Party

namespace Blockfetch

variable {S : SerdeCbor}

/-! ### The caller -/

/-- Where the caller is: in a call, or between two calls with a stream or without. -/
inductive Place
  | outside
  | run
  | stream
  | next
  | done
  | closed
  | panicked
  deriving DecidableEq

/-- A call of `execute` is in progress. -/
def Place.Calling : Place → Prop
  | .run | .next | .done => True
  | .outside | .stream | .closed | .panicked => False

structure Client where
  party : Party BlockFetch Message
  place : Place

/-- The caller goes to `place`, and what it calls leaves `s` behind. -/
def Client.go (c : Client) (s : BlockFetch) (place : Place) : Client where
  party := { c.party with proto := s }
  place := place

inductive Action
  | turn
  | run
  /-- `run` returns its stream. -/
  | opened
  /-- A call of `next` that has to read. -/
  | next
  | yields (block : Option Bytes)
  | drop
  | done
  /-- `done` returns. -/
  | closed
  | panic

inductive Client.Does (S : SerdeCbor) (c : Client) : Action → Client → Prop
  | turn {p : Party BlockFetch Message} : c.place.Calling →
      Party.turn protocol S c.party = .next p → Does S c .turn { c with party := p }
  | panic {p : Party BlockFetch Message} {e : Error} : c.place.Calling →
      Party.turn protocol S c.party = .panic e p → Does S c .panic ⟨p, .panicked⟩
  | run : c.place = .outside → Does S c .run (c.go c.party.proto.start .run)
  | opened : c.place = .run → Party.turn protocol S c.party = .stop →
      Does S c .opened { c with place := .stream }
  | next : c.place = .stream → c.party.proto.result = [] → c.party.proto.state = .streaming →
      Does S c .next (c.go c.party.proto.start .next)
  -- `next` looks at the state only if there is no block
  | peek {block : Option Bytes} {s : BlockFetch} : c.place = .stream →
      c.party.proto.result ≠ [] ∨ c.party.proto.state = .idle →
      c.party.proto.pop = (.ok block, s) → Does S c (.yields block) (c.go s .stream)
  | unexpected : c.place = .stream → c.party.proto.result = [] →
      c.party.proto.state = .busy ∨ c.party.proto.state = .done →
      Does S c .panic { c with place := .panicked }
  | yields {block : Option Bytes} {s : BlockFetch} : c.place = .next →
      Party.turn protocol S c.party = .stop → c.party.proto.pop = (.ok block, s) →
      Does S c (.yields block) (c.go s .stream)
  | drop : c.place = .stream → Does S c .drop { c with place := .outside }
  -- `done` takes the client, so there is no stream
  | done : c.place = .outside → Does S c .done (c.go c.party.proto.finish .done)
  | closed : c.place = .done → Party.turn protocol S c.party = .stop →
      Does S c .closed { c with place := .closed }

/-! The steps of a call are those of the function. -/

variable {p p' : Party BlockFetch Message}

theorem call_ok_iff {setup : BlockFetch → BlockFetch} :
    p.call protocol S setup (fun s => (.ok (), s)) = (.ok (), p') ↔
      Party.Turns protocol S { p with proto := setup p.proto } p' ∧
        Party.turn protocol S p' = .stop := by
  rw [← Party.execute_ok_iff, Party.call_ok_iff]
  constructor
  · rintro ⟨q, s, hexecute, hfinish, rfl⟩
    cases hfinish
    exact hexecute
  · exact fun hexecute => ⟨p', p'.proto, hexecute, rfl, rfl⟩

theorem run_ok_iff : run S p = (.ok (), p') ↔
    Party.Turns protocol S { p with proto := p.proto.start } p' ∧
      Party.turn protocol S p' = .stop :=
  call_ok_iff

theorem done_ok_iff : done S p = (.ok (), p') ↔
    Party.Turns protocol S { p with proto := p.proto.finish } p' ∧
      Party.turn protocol S p' = .stop :=
  call_ok_iff

/-- A call of `next` that has to read. -/
theorem next_ok_iff (hresult : p.proto.result = []) (hstate : p.proto.state = .streaming)
    {block : Option Bytes} : next S p = (.ok block, p') ↔
      ∃ q s, Party.Turns protocol S { p with proto := p.proto.start } q ∧
        Party.turn protocol S q = .stop ∧ q.proto.pop = (.ok block, s) ∧
        p' = { q with proto := s } := by
  have hnext : next S p = p.call protocol S .start BlockFetch.pop := by
    simp only [next, hresult, hstate]
  rw [hnext, Party.call_ok_iff]
  simp only [Party.execute_ok_iff, and_assoc]

theorem pop_ok (s : BlockFetch) : ∃ block s', s.pop = (.ok block, s') := by
  obtain ⟨config, state, result, running, done⟩ := s
  cases result <;> exact ⟨_, _, rfl⟩

/-- A call of `next` that finds a block, or the client idle. -/
theorem next_of_pop {block : Option Bytes} {s : BlockFetch}
    (h : p.proto.result ≠ [] ∨ p.proto.state = .idle) (hpop : p.proto.pop = (.ok block, s)) :
    next S p = (.ok block, { p with proto := s }) := by
  cases hresult : p.proto.result with
  | nil =>
      have hidle := h.resolve_left (not_not_intro hresult)
      simp only [BlockFetch.pop, hresult] at hpop
      cases hpop
      simp only [next, hresult, hidle]
  | cons b result =>
      simp only [BlockFetch.pop, hresult] at hpop
      cases hpop
      simp only [next, hresult]

end Blockfetch

end Ouroboros
