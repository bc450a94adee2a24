import Ouroboros.Protocols.BlockfetchRuns
import Ouroboros.Protocols.Session

/-!
A block-fetch client and the stream that borrows it, await by await.

`next` looks at the state if the result queue is empty, and panics in `Busy` and `Done`.
The caller has a stream once `run` has returned, and `run` returns when the flag `running`
has been cleared. `send` enters `Busy` with the flag set, and the messages that clear it
leave `Busy` or are read behind one that does. A future that is dropped leaves flag and
state as they are, so the state is `Busy` only if it was a future of `run`, and then the
caller has no stream. `done` takes the client, and there is no stream after it.
-/

namespace Ouroboros.Blockfetch

open Relation

variable {S : SerdeCbor}

/-- The session of a client, and whether its caller has a stream. -/
structure Caller where
  session : Session BlockFetch Message
  stream : Bool

namespace Caller

/-- Without a stream there is `run`, and with one there is `next`. -/
inductive Calls : Bool → BlockFetch → (BlockFetch → BlockFetch) → (BlockFetch → BlockFetch) → Prop
  | run {s : BlockFetch} : Calls false s .start id
  | next {s : BlockFetch} : s.result = [] → s.state = .streaming →
      Calls true s .start fun s => s.pop.2

def api (stream : Bool) : Api BlockFetch where
  calls := Calls stream
  -- `next` with a block at hand
  asides s t := stream = true ∧ Blockfetch.api.asides s t

def start (p : Party BlockFetch Message) (before : Bytes) : Caller := ⟨.start p before, false⟩

def value (c : Caller) : BlockFetch := c.session.party.proto

/-- `run` returns a stream, and `next` leaves the caller its own. -/
def holds (stream : Bool) : Session.Action → Bool
  | .leave => true
  | _ => stream

inductive Action
  | session (a : Session.Action)
  /-- `next` returns `None` at once. -/
  | exhausted
  | drop
  /-- `next` panics. -/
  | unexpected

inductive Does (S : SerdeCbor) (c : Caller) : Action → Caller → Prop
  | session {a : Session.Action} {s : Session BlockFetch Message} :
      Session.Does protocol S (api c.stream) c.session a s →
      Does S c (.session a) ⟨s, holds c.stream a⟩
  | exhausted : c.stream = true → c.session.position = .outside → c.value.result = [] →
      c.value.state = .idle → Does S c .exhausted c
  | drop : c.stream = true → c.session.position = .outside →
      Does S c .drop { c with stream := false }
  | unexpected : c.stream = true → c.session.position = .outside → c.value.result = [] →
      c.value.state = .busy ∨ c.value.state = .done →
      Does S c .unexpected { c with session := { c.session with position := .panicked } }

/-- The runs of a caller. -/
abbrev Run (S : SerdeCbor) : Caller → Caller → Prop :=
  ReflTransGen fun c c' => ∃ a, Does S c a c'

end Caller

/-! ### Calls of the functions

A call of `run` or `next` that returns is a run of the caller, and so is one that waits
and is dropped. -/

namespace Caller

variable {c c' : Caller} {s s' : Session BlockFetch Message} {stream : Bool}
  {p : Party BlockFetch Message}

theorem holds_of_ne {stream : Bool} {a : Session.Action} (h : a ≠ .leave) :
    holds stream a = stream := by
  cases a with
  | leave => exact absurd rfl h
  | _ => rfl

theorem run_inside (h : Session.Run protocol S (api stream) (fun _ a => a.Inside) s s') :
    Run S ⟨s, stream⟩ ⟨s', stream⟩ := by
  induction h with
  | refl => exact .refl
  | tail _ hstep ih =>
      obtain ⟨a, hinside, hdoes⟩ := hstep
      have hleave : a ≠ .leave := fun h => by
        rw [h] at hinside
        exact hinside
      have hnext : Does S ⟨_, stream⟩ (.session a) ⟨_, holds stream a⟩ := .session hdoes
      rw [holds_of_ne hleave] at hnext
      exact ih.tail ⟨_, hnext⟩

/-- The call has begun. -/
theorem run_enter {setup finish : BlockFetch → BlockFetch} (hposition : s.position = .outside)
    (hcalls : Calls stream s.party.proto setup finish) :
    ∃ s', Run S ⟨s, stream⟩ ⟨s', stream⟩ ∧ s'.position = .loop ∧ s'.finish = finish ∧
      s'.party = { s.party with proto := setup s.party.proto } := by
  have henter : Does S ⟨s, stream⟩ (.session .enter) ⟨_, stream⟩ :=
    .session (.enter hposition hcalls)
  exact ⟨_, .single ⟨_, henter⟩, rfl, rfl, rfl⟩

variable {α : Type} {setup : BlockFetch → BlockFetch}
  {finish : BlockFetch → Outcome α × BlockFetch}

theorem run_returned {a : α} (hposition : s.position = .outside)
    (hcalls : Calls stream s.party.proto setup fun t => (finish t).2)
    (h : s.party.call protocol S setup finish = (.ok a, p)) :
    ∃ s', Run S ⟨s, stream⟩ ⟨s', true⟩ ∧ s'.position = .outside ∧ s'.party = p := by
  obtain ⟨q, t, hq, ht, rfl⟩ := Party.call_ok_iff.mp h
  obtain ⟨s₁, henter, hloop, hfinish, hparty⟩ := run_enter (S := S) hposition hcalls
  have hexecute := @Session.run_execute _ _ protocol S (api stream) _ s₁ (fun _ _ h => h) hloop
  rw [hparty, hq] at hexecute
  obtain ⟨s₂, hrun, hloop', hfinish', rfl, hnone⟩ := hexecute
  have hleave : Does S ⟨s₂, stream⟩ (.session .leave) ⟨_, true⟩ := .session (.leave hloop' hnone)
  refine ⟨_, (henter.trans (run_inside hrun)).tail ⟨_, hleave⟩, rfl, ?_⟩
  simp only [hfinish', hfinish, ht]

theorem run_dropped {bytes : Bytes} (hposition : s.position = .outside)
    (hcalls : Calls stream s.party.proto setup fun t => (finish t).2)
    (h : s.party.call protocol S setup finish = (.pending bytes, p)) :
    ∃ s', Run S ⟨s, stream⟩ ⟨s', stream⟩ ∧ s'.position = .outside ∧ s'.party = p := by
  obtain ⟨s₁, henter, hloop, -, hparty⟩ := run_enter (S := S) hposition hcalls
  have hexecute := @Session.run_execute _ _ protocol S (api stream) _ s₁ (fun _ _ h => h) hloop
  rw [hparty, Party.call_pending h] at hexecute
  obtain ⟨s₂, hrun, hreceiving, rfl⟩ := hexecute
  have hdrop : Does S ⟨s₂, stream⟩ (.session .interrupt) ⟨_, stream⟩ :=
    .session (.interrupt hreceiving)
  exact ⟨_, (henter.trans (run_inside hrun)).tail ⟨_, hdrop⟩, rfl, rfl⟩

theorem run_of_run (hposition : s.position = .outside) (h : run S s.party = (.ok (), p)) :
    ∃ s', Run S ⟨s, false⟩ ⟨s', true⟩ ∧ s'.position = .outside ∧ s'.party = p :=
  run_returned hposition .run h

theorem run_of_pending {bytes : Bytes} (hposition : s.position = .outside)
    (h : run S s.party = (.pending bytes, p)) :
    ∃ s', Run S ⟨s, false⟩ ⟨s', false⟩ ∧ s'.position = .outside ∧ s'.party = p :=
  run_dropped hposition .run h

/-- A call of `next` has a block at hand, finds the client idle, or reads. -/
theorem run_of_next {block : Option Bytes} (hposition : s.position = .outside)
    (h : next S s.party = (.ok block, p)) :
    ∃ s', Run S ⟨s, true⟩ ⟨s', true⟩ ∧ s'.position = .outside ∧ s'.party = p := by
  cases hresult : s.party.proto.result with
  | cons b result =>
      have hpop : Blockfetch.api.asides s.party.proto { s.party.proto with result } :=
        ⟨by simp [hresult], by simp only [BlockFetch.pop, hresult]⟩
      have hpeek : Does S ⟨s, true⟩ (.session .aside) ⟨_, true⟩ :=
        .session (.aside hposition ⟨rfl, hpop⟩)
      simp only [next, hresult] at h
      cases h
      exact ⟨_, .single ⟨_, hpeek⟩, hposition, rfl⟩
  | nil =>
      cases hstate : s.party.proto.state with
      | idle =>
          simp only [next, hresult, hstate] at h
          cases h
          exact ⟨s, .refl, hposition, rfl⟩
      | streaming =>
          simp only [next, hresult, hstate] at h
          exact run_returned hposition (.next hresult hstate) h
      | _ =>
          simp only [next, hresult, hstate] at h
          cases h

/-- The step that is never taken is the panic of `next`. -/
theorem Does.next_panics (h : c.Does S .unexpected c') :
    next S c.session.party = (.panic (.text "Unexpected state."), c.session.party) := by
  cases h with
  | unexpected _ _ hresult hstate =>
      have hresult' : c.session.party.proto.result = [] := hresult
      rcases hstate with hstate | hstate
      · have hstate' : c.session.party.proto.state = .busy := hstate
        simp only [next, hresult', hstate']
      · have hstate' : c.session.party.proto.state = .done := hstate
        simp only [next, hresult', hstate']

end Caller

/-! ### The invariant -/

/-- The client has not been told to end, and it is not `Busy` without running. Behind a
stream it streams, or it is idle and does not run. -/
structure Tidy (stream : Bool) (s : BlockFetch) : Prop where
  undone : s.done = false ∧ s.state ≠ .done
  left : s.running = false → s.state ≠ .busy
  stream : stream = true → s.state = .streaming ∨ s.state = .idle ∧ s.running = false

namespace Tidy

variable {stream : Bool} {s t : BlockFetch}

theorem recv (h : Tidy stream s) (m : Message) : Tidy stream (s.recv m).2 := by
  obtain ⟨hdone, hmoved⟩ := recv_later s m
  rcases hmoved with hsame | hsettled
  · rwa [hsame]
  · refine ⟨⟨hdone.trans h.undone.1, ?_⟩, fun _ => ?_, fun _ => hsettled⟩
    · rcases hsettled with hstate | ⟨hstate, -⟩ <;> simp [hstate]
    · rcases hsettled with hstate | ⟨hstate, -⟩ <;> simp [hstate]

/-- The client sends only when it is idle and runs, so there is no stream. -/
theorem send (h : Tidy stream s) (hrole : s.agency = s.role) {r : Outcome Message}
    (hsend : s.send = (r, t)) : Tidy stream t := by
  obtain ⟨hrunning, hidle⟩ := BlockFetch.idle_of_turn hrole
  obtain ⟨config, state, result, running, done⟩ := s
  obtain ⟨⟨hdone, -⟩, -, hstream⟩ := h
  obtain rfl : state = .idle := hidle
  obtain rfl : running = true := hrunning
  obtain rfl : done = false := hdone
  cases hsend
  refine ⟨⟨rfl, by simp⟩, by simp, fun hs => ?_⟩
  rcases hstream hs with h | ⟨-, h⟩
  · cases h
  · cases h

theorem start (h : Tidy stream s) (hs : stream = true → s.state = .streaming) :
    Tidy stream s.start where
  undone := h.undone
  left hrunning := by cases hrunning
  stream hstream := .inl (hs hstream)

theorem pop (h : Tidy stream s) : Tidy stream s.pop.2 := by
  obtain ⟨config, state, result, running, done⟩ := s
  cases result with
  | nil => exact h
  | cons block result => exact ⟨h.undone, h.left, h.stream⟩

/-- A call that returns leaves the client fit for a stream. -/
theorem returned (h : Tidy stream s) (hnone : s.agency = .none) : Tidy true s := by
  refine ⟨h.undone, h.left, fun _ => ?_⟩
  obtain ⟨config, state, result, running, done⟩ := s
  obtain ⟨⟨-, hdone⟩, hleft, -⟩ := h
  cases running with
  | false =>
      cases state with
      | idle => exact .inr ⟨rfl, rfl⟩
      | busy => exact absurd rfl (hleft rfl)
      | streaming => exact .inl rfl
      | done => exact absurd rfl hdone
  | true =>
      cases state with
      | done => exact absurd rfl hdone
      | _ => cases hnone

theorem dropped (h : Tidy stream s) : Tidy false s := ⟨h.undone, h.left, fun h => by cases h⟩

end Tidy

namespace Caller

variable {c c' : Caller} {a : Action}

/-- The invariant of a caller. What is left to do after `execute` disturbs nothing. -/
structure Sound (c : Caller) : Prop where
  value : Tidy c.stream c.value
  finish : ∀ stream t, Tidy stream t → Tidy stream (c.session.finish t)

theorem Sound.effect (h : c.Sound) {a : Session.Action} {proto : BlockFetch}
    {finish : BlockFetch → BlockFetch}
    (heffect : Session.Effect protocol (api c.stream) c.session a proto finish) :
    Tidy (holds c.stream a) proto ∧ ∀ stream t, Tidy stream t → Tidy stream (finish t) := by
  cases heffect with
  | quiet hleave =>
      rw [holds_of_ne hleave]
      exact ⟨h.value, h.finish⟩
  | enter hcalls =>
      obtain ⟨session, stream⟩ := c
      cases hcalls with
      | run => exact ⟨h.value.start (by simp), fun _ _ ht => ht⟩
      | next _ hstate => exact ⟨h.value.start fun _ => hstate, fun _ _ ht => ht.pop⟩
  | aside hasides =>
      obtain ⟨-, -, rfl⟩ := hasides
      exact ⟨h.value.pop, h.finish⟩
  | leave hnone => exact ⟨h.finish true _ (h.value.returned hnone), h.finish⟩
  | deliver ms hleave =>
      rw [holds_of_ne hleave]
      exact ⟨Protocol.deliver_keeps (fun _ m ht => ht.recv m) ms h.value, h.finish⟩
  | send hleave _ hrole hsend =>
      rw [holds_of_ne hleave]
      exact ⟨h.value.send hrole hsend, h.finish⟩

/-- **The step lemma.** -/
theorem Sound.does (h : c.Sound) (hdoes : c.Does S a c') : c'.Sound := by
  cases hdoes with
  | session hdoes =>
      obtain ⟨hvalue, hfinish⟩ := h.effect hdoes.effect
      exact ⟨hvalue, hfinish⟩
  | exhausted _ _ _ _ => exact h
  | drop _ _ => exact ⟨h.value.dropped, h.finish⟩
  | unexpected _ _ _ _ => exact ⟨h.value, h.finish⟩

/-- **The run lemma.** -/
theorem Run.sound {b : Builder} {p : Party BlockFetch Message} (hp : b.client = .ok p)
    {before : Bytes} (hrun : Run S (start p before) c) : c.Sound := by
  have hstart : (start p before).Sound := by
    refine ⟨?_, fun _ _ ht => ht⟩
    obtain ⟨_ | first, _ | last⟩ := b
    all_goals cases hp
    exact ⟨⟨rfl, by simp [value, start, Session.start]⟩,
      by simp [value, start, Session.start], by simp [start]⟩
  refine Transition.invariant (fun c c' hc hstep => ?_) hrun hstart
  obtain ⟨a, hdoes⟩ := hstep
  exact hc.does hdoes

theorem Sound.state (h : c.Sound) (hstream : c.stream = true) :
    c.value.state = .idle ∨ c.value.state = .streaming := by
  rcases h.value.stream hstream with hstate | ⟨hstate, -⟩
  · exact .inr hstate
  · exact .inl hstate

theorem Sound.not_unexpected (h : c.Sound) : ¬ c.Does S .unexpected c' := by
  intro hdoes
  cases hdoes with
  | unexpected hstream _ _ hstate =>
      rcases h.state hstream with hidle | hstreaming
      · simp [hidle] at hstate
      · simp [hstreaming] at hstate

theorem Calls.api {stream : Bool} {s : BlockFetch} {setup finish : BlockFetch → BlockFetch}
    (h : Calls stream s setup finish) : Blockfetch.api.calls s setup finish := by
  cases h with
  | run => exact .run
  | next hresult hstate => exact .next hresult hstate

/-- A run of the caller is a run of the session. -/
theorem Run.session {b : Builder} {p : Party BlockFetch Message} (hp : b.client = .ok p)
    {before : Bytes} (hrun : Run S (start p before) c) :
    Session.Run protocol S Blockfetch.api (fun _ _ => True) (.start p before) c.session := by
  induction hrun with
  | refl => exact .refl
  | tail hrun hstep ih =>
      obtain ⟨a, hdoes⟩ := hstep
      have hsound := Run.sound hp hrun
      cases hdoes with
      | session hdoes =>
          refine ih.tail ⟨_, trivial, Session.Does.mono ?_ ?_ hdoes⟩
          · exact fun _ _ _ hcalls => Calls.api hcalls
          · exact fun _ _ hasides => hasides.2
      | exhausted _ _ _ _ => exact ih
      | drop _ _ => exact ih
      | unexpected hstream hposition hresult hstate =>
          exact absurd (.unexpected hstream hposition hresult hstate)
            (hsound.not_unexpected (S := S))

end Caller

/-- **A stream never meets an unexpected state.** In every run of calls of `run` and `next`,
of streams dropped and of futures dropped, whatever the peer sends: a client that is not
running is not `Busy`, one with a stream is idle or streaming, and `next` does not panic. -/
theorem never_unexpected {b : Builder} {p : Party BlockFetch Message} (hp : b.client = .ok p)
    {before : Bytes} {c : Caller} (hrun : Caller.Run S (.start p before) c) :
    (c.value.running = false → c.value.state ≠ .busy) ∧
      (c.stream = true → c.value.state = .idle ∨ c.value.state = .streaming) ∧
      ∀ c', ¬ c.Does S .unexpected c' := by
  have h := Caller.Run.sound hp hrun
  exact ⟨h.value.left, h.state, fun c' => h.not_unexpected⟩

/-- The client when its request has been sent. -/
def requested : Party BlockFetch Message :=
  { twoPoints with proto := twoPoints.proto.start }.afterSend
    { twoPoints.proto.start with state := .busy } (.requestRange ⟨42, [1]⟩ ⟨44, [2]⟩)
    [0x83, 0, 0x82, 0x18, 42, 0x41, 1, 0x82, 0x18, 44, 0x41, 2]

theorem run_requested : run Cbor.serdeCbor twoPoints = (.pending [], requested) := by
  have hsend : Party.turn protocol Cbor.serdeCbor
      { twoPoints with proto := twoPoints.proto.start } = .next requested :=
    Party.turn_send_ok (by decide) (by decide) rfl rfl
  have hwait : Party.turn protocol Cbor.serdeCbor requested = .wait :=
    Party.turn_wait_iff.mpr ⟨by decide, by decide, rfl⟩
  rw [run, Party.call, Party.execute_next hsend, Party.execute_wait hwait]
  rfl

/-- A call of `run` is dropped while the client is `Busy`. The next one reads the first
block, the stream returns it, and no block is left. -/
theorem never_unexpected_dropped : ∃ c, Caller.Run Cbor.serdeCbor (.start twoPoints []) c ∧
    c.stream = true ∧ c.value.result = [] ∧
      (c.value.state = .idle ∨ c.value.state = .streaming) := by
  have hes : ∀ e ∈ twoBlocks.wire.take 2, protocol.Encoded Cbor.serdeCbor e.1 e.2 :=
    fun e he => twoBlocks_conforms.encoded e (List.mem_of_mem_take he)
  obtain ⟨s, hdropped, hposition, hparty⟩ := Caller.run_of_pending
    (s := .start twoPoints []) rfl run_requested
  have harrive : Caller.Does Cbor.serdeCbor ⟨s, false⟩ (.session (.arrive _)) _ :=
    .session (.arrive [0x81, 2, 0x82, 4, 0x41, 7])
  have hread : Party.turn protocol Cbor.serdeCbor
      (requested.arrive [[0x81, 2, 0x82, 4, 0x41, 7]]) = .next _ :=
    Party.turn_recv_whole hes (by decide) (by decide) rfl rfl rfl
  have hrun : run Cbor.serdeCbor (requested.arrive [[0x81, 2, 0x82, 4, 0x41, 7]]) = (.ok (), _) :=
    run_ok_iff.mpr ⟨.single hread, Party.turn_stop_iff.mpr rfl⟩
  rw [← hparty] at hrun
  obtain ⟨s', hopened, hposition', hparty'⟩ := Caller.run_of_run
    (s := { s with party := s.party.arrive [[0x81, 2, 0x82, 4, 0x41, 7]] }) hposition hrun
  have hproto : s'.party.proto = { twoPoints.proto with state := .streaming, result := [[7]] } := by
    rw [hparty', hparty]
    rfl
  have hpop : s'.party.proto.pop =
      (.ok (some [7]), { twoPoints.proto with state := .streaming }) := by
    rw [hproto]
    rfl
  obtain ⟨s'', hnext, -, hparty''⟩ := Caller.run_of_next hposition'
    (next_of_pop (S := Cbor.serdeCbor) (.inl (by simp [hproto])) hpop)
  have hall := ((hdropped.tail ⟨_, harrive⟩).trans hopened).trans hnext
  refine ⟨_, hall, rfl, ?_, (never_unexpected client_twoPoints hall).2.1 rfl⟩
  rw [Caller.value, hparty'']
  rfl

end Ouroboros.Blockfetch
