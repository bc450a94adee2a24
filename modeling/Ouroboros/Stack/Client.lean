import Ouroboros.Library.Simulation
import Ouroboros.Mux.Closing
import Ouroboros.Stack.Endpoint

/-!
A program that uses a protocol value, on a channel of a connection, and a peer of which
only the frames are known that it writes.

The frames may be for any channel, and may arrive in pieces and at any time. The demux
task, the turns of the party and the calls of the program interleave in any order.
`simulation` says that none of this makes a difference: what comes out is what the program
does if all payloads for its channel are in the queue when it begins.
-/

namespace Ouroboros

open Relation Mux Mux.Connection

variable {κ σ μ : Type}

/-- What a program does when its call has returned. It takes the result, and it may begin
the next call. -/
abbrev Program (κ σ : Type) := κ → σ → Option (κ × σ)

/-- A program that makes one call. -/
def Program.once : Program Unit σ := fun _ _ => none

/-- The next thing that a program does: a turn of the party in the call, or a call. -/
def Program.advance (prog : Program κ σ) (P : Protocol σ μ) (S : SerdeCbor)
    (x : κ × Party σ μ) : Option (κ × Party σ μ) :=
  match Party.turn P S x.2 with
  | .next p => some (x.1, p)
  | .stop => (prog x.1 x.2.proto).map fun y => (y.1, { x.2 with proto := y.2 })
  | .wait | .panic _ _ => none

/-- The runs of a program by itself. -/
abbrev Program.Run (prog : Program κ σ) (P : Protocol σ μ) (S : SerdeCbor) :
    κ × Party σ μ → κ × Party σ μ → Prop :=
  ReflTransGen fun x y => prog.advance P S x = some y

namespace Program

variable {prog : Program κ σ} {P : Protocol σ μ} {S : SerdeCbor} {k k' : κ} {p p' : Party σ μ}

theorem advance_next (h : Party.turn P S p = .next p') :
    prog.advance P S (k, p) = some (k, p') := by
  simp only [advance, h]

theorem advance_call {s : σ} (h : Party.turn P S p = .stop)
    (hprog : prog k p.proto = some (k', s)) :
    prog.advance P S (k, p) = some (k', { p with proto := s }) := by
  simp only [advance, h, hprog]
  rfl

theorem advance_stop (h : Party.turn P S p = .stop) (hprog : prog k p.proto = none) :
    prog.advance P S (k, p) = none := by
  simp only [advance, h, hprog]
  rfl

theorem advance_wait (h : Party.turn P S p = .wait) : prog.advance P S (k, p) = none := by
  simp only [advance, h]

/-- A turn or a call. -/
theorem advance_cases {y : κ × Party σ μ} (h : prog.advance P S (k, p) = some y) :
    (∃ p', Party.turn P S p = .next p' ∧ y = (k, p')) ∨
      ∃ k' s, Party.turn P S p = .stop ∧ prog k p.proto = some (k', s) ∧
        y = (k', { p with proto := s }) := by
  simp only [advance] at h
  split at h
  · rename_i p' hturn
    exact .inl ⟨p', hturn, (Option.some.inj h).symm⟩
  · rename_i hturn
    obtain ⟨⟨k', s⟩, hprog, hy⟩ := Option.map_eq_some_iff.mp h
    exact .inr ⟨k', s, hturn, hprog, hy.symm⟩
  all_goals cases h

theorem turn_stop_arrive (h : Party.turn P S p = .stop) (payloads : List Bytes) :
    Party.turn P S (p.arrive payloads) = .stop := by
  rw [Party.turn_stop_iff] at h ⊢
  exact h

/-- What a program does it does as well if more payloads are in the queue. -/
theorem advance_arrive (h : prog.advance P S (k, p) = some (k', p')) (payloads : List Bytes) :
    prog.advance P S (k, p.arrive payloads) = some (k', p'.arrive payloads) := by
  rcases advance_cases h with ⟨q, hturn, heq⟩ | ⟨k'', s, hturn, hprog, heq⟩
  · cases heq
    exact advance_next (Party.turn_arrive hturn payloads)
  · cases heq
    exact advance_call (turn_stop_arrive hturn payloads) hprog

theorem run_arrive (h : prog.Run P S (k, p) (k', p')) (payloads : List Bytes) :
    prog.Run P S (k, p.arrive payloads) (k', p'.arrive payloads) := by
  generalize hy : (k', p') = y at h
  induction h generalizing k' p' with
  | refl =>
      cases hy
      exact .refl
  | @tail x y _ hstep ih =>
      cases hy
      exact (ih rfl).tail (advance_arrive hstep payloads)

/-- A call of `execute` that returns. -/
theorem run_execute (h : Party.execute P S p = (.ok (), p')) :
    prog.Run P S (k, p) (k, p') ∧ Party.turn P S p' = .stop := by
  induction p using Party.execute.induct P S with
  | case1 p hturn =>
      rw [Party.execute_stop hturn] at h
      cases h
      exact ⟨.refl, hturn⟩
  | case2 p hturn =>
      rw [Party.execute_wait hturn] at h
      cases h
  | case3 p q hturn ih =>
      rw [Party.execute_next hturn] at h
      obtain ⟨hrun, hstop⟩ := ih h
      exact ⟨.head (advance_next hturn) hrun, hstop⟩
  | case4 p e q hturn =>
      rw [Party.execute_panic hturn] at h
      cases h

end Program

namespace Mux

/-- What a peer's frames have for a channel. -/
def payloadsFor (idx : UInt16) (cs : List Call) : List Payload := cs.flatMap (Call.payloadFor idx)

structure Client (κ σ μ : Type) where
  caller : κ
  endpoint : Endpoint σ μ

namespace Client

/-- `stream` is all that the peer writes, now or later. -/
inductive Step (P : Protocol σ μ) (S : SerdeCbor) (T : Transport) (prog : Program κ σ)
    (stream : Bytes) : Client κ σ μ → Client κ σ μ → Prop
  | arrive {c : Client κ σ μ} {chunk : Bytes} {connection : Connection} : chunk ≠ [] →
      c.endpoint.connection.arrived ++ chunk <+: stream →
      Does c.endpoint.connection (.arrive chunk) connection →
      Step P S T prog stream c { c with endpoint := { c.endpoint with connection } }
  | endpoint {c : Client κ σ μ} {e : Endpoint σ μ} : Endpoint.Step P S T c.endpoint e →
      Step P S T prog stream c { c with endpoint := e }
  | call {c : Client κ σ μ} {k : κ} {s : σ} : Party.turn P S c.endpoint.party = .stop →
      prog c.caller c.endpoint.proto = some (k, s) →
      Step P S T prog stream c ⟨k, { c.endpoint with proto := s }⟩

/-- The peer writes `cs` after `base`. The program by itself has the same party, but the
payloads still to come are in its queue. -/
structure Follows (base : Bytes) (cs : List Call) (task : ℕ) (c : Client κ σ μ)
    (x : κ × Party σ μ) : Prop where
  caller : x.1 = c.caller
  live : c.endpoint.Live task
  party : ∃ done rest, cs = done ++ rest ∧
    Carries base done rest (base ++ cs.flatMap Call.wire) c.endpoint.connection ∧
    x.2 = c.endpoint.party.arrive (payloadsFor c.endpoint.idx rest)

variable {P : Protocol σ μ} {S : SerdeCbor} {T : Transport} {prog : Program κ σ}
  {base stream : Bytes} {cs : List Call} {task : ℕ} {c c' start : Client κ σ μ}
  {x y final : κ × Party σ μ}

theorem follows_make {s : Connection} (hs : Settled s) {p : Party σ μ} {idx : UInt16}
    (hp : p.channel = .open idx) (k : κ) (written : Bytes)
    (hcs : ∀ c ∈ cs, c.payload.length ≤ 65535) :
    Follows s.history.consumed cs s.tasks.length ⟨k, .make p s written⟩
      (k, p.arrive (payloadsFor idx cs)) := by
  have hcarries := Carries.opened hs p.channel.idx
  refine ⟨rfl, Endpoint.live_make hs p written, [], cs, rfl, ⟨?_, hcarries.consumed, ?_, ?_⟩, ?_⟩
  · simp
  · exact hcarries.arrived.trans (List.prefix_append _ _)
  · simpa using hcs
  · rw [Endpoint.party_make hs (by rw [hp]; rfl)]
    simp [Endpoint.make, hp, Channel.open]

/-- The party takes a turn, or its task does something. -/
theorem Follows.endpoint_step (hT : T.Greedy) (h : Follows base cs task c x)
    {e : Endpoint σ μ} (hstep : Endpoint.Step P S T c.endpoint e) :
    (∃ y, prog.advance P S x = some y ∧ Follows base cs task { c with endpoint := e } y) ∨
      Follows base cs task { c with endpoint := e } x ∧
        e.connection.lag (base ++ cs.flatMap Call.wire) <
          c.endpoint.connection.lag (base ++ cs.flatMap Call.wire) := by
  obtain ⟨k, q⟩ := x
  obtain ⟨hcaller, hlive, done, rest, hcs, hcarries, hq⟩ := h
  obtain rfl : k = c.caller := hcaller
  obtain rfl : q = _ := hq
  have hmoved := hstep.moved hT hlive
  have hlive' := hmoved.live hlive
  cases hmoved with
  | send _ hturn _ hparty _ =>
      have hadvance := @Program.advance_next _ _ _ prog _ _ c.caller _ _ hturn
      refine .inl ⟨_, Program.advance_arrive hadvance _, rfl, hlive', done, rest, hcs, hcarries, ?_⟩
      rw [hparty]
      rfl
  | @recv p payload connection hturn _ hparty hdoes =>
      have hadvance := @Program.advance_next _ _ _ prog _ _ c.caller _ _ hturn
      refine .inl ⟨_, Program.advance_arrive hadvance _, rfl, hlive', done, rest, hcs, ?_, ?_⟩
      · generalize c.endpoint.queue = n at hdoes
        cases hdoes with
        | recv _ _ _ => exact ⟨hcarries.stream, hcarries.consumed, hcarries.arrived, hcarries.fits⟩
      · rw [hparty]
        rfl
  | @demux a connection _ _ hdemuxed =>
      rcases hcarries.demuxed hlive hdemuxed with
        ⟨hcarries', hpayloads, hlag⟩ | ⟨d, rest', rfl, hcarries', hpayloads, hlag⟩
      · refine .inr ⟨⟨rfl, hlive', done, rest, hcs, hcarries', ?_⟩, hlag⟩
        simp only [Endpoint.party, hpayloads]
      · refine .inr ⟨⟨rfl, hlive', done ++ [d], rest', by simpa using hcs, hcarries', ?_⟩, hlag⟩
        simp only [Endpoint.party, hpayloads, Party.arrive, payloadsFor, List.flatMap_cons,
          List.append_assoc]

/-- As long as a frame has not been dispatched there is something to do. -/
theorem exists_step (hlive : c.endpoint.Live task) {done rest : List Call} {d : Call}
    (h : Carries base done (d :: rest) stream c.endpoint.connection) :
    ∃ c', Step P S T prog stream c c' := by
  rcases h.progress hlive with ⟨chunk, hchunk, harrived⟩ | ⟨a, connection, ha, hdoes⟩
  · have hdoes : Does c.endpoint.connection (.arrive chunk) _ :=
      .arrive chunk (Attached.sound hlive)
    exact ⟨_, .arrive hchunk harrived hdoes⟩
  · exact ⟨_, .endpoint (.demux ha hdoes)⟩

theorem arrive_nil (e : Endpoint σ μ) : e.party.arrive (payloadsFor e.idx []) = e.party := by
  simp [Party.arrive, payloadsFor]

/-- **The simulation.** -/
theorem simulation (hT : T.Greedy) (base : Bytes) (cs : List Call) (task : ℕ) :
    Transition.Simulation (Step P S T prog (base ++ cs.flatMap Call.wire))
      (fun x y => prog.advance P S x = some y) (fun _ => True) (Follows base cs task)
      (fun c => c.endpoint.connection.lag (base ++ cs.flatMap Call.wire)) where
  forward {c c' x} h hstep := by
    cases hstep with
    | @arrive chunk connection hne hchunk hdoes =>
        obtain ⟨hcaller, hlive, done, rest, hcs, hcarries, hx⟩ := h
        have hlive' := Attached.arrive hlive hdoes
        have hcarries' := hcarries.arrive hchunk hdoes
        refine .inr ⟨⟨hcaller, hlive', done, rest, hcs, hcarries', ?_⟩, ?_⟩
        · cases hdoes with
          | arrive _ _ => exact hx
        · exact lag_arrive hne hchunk hdoes
    | endpoint hstep =>
        rcases h.endpoint_step hT hstep with ⟨y, hy, hfollows⟩ | hstutter
        · exact .inl ⟨y, hy, fun _ => hfollows⟩
        · exact .inr hstutter
    | @call k s hturn hprog =>
        obtain ⟨k', q⟩ := x
        obtain ⟨rfl, hlive, done, rest, hcs, hcarries, rfl⟩ := h
        have hadvance := Program.advance_call hturn hprog
        refine .inl ⟨_, Program.advance_arrive hadvance _, fun _ => ⟨rfl, hlive, done, rest,
          hcs, hcarries, rfl⟩⟩
  progress {c x y} h hadvance := by
    obtain ⟨k, q⟩ := x
    obtain ⟨rfl, hlive, done, rest, -, hcarries, rfl⟩ := h
    cases rest with
    | nil =>
        rw [arrive_nil] at hadvance
        rcases Program.advance_cases hadvance with ⟨p, hturn, -⟩ | ⟨k, s, hturn, hprog, -⟩
        · obtain ⟨e, he⟩ := Endpoint.exists_step hT hlive hturn
          exact ⟨_, .endpoint he⟩
        · exact ⟨_, .call hturn hprog⟩
    | cons d rest => exact exists_step hlive hcarries

/-- What the runs of a client have to do with those of the program by itself. The peer
writes `cs` after `base`, and of these frames `rest` have not been dispatched yet. -/
structure Sequential (P : Protocol σ μ) (S : SerdeCbor) (T : Transport) (prog : Program κ σ)
    (base : Bytes) (cs : List Call) (start : Client κ σ μ) (whole : κ × Party σ μ) : Prop where
  along : ∀ c, ReflTransGen (Step P S T prog (base ++ cs.flatMap Call.wire)) start c →
    ∃ rest, rest <:+ cs ∧
      prog.Run P S whole
        (c.caller, c.endpoint.party.arrive (payloadsFor c.endpoint.idx rest)) ∧
      (rest = [] → Closes c.endpoint.connection ∧
        c.endpoint.connection.history.consumed = base ++ cs.flatMap Call.wire)
  result : ∀ c, ReflTransGen (Step P S T prog (base ++ cs.flatMap Call.wire)) start c →
    (∀ c', ¬ Step P S T prog (base ++ cs.flatMap Call.wire) c c') →
    prog.Run P S whole (c.caller, c.endpoint.party) ∧
      prog.advance P S (c.caller, c.endpoint.party) = none ∧ Closes c.endpoint.connection ∧
      c.endpoint.connection.history.consumed = base ++ cs.flatMap Call.wire
  ends : (¬ ∃ run : ℕ → κ × Party σ μ, run 0 = whole ∧
      ∀ i, prog.advance P S (run i) = some (run (i + 1))) →
    ¬ ∃ run : ℕ → Client κ σ μ, run 0 = start ∧
      ∀ i, Step P S T prog (base ++ cs.flatMap Call.wire) (run i) (run (i + 1))

/-- When all frames have been dispatched, the channel may be dropped. -/
theorem closes (hlive : c.endpoint.Live task) {done : List Call}
    (h : Carries base done [] stream c.endpoint.connection) :
    Closes c.endpoint.connection ∧ c.endpoint.connection.history.consumed = stream :=
  ⟨(hlive.draining h.drained.idle).closes, h.drained.consumed⟩

theorem Follows.comes (hT : T.Greedy) (h : Follows base cs task c x) :
    Sequential P S T prog base cs c x := by
  have hsimulation := @simulation _ _ _ P S _ prog hT base cs task
  refine ⟨fun c' hrun => ?_, fun c' hrun hstuck => ?_,
    hsimulation.terminates (fun _ _ => trivial) h⟩
  · obtain ⟨⟨k, q⟩, hy, rfl, hlive, done, rest, rfl, hcarries, rfl⟩ :=
      hsimulation.run (fun _ _ => trivial) h hrun
    refine ⟨rest, List.suffix_append _ _, hy, ?_⟩
    rintro rfl
    exact closes hlive hcarries
  · obtain ⟨⟨k, q⟩, hy, hfollows⟩ := hsimulation.run (fun _ _ => trivial) h hrun
    have hend := hsimulation.stuck hfollows hstuck
    obtain ⟨rfl, hlive, done, rest, -, hcarries, rfl⟩ := hfollows
    cases rest with
    | nil =>
        rw [arrive_nil] at hy hend
        exact ⟨hy, Option.eq_none_iff_forall_ne_some.mpr fun y => hend y, closes hlive hcarries⟩
    | cons d rest =>
        obtain ⟨c'', hstep⟩ := exists_step hlive hcarries
        exact absurd hstep (hstuck c'')

/-- **A client comes to what it would by itself.** A program opens its channel on a settled
connection, over a socket that takes every byte it is offered. The peer writes the frames
`cs`, for any channels; they arrive in pieces of any size, and the demux task, the turns
of the party and the calls of the program interleave in any order. Then in every state the
program is on its way to where it would be with all payloads for its channel in the queue
at the beginning. When nothing can move any more it is there, and its channel may be
dropped. The client goes on for ever only if the program does. -/
theorem sequential (hT : T.Greedy) {s : Connection} (hs : Settled s) {p : Party σ μ}
    {idx : UInt16} (hp : p.channel = .open idx) (k : κ) (written : Bytes)
    (hcs : ∀ c ∈ cs, c.payload.length ≤ 65535) :
    Sequential P S T prog s.history.consumed cs ⟨k, .make p s written⟩
      (k, p.arrive (payloadsFor idx cs)) :=
  (follows_make hs hp k written hcs).comes hT

/-- A client whose program, by itself, ends as `final`. -/
structure Determined (P : Protocol σ μ) (S : SerdeCbor) (T : Transport) (prog : Program κ σ)
    (stream : Bytes) (start : Client κ σ μ) (final : κ × Party σ μ) : Prop where
  toward : ∀ c, ReflTransGen (Step P S T prog stream) start c →
    ∃ payloads, prog.Run P S (c.caller, c.endpoint.party.arrive payloads) final
  result : ∀ c, ReflTransGen (Step P S T prog stream) start c →
    (∀ c', ¬ Step P S T prog stream c c') → (c.caller, c.endpoint.party) = final
  ends : ¬ ∃ run : ℕ → Client κ σ μ, run 0 = start ∧
    ∀ i, Step P S T prog stream (run i) (run (i + 1))

theorem Sequential.determined (h : Sequential P S T prog base cs start x)
    (hrun : prog.Run P S x final) (hend : prog.advance P S final = none) :
    Determined P S T prog (base ++ cs.flatMap Call.wire) start final where
  toward c hc := by
    obtain ⟨rest, -, halong, -⟩ := h.along c hc
    exact ⟨_, Transition.toward_end hrun hend halong⟩
  result c hc hstuck := by
    obtain ⟨halong, hend', -⟩ := h.result c hc hstuck
    rcases (Transition.toward_end hrun hend halong).cases_head with heq | ⟨y, hy, -⟩
    · exact heq
    · rw [hend'] at hy
      cases hy
  ends := h.ends (Transition.finite_of_end hrun hend)

/-- A program that by itself ends with an empty queue has read all frames when it is over, if
the last of them has something for it. -/
theorem Sequential.stopped (h : Sequential P S T prog base cs start x) (hrun : prog.Run P S x final)
    (hend : prog.advance P S final = none) (hempty : final.2.channel.receiver.flatten = [])
    (hlast : ∀ d, cs.getLast? = some d →
      d.idx ^^^ 0x8000 = final.2.channel.idx ∧ d.payload ≠ [])
    (hc : ReflTransGen (Step P S T prog (base ++ cs.flatMap Call.wire)) start c)
    (hstop : Party.turn P S c.endpoint.party = .stop)
    (hprog : prog c.caller c.endpoint.proto = none) :
    (c.caller, c.endpoint.party) = final ∧ Closes c.endpoint.connection ∧
      c.endpoint.connection.history.consumed = base ++ cs.flatMap Call.wire := by
  obtain ⟨rest, hrest, halong, hcloses⟩ := h.along c hc
  -- with the rest of the payloads in its queue the program is over as well
  have hover : prog.advance P S
      (c.caller, c.endpoint.party.arrive (payloadsFor c.endpoint.idx rest)) = none :=
    Program.advance_stop (Program.turn_stop_arrive hstop _) hprog
  obtain rfl : (c.caller, c.endpoint.party.arrive (payloadsFor c.endpoint.idx rest)) = final := by
    rcases (Transition.toward_end hrun hend halong).cases_head with heq | ⟨y, hy, -⟩
    · exact heq
    · rw [hover] at hy
      cases hy
  have hnil : rest = [] := by
    rcases rest.eq_nil_or_concat with hnil | ⟨init, d, rfl⟩
    · exact hnil
    · obtain ⟨done, rfl⟩ := hrest
      obtain ⟨hidx, hpayload⟩ := hlast d (by simp)
      have hidx : d.idx ^^^ 0x8000 = c.endpoint.idx := hidx
      simp [Party.arrive, payloadsFor, Call.payloadFor, hidx, hpayload] at hempty
  rw [hnil, arrive_nil]
  exact ⟨rfl, hcloses hnil⟩

/-- A caller of `find_intersect` that goes on with `request_next`. -/
def twoCalls : Program Bool Chainsync.ChainSync := fun called s =>
  if called then none else some (true, s.takeIntersect.2.ask .reply)

/-- A peer finds an intersection and rolls back. There is a frame for another channel in
between. -/
def twoAnswers : List Call :=
  [⟨0, 0x8002, [0x83, 5, 0x82, 5, 0x41, 1, 0x82, 0x82, 8, 0x41, 2, 9]⟩, ⟨1, 0x8003, [0x81, 5]⟩,
    ⟨2, 0x8002, [0x83, 3, 0x82, 5, 0x41, 1, 0x82, 0x82, 8, 0x41, 2, 9]⟩]

/-- A client in its call of `find_intersect`. -/
def finding : Party Chainsync.ChainSync Chainsync.Message :=
  { Chainsync.client with proto := Chainsync.client.proto.ask (.intersect [⟨5, [1]⟩]) }

/-- The two calls by themselves. -/
theorem run_twoCalls :
    ∃ final : Bool × Party Chainsync.ChainSync Chainsync.Message,
      final.2.proto.reply = some (.backward ⟨5, [1]⟩ ⟨9, 8, [2]⟩) ∧
      twoCalls.Run (Chainsync.protocol Cbor.serdeCbor fun bytes => bytes) Cbor.serdeCbor
        (false, finding.arrive (payloadsFor 2 twoAnswers)) final ∧
      twoCalls.advance (Chainsync.protocol Cbor.serdeCbor fun bytes => bytes)
        Cbor.serdeCbor final = none := by
  have hfound : ∀ e ∈ [(Chainsync.Message.intersectFound ⟨5, [1]⟩ ⟨9, 8, [2]⟩,
      [0x83, 5, 0x82, 5, 0x41, 1, 0x82, 0x82, 8, 0x41, 2, 9])],
      (Chainsync.protocol Cbor.serdeCbor fun bytes => bytes).Encoded Cbor.serdeCbor e.1 e.2 :=
    List.forall_mem_singleton.mpr (Chainsync.Message.encoded Cbor.serdeCbor_lawful rfl)
  have hbackward : ∀ e ∈ [(Chainsync.Message.rollBackward ⟨5, [1]⟩ ⟨9, 8, [2]⟩,
      [0x83, 3, 0x82, 5, 0x41, 1, 0x82, 0x82, 8, 0x41, 2, 9])],
      (Chainsync.protocol Cbor.serdeCbor fun bytes => bytes).Encoded Cbor.serdeCbor e.1 e.2 :=
    List.forall_mem_singleton.mpr (Chainsync.Message.encoded Cbor.serdeCbor_lawful rfl)
  have hasks := (ReflTransGen.refl : twoCalls.Run
    (Chainsync.protocol Cbor.serdeCbor fun bytes => bytes) Cbor.serdeCbor
      (false, finding.arrive (payloadsFor 2 twoAnswers)) _).tail
        (Program.advance_next (Party.turn_send_ok (by decide) (by decide) rfl rfl))
  have hanswered := hasks.tail (Program.advance_next (Party.turn_recv_whole
    hfound (by decide) (by decide) rfl rfl rfl))
  have hcalls := hanswered.tail (Program.advance_call (Party.turn_stop_iff.mpr rfl) rfl)
  have hasks' := hcalls.tail
    (Program.advance_next (Party.turn_send_ok (by decide) (by decide) rfl rfl))
  have hanswered' := hasks'.tail (Program.advance_next (Party.turn_recv_whole
    hbackward (by decide) (by decide) rfl rfl rfl))
  exact ⟨_, rfl, hanswered', Program.advance_stop (Party.turn_stop_iff.mpr rfl) rfl⟩

/-- A chain-sync client that makes two calls, and the peer that answers them. -/
theorem sequential_twoCalls :
    ∃ final : Bool × Party Chainsync.ChainSync Chainsync.Message,
      final.2.proto.reply = some (.backward ⟨5, [1]⟩ ⟨9, 8, [2]⟩) ∧
      Determined (Chainsync.protocol Cbor.serdeCbor fun bytes => bytes) Cbor.serdeCbor .greedy
        twoCalls (twoAnswers.flatMap Call.wire) ⟨false, .make finding .new []⟩ final := by
  obtain ⟨final, hreply, hrun, hend⟩ := run_twoCalls
  have hsequential := @sequential _ _ _ (Chainsync.protocol Cbor.serdeCbor fun bytes => bytes)
    Cbor.serdeCbor .greedy twoCalls twoAnswers (fun _ _ => rfl) _ settled_new finding 2 rfl
    false [] (by decide)
  exact ⟨final, hreply, hsequential.determined hrun hend⟩

end Client

end Mux

end Ouroboros
