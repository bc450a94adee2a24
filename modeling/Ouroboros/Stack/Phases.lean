import Ouroboros.Stack.Client

/-!
One protocol after another on one connection.

A program that has dropped its channel when there was nothing to read leaves the connection
as it has found it: the next program starts between two frames. A single call that has
returned is at such a point if the last frame of the peer has something for it.
-/

namespace Ouroboros

open Relation Mux Mux.Connection

namespace Mux

namespace Client

variable {κ σ μ : Type} {P : Protocol σ μ} {S : SerdeCbor} {T : Transport}
  {prog : Program κ σ} {base : Bytes} {cs : List Call} {p final : Party σ μ} {idx : UInt16}

/-- The channel may be dropped, and any program goes on behind `stream`. -/
structure GoesOn (T : Transport) (stream : Bytes) (e : Endpoint σ μ) : Prop where
  closes : Closes e.connection
  next : ∀ s, ReflTransGen Close e.connection s → (∀ s', ¬ Close s s') →
    ∀ {κ σ' μ' : Type} (P : Protocol σ' μ') (S : SerdeCbor) (prog : Program κ σ') (k : κ)
      (p : Party σ' μ') (idx : UInt16) (cs : List Call), p.channel = .open idx →
      (∀ c ∈ cs, c.payload.length ≤ 65535) →
      Sequential P S T prog stream cs ⟨k, .make p s e.written⟩
        (k, p.arrive (payloadsFor idx cs))

theorem goesOn (hT : T.Greedy) {stream : Bytes} {e : Endpoint σ μ} (h : Closes e.connection)
    (hconsumed : e.connection.history.consumed = stream) : GoesOn T stream e where
  closes := h
  next s hclose hstuck κ σ' μ' P S prog k p idx cs hp hcs := by
    rw [← hconsumed, ← (h.whole s hclose).2]
    exact (follows_make (h.settles s hclose hstuck) hp k e.written hcs).comes hT

/-- A connection that programs have used, one after the other, and what they have written to
it. Each has dropped its channel when there was nothing to read. -/
inductive Used (T : Transport) : Connection → Bytes → Prop
  | new : Used T .new []
  | reuse {κ σ μ : Type} {P : Protocol σ μ} {S : SerdeCbor} {prog : Program κ σ} {k : κ}
      {p : Party σ μ} {idx : UInt16} {cs : List Call} {s s' : Connection} {written : Bytes}
      {c : Client κ σ μ} : Used T s written → p.channel = .open idx →
      (∀ d ∈ cs, d.payload.length ≤ 65535) →
      ReflTransGen (Step P S T prog (s.history.consumed ++ cs.flatMap Call.wire))
        ⟨k, .make p s written⟩ c → Idle c.endpoint.connection →
      ReflTransGen Close c.endpoint.connection s' → (∀ s'', ¬ Close s' s'') →
      Used T s' c.endpoint.written

theorem Follows.run (hT : T.Greedy) {task : ℕ} {c c' : Client κ σ μ} {x : κ × Party σ μ}
    (h : Follows base cs task c x)
    (hrun : ReflTransGen (Step P S T prog (base ++ cs.flatMap Call.wire)) c c') :
    ∃ y, Follows base cs task c' y := by
  obtain ⟨y, -, hfollows⟩ :=
    (@simulation _ _ _ P S _ prog hT base cs task).run (fun _ _ => trivial) h hrun
  exact ⟨y, hfollows⟩

/-- When a program is over there is nothing to read. -/
theorem Follows.idle {task : ℕ} {c : Client κ σ μ} {x : κ × Party σ μ}
    (h : Follows base cs task c x)
    (hstuck : ∀ c', ¬ Step P S T prog (base ++ cs.flatMap Call.wire) c c') :
    Idle c.endpoint.connection := by
  obtain ⟨-, hlive, done, rest, -, hcarries, -⟩ := h
  cases rest with
  | nil => exact hcarries.drained.idle
  | cons d rest =>
      obtain ⟨c', hstep⟩ := exists_step hlive hcarries
      exact absurd hstep (hstuck c')

theorem Used.settled (hT : T.Greedy) {s : Connection} {written : Bytes} (h : Used T s written) :
    Settled s := by
  induction h with
  | new => exact settled_new
  | reuse _ hp hcs hrun hidle hclose hstuck ih =>
      obtain ⟨_, hfollows⟩ := (follows_make ih hp _ _ hcs).run hT hrun
      exact (hfollows.live.draining hidle).closes.settles _ hclose hstuck

/-- **One protocol after another.** Any number of programs have used the connection, each with
a protocol of its own, and have dropped their channels when there was nothing to read. The
next program comes to what it would by itself, whatever frames the peer writes from there
on. -/
theorem reuses (hT : T.Greedy) {s : Connection} {written : Bytes} (hs : Used T s written)
    (hp : p.channel = .open idx) (k : κ) (hcs : ∀ c ∈ cs, c.payload.length ≤ 65535) :
    Sequential P S T prog s.history.consumed cs ⟨k, .make p s written⟩
      (k, p.arrive (payloadsFor idx cs)) :=
  (follows_make (hs.settled hT) hp k written hcs).comes hT

/-- A chain-sync client has made its calls, its channel has been dropped, and there is
another one. -/
theorem reuses_twoCalls :
    ∃ (c : Client Bool Chainsync.ChainSync Chainsync.Message) (s : Connection),
      c.endpoint.proto.reply = some (.backward ⟨5, [1]⟩ ⟨9, 8, [2]⟩) ∧
      ReflTransGen Close c.endpoint.connection s ∧ Used .greedy s c.endpoint.written ∧
      Sequential (Chainsync.protocol Cbor.serdeCbor fun bytes => bytes) Cbor.serdeCbor .greedy
        twoCalls s.history.consumed twoAnswers ⟨false, .make finding s c.endpoint.written⟩
        (false, finding.arrive (payloadsFor 2 twoAnswers)) := by
  have hT : Transport.greedy.Greedy := fun _ _ => rfl
  obtain ⟨final, hreply, hrun, hend⟩ := run_twoCalls
  have hfollows :=
    @follows_make Bool _ _ twoAnswers _ settled_new finding 2 rfl false [] (by decide)
  have hdetermined := (hfollows.comes hT).determined hrun hend
  obtain ⟨c, hc, hstuck⟩ := Transition.exists_stuck hdetermined.ends
  have hfinal := hdetermined.result c hc hstuck
  obtain ⟨_, hfollows⟩ := hfollows.run hT hc
  have hidle := hfollows.idle hstuck
  obtain ⟨s, hclose, hclosed⟩ :=
    Transition.exists_stuck (hfollows.live.draining hidle).closes.terminates
  have hused : Used .greedy s c.endpoint.written :=
    .reuse .new rfl (by decide) hc hidle hclose hclosed
  refine ⟨c, s, ?_, hclose, hused, reuses hT hused rfl false (by decide)⟩
  rw [← hfinal] at hreply
  exact hreply

/-- What a single call comes to. -/
structure Once (P : Protocol σ μ) (S : SerdeCbor) (T : Transport) (stream : Bytes)
    (start : Client Unit σ μ) (final : Party σ μ) : Prop where
  stopped : ∀ c, ReflTransGen (Step P S T .once stream) start c →
    Party.turn P S c.endpoint.party = .stop →
    c.endpoint.party = final ∧ GoesOn T stream c.endpoint
  returns : ∀ c, ReflTransGen (Step P S T .once stream) start c →
    (∀ c', ¬ Step P S T .once stream c c') → Party.turn P S c.endpoint.party = .stop
  ends : ¬ ∃ run : ℕ → Client Unit σ μ, run 0 = start ∧
    ∀ i, Step P S T .once stream (run i) (run (i + 1))

/-- The peer writes what the call needs, and the last frame has something for it. -/
theorem once (hT : T.Greedy) {s : Connection} (hs : Settled s) (hp : p.channel = .open idx)
    (written : Bytes) (hcs : ∀ c ∈ cs, c.payload.length ≤ 65535)
    (hlast : ∀ d, cs.getLast? = some d → d.idx ^^^ 0x8000 = idx ∧ d.payload ≠ [])
    (hexecute : Party.execute P S (p.arrive (payloadsFor idx cs)) = (.ok (), final))
    (hidx : final.channel.idx = idx) (hempty : final.channel.receiver.flatten = []) :
    Once P S T (s.history.consumed ++ cs.flatMap Call.wire) ⟨(), .make p s written⟩ final := by
  have hsequential : Sequential P S T .once _ cs _ _ :=
    (follows_make hs hp () written hcs).comes hT
  obtain ⟨hrun, hstop⟩ := Program.run_execute hexecute
  have hend : Program.once.advance P S ((), final) = none := Program.advance_stop hstop rfl
  have hdetermined := hsequential.determined hrun hend
  refine ⟨fun c hc hturn => ?_, fun c hc hstuck => ?_, hdetermined.ends⟩
  · obtain ⟨hparty, hcloses, hconsumed⟩ :=
      hsequential.stopped hrun hend hempty (by rwa [hidx]) hc hturn rfl
    exact ⟨(Prod.mk.inj hparty).2, goesOn hT hcloses hconsumed⟩
  · rw [(Prod.mk.inj (hdetermined.result c hc hstuck)).2]
    exact hstop

end Client

end Mux

end Ouroboros
