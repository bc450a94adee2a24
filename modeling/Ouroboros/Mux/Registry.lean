import Ouroboros.Mux.InFrame

/-!
The map of the demultiplexer while channels are opened and dropped.

A channel takes its sender out of the map before its receiver is dropped, and both
sides look at the map under its lock. So the map holds the sender of the open
channel and no other, whatever the tasks do in between, and a dispatch comes down
to `deliver`.
-/

namespace Ouroboros.Mux

open Framing

/-- `register` has run, and `Channel::drop` has not. -/
def Channel.isOpen (c : Channel) : Bool :=
  match c.stage with
  | .registered | .attached _ => true
  | .unregistered _ | .closed _ => false

namespace Connection

variable {s s' : Connection} {a : Action} {as : List Action}

/-- The queue of the channel that is open on an index. -/
def registry (s : Connection) (idx : UInt16) : Option ℕ :=
  match s.channel with
  | some c => if c.isOpen ∧ c.idx = idx then some c.receiver else none
  | none => none

/-- What a dispatch is for: the payload goes to the channel that is open on its
index, if there is one, and the task goes on. -/
def deliver (i : ℕ) (f : Frame) (s : Connection) : Connection :=
  { s with
    queues := match s.registry (idxOf f.header) with
      | some n => s.queues.modify n fun q => { q with payloads := q.payloads ++ [f.payload] }
      | none => s.queues
    receiver := some (i, .start) }

theorem registry_of_none (h : s.channel = none) : s.registry = fun _ => none := by
  funext idx
  rw [registry, h]

theorem registry_of_closed {c : Channel} (h : s.channel = some c) (hc : c.isOpen = false) :
    s.registry = fun _ => none := by
  funext idx
  simp [registry, h, hc]

theorem registry_of_open {c : Channel} (h : s.channel = some c) (hc : c.isOpen = true) :
    s.registry = Function.update (fun _ => none) c.idx (some c.receiver) := by
  funext idx
  simp only [registry, h, hc, true_and, Function.update_apply, eq_comm]

/-- The map holds the sender of the open channel and no other. The channel's queue is
the newest one, and it has its receiver. -/
structure Registered (s : Connection) : Prop where
  sound : s.poisoned = false
  channels : s.channels = s.registry
  alive : ∀ c, s.channel = some c → c.isOpen = true →
    ∃ payloads, s.queues[c.receiver]? = some ⟨payloads, true⟩
  newest : ∀ c, s.channel = some c → c.receiver + 1 = s.queues.length

theorem registered_new : Registered new where
  sound := rfl
  channels := rfl
  alive _ h := by cases h
  newest _ h := by cases h

theorem set_eq_modify {α : Type} {xs : List α} {n : ℕ} {x : α} (h : xs[n]? = some x)
    (f : α → α) : xs.set n (f x) = xs.modify n f := by
  apply List.ext_getElem?
  intro j
  obtain ⟨hlt, rfl⟩ := List.getElem?_eq_some_iff.mp h
  rw [List.getElem?_set, List.getElem?_modify]
  by_cases hj : n = j
  · subst hj
    simp [hlt]
  · simp [hj]

namespace Registered

/-- Most steps leave the map, the channel and the queues alone. -/
theorem frame (h : Registered s) (hpoisoned : s'.poisoned = s.poisoned)
    (hchannels : s'.channels = s.channels) (hchannel : s'.channel = s.channel)
    (hqueues : s'.queues = s.queues) : Registered s' where
  sound := hpoisoned.trans h.sound
  channels := by
    have hregistry : s'.registry = s.registry := by
      funext idx
      rw [registry, hchannel, registry]
    rw [hchannels, hregistry, h.channels]
  alive := by
    rw [hchannel, hqueues]
    exact h.alive
  newest := by
    rw [hchannel, hqueues]
    exact h.newest

theorem queue_of_registry (h : Registered s) {idx : UInt16} {n : ℕ}
    (hn : s.registry idx = some n) : ∃ payloads, s.queues[n]? = some ⟨payloads, true⟩ := by
  rw [registry] at hn
  split at hn
  · rename_i c hc
    split_ifs at hn with hopen
    obtain rfl := Option.some.inj hn
    exact h.alive c hc hopen.1
  · cases hn

/-- A dispatch finds the map sound and the sender's receiver alive. -/
theorem dispatch_eq (h : Registered s) (i : ℕ) (f : Frame) : s.dispatch i f = s.deliver i f := by
  have hpoisoned : ¬ s.poisoned = true := by
    rw [h.sound]
    decide
  have hlookup : s.channels (idxOf f.header) = s.registry (idxOf f.header) := by
    rw [h.channels]
  cases hn : s.registry (idxOf f.header) with
  | none =>
      rw [hn] at hlookup
      simp only [dispatch, if_neg hpoisoned, hlookup, Connection.deliver, hn]
  | some n =>
      rw [hn] at hlookup
      obtain ⟨payloads, hq⟩ := h.queue_of_registry hn
      have hset := set_eq_modify hq fun q => { q with payloads := q.payloads ++ [f.payload] }
      simp only [dispatch, if_neg hpoisoned, hlookup, hq, Connection.deliver, hn, hset]

theorem deliver (h : Registered s) (i : ℕ) (f : Frame) : Registered (s.deliver i f) where
  sound := h.sound
  channels := h.channels
  alive c hc hopen := by
    obtain ⟨payloads, hq⟩ := h.alive c hc hopen
    simp only [Connection.deliver]
    split
    · rename_i n _
      rw [List.getElem?_modify, hq]
      split
      · exact ⟨_, rfl⟩
      · exact ⟨payloads, rfl⟩
    · exact ⟨payloads, hq⟩
  newest c hc := by
    have hlen : (s.deliver i f).queues.length = s.queues.length := by
      simp only [Connection.deliver]
      split
      · exact List.length_modify _ _ _
      · rfl
    rw [hlen]
    exact h.newest c hc

/-- Before a channel is registered the map is empty. -/
theorem register (h : Registered s) (idx : UInt16) (hnone : s.channel = none) :
    Registered (s.register idx) where
  sound := h.sound
  channels := by
    have hempty : s.channels = fun _ => none := h.channels.trans (registry_of_none hnone)
    rw [registry_of_open (s := s.register idx) rfl rfl]
    exact congrArg (fun m => Function.update m idx (some s.queues.length)) hempty
  alive c hc _ := by
    cases hc
    refine ⟨[], ?_⟩
    exact List.getElem?_concat_length
  newest c hc := by
    cases hc
    simp [Connection.register]

/-- The second half of `channel` only adds the task. -/
theorem runDemux (h : Registered s) {c : Channel} (hc : s.channel = some c)
    (hstage : c.stage = .registered) : Registered (s.runDemux c) := by
  have hopen : c.isOpen = true := by rw [Channel.isOpen, hstage]
  have hmap : s.channels = Function.update (fun _ => none) c.idx (some c.receiver) :=
    h.channels.trans (registry_of_open hc hopen)
  have hattached : ∀ {t : Connection} {task : ℕ}, t.poisoned = s.poisoned →
      t.channels = s.channels → t.queues = s.queues →
      t.channel = some { c with stage := .attached task } → Registered t := by
    intro t task hpoisoned hchannels hqueues hchannel
    refine ⟨hpoisoned.trans h.sound, ?_, ?_, ?_⟩
    · rw [hchannels, hmap, registry_of_open hchannel rfl]
    · intro c' hc' _
      rw [hchannel] at hc'
      cases hc'
      rw [hqueues]
      exact h.alive c hc hopen
    · intro c' hc'
      rw [hchannel] at hc'
      cases hc'
      rw [hqueues]
      exact h.newest c hc
  rw [Connection.runDemux]
  split
  · exact hattached rfl rfl rfl rfl
  · exact hattached rfl rfl rfl rfl

/-- Once the sender is out of the map nothing is left in it. -/
theorem unregister (h : Registered s) {c : Channel} {task : ℕ} (hc : s.channel = some c)
    (hstage : c.stage = .attached task) : Registered (s.unregister c task) where
  sound := h.sound
  channels := by
    have hopen : c.isOpen = true := by rw [Channel.isOpen, hstage]
    have hmap : s.channels = Function.update (fun _ => none) c.idx (some c.receiver) :=
      h.channels.trans (registry_of_open hc hopen)
    rw [registry_of_closed (s := s.unregister c task) rfl rfl]
    show Function.update s.channels c.idx none = _
    rw [hmap, Function.update_idem, Function.update_eq_self]
  alive c' hc' hopen := by
    cases hc'
    cases hopen
  newest c' hc' := by
    cases hc'
    exact h.newest c hc

theorem dropReceiver (h : Registered s) {c : Channel} {task : ℕ} (hc : s.channel = some c)
    (hstage : c.stage = .unregistered task) : Registered (s.dropReceiver c task) where
  sound := h.sound
  channels := by
    have hclosed : c.isOpen = false := by rw [Channel.isOpen, hstage]
    rw [registry_of_closed (s := s.dropReceiver c task) rfl rfl]
    exact h.channels.trans (registry_of_closed hc hclosed)
  alive c' hc' hopen := by
    cases hc'
    cases hopen
  newest c' hc' := by
    cases hc'
    rw [Connection.dropReceiver, List.length_modify]
    exact h.newest c hc

theorem dropDemux (h : Registered s) {c : Channel} {task : ℕ} (hc : s.channel = some c)
    (hstage : c.stage = .closed task) : Registered (s.dropDemux task) where
  sound := h.sound
  channels := by
    have hclosed : c.isOpen = false := by rw [Channel.isOpen, hstage]
    rw [registry_of_none (s := s.dropDemux task) rfl]
    exact h.channels.trans (registry_of_closed hc hclosed)
  alive c' hc' := by cases hc'
  newest c' hc' := by cases hc'

/-- A payload is taken from the queue of the channel. -/
theorem recv (h : Registered s) {c : Channel} {payload : Payload} {rest : List Payload}
    (hc : s.channel = some c) (hq : s.queues[c.receiver]? = some ⟨payload :: rest, true⟩) :
    Registered { s with queues := s.queues.set c.receiver ⟨rest, true⟩ } where
  sound := h.sound
  channels := h.channels
  alive c' hc' hopen := by
    have heq : c' = c := Option.some.inj (hc'.symm.trans hc)
    obtain ⟨hlt, -⟩ := List.getElem?_eq_some_iff.mp hq
    rw [heq]
    exact ⟨rest, List.getElem?_set_self hlt⟩
  newest c' hc' := by
    rw [List.length_set]
    exact h.newest c' hc'

/-- **The step lemma.** -/
theorem does (h : Registered s) (hdoes : Does s a s') : Registered s' := by
  cases hdoes with
  | register idx hnone _ => exact h.register idx hnone
  | runDemux hc hstage => exact h.runDemux hc hstage
  | recv hc _ hq => exact h.recv hc hq
  | unregister hc hstage _ => exact h.unregister hc hstage
  | dropReceiver hc hstage => exact h.dropReceiver hc hstage
  | dropDemux hc hstage => exact h.dropDemux hc hstage
  | @dispatch i f _ =>
      rw [h.dispatch_eq]
      exact h.deliver i f
  | _ => exact h.frame rfl rfl rfl rfl

/-- **The run lemma.** -/
theorem run (hrun : Run (fun _ => True) new s) : Registered s := by
  refine Transition.invariant (fun s s' h hstep => ?_) hrun registered_new
  obtain ⟨a, hdoes, -⟩ := hstep
  exact h.does hdoes

theorem trace (h : Trace new as s) : Registered s := run (run_iff.mpr ⟨as, h⟩)

end Registered

end Connection

open Connection

/-- **Closing a channel never breaks the demultiplexer.** In every run of a connection
the map is never poisoned; a sender in it belongs to the open channel and has its
receiver; an open channel has its sender in it, that of the newest queue; and what
the next dispatch does is to deliver the payload. -/
theorem close_never_breaks {s : Connection} (hrun : Run (fun _ => True) new s) :
    s.poisoned = false ∧
      (∀ idx n, s.channels idx = some n → ∃ c payloads, s.channel = some c ∧ c.isOpen = true ∧
        c.idx = idx ∧ c.receiver = n ∧ s.queues[n]? = some ⟨payloads, true⟩) ∧
      (∀ c, s.channel = some c → c.isOpen = true →
        s.channels c.idx = some c.receiver ∧ c.receiver + 1 = s.queues.length) ∧
      ∀ i f, s.receiver = some (i, .complete f) → s.dispatch i f = s.deliver i f := by
  have h := Registered.run hrun
  refine ⟨h.sound, ?_, ?_, fun i f _ => h.dispatch_eq i f⟩
  · intro idx n hn
    rw [h.channels, registry] at hn
    split at hn
    · rename_i c hc
      split_ifs at hn with hopen
      obtain rfl := Option.some.inj hn
      obtain ⟨payloads, hq⟩ := h.alive c hc hopen.1
      exact ⟨c, payloads, hc, hopen.1, hopen.2, rfl, hq⟩
    · cases hn
  · intro c hc hopen
    refine ⟨?_, h.newest c hc⟩
    rw [h.channels, registry_of_open hc hopen, Function.update_self]

/-- A task goes on after its channel was dropped, and the index was opened again. The
payload goes to the new channel. -/
theorem close_never_breaks_reopened :
    ∃ s : Connection, s.tasks[0]? = some ⟨.reading, true⟩ ∧
      s.dispatch 0 zeros = s.deliver 0 zeros ∧
      (s.dispatch 0 zeros).queues = [⟨[], false⟩, ⟨[zeros.payload], true⟩] := by
  have h₁ := (run_open (fun _ => True) trivial).does (.arrive zeros.header rfl) nofun
  have h₂ := h₁.does (.readAll zeros.header rfl rfl (by decide) (by decide)) nofun
  have h₃ := h₂.does (.arrive zeros.payload rfl) nofun
  have h₄ := h₃.does (.readAll zeros.payload rfl rfl (by decide) (by decide)) nofun
  have h₅ := h₄.does (.unregister (c := ⟨2, 0, .attached 0⟩) rfl rfl rfl) nofun
  have h₆ := (h₅.does (.dropReceiver rfl rfl) nofun).does (.dropDemux rfl rfl) nofun
  have h₇ := (h₆.does (.register 2 rfl rfl) nofun).does (.runDemux rfl rfl) nofun
  exact ⟨_, rfl, (close_never_breaks h₇).2.2.2 0 zeros rfl, rfl⟩

end Ouroboros.Mux
