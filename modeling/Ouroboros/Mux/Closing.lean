import Ouroboros.Mux.Attached

/-!
A channel is dropped.

The steps of the drop and those of the demux task come in any order: the task may be
aborted before it has ever got the lock, or while it waits for a header, or it may still
dispatch a frame. If there is nothing to read, and no frame is half read, then nothing is
lost and the connection settles again. Otherwise the end of the task may tear a frame.
-/

namespace Ouroboros.Mux

open Framing Relation

/-- The steps of the drop of a channel, and those of the demux tasks. -/
def Action.Closing : Action → Prop
  | .unregister _ | .dropReceiver | .dropDemux => True
  | a => a.Demux

/-- What a stage has left until the channel is gone. -/
def Stage.left : Stage → ℕ
  | .registered | .attached _ => 3
  | .unregistered _ => 2
  | .closed _ => 1

/-- What a task has left until it is over, if there is nothing to read. -/
def Phase.left : Phase → ℕ
  | .waiting => 2
  | .reading => 1
  | .ended => 0

namespace Connection

theorem need_start : (Reader.start : Reader format).need = 8 := rfl

/-- A step of a connection that is left alone by its peer. -/
def Close (s s' : Connection) : Prop := ∃ a, a.Closing ∧ Does s a s'

/-- There is nothing to read, and no frame is half read. -/
structure Idle (s : Connection) : Prop where
  unread : s.unread = []
  whole : ∀ i r, s.receiver = some (i, r) → 0 < r.need → r.part = []

theorem Drained.idle {written : Bytes} {s : Connection} (h : Drained written s) : Idle s where
  unread := h.unread
  whole i r hreceiver _ := by
    rw [← part_of_receiver hreceiver]
    exact h.part

/-- How many steps are left at most. -/
def remaining (task : ℕ) (s : Connection) : ℕ :=
  (s.channel.elim 0 fun c => c.stage.left) + (s.tasks[task]?.elim 0 fun t => t.phase.left) +
    s.receiver.elim 0 fun p => if p.2.need = 0 then 1 else 0

/-- The task that has the lock is at the start of a frame, or it has a frame. -/
def Locked (task : ℕ) (s : Connection) : Phase → Prop
  | .reading => ∃ r : Reader format, s.receiver = some (task, r) ∧ (r = .start ∨ r.need = 0)
  | .waiting | .ended => s.receiver = none

/-- The channel is on its way out. Its task is the only one that is not over, and it is
aborted at the end of the drop. -/
structure Draining (consumed : Bytes) (task : ℕ) (s : Connection) : Prop where
  registered : Registered s
  unread : s.unread = []
  sound : s.failed = false
  consumed : s.history.consumed = consumed
  whole : Whole s
  stage : ∀ c, s.channel = some c →
    c.stage = .attached task ∨ c.stage = .unregistered task ∨ c.stage = .closed task
  demux : s.channel = none → s.demux = none
  sole : ∀ i t, s.tasks[i]? = some t → t.phase ≠ .ended → i = task
  phase : ∃ phase, s.tasks[task]? = some ⟨phase, s.channel.isNone⟩ ∧ Locked task s phase

variable {s s' : Connection} {idx : UInt16} {n task : ℕ} {a : Action} {consumed : Bytes}

theorem Attached.draining (h : Attached idx n task s) (hidle : Idle s) :
    Draining s.history.consumed task s where
  registered := h.registered
  unread := hidle.unread
  sound := h.sound
  consumed := rfl
  whole := h.whole
  stage c hc := by
    cases h.channel.symm.trans hc
    exact .inl rfl
  demux hnone := by
    rw [h.channel] at hnone
    cases hnone
  sole i t ht hphase := (h.sole i t ht hphase).1
  phase := by
    rcases h.phase with ⟨hnone, htask⟩ | ⟨r, hreceiver, htask⟩
    · exact ⟨.waiting, by rw [htask, h.channel]; rfl, hnone⟩
    · refine ⟨.reading, by rw [htask, h.channel]; rfl, r, hreceiver, ?_⟩
      by_cases hneed : r.need = 0
      · exact .inr hneed
      · exact .inl (Reader.start_of_part (hidle.whole _ r hreceiver (Nat.pos_of_ne_zero hneed)))

namespace Draining

theorem reader (h : Draining consumed task s) {i : ℕ} {r : Reader format}
    (hreceiver : s.receiver = some (i, r)) : i = task ∧ (r = .start ∨ r.need = 0) ∧
      s.tasks[task]? = some ⟨.reading, s.channel.isNone⟩ := by
  obtain ⟨phase, htask, hlock⟩ := h.phase
  cases phase with
  | reading =>
      obtain ⟨r', hr', hr⟩ := hlock
      cases hr'.symm.trans hreceiver
      exact ⟨rfl, hr, htask⟩
  | waiting | ended =>
      rw [Locked, hreceiver] at hlock
      cases hlock

/-- A step of the drop leaves the tasks alone until the last one. -/
theorem drop (h : Draining consumed task s) (hregistered : Registered s') {c : Channel}
    (hc : s.channel = some c) {stage : Stage}
    (hchannel : s'.channel = some { c with stage := stage })
    (hstage : stage = .unregistered task ∨ stage = .closed task) (htasks : s'.tasks = s.tasks)
    (hreceiver : s'.receiver = s.receiver) (hfailed : s'.failed = s.failed)
    (hunread : s'.unread = s.unread) (hhistory : s'.history = s.history) :
    Draining consumed task s' where
  registered := hregistered
  unread := hunread.trans h.unread
  sound := hfailed.trans h.sound
  consumed := by
    rw [hhistory]
    exact h.consumed
  whole := by
    rw [Whole, hhistory]
    exact h.whole
  stage c' hc' := by
    rw [hchannel] at hc'
    cases hc'
    exact .inr hstage
  demux hnone := by
    rw [hchannel] at hnone
    cases hnone
  sole := by
    rw [htasks]
    exact h.sole
  phase := by
    obtain ⟨phase, htask, hlock⟩ := h.phase
    refine ⟨phase, ?_, ?_⟩
    · rw [htasks, htask, hc, hchannel]
      rfl
    · cases phase <;> simpa only [Locked, hreceiver] using hlock

/-- The end of the drop aborts the task. -/
theorem dropDemux (h : Draining consumed task s) (hregistered : Registered (s.dropDemux task)) :
    Draining consumed task (s.dropDemux task) where
  registered := hregistered
  unread := h.unread
  sound := h.sound
  consumed := h.consumed
  whole := h.whole
  stage c hc := by cases hc
  demux _ := rfl
  sole i t ht hphase := by
    by_cases hi : task = i
    · exact hi.symm
    · exact h.sole i t ((List.getElem?_modify_ne _ _ hi).symm.trans ht) hphase
  phase := by
    obtain ⟨phase, htask, hlock⟩ := h.phase
    refine ⟨phase, by simp [Connection.dropDemux, htask], ?_⟩
    cases phase <;> exact hlock

/-- A step of the task does not touch the channel. -/
theorem move (h : Draining consumed task s) (hregistered : Registered s') (phase : Phase)
    (htasks : s'.tasks = s.tasks.modify task fun t => { t with phase := phase })
    (hlock : Locked task s' phase) (hchannel : s'.channel = s.channel)
    (hdemux : s'.demux = s.demux) (hfailed : s'.failed = s.failed)
    (hunread : s'.unread = s.unread) (hconsumed : s'.history.consumed = s.history.consumed)
    (htorn : s'.history.torn = s.history.torn) : Draining consumed task s' where
  registered := hregistered
  unread := hunread.trans h.unread
  sound := hfailed.trans h.sound
  consumed := hconsumed.trans h.consumed
  whole := htorn.trans h.whole
  stage := by
    rw [hchannel]
    exact h.stage
  demux := by
    rw [hchannel, hdemux]
    exact h.demux
  sole i t ht hphase := by
    by_cases hi : task = i
    · exact hi.symm
    · rw [htasks, List.getElem?_modify_ne _ _ hi] at ht
      exact h.sole i t ht hphase
  phase := by
    obtain ⟨phase', htask, -⟩ := h.phase
    refine ⟨phase, ?_, hlock⟩
    rw [htasks, List.getElem?_modify_eq, htask, hchannel]
    rfl

theorem stage_eq (h : Draining consumed task s) {c : Channel} {task' : ℕ}
    (hc : s.channel = some c) (hstage : c.stage = .attached task' ∨
      c.stage = .unregistered task' ∨ c.stage = .closed task') : task' = task := by
  have hstage' := h.stage c hc
  grind

/-- **The step lemma.** -/
theorem close (h : Draining consumed task s) (ha : a.Closing) (hdoes : Does s a s') :
    Draining consumed task s' ∧ s'.remaining task < s.remaining task := by
  have hregistered := h.registered.does hdoes
  cases hdoes with
  | @unregister c task' hc hstage _ =>
      obtain rfl := h.stage_eq hc (.inl hstage)
      refine ⟨h.drop hregistered hc rfl (.inl rfl) rfl rfl rfl rfl rfl, ?_⟩
      simp [remaining, Connection.unregister, hc, hstage, Stage.left]
  | @dropReceiver c task' hc hstage =>
      obtain rfl := h.stage_eq hc (.inr (.inl hstage))
      refine ⟨h.drop hregistered hc rfl (.inr rfl) rfl rfl rfl rfl rfl, ?_⟩
      simp [remaining, Connection.dropReceiver, hc, hstage, Stage.left]
  | @dropDemux c task' hc hstage =>
      obtain rfl := h.stage_eq hc (.inr (.inr hstage))
      obtain ⟨phase, htask, -⟩ := h.phase
      refine ⟨h.dropDemux hregistered, ?_⟩
      simp [remaining, Connection.dropDemux, hc, hstage, htask, Stage.left]
  | @acquire i t ht hphase hnone =>
      obtain rfl := h.sole i t ht (by simp [hphase])
      refine ⟨h.move hregistered .reading rfl ⟨.start, rfl, .inl rfl⟩ rfl rfl rfl rfl rfl rfl, ?_⟩
      simp [remaining, Connection.acquire, ht, hphase, hnone, need_start, Phase.left]
  | read _ hunread hchunk _ =>
      rw [h.unread] at hunread
      exact absurd (List.append_eq_nil_iff.mp hunread.symm).1 hchunk
  | @dispatch i f hreceiver =>
      obtain ⟨rfl, -, htask⟩ := h.reader hreceiver
      rw [h.registered.dispatch_eq] at hregistered ⊢
      have htasks : s.tasks = s.tasks.modify i fun t => { t with phase := .reading } := by
        obtain ⟨hlt, hi⟩ := List.getElem?_eq_some_iff.mp htask
        rw [← set_eq_modify htask, ← hi, List.set_getElem_self]
      refine ⟨h.move hregistered .reading htasks ⟨.start, rfl, .inl rfl⟩ rfl rfl rfl rfl rfl rfl,
        ?_⟩
      have hnone : (Reader.complete f).need = 0 := rfl
      simp [remaining, Connection.deliver, hreceiver, need_start, hnone]
  | readFails _ _ _ hfailed =>
      rw [h.sound] at hfailed
      cases hfailed
  | @cancelWaiting i ht =>
      obtain rfl := h.sole i _ ht (by simp)
      obtain ⟨phase, htask, hlock⟩ := h.phase
      obtain ⟨rfl, -⟩ := Task.mk.inj (Option.some.inj (htask.symm.trans ht))
      refine ⟨h.move hregistered .ended rfl hlock rfl rfl rfl rfl rfl rfl, ?_⟩
      simp [remaining, ht, Phase.left]
  | @cancelReading i r hreceiver hneed ht =>
      obtain ⟨rfl, rfl | hnone, -⟩ := h.reader hreceiver
      · refine ⟨h.move hregistered .ended rfl rfl rfl rfl rfl rfl rfl ?_, ?_⟩
        · simp [release]
        · simp only [remaining, release, ht, hreceiver, List.getElem?_modify_eq]
          simp [need_start, Phase.left]
      · omega
  | _ => exact absurd ha (by simp [Action.Closing, Action.Demux])

/-- Until the connection has settled there is something to do. -/
theorem progress (h : Draining consumed task s) : Settled s ∨ ∃ s', Close s s' := by
  obtain ⟨phase, htask, hlock⟩ := h.phase
  cases hc : s.channel with
  | some c =>
      right
      rcases h.stage c hc with hstage | hstage | hstage
      · exact ⟨_, .unregister c.idx, trivial, .unregister hc hstage h.registered.sound⟩
      · exact ⟨_, .dropReceiver, trivial, .dropReceiver hc hstage⟩
      · exact ⟨_, .dropDemux, trivial, .dropDemux hc hstage⟩
  | none =>
      rw [hc] at htask
      cases phase with
      | waiting => exact .inr ⟨_, .cancelWaiting task, trivial, .cancelWaiting htask⟩
      | reading =>
          obtain ⟨r, hreceiver, -⟩ := hlock
          by_cases hneed : r.need = 0
          · obtain ⟨f, rfl⟩ := Reader.complete_of_need hneed
            exact .inr ⟨_, .dispatch task f, trivial, .dispatch hreceiver⟩
          · exact .inr ⟨_, .cancelReading task, trivial,
              .cancelReading hreceiver (Nat.pos_of_ne_zero hneed) htask⟩
      | ended =>
          refine .inl ⟨h.registered, hc, h.demux hc, hlock, fun t ht => ?_, h.unread, h.sound,
            h.whole⟩
          by_contra hphase
          obtain ⟨i, hi⟩ := List.mem_iff_getElem?.mp ht
          obtain rfl := h.sole i t hi hphase
          cases hi.symm.trans htask
          exact hphase rfl

/-- **The run lemma.** -/
theorem run (h : Draining consumed task s) (hrun : ReflTransGen Close s s') :
    Draining consumed task s' :=
  Transition.invariant (fun _ _ hb ⟨_, ha, hdoes⟩ => (hb.close ha hdoes).1) hrun h

end Draining

/-- In some order of the steps the channel is dropped and its task is aborted inside a
frame. What has been read of the frame is gone with the task. -/
def Tears (task : ℕ) (s : Connection) : Prop :=
  ∃ s₁ s₂ r, ReflTransGen Close s s₁ ∧ s₁.channel = none ∧ s₁.receiver = some (task, r) ∧
    r.part ≠ [] ∧ 0 < r.need ∧ Does s₁ (.cancelReading task) s₂ ∧ s₂.receiver = none ∧
    s₂.history.torn = true

theorem Tears.head (hclose : Close s s') (h : Tears task s') : Tears task s := by
  obtain ⟨s₁, s₂, r, hrun, hend⟩ := h
  exact ⟨s₁, s₂, r, hrun.head hclose, hend⟩

namespace Attached

end Attached

/-- What closing comes to. -/
structure Closes (s : Connection) : Prop where
  whole : ∀ s', ReflTransGen Close s s' →
    Whole s' ∧ s'.history.consumed = s.history.consumed
  settles : ∀ s', ReflTransGen Close s s' → (∀ s'', ¬ Close s' s'') → Settled s'
  terminates : ¬ ∃ run : ℕ → Connection, run 0 = s ∧ ∀ i, Close (run i) (run (i + 1))

theorem Draining.closes (h : Draining s.history.consumed task s) : Closes s where
  whole s' hrun := ⟨(h.run hrun).whole, (h.run hrun).consumed⟩
  settles s' hrun hstuck := by
    rcases (h.run hrun).progress with hsettled | ⟨s'', hclose⟩
    · exact hsettled
    · exact absurd hclose (hstuck s'')
  terminates :=
    Transition.terminates (fun _ _ hb ⟨_, ha, hdoes⟩ => (hb.close ha hdoes).1) (remaining task)
      (fun _ _ hb ⟨_, ha, hdoes⟩ => (hb.close ha hdoes).2) h

end Connection

end Ouroboros.Mux
