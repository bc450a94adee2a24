import Mathlib.Algebra.GroupWithZero.Nat
import Ouroboros.Mux.Closing
import Ouroboros.Mux.Failure

/-!
Whoever reads, what has arrived is read.

A task that is not over is that of the demux, or it has been aborted, and then it ends as
soon as it waits. So the tasks of channels that have been dropped do not keep the one of
the open channel from the socket.
-/

namespace Ouroboros.Mux

open Framing Relation

namespace Connection

variable {s s' : Connection} {a : Action} {as : List Action}

/-- Who has the lock, and who has been aborted. -/
structure Tended (s : Connection) : Prop where
  held : ∀ c task, s.channel = some c → c.stage = .attached task ∨ c.stage = .unregistered task ∨
    c.stage = .closed task → s.demux = some task
  lock : ∀ i r, s.receiver = some (i, r) → ∃ t, s.tasks[i]? = some t ∧ t.phase = .reading
  readers : ∀ i t, s.tasks[i]? = some t → t.phase = .reading → ∃ r, s.receiver = some (i, r)
  orphans : ∀ i t, s.tasks[i]? = some t → t.phase ≠ .ended → s.demux = some i ∨ t.aborted = true

theorem tended_new : Tended new where
  held _ _ h := by cases h
  lock _ _ h := by cases h
  readers _ _ h := by simp [new] at h
  orphans _ _ h := by simp [new] at h

namespace Tended

/-- Most steps leave the tasks alone, and the lock with who has it. -/
theorem frame (h : Tended s) (htasks : s'.tasks = s.tasks) (hdemux : s'.demux = s.demux)
    (hreceiver : s'.receiver.map Prod.fst = s.receiver.map Prod.fst)
    (hheld : ∀ c task, s'.channel = some c → c.stage = .attached task ∨
      c.stage = .unregistered task ∨ c.stage = .closed task → s'.demux = some task) :
    Tended s' where
  held := hheld
  lock i r hr := by
    rw [hr] at hreceiver
    obtain ⟨⟨j, r'⟩, hj, rfl⟩ := Option.map_eq_some_iff.mp hreceiver.symm
    rw [htasks]
    exact h.lock _ r' hj
  readers i t ht hphase := by
    rw [htasks] at ht
    obtain ⟨r, hr⟩ := h.readers i t ht hphase
    rw [hr] at hreceiver
    obtain ⟨⟨j, r'⟩, hj, rfl⟩ := Option.map_eq_some_iff.mp hreceiver
    exact ⟨r', hj⟩
  orphans := by
    rw [htasks, hdemux]
    exact h.orphans

/-- A task begins to read, or it ends. -/
theorem move (h : Tended s) {i : ℕ} {phase : Phase}
    (htasks : s'.tasks = s.tasks.modify i fun t => { t with phase := phase })
    (hother : ∀ j r, s.receiver = some (j, r) → j = i)
    (hreceiver : s'.receiver = if phase = .reading then some (i, .start) else none)
    (hi : ∃ t, s.tasks[i]? = some t ∧ t.phase ≠ .ended) (hdemux : s'.demux = s.demux)
    (hchannel : s'.channel = s.channel) : Tended s' where
  held := by
    rw [hchannel, hdemux]
    exact h.held
  lock j r hr := by
    rw [hreceiver] at hr
    split_ifs at hr with hphase
    cases hr
    obtain ⟨t, ht, -⟩ := hi
    rw [htasks, List.getElem?_modify_eq, ht]
    exact ⟨_, rfl, hphase⟩
  readers j t ht hphase := by
    rw [htasks] at ht
    by_cases hj : i = j
    · subst hj
      obtain ⟨t', ht', -⟩ := hi
      rw [List.getElem?_modify_eq, ht'] at ht
      cases ht
      rw [hreceiver, if_pos hphase]
      exact ⟨_, rfl⟩
    · rw [List.getElem?_modify_ne _ _ hj] at ht
      obtain ⟨r, hr⟩ := h.readers j t ht hphase
      exact absurd (hother j r hr).symm hj
  orphans j t ht hphase := by
    rw [htasks] at ht
    rw [hdemux]
    by_cases hj : i = j
    · subst hj
      obtain ⟨t', ht', hphase'⟩ := hi
      rw [List.getElem?_modify_eq, ht'] at ht
      cases ht
      exact h.orphans i t' ht' hphase'
    · rw [List.getElem?_modify_ne _ _ hj] at ht
      exact h.orphans j t ht hphase

/-- The abort finds a task at the lock. -/
theorem cancelWaiting (h : Tended s) {i : ℕ} (hi : s.tasks[i]? = some ⟨.waiting, true⟩) :
    Tended { s with tasks := s.tasks.modify i fun t => { t with phase := .ended } } where
  held := h.held
  lock j r hr := by
    obtain ⟨t, ht, hphase⟩ := h.lock j r hr
    have hj : i ≠ j := by
      rintro rfl
      cases hi.symm.trans ht
      cases hphase
    exact ⟨t, (List.getElem?_modify_ne _ _ hj).trans ht, hphase⟩
  readers j t ht hphase := by
    by_cases hj : i = j
    · subst hj
      simp only [List.getElem?_modify_eq, hi] at ht
      cases ht
      cases hphase
    · exact h.readers j t ((List.getElem?_modify_ne _ _ hj).symm.trans ht) hphase
  orphans j t ht hphase := by
    by_cases hj : i = j
    · subst hj
      simp only [List.getElem?_modify_eq, hi] at ht
      cases ht
      exact absurd rfl hphase
    · exact h.orphans j t ((List.getElem?_modify_ne _ _ hj).symm.trans ht) hphase

/-- The second half of `channel` adds a task, unless the weak reference can be upgraded. -/
theorem runDemux (h : Tended s) (c : Channel) : Tended (s.runDemux c) := by
  rw [Connection.runDemux]
  split
  · rename_i task hdemux
    refine h.frame rfl rfl rfl fun c' task' hc' hstage => ?_
    cases hc'
    simp only [Stage.attached.injEq, reduceCtorEq, or_false] at hstage
    exact hstage ▸ hdemux
  · rename_i hdemux
    refine ⟨fun c' task' hc' hstage => ?_, fun i r hr => ?_, fun i t ht hphase => ?_,
      fun i t ht hphase => ?_⟩
    · cases hc'
      simp only [Stage.attached.injEq, reduceCtorEq, or_false] at hstage
      exact congrArg some hstage
    · obtain ⟨t, ht, hphase⟩ := h.lock i r hr
      obtain ⟨hlt, -⟩ := List.getElem?_eq_some_iff.mp ht
      exact ⟨t, (List.getElem?_append_left hlt).trans ht, hphase⟩
    all_goals
      rw [List.getElem?_append] at ht
      split_ifs at ht with hi
    · exact h.readers i t ht hphase
    · rw [List.getElem?_singleton] at ht
      split_ifs at ht
      cases ht
      cases hphase
    · rcases h.orphans i t ht hphase with hsome | haborted
      · rw [hdemux] at hsome
        cases hsome
      · exact .inr haborted
    · rw [List.getElem?_singleton] at ht
      split_ifs at ht with h0
      have hi' : i = s.tasks.length := by omega
      exact .inl (congrArg some hi'.symm)

/-- The end of a drop aborts the task of the demux. -/
theorem dropDemux (h : Tended s) {c : Channel} {task : ℕ} (hc : s.channel = some c)
    (hstage : c.stage = .closed task) : Tended (s.dropDemux task) where
  held c' task' hc' := by cases hc'
  lock i r hr := by
    obtain ⟨t, ht, hphase⟩ := h.lock i r hr
    simp only [Connection.dropDemux, List.getElem?_modify, ht]
    exact ⟨_, rfl, by split_ifs <;> exact hphase⟩
  readers i t ht hphase := by
    simp only [Connection.dropDemux, List.getElem?_modify] at ht
    obtain ⟨t', ht', rfl⟩ := Option.map_eq_some_iff.mp ht
    refine h.readers i t' ht' ?_
    split_ifs at hphase <;> exact hphase
  orphans i t ht hphase := by
    have hdemux := h.held c task hc (.inr (.inr hstage))
    by_cases hi : task = i
    · subst hi
      simp only [Connection.dropDemux, List.getElem?_modify_eq] at ht
      obtain ⟨t', -, rfl⟩ := Option.map_eq_some_iff.mp ht
      exact .inr rfl
    · have ht' := (List.getElem?_modify_ne _ _ hi).symm.trans ht
      rcases h.orphans i t ht' hphase with hsome | haborted
      · rw [hdemux] at hsome
        exact absurd (Option.some.inj hsome) hi
      · exact .inr haborted

/-- **The step lemma.** -/
theorem does (h : Tended s) (hregistered : Registered s) (hdoes : Does s a s') : Tended s' := by
  cases hdoes with
  | register idx hnone _ =>
      refine h.frame rfl rfl rfl fun c task hc hstage => ?_
      cases hc
      simp at hstage
  | runDemux _ _ => exact h.runDemux _
  | @unregister c task hc hstage _ =>
      refine h.frame rfl rfl rfl fun c' task' hc' hstage' => ?_
      cases hc'
      simp only [Stage.unregistered.injEq, reduceCtorEq, or_false, false_or] at hstage'
      exact hstage' ▸ h.held c task hc (.inl hstage)
  | @dropReceiver c task hc hstage =>
      refine h.frame rfl rfl rfl fun c' task' hc' hstage' => ?_
      cases hc'
      simp only [Stage.closed.injEq, reduceCtorEq, false_or] at hstage'
      exact hstage' ▸ h.held c task hc (.inr (.inl hstage))
  | dropDemux hc hstage => exact h.dropDemux hc hstage
  | @acquire i t ht hphase hnone =>
      refine h.move rfl (fun j r hr => ?_) rfl ⟨t, ht, by simp [hphase]⟩ rfl rfl
      rw [hnone] at hr
      cases hr
  | @read i r _ _ hreceiver _ _ _ => exact h.frame rfl rfl (by rw [hreceiver]; rfl) h.held
  | @dispatch i f hreceiver =>
      rw [hregistered.dispatch_eq]
      exact h.frame rfl rfl (by rw [hreceiver]; rfl) h.held
  | @readFails i r hreceiver _ _ _ =>
      obtain ⟨t, ht, hphase⟩ := h.lock i r hreceiver
      refine h.move rfl (fun j r' hr => ?_) rfl ⟨t, ht, by simp [hphase]⟩ rfl rfl
      rw [hreceiver] at hr
      cases hr
      rfl
  | cancelWaiting ht => exact h.cancelWaiting ht
  | @cancelReading i r hreceiver _ ht =>
      refine h.move rfl (fun j r' hr => ?_) rfl ⟨_, ht, by simp⟩ rfl rfl
      rw [hreceiver] at hr
      cases hr
      rfl
  | _ => exact h.frame rfl rfl rfl h.held

/-- **The run lemma.** -/
theorem trace (h : Trace new as s) : Tended s := by
  have hinv : Registered s ∧ Tended s := by
    refine h.invariant (I := fun _ s => Registered s ∧ Tended s) ⟨registered_new, tended_new⟩ ?_
    rintro as a s s' ⟨hregistered, htended⟩ hdoes
    exact ⟨hregistered.does hdoes, htended.does hregistered hdoes⟩
  exact hinv.2

end Tended

theorem failed_dispatch (i : ℕ) (f : Frame) (s : Connection) :
    (s.dispatch i f).failed = s.failed := by
  rw [dispatch]
  split
  · rfl
  split
  · rfl
  split <;> rfl

/-- A failure of the transport stays. -/
theorem failed_of_trace (h : Trace s as s') (hfailed : s'.failed = false) :
    s.failed = false ∧ ∀ i, .readFails i ∉ as := by
  have hinv : s'.failed = false → s.failed = false ∧ ∀ i, .readFails i ∉ as := by
    refine h.invariant (I := fun as s' => s'.failed = false →
      s.failed = false ∧ ∀ i, .readFails i ∉ as) (fun h => ⟨h, by simp⟩) ?_
    intro as a t t' ih hdoes hfailed'
    have hkept : t.failed = false ∧ ∀ i, a ≠ .readFails i := by
      cases hdoes with
      | fail => cases hfailed'
      | readFails _ _ _ hfailed =>
          rw [show t.failed = false from hfailed'] at hfailed
          cases hfailed
      | runDemux _ _ =>
          rw [Connection.runDemux] at hfailed'
          split at hfailed' <;> exact ⟨hfailed', by simp⟩
      | dispatch _ =>
          rw [failed_dispatch] at hfailed'
          exact ⟨hfailed', by simp⟩
      | _ => exact ⟨hfailed', by simp⟩
    obtain ⟨hs, has⟩ := ih hkept.1
    refine ⟨hs, fun i hi => ?_⟩
    rcases List.mem_append.mp hi with hi | hi
    · exact has i hi
    · exact hkept.2 i (List.mem_singleton.mp hi).symm
  exact hinv hfailed

/-! ### Until nothing can move -/

/-- A step of the tasks, while everybody else stands still. -/
def Serve (s s' : Connection) : Prop := ∃ a, a.Demux ∧ Does s a s'

/-- What the tasks have before them. -/
def load (s : Connection) : ℕ :=
  2 * s.unread.length + s.part.length + (s.tasks.map fun t => t.phase.left).sum

theorem sum_modify {α : Type} (g : α → ℕ) (f : α → α) {xs : List α} {i : ℕ} {x : α}
    (h : xs[i]? = some x) : ((xs.modify i f).map g).sum + g x = (xs.map g).sum + g (f x) := by
  induction xs generalizing i with
  | nil => cases h
  | cons y ys ih =>
      cases i with
      | zero =>
          cases h
          simp only [List.modify_zero_cons, List.map_cons, List.sum_cons]
          omega
      | succ i =>
          have hi := ih h
          simp only [List.modify_succ_cons, List.map_cons, List.sum_cons]
          omega

/-- The demux is that of `task`, and nothing has failed. -/
structure Serving (arrived : Bytes) (task : ℕ) (s : Connection) : Prop where
  registered : Registered s
  tended : Tended s
  attended : Attended s
  sound : s.failed = false
  demux : s.demux = some task
  arrived : s.arrived = arrived

namespace Serving

variable {arrived : Bytes} {task : ℕ}

/-- **The step lemma.** -/
theorem serve (h : Serving arrived task s) (ha : a.Demux) (hdoes : Does s a s') :
    Serving arrived task s' ∧ s'.load < s.load := by
  have hreads : ∀ i, a ≠ .readFails i := by
    rintro i rfl
    cases hdoes with
    | readFails _ _ _ hfailed =>
        rw [h.sound] at hfailed
        cases hfailed
  have hregistered := h.registered.does hdoes
  have htended := h.tended.does h.registered hdoes
  have hattended := h.attended.does h.registered hdoes hreads
  cases hdoes with
  | @acquire i t ht hphase hnone =>
      refine ⟨⟨hregistered, htended, hattended, h.sound, h.demux, h.arrived⟩, ?_⟩
      have hsum := sum_modify (fun t => t.phase.left)
        (fun t : Task => { t with phase := .reading }) ht
      have hpart : (s.acquire i).part = s.part := (part_of_none hnone).symm
      rw [load, load, hpart]
      simp only [Connection.acquire, hphase, Phase.left] at hsum ⊢
      omega
  | @read i r chunk rest hreceiver hunread hchunk hlen =>
      refine ⟨⟨hregistered, htended, hattended, h.sound, h.demux, ?_⟩, ?_⟩
      · rw [← h.arrived]
        simp [Connection.arrived, read, hunread]
      · have hpart : (s.read i r chunk rest hlen).part = s.part ++ chunk := by
          rw [part_of_receiver hreceiver]
          exact Reader.part_fill r chunk hlen
        have hpos := List.length_pos_iff.mpr hchunk
        rw [load, load, hpart, hunread]
        simp only [read, List.length_append]
        omega
  | @dispatch i f hreceiver =>
      rw [h.registered.dispatch_eq] at hregistered htended hattended ⊢
      refine ⟨⟨hregistered, htended, hattended, h.sound, h.demux, h.arrived⟩, ?_⟩
      have hpart : (s.deliver i f).part = [] := rfl
      have hpos : 0 < (Reader.complete f).part.length := by
        rw [Reader.part, f.length_bytes]
        exact Nat.add_pos_left format.size_pos _
      rw [load, load, hpart, part_of_receiver hreceiver]
      simp only [deliver, List.length_nil]
      omega
  | @cancelWaiting i ht =>
      refine ⟨⟨hregistered, htended, hattended, h.sound, h.demux, h.arrived⟩, ?_⟩
      have hsum := sum_modify (fun t => t.phase.left)
        (fun t : Task => { t with phase := .ended }) ht
      simp only [load, part, Phase.left] at hsum ⊢
      omega
  | @cancelReading i r hreceiver hneed ht =>
      refine ⟨⟨hregistered, htended, hattended, h.sound, h.demux, h.arrived⟩, ?_⟩
      have hsum := sum_modify (fun t => t.phase.left)
        (fun t : Task => { t with phase := .ended }) ht
      have hpart : (s.release i (r.part ≠ [])).part = [] := rfl
      rw [load, load, hpart]
      simp only [release, Phase.left, List.length_nil] at hsum ⊢
      omega
  | readFails _ _ _ _ => exact absurd rfl (hreads _)
  | _ => exact absurd ha (by simp [Action.Demux])

/-- When no task can move, that of the demux waits for bytes, with the lock. -/
theorem of_stuck (h : Serving arrived task s) (hstuck : ∀ s', ¬ Serve s s') :
    s.unread = [] ∧ (∃ r, s.receiver = some (task, r) ∧ 0 < r.need) ∧
      ∀ i t, s.tasks[i]? = some t → i ≠ task → t.phase = .ended := by
  obtain ⟨t, ht, haborted, hphase⟩ := h.attended.running task h.demux
  cases hr : s.receiver with
  | none =>
      -- it could have the lock
      have hwaiting : t.phase = .waiting := by
        cases hphase' : t.phase with
        | waiting => rfl
        | reading =>
            obtain ⟨r, hr'⟩ := h.tended.readers task t ht hphase'
            rw [hr] at hr'
            cases hr'
        | ended => exact absurd hphase' hphase
      exact absurd ⟨.acquire task, trivial, .acquire ht hwaiting hr⟩ (hstuck _)
  | some p =>
      obtain ⟨i, r⟩ := p
      have hneed : 0 < r.need := by
        rw [Nat.pos_iff_ne_zero]
        intro hneed
        obtain ⟨f, rfl⟩ := Reader.complete_of_need hneed
        exact hstuck _ ⟨.dispatch i f, trivial, .dispatch hr⟩
      have hunread : s.unread = [] := by
        by_contra hne
        obtain ⟨x, xs, hx⟩ := List.exists_cons_of_ne_nil hne
        have hlen : [x].length ≤ r.need := hneed
        exact hstuck _ ⟨.read i [x], trivial, .read hr hx (by simp) hlen⟩
      obtain ⟨⟨phase, aborted⟩, hi, rfl⟩ := h.tended.lock i r hr
      have hown : i = task := by
        rcases h.tended.orphans i _ hi (by simp) with hdemux | rfl
        · rw [h.demux] at hdemux
          exact (Option.some.inj hdemux).symm
        · exact absurd ⟨.cancelReading i, trivial, .cancelReading hr hneed hi⟩ (hstuck _)
      subst hown
      refine ⟨hunread, ⟨r, rfl, hneed⟩, fun j t hj hne => ?_⟩
      by_contra hphase
      rcases h.tended.orphans j t hj hphase with hdemux | haborted
      · rw [h.demux] at hdemux
        exact hne (Option.some.inj hdemux).symm
      · obtain ⟨phase, aborted⟩ := t
        obtain rfl : aborted = true := haborted
        cases phase with
        | waiting => exact hstuck _ ⟨.cancelWaiting j, trivial, .cancelWaiting hj⟩
        | reading =>
            obtain ⟨r', hr'⟩ := h.tended.readers j _ hj rfl
            rw [hr] at hr'
            exact hne (Prod.mk.inj (Option.some.inj hr')).1.symm
        | ended => exact hphase rfl

end Serving

/-- What the tasks come to, if everybody else stands still. -/
structure Serves (task : ℕ) (s : Connection) : Prop where
  reads : ∀ s', ReflTransGen Serve s s' → (∀ s'', ¬ Serve s' s'') →
    s'.history.consumed = s.arrived ∧ (∃ r, s'.receiver = some (task, r) ∧ 0 < r.need) ∧
      ∀ i t, s'.tasks[i]? = some t → i ≠ task → t.phase = .ended
  ends : ¬ ∃ run : ℕ → Connection, run 0 = s ∧ ∀ i, Serve (run i) (run (i + 1))

end Connection

open Connection

/-- **Whatever arrives is read.** A connection has come to some state, over any number of
channels, and the transport has not failed. If a channel is open, the tasks read all that
has arrived, in whatever order they move; in the end that of the open channel has the
lock, and all others are over. -/
theorem serves {s : Connection} {as : List Action} (h : Trace new as s) (hfailed : s.failed = false)
    {c : Channel} {task : ℕ} (hc : s.channel = some c) (hstage : c.stage = .attached task) :
    Serves task s := by
  have hattended := Attended.trace h (failed_of_trace h hfailed).2
  have hserving : Serving s.arrived task s :=
    ⟨Registered.trace h, Tended.trace h, hattended, hfailed,
      hattended.attached c task hc hstage, rfl⟩
  refine ⟨fun s' hrun hstuck => ?_, ?_⟩
  · have hserving' : Serving s.arrived task s' :=
      Transition.invariant (fun _ _ hb ⟨_, ha, hdoes⟩ => (hb.serve ha hdoes).1) hrun hserving
    obtain ⟨hunread, hlock, hothers⟩ := hserving'.of_stuck hstuck
    have harrived := hserving'.arrived
    rw [Connection.arrived, hunread, List.append_nil] at harrived
    exact ⟨harrived, hlock, hothers⟩
  · exact Transition.terminates (fun _ _ hb ⟨_, ha, hdoes⟩ => (hb.serve ha hdoes).1) load
      (fun _ _ hb ⟨_, ha, hdoes⟩ => (hb.serve ha hdoes).2) hserving

/-- A channel is dropped while its task waits for a header, and opened again. The aborted task
has the lock when a frame arrives. -/
theorem serves_reopened :
    ∃ s : Connection, s.tasks = [⟨.reading, true⟩, ⟨.waiting, false⟩] ∧ s.unread = zeros.bytes ∧
      Serves 1 s := by
  have h₁ := Transition.Trace.nil.snoc (Does.register (s := new) 2 rfl rfl)
  have h₂ := h₁.snoc (.runDemux rfl rfl)
  have h₃ := h₂.snoc (.acquire (i := 0) (t := ⟨.waiting, false⟩) rfl rfl rfl)
  have h₄ := h₃.snoc (.unregister (c := ⟨2, 0, .attached 0⟩) rfl rfl rfl)
  have h₅ := (h₄.snoc (.dropReceiver rfl rfl)).snoc (.dropDemux rfl rfl)
  have h₆ := (h₅.snoc (.register 2 rfl rfl)).snoc (.runDemux rfl rfl)
  have h₇ := h₆.snoc (.arrive zeros.bytes rfl)
  exact ⟨_, rfl, rfl, serves h₇ rfl rfl rfl⟩

end Ouroboros.Mux
