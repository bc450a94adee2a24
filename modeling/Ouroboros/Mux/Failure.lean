import Ouroboros.Mux.Routing

/-!
The end of the transport.

Nothing here returns an error. A read that fails is unwrapped and ends the demux
task in a panic. The sender of the open channel stays in the map, so its receiver
waits on, and nobody is left to fill the queue. A write that fails is unwrapped as
well. So a failure surfaces in no case: all is well exactly as long as no read and
no write fails.
-/

namespace Ouroboros.Mux

open Framing Connection BigEndian

/-! ### Reading -/

namespace Connection

variable {s s' : Connection} {a : Action} {as : List Action}

/-- The task of the open channel has ended. Its queue is empty, and open, since its
sender is in the map. -/
def Stranded (s : Connection) : Prop :=
  ∃ c task t, s.channel = some c ∧ c.stage = .attached task ∧
    s.queues[c.receiver]? = some ⟨[], true⟩ ∧ s.channels c.idx = some c.receiver ∧
    s.tasks[task]? = some t ∧ t.phase = .ended

/-- The next use of the connection panics: the mutex is poisoned, or the open channel
is without its sender, and `recv` unwraps `None`. -/
def Broken (s : Connection) : Prop :=
  s.poisoned = true ∨ ∃ c task, s.channel = some c ∧ c.stage = .attached task ∧
    s.channels c.idx ≠ some c.receiver

/-- The task panics: a read has failed, the mutex is poisoned, or the receiver of a
sender in the map is gone. -/
def Panics (s : Connection) : Action → Prop
  | .readFails _ => True
  | .dispatch _ f => s.poisoned = true ∨ ∃ n, s.channels (idxOf f.header) = some n ∧
      ∀ payloads, s.queues[n]? ≠ some ⟨payloads, true⟩
  | _ => False

/-- In no state of the trace a channel is stranded, or either side is about to panic. -/
def Surfaces (as : List Action) : Prop :=
  ∀ bs s, bs <+: as → Trace new bs s →
    ¬ Stranded s ∧ ¬ Broken s ∧ ∀ a, bs ++ [a] <+: as → ¬ Panics s a

/-- The task of the open channel has not been aborted and has not ended. -/
structure Attended (s : Connection) : Prop where
  attached : ∀ c task, s.channel = some c → c.stage = .attached task → s.demux = some task
  running : ∀ task, s.demux = some task →
    ∃ t, s.tasks[task]? = some t ∧ t.aborted = false ∧ t.phase ≠ .ended

theorem attended_new : Attended new where
  attached _ _ h := by cases h
  running _ h := by cases h

namespace Attended

theorem frame (h : Attended s) (hchannel : s'.channel = s.channel) (hdemux : s'.demux = s.demux)
    (htasks : s'.tasks = s.tasks) : Attended s' where
  attached := by
    rw [hchannel, hdemux]
    exact h.attached
  running := by
    rw [hdemux, htasks]
    exact h.running

/-- The phase of another task, or one that is not the end. -/
theorem modify (h : Attended s) {i : ℕ} {phase : Phase}
    (hi : (∃ t, s.tasks[i]? = some t ∧ t.aborted = true) ∨ phase ≠ .ended)
    (hchannel : s'.channel = s.channel) (hdemux : s'.demux = s.demux)
    (htasks : s'.tasks = s.tasks.modify i fun t => { t with phase }) : Attended s' where
  attached := by
    rw [hchannel, hdemux]
    exact h.attached
  running task hd := by
    rw [hdemux] at hd
    obtain ⟨t, ht, haborted, hphase⟩ := h.running task hd
    rw [htasks, List.getElem?_modify, ht]
    by_cases heq : i = task
    · subst heq
      rcases hi with ⟨t', ht', haborted'⟩ | hi
      · rw [ht] at ht'
        cases ht'
        rw [haborted] at haborted'
        cases haborted'
      · exact ⟨{ t with phase }, by simp, haborted, hi⟩
    · exact ⟨t, by simp [heq], haborted, hphase⟩

theorem runDemux (h : Attended s) (c : Channel) : Attended (s.runDemux c) := by
  rw [Connection.runDemux]
  split
  · rename_i task hdemux
    refine ⟨?_, h.running⟩
    intro c' task' hc' hstage
    cases hc'
    cases hstage
    exact hdemux
  · refine ⟨?_, ?_⟩
    · intro c' task' hc' hstage
      cases hc'
      cases hstage
      rfl
    · intro task hdemux
      cases hdemux
      exact ⟨⟨.waiting, false⟩, List.getElem?_concat_length, rfl, by decide⟩

/-- **The step lemma.** -/
theorem does (h : Attended s) (hregistered : Registered s) (hdoes : Does s a s')
    (ha : ∀ i, a ≠ .readFails i) : Attended s' := by
  cases hdoes with
  | register idx _ _ =>
      refine ⟨?_, h.running⟩
      intro c task hc hstage
      cases hc
      cases hstage
  | runDemux _ _ => exact h.runDemux _
  | unregister _ _ _ =>
      refine ⟨?_, h.running⟩
      intro c task hc hstage
      cases hc
      cases hstage
  | dropReceiver _ _ =>
      refine ⟨?_, h.running⟩
      intro c task hc hstage
      cases hc
      cases hstage
  | dropDemux _ _ =>
      refine ⟨?_, ?_⟩
      · intro c task hc
        cases hc
      · intro task hdemux
        cases hdemux
  | acquire _ _ _ => exact h.modify (.inr (by decide)) rfl rfl rfl
  | @dispatch i f _ =>
      rw [hregistered.dispatch_eq]
      exact h.frame rfl rfl rfl
  | readFails _ _ _ _ => exact absurd rfl (ha _)
  | cancelWaiting ht => exact h.modify (.inl ⟨_, ht, rfl⟩) rfl rfl rfl
  | cancelReading _ _ ht => exact h.modify (.inl ⟨_, ht, rfl⟩) rfl rfl rfl
  | _ => exact h.frame rfl rfl rfl

theorem not_stranded (h : Attended s) : ¬ Stranded s := by
  rintro ⟨c, task, t, hc, hstage, -, -, ht, hended⟩
  obtain ⟨t', ht', -, hphase⟩ := h.running task (h.attached c task hc hstage)
  rw [ht] at ht'
  cases ht'
  exact hphase hended

/-- **The run lemma.** -/
theorem trace (h : Trace new as s) (hreads : ∀ i, .readFails i ∉ as) : Attended s := by
  have hinv : Trace new as s ∧ ((∀ i, .readFails i ∉ as) → Attended s) := by
    refine h.invariant (I := fun as s => Trace new as s ∧ ((∀ i, .readFails i ∉ as) → Attended s))
      ⟨.nil, fun _ => attended_new⟩ ?_
    rintro as a s s' ⟨htrace, hs⟩ hdoes
    refine ⟨htrace.snoc hdoes, fun hreads => ?_⟩
    have hregistered := Registered.trace htrace
    refine (hs fun i hi => hreads i (List.mem_append_left _ hi)).does hregistered hdoes ?_
    rintro i rfl
    exact hreads i (List.mem_append_right _ List.mem_cons_self)
  exact hinv.2 hreads

end Attended

theorem not_broken (h : Registered s) : ¬ Broken s := by
  rintro (hpoisoned | ⟨c, task, hc, hstage, hsender⟩)
  · rw [h.sound] at hpoisoned
    cases hpoisoned
  · have hopen : c.isOpen = true := by rw [Channel.isOpen, hstage]
    rw [h.channels, registry_of_open hc hopen, Function.update_self] at hsender
    exact hsender rfl

/-- A dispatch is no cause for a panic. -/
theorem not_panics (h : Registered s) (ha : ∀ i, a ≠ .readFails i) : ¬ Panics s a := by
  cases a with
  | readFails i => exact absurd rfl (ha i)
  | dispatch i f =>
      rintro (hpoisoned | ⟨n, hn, hdead⟩)
      · rw [h.sound] at hpoisoned
        cases hpoisoned
      · rw [h.channels] at hn
        obtain ⟨payloads, hq⟩ := h.queue_of_registry hn
        exact hdead payloads hq
  | _ => exact id

/-- Nothing is stranded and nothing panics exactly as long as no read fails. -/
theorem surfaces_iff (h : Trace new as s) : Surfaces as ↔ ∀ i, .readFails i ∉ as := by
  constructor
  · intro hsurfaces i hi
    obtain ⟨bs, cs, rfl⟩ := List.append_of_mem hi
    obtain ⟨t, hbs, -⟩ := h.split
    have hprefix : bs ++ [.readFails i] <+: bs ++ .readFails i :: cs := ⟨cs, by simp⟩
    exact (hsurfaces bs t (List.prefix_append _ _) hbs).2.2 _ hprefix trivial
  · intro hreads bs t hbs htrace
    have hreads' : ∀ i, .readFails i ∉ bs := fun i hi => hreads i (hbs.subset hi)
    have hregistered := Registered.trace htrace
    refine ⟨(Attended.trace htrace hreads').not_stranded, not_broken hregistered, ?_⟩
    intro a ha
    apply not_panics hregistered
    rintro i rfl
    exact hreads i (ha.subset (List.mem_append_right _ List.mem_cons_self))

/-! ### What is left of a connection -/

/-- The transport has failed and no frame is complete. -/
structure Silent (s : Connection) : Prop where
  failed : s.failed = true
  unread : s.unread = []
  incomplete : ∀ i r, s.receiver = some (i, r) → 0 < r.need

namespace Silent

theorem readFails {i : ℕ} (hdoes : Does s (.readFails i) s') : Silent s' := by
  cases hdoes with
  | readFails _ _ hunread hfailed => exact ⟨hfailed, hunread, fun _ _ hr => by cases hr⟩

theorem does (h : Silent s) (hdoes : Does s a s') : Silent s' ∧ ∀ i f, a ≠ .dispatch i f := by
  have hkept : ∀ {t : Connection}, t.failed = true → t.unread = s.unread →
      t.receiver = s.receiver → Silent t := by
    intro t hfailed hunread hreceiver
    exact ⟨hfailed, hunread.trans h.unread, by rw [hreceiver]; exact h.incomplete⟩
  cases hdoes with
  | arrive chunk hfailed =>
      rw [h.failed] at hfailed
      cases hfailed
  | read _ hunread hne _ =>
      rw [h.unread] at hunread
      exact absurd (List.append_eq_nil_iff.mp hunread.symm).1 hne
  | dispatch hr =>
      have hneed := h.incomplete _ _ hr
      exact absurd hneed (Nat.lt_irrefl 0)
  | acquire _ _ _ =>
      refine ⟨⟨h.failed, h.unread, ?_⟩, by simp⟩
      intro i r hr
      cases hr
      exact Nat.zero_lt_succ _
  | readFails _ _ _ _ => exact ⟨⟨h.failed, h.unread, fun _ _ hr => by cases hr⟩, by simp⟩
  | cancelReading _ _ _ => exact ⟨⟨h.failed, h.unread, fun _ _ hr => by cases hr⟩, by simp⟩
  | runDemux _ _ =>
      rw [runDemux]
      split
      · exact ⟨hkept h.failed rfl rfl, by simp⟩
      · exact ⟨hkept h.failed rfl rfl, by simp⟩
  | fail => exact ⟨hkept rfl rfl rfl, by simp⟩
  | _ => exact ⟨hkept h.failed rfl rfl, by simp⟩

theorem trace (h : Silent s) (htrace : Trace s as s') :
    Silent s' ∧ ∀ i f, .dispatch i f ∉ as := by
  refine htrace.invariant (I := fun as s => Silent s ∧ ∀ i f, .dispatch i f ∉ as)
    ⟨h, by simp⟩ ?_
  rintro as a s s' ⟨hs, has⟩ hdoes
  obtain ⟨hs', ha⟩ := hs.does hdoes
  refine ⟨hs', fun i f hmem => ?_⟩
  rcases List.mem_append.mp hmem with hmem | hmem
  · exact has i f hmem
  · exact ha i f (List.mem_singleton.mp hmem).symm

theorem routed_nil (h : ∀ i f, .dispatch i f ∉ as) (n : ℕ) (before : List Action) :
    routed n before as = [] := by
  induction as generalizing before with
  | nil => rfl
  | cons a as ih =>
      have hroute : a.route n (registered before) = [] := by
        cases a with
        | dispatch i f => exact absurd List.mem_cons_self (h i f)
        | _ => rfl
      rw [routed, hroute, ih fun i f hi => h i f (List.mem_cons_of_mem a hi)]
      rfl

end Silent

/-- Then `recv` returns what its queue holds. It never returns when that is exhausted. -/
theorem recv_silent {before : List Action} (hbefore : Trace new before s) (hs : Silent s)
    (h : Trace s as s') (n : ℕ) : taken n as ++ s'.payloads n = s.payloads n := by
  rw [payloads_trace hbefore h, Silent.routed_nil (hs.trace h).2 n, List.append_nil]

end Connection

/-! ### Writing -/

variable {T : Transport} {timestamp : UInt32} {idx : UInt16} {payload : Payload} {written : Bytes}

/-- One of the four writes of a frame fails. -/
inductive WriteFails (T : Transport) (timestamp : UInt32) (idx : UInt16) (payload : Payload)
    (written : Bytes) : Prop
  | timestamp : Refuses T written (bytes 4 timestamp.toNat) →
      WriteFails T timestamp idx payload written
  | idx : Refuses T (written ++ bytes 4 timestamp.toNat) (bytes 2 idx.toNat) →
      WriteFails T timestamp idx payload written
  | length : Refuses T (written ++ bytes 4 timestamp.toNat ++ bytes 2 idx.toNat)
        (bytes 2 (UInt16.ofNat payload.length).toNat) →
      WriteFails T timestamp idx payload written
  | payload : T.accept (written ++ bytes 4 timestamp.toNat ++ bytes 2 idx.toNat ++
        bytes 2 (UInt16.ofNat payload.length).toNat) payload = none →
      WriteFails T timestamp idx payload written

/-- A call that does not panic, and returns an error if a write has failed. -/
def Reports (r : Written) (failed : Prop) : Prop :=
  (∀ e, r.1 ≠ .panic e) ∧ (failed → ∃ e, r.1 = .err e)

theorem Written.andThen_panic {r : Written} {e : Error} (h : r.1 = .panic e)
    (next : Bytes → Written) : (r.andThen next).1 = .panic e := by
  obtain ⟨o, written⟩ := r
  obtain rfl : o = .panic e := h
  rfl

/-- A word of the header is written, or the call panics. -/
theorem word_cases (T : Transport) (written word : Bytes) (next : Bytes → Written) :
    Refuses T written word ∧ (∃ e, ((writeAll T written word).andThen next).1 = .panic e) ∨
      ¬ Refuses T written word ∧
        (writeAll T written word).andThen next = next (written ++ word) := by
  by_cases h : Refuses T written word
  · obtain ⟨e, he⟩ := writeAll_of_refuses h
    exact .inl ⟨h, e, Written.andThen_panic he next⟩
  · refine .inr ⟨h, ?_⟩
    rw [writeAll_of_not_refuses h]
    rfl

/-- The four writes are unwrapped. -/
theorem send_cases (T : Transport) (timestamp : UInt32) (idx : UInt16) (payload : Payload)
    (written : Bytes) :
    WriteFails T timestamp idx payload written ∧
        (∃ e, (send T timestamp idx payload written).1 = .panic e) ∨
      ¬ WriteFails T timestamp idx payload written ∧
        (send T timestamp idx payload written).1 = .ok () := by
  rw [send]
  rcases word_cases T written (bytes 4 timestamp.toNat) _ with ⟨h₁, hpanic⟩ | ⟨h₁, hnext⟩
  · exact .inl ⟨.timestamp h₁, hpanic⟩
  rw [hnext]
  rcases word_cases T _ (bytes 2 idx.toNat) _ with ⟨h₂, hpanic⟩ | ⟨h₂, hnext⟩
  · exact .inl ⟨.idx h₂, hpanic⟩
  rw [hnext]
  rcases word_cases T _ (bytes 2 (UInt16.ofNat payload.length).toNat) _
    with ⟨h₃, hpanic⟩ | ⟨h₃, hnext⟩
  · exact .inl ⟨.length h₃, hpanic⟩
  rw [hnext, write]
  cases h₄ : T.accept (written ++ bytes 4 timestamp.toNat ++ bytes 2 idx.toNat ++
      bytes 2 (UInt16.ofNat payload.length).toNat) payload with
  | none => exact .inl ⟨.payload h₄, _, rfl⟩
  | some n =>
      refine .inr ⟨?_, rfl⟩
      rintro (h | h | h | h)
      · exact h₁ h
      · exact h₂ h
      · exact h₃ h
      · rw [h₄] at h
        cases h

theorem reports_iff :
    Reports (send T timestamp idx payload written) (WriteFails T timestamp idx payload written) ↔
      ¬ WriteFails T timestamp idx payload written := by
  constructor
  · rintro ⟨hpanic, -⟩ hfails
    rcases send_cases T timestamp idx payload written with ⟨-, e, he⟩ | ⟨hnot, -⟩
    · exact hpanic e he
    · exact hnot hfails
  · intro hnot
    rcases send_cases T timestamp idx payload written with ⟨hfails, -⟩ | ⟨-, hok⟩
    · exact absurd hfails hnot
    · refine ⟨fun e he => ?_, fun hfails => absurd hfails hnot⟩
      rw [hok] at he
      cases he

/-- **A failure of the transport surfaces in no case.** A run has no stranded channel and
no panic if and only if no read fails in it. A call of `send`, whatever has been written
before, returns, with an error if a write has failed, if and only if none of its
writes fails. -/
theorem failure_surfaces_iff {as : List Action} {s : Connection} (h : Trace new as s)
    (T : Transport) (timestamp : UInt32) (idx : UInt16) (payload : Payload) (written : Bytes) :
    (Surfaces as ↔ ∀ i, .readFails i ∉ as) ∧
      (Reports (send T timestamp idx payload written)
          (WriteFails T timestamp idx payload written) ↔
        ¬ WriteFails T timestamp idx payload written) :=
  ⟨surfaces_iff h, reports_iff⟩

/-- A frame arrives on an open channel and is received. -/
def received : List Action :=
  [.register 2 0, .runDemux, .acquire 0, .arrive zeros.bytes, .read 0 zeros.header,
    .read 0 zeros.payload, .dispatch 0 zeros, .recv 0 zeros.payload]

/-- A frame is received, and a payload is written after another frame. -/
theorem failure_surfaces_received :
    (∃ s, Trace new received s) ∧ Surfaces received ∧
      Reports (send ⟨fun _ offered => some offered.length, by simp⟩ 7 2 [1, 2, 3] zeros.bytes)
        (WriteFails ⟨fun _ offered => some offered.length, by simp⟩ 7 2 [1, 2, 3] zeros.bytes) := by
  have h₁ := (trace_open.snoc (Does.acquire (i := 0) (t := ⟨.waiting, false⟩) rfl rfl rfl)).snoc
    (.arrive zeros.bytes rfl)
  have h₂ := h₁.snoc (@Does.read _ 0 _ zeros.header zeros.payload rfl rfl (by decide) (by decide))
  have h₃ := h₂.snoc (@Does.read _ 0 _ zeros.payload [] rfl rfl (by decide) (by decide))
  have htrace : Trace new received _ := (h₃.snoc (Does.dispatch (f := zeros) rfl)).snoc
    (@Does.recv _ ⟨2, 0, .attached 0⟩ 0 zeros.payload [] rfl rfl rfl)
  have hlive : Transport.Live ⟨fun _ offered => some offered.length, by simp⟩ :=
    Transport.Greedy.live fun _ _ => rfl
  have hiff := failure_surfaces_iff htrace ⟨fun _ offered => some offered.length, by simp⟩ 7 2
    [1, 2, 3] zeros.bytes
  refine ⟨⟨_, htrace⟩, hiff.1.mpr (by simp [received]), hiff.2.mpr ?_⟩
  rintro (h | h | h | h)
  · exact hlive.not_refuses h
  · exact hlive.not_refuses h
  · exact hlive.not_refuses h
  · cases h

/-- A socket that is closed. -/
def closed : Transport where
  accept _ _ := none
  accept_le h := by cases h

/-- The trace of a connection with one channel, whose peer closes it. -/
def hangUp : List Action :=
  [.register 2 0, .runDemux, .acquire 0, .fail, .readFails 0]

/-- The state after `hangUp`. -/
def hungUp : Connection :=
  Connection.release 0 false
    { ((register 2 new).runDemux ⟨2, 0, .registered⟩).acquire 0 with failed := true }

/-- The peer closes a connection. Its channel waits for ever, and `send` panics. -/
theorem failure_hidden :
    Trace new hangUp hungUp ∧ Stranded hungUp ∧ ¬ Surfaces hangUp ∧
      (∀ as s, Trace hungUp as s → taken 0 as = []) ∧
      ∃ e, (send closed 0 2 [] []).1 = .panic e := by
  have hacquire := trace_open.snoc (Does.acquire (i := 0) (t := ⟨.waiting, false⟩) rfl rfl rfl)
  have hdoes : Does { ((register 2 new).runDemux ⟨2, 0, .registered⟩).acquire 0 with
      failed := true } (.readFails 0) hungUp :=
    .readFails (i := 0) (r := .start) rfl (by decide) rfl rfl
  have htrace : Trace new hangUp hungUp := (hacquire.snoc .fail).snoc hdoes
  refine ⟨htrace, ?_, ?_, ?_, ?_⟩
  · exact ⟨⟨2, 0, .attached 0⟩, 0, ⟨.ended, false⟩, rfl, rfl, rfl, rfl, rfl, rfl⟩
  · intro hsurfaces
    exact (surfaces_iff htrace).mp hsurfaces 0 (by simp [hangUp])
  · intro as s h
    exact (List.append_eq_nil_iff.mp (recv_silent htrace (Silent.readFails hdoes) h 0)).1
  · exact ⟨_, by rw [send, writeAll, if_neg (by decide)]; rfl⟩

end Ouroboros.Mux
