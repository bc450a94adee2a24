import Ouroboros.Mux.Registry

/-!
Where the frames of a stream go.

In the life of one task, from the moment it gets the lock, the frames it dispatches
are those of the stream, in order and each of them once. The payload of a frame is
put in the queue of the channel that is registered under the frame's index at that
moment. What is registered is read off the actions, and what a queue has received
is what has been taken from it and what it still holds.
-/

namespace Ouroboros.Mux

open Framing Connection

namespace Action

/-- The frame that is dispatched. -/
def frame? : Action → Option Frame
  | .dispatch _ f => some f
  | _ => none

/-- The payload that is taken from a queue. -/
def taken? (n : ℕ) : Action → Option Payload
  | .recv m payload => if m = n then some payload else none
  | _ => none

/-- What is registered after the action. -/
def reregister (registered : UInt16 → Option ℕ) : Action → UInt16 → Option ℕ
  | .register idx n => Function.update registered idx (some n)
  | .unregister idx => Function.update registered idx none
  | _ => registered

/-- The payload that is meant for a queue. -/
def route (n : ℕ) (registered : UInt16 → Option ℕ) : Action → List Payload
  | .dispatch _ f => if registered (idxOf f.header) = some n then [f.payload] else []
  | _ => []

end Action

/-- The queues that are registered after the actions. -/
def registered (as : List Action) : UInt16 → Option ℕ :=
  as.foldl Action.reregister fun _ => none

def frames (as : List Action) : List Frame := as.filterMap Action.frame?

def taken (n : ℕ) (as : List Action) : List Payload := as.filterMap (Action.taken? n)

/-- The payloads of the frames that are dispatched in `as`, which follow the actions
`before`, while the queue is registered under their index. -/
def routed (n : ℕ) (before : List Action) : List Action → List Payload
  | [] => []
  | a :: as => a.route n (registered before) ++ routed n (before ++ [a]) as

/-- What a queue holds. -/
def Connection.payloads (s : Connection) (n : ℕ) : List Payload :=
  (s.queues[n]?.map Queue.payloads).getD []

theorem registered_snoc (as : List Action) (a : Action) :
    registered (as ++ [a]) = a.reregister (registered as) := List.foldl_append

theorem routed_snoc (n : ℕ) (before as : List Action) (a : Action) :
    routed n before (as ++ [a]) =
      routed n before as ++ a.route n (registered (before ++ as)) := by
  induction as generalizing before with
  | nil => simp [routed]
  | cons b as ih =>
      rw [List.cons_append, routed, ih, routed, List.append_assoc, List.append_assoc]
      rfl

variable {s s' : Connection} {a : Action} {as : List Action} {n : ℕ}

theorem Connection.dispatch_channels (i : ℕ) (f : Frame) (s : Connection) :
    (s.dispatch i f).channels = s.channels := by
  rw [dispatch]
  split
  · rfl
  split
  · rfl
  split <;> rfl

theorem channels_does (h : Does s a s') : s'.channels = a.reregister s.channels := by
  cases h with
  | runDemux _ _ =>
      rw [runDemux]
      split <;> rfl
  | dispatch _ => exact dispatch_channels _ _ s
  | _ => rfl

/-- The map is what the actions have made of it. -/
theorem channels_eq (h : Trace new as s) : s.channels = registered as := by
  refine h.invariant (I := fun as s => s.channels = registered as) rfl ?_
  intro as a s s' hs hdoes
  rw [channels_does hdoes, hs, registered_snoc]

/-! ### The queues -/

theorem payloads_of_queues (h : s'.queues = s.queues) : s'.payloads n = s.payloads n := by
  rw [payloads, h, payloads]

theorem payloads_modify {m : ℕ} {f : Queue → Queue} (h : s'.queues = s.queues.modify m f)
    (hf : n = m → ∀ q, (f q).payloads = q.payloads) : s'.payloads n = s.payloads n := by
  rw [payloads, h, List.getElem?_modify, payloads]
  cases s.queues[n]? with
  | none => rfl
  | some q =>
      by_cases hm : m = n
      · simp [hm, hf hm.symm]
      · simp [hm]

/-- A new queue is empty. -/
theorem payloads_register (idx : UInt16) : (s.register idx).payloads n = s.payloads n := by
  rw [payloads, payloads, Connection.register, List.getElem?_append]
  split_ifs with hn
  · rfl
  · rw [List.getElem?_eq_none (Nat.le_of_not_lt hn)]
    cases n - s.queues.length <;> rfl

theorem payloads_recv {m : ℕ} {payload : Payload} {rest : List Payload}
    (hq : s.queues[m]? = some ⟨payload :: rest, true⟩) :
    ((Action.recv m payload).taken? n).toList ++
      ({ s with queues := s.queues.set m ⟨rest, true⟩ } : Connection).payloads n =
      s.payloads n := by
  obtain ⟨hlt, -⟩ := List.getElem?_eq_some_iff.mp hq
  rw [Action.taken?, payloads, payloads, List.getElem?_set]
  split_ifs with hn
  · rw [← hn, hq]
    rfl
  · rfl

theorem payloads_dispatch (h : Registered s) (i : ℕ) (f : Frame) :
    (s.dispatch i f).payloads n = s.payloads n ++ (Action.dispatch i f).route n s.channels := by
  rw [h.dispatch_eq, Action.route, h.channels]
  cases hm : s.registry (idxOf f.header) with
  | none =>
      rw [if_neg (by simp), List.append_nil]
      apply payloads_of_queues
      simp only [deliver, hm]
  | some m =>
      obtain ⟨payloads, hq⟩ := h.queue_of_registry hm
      have hqueues : (s.deliver i f).queues =
          s.queues.modify m fun q => { q with payloads := q.payloads ++ [f.payload] } := by
        simp only [deliver, hm]
      by_cases hn : m = n
      · subst hn
        rw [if_pos rfl, Connection.payloads, hqueues, List.getElem?_modify_eq, hq,
          Connection.payloads, hq]
        rfl
      · rw [if_neg (by simpa using hn), List.append_nil]
        exact payloads_modify hqueues fun heq => absurd heq.symm hn

/-- What a step puts in a queue is what is routed there. -/
theorem payloads_does (h : Registered s) (hdoes : Does s a s') :
    (a.taken? n).toList ++ s'.payloads n = s.payloads n ++ a.route n s.channels := by
  cases hdoes with
  | register idx _ _ =>
      rw [payloads_register]
      exact (List.append_nil _).symm
  | @runDemux c _ _ =>
      rw [payloads_of_queues (s := s) (by rw [runDemux]; split <;> rfl)]
      exact (List.append_nil _).symm
  | recv _ _ hq =>
      rw [payloads_recv hq]
      exact (List.append_nil _).symm
  | @dropReceiver c task _ _ =>
      have hqueues : (s.dropReceiver c task).queues =
          s.queues.modify c.receiver fun q => { q with alive := false } := rfl
      rw [payloads_modify hqueues fun _ _ => rfl]
      exact (List.append_nil _).symm
  | dispatch _ => exact payloads_dispatch h _ _
  | _ => exact (List.append_nil _).symm

theorem taken_snoc (n : ℕ) (as : List Action) (a : Action) :
    taken n (as ++ [a]) = taken n as ++ (a.taken? n).toList := by
  rw [taken, List.filterMap_append]
  cases h : a.taken? n <;> simp [taken, h]

/-- **Conservation.** What a queue receives in the course of a trace is what is routed
to it. -/
theorem payloads_trace {s₀ : Connection} {before : List Action} (h₀ : Trace new before s₀)
    (h : Trace s₀ as s) :
    taken n as ++ s.payloads n = s₀.payloads n ++ routed n before as := by
  have hinv : Trace new (before ++ as) s ∧
      taken n as ++ s.payloads n = s₀.payloads n ++ routed n before as := by
    refine h.invariant (I := fun as s => Trace new (before ++ as) s ∧
      taken n as ++ s.payloads n = s₀.payloads n ++ routed n before as) ⟨?_, ?_⟩ ?_
    · rwa [List.append_nil]
    · exact (List.append_nil _).symm
    · rintro as a s s' ⟨htrace, heq⟩ hdoes
      refine ⟨by rw [← List.append_assoc]; exact htrace.snoc hdoes, ?_⟩
      have hregistered := Registered.trace htrace
      calc taken n (as ++ [a]) ++ s'.payloads n
          = taken n as ++ ((a.taken? n).toList ++ s'.payloads n) := by
            rw [taken_snoc, List.append_assoc]
        _ = taken n as ++ s.payloads n ++ a.route n (registered (before ++ as)) := by
            rw [payloads_does hregistered hdoes, channels_eq htrace, List.append_assoc]
        _ = s₀.payloads n ++ routed n before (as ++ [a]) := by
            rw [heq, routed_snoc, List.append_assoc]
  exact hinv.2

/-! ### The stream -/

theorem frames_snoc (as : List Action) (a : Action) :
    frames (as ++ [a]) = frames as ++ a.frame?.toList := by
  rw [frames, List.filterMap_append]
  cases h : a.frame? <;> simp [frames, h]

/-- The bytes that have been read after `xs` are the frames that were dispatched and
the part of one more, which the reader holds if there is one. -/
def Consumed (xs : Bytes) (as : List Action) (s : Connection) : Prop :=
  ∃ part, s.history.consumed = xs ++ encode (frames as) ++ part ∧
    ∀ i r, s.receiver = some (i, r) → part = r.part

/-- A step that reads nothing and dispatches nothing. -/
theorem Consumed.quiet {xs : Bytes} (h : Consumed xs as s) (hframe : a.frame? = none)
    (hconsumed : s'.history.consumed = s.history.consumed)
    (hreceiver : ∀ i r, s'.receiver = some (i, r) → s.receiver = some (i, r)) :
    Consumed xs (as ++ [a]) s' := by
  obtain ⟨part, heq, hpart⟩ := h
  refine ⟨part, ?_, fun i r hr => hpart i r (hreceiver i r hr)⟩
  rw [hconsumed, heq, frames_snoc, hframe, Option.toList_none, List.append_nil]

theorem Consumed.does {xs : Bytes} (h : Consumed xs as s) (hdoes : Does s a s')
    (ha : ∀ i, a ≠ .acquire i) : Consumed xs (as ++ [a]) s' := by
  obtain ⟨part, hconsumed, hpart⟩ := id h
  cases hdoes with
  | acquire _ _ _ => exact absurd rfl (ha _)
  | @read i r chunk rest hreceiver _ _ hlen =>
      refine ⟨part ++ chunk, ?_, ?_⟩
      · show s.history.consumed ++ chunk = _
        rw [hconsumed, frames_snoc]
        simp [Action.frame?]
      · intro j r' hr'
        cases hr'
        rw [Reader.part_fill, hpart i r hreceiver]
  | @dispatch i f hreceiver =>
      obtain ⟨hpart', hhistory, -⟩ := dispatch_effect i f s
      refine ⟨[], ?_, ?_⟩
      · rw [hhistory, hconsumed, hpart i _ hreceiver, frames_snoc]
        simp [Action.frame?, Reader.part]
      · intro j r hr
        rw [← part_of_receiver hr, hpart']
  | runDemux _ _ =>
      rw [runDemux]
      split
      · exact h.quiet rfl rfl fun _ _ hr => hr
      · exact h.quiet rfl rfl fun _ _ hr => hr
  | readFails _ _ _ _ => exact h.quiet rfl rfl fun _ _ hr => by cases hr
  | cancelReading _ _ _ => exact h.quiet rfl rfl fun _ _ hr => by cases hr
  | _ => exact h.quiet rfl rfl fun _ _ hr => hr

/-- While a task lives no other gets the lock. -/
theorem Consumed.trace {s₀ s₁ : Connection} {i : ℕ} (hacquire : Does s₀ (.acquire i) s₁)
    (h : Trace s₁ as s) (hlife : ∀ j, .acquire j ∉ as) : Consumed s₀.history.consumed as s := by
  refine h.invariant (I := fun as s => (∀ j, .acquire j ∉ as) →
    Consumed s₀.history.consumed as s) ?_ ?_ hlife
  · intro _
    cases hacquire with
    | acquire _ _ _ =>
        refine ⟨[], by simp [frames, Connection.acquire], ?_⟩
        intro j r hr
        cases hr
        exact Reader.part_start.symm
  · intro as a s s' hs hdoes hlife
    refine (hs fun j hj => hlife j (List.mem_append_left _ hj)).does hdoes ?_
    rintro j rfl
    exact hlife j (List.mem_append_right _ List.mem_cons_self)

/-- **Demultiplexing.** A task gets the lock after the actions `before`, and `as` is its
life. Let the bytes that arrive from then on be those of the frames `fs`. The frames
it dispatches are the first ones of `fs`; what it has read of the stream are these
frames and the part of the next one that it holds. Each queue receives the payloads
of those frames that are dispatched while it is registered under their index. -/
theorem frames_routed {before : List Action} {s₀ s₁ : Connection} {i : ℕ}
    (hbefore : Trace new before s₀) (hacquire : Does s₀ (.acquire i) s₁)
    (h : Trace s₁ as s) (hlife : ∀ j, .acquire j ∉ as) {fs : List Frame} {stream : Bytes}
    (harrived : s.history.consumed ++ s.unread = s₀.history.consumed ++ stream)
    (hstream : stream <+: encode fs) :
    frames as <+: fs ∧
      (∀ j r, s.receiver = some (j, r) →
        s.history.consumed = s₀.history.consumed ++ encode (frames as) ++ r.part) ∧
      ∀ n, taken n as ++ s.payloads n =
        s₀.payloads n ++ routed n (before ++ [.acquire i]) as := by
  obtain ⟨part, hconsumed, hpart⟩ := Consumed.trace hacquire h hlife
  refine ⟨?_, ?_, ?_⟩
  · rw [hconsumed, List.append_assoc, List.append_assoc, List.append_cancel_left_eq] at harrived
    obtain ⟨ys, hys⟩ := hstream
    rw [← harrived, List.append_assoc] at hys
    obtain ⟨rest, hfs, -⟩ := encode_append_eq hys
    exact ⟨rest, hfs.symm⟩
  · intro j r hr
    rw [hconsumed, hpart j r hr]
  · intro n
    have hqueue : s₁.payloads n = s₀.payloads n := by
      cases hacquire
      rfl
    rw [← hqueue]
    exact payloads_trace (hbefore.snoc hacquire) h

/-- A channel is opened on index 2. -/
theorem trace_open :
    Trace new [.register 2 0, .runDemux] ((register 2 new).runDemux ⟨2, 0, .registered⟩) :=
  (Transition.Trace.nil.snoc (.register 2 rfl rfl)).snoc (.runDemux rfl rfl)

/-- A frame for channel 3 with one byte. -/
def three : Frame where
  header := [0, 0, 0, 0, 0x80, 3, 0, 1]
  payload := [3]
  header_length := rfl
  payload_length := rfl

/-- The life of a task that outlives its channel: channel 2 is dropped after two frames, and
channel 3 is opened after the third. -/
def outlived : List Action :=
  [.arrive (encode [zeros, three, zeros, three]),
    .read 0 zeros.header, .read 0 zeros.payload, .dispatch 0 zeros, .recv 0 zeros.payload,
    .read 0 three.header, .read 0 three.payload, .dispatch 0 three, .unregister 2,
    .read 0 zeros.header, .read 0 zeros.payload, .dispatch 0 zeros,
    .dropReceiver, .dropDemux, .register 3 1,
    .read 0 three.header, .read 0 three.payload, .dispatch 0 three]

/-- Of four frames each channel receives the one that is dispatched while it is open. -/
theorem frames_routed_outlived :
    ∃ s : Connection, Trace (((register 2 new).runDemux ⟨2, 0, .registered⟩).acquire 0) outlived s ∧
      frames outlived = [zeros, three, zeros, three] ∧
      frames outlived <+: [zeros, three, zeros, three] ∧
      taken 0 outlived ++ s.payloads 0 = [zeros.payload] ∧
      taken 1 outlived ++ s.payloads 1 = [three.payload] := by
  have hacquire : Does ((register 2 new).runDemux ⟨2, 0, .registered⟩) (.acquire 0) _ :=
    .acquire (t := ⟨.waiting, false⟩) rfl rfl rfl
  -- the frame of channel 2, which is open
  have h₀ : Trace (((register 2 new).runDemux ⟨2, 0, .registered⟩).acquire 0)
      [.arrive (encode [zeros, three, zeros, three])] _ :=
    Transition.Trace.nil.snoc (.arrive _ rfl)
  have h₁ := h₀.snoc (@Does.read _ 0 _ zeros.header
    (zeros.payload ++ encode [three, zeros, three]) rfl rfl (by decide) (by decide))
  have h₂ := h₁.snoc (@Does.read _ 0 _ zeros.payload (encode [three, zeros, three]) rfl rfl
    (by decide) (by decide))
  have h₃ := (h₂.snoc (Does.dispatch (f := zeros) rfl)).snoc
    (@Does.recv _ ⟨2, 0, .attached 0⟩ 0 zeros.payload [] rfl rfl rfl)
  -- a frame for channel 3, which is not
  have h₄ := h₃.snoc (@Does.read _ 0 _ three.header (three.payload ++ encode [zeros, three]) rfl rfl
    (by decide) (by decide))
  have h₅ := h₄.snoc (@Does.read _ 0 _ three.payload (encode [zeros, three]) rfl rfl
    (by decide) (by decide))
  have h₆ := (h₅.snoc (Does.dispatch (f := three) rfl)).snoc
    (@Does.unregister _ ⟨2, 0, .attached 0⟩ 0 rfl rfl rfl)
  -- another one for channel 2, which is dropped
  have h₇ := h₆.snoc (@Does.read _ 0 _ zeros.header (zeros.payload ++ encode [three]) rfl rfl
    (by decide) (by decide))
  have h₈ := h₇.snoc (@Does.read _ 0 _ zeros.payload (encode [three]) rfl rfl
    (by decide) (by decide))
  have h₉ := (((h₈.snoc (Does.dispatch (f := zeros) rfl)).snoc
    (@Does.dropReceiver _ ⟨2, 0, .unregistered 0⟩ 0 rfl rfl)).snoc
    (@Does.dropDemux _ ⟨2, 0, .closed 0⟩ 0 rfl rfl)).snoc (.register 3 rfl rfl)
  -- channel 3 is open
  have h₁₀ := h₉.snoc (@Does.read _ 0 _ three.header three.payload rfl rfl
    (by decide) (by decide))
  have h₁₁ := h₁₀.snoc (@Does.read _ 0 _ three.payload [] rfl rfl (by decide) (by decide))
  have h : Trace _ outlived _ := h₁₁.snoc (Does.dispatch (f := three) rfl)
  have hstream : encode [zeros, three, zeros, three] <+: encode [zeros, three, zeros, three] :=
    List.prefix_refl _
  have hrouted := frames_routed trace_open hacquire h (by simp [outlived]) rfl hstream
  exact ⟨_, h, rfl, hrouted.1, (hrouted.2.2 0).trans (by decide),
    (hrouted.2.2 1).trans (by decide)⟩

end Ouroboros.Mux
