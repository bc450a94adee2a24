import Ouroboros.Mux.Routing
import Ouroboros.Mux.ShortWrites

/-!
A connection whose channel is open, with the task of its demux as the only one that
is not over.

Nothing can go wrong on such a connection: the task gets the lock, reads, and
dispatches (`Demuxed`). `Carries` follows the stream that a peer writes to it by its
own calls of `Connection::send`, from the socket to the queue.
-/

namespace Ouroboros.Mux

open Framing

/-- The steps of the demux tasks. -/
def Action.Demux : Action → Prop
  | .acquire _ | .read _ _ | .dispatch _ _ => True
  | .readFails _ | .cancelWaiting _ | .cancelReading _ => True
  | _ => False

/-- What the frame of a call has for a channel of the other side. -/
def Call.payloadFor (idx : UInt16) (c : Call) : List Payload :=
  if c.idx ^^^ 0x8000 = idx then [c.payload] else []

/-- What a frame has for a channel. -/
def Frame.payloadFor (idx : UInt16) (f : Frame) : List Payload :=
  if idxOf f.header = idx then [f.payload] else []

namespace Connection

/-- All bytes that have arrived at the socket. -/
def arrived (s : Connection) : Bytes := s.history.consumed ++ s.unread

/-- Both halves of `channel`, when no task is left. -/
def opened (idx : UInt16) (s : Connection) : Connection :=
  (s.register idx).runDemux ⟨idx, s.queues.length, .registered⟩

/-- No channel is open, all tasks have ended, none of them inside a frame, and all bytes
have been read. -/
structure Settled (s : Connection) : Prop where
  registered : Registered s
  channel : s.channel = none
  demux : s.demux = none
  receiver : s.receiver = none
  ended : ∀ t ∈ s.tasks, t.phase = .ended
  unread : s.unread = []
  sound : s.failed = false
  whole : Whole s

theorem settled_new : Settled new where
  registered := registered_new
  channel := rfl
  demux := rfl
  receiver := rfl
  ended _ h := by cases h
  unread := rfl
  sound := rfl
  whole := rfl

/-- The channel `idx` is open with the queue `n`, and `task` is the only task that is
not over. It has the lock, or nobody has. -/
structure Attached (idx : UInt16) (n task : ℕ) (s : Connection) : Prop where
  registered : Registered s
  channel : s.channel = some ⟨idx, n, .attached task⟩
  sole : ∀ i t, s.tasks[i]? = some t → t.phase ≠ .ended → i = task ∧ t.aborted = false
  phase : s.receiver = none ∧ s.tasks[task]? = some ⟨.waiting, false⟩ ∨
    ∃ r, s.receiver = some (task, r) ∧ s.tasks[task]? = some ⟨.reading, false⟩
  sound : s.failed = false
  whole : Whole s

theorem Settled.opened {s : Connection} (h : Settled s) (idx : UInt16) :
    Attached idx s.queues.length s.tasks.length (s.opened idx) where
  registered := (h.registered.register idx h.channel).runDemux rfl rfl
  channel := by simp [Connection.opened, runDemux, register, h.demux]
  sole i t ht hphase := by
    simp only [Connection.opened, runDemux, register, h.demux, List.getElem?_append] at ht
    split_ifs at ht with hi
    · exact absurd (h.ended t (List.mem_of_getElem? ht)) hphase
    · rw [List.getElem?_singleton] at ht
      split_ifs at ht with h0
      cases ht
      exact ⟨by omega, rfl⟩
  phase := .inl (by simp [Connection.opened, runDemux, register, h.demux, h.receiver])
  sound := by simp [Connection.opened, runDemux, register, h.demux, h.sound]
  whole := by
    have hwhole := h.whole
    simp only [Whole] at hwhole
    simp [Whole, Connection.opened, runDemux, register, h.demux, hwhole]

variable {s s' : Connection} {idx : UInt16} {n task : ℕ} {a : Action}

/-- What the task can do: the steps of the other tasks are over. -/
inductive Demuxed (task : ℕ) (s : Connection) : Connection → Prop
  | acquire : s.receiver = none → Demuxed task s (s.acquire task)
  | read {r : Reader format} {chunk rest : Bytes} : s.receiver = some (task, r) →
      s.unread = chunk ++ rest → chunk ≠ [] → (h : chunk.length ≤ r.need) →
      Demuxed task s (s.read task r chunk rest h)
  | dispatch {f : Frame} : s.receiver = some (task, .complete f) →
      Demuxed task s (s.deliver task f)

/-- What is in the queue after a payload has been taken from it. -/
theorem payloads_of_recv {payload first : Payload} {rest : List Payload}
    (hdoes : Does s (.recv n payload) s') (hpayloads : s.payloads n = first :: rest) :
    s'.payloads n = rest := by
  have htaken : payload :: s'.payloads n = s.payloads n := by
    cases hdoes with
    | @recv c _ _ _ _ _ hq => simpa [Action.taken?] using payloads_recv (n := c.receiver) hq
  rw [hpayloads] at htaken
  exact (List.cons.inj htaken).2

namespace Attached

theorem reader (h : Attached idx n task s) {i : ℕ} {r : Reader format}
    (hreceiver : s.receiver = some (i, r)) :
    i = task ∧ s.tasks[task]? = some ⟨.reading, false⟩ := by
  rcases h.phase with ⟨hnone, -⟩ | ⟨r', hsome, htask⟩
  · rw [hnone] at hreceiver
    cases hreceiver
  · cases hsome.symm.trans hreceiver
    exact ⟨rfl, htask⟩

theorem demuxed (h : Attached idx n task s) (ha : a.Demux) (hdoes : Does s a s') :
    Demuxed task s s' := by
  cases hdoes with
  | @acquire i t ht hphase hnone =>
      obtain ⟨rfl, -⟩ := h.sole i t ht (by simp [hphase])
      exact .acquire hnone
  | read hreceiver hunread hchunk hlen =>
      obtain ⟨rfl, -⟩ := h.reader hreceiver
      exact .read hreceiver hunread hchunk hlen
  | dispatch hreceiver =>
      obtain ⟨rfl, -⟩ := h.reader hreceiver
      rw [h.registered.dispatch_eq]
      exact .dispatch hreceiver
  | readFails _ _ _ hfailed =>
      rw [h.sound] at hfailed
      cases hfailed
  -- the task has not been aborted
  | @cancelWaiting i ht => cases (h.sole i _ ht (by simp)).2
  | @cancelReading i r _ _ ht => cases (h.sole i _ ht (by simp)).2
  | _ => exact absurd ha (by simp [Action.Demux])

/-- Steps that leave the tasks alone, and the lock with who has it. -/
theorem frame (h : Attached idx n task s) (hregistered : Registered s')
    (hchannel : s'.channel = s.channel) (htasks : s'.tasks = s.tasks)
    (hreceiver : s'.receiver.map Prod.fst = s.receiver.map Prod.fst)
    (hfailed : s'.failed = s.failed) (htorn : s'.history.torn = s.history.torn) :
    Attached idx n task s' where
  registered := hregistered
  channel := hchannel.trans h.channel
  sole := by
    rw [htasks]
    exact h.sole
  phase := by
    rw [htasks]
    rcases h.phase with ⟨hnone, htask⟩ | ⟨r, hsome, htask⟩
    · rw [hnone] at hreceiver
      exact .inl ⟨Option.map_eq_none_iff.mp hreceiver, htask⟩
    · rw [hsome] at hreceiver
      obtain ⟨⟨i, r'⟩, hr', rfl⟩ := Option.map_eq_some_iff.mp hreceiver
      exact .inr ⟨r', hr', htask⟩
  sound := hfailed.trans h.sound
  whole := htorn.trans h.whole

theorem demux (h : Attached idx n task s) (ha : a.Demux) (hdoes : Does s a s') :
    Attached idx n task s' := by
  have hregistered := h.registered.does hdoes
  cases h.demuxed ha hdoes with
  | acquire hnone =>
      have htask : s.tasks[task]? = some ⟨.waiting, false⟩ := by
        rcases h.phase with ⟨-, htask⟩ | ⟨r, hsome, -⟩
        · exact htask
        · rw [hnone] at hsome
          cases hsome
      refine ⟨hregistered, h.channel, ?_, .inr ⟨.start, rfl, ?_⟩, h.sound, h.whole⟩
      · intro i t ht hphase
        simp only [acquire, List.getElem?_modify] at ht
        split_ifs at ht with hi
        · subst hi
          rw [htask] at ht
          cases ht
          exact ⟨rfl, rfl⟩
        · exact h.sole i t (by simpa using ht) hphase
      · simp [acquire, htask]
  | read hreceiver _ _ _ =>
      exact h.frame hregistered rfl rfl (by rw [hreceiver]; rfl) rfl rfl
  | dispatch hreceiver =>
      exact h.frame hregistered rfl rfl (by rw [hreceiver]; rfl) rfl rfl

theorem arrive (h : Attached idx n task s) {chunk : Bytes} (hdoes : Does s (.arrive chunk) s') :
    Attached idx n task s' := by
  have hregistered := h.registered.does hdoes
  cases hdoes with
  | arrive _ _ => exact h.frame hregistered rfl rfl rfl rfl rfl

theorem recv (h : Attached idx n task s) {payload : Payload} (hdoes : Does s (.recv n payload) s') :
    Attached idx n task s' := by
  have hregistered := h.registered.does hdoes
  cases hdoes with
  | recv _ _ _ => exact h.frame hregistered rfl rfl rfl rfl rfl

/-- The next payload of the queue can be taken. -/
theorem exists_recv (h : Attached idx n task s) {payload : Payload} {rest : List Payload}
    (hpayloads : s.payloads n = payload :: rest) :
    ∃ s', Does s (.recv n payload) s' ∧ s'.payloads n = rest := by
  obtain ⟨payloads, hq⟩ := h.registered.alive _ h.channel rfl
  have heq : payloads = payload :: rest := by
    rw [← hpayloads, Connection.payloads, hq]
    rfl
  rw [heq] at hq
  have hdoes : Does s (.recv n payload) _ := .recv h.channel rfl hq
  exact ⟨_, hdoes, payloads_of_recv hdoes hpayloads⟩

/-- A dispatch feeds the queue if the frame is for the channel. -/
theorem payloads_deliver (h : Attached idx n task s) (f : Frame) :
    (s.deliver task f).payloads n = s.payloads n ++ f.payloadFor idx := by
  rw [← h.registered.dispatch_eq, payloads_dispatch h.registered, Action.route,
    h.registered.channels, registry_of_open h.channel rfl, Frame.payloadFor]
  by_cases hidx : idxOf f.header = idx
  · simp [hidx]
  · simp [hidx, Function.update_of_ne]

end Attached

/-! ### The stream of a peer -/

/-- The peer has written `base` before, and then the frames of the calls `done` and
`rest`. Those of `done` have been dispatched, and the reader is in the next one. -/
structure Carries (base : Bytes) (done rest : List Call) (written : Bytes) (s : Connection) :
    Prop where
  stream : written = base ++ (done ++ rest).flatMap Call.wire
  consumed : s.history.consumed = base ++ done.flatMap Call.wire ++ s.part
  arrived : s.arrived <+: written
  fits : ∀ c ∈ done ++ rest, c.payload.length ≤ 65535

/-- What the task and the socket have before them. -/
def lag (written : Bytes) (s : Connection) : ℕ :=
  4 * (written.length - s.arrived.length) + 2 * s.unread.length + s.part.length +
    if s.receiver.isNone then 1 else 0

theorem lag_arrive {written chunk : Bytes} (hne : chunk ≠ [])
    (hchunk : s.arrived ++ chunk <+: written) (hdoes : Does s (.arrive chunk) s') :
    s'.lag written < s.lag written := by
  have hle := hchunk.length_le
  have hpos := List.length_pos_iff.mpr hne
  cases hdoes with
  | arrive _ _ =>
      simp only [lag, Connection.arrived, part, List.length_append] at hle ⊢
      omega

/-- All that has been written has been read, and no frame is under way. -/
structure Drained (written : Bytes) (s : Connection) : Prop where
  part : s.part = []
  unread : s.unread = []
  consumed : s.history.consumed = written

namespace Carries

variable {base written chunk : Bytes} {done rest : List Call} {c : Call}

theorem opened (h : Settled s) (idx : UInt16) :
    Carries s.history.consumed [] [] s.history.consumed (s.opened idx) where
  stream := by simp
  consumed := by
    have hpart : (s.opened idx).part = [] := by
      apply part_of_none
      simp [Connection.opened, runDemux, register, h.demux, h.receiver]
    rw [hpart]
    simp [Connection.opened, runDemux, register, h.demux]
  arrived := by simp [Connection.opened, runDemux, register, h.demux, Connection.arrived, h.unread]
  fits := by simp

theorem send (h : Carries base done rest written s) (hc : c.payload.length ≤ 65535) :
    Carries base done (rest ++ [c]) (written ++ c.wire) s where
  stream := by
    rw [h.stream]
    simp
  consumed := h.consumed
  arrived := h.arrived.trans (List.prefix_append _ _)
  fits := by
    rw [← List.append_assoc]
    intro d hd
    rcases List.mem_append.mp hd with hd | hd
    · exact h.fits d hd
    · rw [List.mem_singleton.mp hd]
      exact hc

theorem arrive (h : Carries base done rest written s) (hchunk : s.arrived ++ chunk <+: written)
    (hdoes : Does s (.arrive chunk) s') : Carries base done rest written s' := by
  cases hdoes with
  | arrive _ _ =>
      refine ⟨h.stream, h.consumed, ?_, h.fits⟩
      simpa only [Connection.arrived, List.append_assoc] using hchunk

/-- The reader has a whole frame: it is that of the next call. -/
theorem next (h : Carries base done rest written s) {i : ℕ} {f : Frame}
    (hreceiver : s.receiver = some (i, .complete f)) :
    ∃ c rest', rest = c :: rest' ∧ f.bytes = c.wire ∧
      f.dispatched = (c.idx ^^^ 0x8000, c.payload) := by
  obtain ⟨ahead, hahead⟩ := h.arrived
  have hpart : s.part = f.bytes := part_of_receiver hreceiver
  have hrest : f.bytes ++ (s.unread ++ ahead) = rest.flatMap Call.wire := by
    rw [Connection.arrived, h.consumed, hpart, h.stream, List.flatMap_append] at hahead
    simpa only [List.append_assoc, List.append_cancel_left_eq] using hahead
  cases rest with
  | nil =>
      have hlen := congrArg List.length hrest
      have hsize : format.size = 8 := rfl
      simp only [List.length_append, f.length_bytes, List.flatMap_nil, List.length_nil,
        hsize] at hlen
      omega
  | cons c rest =>
      have hc : c.payload.length < 2 ^ 16 := by
        have hfits := h.fits c (by simp)
        omega
      obtain ⟨rfl, -⟩ := Frame.bytes_append_inj (g := c.frame hc) hrest
      exact ⟨c, rest, rfl, rfl, Prod.ext c.idxOf_header rfl⟩

/-- **The step lemma.** A step of the task reads on, or it dispatches the payload of the
next call. -/
theorem demuxed (h : Carries base done rest written s) (hs : Attached idx n task s)
    (hdemuxed : Demuxed task s s') :
    (Carries base done rest written s' ∧ s'.payloads n = s.payloads n ∧
        s'.lag written < s.lag written) ∨
      ∃ c rest', rest = c :: rest' ∧ Carries base (done ++ [c]) rest' written s' ∧
        s'.payloads n = s.payloads n ++ c.payloadFor idx ∧ s'.lag written < s.lag written := by
  cases hdemuxed with
  | acquire hnone =>
      refine .inl ⟨⟨h.stream, ?_, h.arrived, h.fits⟩, rfl, ?_⟩
      · have hconsumed := h.consumed
        rwa [part_of_none hnone] at hconsumed
      · have hpart : (s.acquire task).part = s.part := (part_of_none hnone).symm
        rw [lag, lag, hpart]
        simp [acquire, Connection.arrived, hnone]
  | @read r chunk unread hreceiver hunread hchunk hlen =>
      have harrived : (s.read task r chunk unread hlen).arrived = s.arrived := by
        simp [Connection.arrived, read, hunread]
      have hpart : (s.read task r chunk unread hlen).part = s.part ++ chunk := by
        rw [part_of_receiver hreceiver]
        exact Reader.part_fill r chunk hlen
      refine .inl ⟨⟨h.stream, ?_, ?_, h.fits⟩, rfl, ?_⟩
      · rw [hpart, ← List.append_assoc, ← h.consumed]
        rfl
      · rw [harrived]
        exact h.arrived
      · have hpos := List.length_pos_iff.mpr hchunk
        simp only [lag, harrived, hpart, hunread, List.length_append, hreceiver]
        simp [read]
        omega
  | @dispatch f hreceiver =>
      obtain ⟨c, rest', rfl, hwire, hf⟩ := h.next hreceiver
      refine .inr ⟨c, rest', rfl, ⟨?_, ?_, h.arrived, ?_⟩, ?_, ?_⟩
      · rw [h.stream]
        simp
      · have hconsumed := h.consumed
        rw [part_of_receiver hreceiver] at hconsumed
        have hpart : (s.deliver task f).part = [] := rfl
        rw [hpart, List.append_nil, List.flatMap_append, ← List.append_assoc]
        refine hconsumed.trans ?_
        rw [List.flatMap_singleton, ← hwire]
        rfl
      · intro d hd
        exact h.fits d (by simpa using hd)
      · rw [hs.payloads_deliver, Frame.payloadFor, Call.payloadFor]
        obtain ⟨hidx, hpayload⟩ := Prod.mk.inj hf
        rw [hidx, hpayload]
      · have hpart : (s.deliver task f).part = [] := rfl
        have hpos : 0 < f.bytes.length := by
          rw [f.length_bytes]
          exact Nat.add_pos_left format.size_pos _
        rw [lag, lag, hpart, part_of_receiver hreceiver]
        have hlen : (Reader.complete f).part.length = f.bytes.length := rfl
        simp only [deliver, Connection.arrived, hreceiver, hlen, List.length_nil,
          Option.isNone_some, Bool.false_eq_true, if_false]
        omega

/-- As long as a frame is missing there is something to do. -/
theorem progress (h : Carries base done (c :: rest) written s) (hs : Attached idx n task s) :
    (∃ chunk, chunk ≠ [] ∧ s.arrived ++ chunk <+: written) ∨ ∃ a s', a.Demux ∧ Does s a s' := by
  rcases hs.phase with ⟨hnone, htask⟩ | ⟨r, hreceiver, htask⟩
  · exact .inr ⟨.acquire task, _, trivial, .acquire htask rfl hnone⟩
  by_cases hneed : r.need = 0
  · obtain ⟨f, rfl⟩ := Reader.complete_of_need hneed
    exact .inr ⟨.dispatch task f, _, trivial, .dispatch hreceiver⟩
  by_cases hunread : s.unread = []
  · obtain ⟨ahead, hahead⟩ := h.arrived
    refine .inl ⟨ahead, ?_, by rw [hahead]⟩
    rintro rfl
    -- everything is there, and the reader would be inside a frame at its end
    have hpart : r.part = (c :: rest).flatMap Call.wire := by
      rw [Connection.arrived, h.consumed, hunread, part_of_receiver hreceiver, h.stream,
        List.flatMap_append] at hahead
      simpa only [List.append_assoc, List.append_nil, List.append_cancel_left_eq] using hahead
    have hfits : ∀ c' ∈ c :: rest, c'.payload.length ≤ 65535 := fun c' hc' =>
      h.fits c' (List.mem_append_right done hc')
    obtain ⟨fs, hfs⟩ := exists_frames hfits
    rw [← List.flatMap_congr fun c' hc' => Call.wire_eq_bytes (hfits c' hc')] at hfs
    have hne : r.part ≠ [] := by
      apply List.ne_nil_of_length_pos
      rw [hpart, List.flatMap_cons, List.length_append, c.length_wire]
      omega
    exact Reader.part_ne_encode (Nat.pos_of_ne_zero hneed) hne fs (hpart.trans hfs)
  · obtain ⟨x, xs, hx⟩ := List.exists_cons_of_ne_nil hunread
    have hlen : [x].length ≤ r.need := Nat.pos_of_ne_zero hneed
    exact .inr ⟨.read task [x], _, trivial, .read hreceiver hx (by simp) hlen⟩

/-- Once all frames have been dispatched nothing is left of the stream. -/
theorem drained (h : Carries base done [] written s) : Drained written s := by
  have hlen := h.arrived.length_le
  rw [Connection.arrived, h.consumed, h.stream, List.append_nil] at hlen
  simp only [List.length_append] at hlen
  have hpart : s.part = [] := List.eq_nil_of_length_eq_zero (by omega)
  refine ⟨hpart, List.eq_nil_of_length_eq_zero (by omega), ?_⟩
  rw [h.consumed, hpart, h.stream]
  simp

end Carries

end Connection

end Ouroboros.Mux
