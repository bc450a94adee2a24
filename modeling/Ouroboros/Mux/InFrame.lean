import Ouroboros.Mux.Connection

/-!
The demultiplexer across the end of a channel and the beginning of the next one.

The position in the stream is shared by all tasks, but the part of a frame that has
been read is a local variable of one of them. A task that ends between two frames
leaves the stream to its successor where a header begins. A task that is aborted
with a header or a payload half read, because the last channel was dropped, takes
that part with it, and its successor begins inside the frame.
-/

namespace Ouroboros.Mux

open Framing

variable {fs : List Frame}

/-- A header of the stream, after all that comes before it. -/
def Genuine (fs : List Frame) (e : Bytes × Bytes) : Prop :=
  ∃ done f rest, fs = done ++ f :: rest ∧ e.1 = encode done ∧ f.header = e.2

/-- Every task has begun to read at a frame boundary, and every header that has been
interpreted is one that the peer wrote. -/
structure InFrame (fs : List Frame) (s : Connection) : Prop where
  starts : ∀ xs ∈ s.history.starts, Boundary fs xs
  headers : ∀ e ∈ s.history.headers, Genuine fs e

/-- No task has ended inside a frame. -/
def Whole (s : Connection) : Prop := s.history.torn = false

namespace Connection

variable {ok : Connection → Prop} {s s' : Connection}

/-- What has been read of the frame in progress. -/
def part (s : Connection) : Bytes :=
  match s.receiver with
  | some (_, r) => r.part
  | none => []

theorem part_of_receiver {i : ℕ} {r : Reader format} (h : s.receiver = some (i, r)) :
    s.part = r.part := by
  rw [part, h]

theorem part_of_none (h : s.receiver = none) : s.part = [] := by
  rw [part, h]

/-- Only the tasks that get the lock are asked for `ok`. -/
theorem Step.weaken {ok' : Connection → Prop} (h : Step ok s s')
    (hok : ∀ i, s' = s.acquire i → ok s → ok' s) : Step ok' s s' := by
  obtain ⟨a, hdoes, ha⟩ := h
  refine ⟨a, hdoes, fun i heq => hok i ?_ (ha i heq)⟩
  subst heq
  cases hdoes
  rfl

/-- What a step does to the reading half of the socket. -/
inductive Effect (ok : Connection → Prop) (s : Connection) : Connection → Prop
  /-- Bytes may have arrived. -/
  | quiet {s' : Connection} : s'.receiver = s.receiver → s'.history = s.history →
      s.unread <+: s'.unread → Effect ok s s'
  | acquire (i : ℕ) : s.receiver = none → ok s → Effect ok s (s.acquire i)
  | read {i : ℕ} {r : Reader format} {chunk rest : Bytes} : s.receiver = some (i, r) →
      s.unread = chunk ++ rest → (h : chunk.length ≤ r.need) →
      Effect ok s (s.read i r chunk rest h)
  | dispatch {s' : Connection} {i : ℕ} {f : Frame} : s.receiver = some (i, .complete f) →
      s'.part = [] → s'.history = s.history → s'.unread = s.unread → Effect ok s s'
  | release {i : ℕ} {r : Reader format} : s.receiver = some (i, r) → 0 < r.need →
      Effect ok s (s.release i (r.part ≠ []))

theorem dispatch_effect (i : ℕ) (f : Frame) (s : Connection) :
    (s.dispatch i f).part = [] ∧ (s.dispatch i f).history = s.history ∧
      (s.dispatch i f).unread = s.unread := by
  rw [dispatch]
  split
  · simp [part, release]
  split
  · simp [part]
  split <;> simp [part, release]

theorem Step.effect (h : Step ok s s') : Effect ok s s' := by
  obtain ⟨a, hdoes, ha⟩ := h
  cases hdoes with
  | arrive chunk _ => exact .quiet rfl rfl (List.prefix_append _ _)
  | runDemux _ _ =>
      rw [Connection.runDemux]
      split <;> exact .quiet rfl rfl (List.prefix_refl _)
  | acquire _ _ hnone => exact .acquire _ hnone (ha _ rfl)
  | read hreceiver hunread _ hlen => exact .read hreceiver hunread hlen
  | dispatch hreceiver =>
      obtain ⟨hpart, hhistory, hunread⟩ := dispatch_effect _ _ s
      exact .dispatch hreceiver hpart hhistory hunread
  | readFails hreceiver hneed _ _ => exact .release hreceiver hneed
  | cancelReading hreceiver hneed _ => exact .release hreceiver hneed
  | _ => exact .quiet rfl rfl (List.prefix_refl _)

/-- The bytes of the peer, read or not, are never lost from the model, and the logs
only grow. -/
theorem Step.grows (h : Step ok s s') :
    s.history.consumed ++ s.unread <+: s'.history.consumed ++ s'.unread ∧
      s.history.starts <+: s'.history.starts ∧ s.history.headers <+: s'.history.headers := by
  cases h.effect with
  | quiet _ hhistory hunread =>
      rw [hhistory]
      exact ⟨(List.prefix_append_right_inj _).mpr hunread, List.prefix_refl _, List.prefix_refl _⟩
  | acquire i _ _ => exact ⟨List.prefix_refl _, List.prefix_append _ _, List.prefix_refl _⟩
  | @read i r chunk rest _ hunread _ =>
      refine ⟨?_, List.prefix_refl _, List.prefix_append _ _⟩
      rw [hunread, ← List.append_assoc]
      exact List.prefix_refl _
  | dispatch _ _ hhistory hunread =>
      rw [hhistory, hunread]
      exact ⟨List.prefix_refl _, List.prefix_refl _, List.prefix_refl _⟩
  | release _ _ => exact ⟨List.prefix_refl _, List.prefix_refl _, List.prefix_refl _⟩

end Connection

open Connection

/-- The invariant. The bytes read are whole frames and the part of one that the
reader holds; or such a part has been lost, and nobody reads. -/
structure Tracked (fs : List Frame) (s : Connection) : Prop extends InFrame fs s where
  whole : s.history.torn = false → ∃ done : List Frame, s.history.consumed = encode done ++ s.part
  torn : s.history.torn = true → s.receiver = none ∧ ¬ Boundary fs s.history.consumed

theorem tracked_new (fs : List Frame) : Tracked fs Connection.new where
  starts := by simp [Connection.new]
  headers := by simp [Connection.new]
  whole _ := ⟨[], rfl⟩
  torn h := by cases h

/-- A header that ends a read is one of the stream. -/
theorem genuine_of_headerRead {r : Reader format} {chunk header consumed : Bytes}
    {done : List Frame} (hconsumed : consumed = encode done ++ r.part)
    (hstream : consumed ++ chunk <+: encode fs) (h : headerRead r chunk = some header) :
    Genuine fs ((consumed ++ chunk).take ((consumed ++ chunk).length - header.length), header) := by
  cases r with
  | header buf short =>
      simp only [headerRead] at h
      split_ifs at h with hlen
      cases h
      have hsplit : consumed ++ chunk = encode done ++ (buf ++ chunk) := by
        rw [hconsumed, List.append_assoc]
        rfl
      rw [hsplit] at hstream ⊢
      obtain ⟨f, rest, rfl, hf⟩ := header_of_prefix hstream hlen
      refine ⟨done, f, rest, rfl, ?_, hf⟩
      rw [List.length_append, Nat.add_sub_cancel, List.take_left]
  | payload head buf _ _ => cases h
  | complete f => cases h

namespace Tracked

variable {s s' : Connection} {i : ℕ} {r : Reader format}

/-- While a task reads nothing has been lost. -/
theorem reading (h : Tracked fs s) (hreceiver : s.receiver = some (i, r)) :
    s.history.torn = false ∧ ∃ done : List Frame, s.history.consumed = encode done ++ r.part := by
  cases htorn : s.history.torn with
  | true =>
      have hnone := (h.torn htorn).1
      rw [hreceiver] at hnone
      cases hnone
  | false =>
      rw [← part_of_receiver hreceiver]
      exact ⟨rfl, h.whole htorn⟩

/-- The next task finds the stream at a boundary. -/
theorem acquire (h : Tracked fs s) (hnone : s.receiver = none) (hwhole : Whole s)
    (hstream : s.history.consumed ++ s.unread <+: encode fs) : Tracked fs (s.acquire i) := by
  obtain ⟨done, hdone⟩ := h.whole hwhole
  rw [part_of_none hnone, List.append_nil] at hdone
  obtain ⟨ys, hys⟩ : encode done <+: encode fs := by
    rw [← hdone]
    exact (List.prefix_append _ _).trans hstream
  obtain ⟨rest, hfs, -⟩ := encode_append_eq hys
  refine ⟨⟨?_, h.headers⟩, fun _ => ⟨done, ?_⟩, ?_⟩
  · intro xs hxs
    rcases List.mem_append.mp hxs with hxs | hxs
    · exact h.starts xs hxs
    · rw [List.mem_singleton.mp hxs]
      exact ⟨done, rest, hfs, hdone⟩
  · exact hdone.trans (List.append_nil _).symm
  · intro htorn
    exact absurd (htorn.symm.trans hwhole) (by decide)

theorem read (h : Tracked fs s) {chunk rest : Bytes} (hreceiver : s.receiver = some (i, r))
    (hlen : chunk.length ≤ r.need) (hstream : s.history.consumed ++ chunk <+: encode fs) :
    Tracked fs (s.read i r chunk rest hlen) := by
  obtain ⟨htorn, done, hdone⟩ := h.reading hreceiver
  refine ⟨⟨h.starts, ?_⟩, fun _ => ⟨done, ?_⟩, ?_⟩
  · intro e he
    rcases List.mem_append.mp he with he | he
    · exact h.headers e he
    · rw [Option.mem_toList, Option.map_eq_some_iff] at he
      obtain ⟨header, hheader, rfl⟩ := he
      exact genuine_of_headerRead hdone hstream hheader
  · have hpart : (s.read i r chunk rest hlen).part = r.part ++ chunk := r.part_fill chunk hlen
    rw [hpart, ← List.append_assoc, ← hdone]
    rfl
  · intro htorn'
    exact absurd (htorn'.symm.trans htorn) (by decide)

/-- A task that ends leaves the stream at a boundary, or inside a frame that nobody
will finish. -/
theorem release (h : Tracked fs s) (hreceiver : s.receiver = some (i, r)) (hneed : 0 < r.need) :
    Tracked fs (s.release i (r.part ≠ [])) := by
  obtain ⟨htorn, done, hdone⟩ := h.reading hreceiver
  have hmark : (s.release i (r.part ≠ [])).history.torn = decide (r.part ≠ []) := by
    simp [Connection.release, htorn]
  refine ⟨⟨h.starts, h.headers⟩, ?_, ?_⟩
  · intro hlost
    rw [hmark, decide_eq_false_iff_not, not_not] at hlost
    rw [hlost, List.append_nil] at hdone
    exact ⟨done, hdone.trans (List.append_nil _).symm⟩
  · intro hlost
    rw [hmark, decide_eq_true_iff] at hlost
    refine ⟨rfl, ?_⟩
    show ¬ Boundary fs s.history.consumed
    rw [hdone]
    exact Reader.not_boundary hneed hlost done fs

/-- **The step lemma.** -/
theorem step (h : Tracked fs s) (hstep : Step Whole s s')
    (hstream : s'.history.consumed ++ s'.unread <+: encode fs) : Tracked fs s' := by
  cases hstep.effect with
  | quiet hreceiver hhistory _ =>
      have hpart : s'.part = s.part := by rw [part, hreceiver, part]
      refine ⟨⟨?_, ?_⟩, ?_, ?_⟩ <;> rw [hhistory]
      · exact h.starts
      · exact h.headers
      · rw [hpart]
        exact h.whole
      · rw [hreceiver]
        exact h.torn
  | acquire i hnone hwhole => exact h.acquire hnone hwhole hstream
  | read hreceiver hunread hlen =>
      exact h.read hreceiver hlen ((List.prefix_append _ _).trans hstream)
  | @dispatch _ i f hreceiver hpart hhistory _ =>
      -- a whole frame more has been read
      obtain ⟨htorn, done, hdone⟩ := h.reading hreceiver
      refine ⟨⟨?_, ?_⟩, ?_, ?_⟩ <;> rw [hhistory]
      · exact h.starts
      · exact h.headers
      · intro _
        refine ⟨done ++ [f], ?_⟩
        rw [hpart, hdone]
        simp [Reader.part]
      · intro htorn'
        exact absurd (htorn'.symm.trans htorn) (by decide)
  | release hreceiver hneed => exact h.release hreceiver hneed

end Tracked

/-- **The run lemma.** -/
theorem Tracked.run {s : Connection} (hrun : Run Whole Connection.new s)
    (hstream : s.history.consumed ++ s.unread <+: encode fs) : Tracked fs s := by
  induction hrun with
  | refl => exact tracked_new fs
  | tail _ hstep ih => exact (ih (hstep.grows.1.trans hstream)).step hstep hstream

/-- **In frame across channels.** Let `fs` be the frames of the peer, of which some
bytes have arrived. In a run of a connection, every task begins to read at a frame
boundary and interprets headers of the peer only, if and only if no task gets the
lock after one that has ended inside a frame. -/
theorem demux_in_frame {s : Connection} (hrun : Run (fun _ => True) Connection.new s)
    (hstream : s.history.consumed ++ s.unread <+: encode fs) :
    InFrame fs s ↔ Run Whole Connection.new s := by
  refine ⟨fun hin => ?_, fun hwhole => (Tracked.run hwhole hstream).toInFrame⟩
  induction hrun with
  | refl => exact .refl
  | @tail s s' hprev hstep ih =>
      obtain ⟨hbytes, hstarts, hheaders⟩ := hstep.grows
      have hstream' := hbytes.trans hstream
      have hrun := ih hstream'
        ⟨fun xs hxs => hin.starts xs (hstarts.subset hxs),
          fun e he => hin.headers e (hheaders.subset he)⟩
      -- after a loss a task would not begin at a boundary
      refine hrun.tail (hstep.weaken fun i heq _ => ?_)
      by_contra htorn
      rw [Whole, Bool.not_eq_false] at htorn
      refine ((Tracked.run hrun hstream').torn htorn).2 (hin.starts _ ?_)
      rw [heq]
      exact List.mem_append_right _ List.mem_cons_self

/-- All that has arrived is read. -/
theorem Connection.Does.readAll {s : Connection} {i : ℕ} {r : Reader format} (chunk : Bytes)
    (hreceiver : s.receiver = some (i, r)) (hunread : s.unread = chunk) (hne : chunk ≠ [])
    (h : chunk.length ≤ r.need) : Does s (.read i chunk) (s.read i r chunk [] h) :=
  .read hreceiver (hunread.trans (List.append_nil _).symm) hne h

/-- A channel is opened on index 2 and a task gets the lock. -/
theorem run_open (ok : Connection → Prop) (h : ok ((register 2 new).runDemux ⟨2, 0, .registered⟩)) :
    Run ok new (((register 2 new).runDemux ⟨2, 0, .registered⟩).acquire 0) := by
  have h₁ : Run ok new (register 2 new) := Run.does .refl (.register 2 rfl rfl) nofun
  have h₂ : Run ok new ((register 2 new).runDemux ⟨2, 0, .registered⟩) :=
    h₁.does (.runDemux rfl rfl) nofun
  exact h₂.does (.acquire (t := ⟨.waiting, false⟩) rfl rfl rfl) fun _ _ => h

/-- A frame for channel 2 with eight zeros. -/
def zeros : Frame where
  header := [0, 0, 0, 0, 0x80, 2, 0, 8]
  payload := [0, 0, 0, 0, 0, 0, 0, 0]
  header_length := rfl
  payload_length := rfl

/-- A channel that is dropped between two frames, and opened again. -/
theorem demux_in_frame_reopened :
    ∃ s : Connection, s.history.starts.length = 2 ∧ InFrame [zeros] s := by
  have h₁ := (run_open Whole rfl).does (.unregister (c := ⟨2, 0, .attached 0⟩) rfl rfl rfl) nofun
  have h₂ := (h₁.does (.dropReceiver rfl rfl) nofun).does (.dropDemux rfl rfl) nofun
  have h₃ := h₂.does (.cancelReading rfl (by decide) rfl) nofun
  have h₄ := (h₃.does (.register 2 rfl rfl) nofun).does (.runDemux rfl rfl) nofun
  have h₅ := h₄.does (.acquire (i := 1) rfl rfl rfl) (fun _ _ => rfl)
  have h₆ := h₅.does (.arrive zeros.header rfl) nofun
  have h₇ := h₆.does (.readAll zeros.header rfl rfl (by decide) (by decide)) nofun
  have hrun : Run (fun _ => True) _ _ :=
    Relation.ReflTransGen.mono (fun _ _ h => h.weaken fun _ _ _ => trivial) _ _ h₇
  exact ⟨_, rfl, (demux_in_frame hrun ⟨zeros.payload, rfl⟩).mpr h₇⟩

/-- A channel is dropped when a header has been read but not its payload. The next
task takes the payload for a header. -/
theorem payload_as_header :
    ∃ s : Connection, Run (fun _ => True) new s ∧
      s.history.consumed ++ s.unread <+: encode [zeros] ∧ ¬ InFrame [zeros] s := by
  have h₁ := (run_open (fun _ => True) trivial).does (.arrive zeros.header rfl) nofun
  have h₂ := h₁.does (.readAll zeros.header rfl rfl (by decide) (by decide)) nofun
  have h₃ := h₂.does (.unregister (c := ⟨2, 0, .attached 0⟩) rfl rfl rfl) nofun
  have h₄ := (h₃.does (.dropReceiver rfl rfl) nofun).does (.dropDemux rfl rfl) nofun
  have h₅ := h₄.does (.cancelReading rfl (by decide) rfl) nofun
  have h₆ := (h₅.does (.register 2 rfl rfl) nofun).does (.runDemux rfl rfl) nofun
  have h₇ := h₆.does (.acquire (i := 1) rfl rfl rfl) (fun _ _ => trivial)
  have h₈ := h₇.does (.arrive zeros.payload rfl) nofun
  have h₉ := h₈.does (.readAll zeros.payload rfl rfl (by decide) (by decide)) nofun
  refine ⟨_, h₉, ⟨[], rfl⟩, fun hin => ?_⟩
  obtain ⟨done, f, rest, hfs, -, hheader⟩ :=
    hin.headers (zeros.header, zeros.payload) (.tail _ (.head _))
  have hf : f ∈ [zeros] := by simp [hfs]
  rw [List.mem_singleton.mp hf] at hheader
  cases hheader

end Ouroboros.Mux
