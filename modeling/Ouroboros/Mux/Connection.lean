import Ouroboros.Library.Transition
import Ouroboros.Mux.Frame
import Mathlib.Logic.Function.Basic

/-!
A connection, the demux tasks it has spawned, and the channel that is open on it.

A channel borrows its connection exclusively, so there is one of them at a time,
and the next one is made when its drop has come to an end. Every task shares the
reading half of the socket with its predecessors through a lock. An aborted task
goes on until it is next found waiting, for the lock or for bytes; what it has
read of a frame is then lost with its local variables.

`Does` says what is done from one state to the next, so that one can speak of the frames
that are dispatched in a run and of the payloads that are taken.
-/

namespace Ouroboros.Mux

open Framing

/-- Where a demux task is. -/
inductive Phase
  /-- At `receiver.lock().await`. -/
  | waiting
  /-- In the loop, with the lock. -/
  | reading
  | ended
  deriving DecidableEq

structure Task where
  phase : Phase
  aborted : Bool
  deriving DecidableEq

/-- An unbounded queue, and whether its receiver has not been dropped. -/
structure Queue where
  payloads : List Payload
  alive : Bool
  deriving DecidableEq

/-- How far a channel has got. From `attached` on it holds the demux of a task. -/
inductive Stage
  /-- `register` has run. -/
  | registered
  | attached (task : ℕ)
  /-- `Channel::drop` has run. -/
  | unregistered (task : ℕ)
  /-- The field `receiver` has been dropped as well. -/
  | closed (task : ℕ)
  deriving DecidableEq

structure Channel where
  idx : UInt16
  receiver : ℕ
  stage : Stage
  deriving DecidableEq

/-- What has happened on the reading half of the socket. -/
structure History where
  /-- All bytes that have been read, by any task. -/
  consumed : Bytes
  /-- What had been read when a task got the lock, for each time one got it. -/
  starts : List Bytes
  /-- Every header that a task has interpreted, after the bytes read before it. -/
  headers : List (Bytes × Bytes)
  /-- A task has ended inside a frame. -/
  torn : Bool
  deriving DecidableEq

/-- Queues and tasks are known by their numbers, in the order of their creation. -/
structure Connection where
  /-- Bytes that have arrived at the socket. -/
  unread : Bytes
  /-- After these bytes reads fail. -/
  failed : Bool
  /-- The lock on the reading half: the task that holds it, and its reader. -/
  receiver : Option (ℕ × Reader format)
  /-- The map from indices to senders, and whether its mutex is poisoned. -/
  channels : UInt16 → Option ℕ
  poisoned : Bool
  /-- What the weak reference upgrades to. -/
  demux : Option ℕ
  queues : List Queue
  tasks : List Task
  channel : Option Channel
  history : History

/-- The steps of a connection. A queue is registered and read under its number. -/
inductive Action
  | arrive (chunk : Bytes)
  | fail
  | register (idx : UInt16) (queue : ℕ)
  | runDemux
  | recv (queue : ℕ) (payload : Payload)
  | unregister (idx : UInt16)
  | dropReceiver
  | dropDemux
  | acquire (task : ℕ)
  | read (task : ℕ) (chunk : Bytes)
  | dispatch (task : ℕ) (frame : Frame)
  | readFails (task : ℕ)
  | cancelWaiting (task : ℕ)
  | cancelReading (task : ℕ)

namespace Connection

/-- `Connection::new`. -/
def new : Connection where
  unread := []
  failed := false
  receiver := none
  channels := fun _ => none
  poisoned := false
  demux := none
  queues := []
  tasks := []
  channel := none
  history := ⟨[], [], [], false⟩

/-- The first half of `channel`. -/
def register (idx : UInt16) (s : Connection) : Connection :=
  { s with
    channels := Function.update s.channels idx (some s.queues.length)
    queues := s.queues ++ [⟨[], true⟩]
    channel := some ⟨idx, s.queues.length, .registered⟩ }

/-- The second half of `channel`. -/
def runDemux (c : Channel) (s : Connection) : Connection :=
  match s.demux with
  -- the weak reference can still be upgraded
  | some task => { s with channel := some { c with stage := .attached task } }
  | none =>
    { s with
      tasks := s.tasks ++ [⟨.waiting, false⟩]
      demux := some s.tasks.length
      channel := some { c with stage := .attached s.tasks.length } }

/-- `Channel::drop`. -/
def unregister (c : Channel) (task : ℕ) (s : Connection) : Connection :=
  { s with
    channels := Function.update s.channels c.idx none
    channel := some { c with stage := .unregistered task } }

/-- The field `receiver` of the channel is dropped. -/
def dropReceiver (c : Channel) (task : ℕ) (s : Connection) : Connection :=
  { s with
    queues := s.queues.modify c.receiver fun q => { q with alive := false }
    channel := some { c with stage := .closed task } }

/-- The field `_demux` of the channel is dropped. It was the last reference, and
`Demux::drop` aborts the task. -/
def dropDemux (task : ℕ) (s : Connection) : Connection :=
  { s with
    tasks := s.tasks.modify task fun t => { t with aborted := true }
    demux := none
    channel := none }

/-- A task ends and gives the lock back. -/
def release (i : ℕ) (torn : Bool) (s : Connection) : Connection :=
  { s with
    tasks := s.tasks.modify i fun t => { t with phase := .ended }
    receiver := none
    history := { s.history with torn := s.history.torn || torn } }

/-- A task gets the lock. -/
def acquire (i : ℕ) (s : Connection) : Connection :=
  { s with
    tasks := s.tasks.modify i fun t => { t with phase := .reading }
    receiver := some (i, .start)
    history := { s.history with starts := s.history.starts ++ [s.history.consumed] } }

/-- The header that a read completes. -/
def headerRead (r : Reader format) (chunk : Bytes) : Option Bytes :=
  match r with
  | .header buf _ => if (buf ++ chunk).length = format.size then some (buf ++ chunk) else none
  | .payload _ _ _ _ | .complete _ => none

/-- `read_exact` moves some bytes to its buffer. -/
def read (i : ℕ) (r : Reader format) (chunk rest : Bytes) (h : chunk.length ≤ r.need)
    (s : Connection) : Connection :=
  { s with
    unread := rest
    receiver := some (i, r.fill chunk h)
    history :=
      { s.history with
        consumed := s.history.consumed ++ chunk
        headers := s.history.headers ++ ((headerRead r chunk).map fun header =>
          ((s.history.consumed ++ chunk).take
            ((s.history.consumed ++ chunk).length - header.length), header)).toList } }

/-- The rest of the loop body, under the lock of the map. -/
def dispatch (i : ℕ) (f : Frame) (s : Connection) : Connection :=
  -- `lock().unwrap()` panics on a poisoned mutex
  if s.poisoned then s.release i false
  else match s.channels (idxOf f.header) with
    -- the index is not attached, and the payload is dropped
    | none => { s with receiver := some (i, .start) }
    | some n =>
      match s.queues[n]? with
      | some ⟨payloads, true⟩ =>
        { s with
          queues := s.queues.set n ⟨payloads ++ [f.payload], true⟩
          receiver := some (i, .start) }
      -- `send` fails, and the panic poisons the mutex
      | some ⟨_, false⟩ | none => { s.release i false with poisoned := true }

/-- What an action does. -/
inductive Does : Connection → Action → Connection → Prop
  -- the peer
  | arrive {s : Connection} (chunk : Bytes) : s.failed = false →
      Does s (.arrive chunk) { s with unread := s.unread ++ chunk }
  | fail {s : Connection} : Does s .fail { s with failed := true }
  -- the owner of the connection
  | register {s : Connection} (idx : UInt16) : s.channel = none → s.poisoned = false →
      Does s (.register idx s.queues.length) (s.register idx)
  | runDemux {s : Connection} {c : Channel} : s.channel = some c → c.stage = .registered →
      Does s .runDemux (s.runDemux c)
  | recv {s : Connection} {c : Channel} {task : ℕ} {payload : Payload} {rest : List Payload} :
      s.channel = some c → c.stage = .attached task →
      s.queues[c.receiver]? = some ⟨payload :: rest, true⟩ →
      Does s (.recv c.receiver payload) { s with queues := s.queues.set c.receiver ⟨rest, true⟩ }
  | unregister {s : Connection} {c : Channel} {task : ℕ} : s.channel = some c →
      c.stage = .attached task → s.poisoned = false →
      Does s (.unregister c.idx) (s.unregister c task)
  | dropReceiver {s : Connection} {c : Channel} {task : ℕ} : s.channel = some c →
      c.stage = .unregistered task → Does s .dropReceiver (s.dropReceiver c task)
  | dropDemux {s : Connection} {c : Channel} {task : ℕ} : s.channel = some c →
      c.stage = .closed task → Does s .dropDemux (s.dropDemux task)
  -- the demux tasks
  | acquire {s : Connection} {i : ℕ} {t : Task} : s.tasks[i]? = some t → t.phase = .waiting →
      s.receiver = none → Does s (.acquire i) (s.acquire i)
  | read {s : Connection} {i : ℕ} {r : Reader format} {chunk rest : Bytes} :
      s.receiver = some (i, r) → s.unread = chunk ++ rest → chunk ≠ [] →
      (h : chunk.length ≤ r.need) → Does s (.read i chunk) (s.read i r chunk rest h)
  | dispatch {s : Connection} {i : ℕ} {f : Frame} : s.receiver = some (i, .complete f) →
      Does s (.dispatch i f) (s.dispatch i f)
  | readFails {s : Connection} {i : ℕ} {r : Reader format} : s.receiver = some (i, r) →
      0 < r.need → s.unread = [] → s.failed = true →
      Does s (.readFails i) (s.release i (r.part ≠ []))
  /-- The abort finds the task waiting for the lock. -/
  | cancelWaiting {s : Connection} {i : ℕ} : s.tasks[i]? = some ⟨.waiting, true⟩ →
      Does s (.cancelWaiting i)
        { s with tasks := s.tasks.modify i fun t => { t with phase := .ended } }
  /-- The abort finds the task waiting for bytes. -/
  | cancelReading {s : Connection} {i : ℕ} {r : Reader format} : s.receiver = some (i, r) →
      0 < r.need → s.tasks[i]? = some ⟨.reading, true⟩ →
      Does s (.cancelReading i) (s.release i (r.part ≠ []))

/-- What can happen on a connection. A task gets the lock in the states `ok` only. -/
def Step (ok : Connection → Prop) (s s' : Connection) : Prop :=
  ∃ a, Does s a s' ∧ ∀ i, a = .acquire i → ok s

/-- The runs of a connection. -/
abbrev Run (ok : Connection → Prop) : Connection → Connection → Prop :=
  Relation.ReflTransGen (Step ok)

/-- A run and its actions, oldest first. -/
abbrev Trace : Connection → List Action → Connection → Prop := Transition.Trace Does

variable {ok : Connection → Prop} {s₀ s s' : Connection} {a : Action}

theorem Run.does (h : Run ok s₀ s) (hdoes : Does s a s') (ha : ∀ i, a = .acquire i → ok s) :
    Run ok s₀ s' :=
  h.tail ⟨a, hdoes, ha⟩

/-- The runs are what is behind the traces. -/
theorem run_iff : Run (fun _ => True) s s' ↔ ∃ as, Trace s as s' := by
  constructor
  · intro h
    induction h with
    | refl => exact ⟨[], .nil⟩
    | tail _ hstep ih =>
        obtain ⟨as, has⟩ := ih
        obtain ⟨a, ha, -⟩ := hstep
        exact ⟨as ++ [a], has.snoc ha⟩
  · rintro ⟨as, h⟩
    exact Relation.ReflTransGen.mono (fun _ _ ⟨a, ha⟩ => ⟨a, ha, fun _ _ => trivial⟩) _ _ h.run

end Connection

end Ouroboros.Mux
