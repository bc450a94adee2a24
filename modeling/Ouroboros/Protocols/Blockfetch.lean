import Ouroboros.Protocols.Protocol

/-! The block-fetch client of `blockfetch.rs`. -/

namespace Ouroboros.Blockfetch

open Values

inductive State
  | idle
  | busy
  | streaming
  | done
  deriving DecidableEq

def State.debug : State → String
  | .idle => "Idle"
  | .busy => "Busy"
  | .streaming => "Streaming"
  | .done => "Done"

inductive Message
  | requestRange (first last : Point)
  | clientDone
  | startBatch
  | noBlocks
  | block (bytes : Bytes)
  | batchDone
  deriving DecidableEq

namespace Message

/-- The name of a message. Its `Debug` text lists the fields as well. -/
def debug : Message → String
  | .requestRange _ _ => "RequestRange"
  | .clientDone => "ClientDone"
  | .startBatch => "StartBatch"
  | .noBlocks => "NoBlocks"
  | .block _ => "Block"
  | .batchDone => "BatchDone"

def fromIter : Cursor Message := do
  let message ← match ← integer with
    | 0 => do
      let first ← Cursor.lift (Point.tryInto (← array))
      let last ← Cursor.lift (Point.tryInto (← array))
      pure (.requestRange first last)
    | 1 => pure .clientDone
    | 2 => pure .startBatch
    | 3 => pure .noBlocks
    | 4 => do
      let bytes ← Values.bytes
      pure (.block bytes)
    | 5 => pure .batchDone
    | _ => Cursor.lift (.panic (.text "explicit panic"))
  end_
  pure message

def toValues : Message → List Value
  | .requestRange first last =>
    [.integer 0,
      .array [.integer first.slot.toNat, .bytes first.hash],
      .array [.integer last.slot.toNat, .bytes last.hash]]
  | .clientDone => [.integer 1]
  | .startBatch => [.integer 2]
  | .noBlocks => [.integer 3]
  | .block bytes => [.integer 4, .bytes bytes]
  | .batchDone => [.integer 5]

/-- Every message is read back from its values. -/
theorem fromIter_toValues (message : Message) :
    fromIter.eval message.toValues = .ok message := by
  have hpoint (point : Point) :
      Point.tryInto [.integer point.slot.toNat, .bytes point.hash] = .ok point :=
    Point.tryInto_pointToVec point
  cases message <;> simp [Cursor.eval, fromIter, toValues, Cursor.bind_apply, hpoint]

theorem plain_toValues (message : Message) : Plain message.toValues := by
  have hpoint (point : Point) :
      (Value.array [.integer point.slot.toNat, .bytes point.hash]).Plain 3 :=
    plain_pointToVec point 2
  cases message <;> simp [Plain, toValues, hpoint]

end Message

structure Config where
  first : Point
  last : Point
  deriving DecidableEq

structure BlockFetch where
  config : Config
  state : State
  result : List Bytes
  running : Bool
  done : Bool
  deriving DecidableEq

namespace BlockFetch

def role (_ : BlockFetch) : Agency := .client

def agency (s : BlockFetch) : Agency :=
  match s.running with
  | true => match s.state with
    | .idle => .client
    | .busy => .server
    | .streaming => .server
    | .done => .none
  | false => .none

def send (s : BlockFetch) : Outcome Message × BlockFetch :=
  match s.done with
  | false => match s.state with
    | .idle => (.ok (.requestRange s.config.first s.config.last), { s with state := .busy })
    | other => (.err (.variant "Unexpected state: " other.debug), s)
  | true => match s.state with
    | .idle => (.ok .clientDone, { s with state := .done })
    | other => (.err (.variant "Unexpected state: " other.debug), s)

/-- The panic of the last case leaves the value alone: `self.state` is assigned
once the match has a value. -/
def recv (s : BlockFetch) (message : Message) : Outcome Unit × BlockFetch :=
  match s.state, message with
  | .busy, .noBlocks => (.ok (), { s with running := false, state := .idle })
  | .busy, .startBatch => (.ok (), { s with state := .streaming })
  -- every block stops the loop, and `next` starts it again
  | .streaming, .block bytes =>
    (.ok (), { s with running := false, result := s.result ++ [bytes], state := .streaming })
  | .streaming, .batchDone => (.ok (), { s with running := false, state := .idle })
  | state, message =>
    (.panic (.variants "Unexpected message " message.debug " in state " state.debug), s)

end BlockFetch

def protocol : Protocol BlockFetch Message where
  role := BlockFetch.role
  agency := BlockFetch.agency
  send := BlockFetch.send
  recv := BlockFetch.recv
  fromIter := Message.fromIter
  toValues message := .ok message.toValues
  send_yields {s m s'} _ h := by
    obtain ⟨config, state, result, running, done⟩ := s
    cases done <;> cases state <;> cases h <;> cases running <;>
      simp [BlockFetch.agency, BlockFetch.role]

/-- What `to_vec` writes for a message is the message on the wire. -/
theorem Message.encoded {S : SerdeCbor} (hS : S.Lawful) {m : Message} {w : Bytes}
    (hw : S.toVec m.toValues = .ok w) : protocol.Encoded S m w :=
  Protocol.encoded_of_toVec hS m.plain_toValues hw m.fromIter_toValues

/-- A client whose turn it is runs, and is idle. -/
theorem BlockFetch.idle_of_turn {s : BlockFetch} (h : s.agency = s.role) :
    s.running = true ∧ s.state = .idle := by
  simp only [BlockFetch.agency, BlockFetch.role] at h
  split at h <;> try split at h
  all_goals simp_all

/-! ### The public calls -/

structure Builder where
  first : Option Point
  last : Option Point

/-- `Builder::client`. -/
def Builder.client (b : Builder) : Outcome (Party BlockFetch Message) :=
  match b.first with
  | none => .err (.text "First point required.")
  | some first =>
    match b.last with
    | none => .err (.text "Last point required.")
    | some last => .ok
      { proto := { config := { first, last }, state := .idle, result := [], running := false,
                   done := false }
        channel := .open 0x0003
        log := [] }

namespace BlockFetch

def start (s : BlockFetch) : BlockFetch := { s with running := true }

def finish (s : BlockFetch) : BlockFetch := { s with running := true, done := true }

/-- The tail of `next`: the oldest block of the result, if there is one. -/
def pop (s : BlockFetch) : Outcome (Option Bytes) × BlockFetch :=
  match s.result with
  | [] => (.ok none, s)
  | block :: result => (.ok (some block), { s with result })

end BlockFetch

variable (S : SerdeCbor)

/-- `BlockFetch::run`. The stream it returns borrows the client. -/
def run (p : Party BlockFetch Message) : Exit Unit × Party BlockFetch Message :=
  p.call protocol S .start fun s => (.ok (), s)

/-- `BlockFetch::done`. -/
def done (p : Party BlockFetch Message) : Exit Unit × Party BlockFetch Message :=
  p.call protocol S .finish fun s => (.ok (), s)

/-- `BlockStream::next`. -/
def next (p : Party BlockFetch Message) : Exit (Option Bytes) × Party BlockFetch Message :=
  match p.proto.result with
  | [] =>
    match p.proto.state with
    | .streaming => p.call protocol S .start BlockFetch.pop
    | .idle => (.ok none, p)
    | .busy | .done => (.panic (.text "Unexpected state."), p)
  | block :: result => (.ok (some block), { p with proto := { p.proto with result } })

end Ouroboros.Blockfetch
