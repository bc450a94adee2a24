import Ouroboros.Protocols.Protocol

/-! The chain-sync client of `chainsync.rs`. -/

namespace Ouroboros.Chainsync

open Values

inductive State
  | idle
  | intersect
  | canAwait
  | mustReply
  | done
  deriving DecidableEq

def State.debug : State → String
  | .idle => "Idle"
  | .intersect => "Intersect"
  | .canAwait => "CanAwait"
  | .mustReply => "MustReply"
  | .done => "Done"

inductive Message
  | requestNext
  | awaitReply
  | rollForward (header : WrappedBlockHeader) (tip : Tip)
  | rollBackward (point : Point) (tip : Tip)
  | findIntersect (points : List Point)
  | intersectFound (point : Point) (tip : Tip)
  | intersectNotFound (tip : Tip)
  | done
  deriving DecidableEq

namespace Message

/-- The loop over the points of `FindIntersect`. The read that ends it has taken
a value off the iterator, and `end` is asked about what comes after. -/
def readPoints : Values → Outcome (List Point)
  | .array item :: items => do
    let point ← Point.tryInto item
    let points ← readPoints items
    pure (point :: points)
  | items => do
    end_.eval (array items).2
    pure []

def fromIter : Cursor Message := do
  let message ← match ← integer with
    | 0 => pure .requestNext
    | 1 => pure .awaitReply
    | 2 => do
      let header ← Cursor.lift (WrappedBlockHeader.tryInto (← array))
      let tip ← Cursor.lift (Tip.tryInto (← array))
      pure (.rollForward header tip)
    | 3 => do
      let point ← Cursor.lift (Point.tryInto (← array))
      let tip ← Cursor.lift (Tip.tryInto (← array))
      pure (.rollBackward point tip)
    | 4 => do
      let points ← Cursor.lift (readPoints (← array))
      pure (.findIntersect points)
    | 5 => do
      let point ← Cursor.lift (Point.tryInto (← array))
      let tip ← Cursor.lift (Tip.tryInto (← array))
      pure (.intersectFound point tip)
    | 6 => do
      let tip ← Cursor.lift (Tip.tryInto (← array))
      pure (.intersectNotFound tip)
    | 7 => pure .done
    | other => Cursor.lift (.err (.number "Unexpected message: " other "."))
  end_
  pure message

def toValues : Message → List Value
  | .requestNext => [.integer 0]
  | .awaitReply => [.integer 1]
  | .rollForward header tip =>
    [.integer 2, .array [.integer 0, .bytes header.bytes], .array (tipToVec tip)]
  | .rollBackward point tip => [.integer 3, .array (pointToVec point), .array (tipToVec tip)]
  | .findIntersect points =>
    [.integer 4, .array (points.map fun point =>
      .array [.integer point.slot.toNat, .bytes point.hash])]
  | .intersectFound point tip => [.integer 5, .array (pointToVec point), .array (tipToVec tip)]
  | .intersectNotFound tip => [.integer 6, .array (tipToVec tip)]
  | .done => [.integer 7]

theorem readPoints_map (points : List Point) :
    readPoints (points.map fun point => .array (pointToVec point)) = .ok points := by
  induction points with
  | nil => rfl
  | cons point points ih =>
      rw [List.map_cons, readPoints, Point.tryInto_pointToVec, ih]
      rfl

theorem WrappedBlockHeader.tryInto_values (era : Int) (header : WrappedBlockHeader) :
    WrappedBlockHeader.tryInto [.integer era, .bytes header.bytes] = .ok header := by
  simp [WrappedBlockHeader.tryInto, Cursor.eval, Cursor.bind_apply]

theorem plain_toValues (message : Message) : Plain message.toValues := by
  cases message with
  | rollForward header tip =>
      have hheader : (Value.array [.integer 0, .bytes header.bytes]).Plain 3 :=
        plain_array (by simp)
      simp [Plain, toValues, hheader, plain_tipToVec]
  | findIntersect points =>
      have hpoints : (Value.array (points.map fun point => .array (pointToVec point))).Plain 3 :=
        plain_array (by simp [plain_pointToVec])
      simp only [pointToVec] at hpoints
      simp [Plain, toValues, hpoints]
  | _ => simp [Plain, toValues, plain_pointToVec, plain_tipToVec]

end Message

inductive Intersect
  | found (point : Point) (tip : Tip)
  | notFound (tip : Tip)
  deriving DecidableEq

inductive Reply
  | forward (header : BlockHeader) (tip : Tip)
  | backward (point : Point) (tip : Tip)
  deriving DecidableEq

inductive Query
  | intersect (points : List Point)
  | reply
  deriving DecidableEq

structure ChainSync where
  query : Option Query
  intersect : Option Intersect
  reply : Option Reply
  state : State
  deriving DecidableEq

namespace ChainSync

def role (_ : ChainSync) : Agency := .client

def agency (s : ChainSync) : Agency :=
  if s.query.isNone then .none
  else match s.state with
    | .idle => .client
    | .intersect => .server
    | .canAwait => .server
    | .mustReply => .server
    | .done => .none

def send (s : ChainSync) : Outcome Message × ChainSync :=
  match s.state with
  | .idle =>
    match s.query with
    | some (.intersect points) => (.ok (.findIntersect points), { s with state := .intersect })
    | some .reply => (.ok .requestNext, { s with state := .canAwait })
    | none => (.panic (.text "called `Option::unwrap()` on a `None` value"), s)
  | other => (.err (.variant "Unsupported: " other.debug), s)

def recv (S : SerdeCbor) (blake2b : Bytes → Bytes) (s : ChainSync) :
    Message → Outcome Unit × ChainSync
  -- no arm looks at the state, nor at the kind of the query
  | .requestNext => (.ok (), { s with state := .canAwait })
  | .awaitReply => (.ok (), { s with state := .mustReply })
  | .rollForward header tip =>
    match BlockHeader.tryInto S blake2b header with
    | .ok header =>
      (.ok (), { s with reply := some (.forward header tip), query := none, state := .idle })
    | .err e => (.err e, s)
    | .panic e => (.panic e, s)
  | .rollBackward point tip =>
    (.ok (), { s with reply := some (.backward point tip), query := none, state := .idle })
  | .intersectFound point tip =>
    (.ok (), { s with intersect := some (.found point tip), query := none, state := .idle })
  | .intersectNotFound tip =>
    (.ok (), { s with intersect := some (.notFound tip), query := none, state := .idle })
  | .done => (.ok (), { s with state := .done })
  | .findIntersect _ => (.err (.variant "Got unexpected message: " "FindIntersect"), s)

end ChainSync

def protocol (S : SerdeCbor) (blake2b : Bytes → Bytes) : Protocol ChainSync Message where
  role := ChainSync.role
  agency := ChainSync.agency
  send := ChainSync.send
  recv := ChainSync.recv S blake2b
  fromIter := Message.fromIter
  toValues message := .ok message.toValues
  send_yields {s m s'} _ h := by
    obtain ⟨query, intersect, reply, state⟩ := s
    cases state with
    | idle =>
        rcases query with _ | points | _
        · cases h
        · cases h
          simp [ChainSync.agency, ChainSync.role]
        · cases h
          simp [ChainSync.agency, ChainSync.role]
    | _ => cases h

/-! ### The public calls -/

/-- `ChainSyncBuilder::client`. -/
def client : Party ChainSync Message where
  proto := { query := none, intersect := none, reply := none, state := .idle }
  channel := .open 0x0002
  log := []

namespace ChainSync

def ask (query : Query) (s : ChainSync) : ChainSync := { s with query := some query }

/-- `self.intersect.take().unwrap()`. -/
def takeIntersect (s : ChainSync) : Outcome Intersect × ChainSync :=
  match s.intersect with
  | some intersect => (.ok intersect, { s with intersect := none })
  | none => (.panic (.text "called `Option::unwrap()` on a `None` value"), s)

/-- `self.reply.take().unwrap()`. -/
def takeReply (s : ChainSync) : Outcome Reply × ChainSync :=
  match s.reply with
  | some reply => (.ok reply, { s with reply := none })
  | none => (.panic (.text "called `Option::unwrap()` on a `None` value"), s)

end ChainSync

variable (S : SerdeCbor) (blake2b : Bytes → Bytes)

def findIntersect (points : List Point) (p : Party ChainSync Message) :
    Exit Intersect × Party ChainSync Message :=
  p.call (protocol S blake2b) S (.ask (.intersect points)) ChainSync.takeIntersect

def requestNext (p : Party ChainSync Message) : Exit Reply × Party ChainSync Message :=
  p.call (protocol S blake2b) S (.ask .reply) ChainSync.takeReply

/-- What the two calls return. -/
inductive Answer
  | intersect (intersect : Intersect)
  | reply (reply : Reply)
  deriving DecidableEq

/-- The call that makes a query. -/
def perform (query : Query) (p : Party ChainSync Message) :
    Exit Answer × Party ChainSync Message :=
  match query with
  | .intersect points =>
    ((findIntersect S blake2b points p).1.map .intersect, (findIntersect S blake2b points p).2)
  | .reply => ((requestNext S blake2b p).1.map .reply, (requestNext S blake2b p).2)

/-- What a message has to say to a query. -/
def Message.answer (query : Query) (message : Message) : Option Answer :=
  match query, message with
  | .intersect _, .intersectFound point tip => some (.intersect (.found point tip))
  | .intersect _, .intersectNotFound tip => some (.intersect (.notFound tip))
  | .reply, .rollForward header tip =>
    match BlockHeader.tryInto S blake2b header with
    | .ok header => some (.reply (.forward header tip))
    | .err _ | .panic _ => none
  | .reply, .rollBackward point tip => some (.reply (.backward point tip))
  | _, _ => none

/-- The message that a query is sent as. -/
def Query.request : Query → Message
  | .intersect points => .findIntersect points
  | .reply => .requestNext

end Ouroboros.Chainsync
