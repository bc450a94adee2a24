import Ouroboros.Protocols.Protocol

/-!
The transaction-submission client of `txsubmission.rs`.

It is the agency of nobody in every state, so that `execute` neither sends nor receives
anything. What `send` and `recv` would do is not reached.
-/

set_option linter.dupNamespace false

namespace Ouroboros.TxSubmission

inductive State
  | idle
  | txIdsBlocking
  | txIdsNonBlocking
  | done
  deriving DecidableEq

def State.debug : State → String
  | .idle => "Idle"
  | .txIdsBlocking => "TxIdsBlocking"
  | .txIdsNonBlocking => "TxIdsNonBlocking"
  | .done => "Done"

inductive Message
  | array (values : List Value)
  | raw (data : Bytes)

namespace Message

def fromValues (values : List Value) : Outcome Message := .ok (.array values)

/-- The default of the trait: `from_values(array.to_vec())`. -/
def fromIter : Cursor Message := fun array => (fromValues array, [])

def toValues : Message → Outcome (List Value)
  | .array values => .ok values
  | .raw _ => .panic (.text "explicit panic")

/-- The override of the trait's `to_bytes`. -/
def toBytes (S : SerdeCbor) : Message → Outcome Bytes
  | .raw data => .ok data
  | .array values => (Outcome.ofExcept (S.toVec values)).unwrap

end Message

structure TxSubmission where
  state : State
  deriving DecidableEq

namespace TxSubmission

/-- An array of two: the message id of `ReplyTxIds`, and an empty indefinite array. -/
def msgReplyTxIds (_ : TxSubmission) : Message := .raw [0x82, 0x01, 0x9f, 0xff]

def role (_ : TxSubmission) : Agency := .client

def agency (s : TxSubmission) : Agency :=
  match s.state with
  | .idle => .none
  | .txIdsBlocking => .none
  | .txIdsNonBlocking => .none
  | .done => .none

def send (s : TxSubmission) : Outcome Message × TxSubmission :=
  match s.state with
  | .txIdsBlocking => (.err (.text "Unexpected."), { s with state := .done })
  | .txIdsNonBlocking => (.ok s.msgReplyTxIds, { s with state := .idle })
  | state => (.err (.variant "Unexpected state: " state.debug), s)

/-- `cbor_array[1] == Value::Bool(true)`. -/
def isBlocking : Value → Bool
  | .bool true => true
  | _ => false

def recv (s : TxSubmission) : Message → Outcome Unit × TxSubmission
  | .array cborArray =>
    match cborArray[0]? with
    | none => (.panic (.text "index out of bounds: the len is 0 but the index is 0"), s)
    | some (Value.integer 0) =>
      match cborArray[1]? with
      | none => (.panic (.text "index out of bounds: the len is 1 but the index is 1"), s)
      | some blocking =>
        (.ok (), { s with
          state := if isBlocking blocking then .txIdsBlocking else .txIdsNonBlocking })
    -- other messages are logged
    | some _ => (.ok (), s)
  | .raw _ => (.panic (.text "explicit panic"), s)

theorem agency_eq_none (s : TxSubmission) : s.agency = .none := by
  cases h : s.state <;> simp only [agency, h]

end TxSubmission

def protocol : Protocol TxSubmission Message where
  role := TxSubmission.role
  agency := TxSubmission.agency
  send := TxSubmission.send
  recv := TxSubmission.recv
  fromIter := Message.fromIter
  toValues := Message.toValues
  send_yields {s m s'} _ _ := by
    rw [TxSubmission.agency_eq_none]
    simp [TxSubmission.role]

/-- The override is that of the trait, but for raw messages. -/
theorem toBytes_array (S : SerdeCbor) (values : List Value) :
    Message.toBytes S (.array values) = protocol.toBytes S (.array values) := rfl

/-- `TxSubmission::new`. -/
def new : Party TxSubmission Message where
  proto := { state := .idle }
  channel := .open 0x0004
  log := []

theorem turn_eq_stop (S : SerdeCbor) (p : Party TxSubmission Message) :
    Party.turn protocol S p = .stop :=
  Party.turn_stop_iff.mpr p.proto.agency_eq_none

end Ouroboros.TxSubmission
