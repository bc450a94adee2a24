import Ouroboros.Protocols.Protocol
import Mathlib.Data.List.Basic
import Mathlib.Tactic.IntervalCases

/-! The handshake of `handshake.rs`, in both roles. -/

set_option linter.dupNamespace false

namespace Ouroboros.Handshake

open Values

inductive State
  | propose
  | confirm
  | done
  deriving DecidableEq

inductive Version
  | n2n (v : Int)
  | c2n (v : Int)
  deriving DecidableEq

namespace Version

def toValues (version : Version) (magic : UInt32) : Outcome (Value × Value) :=
  match version with
  | .n2n v =>
    if 1 ≤ v ∧ v ≤ 3 then .ok (.integer v, .integer magic.toNat)
    else if 4 ≤ v ∧ v ≤ 7 then
      .ok (.integer v, .array [.integer magic.toNat, .bool false])
    else .err (.text "Unsupported version.")
  | .c2n v =>
    if 1 ≤ v ∧ v ≤ 9 then .ok (.integer (0x8000 ^^^ v.toNat : ℕ), .integer magic.toNat)
    else .err (.text "Unsupported version.")

def fromValues (key value : Value) : Outcome (Version × UInt32) :=
  match key with
  | .integer version =>
    let version := UInt32.ofInt version
    if 0x0001 ≤ version ∧ version ≤ 0x0003 then
      match value with
      | .integer magic => .ok (.n2n version.toNat, UInt32.ofInt magic)
      | _ => .err (.text "Magic required.")
    else if 0x0004 ≤ version ∧ version ≤ 0x0007 then
      match value with
      | .array params =>
        match params with
        | .integer magic :: values =>
          match values with
          | .bool false :: _ => .ok (.n2n version.toNat, UInt32.ofInt magic)
          | _ => .err (.text "False expected.")
        | _ => .err (.text "Magic required.")
      | _ => .err (.text "Parameters required.")
    else if 0x8001 ≤ version ∧ version ≤ 0x8009 then
      match value with
      | .integer magic => .ok (.c2n (0x8000 ^^^ version).toNat, UInt32.ofInt magic)
      | _ => .err (.text "Magic required.")
    else .err (.number "Unsupported version number: " version.toNat "")
  | _ => .err (.text "Version required.")

def fromU16 (value : UInt16) : Version :=
  if value &&& 0x8000 ≠ 0 then .c2n (value ^^^ 0x8000).toNat else .n2n value.toNat

/-- `u16::try_from(version).unwrap()`. -/
def tryU16 (version : Int) : Outcome UInt16 :=
  if 0 ≤ version ∧ version < 2 ^ 16 then .ok (UInt16.ofInt version)
  else .panic (.text "TryFromIntError(())")

def toU16 : Version → Outcome UInt16
  | .n2n version => tryU16 version
  | .c2n version => do
    let version ← tryU16 version
    pure (0x8000 ^^^ version)

end Version

inductive Message
  | proposeVersions (versions : List (Version × UInt32))
  | acceptVersion (version : Version) (magic : UInt32)
  | refuse
  deriving DecidableEq

namespace Message

/-- The message is all there is to say: nothing checks that the array ends. -/
def fromIter : Cursor Message := do
  match ← integer with
  | 0 => do
    let entries ← Values.map
    let versions ← Cursor.lift (entries.mapM fun e => Version.fromValues e.1 e.2)
    pure (.proposeVersions versions)
  | 1 => do
    let version := Version.fromU16 (UInt16.ofInt (← integer))
    let items ← array
    let (magic, _false) ← Cursor.lift <| items |> Cursor.eval do
      let magic := UInt32.ofInt (← integer)
      let _false ← bool
      pure (magic, _false)
    if _false = false then pure (.acceptVersion version magic)
    else Cursor.lift (.panic (.text "assertion failed"))
  | 2 => do
    let _reason ← array
    pure .refuse
  | _ => Cursor.lift (.err (.text "Unexpected."))

/-- `BTreeMap::insert`, on the entries in the order of their keys. -/
def insert (S : SerdeCbor) (entry : Value × Value) :
    List (Value × Value) → List (Value × Value)
  | [] => [entry]
  | e :: entries =>
    match S.cmp entry.1 e.1 with
    | .lt => entry :: e :: entries
    | .eq => entry :: entries
    | .gt => e :: insert S entry entries

/-- `collect` to a `BTreeMap`. -/
def collect (S : SerdeCbor) (entries : List (Value × Value)) : List (Value × Value) :=
  entries.foldl (fun map entry => insert S entry map) []

def toValues (S : SerdeCbor) : Message → Outcome (List Value)
  | .proposeVersions versions => do
    let entries ← versions.mapM fun (v, m) => (v.toValues m).unwrap
    pure [.integer 0, .map (collect S entries)]
  | .acceptVersion version magic => do
    let version ← version.toU16
    pure [.integer 1, .integer version.toNat, .array [.integer magic.toNat, .bool false]]
  | .refuse => .ok [.integer 1, .array [.integer 2, .integer 0, .text "Refused."]]

end Message

structure Handshake where
  role : Agency
  versions : List Version
  networkMagic : UInt32
  state : State
  version : Option Version
  deriving DecidableEq

namespace Handshake

def agency (s : Handshake) : Agency :=
  match s.state with
  | .propose => .client
  | .confirm => .server
  | .done => .none

def send (s : Handshake) : Outcome Message × Handshake :=
  match s.state with
  | .propose =>
    (.ok (.proposeVersions (s.versions.map fun v => (v, s.networkMagic))),
      { s with state := .confirm })
  | .confirm =>
    match s.versions.getLast? with
    | none => (.err (.text "No versions available."), { s with state := .done })
    | some version =>
      (.ok (.acceptVersion version s.networkMagic),
        { s with state := .done, version := some version })
  | .done => (.panic (.text "unexpected send"), s)

def recv (s : Handshake) (message : Message) : Outcome Unit × Handshake :=
  match s.state with
  -- any message passes for a proposal
  | .propose => (.ok (), { s with state := .confirm })
  | .confirm =>
    match message with
    -- the assertion on the magic comes after the assignments
    | .acceptVersion version magic =>
      let s' := { s with state := .done, version := s.versions.find? (· = version) }
      if magic = s.networkMagic then (.ok (), s')
      else (.panic (.text "assertion failed"), s')
    | .refuse => (.ok (), { s with state := .done })
    | .proposeVersions _ => (.err (.text "Unexpected message."), s)
  | .done => (.panic (.text "unexpected recv"), s)

end Handshake

def protocol (S : SerdeCbor) : Protocol Handshake Message where
  role := Handshake.role
  agency := Handshake.agency
  send := Handshake.send
  recv := Handshake.recv
  fromIter := Message.fromIter
  toValues := Message.toValues S
  send_yields {s m s'} hrole h := by
    obtain ⟨role, versions, networkMagic, state, version⟩ := s
    cases state with
    | propose =>
        cases h
        cases hrole
        simp [Handshake.agency]
    | confirm =>
        simp only [Handshake.send] at h
        split at h
        · cases h
        · cases h
          cases hrole
          simp [Handshake.agency]
    | done => cases h

/-- `send` and `recv` leave role and versions alone. -/
theorem send_config (s : Handshake) :
    s.send.2.role = s.role ∧ s.send.2.versions = s.versions := by
  obtain ⟨role, versions, networkMagic, state, version⟩ := s
  cases state with
  | confirm =>
      simp only [Handshake.send]
      split <;> exact ⟨rfl, rfl⟩
  | _ => exact ⟨rfl, rfl⟩

theorem recv_config (s : Handshake) (m : Message) :
    (s.recv m).2.role = s.role ∧ (s.recv m).2.versions = s.versions := by
  obtain ⟨role, versions, networkMagic, state, version⟩ := s
  cases state with
  | confirm =>
      cases m with
      | acceptVersion v magic =>
          simp only [Handshake.recv]
          split <;> exact ⟨rfl, rfl⟩
      | _ => exact ⟨rfl, rfl⟩
  | _ => exact ⟨rfl, rfl⟩

/-- `recv` leads to `Confirm` from `Propose` only, and never to `Propose`. -/
theorem recv_state (s : Handshake) (m : Message) : (s.recv m).2.state ≠ .propose ∧
    (s.state ≠ .propose → (s.recv m).2.state = .confirm → (s.recv m).2 = s) := by
  obtain ⟨role, versions, networkMagic, state, version⟩ := s
  cases state with
  | propose => exact ⟨by simp [Handshake.recv], fun h => absurd rfl h⟩
  | confirm =>
      cases m with
      | proposeVersions versions => exact ⟨by simp [Handshake.recv], fun _ _ => rfl⟩
      | acceptVersion version magic =>
          simp only [Handshake.recv]
          split
          · exact ⟨by simp, fun _ h => by cases h⟩
          · exact ⟨by simp, fun _ h => by cases h⟩
      | refuse => exact ⟨by simp [Handshake.recv], fun _ h => by cases h⟩
  | done => exact ⟨by simp [Handshake.recv], fun _ h => by cases h⟩

/-! ### The public calls -/

structure HandshakeBuilder where
  versions : List Version
  magic : UInt32

def builder : HandshakeBuilder where
  versions := [.n2n 6, .n2n 7]
  magic := 0

namespace HandshakeBuilder

def networkMagic (b : HandshakeBuilder) (magic : UInt32) : HandshakeBuilder := { b with magic }

def nodeToNode (b : HandshakeBuilder) : HandshakeBuilder :=
  { b with versions := [.n2n 6, .n2n 7] }

def clientToNode (b : HandshakeBuilder) : HandshakeBuilder := { b with versions := [.c2n 9] }

def build (b : HandshakeBuilder) (role : Agency) : Outcome (Party Handshake Message) := do
  let channel ← match role with
    | .client => pure (Channel.open 0x0000)
    | .server => pure (Channel.open 0x8000)
    | .none => .panic (.text "explicit panic")
  pure
    { proto := { role, versions := b.versions, networkMagic := b.magic, state := .propose,
                 version := none }
      channel
      log := [] }

def client (b : HandshakeBuilder) : Outcome (Party Handshake Message) := b.build .client

def server (b : HandshakeBuilder) : Outcome (Party Handshake Message) := b.build .server

end HandshakeBuilder

/-- What `negotiate` makes of the version that is left at the end. -/
def Handshake.result (s : Handshake) : Outcome (Version × UInt32) × Handshake :=
  match s.version with
  | some v => (.ok (v, s.networkMagic), s)
  | none => (.err (.text "Handshake failed."), s)

def negotiate (S : SerdeCbor) (p : Party Handshake Message) :
    Exit (Version × UInt32) × Party Handshake Message :=
  p.call (protocol S) S id Handshake.result

end Ouroboros.Handshake
