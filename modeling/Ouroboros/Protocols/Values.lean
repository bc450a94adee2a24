import Ouroboros.Model

/-!
The cursor over decoded values, and the conversions of points, tips and headers
that are built on it.

A read takes the next value off the iterator whether or not it has the right
type, so a failed read still moves the cursor. `Cursor` therefore returns the
rest of the values next to the outcome in every case.
-/

namespace Ouroboros

/-- The values an iterator still has to yield. -/
abbrev Values := List Value

def Cursor (α : Type) := Values → Outcome α × Values

namespace Cursor

/-- The outcome of a cursor program on the values of an array. -/
def eval {α : Type} (c : Cursor α) (array : Values) : Outcome α := (c array).1

instance : Monad Cursor where
  pure a := fun array => (.ok a, array)
  bind c f := fun array =>
    match c array with
    | (.ok a, rest) => f a rest
    | (.err e, rest) => (.err e, rest)
    | (.panic e, rest) => (.panic e, rest)

/-- `?` on a result that does not come from the cursor itself. -/
def lift {α : Type} (o : Outcome α) : Cursor α := fun array => (o, array)

@[simp] theorem pure_apply {α : Type} (a : α) (array : Values) :
    (pure a : Cursor α) array = (.ok a, array) := rfl

@[simp] theorem lift_apply {α : Type} (o : Outcome α) (array : Values) :
    lift o array = (o, array) := rfl

theorem bind_apply {α β : Type} (c : Cursor α) (f : α → Cursor β) (array : Values) :
    (c >>= f) array =
      match c array with
      | (.ok a, rest) => f a rest
      | (.err e, rest) => (.err e, rest)
      | (.panic e, rest) => (.panic e, rest) := rfl

end Cursor

namespace Values

open Cursor

/-- `Iter::next`. -/
def next (array : Values) : Option Value × Values := (array.head?, array.tail)

def array : Cursor Values := fun vs =>
  match vs.next with
  | (some (.array values), rest) => (.ok values, rest)
  | (other, rest) => (.err (.found "Integer required: " other), rest)

def map : Cursor (List (Value × Value)) := fun vs =>
  match vs.next with
  | (some (.map entries), rest) => (.ok entries, rest)
  | (other, rest) => (.err (.found "Integer required: " other), rest)

def integer : Cursor Int := fun vs =>
  match vs.next with
  | (some (.integer value), rest) => (.ok value, rest)
  | (other, rest) => (.err (.found "Integer required, found " other), rest)

def bool : Cursor Bool := fun vs =>
  match vs.next with
  | (some (.bool value), rest) => (.ok value, rest)
  | (other, rest) => (.err (.found "Boolean required, found " other), rest)

def bytes : Cursor Bytes := fun vs =>
  match vs.next with
  | (some (.bytes vec), rest) => (.ok vec, rest)
  | (other, rest) => (.err (.found "Bytes required, found " other), rest)

def end_ : Cursor Unit := fun vs =>
  match vs.next with
  | (none, rest) => (.ok (), rest)
  | (other, rest) => (.err (.found "End of array required, found " other), rest)

@[simp] theorem array_cons (values vs : Values) :
    array (.array values :: vs) = (.ok values, vs) := rfl
@[simp] theorem map_cons (entries : List (Value × Value)) (vs : Values) :
    map (.map entries :: vs) = (.ok entries, vs) := rfl
@[simp] theorem integer_cons (n : Int) (vs : Values) :
    integer (.integer n :: vs) = (.ok n, vs) := rfl
@[simp] theorem bool_cons (b : Bool) (vs : Values) : bool (.bool b :: vs) = (.ok b, vs) := rfl
@[simp] theorem bytes_cons (b : Bytes) (vs : Values) : bytes (.bytes b :: vs) = (.ok b, vs) := rfl
@[simp] theorem end_nil : end_ [] = (.ok (), []) := rfl
@[simp] theorem array_nil : array [] = (.err (.found "Integer required: " none), []) := rfl

end Values

/-! ### Narrowing casts

`as u16`, `as u32`, `as u64` and `as i64` of an `i128` keep the low bits, which
is `UInt16.ofInt` and its siblings. They undo the widening of `into`. -/

@[simp] theorem u16_ofInt_toNat (n : UInt16) : UInt16.ofInt (n.toNat : Int) = n := by
  have h := n.toNat_lt
  have hmod : ((n.toNat : Int) % 2 ^ 16).toNat = n.toNat := by omega
  rw [UInt16.ofInt, hmod, UInt16.ofNat_toNat]

@[simp] theorem u32_ofInt_toNat (n : UInt32) : UInt32.ofInt (n.toNat : Int) = n := by
  have h := n.toNat_lt
  have hmod : ((n.toNat : Int) % 2 ^ 32).toNat = n.toNat := by omega
  rw [UInt32.ofInt, hmod, UInt32.ofNat_toNat]

@[simp] theorem u64_ofInt_toNat (n : UInt64) : UInt64.ofInt (n.toNat : Int) = n := by
  have h := n.toNat_lt
  have hmod : ((n.toNat : Int) % 2 ^ 64).toNat = n.toNat := by omega
  rw [UInt64.ofInt, hmod, UInt64.ofNat_toNat]

/-! ### Points and tips -/

section Conversions

open Values

def pointToVec (point : Point) : List Value :=
  [.integer point.slot.toNat, .bytes point.hash]

def Point.tryInto : Values → Outcome Point :=
  Cursor.eval do
    let slot := UInt64.ofInt (← integer)
    let hash ← bytes
    end_
    pure { slot, hash }

def tipToVec (tip : Tip) : List Value :=
  [.array [.integer tip.slotNumber.toNat, .bytes tip.hash], .integer tip.blockNumber.toInt]

def Tip.tryInto : Values → Outcome Tip :=
  Cursor.eval do
    let tip_info_self ← array
    let (slotNumber, hash) ← Cursor.lift <| tip_info_self |> Cursor.eval do
      let slotNumber := UInt64.ofInt (← integer)
      let hash ← bytes
      end_
      pure (slotNumber, hash)
    let blockNumber := Int64.ofInt (← integer)
    end_
    pure { blockNumber, slotNumber, hash }

theorem Point.tryInto_pointToVec (point : Point) :
    Point.tryInto (pointToVec point) = .ok point := by
  simp [Point.tryInto, pointToVec, Cursor.eval, Cursor.bind_apply]

theorem Tip.tryInto_tipToVec (tip : Tip) : Tip.tryInto (tipToVec tip) = .ok tip := by
  simp [Tip.tryInto, tipToVec, Cursor.eval, Cursor.bind_apply]

@[simp] theorem plain_integer {n : Int} {depth : ℕ} :
    (Value.integer n).Plain depth ↔ -2 ^ 64 ≤ n ∧ n < 2 ^ 64 := by
  cases depth <;> rfl

theorem plain_u64 (n : UInt64) (depth : ℕ) : (Value.integer n.toNat).Plain depth := by
  have h := n.toNat_lt
  exact plain_integer.mpr ⟨by omega, by omega⟩

theorem plain_i64 (n : Int64) (depth : ℕ) : (Value.integer n.toInt).Plain depth := by
  have hlo := n.le_toInt
  have hhi := n.toInt_lt
  exact plain_integer.mpr ⟨by omega, by omega⟩

@[simp] theorem plain_bytes (b : Bytes) (depth : ℕ) : (Value.bytes b).Plain depth := by
  cases depth <;> trivial

theorem plain_array {values : List Value} {depth : ℕ} (h : ∀ v ∈ values, v.Plain depth) :
    (Value.array values).Plain (depth + 1) := h

theorem plain_pointToVec (point : Point) (depth : ℕ) :
    (Value.array (pointToVec point)).Plain (depth + 1) := by
  apply plain_array
  intro v hv
  simp only [pointToVec, List.mem_cons, List.not_mem_nil, or_false] at hv
  rcases hv with rfl | rfl
  · exact plain_u64 _ _
  · exact plain_bytes _ _

theorem plain_tipToVec (tip : Tip) (depth : ℕ) :
    (Value.array (tipToVec tip)).Plain (depth + 2) := by
  apply plain_array
  intro v hv
  simp only [tipToVec, List.mem_cons, List.not_mem_nil, or_false] at hv
  rcases hv with rfl | rfl
  · exact plain_pointToVec ⟨tip.slotNumber, tip.hash⟩ depth
  · exact plain_i64 _ _

/-! ### Block headers -/

structure WrappedBlockHeader where
  bytes : Bytes
  deriving DecidableEq

def WrappedBlockHeader.hash (blake2b : Bytes → Bytes) (header : WrappedBlockHeader) : Bytes :=
  blake2b header.bytes

def WrappedBlockHeader.tryInto : Values → Outcome WrappedBlockHeader :=
  Cursor.eval do
    let _ ← integer
    let bytes ← Values.bytes
    end_
    pure { bytes }

/-- A pair of byte strings, as in the two VRF positions of a header. -/
def vrfPair : Cursor (Bytes × Bytes) := do
  let values ← array
  Cursor.lift <| values |> Cursor.eval do
    let fst ← bytes
    let snd ← bytes
    end_
    pure (fst, snd)

/-- `TryInto<BlockHeader> for WrappedBlockHeader`. -/
def BlockHeader.tryInto (S : SerdeCbor) (blake2b : Bytes → Bytes)
    (header : WrappedBlockHeader) : Outcome BlockHeader := do
  let hash := header.hash blake2b
  let value ← Outcome.ofExcept (S.fromSlice header.bytes)
  value |> Cursor.eval do
    let outerArray ← array
    let header ← Cursor.lift <| outerArray |> Cursor.eval do
      let blockNumber := Int64.ofInt (← integer)
      let slotNumber := Int64.ofInt (← integer)
      let prevHash ← bytes
      let nodeVkey ← bytes
      let nodeVrfVkey ← bytes
      let (etaVrf0, etaVrf1) ← vrfPair
      let (leaderVrf0, leaderVrf1) ← vrfPair
      let blockSize := Int64.ofInt (← integer)
      let blockBodyHash ← bytes
      let poolOpcert ← bytes
      let unknown0 := Int64.ofInt (← integer)
      let unknown1 := Int64.ofInt (← integer)
      let unknown2 ← bytes
      let protocolMajorVersion := Int64.ofInt (← integer)
      let protocolMinorVersion := Int64.ofInt (← integer)
      end_
      pure { blockNumber, slotNumber, hash, prevHash, nodeVkey, nodeVrfVkey, etaVrf0, etaVrf1,
             leaderVrf0, leaderVrf1, blockSize, blockBodyHash, poolOpcert, unknown0, unknown1,
             unknown2, protocolMajorVersion, protocolMinorVersion : BlockHeader }
    end_
    pure header

/-- The values of a header, as `TryFrom<BlockHeader>` lists them. -/
def BlockHeader.toValues (header : BlockHeader) : List Value :=
  [.array [
    .integer header.blockNumber.toInt,
    .integer header.slotNumber.toInt,
    .bytes header.prevHash,
    .bytes header.nodeVkey,
    .bytes header.nodeVrfVkey,
    .array [.bytes header.etaVrf0, .bytes header.etaVrf1],
    .array [.bytes header.leaderVrf0, .bytes header.leaderVrf1],
    .integer header.blockSize.toInt,
    .bytes header.blockBodyHash,
    .bytes header.poolOpcert,
    .integer header.unknown0.toInt,
    .integer header.unknown1.toInt,
    .bytes header.unknown2,
    .integer header.protocolMajorVersion.toInt,
    .integer header.protocolMinorVersion.toInt]]

/-- `TryFrom<BlockHeader> for WrappedBlockHeader`. -/
def WrappedBlockHeader.tryFrom (S : SerdeCbor) (header : BlockHeader) :
    Outcome WrappedBlockHeader := do
  let bytes ← Outcome.ofExcept (S.toVec header.toValues)
  pure { bytes }

end Conversions

end Ouroboros
