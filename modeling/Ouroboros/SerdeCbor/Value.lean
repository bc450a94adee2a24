import Ouroboros.Library.StreamDecoder
import Mathlib.Algebra.Group.Int.Defs
import Mathlib.Algebra.Group.Nat.Defs

/-!
The interface of the `serde_cbor` crate, as far as the network code uses it.

`Value` is the crate's value tree. `SerdeCbor` collects the functions that are
called on it: `to_vec`, the streaming deserializer of `Vec<Value>` (one call of
its `next`), `from_slice`, and the order on values that a `BTreeMap` of them is
sorted by. None of them is defined here; `SerdeCbor.Lawful` states what the
code relies on, and only for `Plain` values, which are the ones the codecs of
the mini-protocols write.
-/

namespace Ouroboros

abbrev Bytes := List UInt8

/-- `serde_cbor::Value`. A float is its bit pattern, and the entries of a map
are listed in the order of the `BTreeMap`. -/
inductive Value
  | null
  | bool (b : Bool)
  | integer (n : Int)
  | float (bits : UInt64)
  | bytes (b : Bytes)
  | text (s : String)
  | array (values : List Value)
  | map (entries : List (Value × Value))
  | tag (t : UInt64) (value : Value)

/-- Integers in the range of CBOR, booleans, byte strings, arrays, and maps with
ascending non-negative integer keys, nested at most `depth` deep. -/
def Value.Plain : ℕ → Value → Prop
  | _, .bool _ => True
  | _, .integer n => -2 ^ 64 ≤ n ∧ n < 2 ^ 64
  | _, .bytes _ => True
  | depth + 1, .array values => ∀ v ∈ values, Plain depth v
  | depth + 1, .map entries =>
      (∀ e ∈ entries, (∃ k : ℕ, k < 2 ^ 64 ∧ e.1 = .integer k) ∧ Plain depth e.2) ∧
        entries.Pairwise fun e f => ∀ j k : ℕ, e.1 = .integer j → f.1 = .integer k → j < k
  | _, _ => False

/-- The items of a message. No codec nests more than three arrays. -/
def Plain (values : List Value) : Prop := ∀ v ∈ values, v.Plain 3

structure SerdeCbor extends Streaming.Decoder UInt8 (List Value) String where
  /-- `to_vec` of a `Vec<Value>`. -/
  toVec : List Value → Except String Bytes
  /-- `from_slice` to a `Vec<Value>`. -/
  fromSlice : Bytes → Except String (List Value)
  /-- `Value::cmp`. -/
  cmp : Value → Value → Ordering

/-- What the code relies on: plain values can be written, what was written is
read back by the streaming deserializer whatever follows, an input that ends
inside it is reported as such, and non-negative integer keys are ordered by
magnitude. -/
structure SerdeCbor.Lawful (S : SerdeCbor) : Prop where
  toVec_ok : ∀ values, Plain values → ∃ b, S.toVec values = .ok b
  codeword : ∀ values b, Plain values → S.toVec values = .ok b →
    S.toDecoder.Codeword b values
  fromSlice : ∀ values b, Plain values → S.toVec values = .ok b →
    S.fromSlice b = .ok values
  cmp_integer : ∀ j k : ℕ, S.cmp (.integer j) (.integer k) = compare j k

end Ouroboros
