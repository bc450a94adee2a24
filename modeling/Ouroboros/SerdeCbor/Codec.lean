import Ouroboros.Library.ByteParser
import Ouroboros.Library.BigEndian
import Ouroboros.SerdeCbor.Value

/-!
A CBOR codec that meets the laws of `SerdeCbor`.

The theorems about the network code hold for every lawful `SerdeCbor`. This
module shows that there is one and gives their examples something to run on: an
encoder in the shortest form, a parser with a nesting limit, and the round trip
between them as a `Parser.Reads` judgment.

A length or an integer of `2 ^ 64` or more has no CBOR head. Lists here are
unbounded, so the encoder writes such a number in unary behind the reserved
additional information 28.
-/

namespace Ouroboros.Cbor

open Streaming Streaming.Parser

/-- `n` times the byte 1, and a 0. -/
def unary : ℕ → Bytes
  | 0 => [0]
  | n + 1 => 1 :: unary n

def readUnary : Parser UInt8 String ℕ
  | [] => .eof
  | b :: bs =>
    if b = 0 then .done 0 bs
    else match readUnary bs with
      | .done n rest => .done (n + 1) rest
      | .eof => .eof
      | .fail e => .fail e

/-- The head of an item: its major type and argument. -/
def head (major n : ℕ) : Bytes :=
  let first (info : ℕ) : UInt8 := UInt8.ofNat (32 * major + info)
  if n < 24 then [first n]
  else if n < 256 ^ 1 then [first 24] ++ BigEndian.bytes 1 n
  else if n < 256 ^ 2 then [first 25] ++ BigEndian.bytes 2 n
  else if n < 256 ^ 4 then [first 26] ++ BigEndian.bytes 4 n
  else if n < 256 ^ 8 then [first 27] ++ BigEndian.bytes 8 n
  else [first 28] ++ unary n

def readArgument (info : ℕ) : Parser UInt8 String ℕ :=
  if info < 24 then Parser.pure info
  else if info = 24 then (Parser.take 1).map BigEndian.value
  else if info = 25 then (Parser.take 2).map BigEndian.value
  else if info = 26 then (Parser.take 4).map BigEndian.value
  else if info = 27 then (Parser.take 8).map BigEndian.value
  else if info = 28 then readUnary
  else Parser.raise "unassigned type"

def readHead : Parser UInt8 String (ℕ × ℕ) :=
  Parser.one.bind fun b => (readArgument (b.toNat % 32)).map (b.toNat / 32, ·)

mutual

def encode : Value → Bytes
  | .null => head 7 22
  | .bool b => head 7 (if b then 21 else 20)
  | .integer (.ofNat n) => head 0 n
  | .integer (.negSucc n) => head 1 n
  | .float bits => [0xfb] ++ BigEndian.bytes 8 bits.toNat
  | .bytes b => head 2 b.length ++ b
  | .text s => head 3 s.toUTF8.size ++ s.toUTF8.toList
  | .array values => head 4 values.length ++ encodeValues values
  | .map entries => head 5 entries.length ++ encodeEntries entries
  | .tag t value => head 6 t.toNat ++ encode value

def encodeValues : List Value → Bytes
  | [] => []
  | v :: vs => encode v ++ encodeValues vs

def encodeEntries : List (Value × Value) → Bytes
  | [] => []
  | (k, v) :: es => encode k ++ encode v ++ encodeEntries es

end

def readEntry (nested : Parser UInt8 String Value) : Parser UInt8 String (Value × Value) :=
  nested.bind fun k => nested.map (k, ·)

/-- What follows the head of an item whose nested items are read by `nested`. -/
def readBody (nested : Parser UInt8 String Value) : ℕ × ℕ → Parser UInt8 String Value
  | (0, n) => Parser.pure (.integer (.ofNat n))
  | (1, n) => Parser.pure (.integer (.negSucc n))
  | (2, n) => (Parser.take n).map .bytes
  | (4, n) => (nested.count n).map .array
  | (5, n) => ((readEntry nested).count n).map .map
  | (7, 20) => Parser.pure (.bool false)
  | (7, 21) => Parser.pure (.bool true)
  | (7, 22) => Parser.pure .null
  | _ => Parser.raise "unsupported item"

def readItem (nested : Parser UInt8 String Value) : Parser UInt8 String Value :=
  readHead.bind (readBody nested)

def readValue : ℕ → Parser UInt8 String Value
  | 0 => readItem (Parser.raise "recursion limit exceeded")
  | depth + 1 => readItem (readValue depth)

/-- An array, as the deserializer of `Vec<Value>` reads it. -/
def readValues : Parser UInt8 String (List Value) :=
  readHead.bind fun
    | (4, n) => (readValue 3).count n
    | _ => Parser.raise "invalid type"

/-! ### The round trip -/

theorem reads_unary (n : ℕ) : Reads readUnary (unary n) n := by
  induction n with
  | zero =>
      refine ⟨fun _ => rfl, fun q hq hne => ?_⟩
      cases q with
      | nil => rfl
      | cons b bs =>
          obtain ⟨rfl, hbs⟩ := List.cons_prefix_cons.mp hq
          exact absurd (by rw [List.prefix_nil.mp hbs]; rfl) hne
  | succ n ih =>
      refine ⟨fun rest => ?_, fun q hq hne => ?_⟩
      · simp [unary, readUnary, ih.done]
      · cases q with
        | nil => rfl
        | cons b bs =>
            obtain ⟨rfl, hbs⟩ := List.cons_prefix_cons.mp hq
            have heof := ih.eof bs hbs fun h => hne (by rw [h]; rfl)
            simp [readUnary, heof]

theorem reads_bigEndian {width n : ℕ} (h : n < 256 ^ width) :
    Reads ((Parser.take width).map BigEndian.value : Parser UInt8 String ℕ)
      (BigEndian.bytes width n) n := by
  have htake := (reads_take (ε := String) (BigEndian.bytes width n)).map BigEndian.value
  rwa [BigEndian.bytes_length, BigEndian.value_bytes_of_lt h] at htake

theorem reads_head {major : ℕ} (n : ℕ) (hmajor : major < 8) :
    Reads readHead (head major n) (major, n) := by
  have hstep : ∀ {info : ℕ} {w : Bytes}, info < 32 → Reads (readArgument info) w n →
      Reads readHead ([UInt8.ofNat (32 * major + info)] ++ w) (major, n) := by
    intro info w hinfo hw
    have hfirst : (UInt8.ofNat (32 * major + info)).toNat = 32 * major + info := by
      rw [UInt8.toNat_ofNat']
      omega
    have hmod : (32 * major + info) % 32 = info := by omega
    have hdiv : (32 * major + info) / 32 = major := by omega
    refine (reads_one _).bind ?_
    rw [hfirst, hmod, hdiv]
    exact hw.map (major, ·)
  simp only [head]
  split_ifs with h₀ h₁ h₂ h₄ h₈
  · exact hstep (by omega) (by rw [readArgument, if_pos h₀]; exact reads_pure n)
  · exact hstep (by omega) (reads_bigEndian h₁)
  · exact hstep (by omega) (reads_bigEndian h₂)
  · exact hstep (by omega) (reads_bigEndian h₄)
  · exact hstep (by omega) (reads_bigEndian h₈)
  · exact hstep (by omega) (reads_unary n)

theorem encodeValues_eq (values : List Value) : encodeValues values = values.flatMap encode := by
  induction values with
  | nil => rfl
  | cons v vs ih => rw [encodeValues, ih, List.flatMap_cons]

theorem encodeEntries_eq (entries : List (Value × Value)) :
    encodeEntries entries = entries.flatMap fun e => encode e.1 ++ encode e.2 := by
  induction entries with
  | nil => rfl
  | cons e es ih => rw [encodeEntries, ih, List.flatMap_cons]

theorem reads_scalar (nested : Parser UInt8 String Value) {major n : ℕ} {v : Value}
    (hmajor : major < 8) (hbody : readBody nested (major, n) = Parser.pure v) :
    Reads (readItem nested) (head major n) v := by
  have h := Reads.bind (f := readBody nested) (reads_head n hmajor) (hbody ▸ reads_pure v)
  rwa [List.append_nil] at h

theorem reads_entry {nested : Parser UInt8 String Value} {e : Value × Value}
    (hkey : Reads nested (encode e.1) e.1) (hvalue : Reads nested (encode e.2) e.2) :
    Reads (readEntry nested) (encode e.1 ++ encode e.2) e :=
  hkey.bind (hvalue.map (e.1, ·))

theorem readValue_eq (depth : ℕ) : ∃ nested, readValue depth = readItem nested := by
  cases depth <;> exact ⟨_, rfl⟩

theorem reads_integer (depth : ℕ) (n : Int) :
    Reads (readValue depth) (encode (.integer n)) (.integer n) := by
  obtain ⟨nested, hdepth⟩ := readValue_eq depth
  rw [hdepth]
  cases n with
  | ofNat n => exact reads_scalar nested (by omega) rfl
  | negSucc n => exact reads_scalar nested (by omega) rfl

/-- Every plain value is read back from its encoding. -/
theorem reads_value : ∀ (depth : ℕ) (v : Value), v.Plain depth →
    Reads (readValue depth) (encode v) v
  | depth, .bool b, _ => by
      obtain ⟨nested, hdepth⟩ := readValue_eq depth
      rw [hdepth]
      cases b <;> exact reads_scalar nested (by omega) rfl
  | depth, .integer n, _ => reads_integer depth n
  | depth, .bytes b, _ => by
      obtain ⟨nested, hdepth⟩ := readValue_eq depth
      rw [hdepth]
      exact (reads_head b.length (by omega)).bind ((reads_take b).map Value.bytes)
  | depth + 1, .array values, h => by
      have hvalues := reads_count values fun v hv => reads_value depth v (h v hv)
      rw [encode, encodeValues_eq]
      exact (reads_head values.length (by omega)).bind (hvalues.map Value.array)
  | depth + 1, .map entries, h => by
      have hentries := reads_count entries fun e he => by
        obtain ⟨⟨k, -, hk⟩, hplain⟩ := h.1 e he
        have hkey : Reads (readValue depth) (encode e.1) e.1 := by
          rw [hk]
          exact reads_integer depth k
        exact reads_entry hkey (reads_value depth e.2 hplain)
      rw [encode, encodeEntries_eq]
      exact (reads_head entries.length (by omega)).bind (hentries.map Value.map)
  | depth, .null, h | depth, .float _, h | depth, .text _, h | depth, .tag _ _, h => by
      cases depth <;> exact h.elim

theorem reads_values {values : List Value} (h : Plain values) :
    Reads readValues (head 4 values.length ++ encodeValues values) values := by
  rw [encodeValues_eq]
  exact (reads_head values.length (by omega)).bind
    (reads_count values fun v hv => reads_value 3 v (h v hv))

theorem head_ne_nil (major n : ℕ) : head major n ≠ [] := by
  simp only [head]
  split_ifs <;> simp

theorem encode_ne_nil (v : Value) : encode v ≠ [] := by
  cases v with
  | integer n => cases n <;> simp [encode, head_ne_nil]
  | _ => simp [encode, head_ne_nil]

/-! ### The codec as a `SerdeCbor` -/

/-- The order of `serde_cbor::Value` on integers; other keys are compared by
major type alone, which no plain map can tell. -/
def cmp : Value → Value → Ordering
  | .integer j, .integer k => compare j.natAbs k.natAbs
  | v, w => compare (major v) (major w)
where
  major : Value → ℕ
    | .integer n => if 0 ≤ n then 0 else 1
    | .bytes _ => 2
    | .text _ => 3
    | .array _ => 4
    | .map _ => 5
    | .tag _ _ => 6
    | .null | .bool _ | .float _ => 7

def serdeCbor : SerdeCbor where
  toDecoder := readValues.decoder "stalled"
  toVec values := .ok (head 4 values.length ++ encodeValues values)
  fromSlice b :=
    match readValues b with
    | .done values [] => .ok values
    | .done _ (_ :: _) => .error "trailing data"
    | .eof => .error "EOF while parsing a value"
    | .fail e => .error e
  cmp := cmp

theorem serdeCbor_lawful : serdeCbor.Lawful where
  toVec_ok values _ := ⟨_, rfl⟩
  codeword values b hplain hb := by
    cases hb
    exact (reads_values hplain).codeword (by simp [head_ne_nil]) "stalled"
  fromSlice values b hplain hb := by
    cases hb
    have hdone := (reads_values hplain).done []
    rw [List.append_nil] at hdone
    simp only [serdeCbor, hdone]
  cmp_integer _ _ := rfl

end Ouroboros.Cbor
