import Ouroboros.SerdeCbor.Codec

/-!
How long encoded values get.

The head of an item has nine bytes at most. What an item takes besides are its bytes, or
its own items.
-/

namespace Ouroboros

mutual

/-- A bound for the encoding of a value. -/
def Value.size : Value → ℕ
  | .null | .bool _ | .integer _ | .float _ => 9
  | .bytes b => 9 + b.length
  | .text s => 9 + s.toUTF8.size
  | .array values => 9 + sizeItems values
  | .map entries => 9 + sizeEntries entries
  | .tag _ value => 9 + value.size

def Value.sizeItems : List Value → ℕ
  | [] => 0
  | v :: vs => v.size + sizeItems vs

def Value.sizeEntries : List (Value × Value) → ℕ
  | [] => 0
  | (k, v) :: es => k.size + v.size + sizeEntries es

end

/-- `to_vec` writes heads of nine bytes at most, as long as the lengths have heads. -/
def SerdeCbor.Compact (S : SerdeCbor) : Prop :=
  ∀ values b, Plain values → S.toVec values = .ok b → (Value.array values).size < 2 ^ 64 →
    b.length ≤ (Value.array values).size

namespace Value

theorem size_pos (v : Value) : 0 < v.size := by
  cases v <;> rw [size] <;> omega

theorem length_le_sizeItems (values : List Value) : values.length ≤ sizeItems values := by
  induction values with
  | nil => exact Nat.le_refl 0
  | cons v vs ih =>
      have hv := v.size_pos
      rw [sizeItems, List.length_cons]
      omega

theorem length_le_sizeEntries (entries : List (Value × Value)) :
    entries.length ≤ sizeEntries entries := by
  induction entries with
  | nil => exact Nat.le_refl 0
  | cons e es ih =>
      have hk := e.1.size_pos
      rw [sizeEntries, List.length_cons]
      omega

/-- Entries of one size at most. -/
theorem sizeEntries_le {entries : List (Value × Value)} {n : ℕ}
    (h : ∀ e ∈ entries, e.1.size + e.2.size ≤ n) : sizeEntries entries ≤ entries.length * n := by
  induction entries with
  | nil => exact Nat.zero_le _
  | cons e es ih =>
      obtain ⟨he, hes⟩ := List.forall_mem_cons.mp h
      have hes := ih hes
      rw [sizeEntries, List.length_cons, Nat.add_one_mul]
      omega

end Value

namespace Cbor

open Value

theorem length_head_le {major n : ℕ} (h : n < 2 ^ 64) : (head major n).length ≤ 9 := by
  have h8 : n < 256 ^ 8 := by omega
  simp only [head]
  split_ifs <;> simp [BigEndian.bytes_length]

theorem length_encodeValues_le {values : List Value}
    (h : ∀ v ∈ values, v.size < 2 ^ 64 → (encode v).length ≤ v.size)
    (hsize : sizeItems values < 2 ^ 64) : (encodeValues values).length ≤ sizeItems values := by
  induction values with
  | nil => exact Nat.le_refl 0
  | cons v vs ih =>
      obtain ⟨hv, hvs⟩ := List.forall_mem_cons.mp h
      rw [sizeItems] at hsize ⊢
      rw [encodeValues, List.length_append]
      exact Nat.add_le_add (hv (by omega)) (ih hvs (by omega))

theorem length_encodeEntries_le {entries : List (Value × Value)}
    (h : ∀ e ∈ entries, e.1.size + e.2.size < 2 ^ 64 →
      (encode e.1).length ≤ e.1.size ∧ (encode e.2).length ≤ e.2.size)
    (hsize : sizeEntries entries < 2 ^ 64) :
    (encodeEntries entries).length ≤ sizeEntries entries := by
  induction entries with
  | nil => exact Nat.le_refl 0
  | cons e es ih =>
      obtain ⟨he, hes⟩ := List.forall_mem_cons.mp h
      rw [sizeEntries] at hsize ⊢
      obtain ⟨hk, hv⟩ := he (by omega)
      rw [encodeEntries, List.length_append, List.length_append]
      exact Nat.add_le_add (Nat.add_le_add hk hv) (ih hes (by omega))

theorem length_encode_integer {n : Int} (h : -2 ^ 64 ≤ n ∧ n < 2 ^ 64) :
    (encode (.integer n)).length ≤ 9 := by
  cases n with
  | ofNat n => exact length_head_le (Int.ofNat_lt.mp h.2)
  | negSucc n => exact length_head_le (by omega)

/-- By recursion on the nesting. -/
theorem length_encode_le : ∀ (depth : ℕ) (v : Value), v.Plain depth → v.size < 2 ^ 64 →
    (encode v).length ≤ v.size
  | depth, .bool b, _, _ => length_head_le (by split <;> omega)
  | depth, .integer n, h, _ => length_encode_integer (by cases depth <;> exact h)
  | depth, .bytes b, _, hsize => by
      rw [size] at hsize ⊢
      rw [encode, List.length_append]
      exact Nat.add_le_add (length_head_le (by omega)) (Nat.le_refl _)
  | depth + 1, .array values, h, hsize => by
      have hlen := length_le_sizeItems values
      rw [size] at hsize ⊢
      rw [encode, List.length_append]
      refine Nat.add_le_add (length_head_le (by omega)) (length_encodeValues_le ?_ (by omega))
      exact fun v hv hsize => length_encode_le depth v (h v hv) hsize
  | depth + 1, .map entries, h, hsize => by
      have hlen := length_le_sizeEntries entries
      rw [size] at hsize ⊢
      rw [encode, List.length_append]
      refine Nat.add_le_add (length_head_le (by omega)) (length_encodeEntries_le ?_ (by omega))
      intro e he hsize
      obtain ⟨⟨k, hk, hkey⟩, hplain⟩ := h.1 e he
      refine ⟨?_, length_encode_le depth e.2 hplain (by omega)⟩
      rw [hkey]
      exact length_encode_integer ⟨by omega, by omega⟩
  | depth, .null, h, _ | depth, .float _, h, _ | depth, .text _, h, _ | depth, .tag _ _, h, _ => by
      cases depth <;> exact h.elim

theorem serdeCbor_compact : serdeCbor.Compact := by
  intro values b hplain hb hsize
  cases hb
  exact length_encode_le 4 (.array values) hplain hsize

end Cbor

end Ouroboros
