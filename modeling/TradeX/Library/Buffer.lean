import Mathlib.Data.List.GetD
import Mathlib.Algebra.Ring.Nat

/-!
# Buffers

A piece of memory that is written and read in ranges. A range that has been written reads back
(`read_write_self`), and the ranges beside it are as before (`read_write_of_disjoint`). What is
written behind what there is extends it (`read_write_append`).
-/

/-- `size` cells with their contents. -/
structure Buffer (α : Type) where
  size : ℕ
  cells : ℕ → α

namespace Buffer

variable {α : Type}

/-- The `n` cells from `offset` on. -/
def read (b : Buffer α) (offset n : ℕ) : List α :=
  (List.range n).map fun i => b.cells (offset + i)

/-- The cells from `offset` on become those of a list. -/
def write (b : Buffer α) (offset : ℕ) (l : List α) : Buffer α where
  size := b.size
  cells i := if offset ≤ i then l.getD (i - offset) (b.cells i) else b.cells i

@[simp] theorem size_write (b : Buffer α) (offset : ℕ) (l : List α) :
    (b.write offset l).size = b.size := rfl

@[simp] theorem length_read (b : Buffer α) (offset n : ℕ) : (b.read offset n).length = n := by
  simp [read]

@[simp] theorem read_zero (b : Buffer α) (offset : ℕ) : b.read offset 0 = [] := rfl

theorem read_add (b : Buffer α) (offset n m : ℕ) :
    b.read offset (n + m) = b.read offset n ++ b.read (offset + n) m := by
  simp only [read, List.range_add, List.map_append, List.map_map, Function.comp_def, Nat.add_assoc]

theorem take_read (b : Buffer α) {offset n m : ℕ} (h : m ≤ n) :
    (b.read offset n).take m = b.read offset m := by
  obtain ⟨k, rfl⟩ := Nat.exists_eq_add_of_le h
  rw [read_add, List.take_left' (length_read ..)]

theorem drop_read (b : Buffer α) {offset n m : ℕ} (h : m ≤ n) :
    (b.read offset n).drop m = b.read (offset + m) (n - m) := by
  obtain ⟨k, rfl⟩ := Nat.exists_eq_add_of_le h
  rw [read_add, List.drop_left' (length_read ..), Nat.add_sub_cancel_left]

theorem read_write_self (b : Buffer α) (offset : ℕ) (l : List α) :
    (b.write offset l).read offset l.length = l := by
  refine List.ext_getElem (length_read ..) fun i hi hi' => ?_
  simp [read, write, hi']

theorem read_write_of_disjoint (b : Buffer α) {offset offset' n : ℕ} {l : List α}
    (h : offset' + n ≤ offset ∨ offset + l.length ≤ offset') :
    (b.write offset l).read offset' n = b.read offset' n := by
  refine List.map_congr_left fun i hi => ?_
  have hlt := List.mem_range.1 hi
  simp only [write]
  split_ifs with hle
  · rw [List.getD_eq_default _ _ (by omega)]
  · rfl

/-- A list is written behind the first `n` cells. -/
theorem read_write_append (b : Buffer α) (n : ℕ) (l : List α) :
    (b.write n l).read 0 (n + l.length) = b.read 0 n ++ l := by
  have hself : (b.write n l).read (0 + n) l.length = l := by
    rw [Nat.zero_add]
    exact read_write_self b n l
  rw [read_add, hself, read_write_of_disjoint b (Or.inl (Nat.le_of_eq (Nat.zero_add n)))]

/-- The `n` bytes of a record from `offset` on, as a little-endian integer. -/
def fieldAt (bytes : List UInt8) (offset n : ℕ) : ℕ :=
  ((bytes.drop offset).take n).foldr (fun b value => b.toNat + 256 * value) 0

theorem foldr_bytes_lt : ∀ (l : List UInt8),
    l.foldr (fun b value => b.toNat + 256 * value) 0 < 256 ^ l.length
  | [] => Nat.one_pos
  | b :: l => by
    have hb : b.toNat < 256 := b.toNat_lt
    have hl := foldr_bytes_lt l
    rw [List.foldr_cons, List.length_cons, Nat.pow_succ]
    omega

theorem fieldAt_lt (bytes : List UInt8) (offset n : ℕ) : fieldAt bytes offset n < 256 ^ n :=
  Nat.lt_of_lt_of_le (foldr_bytes_lt _)
    (Nat.pow_le_pow_right (by decide) (List.length_take_le n _))

/-- The `n` bytes of an integer, the least significant first. -/
def bytesLE : ℕ → ℕ → List UInt8
  | 0, _ => []
  | n + 1, value => UInt8.ofNat value :: bytesLE n (value / 256)

@[simp] theorem length_bytesLE : ∀ n value, (bytesLE n value).length = n
  | 0, _ => rfl
  | n + 1, value => by rw [bytesLE, List.length_cons, length_bytesLE n]

theorem foldr_bytesLE : ∀ n value,
    (bytesLE n value).foldr (fun b value => b.toNat + 256 * value) 0 = value % 256 ^ n
  | 0, value => (Nat.mod_one value).symm
  | n + 1, value => by
    have hbyte : (UInt8.ofNat value).toNat = value % 256 := UInt8.toNat_ofNat'
    rw [bytesLE, List.foldr_cons, foldr_bytesLE n, hbyte, Nat.pow_succ', Nat.mod_mul]

/-- An integer is read back from its bytes. -/
theorem fieldAt_bytesLE {n value : ℕ} (h : value < 256 ^ n) : fieldAt (bytesLE n value) 0 n =
    value := by
  rw [fieldAt, List.drop_zero, List.take_of_length_le (Nat.le_of_eq (length_bytesLE n value)),
    foldr_bytesLE, Nat.mod_eq_of_lt h]

/-- A field behind the first ones of a record. -/
theorem fieldAt_append {front : List UInt8} {offset : ℕ} (h : front.length ≤ offset)
    (bytes : List UInt8) (n : ℕ) :
    fieldAt (front ++ bytes) offset n = fieldAt bytes (offset - front.length) n := by
  rw [fieldAt, List.drop_append, List.drop_of_length_le h, List.nil_append, fieldAt]

/-- The first field of a record. -/
theorem fieldAt_bytesLE_append {n value : ℕ} (h : value < 256 ^ n) (bytes : List UInt8) :
    fieldAt (bytesLE n value ++ bytes) 0 n = value := by
  rw [fieldAt, List.drop_zero, List.take_left' (length_bytesLE n value), foldr_bytesLE,
    Nat.mod_eq_of_lt h]

end Buffer
