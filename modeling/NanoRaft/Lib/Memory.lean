import Mathlib.Tactic

/-!
# Bytes in memory

A memory gives a byte at every offset from some base, before it as well as after it, so
that an access outside an object can be described. `read`, `write` and `copy` are what the
C functions do to it, `copy` with the meaning of `memmove`; the lemmas say what is read
after a write or a copy. `memcpy` means the same where the two ranges are `Separate`.

The last section has fixed-width numbers in little-endian order.
-/

/-- The byte at each offset. -/
abbrev Memory := ℤ → UInt8

namespace Memory

/-- The `n` bytes from `off` on. -/
def read (m : Memory) (off : ℤ) (n : ℕ) : List UInt8 := (List.range n).map fun i : ℕ => m (off + i)

/-- Put the bytes of a list from `off` on. -/
def write (m : Memory) (off : ℤ) (bs : List UInt8) : Memory := fun i =>
  if off ≤ i ∧ i < off + bs.length then bs.getD (i - off).toNat 0 else m i

/-- Copy `n` bytes from `src` to `dst`, as if through a buffer; a negative count copies
nothing. -/
def copy (m : Memory) (dst src n : ℤ) : Memory := fun i =>
  if dst ≤ i ∧ i < dst + n then m (src + (i - dst)) else m i

/-! ## Reading -/

@[simp] theorem length_read (m : Memory) (off : ℤ) (n : ℕ) : (m.read off n).length = n := by
  rw [read, List.length_map, List.length_range]

@[simp] theorem getElem_read (m : Memory) (off : ℤ) (n i : ℕ) (h : i < (m.read off n).length) :
    (m.read off n)[i] = m (off + i) := by
  simp only [read, List.getElem_map, List.getElem_range]

/-- Two memories with the same bytes in a range give the same reading of it. -/
theorem read_congr {m m' : Memory} {off off' : ℤ} {n : ℕ}
    (h : ∀ i : ℕ, i < n → m (off + i) = m' (off' + i)) : m.read off n = m'.read off' n := by
  apply List.ext_getElem
  · rw [length_read, length_read]
  · intro i h1 _
    rw [length_read] at h1
    rw [getElem_read, getElem_read, h i h1]

theorem read_add (m : Memory) (off : ℤ) (n k : ℕ) :
    m.read off (n + k) = m.read off n ++ m.read (off + n) k := by
  rw [read, List.range_add, List.map_append, List.map_map]
  congr 1
  apply List.map_congr_left
  intro i _
  rw [Function.comp_apply, Nat.cast_add, add_assoc]

theorem take_read (m : Memory) (off : ℤ) {n k : ℕ} (h : k ≤ n) :
    (m.read off n).take k = m.read off k := by
  obtain ⟨j, rfl⟩ := Nat.exists_eq_add_of_le h
  rw [read_add, List.take_left' (length_read ..)]

theorem drop_read (m : Memory) (off : ℤ) {n k : ℕ} (h : k ≤ n) :
    (m.read off n).drop k = m.read (off + k) (n - k) := by
  obtain ⟨j, rfl⟩ := Nat.exists_eq_add_of_le h
  rw [read_add, List.drop_left' (length_read ..), Nat.add_sub_cancel_left]

/-! ## Writing and copying -/

/-- What was written is read back. -/
theorem read_write_self (m : Memory) (off : ℤ) (bs : List UInt8) :
    (m.write off bs).read off bs.length = bs := by
  apply List.ext_getElem
  · rw [length_read]
  · intro i _ h
    have hi : (off + i - off).toNat = i := by omega
    rw [getElem_read, write, if_pos (by omega), hi, List.getD_eq_getElem?_getD,
      List.getElem?_eq_getElem h, Option.getD_some]

/-- A write does not change what lies below it. -/
theorem read_write_of_le (m : Memory) {off off' : ℤ} (bs : List UInt8) {n : ℕ}
    (h : off + n ≤ off') : (m.write off' bs).read off n = m.read off n := by
  apply read_congr
  intro i hi
  rw [write, if_neg (by omega)]

/-- Writing right behind a range appends to it. -/
theorem read_write_append (m : Memory) {off off' : ℤ} {n : ℕ} (bs : List UInt8)
    (h : off' = off + n) :
    (m.write off' bs).read off (n + bs.length) = m.read off n ++ bs := by
  subst h
  rw [read_add, read_write_of_le m bs (le_refl _), read_write_self]

/-- A copied range is read at its new place. -/
theorem read_copy (m : Memory) (dst src : ℤ) (n : ℕ) :
    (m.copy dst src n).read dst n = m.read src n := by
  apply read_congr
  intro i hi
  rw [copy, if_pos (by omega)]
  congr 1
  omega

/-! ## Overlap -/

/-- Two ranges of `n` bytes have no byte in common; a negative count is no range. -/
def Separate (dst src n : ℤ) : Prop := n = 0 ∨ (0 < n ∧ (dst + n ≤ src ∨ src + n ≤ dst))

instance decidableSeparate (dst src n : ℤ) : Decidable (Separate dst src n) :=
  inferInstanceAs (Decidable (_ ∨ _))

/-- What follows the first `k` of `n` bytes is apart from the front if it is no more than `k`
bytes. -/
theorem separate_rest_iff {k n : ℤ} (h0 : 0 ≤ k) (hk : k ≤ n) :
    Separate 0 k (n - k) ↔ n ≤ 2 * k := by
  unfold Separate
  omega

end Memory

/-! ## Little-endian numbers -/

namespace LittleEndian

/-- The `k` low bytes of a number, lowest first. -/
def bytes : ℕ → ℕ → List UInt8
  | 0, _ => []
  | k + 1, n => n.toUInt8 :: bytes k (n / 256)

/-- The number whose bytes are given, lowest first. -/
def value : List UInt8 → ℕ
  | [] => 0
  | b :: bs => b.toNat + 256 * value bs

@[simp] theorem length_bytes (k n : ℕ) : (bytes k n).length = k := by
  induction k generalizing n with
  | zero => rfl
  | succ k ih => rw [bytes, List.length_cons, ih]

theorem value_lt (bs : List UInt8) : value bs < 256 ^ bs.length := by
  induction bs with
  | nil => exact Nat.one_pos
  | cons b bs ih =>
    have hb := b.toNat_lt
    rw [value, List.length_cons, pow_succ]
    omega

/-- Enough bytes hold the number. -/
theorem value_bytes {k n : ℕ} (h : n < 256 ^ k) : value (bytes k n) = n := by
  induction k generalizing n with
  | zero =>
    rw [pow_zero] at h
    rw [bytes, value]
    omega
  | succ k ih =>
    rw [pow_succ] at h
    have hlow : n.toUInt8.toNat = n % 256 := UInt8.toNat_ofNat'
    rw [bytes, value, ih (by omega), hlow]
    omega

end LittleEndian
