import Mathlib.Tactic
import Mathlib.Data.List.Basic

/-!
# Byte buffers

A fixed-size array of bytes, with the reads and writes a program performs on it.

* `Buf n`, `byte`, `slice`, `put`, `fill`: the array, reading one byte or a range, writing a range.
* `splice`: a write of the whole array that has stopped half-way.
* `byte_put`, `slice_put_same`, `slice_put_disj`: what a read sees after a write.
* `leBytes`, `leValue`, **`leValue_leBytes`**: little-endian encoding of a number and its inverse.
-/

namespace ByteBuf

/-- The bytes of an ASCII string. -/
def ascii (s : String) : List UInt8 := s.toList.map fun c => UInt8.ofNat c.toNat

/-- An array of `n` bytes. -/
@[ext] structure Buf (n : ℕ) where
  val : Fin n → UInt8

namespace Buf

variable {n : ℕ}

/-- The byte at index `k`; an index past the end reads `0`. -/
def byte (b : Buf n) (k : ℕ) : UInt8 := if h : k < n then b.val ⟨k, h⟩ else 0

/-- The `len` bytes from `off` on. -/
def slice (b : Buf n) (off len : ℕ) : List UInt8 := (List.range len).map fun k => b.byte (off + k)

/-- Write `bs` from `off` on. -/
def put (b : Buf n) (off : ℕ) (bs : List UInt8) : Buf n :=
  ⟨fun k => if off ≤ k.1 ∧ k.1 < off + bs.length then bs.getD (k.1 - off) 0 else b.val k⟩

/-- Zero the `len` bytes from `off` on. -/
def fill (b : Buf n) (off len : ℕ) : Buf n :=
  ⟨fun k => if off ≤ k.1 ∧ k.1 < off + len then 0 else b.val k⟩

/-- The array of zeros. -/
def zero (n : ℕ) : Buf n := ⟨fun _ => 0⟩

theorem ext_byte {a b : Buf n} (h : ∀ k < n, a.byte k = b.byte k) : a = b := by
  refine Buf.ext (funext fun k => ?_)
  have := h k.1 k.2
  simpa only [byte, dif_pos k.2] using this

theorem byte_of_le (b : Buf n) {k : ℕ} (h : n ≤ k) : b.byte k = 0 := by
  simp [byte, Nat.not_lt.mpr h]

@[simp] theorem byte_zero (k : ℕ) : (zero n).byte k = 0 := by
  unfold byte zero; split <;> rfl

theorem byte_put (b : Buf n) (off : ℕ) (bs : List UInt8) (k : ℕ) :
    (b.put off bs).byte k =
      if off ≤ k ∧ k < off + bs.length ∧ k < n then bs.getD (k - off) 0 else b.byte k := by
  unfold byte put
  by_cases hk : k < n
  · rw [dif_pos hk, dif_pos hk]
    simp only [hk, and_true]
  · rw [dif_neg hk, dif_neg hk, if_neg (by omega)]

theorem byte_put_of_mem (b : Buf n) {off k : ℕ} {bs : List UInt8} (h : off ≤ k)
    (h' : k < off + bs.length) (hn : k < n) : (b.put off bs).byte k = bs.getD (k - off) 0 := by
  rw [byte_put, if_pos ⟨h, h', hn⟩]

theorem byte_put_of_not (b : Buf n) {off k : ℕ} {bs : List UInt8}
    (h : k < off ∨ off + bs.length ≤ k) : (b.put off bs).byte k = b.byte k := by
  rw [byte_put, if_neg (by omega)]

theorem byte_fill (b : Buf n) (off len k : ℕ) :
    (b.fill off len).byte k = if off ≤ k ∧ k < off + len then 0 else b.byte k := by
  unfold byte fill
  by_cases hk : k < n
  · rw [dif_pos hk, dif_pos hk]
  · rw [dif_neg hk, dif_neg hk, ite_self]

theorem byte_fill_of_not (b : Buf n) {off len k : ℕ} (h : k < off ∨ off + len ≤ k) :
    (b.fill off len).byte k = b.byte k := by
  rw [byte_fill, if_neg (by omega)]

@[simp] theorem length_slice (b : Buf n) (off len : ℕ) : (b.slice off len).length = len := by
  simp [slice]

theorem getD_slice (b : Buf n) (off len k : ℕ) (h : k < len) :
    (b.slice off len).getD k 0 = b.byte (off + k) := by
  simp [slice, List.getD, h]

theorem slice_congr {m : ℕ} {a : Buf n} {b : Buf m} {off off' len : ℕ}
    (h : ∀ k < len, a.byte (off + k) = b.byte (off' + k)) : a.slice off len = b.slice off' len := by
  unfold slice
  exact List.map_congr_left fun k hk => h k (List.mem_range.mp hk)

theorem slice_eq_iff {m : ℕ} {a : Buf n} {b : Buf m} {off off' len : ℕ} :
    a.slice off len = b.slice off' len ↔ ∀ k < len, a.byte (off + k) = b.byte (off' + k) := by
  refine ⟨fun h k hk => ?_, slice_congr⟩
  rw [← getD_slice a off len k hk, h, getD_slice b off' len k hk]

theorem slice_add (b : Buf n) (off k m : ℕ) :
    b.slice off (k + m) = b.slice off k ++ b.slice (off + k) m := by
  simp only [slice, List.range_add, List.map_append, List.map_map, List.append_cancel_left_eq]
  exact List.map_congr_left fun j _ => by simp [Nat.add_assoc]

/-- **A range reads back what was written to it.** -/
theorem slice_put_same (b : Buf n) (off : ℕ) (bs : List UInt8) (h : off + bs.length ≤ n) :
    (b.put off bs).slice off bs.length = bs := by
  refine List.ext_getElem (by simp) fun k h₁ h₂ => ?_
  simp only [slice, List.getElem_map, List.getElem_range]
  rw [byte_put_of_mem b (by omega) (by omega) (by omega), Nat.add_sub_cancel_left]
  simp [List.getD, h₂]

/-- A write leaves the ranges it does not meet. -/
theorem slice_put_disj (b : Buf n) {off off' len : ℕ} {bs : List UInt8}
    (h : off' + len ≤ off ∨ off + bs.length ≤ off') :
    (b.put off bs).slice off' len = b.slice off' len :=
  slice_congr fun k hk => byte_put_of_not b (by omega)

/-- The bytes of `b` before `cut`, and those of `old` from there on. -/
def splice (b : Buf n) (cut : ℕ) (old : Buf n) : Buf n :=
  ⟨fun k => if k.1 < cut then b.val k else old.val k⟩

theorem byte_splice (b : Buf n) (cut : ℕ) (old : Buf n) (k : ℕ) :
    (b.splice cut old).byte k = if k < cut then b.byte k else old.byte k := by
  unfold byte splice
  by_cases hk : k < n
  · simp only [dif_pos hk]
  · simp only [dif_neg hk, ite_self]

end Buf

/-! ## Little-endian numbers -/

/-- The `k` low bytes of `x`, lowest first. -/
def leBytes : ℕ → ℕ → List UInt8
  | 0, _ => []
  | k + 1, x => UInt8.ofNat x :: leBytes k (x / 256)

/-- The number whose bytes, lowest first, are `bs`. -/
def leValue : List UInt8 → ℕ
  | [] => 0
  | b :: bs => b.toNat + 256 * leValue bs

@[simp] theorem length_leBytes (k x : ℕ) : (leBytes k x).length = k := by
  induction k generalizing x with
  | zero => rfl
  | succ k ih => simp [leBytes, ih]

theorem leValue_leBytes (k x : ℕ) : leValue (leBytes k x) = x % 256 ^ k := by
  induction k generalizing x with
  | zero => simp [leBytes, leValue, Nat.mod_one]
  | succ k ih =>
    simp only [leBytes, leValue, ih, UInt8.toNat_ofNat']
    rw [show 256 ^ (k + 1) = 256 * 256 ^ k from pow_succ' 256 k, Nat.mod_mul]

theorem leValue_inj {bs cs : List UInt8} (h : bs.length = cs.length)
    (hv : leValue bs = leValue cs) : bs = cs := by
  induction bs generalizing cs with
  | nil => exact (List.length_eq_zero_iff.mp h.symm).symm
  | cons b bs ih =>
    obtain ⟨c, cs, rfl⟩ := List.exists_cons_of_length_eq_add_one h.symm
    have hb := b.toNat_lt
    have hc := c.toNat_lt
    simp only [leValue, List.length_cons, Nat.add_right_cancel_iff] at h hv
    have hlow : b.toNat = c.toNat := by omega
    rw [UInt8.toNat_inj.mp hlow, ih h (by omega)]

theorem leValue_lt (bs : List UInt8) : leValue bs < 256 ^ bs.length := by
  induction bs with
  | nil => simp [leValue]
  | cons b bs ih =>
    have := b.toNat_lt
    simp only [leValue, List.length_cons, pow_succ]
    omega

end ByteBuf
