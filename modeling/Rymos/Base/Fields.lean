import Mathlib.Tactic
import Rymos.Base.Bytes

/-!
# Fields of a byte string

* `field`, `numberAt`: the bytes of a range, and the little-endian number they hold.
* **`field_of_eq`**, **`numberAt_of_eq`**: a field of a string put together from parts.
* `field_append_left`, `field_middle`: a field of the first and of the middle part.
* `putAt`, `putAll`: a range overwritten, and a list of such writes. **`field_putAt`**,
  `field_putAt_of_disj`, **`field_putAll`**: what a field then holds.
* `blockWrites`: blocks written one after the other. **`field_blockWrites`**.
-/

namespace ByteBuf

/-- The `len` bytes from `off` on, as far as there are so many. -/
def field (bytes : List UInt8) (off len : ℕ) : List UInt8 := (bytes.drop off).take len

/-- The little-endian number in the `width` bytes from `off` on. -/
def numberAt (bytes : List UInt8) (off width : ℕ) : ℕ := leValue (field bytes off width)

variable {bytes a b c : List UInt8} {off len : ℕ}

theorem length_field (h : off + len ≤ bytes.length) : (field bytes off len).length = len := by
  rw [field, List.length_take, List.length_drop]
  omega

/-- **The middle part of a string is its field.** -/
theorem field_of_eq (h : bytes = a ++ (b ++ c)) (ha : off = a.length) (hb : len = b.length) :
    field bytes off len = b := by
  rw [field, h, ha, hb, List.drop_left, List.take_left]

/-- **A number stored in a string is read back**, as far as its bytes hold it. -/
theorem numberAt_of_eq {width value : ℕ} (h : bytes = a ++ (leBytes width value ++ c))
    (ha : off = a.length) : numberAt bytes off width = value % 256 ^ width := by
  rw [numberAt, field_of_eq h ha (by simp), leValue_leBytes]

theorem numberAt_lt (bytes : List UInt8) (off width : ℕ) : numberAt bytes off width < 256 ^ width :=
  (leValue_lt _).trans_le (Nat.pow_le_pow_right (by omega) (by simp [field]))

theorem field_append_left (h : off + len ≤ a.length) : field (a ++ b) off len = field a off len := by
  rw [field, field, List.drop_append_of_le_length (by omega), List.take_append_of_le_length]
  rw [List.length_drop]
  omega

/-- A field of the middle part. -/
theorem field_middle (h : off + len ≤ b.length) :
    field (a ++ (b ++ c)) (a.length + off) len = field b off len := by
  rw [field, ← List.drop_drop, List.drop_left]
  exact field_append_left h

/-! ## Writing -/

/-- The string with `part` in place of the bytes from `off` on. -/
def putAt (bytes : List UInt8) (off : ℕ) (part : List UInt8) : List UInt8 :=
  bytes.take off ++ (part ++ bytes.drop (off + part.length))

/-- Writes one after the other, each an offset and its bytes. -/
def putAll (bytes : List UInt8) (writes : List (ℕ × List UInt8)) : List UInt8 :=
  writes.foldl (fun bytes write => putAt bytes write.1 write.2) bytes

section Put

variable {part : List UInt8} {off' : ℕ} {writes writes' : List (ℕ × List UInt8)}

theorem length_putAt (h : off + part.length ≤ bytes.length) :
    (putAt bytes off part).length = bytes.length := by
  simp only [putAt, List.length_append, List.length_take, List.length_drop]
  omega

theorem getElem?_field (bytes : List UInt8) (off len k : ℕ) :
    (field bytes off len)[k]? = if k < len then bytes[off + k]? else none := by
  rw [field, List.getElem?_take, List.getElem?_drop]

theorem getElem?_putAt (h : off ≤ bytes.length) (k : ℕ) : (putAt bytes off part)[k]? =
    if off ≤ k ∧ k < off + part.length then part[k - off]? else bytes[k]? := by
  have hlen : (bytes.take off).length = off := by rw [List.length_take, min_eq_left h]
  rw [putAt]
  by_cases hlo : k < off
  · rw [List.getElem?_append_left (by omega), List.getElem?_take, if_pos hlo, if_neg (by omega)]
  rw [List.getElem?_append_right (by omega), hlen]
  by_cases hhi : k < off + part.length
  · rw [List.getElem?_append_left (by omega), if_pos ⟨by omega, hhi⟩]
  · rw [List.getElem?_append_right (by omega), List.getElem?_drop, if_neg (by omega)]
    congr 1
    omega

/-- **What was written is read back.** -/
theorem field_putAt (h : off ≤ bytes.length) : field (putAt bytes off part) off part.length = part := by
  refine List.ext_getElem? fun k => ?_
  rw [getElem?_field]
  split_ifs with hk
  · rw [getElem?_putAt h, if_pos ⟨by omega, by omega⟩, Nat.add_sub_cancel_left]
  · rw [List.getElem?_eq_none (by omega)]

/-- A write leaves the fields it does not meet. -/
theorem field_putAt_of_disj (h : off' ≤ bytes.length)
    (hd : off + len ≤ off' ∨ off' + part.length ≤ off) :
    field (putAt bytes off' part) off len = field bytes off len := by
  refine List.ext_getElem? fun k => ?_
  rw [getElem?_field, getElem?_field]
  split_ifs with hk
  · rw [getElem?_putAt h, if_neg (by omega)]
  · rfl

@[simp] theorem putAll_nil (bytes : List UInt8) : putAll bytes [] = bytes := rfl

@[simp] theorem putAll_cons (bytes : List UInt8) (write : ℕ × List UInt8) :
    putAll bytes (write :: writes) = putAll (putAt bytes write.1 write.2) writes := rfl

theorem putAll_append (bytes : List UInt8) :
    putAll bytes (writes ++ writes') = putAll (putAll bytes writes) writes' := by
  simp only [putAll, List.foldl_append]

/-- The writes stay inside the string. -/
def Inside (bytes : List UInt8) (writes : List (ℕ × List UInt8)) : Prop :=
  ∀ write ∈ writes, write.1 + write.2.length ≤ bytes.length

theorem length_putAll (h : Inside bytes writes) : (putAll bytes writes).length = bytes.length := by
  induction writes generalizing bytes with
  | nil => rfl
  | cons write writes ih =>
    have hlen := length_putAt (h write List.mem_cons_self)
    rw [putAll_cons, ih fun w hw => ?_, hlen]
    rw [hlen]
    exact h w (List.mem_cons_of_mem _ hw)

theorem field_putAll_of_disj (h : Inside bytes writes)
    (hd : ∀ write ∈ writes, off + len ≤ write.1 ∨ write.1 + write.2.length ≤ off) :
    field (putAll bytes writes) off len = field bytes off len := by
  induction writes generalizing bytes with
  | nil => rfl
  | cons write writes ih =>
    have hw := h write List.mem_cons_self
    have hlen := length_putAt hw
    rw [putAll_cons, ih (fun w hw => ?_) fun w hw => hd w (List.mem_cons_of_mem _ hw),
      field_putAt_of_disj (by omega) (hd write List.mem_cons_self)]
    rw [hlen]
    exact h w (List.mem_cons_of_mem _ hw)

/-- **A write no later one meets is read back.** -/
theorem field_putAll {write : ℕ × List UInt8} (h : Inside bytes (writes ++ write :: writes'))
    (hd : ∀ w ∈ writes', write.1 + write.2.length ≤ w.1 ∨ w.1 + w.2.length ≤ write.1) :
    field (putAll bytes (writes ++ write :: writes')) write.1 write.2.length = write.2 := by
  have hpre : Inside bytes writes := fun w hw => h w (List.mem_append_left _ hw)
  have hlen := length_putAll hpre
  have hw : write.1 + write.2.length ≤ (putAll bytes writes).length :=
    hlen ▸ h write (List.mem_append_right _ List.mem_cons_self)
  rw [putAll_append, putAll_cons, field_putAll_of_disj (fun w hw' => ?_) hd, field_putAt (by omega)]
  rw [length_putAt hw, hlen]
  exact h w (List.mem_append_right _ (List.mem_cons_of_mem _ hw'))

/-- Each write ends before the next one starts. -/
def Ascending (writes : List (ℕ × List UInt8)) : Prop :=
  writes.IsChain fun write next => write.1 + write.2.length ≤ next.1

/-- **Writes in ascending order are all read back.** -/
theorem field_putAll_of_mem {off : ℕ} (hasc : Ascending writes) (h : Inside bytes writes)
    (hmem : (off, part) ∈ writes) : field (putAll bytes writes) off part.length = part := by
  obtain ⟨pre, post, rfl⟩ := List.mem_iff_append.mp hmem
  refine field_putAll h fun w hw => Or.inl ?_
  have htrans : IsTrans (ℕ × List UInt8) fun write next => write.1 + write.2.length ≤ next.1 :=
    ⟨fun a b c hab hbc => by omega⟩
  have hpair := List.isChain_iff_pairwise.mp hasc
  exact (List.pairwise_cons.mp (List.pairwise_append.mp hpair).2.1).1 w hw

theorem field_field {k m : ℕ} (h : k + m ≤ len) :
    field (field bytes off len) k m = field bytes (off + k) m := by
  refine List.ext_getElem? fun j => ?_
  simp only [getElem?_field]
  split_ifs with hj
  · rw [Nat.add_assoc]
  · omega
  · rfl

/-- Blocks of `w` bytes from `off` on. -/
def blockWrites (w : ℕ) : ℕ → List (List UInt8) → List (ℕ × List UInt8)
  | _, [] => []
  | off, block :: blocks => (off, block) :: blockWrites w (off + w) blocks

variable {w : ℕ} {blocks : List (List UInt8)}

theorem blockWrites_append (off : ℕ) (blocks' : List (List UInt8)) :
    blockWrites w off (blocks ++ blocks') =
      blockWrites w off blocks ++ blockWrites w (off + w * blocks.length) blocks' := by
  induction blocks generalizing off with
  | nil => rfl
  | cons block blocks ih =>
    rw [List.cons_append, blockWrites, blockWrites, ih, List.cons_append, List.length_cons,
      Nat.mul_succ, Nat.add_assoc, Nat.add_comm w]

theorem mem_blockWrites (hw : ∀ block ∈ blocks, block.length = w) {write : ℕ × List UInt8}
    (h : write ∈ blockWrites w off blocks) :
    off ≤ write.1 ∧ write.1 + write.2.length ≤ off + w * blocks.length := by
  induction blocks generalizing off with
  | nil => cases h
  | cons block blocks ih =>
    rw [List.length_cons, Nat.mul_succ]
    rcases List.mem_cons.mp h with rfl | h
    · have := hw block List.mem_cons_self
      exact ⟨le_rfl, by simp only; omega⟩
    · have := ih (fun b hb => hw b (List.mem_cons_of_mem _ hb)) h
      omega

theorem inside_blockWrites (hw : ∀ block ∈ blocks, block.length = w)
    (h : off + w * blocks.length ≤ bytes.length) : Inside bytes (blockWrites w off blocks) :=
  fun _ hm => (mem_blockWrites hw hm).2.trans h

/-- **Each block is read back.** -/
theorem field_blockWrites (hw : ∀ block ∈ blocks, block.length = w)
    (h : off + w * blocks.length ≤ bytes.length) {i : ℕ} (hi : i < blocks.length) :
    field (putAll bytes (blockWrites w off blocks)) (off + w * i) w = blocks[i] := by
  have hsplit : blocks = blocks.take i ++ blocks[i] :: blocks.drop (i + 1) := by
    rw [List.getElem_cons_drop, List.take_append_drop]
  have hlen : (blocks.take i).length = i := by rw [List.length_take]; omega
  have hlast : ∀ block ∈ blocks.drop (i + 1), block.length = w := fun b hb =>
    hw b (List.mem_of_mem_drop hb)
  have hb : blocks[i].length = w := hw _ (List.getElem_mem hi)
  have hwrites : blockWrites w off blocks = blockWrites w off (blocks.take i) ++
      (off + w * i, blocks[i]) :: blockWrites w (off + w * i + w) (blocks.drop (i + 1)) := by
    conv_lhs => rw [hsplit]
    rw [blockWrites_append, hlen, blockWrites]
  have hin := inside_blockWrites hw h
  rw [hwrites] at hin ⊢
  have hread := field_putAll hin fun v hv => by
    have := (mem_blockWrites hlast hv).1
    simp only [hb]
    omega
  simpa only [hb] using hread

end Put

end ByteBuf
