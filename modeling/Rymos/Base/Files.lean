import Mathlib.Tactic

/-!
# Files as byte arrays

The reference model of a file with several descriptors: an array of bytes, and for each open
descriptor an offset and whether it appends.

* `write`: an array after a write; **`getD_write`**, `length_write`, **`write_end`**, `prefix_write`.
* `RefFile`: a file that may exist, and its descriptors; `open`, `read`, `store`, `seek`, `close`.
-/

namespace Files

variable {α : Type} [Zero α]

/-- The array after a write of `data` at `offset`; a hole is filled with zeros, and a write of nothing
changes nothing. -/
def write (content : List α) (offset : ℕ) (data : List α) : List α :=
  if data = [] then content
  else (List.range (max content.length (offset + data.length))).map fun p =>
    if offset ≤ p ∧ p < offset + data.length then data.getD (p - offset) 0 else content.getD p 0

theorem write_nil (content : List α) (offset : ℕ) : write content offset [] = content := if_pos rfl

theorem length_write (content : List α) (offset : ℕ) {data : List α} (h : data ≠ []) :
    (write content offset data).length = max content.length (offset + data.length) := by
  rw [write, if_neg h, List.length_map, List.length_range]

theorem getD_map_range {f : ℕ → α} {n p : ℕ} (h : p < n) :
    ((List.range n).map f).getD p 0 = f p := by
  simp [List.getD_eq_getElem?_getD, h]

/-- **The bytes after a write.** -/
theorem getD_write (content : List α) (offset : ℕ) (data : List α) {p : ℕ}
    (h : p < (write content offset data).length) : (write content offset data).getD p 0 =
      if offset ≤ p ∧ p < offset + data.length then data.getD (p - offset) 0
      else content.getD p 0 := by
  by_cases hd : data = []
  · subst hd
    rw [write_nil, if_neg (by simp only [List.length_nil]; omega)]
  · rw [length_write _ _ hd] at h
    rw [write, if_neg hd, getD_map_range h]

theorem length_le_write (content : List α) (offset : ℕ) (data : List α) :
    content.length ≤ (write content offset data).length := by
  by_cases hd : data = []
  · rw [hd, write_nil]
  · rw [length_write _ _ hd]
    exact le_max_left _ _

/-- **A write at the end** appends. -/
theorem write_end (content data : List α) : write content content.length data = content ++ data := by
  by_cases hd : data = []
  · rw [hd, write_nil, List.append_nil]
  refine List.ext_getElem (by rw [length_write _ _ hd, List.length_append]; omega) fun p hp _ => ?_
  have hget : ∀ (xs : List α) (k : ℕ) (hk : k < xs.length), xs.getD k 0 = xs[k] := by
    simp +contextual [List.getD_eq_getElem?_getD]
  have hw := getD_write content content.length data hp
  rw [hget _ _ hp] at hw
  rw [hw, List.getElem_append]
  rw [length_write _ _ hd] at hp
  split_ifs with hin hold
  · omega
  · exact hget _ _ _
  · exact hget _ _ _
  · omega

theorem prefix_write (content data : List α) : content <+: write content content.length data :=
  write_end content data ▸ List.prefix_append _ _

/-! ## A file and its descriptors -/

structure Desc where
  offset : ℕ
  append : Bool

/-- The file, if it exists, and its open descriptors, named by `κ`. -/
structure RefFile (κ α : Type) where
  content : Option (List α)
  desc : κ → Option Desc

namespace RefFile

variable {κ : Type} [DecidableEq κ]

/-- A descriptor `fd` opens the file, which is made if it does not exist. -/
def «open» (file : RefFile κ α) (fd : κ) (truncate append : Bool) : RefFile κ α :=
  let content := if truncate then [] else file.content.getD []
  { content := some content
    desc := Function.update file.desc fd
      (some { offset := if append then content.length else 0, append := append }) }

/-- The bytes a read of `n` bytes returns. -/
def bytes (file : RefFile κ α) (d : Desc) (n : ℕ) : List α :=
  ((file.content.getD []).drop d.offset).take n

/-- The file after a read of `n` bytes through `fd`. -/
def read (file : RefFile κ α) (fd : κ) (d : Desc) (n : ℕ) : RefFile κ α :=
  { file with
    desc := Function.update file.desc fd
      (some { d with offset := d.offset + (file.bytes d n).length }) }

/-- Where a write goes. -/
def target (file : RefFile κ α) (d : Desc) : ℕ :=
  if d.append then (file.content.getD []).length else d.offset

/-- The file after a write of `data` through `fd`. -/
def store (file : RefFile κ α) (fd : κ) (d : Desc) (data : List α) : RefFile κ α :=
  { content := file.content.map fun content => write content (file.target d) data
    desc := Function.update file.desc fd
      (some { d with offset := file.target d + data.length }) }

def seek (file : RefFile κ α) (fd : κ) (d : Desc) (offset : ℕ) : RefFile κ α :=
  { file with desc := Function.update file.desc fd (some { d with offset := offset }) }

def close (file : RefFile κ α) (fd : κ) : RefFile κ α :=
  { file with desc := Function.update file.desc fd none }

end RefFile

end Files
