import Mathlib.Data.List.GetD
import Rymos.Boot.Initrd

/-!
# An archive that is cut off

* `BootFs.entryAt_take`: the entries of the first bytes of an archive.
* **`findData_take`**: which packed files are found there.
-/

namespace Rymos

open ByteBuf

section Take

variable {bytes : List UInt8} {limit off len : ℕ}

theorem field_take (h : off + len ≤ limit) : field (bytes.take limit) off len = field bytes off len := by
  rw [field, field, List.drop_take, List.take_take, min_eq_left (by omega)]

theorem numberAt_take (h : off + len ≤ limit) :
    numberAt (bytes.take limit) off len = numberAt bytes off len := by
  rw [numberAt, numberAt, field_take h]

theorem getD_take (h : off < limit) : (bytes.take limit).getD off 0 = bytes.getD off 0 := by
  rw [List.getD_eq_getElem?_getD, List.getElem?_take, if_pos h, List.getD_eq_getElem?_getD]

end Take

namespace BootFs

variable {image : List UInt8} {limit index : ℕ}

theorem size_take (image : List UInt8) (limit : ℕ) :
    (BootFs.mk (image.take limit)).size = min limit (BootFs.mk image).size := List.length_take

theorem valid_take (h : 12 ≤ limit) : (BootFs.mk (image.take limit)).valid = (BootFs.mk image).valid := by
  rw [valid, valid, size_take, field_take (by omega)]
  refine if_congr ?_ rfl rfl
  omega

theorem entryCount_take (h : 12 ≤ limit) :
    (BootFs.mk (image.take limit)).entryCount = (BootFs.mk image).entryCount := by
  rw [entryCount, entryCount, valid_take h, numberAt_take (by omega)]

theorem entrySize_take (h : 12 ≤ limit) :
    (BootFs.mk (image.take limit)).entrySize = (BootFs.mk image).entrySize := by
  rw [entrySize, entrySize, valid_take h, numberAt_take (by omega)]

theorem decode_take {offset : ℕ} (h : offset + 42 ≤ limit) :
    (BootFs.mk (image.take limit)).decode offset =
      ((BootFs.mk image).decode offset).filter fun e => e.data + e.dataLen ≤ limit := by
  unfold decode
  simp only [size_take]
  rw [getD_take (by omega), getD_take (by omega), numberAt_take (by omega), numberAt_take (by omega)]
  obtain ⟨nameLen, hname⟩ : ∃ n, n = (image.getD (offset + 1) 0).toNat := ⟨_, rfl⟩
  obtain ⟨stop, hstop⟩ : ∃ n, n = numberAt image (offset + 2) 4 + numberAt image (offset + 6) 4 := ⟨_, rfl⟩
  rw [← hname, ← hstop]
  simp only [Bool.or_eq_true, decide_eq_true_eq, gt_iff_lt]
  by_cases hc : 32 < nameLen ∨ (BootFs.mk image).size < stop
  · rw [if_pos hc, if_pos (by omega)]
    rfl
  · rw [if_neg hc, Option.filter_some]
    by_cases hle : stop ≤ limit
    · rw [if_neg (by omega), if_pos (by simpa [← hstop] using hle)]
    · rw [if_pos (by omega), if_neg (by simpa [← hstop] using hle)]

/-- **The entries of the first bytes**: those whose contents end there. -/
theorem entryAt_take (h : 12 ≤ limit) (hi : index < 65536)
    (hfit : 12 + (index + 1) * (BootFs.mk image).entrySize ≤ limit) :
    (BootFs.mk (image.take limit)).entryAt index =
      ((BootFs.mk image).entryAt index).filter fun e => e.data + e.dataLen ≤ limit := by
  have hsize := (BootFs.mk image).entrySize_lt
  have hmul : index * (BootFs.mk image).entrySize < 65536 * 65536 := Nat.mul_lt_mul'' hi hsize
  rw [Nat.add_mul, one_mul] at hfit
  have hoff : (BootFs.mk image).entryOffset index = 12 + index * (BootFs.mk image).entrySize :=
    entryOffset_eq hi
  have hoff' : (BootFs.mk (image.take limit)).entryOffset index =
      12 + index * (BootFs.mk image).entrySize := by rw [entryOffset_eq hi, entrySize_take h]
  rw [entryAt, entryAt, entry_of_fits (by omega), entry_of_fits (by omega), hoff', hoff, entrySize_take h,
    size_take, Option.join_some, Option.join_some]
  by_cases hin : 42 ≤ (BootFs.mk image).entrySize ∧
      12 + index * (BootFs.mk image).entrySize + 42 ≤ (BootFs.mk image).size
  · rw [if_pos hin, if_pos ⟨hin.1, by omega⟩, decode_take (by omega)]
  · rw [if_neg hin, if_neg (by omega)]
    rfl

theorem nameOf_take {e : BootFsEntry} (h : e.name + e.nameLen ≤ limit) :
    (BootFs.mk (image.take limit)).nameOf e = (BootFs.mk image).nameOf e := field_take h

theorem dataOf_take {e : BootFsEntry} (h : e.data + e.dataLen ≤ limit) :
    (BootFs.mk (image.take limit)).dataOf e = (BootFs.mk image).dataOf e := field_take h

end BootFs

section Archive

variable {files : List BootFile} (h : ∀ file ∈ files, Packable file) (hcount : files.length ≤ 65535)
  (hsize : 12 + files.length * bootEntrySize + (contents files).length < 2 ^ 32)
include h hcount hsize

/-- Where the table has the contents of a packed file. -/
theorem data_packed {pre post : List BootFile} {file : BootFile} (hf : files = pre ++ file :: post)
    {e : BootFsEntry} (he : (BootFs.mk (archive files)).entryAt pre.length = some e) :
    e.data = 12 + files.length * bootEntrySize + (contents pre).length ∧
      e.name + e.nameLen ≤ 12 + files.length * bootEntrySize := by
  obtain ⟨A, B, -, -, hA, hAl, -, -⟩ := archive_split h hf
  have hlen : files.length = pre.length + (post.length + 1) := by simp [hf]
  have hcon : (contents files).length =
      (contents pre).length + (file.2.length + (contents post).length) := by
    rw [hf, contents_append, contents_cons, List.length_append, List.length_append]
  have hoff : (BootFs.mk (archive files)).entryOffset pre.length = A.length := by
    rw [BootFs.entryOffset_eq (by omega), entrySize_archive h, hAl]
  simp only [bootEntrySize] at hsize hAl
  rw [BootFs.entryAt, BootFs.entry_of_fits (by rw [hoff]; omega), hoff, Option.join_some] at he
  split_ifs at he
  obtain ⟨-, hname, -, hnameLen, hdata, -⟩ := BootFs.decode_eq_some he
  refine ⟨?_, by simp only [bootEntrySize]; omega⟩
  rw [hdata, @numberAt_of_eq _ (A ++ [1, UInt8.ofNat file.1.length]) _ _ 4
    (12 + files.length * bootEntrySize + (contents pre).length)
    (by rw [hA, record]; simp only [List.append_assoc]; rfl) (by simp)]
  simp only [bootEntrySize]
  omega

omit h hcount hsize in
/-- The numbers of a longer list lead through the list. -/
theorem filterMap_range_of_le {α : Type} {l : List α} {n : ℕ} (hn : l.length ≤ n) :
    (List.range n).filterMap (l[·]?) = l := by
  obtain ⟨k, rfl⟩ := Nat.exists_eq_add_of_le hn
  rw [List.range_add, List.filterMap_append, filterMap_range_getElem, List.filterMap_map]
  refine (congrArg (l ++ ·) (List.filterMap_eq_nil_iff.mpr fun i _ => ?_)).trans (List.append_nil l)
  exact List.getElem?_eq_none (Nat.le_add_right _ _)

/-- Where the first `n` files of an archive end. -/
def endOf (files : List BootFile) (n : ℕ) : ℕ :=
  12 + files.length * bootEntrySize + (contents (files.take n)).length

/-- How many files there are whole in the first bytes of an archive. -/
def wholeFiles (files : List BootFile) (limit : ℕ) : ℕ :=
  Nat.findGreatest (fun n => endOf files n ≤ limit) files.length

omit h hcount hsize in
theorem endOf_mono {n n' : ℕ} (hn : n ≤ n') : endOf files n ≤ endOf files n' := by
  have hpre : files.take n' = files.take n ++ (files.drop n).take (n' - n) := by
    rw [← List.take_add]
    congr 1
    omega
  rw [endOf, endOf, hpre, contents_append, List.length_append]
  omega

variable {limit : ℕ} (hlimit : 12 + files.length * bootEntrySize ≤ limit)

omit h hcount hsize in
include hlimit in
theorem le_wholeFiles_iff {n : ℕ} (hn : n ≤ files.length) :
    n ≤ wholeFiles files limit ↔ endOf files n ≤ limit := by
  constructor
  · intro hle
    refine (endOf_mono hle).trans ?_
    have hzero : endOf files 0 ≤ limit := by simpa [endOf] using hlimit
    exact Nat.findGreatest_spec (P := fun n => endOf files n ≤ limit) (Nat.zero_le _) hzero
  · exact Nat.le_findGreatest (P := fun n => endOf files n ≤ limit) hn

include hlimit

/-- **What is left of an archive that is cut off**: the first files. -/
theorem table_take : (BootFs.mk ((archive files).take limit)).table.map (fun e =>
      ((BootFs.mk ((archive files).take limit)).nameOf e,
        (BootFs.mk ((archive files).take limit)).dataOf e)) = files.take (wholeFiles files limit) := by
  rw [BootFs.table, List.map_filterMap, BootFs.entryCount_take (by omega), entryCount_archive h hcount]
  refine (List.filterMap_congr fun i hi => ?_).trans
    (filterMap_range_of_le (l := files.take (wholeFiles files limit)) (List.length_take_le' _ _))
  have hlt := List.mem_range.mp hi
  have hsplit : files = files.take i ++ files[i] :: files.drop (i + 1) := by
    rw [List.getElem_cons_drop, List.take_append_drop]
  obtain ⟨e, he, -, hlen, hn, hd⟩ := entry_packed h hcount hsize hsplit
  obtain ⟨hstart, hname⟩ := data_packed h hcount hsize hsplit he
  rw [List.length_take, min_eq_left hlt.le] at he
  have hend : e.data + e.dataLen = endOf files (i + 1) := by
    rw [endOf, List.take_succ_eq_append_getElem hlt, contents_append, List.length_append, contents_cons,
      contents_nil, List.append_nil, hstart, hlen]
    omega
  have hmul : (i + 1) * bootEntrySize ≤ files.length * bootEntrySize := Nat.mul_le_mul_right _ hlt
  rw [BootFs.entryAt_take (by omega) (by omega) (by rw [entrySize_archive h]; omega), he,
    Option.filter_some, List.getElem?_take]
  have hiff : i < wholeFiles files limit ↔ endOf files (i + 1) ≤ limit := le_wholeFiles_iff hlimit hlt
  by_cases hin : endOf files (i + 1) ≤ limit
  · rw [if_pos (by simpa [hend] using hin), if_pos (hiff.mpr hin), Option.map_some,
      BootFs.nameOf_take (by omega), BootFs.dataOf_take (by omega), hn, hd, List.getElem?_eq_getElem hlt]
  · rw [if_neg (by simpa [hend] using hin), if_neg (fun hc => hin (hiff.mp hc))]
    rfl

/-- **A search finds the files whose contents are whole.** -/
theorem findData_take (name : List UInt8) : (BootFs.mk ((archive files).take limit)).findData name = some
    (((files.take (wholeFiles files limit)).find? fun file => file.1 == name).map Prod.snd) := by
  conv_rhs => rw [← table_take h hcount hsize hlimit]
  rw [BootFs.findData, BootFs.findWith_eq, List.find?_map, Option.map_map]
  rfl

end Archive

end Rymos
