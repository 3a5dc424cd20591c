import Mathlib.Data.List.GetD
import Rymos.Boot.BootFs

/-!
# The boot archive

`make_initrd.py` writes the archive the kernel parses: magic, count and entry size, the table, the
contents of the files one after the other.

* `le16`, `le32`, `buildLoop`, `build`: the script. An exception is `none`. A name is the bytes of
  its characters, the files are in the order of `sorted`.
* `record`, `records`, `contents`, `build_eq`: what it writes.
* `entry_packed`: the entry the kernel decodes for each file.
* **`bootfs_roundtrip`**: the kernel finds every packed file, with its contents, and no other.
-/

namespace Rymos

open ByteBuf

/-- A name and the bytes of the file. -/
abbrev BootFile : Type := List UInt8 × List UInt8

abbrev bootEntrySize : ℕ := 42

abbrev bootNameMax : ℕ := 32

/-- `value.to_bytes(2, "little")`. -/
def le16 (value : ℕ) : Option (List UInt8) :=
  if value < 2 ^ 16 then some (leBytes 2 value) else none

/-- `value.to_bytes(4, "little")`. -/
def le32 (value : ℕ) : Option (List UInt8) :=
  if value < 2 ^ 32 then some (leBytes 4 value) else none

/-- `name.ljust(NAME_MAX, b"\0")`. -/
def ljust (name : List UInt8) : List UInt8 :=
  name ++ List.replicate (bootNameMax - name.length) 0

/-- The loop over the files, with `entries` and `payload` at its end. -/
def buildLoop : List BootFile → ℕ → List UInt8 → List UInt8 → Option (List UInt8 × List UInt8)
  | [], _, entries, payload => some (entries, payload)
  | (name, data) :: files, offset, entries, payload =>
    if !name.all (· < 128) then none
    else if name.length > bootNameMax then none
    else
      (le32 offset).bind fun offsetBytes =>
      (le32 data.length).bind fun lengthBytes =>
      buildLoop files (offset + data.length)
        (entries ++ [1, UInt8.ofNat name.length] ++ offsetBytes ++ lengthBytes ++ ljust name)
        (payload ++ data)

def build (files : List BootFile) : Option (List UInt8) :=
  let headerSize := bootMagic.length + 2 + 2 + files.length * bootEntrySize
  (buildLoop files headerSize [] []).bind fun (entries, payload) =>
  (le16 files.length).bind fun count =>
  (le16 bootEntrySize).map fun size => bootMagic ++ count ++ size ++ entries ++ payload

/-! ## What is written -/

/-- The table entry of a file whose contents start at `offset`. -/
def record (offset : ℕ) (file : BootFile) : List UInt8 :=
  [1, UInt8.ofNat file.1.length] ++ leBytes 4 offset ++ leBytes 4 file.2.length ++ ljust file.1

/-- The table of files whose contents start at `offset`. -/
def records : ℕ → List BootFile → List UInt8
  | _, [] => []
  | offset, file :: files => record offset file ++ records (offset + file.2.length) files

/-- The contents of the files. -/
def contents (files : List BootFile) : List UInt8 := (files.map Prod.snd).flatten

/-- A name the script takes. -/
def Packable (file : BootFile) : Prop :=
  (∀ byte ∈ file.1, byte < 128) ∧ 1 ≤ file.1.length ∧ file.1.length ≤ bootNameMax

/-- The check of the script, over the bytes of a name. -/
theorem packable_of_all {file : BootFile} (h : (file.1.all fun byte => byte < 128) = true)
    (hpos : 1 ≤ file.1.length) (hmax : file.1.length ≤ bootNameMax) : Packable file :=
  ⟨fun byte hb => of_decide_eq_true (List.all_eq_true.mp h byte hb), hpos, hmax⟩

theorem length_ljust {name : List UInt8} (h : name.length ≤ bootNameMax) :
    (ljust name).length = bootNameMax := by
  rw [ljust, List.length_append, List.length_replicate]
  omega

theorem length_record (offset : ℕ) {file : BootFile} (h : Packable file) :
    (record offset file).length = bootEntrySize := by
  simp [record, length_ljust h.2.2, bootNameMax, bootEntrySize]

@[simp] theorem contents_nil : contents [] = [] := rfl

@[simp] theorem contents_cons (file : BootFile) (files : List BootFile) :
    contents (file :: files) = file.2 ++ contents files := rfl

theorem contents_append (files files' : List BootFile) :
    contents (files ++ files') = contents files ++ contents files' := by
  simp [contents]

theorem records_append (offset : ℕ) (files files' : List BootFile) :
    records offset (files ++ files') =
      records offset files ++ records (offset + (contents files).length) files' := by
  induction files generalizing offset with
  | nil => rfl
  | cons file files ih =>
    simp only [List.cons_append, records, ih, contents_cons, List.length_append, List.append_assoc,
      Nat.add_assoc]

theorem length_records {files : List BootFile} (h : ∀ file ∈ files, Packable file) (offset : ℕ) :
    (records offset files).length = files.length * bootEntrySize := by
  induction files generalizing offset with
  | nil => simp [records]
  | cons file files ih =>
    rw [records, List.length_append, length_record _ (h file (by simp)),
      ih fun f hf => h f (by simp [hf]), List.length_cons, Nat.succ_mul, Nat.add_comm]

theorem buildLoop_eq {files : List BootFile} (h : ∀ file ∈ files, Packable file) {offset : ℕ}
    (hfit : offset + (contents files).length < 2 ^ 32) (entries payload : List UInt8) :
    buildLoop files offset entries payload =
      some (entries ++ records offset files, payload ++ contents files) := by
  induction files generalizing offset entries payload with
  | nil => simp [buildLoop, records]
  | cons file files ih =>
    obtain ⟨name, data⟩ := file
    obtain ⟨hascii, -, hlen⟩ := h (name, data) (by simp)
    simp only [contents_cons, List.length_append] at hfit
    have hall : name.all (· < 128) = true := List.all_eq_true.mpr fun b hb =>
      decide_eq_true (hascii b hb)
    rw [buildLoop, hall, if_neg (by simp), if_neg (Nat.not_lt.mpr hlen), le32, if_pos (by omega), le32,
      if_pos (by omega), Option.bind_some, Option.bind_some,
      ih (fun f hf => h f (by simp [hf])) (by omega)]
    simp only [records, record, contents_cons, List.append_assoc]

/-- The archive of `files`. -/
def archive (files : List BootFile) : List UInt8 :=
  bootMagic ++ (leBytes 2 files.length ++ (leBytes 2 bootEntrySize ++
    (records (12 + files.length * bootEntrySize) files ++ contents files)))

/-- **The script writes the archive.** -/
theorem build_eq {files : List BootFile} (h : ∀ file ∈ files, Packable file)
    (hcount : files.length ≤ 65535)
    (hsize : 12 + files.length * bootEntrySize + (contents files).length < 2 ^ 32) :
    build files = some (archive files) := by
  have hmagic : bootMagic.length = 8 := rfl
  simp only [build, hmagic]
  rw [buildLoop_eq h (by omega), Option.bind_some, le16, if_pos (by omega), Option.bind_some, le16,
    if_pos (by decide), Option.map_some, archive]
  simp only [List.nil_append, List.append_assoc]

theorem length_archive {files : List BootFile} (h : ∀ file ∈ files, Packable file) :
    (archive files).length =
      12 + files.length * bootEntrySize + (contents files).length := by
  simp only [archive, List.length_append, length_leBytes, length_records h]
  simp [bootMagic]
  omega

/-! ## What the kernel reads -/

section Archive

variable {files : List BootFile} (h : ∀ file ∈ files, Packable file)
include h

theorem valid_archive : (BootFs.mk (archive files)).valid = true := by
  have hmagic : field (archive files) 0 8 = bootMagic :=
    field_of_eq (a := []) (c := _) rfl rfl rfl
  simp only [BootFs.valid, BootFs.size, length_archive h, hmagic]
  rw [if_neg (by omega)]
  rfl

theorem entryCount_archive (hcount : files.length ≤ 65535) :
    (BootFs.mk (archive files)).entryCount = files.length := by
  rw [BootFs.entryCount, valid_archive h, if_neg (by simp)]
  have hread : numberAt (archive files) 8 2 = files.length % 256 ^ 2 :=
    numberAt_of_eq (a := bootMagic) rfl rfl
  exact hread.trans (by omega)

theorem entrySize_archive : (BootFs.mk (archive files)).entrySize = bootEntrySize := by
  rw [BootFs.entrySize, valid_archive h, if_neg (by simp)]
  rw [@numberAt_of_eq _ (bootMagic ++ leBytes 2 files.length) _ 10 _ bootEntrySize
    (by rw [archive, List.append_assoc]) (by simp [bootMagic])]
  rfl

end Archive

/-- The archive around the table entry and the contents of one of its files. -/
theorem archive_split {pre post : List BootFile} {file : BootFile} {files : List BootFile}
    (h : ∀ file ∈ files, Packable file) (hf : files = pre ++ file :: post) :
    ∃ A B A' B', archive files =
        A ++ (record (12 + files.length * bootEntrySize + (contents pre).length) file ++ B) ∧
      A.length = 12 + pre.length * bootEntrySize ∧
      archive files = A' ++ (file.2 ++ B') ∧
      A'.length = 12 + files.length * bootEntrySize + (contents pre).length := by
  have hpre : ∀ f ∈ pre, Packable f := fun f hm => h f (by simp [hf, hm])
  have hrec := records_append (12 + files.length * bootEntrySize) pre (file :: post)
  have hcon := contents_append pre (file :: post)
  rw [← hf] at hrec hcon
  rw [records] at hrec
  rw [contents_cons] at hcon
  have hhead : (bootMagic ++ leBytes 2 files.length ++ leBytes 2 bootEntrySize).length = 12 := by
    simp [bootMagic]
  refine ⟨bootMagic ++ leBytes 2 files.length ++ leBytes 2 bootEntrySize ++
      records (12 + files.length * bootEntrySize) pre,
    records (12 + files.length * bootEntrySize + (contents pre).length + file.2.length) post ++
      contents files,
    bootMagic ++ leBytes 2 files.length ++ leBytes 2 bootEntrySize ++
      records (12 + files.length * bootEntrySize) files ++ contents pre, contents post,
    ?_, ?_, ?_, ?_⟩
  · rw [archive, hrec]
    simp only [List.append_assoc]
  · rw [List.length_append, hhead, length_records hpre]
  · rw [archive, hcon]
    simp only [List.append_assoc]
  · rw [List.length_append, List.length_append, hhead, length_records h]

/-- **The kernel decodes the table entry of each packed file.** -/
theorem entry_packed {pre post : List BootFile} {file : BootFile} {files : List BootFile}
    (h : ∀ file ∈ files, Packable file) (hcount : files.length ≤ 65535)
    (hsize : 12 + files.length * bootEntrySize + (contents files).length < 2 ^ 32)
    (hf : files = pre ++ file :: post) : ∃ e, (BootFs.mk (archive files)).entryAt pre.length = some e ∧
      e.kind = 1 ∧ e.dataLen = file.2.length ∧ (BootFs.mk (archive files)).nameOf e = file.1 ∧
      (BootFs.mk (archive files)).dataOf e = file.2 := by
  obtain ⟨A, B, A', B', hA, hAl, hA', hAl'⟩ := archive_split h hf
  obtain ⟨-, -, hname⟩ := h file (by simp [hf])
  have hlen : files.length = pre.length + (post.length + 1) := by simp [hf]
  have hcon : (contents files).length =
      (contents pre).length + (file.2.length + (contents post).length) := by
    rw [hf, contents_append, contents_cons, List.length_append, List.length_append]
  have htotal := length_archive h
  simp only [bootEntrySize, bootNameMax] at hsize hname hAl hAl' htotal
  have hoff : (BootFs.mk (archive files)).entryOffset pre.length = A.length := by
    rw [BootFs.entryOffset_eq (by omega), entrySize_archive h, hAl]
  have hread : (BootFs.mk (archive files)).entry pre.length =
      some ((BootFs.mk (archive files)).decode A.length) := by
    rw [BootFs.entry_of_fits (by rw [hoff]; omega), hoff, if_pos]
    rw [entrySize_archive h, BootFs.size, htotal]
    exact ⟨le_rfl, by omega⟩
  -- the fields of the record, each behind the ones before it
  have hkind : (archive files).getD A.length 0 = 1 := by
    rw [hA, List.getD_append_right _ _ _ _ le_rfl, Nat.sub_self]
    rfl
  have hnl : ((archive files).getD (A.length + 1) 0).toNat = file.1.length := by
    rw [hA, List.getD_append_right _ _ _ _ (by omega), Nat.add_sub_cancel_left]
    simp only [record, List.cons_append, List.getD_cons_succ, List.getD_cons_zero]
    rw [UInt8.toNat_ofNat']
    omega
  have hdo : numberAt (archive files) (A.length + 2) 4 = A'.length := by
    rw [@numberAt_of_eq _ (A ++ [1, UInt8.ofNat file.1.length]) _ _ 4
      (12 + files.length * bootEntrySize + (contents pre).length)
      (by rw [hA, record]; simp only [List.append_assoc]; rfl) (by simp)]
    simp only [bootEntrySize]
    omega
  have hdl : numberAt (archive files) (A.length + 6) 4 = file.2.length := by
    rw [@numberAt_of_eq _ (A ++ [1, UInt8.ofNat file.1.length] ++
        leBytes 4 (12 + files.length * bootEntrySize + (contents pre).length)) _ _ 4
      file.2.length (by rw [hA, record]; simp only [List.append_assoc]; rfl) (by simp)]
    omega
  have hnm : field (archive files) (A.length + 10) file.1.length = file.1 :=
    field_of_eq (a := A ++ [1, UInt8.ofNat file.1.length] ++
        leBytes 4 (12 + files.length * bootEntrySize + (contents pre).length) ++
        leBytes 4 file.2.length) (by rw [hA, record, ljust]; simp only [List.append_assoc]; rfl)
      (by simp) rfl
  refine ⟨⟨1, A.length + 10, file.1.length, A'.length, file.2.length⟩, ?_, rfl, rfl, hnm,
    field_of_eq hA' rfl rfl⟩
  rw [BootFs.entryAt, hread]
  simp only [Option.join_some, BootFs.decode, hkind, hnl, hdo, hdl, BootFs.size, htotal]
  rw [if_neg]
  simp only [Bool.or_eq_true, decide_eq_true_eq, gt_iff_lt, not_or, not_lt]
  omega

/-- The numbers of a list lead through the list. -/
theorem filterMap_range_getElem {α : Type} (l : List α) :
    (List.range l.length).filterMap (l[·]?) = l := by
  induction l with
  | nil => rfl
  | cons x l ih =>
    rw [List.length_cons, List.range_succ_eq_map,
      List.filterMap_cons_some (f := fun i => (x :: l)[i]?) (b := x) rfl,
      List.filterMap_map]
    exact congrArg (x :: ·) ih

/-- The names and contents in the table of the kernel are the files. -/
theorem table_archive {files : List BootFile} (h : ∀ file ∈ files, Packable file)
    (hcount : files.length ≤ 65535)
    (hsize : 12 + files.length * bootEntrySize + (contents files).length < 2 ^ 32) :
    (BootFs.mk (archive files)).table.map (fun e =>
      ((BootFs.mk (archive files)).nameOf e, (BootFs.mk (archive files)).dataOf e)) = files := by
  rw [BootFs.table, List.map_filterMap, entryCount_archive h hcount]
  refine (List.filterMap_congr fun i hi => ?_).trans (filterMap_range_getElem files)
  have hlt := List.mem_range.mp hi
  have hsplit : files = files.take i ++ files[i] :: files.drop (i + 1) := by
    rw [List.getElem_cons_drop, List.take_append_drop]
  obtain ⟨e, he, -, -, hn, hd⟩ := entry_packed h hcount hsize hsplit
  rw [List.length_take, min_eq_left hlt.le] at he
  rw [he, List.getElem?_eq_getElem hlt, Option.map_some, hn, hd]

theorem findData_archive {files : List BootFile} (h : ∀ file ∈ files, Packable file)
    (hcount : files.length ≤ 65535)
    (hsize : 12 + files.length * bootEntrySize + (contents files).length < 2 ^ 32)
    (name : List UInt8) : (BootFs.mk (archive files)).findData name =
      some ((files.find? fun file => file.1 == name).map Prod.snd) := by
  conv_rhs => rw [← table_archive h hcount hsize]
  rw [BootFs.findData, BootFs.findWith_eq, List.find?_map, Option.map_map]
  rfl

/-- **The kernel finds every packed file, with its contents, and no other**: the archive that the
script writes has as many entries as there are files, and the two searches agree. -/
theorem bootfs_roundtrip {files : List BootFile} (hn : (files.map Prod.fst).Nodup)
    (h : ∀ file ∈ files, Packable file) (hcount : files.length ≤ 65535)
    (hsize : 12 + files.length * bootEntrySize + (contents files).length < 2 ^ 32) :
    ∃ image, build files = some image ∧
      image.length = 12 + files.length * bootEntrySize + (contents files).length ∧
      (BootFs.mk image).entryCount = files.length ∧
      (∀ file ∈ files, (BootFs.mk image).findData file.1 = some (some file.2)) ∧
      (∀ name, name ∉ files.map Prod.fst → (BootFs.mk image).findData name = some none) ∧
      ∀ name, ∃ e, (BootFs.mk image).findEntry name = some e ∧
        (BootFs.mk image).findData name = some (e.map (BootFs.mk image).dataOf) ∧
        ∀ found ∈ e, ((BootFs.mk image).dataOf found).length = found.dataLen := by
  refine ⟨archive files, build_eq h hcount hsize, length_archive h, entryCount_archive h hcount,
    fun file hf => ?_, fun name hno => ?_, fun name => ?_⟩
  · rw [findData_archive h hcount hsize]
    have hfind : files.find? (fun f => f.1 == file.1) = some file := by
      cases hfd : files.find? fun f => f.1 == file.1 with
      | none => exact absurd (List.find?_eq_none.mp hfd file hf) (by simp)
      | some g =>
        have hg : g.1 = file.1 := by simpa using List.find?_some hfd
        exact congrArg some (List.inj_on_of_nodup_map hn (List.mem_of_find?_eq_some hfd) hf hg)
    rw [hfind, Option.map_some]
  · rw [findData_archive h hcount hsize]
    have hfind : files.find? (fun f => f.1 == name) = none := by
      rw [List.find?_eq_none]
      intro f hf hfn
      exact hno (List.mem_map.mpr ⟨f, hf, by simpa using hfn⟩)
    rw [hfind, Option.map_none]
  · rw [BootFs.findEntry, BootFs.findData, BootFs.findWith_eq, BootFs.findWith_eq, Option.map_id]
    refine ⟨_, rfl, rfl, fun found hf => ?_⟩
    obtain ⟨i, -, hi⟩ := List.mem_filterMap.mp (List.mem_of_find?_eq_some hf)
    have hentry : (BootFs.mk (archive files)).entry i = some (some found) := by
      rw [BootFs.entryAt] at hi
      exact Option.join_eq_some_iff.mp hi
    exact length_field (BootFs.entry_inside hentry).2

/-- Two files, the second empty and at the end of the archive. -/
def twoFiles : List BootFile := [(ascii "a", [1, 2]), (ascii "b/c", [])]

theorem bootfs_roundtrip_twoFiles : ∃ image, build twoFiles = some image ∧
    (BootFs.mk image).findData (ascii "b/c") = some (some []) ∧
    (BootFs.mk image).findData (ascii "b") = some none := by
  have hp : ∀ file ∈ twoFiles, Packable file := by
    intro file hf
    simp only [twoFiles, List.mem_cons, List.not_mem_nil, or_false] at hf
    rcases hf with rfl | rfl
    · exact packable_of_all (by decide) (by decide) (by decide)
    · exact packable_of_all (by decide) (by decide) (by decide)
  obtain ⟨image, hb, -, -, hin, hout, -⟩ := @bootfs_roundtrip twoFiles (by decide) hp
    (by decide) (by decide)
  exact ⟨image, hb, hin (ascii "b/c", []) (by simp [twoFiles]), hout (ascii "b") (by decide)⟩

end Rymos
