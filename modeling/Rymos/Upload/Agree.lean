import Mathlib.Tactic
import Rymos.Upload.Image
import Rymos.Upload.Reads

/-!
# The uploader and the kernel agree

* `PutOn`, **`main_putOn`**: what an upload that completes has done to the disk.
* `Agrees`: what the kernel then finds.
* **`agrees_iff`**: it finds the file just if no component of the path is `.` or `..`;
  **`not_agrees_dot`**.
-/

namespace Rymos

open ByteBuf Extents Blocks PfsPut

/-! ## New directories take no sectors -/

section Made

variable {header header' : Header} {names : Finset (List UInt8)}

theorem MadeDirs.isFile (h : MadeDirs header header' names) {j : ℕ} (hj : j < pfsEntryCount) :
    pfsEntryIsFile header' j = pfsEntryIsFile header j := by
  cases hu : pfsEntryUsed header j with
  | true =>
    have hs := h.kept j hj hu
    rw [pfsEntryIsFile, pfsEntryIsFile, hs.used, hs.isDir]
  | false =>
    have hold : pfsEntryIsFile header j = false := by rw [pfsEntryIsFile, hu, Bool.false_and]
    cases hu' : pfsEntryUsed header' j with
    | false => rw [hold, pfsEntryIsFile, hu', Bool.false_and]
    | true =>
      rcases h.new j hj hu' with hc | ⟨hd, -⟩
      · rw [hu] at hc
        cases hc
      · rw [hold, pfsEntryIsFile, hd, Bool.not_true, Bool.and_false]

theorem MadeDirs.otherExtents (h : MadeDirs header header' names) (skip : Option ℕ) :
    Rymos.otherExtents header' skip = Rymos.otherExtents header skip := by
  rw [Rymos.otherExtents, Rymos.otherExtents]
  refine List.flatMap_congr fun j hj => ?_
  have hj := List.mem_range.mp hj
  have hfile := h.isFile hj
  have hcond : ∀ h : Header, (!pfsEntryUsed h j || pfsEntryIsDir h j) = !pfsEntryIsFile h j := by
    intro h
    rw [pfsEntryIsFile, Bool.not_and, Bool.not_not]
  rw [Bool.or_assoc, Bool.or_assoc, hcond, hcond, hfile]
  cases hf : pfsEntryIsFile header j with
  | false => simp
  | true => rw [(h.kept j hj (pfsEntryIsFile_iff.mp hf).1).extents]

/-- The kernel grows a file in the sectors the other files leave. -/
theorem pfsGrowExtents_congr {skip : Option ℕ}
    (h : otherExtents header' skip = otherExtents header skip) (extents : List PfsExtent) (n : ℕ) :
    pfsGrowExtents header' extents n skip = pfsGrowExtents header extents n skip := by
  have hfind : ∀ s m, pfsFindFreeRun header' s m skip = pfsFindFreeRun header s m skip := by
    intro s m
    rw [pfsFindFreeRun, pfsFindFreeRun, h]
  have hloop : ∀ fuel extents remaining s, growLoop header' skip fuel extents remaining s =
      growLoop header skip fuel extents remaining s := by
    intro fuel
    induction fuel with
    | zero => exact fun _ _ _ => rfl
    | succ fuel ih =>
      intro extents remaining s
      simp only [growLoop, hfind, ih]
  rw [pfsGrowExtents, pfsGrowExtents, hloop]

end Made

/-! ## What an upload does -/

/-- The disk with the directories of the path and the file in entry `i`. -/
structure PutOn (disk disk' : Disk) (parents : List (List UInt8)) (name data : List UInt8)
    (mid header' : Header) (i : ℕ) (extents : List PfsExtent) : Prop where
  made : ∃ names, MadeParents (diskHeader disk) mid parents names
  inv : RymfsInv mid
  put : FilePut mid header' i name data.length extents
  header : diskHeader disk' = header'
  bytes : ∀ p < data.length, byteAt disk'.sectors extents p = data.getD p 0
  frame : ∀ x, pfsDataStart ≤ x → ¬ Covers extents x → disk'.sectors x = disk.sectors x

/-- With `--format` the script does not complete: `ENTRY_COUNT` is no byte. -/
theorem formatHeader_eq : formatHeader = .error "byte must be in range(0, 256)" := rfl

/-- The script starts from the header on the disk. -/
theorem startHeader_eq_ok {image image' : List UInt8} {header : Header} {format : Bool}
    (h : startHeader (ensureDisk (some image)) format = .ok (image', header)) :
    image' = ensureDisk (some image) ∧ header = diskHeader (imageDisk image) ∧
      header.slice 0 8 = pfsMagic := by
  cases format with
  | true =>
    rw [startHeader, if_pos rfl, formatHeader_eq] at h
    cases h
  | false =>
    rw [startHeader, if_neg Bool.false_ne_true, bind_eq_ok] at h
    obtain ⟨read, hr, he⟩ := h
    cases he
    obtain ⟨-, hh, hm⟩ := readHeader_eq_ok.mp hr
    rw [imageDisk_ensureDisk] at hh
    exact ⟨rfl, hh, hm⟩

/-- **An upload that completes** has made the directories and stored the file. -/
theorem main_putOn {image image' data : List UInt8} {dest : List Char} {format : Bool}
    (h : RymfsInv (diskHeader (imageDisk image)))
    (hm : main (some image) data dest format = .ok image') : PathOk dest ∧ ∃ mid header' i extents,
      PutOn (imageDisk image) (imageDisk image') ((parentDirs dest).map encode) (encode dest) data
        mid header' i extents := by
  rw [main] at hm
  split_ifs at hm with hlen hv
  have hok : PathOk dest := validPath_pathOk (by simpa using hv)
  obtain ⟨⟨image₀, header₀⟩, hstart, hm⟩ := bind_eq_ok.mp hm
  obtain ⟨⟨image₁, header₁⟩, hparents, hm⟩ := bind_eq_ok.mp hm
  obtain ⟨⟨image₂, header₂⟩, hfile, hm⟩ := bind_eq_ok.mp hm
  obtain ⟨rfl, rfl, hmagic⟩ := startHeader_eq_ok hstart
  obtain ⟨rfl, hinv, hmade, hrest⟩ := createParents_spec h (h.tree.namesInv hmagic)
    (chained_pathNames hok _) hparents
  obtain ⟨i, extents, hput, rfl⟩ := createEntry_file hinv hrest (not_lt.mp hlen) hfile
  have hdisk : imageDisk image' =
      withHeader (imageDisk (writeFileData data (ensureDisk (some image)) 0 extents)) header₂ := by
    rw [← Except.ok.inj hm, imageDisk_header]
  have hfresh := hput.fresh hinv
  obtain ⟨hbytes, hframe⟩ := @writeFileData_spec data _ hfresh.spread (ensureDisk (some image)) 0
  refine ⟨hok, header₁, header₂, i, extents, hmade, hinv, hput, ?_, fun p hp => ?_, fun x hx hc => ?_⟩
  · rw [hdisk, diskHeader_withHeader]
  · have hsame : ∀ x, Covers extents x → (imageDisk image').sectors x =
        (imageDisk (writeFileData data (ensureDisk (some image)) 0 extents)).sectors x := by
      intro x hx
      rw [hdisk, sectors_withHeader (hfresh.free x hx).1]
    rw [byteAt_congr hsame, hbytes p (by omega) (lt_of_lt_of_le hp (hput.size_le hinv)), Nat.zero_add]
  · rw [hdisk, sectors_withHeader hx, hframe x hc, imageDisk_ensureDisk]

/-! ## What the kernel finds -/

/-- **The kernel finds what was uploaded**: entry `i` is the file, the other files are as they were, the
invariants hold, and the sectors are those the kernel would have given the file. -/
structure Agrees (image image' : List UInt8) (dest : List Char) (data : List UInt8) (i : ℕ) : Prop where
  stored : pfsFindEntry (diskHeader (imageDisk image')) (encode dest) = some i
  opens : OpensTo (imageDisk image') (pfsPrefix ++ encode dest) i data
  others : ∀ j < pfsEntryCount, j ≠ i → pfsEntryIsFile (diskHeader (imageDisk image)) j = true →
    pfsEntry (diskHeader (imageDisk image')) j = pfsEntry (diskHeader (imageDisk image)) j ∧
      ∀ p, fileByte (imageDisk image') j p = fileByte (imageDisk image) j p
  files : ∀ j < pfsEntryCount, j ≠ i →
    pfsEntryIsFile (diskHeader (imageDisk image')) j = pfsEntryIsFile (diskHeader (imageDisk image)) j
  inv : RymfsInv (diskHeader (imageDisk image'))
  extents : pfsGrowExtents (diskHeader (imageDisk image)) [] (Rymos.sectorsForLen data.length) (some i) =
    some (pfsEntryExtents (diskHeader (imageDisk image')) i)

section Put

variable {disk disk' : Disk} {parents : List (List UInt8)} {name data : List UInt8}
  {mid header' : Header} {i : ℕ} {runs : List PfsExtent}
  (hp : PutOn disk disk' parents name data mid header' i runs)

include hp

/-- The other files are where they were. -/
theorem PutOn.others (hinv : RymfsInv (diskHeader disk)) {j : ℕ} (hj : j < pfsEntryCount) (hne : j ≠ i)
    (hf : pfsEntryIsFile (diskHeader disk) j = true) :
    pfsEntry (diskHeader disk') j = pfsEntry (diskHeader disk) j ∧
      ∀ p, fileByte disk' j p = fileByte disk j p := by
  obtain ⟨names, hmade⟩ := hp.made
  have hu := (pfsEntryIsFile_iff.mp hf).1
  have hmid := hmade.kept j hj hu
  have hother := hp.put.onlyEntry.other hne
  have hentry : pfsEntry (diskHeader disk') j = pfsEntry (diskHeader disk) j := by
    rw [hp.header, hother.entry (hp.inv.tree.namesFit j hj (by rw [hmid.used, hu])),
      hmid.entry (hinv.tree.namesFit j hj hu)]
  have hext : pfsEntryExtents (diskHeader disk') j = pfsEntryExtents (diskHeader disk) j :=
    congrArg PfsEntry.extents hentry
  have hmidext : fileExtents mid ⟨j, hj⟩ = pfsEntryExtents (diskHeader disk) j := by
    rw [fileExtents_of_file (by rw [hmade.isFile hj, hf]), hmid.extents]
  refine ⟨hentry, fun p => ?_⟩
  rw [fileByte, fileByte, hext]
  refine byteAt_congr (fun x hx => ?_) p
  have hin := hinv.alloc.inside hj hf hx
  refine hp.frame x hin.1 fun hc => ?_
  refine ((hp.put.fresh hp.inv).free x hc).2.2 
    (covers_otherExtents (j := ⟨j, hj⟩) hp.inv.alloc hne ?_)
  rw [hmidext]
  exact hx

theorem PutOn.files {j : ℕ} (hj : j < pfsEntryCount) (hne : j ≠ i) :
    pfsEntryIsFile (diskHeader disk') j = pfsEntryIsFile (diskHeader disk) j := by
  obtain ⟨names, hmade⟩ := hp.made
  rw [hp.header, isFile_of_onlyEntry hp.put.onlyEntry hne, hmade.isFile hj]

theorem PutOn.extents :
    pfsGrowExtents (diskHeader disk) [] (Rymos.sectorsForLen data.length) (some i) =
      some (pfsEntryExtents (diskHeader disk') i) := by
  obtain ⟨names, hmade⟩ := hp.made
  rw [hp.header, hp.put.extents_eq hp.inv, ← hp.put.grow]
  exact (pfsGrowExtents_congr (hmade.otherExtents _) _ _).symm

/-- The disk holds the file. -/
theorem PutOn.holdsFile (hr : Reliable disk') : HoldsFile disk' header' i data where
  reliable := hr
  header_eq := by
    obtain ⟨names, hmade⟩ := hp.made
    have hmagic : (diskHeader disk').slice 0 8 = pfsMagic := by
      rw [hp.header, hp.put.onlyEntry.slice_magic, hmade.inv.magic]
    rw [readHeaderSilent_of_reliable hr hmagic, hp.header]
  alloc := (hp.put.inv hp.inv).alloc
  lt := hp.put.lt
  file := hp.put.file hp.inv
  size := hp.put.size_eq hp.inv
  bytes p hlt := by rw [fileByte, hp.header, hp.put.extents_eq hp.inv, hp.bytes p hlt]

end Put

section Main

variable {image image' data : List UInt8} {dest : List Char} {format : Bool}

/-- A path the kernel reads the file from is plain. -/
theorem Agrees.plain (h : RymfsInv (diskHeader (imageDisk image)))
    (hm : main (some image) data dest format = .ok image') {j : ℕ}
    (ha : Agrees image image' dest data j) : PlainDest dest := by
  obtain ⟨hok, mid, header', i, extents, hp⟩ := main_putOn h hm
  have hholds := hp.holdsFile (reliable_imageDisk image')
  obtain ⟨name, hr, hf, -⟩ := ha.opens.resolves hholds.header_eq
  have hs := ha.stored
  rw [hp.header] at hs
  have hname : name = encode dest :=
    (pfsFindEntry_eq_some.mp hf).2.2.1.symm.trans (pfsFindEntry_eq_some.mp hs).2.2.1
  exact (hok.pfsResolvePath_iff []).mp (hname ▸ hr)

/-- A plain path fits in a path of a program, and leads to its name. -/
theorem PfsPut.PathOk.resolves (hok : PathOk dest) (hplain : PlainDest dest) (cwd : List UInt8) :
    (checkedAppSlice (pfsPrefix ++ encode dest)).bind (pfsResolvePath cwd) = some (encode dest) := by
  have hlen : (encode dest).length ≤ 96 := (length_of_validPfsPath hok.validPfsPath).2
  have hpath : checkedAppSlice (pfsPrefix ++ encode dest) = some (pfsPrefix ++ encode dest) := by
    rw [checkedAppSlice, List.length_append, show pfsPrefix.length = 4 from rfl, if_neg]
    have hmax : inputMax = 128 := rfl
    simp only [Bool.or_eq_true, decide_eq_true_eq, not_or]
    exact ⟨by omega, by omega⟩
  rw [hpath, Option.bind_some, (hok.pfsResolvePath_iff cwd).mpr hplain]

/-- **The uploader and the kernel agree just if no component of the path is `.` or `..`.** -/
theorem agrees_iff (h : RymfsInv (diskHeader (imageDisk image)))
    (hm : main (some image) data dest format = .ok image') :
    (∃ i, Agrees image image' dest data i) ↔ PlainDest dest := by
  obtain ⟨hok, mid, header', i, extents, hp⟩ := main_putOn h hm
  have hholds := hp.holdsFile (reliable_imageDisk image')
  have hfind := hp.put.find hp.inv
  refine ⟨fun ha => ?_, fun hplain => ⟨i, ?_⟩⟩
  · obtain ⟨j, ha⟩ := ha
    exact ha.plain h hm
  · exact ⟨by rw [hp.header, hfind], opensTo_of_find hholds (hp.put.inv hp.inv) hfind (hok.resolves hplain),
      fun j hj hne hf => hp.others h hj hne hf, fun j hj hne => hp.files hj hne,
      hp.header ▸ hp.put.inv hp.inv, hp.extents⟩

end Main

/-! ## A formatted image -/

/-- A freshly formatted image; the script fills it up to the size of the disk. -/
def blankImage : List UInt8 := emptyHeader.slice 0 headerBytes

theorem diskHeader_blankImage : diskHeader (imageDisk blankImage) = emptyHeader := by
  refine Buf.ext_byte fun k hk => ?_
  rw [byte_header _ hk, blankImage, Buf.getD_slice _ _ _ _ (show k < headerBytes from hk),
    Nat.zero_add]

theorem rymfsInv_emptyHeader : RymfsInv emptyHeader :=
  ⟨allocInv_emptyHeader, treeInv_emptyHeader, fun j _ hu => by
    rw [pfsEntryUsed_emptyHeader] at hu
    cases hu⟩

theorem startHeader_blankImage : startHeader (ensureDisk (some blankImage)) false =
    .ok (ensureDisk (some blankImage), emptyHeader) := by
  have hlen : headerBytes ≤ (ensureDisk (some blankImage)).length := by
    have hmin : headerBytes ≤ minimum := by decide
    rw [ensureDisk]
    split_ifs with h
    · rw [List.length_append, List.length_replicate]
      omega
    · omega
  have hread : PfsPut.readHeader (ensureDisk (some blankImage)) = .ok emptyHeader :=
    readHeader_eq_ok.mpr ⟨hlen, by rw [imageDisk_ensureDisk, diskHeader_blankImage], magic_emptyHeader⟩
  rw [startHeader, if_neg Bool.false_ne_true, hread]
  rfl

/-- The first file takes the first entry and the first sector. -/
theorem createEntry_emptyHeader (image : List UInt8) (char : Char) :
    ∃ image' made, createEntry image emptyHeader [char] [7] kindFile = .ok (image', made) := by
  have hfind : findEntry emptyHeader [char] = none := by
    rw [findEntry_eq, pfsFindEntry_eq_none]
    intro j _ hu
    rw [pfsEntryUsed_emptyHeader] at hu
    cases hu
  have hfree : freeEntry emptyHeader = some 0 := by
    rw [freeEntry_eq, pfsFreeEntry]
    simp only [pfsEntryUsed_emptyHeader]
    rfl
  have hnone : usedExtents emptyHeader (some 0) = [] := by
    rw [usedExtents, List.flatMap_eq_nil_iff]
    intro index _
    have hge : 10 ≤ entryOffset index := le_trans (by decide) (Nat.le_add_right entryBase _)
    rw [byte_emptyHeader hge, if_pos]
    exact (Bool.or_eq_true _ _).mpr (.inr (by decide))
  have hrun : freeRunLoop [] 1 diskSectors dataStart = some (77, 1) := by
    rw [show diskSectors = 8388607 + 1 from rfl, freeRunLoop]
    rfl
  have halloc : chooseExtents emptyHeader 1 0 = .ok [⟨77, 1⟩] := by
    rw [chooseExtents, if_neg (by decide), allocExtents, allocLoop, if_neg (by decide),
      if_neg (by decide), show PfsPut.sectorsForLen 1 = 1 from rfl, findFreeRun, hnone, hrun]
    rfl
  obtain ⟨made, hset⟩ : ∃ made, setEntry emptyHeader 0 [char] 1 kindFile [⟨77, 1⟩] = .ok made :=
    ⟨_, setEntry_eq_ok.mpr ⟨⟨by simp [encode], by decide, by decide, by simp [Fits]⟩, rfl⟩⟩
  have hchoose : chooseEntry emptyHeader [char] kindFile = .ok 0 := by
    rw [chooseEntry, hfind, hfree]
  refine ⟨writeFileData [7] image 0 [⟨77, 1⟩], made, bind_eq_ok.mpr ⟨0, hchoose, ?_⟩⟩
  rw [if_pos (by decide)]
  exact bind_eq_ok.mpr ⟨_, halloc, bind_eq_ok.mpr ⟨_, hset, rfl⟩⟩

/-- A name of one character is uploaded to a formatted image. -/
theorem main_blankImage {char : Char} (hv : validPath [char] = true) (hp : parentDirs [char] = []) :
    ∃ image', main (some blankImage) [7] [char] false = .ok image' := by
  obtain ⟨image', made, hmade⟩ := createEntry_emptyHeader (ensureDisk (some blankImage)) char
  refine ⟨writeAt image' 0 (made.slice 0 headerBytes), ?_⟩
  have hparents : createParents (parentDirs [char]) (ensureDisk (some blankImage)) emptyHeader =
      .ok (ensureDisk (some blankImage), emptyHeader) := by
    rw [hp, createParents]
  rw [main, if_neg (by decide), hv, Bool.not_true, if_neg Bool.false_ne_true, bind_eq_ok]
  refine ⟨_, startHeader_blankImage, ?_⟩
  rw [bind_eq_ok]
  refine ⟨_, hparents, ?_⟩
  rw [bind_eq_ok]
  exact ⟨_, hmade, rfl⟩

/-- An upload of one byte to `a`. -/
theorem agrees_iff_letter : ∃ image', main (some blankImage) [7] ['a'] false = .ok image' ∧
    ((∃ i, Agrees blankImage image' ['a'] [7] i) ↔ PlainDest ['a']) := by
  obtain ⟨image', hm⟩ := main_blankImage (by decide : validPath ['a'] = true) (by decide)
  refine ⟨image', hm, agrees_iff ?_ hm⟩
  rw [diskHeader_blankImage]
  exact rymfsInv_emptyHeader

/-- **An upload to `.` completes, and the kernel does not find the file.** -/
theorem not_agrees_dot : ¬ ∀ (image image' data : List UInt8) (dest : List Char) (format : Bool),
    RymfsInv (diskHeader (imageDisk image)) → main (some image) data dest format = .ok image' →
    ∃ i, Agrees image image' dest data i := by
  intro hall
  have hinv : RymfsInv (diskHeader (imageDisk blankImage)) := by
    rw [diskHeader_blankImage]
    exact rymfsInv_emptyHeader
  obtain ⟨image', hm⟩ := main_blankImage (by decide : validPath ['.'] = true) (by decide)
  obtain ⟨i, ha⟩ := hall _ _ _ _ _ hinv hm
  exact absurd (ha.plain hinv hm) (by decide)

end Rymos
