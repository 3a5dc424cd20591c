import Mathlib.Tactic
import Rymos.Pfs.Fd

/-!
# What the calls through descriptors do

* `copyLen`, **`abiRead_pfs`**: a read through a descriptor of a RYMFS file.
* `Stored`, **`abiWriteFd_spec`**: a write, complete or not.
* `Emptied`, `OpenedFile`, **`abiOpenPfs_done`**: an open that succeeds.
-/

namespace Rymos

open ByteBuf Extents Blocks

section Frame

variable (sys : Sys) (disk : Disk) (index : ℕ) (fd : AppFd) (pipe : AppPipe)

@[simp] theorem setFd_disk : (sys.setFd index fd).disk = sys.disk := rfl

@[simp] theorem setFd_fds : (sys.setFd index fd).fds = Function.update sys.fds index fd := rfl

@[simp] theorem setDisk_disk : (sys.setDisk disk).disk = disk := rfl

@[simp] theorem setDisk_fds : (sys.setDisk disk).fds = sys.fds := rfl

@[simp] theorem setPipe_disk : (sys.setPipe index pipe).disk = sys.disk := rfl

@[simp] theorem setPipe_fds : (sys.setPipe index pipe).fds = sys.fds := rfl

end Frame

section Calls

variable {disk disk' : Disk} {sys sys' : Sys} {t : ℕ → ℕ}

/-- The descriptor is open for `flag`. -/
def AppFd.allows (handle : AppFd) (flag : UInt32) : Bool := handle.isOpen && hasFlag handle.flags flag

/-! ## Reading -/

/-- The bytes a read into `n` bytes copies. -/
def copyLen (handle : AppFd) (n : ℕ) : ℕ := min n (handle.len - handle.offset)

/-- **A read through a descriptor of a RYMFS file.** -/
theorem abiRead_pfs {fd : ℤ} {n index : ℕ} {bytes : List UInt8} (hx : appFdIndex fd = some index)
    (hk : (sys.fds index).kind = .pfs) (he : abiRead sys fd n = (sys', .done bytes)) :
    (copyLen (sys.fds index) n = 0 ∧ bytes = [] ∧ sys' = sys) ∨
    0 < copyLen (sys.fds index) n ∧ (sys.fds index).allows fdRead = true ∧
      pfsReadAt sys.disk (sys.fds index).pfsIndex (sys.fds index).offset
        (copyLen (sys.fds index) n) = some bytes ∧
      sys' = sys.setFd index { sys.fds index with
        offset := usize ((sys.fds index).offset + copyLen (sys.fds index) n) } := by
  rw [abiRead, hx] at he
  dsimp only at he
  generalize sys.fds index = handle at hk he ⊢
  obtain ⟨isOpen, kind, flags, data, len, offset, pfsIndex⟩ := handle
  obtain rfl : kind = .pfs := hk
  split_ifs at he with ho hr hp hc
  iterate 2 (cases he)
  · cases hp
  · cases he
    exact Or.inl ⟨hc, rfl, rfl⟩
  · refine Or.inr ⟨Nat.pos_of_ne_zero hc, by simp_all [AppFd.allows], ?_⟩
    dsimp only [copyLen] at he ⊢
    cases hr : pfsReadAt sys.disk pfsIndex offset (min n (len - offset)) with
    | none => rw [hr] at he; cases he
    | some b =>
      rw [hr] at he
      cases he
      exact ⟨rfl, rfl⟩

/-! ## Writing -/

/-- The position a write through the descriptor goes to. -/
def writeOffset (handle : AppFd) : ℕ :=
  if hasFlag handle.flags fdAppend then handle.len else handle.offset

/-- The disk, the descriptor and the reply after a write of `data` through `handle`. -/
inductive Stored (disk : Disk) (handle : AppFd) (data : List UInt8) (t : ℕ → ℕ) :
    Disk → AppFd → Reply ℕ → Prop where
  /-- Nothing was stored. -/
  | idle : Stored disk handle data t disk { handle with offset := writeOffset handle } .refused
  /-- The disk failed, or the end of the extents was reached. -/
  | part {mid disk' : Disk} {m : ℕ}
      (w : WroteVia disk mid disk' handle.pfsIndex (writeOffset handle) data (t 0) m) :
      Stored disk handle data t disk' { handle with offset := writeOffset handle } .refused
  /-- The data is stored, but the header could not be read for the new size. -/
  | unsized {mid disk' : Disk}
      (w : WroteVia disk mid disk' handle.pfsIndex (writeOffset handle) data (t 0)
        (writeOffset handle + data.length))
      (lt : handle.len < writeOffset handle + data.length) :
      Stored disk handle data t disk'
        { handle with
          offset := writeOffset handle + data.length
          len := writeOffset handle + data.length } .refused
  | within {mid disk' : Disk}
      (w : WroteVia disk mid disk' handle.pfsIndex (writeOffset handle) data (t 0)
        (writeOffset handle + data.length))
      (le : writeOffset handle + data.length ≤ handle.len) :
      Stored disk handle data t disk' { handle with offset := writeOffset handle + data.length }
        (.done data.length)
  | grown {mid disk' : Disk}
      (w : WroteVia disk mid disk' handle.pfsIndex (writeOffset handle) data (t 0)
        (writeOffset handle + data.length))
      (lt : handle.len < writeOffset handle + data.length) :
      Stored disk handle data t
        (withHeader disk' (pfsStoreSize (diskHeader disk') handle.pfsIndex
          (writeOffset handle + data.length) (t 1)))
        { handle with
          offset := writeOffset handle + data.length
          len := writeOffset handle + data.length } (.done data.length)

/-- A complete write comes to a size the file may have. -/
theorem WroteVia.end_le {mid : Disk} {index offset now : ℕ} {data : List UInt8}
    (w : WroteVia disk mid disk' index offset data now (offset + data.length))
    (h : AllocInv (diskHeader disk)) (hi : index < pfsEntryCount) :
    usize (offset + data.length) = offset + data.length ∧ offset + data.length ≤ pfsFileMax ∧
      pfsEntryIsFile (diskHeader disk') index = true ∧
      offset + data.length ≤ 512 * total (pfsEntryExtents (diskHeader disk') index) := by
  have hcap := w.cap
  have hlt := total_lt (w.room.allocInv h hi) hi (w.room.file' hi)
  have hus : usize (offset + data.length) = offset + data.length := usize_of_lt (by omega)
  rw [w.header h hi]
  exact ⟨hus, hus ▸ w.max, w.room.file' hi, hcap⟩

/-- The kind byte says whether an entry is used and whether it is a file. -/
theorem entry_of_kind {header header' : Header} {i : ℕ}
    (h : pfsEntryKind header' i = pfsEntryKind header i) :
    pfsEntryUsed header' i = pfsEntryUsed header i ∧
      pfsEntryIsFile header' i = pfsEntryIsFile header i := by
  rw [pfsEntryKind, pfsEntryKind] at h
  simp only [pfsEntryIsFile, pfsEntryUsed, pfsEntryIsDir, h, and_self]

/-- A write changes one entry, whose kind and name stay. -/
theorem Stored.entry {handle handle' : AppFd} {data : List UInt8} {r : Reply ℕ}
    (hs : Stored disk handle data t disk' handle' r) (h : AllocInv (diskHeader disk))
    (hi : handle.pfsIndex < pfsEntryCount) :
    OnlyEntry (diskHeader disk) (diskHeader disk') handle.pfsIndex ∧
      pfsEntryKind (diskHeader disk') handle.pfsIndex =
        pfsEntryKind (diskHeader disk) handle.pfsIndex ∧
      pfsEntryName (diskHeader disk') handle.pfsIndex =
        pfsEntryName (diskHeader disk) handle.pfsIndex := by
  have via : ∀ {mid d : Disk} {m : ℕ},
      WroteVia disk mid d handle.pfsIndex (writeOffset handle) data (t 0) m →
      OnlyEntry (diskHeader disk) (diskHeader d) handle.pfsIndex ∧
        pfsEntryKind (diskHeader d) handle.pfsIndex =
          pfsEntryKind (diskHeader disk) handle.pfsIndex ∧
        pfsEntryName (diskHeader d) handle.pfsIndex =
          pfsEntryName (diskHeader disk) handle.pfsIndex := by
    intro mid d m w
    rw [w.header h hi]
    exact ⟨w.room.onlyEntry, w.room.kind_eq hi, w.room.name_eq hi⟩
  cases hs with
  | idle => exact ⟨fun _ _ => rfl, rfl, rfl⟩
  | part w => exact via w
  | unsized w _ => exact via w
  | within w _ => exact via w
  | @grown _ d w _ =>
    obtain ⟨ho, hk, hn⟩ := via w
    have hentry := pfsEntry_pfsStoreSize (diskHeader d) hi
      (writeOffset handle + data.length) (t 1)
    rw [diskHeader_withHeader]
    refine ⟨ho.trans (onlyEntry_pfsStoreSize _ _ _), ?_, ?_⟩
    · rw [← hk]
      simpa only [pfsEntry] using congrArg PfsEntry.kind hentry
    · rw [← hn]
      simpa only [pfsEntry] using congrArg PfsEntry.name hentry

/-- A new size changes no byte of any file. -/
theorem fileByte_pfsStoreSize {i j : ℕ} (h : AllocInv (diskHeader disk)) (hi : i < pfsEntryCount)
    (hj : j < pfsEntryCount) (hf : pfsEntryIsFile (diskHeader disk) j = true) (size now p : ℕ) :
    fileByte (withHeader disk (pfsStoreSize (diskHeader disk) i size now)) j p =
      fileByte disk j p := by
  have hext : pfsEntryExtents (pfsStoreSize (diskHeader disk) i size now) j =
      pfsEntryExtents (diskHeader disk) j := by
    by_cases hji : j = i
    · subst hji
      simpa only [pfsEntry] using congrArg PfsEntry.extents (pfsEntry_pfsStoreSize _ hi size now)
    · exact ((onlyEntry_pfsStoreSize (diskHeader disk) size now).other hji).extents
  rw [fileByte, fileByte, diskHeader_withHeader, hext]
  exact byteAt_congr (fun x hx => sectors_withHeader (h.inside hj hf hx).1) p

theorem diskSize_pfsStoreSize {i size now : ℕ} (hi : i < pfsEntryCount) (hs : size ≤ pfsFileMax) :
    diskSize (withHeader disk (pfsStoreSize (diskHeader disk) i size now)) i = size := by
  rw [pfsFileMax_eq] at hs
  rw [diskSize, diskHeader_withHeader]
  have he := congrArg PfsEntry.size (pfsEntry_pfsStoreSize (diskHeader disk) hi size now)
  simp only [pfsEntry] at he
  rw [he]
  exact Nat.mod_eq_of_lt (by omega)

/-- A header written for the new size, or not. -/
theorem pfsUpdateSize_cases {index size now : ℕ} {ok : Bool} (hw : HeaderWritable disk)
    (he : pfsUpdateSize disk index size now = (ok, disk')) :
    (ok = false ∧ disk' = disk) ∨
      ok = true ∧ disk' = withHeader disk (pfsStoreSize (diskHeader disk) index size now) := by
  rw [pfsUpdateSize] at he
  cases hh : readHeaderSilent disk with
  | none =>
    rw [hh] at he
    cases he
    exact Or.inl ⟨rfl, rfl⟩
  | some header =>
    obtain ⟨rfl, -⟩ := readHeaderSilent_eq_some hh
    rw [hh] at he
    dsimp only at he
    rw [writeHeader_spec hw] at he
    split_ifs at he
    · cases he
      exact Or.inl ⟨rfl, rfl⟩
    · cases he
      exact Or.inr ⟨rfl, rfl⟩

/-- The file branch of a write. -/
theorem writeFile_spec {index : ℕ} {handle : AppFd} {data : List UInt8} {r : Reply ℕ}
    (hi : handle.pfsIndex < pfsEntryCount) (hw : HeaderWritable sys.disk)
    (h : AllocInv (diskHeader sys.disk))
    (he : writeFile (sys.setFd index { handle with offset := writeOffset handle }) index
      { handle with offset := writeOffset handle } data t = some (sys', r)) :
    ∃ handle', Stored sys.disk handle data t sys'.disk handle' r ∧
      sys'.fds = Function.update sys.fds index handle' := by
  rw [writeFile] at he
  split_ifs at he
  · cases he
    exact ⟨_, .idle, rfl⟩
  dsimp only [setFd_disk] at he
  cases hwr : pfsWriteAt sys.disk handle.pfsIndex (writeOffset handle) data (t 0) with
  | none => rw [hwr] at he; cases he
  | some p =>
    obtain ⟨ok, disk⟩ := p
    rw [hwr] at he
    rcases pfsWriteAt_spec hw h hi hwr with ⟨rfl, rfl⟩ | ⟨mid, m, w, hm⟩
    · cases he
      exact ⟨_, .idle, rfl⟩
    cases ok with
    | false =>
      cases he
      exact ⟨_, .part w, rfl⟩
    | true =>
      obtain rfl := hm rfl
      dsimp only at he
      rw [(w.end_le h hi).1] at he
      split_ifs at he with hlt
      · cases hu : pfsUpdateSize disk handle.pfsIndex (writeOffset handle + data.length) (t 1) with
        | mk ok last =>
          have hwd := w.only.headerWritable (w.only_mid.headerWritable hw)
          rw [setDisk_disk, hu] at he
          rcases pfsUpdateSize_cases hwd hu with ⟨rfl, rfl⟩ | ⟨rfl, rfl⟩
          · cases he
            exact ⟨_, .unsized w hlt, by simp⟩
          · cases he
            exact ⟨_, .grown w hlt, by simp⟩
      · cases he
        exact ⟨_, .within w (not_lt.mp hlt), by simp⟩

/-- The offset an append sets. -/
theorem append_offset (handle : AppFd) :
    (if hasFlag handle.flags fdAppend = true then { handle with offset := handle.len } else handle) =
      { handle with offset := writeOffset handle } := by
  rw [writeOffset]
  split_ifs <;> rfl

/-- A write through a descriptor of a RYMFS file open for writing. -/
theorem abiWriteFd_pfs {fd : ℤ} {index : ℕ} (hx : appFdIndex fd = some index)
    (hk : (sys.fds index).kind = .pfs) (ha : (sys.fds index).allows fdWrite = true)
    (data : List UInt8) (t : ℕ → ℕ) :
    abiWriteFd sys fd data t =
      writeFile (sys.setFd index { sys.fds index with offset := writeOffset (sys.fds index) }) index
        { sys.fds index with offset := writeOffset (sys.fds index) } data t := by
  have hno : ¬ (!(sys.fds index).isOpen || !hasFlag (sys.fds index).flags fdWrite) = true := by
    simpa [AppFd.allows] using ha
  rw [abiWriteFd, hx]
  dsimp only
  rw [if_neg hno, if_neg (by rw [hk]; exact nofun), if_neg (not_not.mpr hk), append_offset]

/-- **Writing through a descriptor.** Only a RYMFS descriptor touches the disk. -/
theorem abiWriteFd_spec {fd : ℤ} {data : List UInt8} {r : Reply ℕ}
    (hok : ∀ index, (sys.fds index).kind = .pfs → (sys.fds index).pfsIndex < pfsEntryCount)
    (hw : HeaderWritable sys.disk) (h : AllocInv (diskHeader sys.disk))
    (he : abiWriteFd sys fd data t = some (sys', r)) :
    (sys'.disk = sys.disk ∧ sys'.fds = sys.fds ∧
      ∀ index, appFdIndex fd = some index → (sys.fds index).kind = .pfs → r = .refused) ∨
    ∃ index handle', appFdIndex fd = some index ∧ (sys.fds index).kind = .pfs ∧
      (sys.fds index).allows fdWrite = true ∧
      Stored sys.disk (sys.fds index) data t sys'.disk handle' r ∧
      sys'.fds = Function.update sys.fds index handle' := by
  rw [abiWriteFd] at he
  split at he
  · rename_i hx
    cases he
    exact Or.inl ⟨rfl, rfl, fun _ hc => by rw [hx] at hc; cases hc⟩
  rename_i index hx
  dsimp only at he
  by_cases hc : (!(sys.fds index).isOpen || !hasFlag (sys.fds index).flags fdWrite) = true
  · rw [if_pos hc] at he
    cases he
    exact Or.inl ⟨rfl, rfl, fun _ _ _ => rfl⟩
  rw [if_neg hc] at he
  by_cases hp : (sys.fds index).kind = .pipeWrite
  · rw [if_pos hp, writePipe] at he
    refine Or.inl ?_
    have hno : ∀ k, appFdIndex fd = some k → (sys.fds k).kind = .pfs → r = .refused := by
      intro k hk hkind
      obtain rfl : k = index := by rw [hx] at hk; exact (Option.some.inj hk).symm
      rw [hp] at hkind
      cases hkind
    dsimp only at he
    split_ifs at he <;> cases he <;> exact ⟨rfl, rfl, hno⟩
  rw [if_neg hp] at he
  by_cases hk : (sys.fds index).kind ≠ .pfs
  · rw [if_pos hk] at he
    cases he
    exact Or.inl ⟨rfl, rfl, fun _ _ _ => rfl⟩
  rw [if_neg hk] at he
  have hkind := not_not.mp hk
  rw [append_offset] at he
  obtain ⟨handle', hs, hf⟩ := writeFile_spec (hok index hkind) hw h he
  exact Or.inr ⟨index, handle', hx, hkind, by simpa [AppFd.allows] using hc, hs, hf⟩

/-! ## Opening -/

/-- What `abi_open_pfs` opens: an existing file, or a new one in a free entry. -/
theorem openEntry_spec {h : Header} {name : List UInt8} {flags : UInt32} {i : ℕ}
    {o : Option Header} (he : openEntry h name flags t = .ok (i, o)) :
    (o = none ∧ pfsFindEntry h name = some i ∧ pfsEntryIsDir h i = false) ∨
    (hasFlag flags fdCreate = true ∧ pfsFindEntry h name = none ∧ pfsFreeEntry h = some i ∧
      o = some (pfsSetEntry h i name 0 pfsKindFile [] (t 0) pfsModeDefaultFile (t 1))) := by
  simp only [openEntry] at he
  cases hf : pfsFindEntry h name with
  | some j =>
    rw [hf] at he
    dsimp only at he
    split_ifs at he with hd
    cases he
    exact Or.inl ⟨rfl, rfl, by simpa using hd⟩
  | none =>
    rw [hf] at he
    dsimp only at he
    split_ifs at he with hc
    cases hi : pfsFreeEntry h with
    | none => rw [hi] at he; cases he
    | some j =>
      rw [hi] at he
      cases he
      exact Or.inr ⟨hc, rfl, rfl, rfl⟩

/-- Entry `i` of `h'` is an empty file `name`; nothing else differs from `h`. -/
structure Emptied (h h' : Header) (i : ℕ) (name : List UInt8) : Prop where
  only : OnlyEntry h h' i
  file : pfsEntryIsFile h' i = true
  name_eq : pfsEntryName h' i = name
  size : pfsEntrySize h' i = 0
  extents : pfsEntryExtents h' i = []

theorem Emptied.trans {h h' h'' : Header} {i : ℕ} {name : List UInt8} (a : Emptied h h' i name)
    (b : Emptied h' h'' i name) : Emptied h h'' i name :=
  ⟨a.only.trans b.only, b.file, b.name_eq, b.size, b.extents⟩

theorem emptied_pfsSetEntry {h : Header} {name : List UInt8} {i created now : ℕ} {mode : UInt8}
    (hi : i < pfsEntryCount) (hl : name.length ≤ 96) :
    Emptied h (pfsSetEntry h i name 0 pfsKindFile [] created mode now) i name := by
  have hkind := pfsEntryKind_pfsSetEntry h name 0 pfsKindFile [] created mode now hi
  rw [pfsEntryKind] at hkind
  refine ⟨onlyEntry_pfsSetEntry h hl, ?_, pfsEntryName_pfsSetEntry h name 0 _ _ _ _ _ hi hl,
    pfsEntrySize_pfsSetEntry h name 0 _ _ _ _ _ hi,
    pfsEntryExtents_pfsSetEntry h name 0 _ _ _ _ _ hi (Nat.zero_le _) (by simp)⟩
  rw [pfsEntryIsFile, pfsEntryUsed, pfsEntryIsDir, hkind]
  rfl

/-- The file an open that succeeds comes to: the one it found, or one it emptied or made. -/
inductive OpenedFile (disk disk' : Disk) (name : List UInt8) (flags : UInt32) (i : ℕ) : Prop where
  | existing (find : pfsFindEntry (diskHeader disk) name = some i)
      (file : pfsEntryIsFile (diskHeader disk) i = true) (same : disk' = disk)
      (keep : hasFlag flags fdTruncate = false)
  | emptied
      (start : pfsFindEntry (diskHeader disk) name = some i ∧ hasFlag flags fdTruncate = true ∨
        pfsFindEntry (diskHeader disk) name = none ∧ pfsFreeEntry (diskHeader disk) = some i)
      (only : OnlySectors disk disk')
      (data : ∀ x, pfsDataStart ≤ x → disk'.sectors x = disk.sectors x)
      (emptied : Emptied (diskHeader disk) (diskHeader disk') i name)

/-- The descriptor of an open that succeeds. -/
def openedFd (disk : Disk) (flags : UInt32) (i : ℕ) : AppFd :=
  { isOpen := true, kind := .pfs, flags := flags, data := [], len := diskSize disk i,
    offset := if hasFlag flags fdAppend then diskSize disk i else 0, pfsIndex := i }

theorem openPfsFd_done {header : Header} {i : ℕ} {flags : UInt32} {r : ℤ}
    (hh : diskHeader sys.disk = header) (he : openPfsFd sys header i flags = (sys', .done r)) :
    ∃ index, freeFd sys = some index ∧ r = index + appFdBase ∧
      sys' = sys.setFd index (openedFd sys.disk flags i) := by
  subst hh
  rw [openPfsFd] at he
  dsimp only at he
  split at he <;> cases he
  rename_i index hf
  exact ⟨index, hf, rfl, rfl⟩

/-- The end of an open, on a file found or made. -/
theorem openPfsTruncate_done {header : Header} {i : ℕ} {name : List UInt8} {flags : UInt32} {r : ℤ}
    (hh : diskHeader sys.disk = header) (hw : HeaderWritable sys.disk) (hi : i < pfsEntryCount)
    (hl : name.length ≤ 96) (he : openPfsTruncate sys header i name flags t = (sys', .done r)) :
    ∃ index disk', freeFd sys = some index ∧ r = index + appFdBase ∧
      sys' = (sys.setDisk disk').setFd index (openedFd disk' flags i) ∧
      (hasFlag flags fdTruncate = false ∧ disk' = sys.disk ∨
        hasFlag flags fdTruncate = true ∧ ∃ header', disk' = withHeader sys.disk header' ∧
          Emptied header header' i name) := by
  rw [openPfsTruncate] at he
  dsimp only at he
  split_ifs at he with ht
  · rw [writeHeader_spec hw] at he
    dsimp only at he
    have hem : Emptied header (truncateHeader header i name (t 2)) i name :=
      emptied_pfsSetEntry hi hl
    generalize truncateHeader header i name (t 2) = header' at he hem
    obtain ⟨index, hf, hr, hs⟩ := openPfsFd_done diskHeader_withHeader he
    exact ⟨index, _, hf, hr, hs, Or.inr ⟨ht, header', rfl, hem⟩⟩
  · obtain ⟨index, hf, hr, hs⟩ := openPfsFd_done hh he
    exact ⟨index, sys.disk, hf, hr, hs, Or.inl ⟨by simpa using ht, rfl⟩⟩

/-- **An open that succeeds** takes the first free descriptor. -/
theorem abiOpenPfs_done {name : List UInt8} {flags : UInt32} {r : ℤ}
    (hw : HeaderWritable sys.disk) (he : abiOpenPfs sys name flags t = (sys', .done r)) :
    ∃ index i, freeFd sys = some index ∧ r = index + appFdBase ∧ i < pfsEntryCount ∧
      OpenedFile sys.disk sys'.disk name flags i ∧
      sys'.fds = Function.update sys.fds index (openedFd sys'.disk flags i) := by
  rw [abiOpenPfs] at he
  split_ifs at he with hv
  iterate 4 (cases he)
  have hvalid : validPfsPath name = true := by simpa using hv
  have hl := (length_of_validPfsPath hvalid).2
  cases hh : readHeaderSilent sys.disk with
  | none => rw [hh] at he; cases he
  | some header =>
    obtain ⟨rfl, -⟩ := readHeaderSilent_eq_some hh
    rw [hh] at he
    dsimp only at he
    split_ifs at he
    · cases he
    cases ho : openEntry (diskHeader sys.disk) name flags t with
    | error code => rw [ho] at he; cases he
    | ok p =>
      obtain ⟨i, o⟩ := p
      rw [ho] at he
      rcases openEntry_spec ho with ⟨rfl, hf, hd⟩ | ⟨-, hf, hfree, rfl⟩
      · obtain ⟨hi, hu, -⟩ := pfsFindEntry_eq_some.mp hf
        obtain ⟨index, disk', hfd, hr, rfl, ht⟩ := openPfsTruncate_done rfl hw hi hl he
        refine ⟨index, i, hfd, hr, hi, ?_, rfl⟩
        rcases ht with ⟨ht, rfl⟩ | ⟨ht, header, rfl, hem⟩
        · exact .existing hf (pfsEntryIsFile_iff.mpr ⟨hu, hd⟩) rfl ht
        · refine .emptied (Or.inl ⟨hf, ht⟩) rfl (fun x hx => sectors_withHeader hx) ?_
          simpa using hem
      · have hi := (pfsFreeEntry_spec hfree).1
        dsimp only at he
        rw [writeHeader_spec hw] at he
        dsimp only at he
        generalize hs : pfsSetEntry (diskHeader sys.disk) i name 0 pfsKindFile [] (t 0)
          pfsModeDefaultFile (t 1) = header at he
        have hnew : Emptied (diskHeader sys.disk) header i name := hs ▸ emptied_pfsSetEntry hi hl
        have hw' : HeaderWritable (sys.setDisk (withHeader sys.disk header)).disk := hw
        obtain ⟨index, disk', hfd, hr, rfl, ht⟩ :=
          openPfsTruncate_done diskHeader_withHeader hw' hi hl he
        refine ⟨index, i, hfd, hr, hi, ?_, rfl⟩
        rw [setDisk_disk] at ht
        rcases ht with ⟨-, rfl⟩ | ⟨-, header', rfl, hem⟩
        · refine .emptied (Or.inr ⟨hf, hfree⟩) rfl (fun x hx => sectors_withHeader hx) ?_
          simpa using hnew
        · refine .emptied (Or.inr ⟨hf, hfree⟩) rfl (fun x hx => ?_) ?_
          · exact (sectors_withHeader hx).trans (sectors_withHeader hx)
          · simpa using hnew.trans hem

theorem OpenedFile.only {name : List UInt8} {flags : UInt32} {i : ℕ}
    (h : OpenedFile disk disk' name flags i) : OnlySectors disk disk' := by
  cases h with
  | existing _ _ hs _ => rw [hs]; exact .refl _
  | emptied _ ho _ _ => exact ho

theorem OpenedFile.file {name : List UInt8} {flags : UInt32} {i : ℕ}
    (h : OpenedFile disk disk' name flags i) : pfsEntryIsFile (diskHeader disk') i = true := by
  cases h with
  | existing _ hf hs _ => rw [hs]; exact hf
  | emptied _ _ _ he => exact he.file

/-- **The name leads to the file opened.** -/
theorem OpenedFile.find {name : List UInt8} {flags : UInt32} {i : ℕ}
    (h : OpenedFile disk disk' name flags i) (hn : NamesFit (diskHeader disk))
    (hi : i < pfsEntryCount) : pfsFindEntry (diskHeader disk') name = some i := by
  cases h with
  | existing hf _ hs _ => rw [hs]; exact hf
  | emptied hs _ _ he =>
    refine pfsFindEntry_eq_some.mpr ⟨hi, (pfsEntryIsFile_iff.mp he.file).1, he.name_eq,
      fun j hj hu => ?_⟩
    have hb := he.only.other hj.ne
    rw [hb.used] at hu
    rw [hb.name (hn j (hj.trans hi) hu)]
    rcases hs with ⟨hf, -⟩ | ⟨hf, -⟩
    · exact (pfsFindEntry_eq_some.mp hf).2.2.2 j hj hu
    · exact pfsFindEntry_eq_none.mp hf j (hj.trans hi) hu

end Calls

end Rymos
