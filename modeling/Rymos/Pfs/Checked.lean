import Mathlib.Tactic
import Rymos.Base.Checked
import Rymos.Pfs.Calls

/-!
# Writing with checked arithmetic

* `checkedZeroRange`, `checkedWriteData`, `checkedWriteAt`, `checkedWriteFd`: the functions of
  writing, which stop at a sum of more than 64 bits, a sector number of more than 32 bits and a
  negative gap. `none` is an overflow.
* **`checkedWriteFd_eq`**: a write that stays within the size limit has none.
-/

namespace Rymos

open ByteBuf Extents Blocks Checked

def checkedSectorsForLen (len : ℕ) : Option ℕ :=
  if len = 0 then some 0 else (fits 64 (len + 511)).bind fun sum => fits 32 (sum / 512)

def checkedWriteBody (header : Header) (index offset : ℕ) (data : List UInt8) (copied count : ℕ)
    (disk : Disk) : Option (Bool × Disk) :=
  (fits 64 (offset + copied)).bind fun absolute =>
  (fits 32 (absolute / 512)).map fun logicalSector =>
    match pfsEntryLbaForSector header index logicalSector with
    | none => (false, disk)
    | some lba =>
      match ataReadSector disk lba with
      | none => (false, disk)
      | some sector =>
        ataWriteSector disk lba (sector.put (absolute % 512) ((data.drop copied).take count))

def checkedWriteData (disk : Disk) (header : Header) (index offset : ℕ) (data : List UInt8) :
    Option (Bool × Disk) :=
  checkedLoop 64 512 (fun copied => fits 64 (offset + copied))
    (checkedWriteBody header index offset data) data.length data.length 0 disk

def checkedZeroBody (header : Header) (index start written count : ℕ) (disk : Disk) :
    Option (Bool × Disk) :=
  (fits 64 (start + written)).bind fun absolute =>
  (fits 32 (absolute / 512)).map fun logicalSector =>
    match pfsEntryLbaForSector header index logicalSector with
    | none => (false, disk)
    | some lba =>
      if count = 512 then ataWriteSector disk lba (Buf.zero 512)
      else
        match ataReadSector disk lba with
        | none => (false, disk)
        | some sector => ataWriteSector disk lba (sector.fill (absolute % 512) count)

def checkedZeroRange (disk : Disk) (header : Header) (index start len : ℕ) : Option (Bool × Disk) :=
  checkedLoop 64 512 (fun written => fits 64 (start + written)) (checkedZeroBody header index start)
    len len 0 disk

/-- The inner `none` is a panic. -/
def checkedWriteAt (disk : Disk) (index offset : ℕ) (data : List UInt8) (now : ℕ) :
    Option (Option (Bool × Disk)) :=
  (fits 64 (offset + data.length)).bind fun newSize =>
  if newSize > pfsFileMax then some (some (false, disk))
  else
    let oldSize? :=
      match readHeaderSilent disk with
      | some header =>
        if pfsEntryUsed header index then some (pfsEntrySize header index) else none
      | none => none
    match oldSize? with
    | none => some (some (false, disk))
    | some oldSize =>
      match pfsEnsureFileCapacity disk index newSize now with
      | none => some none
      | some (false, disk) => some (some (false, disk))
      | some (true, disk) =>
        match readHeaderSilent disk with
        | none => some (some (false, disk))
        | some header =>
          if offset > oldSize then
            (gap offset oldSize).bind fun len =>
            (checkedZeroRange disk header index oldSize len).bind fun
              | (false, disk) => some (some (false, disk))
              | (true, disk) => (checkedWriteData disk header index offset data).map some
          else (checkedWriteData disk header index offset data).map some

/-- The file branch of `abi_write_fd` once the offset is set. -/
def checkedWriteFile (sys : Sys) (index : ℕ) (handle : AppFd) (data : List UInt8) (t : ℕ → ℕ) :
    Option (Option (Sys × Reply ℕ)) :=
  (fits 64 (handle.offset + data.length)).bind fun newSize =>
  if newSize > pfsFileMax then some (some (sys, .refused))
  else
    (checkedWriteAt sys.disk handle.pfsIndex handle.offset data (t 0)).bind fun
    | none => some none
    | some (false, disk) => some (some (sys.setDisk disk, .refused))
    | some (true, disk) =>
      (fits 64 (handle.offset + data.length)).bind fun offset =>
      let handle := { handle with offset := offset }
      if handle.offset > handle.len then
        let handle := { handle with len := handle.offset }
        let sys := (sys.setDisk disk).setFd index handle
        (fits 32 handle.len).map fun size =>
          match pfsUpdateSize sys.disk handle.pfsIndex size (t 1) with
          | (false, disk) => some (sys.setDisk disk, .refused)
          | (true, disk) => some (sys.setDisk disk, .done data.length)
      else some (some ((sys.setDisk disk).setFd index handle, .done data.length))

def checkedWriteFd (sys : Sys) (fd : ℤ) (data : List UInt8) (t : ℕ → ℕ) :
    Option (Option (Sys × Reply ℕ)) :=
  match appFdIndex fd with
  | none => some (some (sys, .refused))
  | some index =>
    let handle := sys.fds index
    if !handle.isOpen || !hasFlag handle.flags fdWrite then some (some (sys, .refused))
    else if handle.kind = .pipeWrite then some (some (writePipe sys handle data))
    else if handle.kind ≠ .pfs then some (some (sys, .refused))
    else
      let handle :=
        if hasFlag handle.flags fdAppend then { handle with offset := handle.len } else handle
      checkedWriteFile (sys.setFd index handle) index handle data t

section Exact

variable {disk : Disk} {header : Header} {index offset : ℕ} {data : List UInt8}

theorem checkedSectorsForLen_eq {len : ℕ} (h : len ≤ pfsFileMax) :
    checkedSectorsForLen len = some (sectorsForLen len) := by
  rw [pfsFileMax_eq] at h
  rw [checkedSectorsForLen, sectorsForLen]
  by_cases h0 : len = 0
  · rw [if_pos h0, if_pos h0]
  · rw [if_neg h0, if_neg h0, usize_of_lt (by omega), u32_of_lt (by omega), fits_of_lt (by omega),
      Option.bind_some, fits_of_lt (by omega)]

theorem checkedWriteData_eq (h : offset + data.length ≤ pfsFileMax) :
    checkedWriteData disk header index offset data =
      some (pfsWriteData disk header index offset data) := by
  rw [pfsFileMax_eq] at h
  refine checkedLoop_eq (by omega) (fun copied hc => ?_) fun copied hc count d => ?_
  · rw [fits_of_lt (by omega), usize_of_lt (by omega)]
  · rw [checkedWriteBody, writeBody, fits_of_lt (by omega), Option.bind_some, fits_of_lt (by omega),
      Option.map_some, usize_of_lt (by omega), u32_of_lt (by omega)] <;> rfl

theorem checkedZeroRange_eq {start len : ℕ} (h : start + len ≤ pfsFileMax) :
    checkedZeroRange disk header index start len =
      some (pfsZeroRange disk header index start len) := by
  rw [pfsFileMax_eq] at h
  refine checkedLoop_eq (by omega) (fun written hc => ?_) fun written hc count d => ?_
  · rw [fits_of_lt (by omega), usize_of_lt (by omega)]
  · rw [checkedZeroBody, zeroBody, fits_of_lt (by omega), Option.bind_some, fits_of_lt (by omega),
      Option.map_some, usize_of_lt (by omega), u32_of_lt (by omega)] <;> rfl

theorem checkedWriteAt_eq (h : offset + data.length ≤ pfsFileMax) (now : ℕ) :
    checkedWriteAt disk index offset data now = some (pfsWriteAt disk index offset data now) := by
  have hw : usize (offset + data.length) = offset + data.length := by
    rw [pfsFileMax_eq] at h
    exact usize_of_lt (by omega)
  rw [checkedWriteAt, pfsWriteAt, hw, fits_of_lt (by rw [pfsFileMax_eq] at h; omega),
    Option.bind_some]
  dsimp only
  rw [if_neg (not_lt.mpr h), if_neg (not_lt.mpr h)]
  cases readHeaderSilent disk with
  | none => rfl
  | some old =>
    dsimp only
    by_cases hu : pfsEntryUsed old index = true
    swap
    · rw [if_neg hu]
    rw [if_pos hu]
    dsimp only
    cases pfsEnsureFileCapacity disk index (offset + data.length) now with
    | none => rfl
    | some r =>
      obtain ⟨ok, mid⟩ := r
      cases ok with
      | false => rfl
      | true =>
        dsimp only
        cases readHeaderSilent mid with
        | none => rfl
        | some header =>
          dsimp only
          by_cases hgap : offset > pfsEntrySize old index
          · rw [if_pos hgap, if_pos hgap, gap_of_le hgap.le, Option.bind_some,
              checkedZeroRange_eq (by omega), Option.bind_some]
            generalize pfsZeroRange mid header index _ _ = r
            obtain ⟨ok, last⟩ := r
            cases ok with
            | false => rfl
            | true =>
              dsimp only
              rw [checkedWriteData_eq h]
              rfl
          · rw [if_neg hgap, if_neg hgap, checkedWriteData_eq h]
            rfl

theorem checkedWriteFile_eq {sys : Sys} {handle : AppFd} {t : ℕ → ℕ}
    (h : handle.offset + data.length ≤ pfsFileMax) :
    checkedWriteFile sys index handle data t = some (writeFile sys index handle data t) := by
  have hlt : handle.offset + data.length < 2 ^ 32 := by
    rw [pfsFileMax_eq] at h
    omega
  have hw : usize (handle.offset + data.length) = handle.offset + data.length :=
    usize_of_lt (by omega)
  rw [checkedWriteFile, writeFile, hw, fits_of_lt (by omega), Option.bind_some,
    if_neg (not_lt.mpr h), if_neg (not_lt.mpr h), checkedWriteAt_eq h, Option.bind_some]
  cases pfsWriteAt sys.disk handle.pfsIndex handle.offset data (t 0) with
  | none => rfl
  | some r =>
    obtain ⟨ok, disk⟩ := r
    cases ok with
    | false => rfl
    | true =>
      dsimp only
      rw [Option.bind_some]
      split_ifs with hlen
      · rw [fits_of_lt hlt]
        rfl
      · rfl

end Exact

/-- **A write that stays within the size limit has no overflow.** -/
theorem checkedWriteFd_eq {sys : Sys} {fd : ℤ} {data : List UInt8} {t : ℕ → ℕ} {index : ℕ}
    (hx : appFdIndex fd = some index)
    (h : writeOffset (sys.fds index) + data.length ≤ pfsFileMax) :
    checkedWriteFd sys fd data t = some (abiWriteFd sys fd data t) := by
  rw [checkedWriteFd, abiWriteFd, hx]
  dsimp only
  split_ifs with h₁ h₂ h₃ h₄
  · rfl
  · rfl
  · rfl
  · rw [writeOffset, if_pos h₄] at h
    exact checkedWriteFile_eq h
  · rw [writeOffset, if_neg h₄] at h
    exact checkedWriteFile_eq h

end Rymos
