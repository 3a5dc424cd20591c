import Mathlib.Tactic
import Rymos.Pfs.Checked
import Rymos.Pfs.Reach
import Rymos.Pfs.Space

/-!
# The size limit

The sum of the offset and the length of a write is compared with `PFS_FILE_MAX` after it has wrapped.

* `EndWraps`: the sum wraps to a size below the limit. `SlackHolds`, `Idle`: the write then finds
  nothing to change. **`pfsWriteAt_wraps`**: it never succeeds, and changes the disk unless it is idle.
* `LimitKept`: a write past the limit is refused and changes nothing, a write within it has no
  overflow. **`limitKept_iff`**: so it is unless the sum wraps; **`not_limitKept_create`**.
-/

namespace Rymos

open ByteBuf Extents Blocks Transition

/-! ## A write that wraps -/

/-- The end of a write of `len` bytes at `offset` is past the limit, but not once it has wrapped. -/
def EndWraps (offset len : ℕ) : Prop := pfsFileMax < offset + len ∧ usize (offset + len) ≤ pfsFileMax

instance (offset len : ℕ) : Decidable (EndWraps offset len) := by unfold EndWraps; infer_instance

theorem EndWraps.le {offset len : ℕ} (h : EndWraps offset len) : 2 ^ 64 ≤ offset + len := by
  by_contra hlt
  have := h.2
  rw [usize_of_lt (by omega)] at this
  exact absurd h.1 (not_lt.mpr this)

/-- From the old end of the file, or from the offset, the file holds the bytes of the write as far as
the drive accepts its sectors. -/
def SlackHolds (disk : Disk) (index offset : ℕ) (data : List UInt8) : Prop :=
  ∀ p, min (diskSize disk index) offset ≤ p →
    (∀ q, min (diskSize disk index) offset ≤ q → q ≤ p →
      Accepts disk (pfsEntryExtents (diskHeader disk) index) (min (diskSize disk index) offset)
        offset (q / 512)) →
      fileByte disk index p = writeVal offset data p

/-- A write that wraps finds nothing to change. -/
inductive Idle (disk : Disk) (index offset : ℕ) (data : List UInt8) : Prop where
  | unread (h : readHeaderSilent disk = none)
  | noFile (h : pfsEntryIsFile (diskHeader disk) index = false)
  /-- There is no room for the wrapped size. -/
  | full (h : ¬ FirstRunsSuffice (diskHeader disk) index (usize (offset + data.length)))
  /-- The file has the sectors, and the bytes are there. -/
  | slack
      (le : sectorsForLen (usize (offset + data.length)) ≤
        pfsEntryTotalSectors (diskHeader disk) index)
      (holds : SlackHolds disk index offset data)

section EndWraps

variable {disk disk' mid : Disk} {index offset now : ℕ} {data : List UInt8}

/-- Only making room panics. -/
theorem pfsWriteAt_isSome
    (hc : (pfsEnsureFileCapacity disk index (usize (offset + data.length)) now).isSome) :
    (pfsWriteAt disk index offset data now).isSome := by
  rw [pfsWriteAt]
  dsimp only
  generalize pfsEnsureFileCapacity disk index (usize (offset + data.length)) now = r at hc
  split_ifs
  · rfl
  · cases readHeaderSilent disk with
    | none => rfl
    | some old =>
      dsimp only
      by_cases hu : pfsEntryUsed old index = true
      swap
      · rw [if_neg hu]
        rfl
      rw [if_pos hu]
      dsimp only
      obtain ⟨⟨ok, mid⟩, rfl⟩ := Option.isSome_iff_exists.mp hc
      cases ok with
      | false => rfl
      | true =>
        dsimp only
        cases readHeaderSilent mid with
        | none => rfl
        | some header =>
          dsimp only
          split_ifs
          · generalize pfsZeroRange mid header index _ _ = r
            obtain ⟨ok, last⟩ := r
            cases ok <;> rfl
          · rfl

theorem pfsEnsureFileCapacity_enough {size : ℕ} (hh : readHeaderSilent disk = some (diskHeader disk))
    (hf : pfsEntryIsFile (diskHeader disk) index = true)
    (hle : sectorsForLen size ≤ pfsEntryTotalSectors (diskHeader disk) index) :
    pfsEnsureFileCapacity disk index size now = some (true, disk) := by
  obtain ⟨hu, hd⟩ := pfsEntryIsFile_iff.mp hf
  rw [pfsEnsureFileCapacity, hh]
  dsimp only
  rw [capacityHeader, hu, hd, if_neg (by simp)]
  dsimp only
  rw [if_pos hle]

/-- A file that grows has another header. -/
theorem diskHeader_ne_of_grown (h : AllocInv (diskHeader disk)) (hi : index < pfsEntryCount)
    {size : ℕ} (hroom : Room (diskHeader disk) (diskHeader mid) index size now)
    (hlt : pfsEntryTotalSectors (diskHeader disk) index < sectorsForLen size) :
    diskHeader mid ≠ diskHeader disk := by
  intro he
  have hle := hroom.total hi
  rw [he] at hle
  rw [pfsEntryTotalSectors_eq h hi hroom.file] at hlt
  omega

/-- The end of a write that wraps is not within the extents of the file. -/
theorem WroteVia.failed {m : ℕ} (w : WroteVia disk mid disk' index offset data now m)
    (h : AllocInv (diskHeader disk)) (hi : index < pfsEntryCount)
    (hwrap : EndWraps offset data.length) : m ≠ offset + data.length := by
  rintro rfl
  have hle := hwrap.le
  have hcap := w.cap
  have hlt := total_lt (w.room.allocInv h hi) hi (w.room.file' hi)
  omega

/-- There is no room in an entry that is no file. -/
theorem pfsEnsureFileCapacity_noFile {size : ℕ} (hh : readHeaderSilent disk = some (diskHeader disk))
    (hf : pfsEntryIsFile (diskHeader disk) index = false) :
    pfsEnsureFileCapacity disk index size now = some (false, disk) := by
  have hno : (!pfsEntryUsed (diskHeader disk) index || pfsEntryIsDir (diskHeader disk) index) =
      true := by
    rw [pfsEntryIsFile] at hf
    revert hf
    cases pfsEntryUsed (diskHeader disk) index <;> cases pfsEntryIsDir (diskHeader disk) index <;> decide
  rw [pfsEnsureFileCapacity, hh]
  dsimp only
  rw [capacityHeader, if_pos hno]

/-- Without room nothing is written. -/
theorem pfsWriteAt_noRoom (hh : readHeaderSilent disk = some (diskHeader disk))
    (hc : pfsEnsureFileCapacity disk index (usize (offset + data.length)) now = some (false, disk)) :
    pfsWriteAt disk index offset data now = some (false, disk) := by
  rw [pfsWriteAt]
  dsimp only
  split_ifs
  · rfl
  rw [hh]
  dsimp only
  by_cases hu : pfsEntryUsed (diskHeader disk) index = true
  · rw [if_pos hu]
    dsimp only
    rw [hc]
  · rw [if_neg hu]

/-- A write that wraps and has room changes the disk unless the file has the sectors and the bytes. -/
theorem pfsWriteAt_wraps_room (hw : HeaderWritable disk) (h : AllocInv (diskHeader disk))
    (hi : index < pfsEntryCount) (hh : readHeaderSilent disk = some (diskHeader disk))
    (hwrap : EndWraps offset data.length)
    (hc : pfsEnsureFileCapacity disk index (usize (offset + data.length)) now = some (true, mid)) :
    ∃ disk', pfsWriteAt disk index offset data now = some (false, disk') ∧
      (disk' = disk ↔ sectorsForLen (usize (offset + data.length)) ≤
        pfsEntryTotalSectors (diskHeader disk) index ∧ SlackHolds disk index offset data) := by
  obtain ⟨⟨ok, disk'⟩, he⟩ := Option.isSome_iff_exists.mp
    (pfsWriteAt_isSome (Option.isSome_iff_exists.mpr ⟨_, hc⟩))
  obtain ⟨m, w, hok, hreach⟩ := pfsWriteAt_room hw h hi hh hwrap.2 hc he
  obtain rfl : ok = false := by
    by_contra hne
    exact w.failed h hi hwrap (hok (by simpa using hne))
  refine ⟨disk', he, ?_⟩
  by_cases hle : sectorsForLen (usize (offset + data.length)) ≤
    pfsEntryTotalSectors (diskHeader disk) index
  · -- the header stays: what the loops store decides
    obtain rfl : mid = disk := by
      rw [pfsEnsureFileCapacity_enough hh w.room.file hle] at hc
      exact (Prod.mk.inj (Option.some.inj hc)).2.symm
    obtain ⟨hbefore, hstop⟩ := hreach hh
    have hiff : disk' = mid ↔ disk'.sectors = mid.sectors :=
      ⟨fun he => he ▸ rfl, fun he => by rw [w.only, he]⟩
    rw [hiff, w.writes.eq_iff (by omega)]
    constructor
    · intro hold
      refine ⟨hle, fun p hp hacc => hold p hp ?_⟩
      by_contra hge
      exact (hstop rfl).2 (hacc m w.lo_le (not_lt.mp hge))
    · intro hslack p hp hpm
      exact hslack.2 p hp fun q hq hqp => hbefore q hq (by omega)
  · -- the file grows, so that the header changes
    refine iff_of_false (fun hsame => ?_) fun hslack => hle hslack.1
    refine diskHeader_ne_of_grown h hi w.room (not_le.mp hle) ?_
    rw [← w.header h hi, hsame]

/-- **A write that wraps never succeeds, and it changes the disk unless it is idle.** -/
theorem pfsWriteAt_wraps (now : ℕ) (hw : HeaderWritable disk) (h : AllocInv (diskHeader disk))
    (hn : NamesFit (diskHeader disk)) (hi : index < pfsEntryCount)
    (hwrap : EndWraps offset data.length) :
    ∃ disk', pfsWriteAt disk index offset data now = some (false, disk') ∧
      (disk' = disk ↔ Idle disk index offset data) := by
  cases hh : readHeaderSilent disk with
  | none =>
    refine ⟨disk, ?_, iff_of_true rfl (.unread hh)⟩
    rw [pfsWriteAt, hh]
    simp
  | some header =>
    obtain ⟨rfl, -⟩ := readHeaderSilent_eq_some hh
    by_cases hf : pfsEntryIsFile (diskHeader disk) index = true
    swap
    · have hf := Bool.not_eq_true _ ▸ hf
      exact ⟨disk, pfsWriteAt_noRoom hh (pfsEnsureFileCapacity_noFile hh hf),
        iff_of_true rfl (.noFile hf)⟩
    rcases @pfsEnsureFileCapacity_cases _ _ _ (usize (offset + data.length)) now hw hh h hn hi hf with
      ⟨hs, mid, hc⟩ | ⟨hs, hc⟩
    swap
    · exact ⟨disk, pfsWriteAt_noRoom hh hc, iff_of_true rfl (.full hs)⟩
    obtain ⟨disk', he, hiff⟩ := pfsWriteAt_wraps_room hw h hi hh hwrap hc
    refine ⟨disk', he, hiff.trans ⟨fun hslack => .slack hslack.1 hslack.2, fun hidle => ?_⟩⟩
    cases hidle with
    | unread h' => rw [hh] at h'; cases h'
    | noFile h' => rw [hf] at h'; cases h'
    | full h' => exact absurd hs h'
    | slack hle holds => exact ⟨hle, holds⟩

end EndWraps

/-! ## The limit -/

/-- A write through descriptor `index` past the size limit is refused and changes no sector and no
size; one within it has no overflow. -/
structure LimitKept (sys : Sys) (fd : ℤ) (index : ℕ) (data : List UInt8) (t : ℕ → ℕ) : Prop where
  past : pfsFileMax < writeOffset (sys.fds index) + data.length →
    ∃ sys', abiWriteFd sys fd data t = some (sys', .refused) ∧ sys'.disk = sys.disk ∧
      ∀ i, (sys'.fds i).len = (sys.fds i).len
  within : writeOffset (sys.fds index) + data.length ≤ pfsFileMax →
    checkedWriteFd sys fd data t = some (abiWriteFd sys fd data t) ∧
      checkedSectorsForLen (writeOffset (sys.fds index) + data.length) =
        some (sectorsForLen (writeOffset (sys.fds index) + data.length))

section Limit

variable {sys sys' : Sys} {fd : ℤ} {index : ℕ} {data : List UInt8} {t : ℕ → ℕ}

/-- The file branch of a write past the limit. -/
theorem writeFile_past (sys : Sys) (index : ℕ) (handle : AppFd) (data : List UInt8) (t : ℕ → ℕ)
    (hw : HeaderWritable sys.disk)
    (h : AllocInv (diskHeader sys.disk)) (hn : NamesFit (diskHeader sys.disk))
    (hi : handle.pfsIndex < pfsEntryCount)
    (hpast : pfsFileMax < handle.offset + data.length) :
    ∃ disk', writeFile sys index handle data t = some (sys.setDisk disk', .refused) ∧
      (disk' = sys.disk ↔ ¬ EndWraps handle.offset data.length ∨
        Idle sys.disk handle.pfsIndex handle.offset data) := by
  rw [writeFile]
  by_cases hmax : usize (handle.offset + data.length) > pfsFileMax
  · rw [if_pos hmax]
    exact ⟨sys.disk, rfl, iff_of_true rfl (Or.inl fun hwrap => absurd hwrap.2 (not_le.mpr hmax))⟩
  · have hwrap : EndWraps handle.offset data.length := ⟨hpast, not_lt.mp hmax⟩
    obtain ⟨disk', hwr, hiff⟩ := pfsWriteAt_wraps (t 0) hw h hn hi hwrap
    rw [if_neg hmax, hwr]
    refine ⟨disk', rfl, hiff.trans ?_⟩
    exact ⟨Or.inr, fun hor => hor.resolve_left (not_not.mpr hwrap)⟩

/-- **The limit is kept just if the sum does not wrap or the write finds nothing to change.** -/
theorem limitKept_iff_step (sys : Sys) (data : List UInt8) (t : ℕ → ℕ)
    (hw : HeaderWritable sys.disk) (h : AllocInv (diskHeader sys.disk))
    (hn : NamesFit (diskHeader sys.disk)) (hi : (sys.fds index).pfsIndex < pfsEntryCount)
    (hx : appFdIndex fd = some index) (hk : (sys.fds index).kind = .pfs)
    (ha : (sys.fds index).allows fdWrite = true) :
    LimitKept sys fd index data t ↔
      ¬ EndWraps (writeOffset (sys.fds index)) data.length ∨
        Idle sys.disk (sys.fds index).pfsIndex (writeOffset (sys.fds index)) data := by
  by_cases hpast : pfsFileMax < writeOffset (sys.fds index) + data.length
  swap
  · refine iff_of_true ⟨fun hc => absurd hc hpast, fun hle => ?_⟩ (Or.inl fun hc => hpast hc.1)
    exact ⟨checkedWriteFd_eq hx hle, checkedSectorsForLen_eq hle⟩
  have hcall := abiWriteFd_pfs hx hk ha data t
  obtain ⟨disk', hwr, hiff⟩ := writeFile_past
    (sys.setFd index { sys.fds index with offset := writeOffset (sys.fds index) }) index
    { sys.fds index with offset := writeOffset (sys.fds index) } data t hw h hn hi hpast
  rw [setFd_disk] at hiff
  rw [← hiff]
  constructor
  · intro hl
    obtain ⟨sys', he, hd, -⟩ := hl.past hpast
    rw [hcall, hwr] at he
    rw [← hd, ← (Prod.mk.inj (Option.some.inj he)).1]
    rfl
  · rintro rfl
    refine ⟨fun _ => ⟨_, hcall.trans hwr, rfl, fun i => ?_⟩, fun hle => absurd hpast (not_lt.mpr hle)⟩
    rw [setDisk_fds, setFd_fds]
    by_cases hii : i = index
    · rw [hii, Function.update_self]
    · rw [Function.update_of_ne hii]

end Limit

/-- The descriptor after a seek. -/
def seekFd (handle : AppFd) (offset : UInt64) : AppFd := { handle with offset := offset.toNat }

theorem abiSeek_pfs {sys : Sys} {fd : ℤ} {index : ℕ} (hx : appFdIndex fd = some index)
    (hk : (sys.fds index).kind = .pfs) (hopen : (sys.fds index).isOpen = true) (offset : UInt64) :
    abiSeek sys fd offset = (sys.setFd index (seekFd (sys.fds index) offset), .done offset.toNat) := by
  rw [abiSeek, hx]
  dsimp only
  rw [if_neg (by simp [hopen]), if_neg (by rw [hk]; exact fun hc => AppFdKind.noConfusion hc.1)]
  rfl

/-- **In every run the size limit is kept after a seek just if the sum of the offset and the length
does not wrap below it, or the write finds nothing to change.** -/
theorem limitKept_iff {sys : Sys} (h : Reach FsInit (fun _ _ => True) sysStep sys) {fd : ℤ}
    {index : ℕ} (hx : appFdIndex fd = some index) (hk : (sys.fds index).kind = .pfs)
    (ha : (sys.fds index).allows fdWrite = true) (offset : UInt64) (data : List UInt8)
    (t : ℕ → ℕ) :
    LimitKept (abiSeek sys fd offset).1 fd index data t ↔
      ¬ EndWraps (writeOffset (seekFd (sys.fds index) offset)) data.length ∨
        Idle sys.disk (sys.fds index).pfsIndex (writeOffset (seekFd (sys.fds index) offset))
          data := by
  have hopen : (sys.fds index).isOpen = true := by
    rw [AppFd.allows, Bool.and_eq_true] at ha
    exact ha.1
  have hinv := fsInv_of_reach h
  rw [abiSeek_pfs hx hk hopen]
  have hfd : (sys.setFd index (seekFd (sys.fds index) offset)).fds index =
      seekFd (sys.fds index) offset := by rw [setFd_fds, Function.update_self]
  have hstep := limitKept_iff_step (sys.setFd index (seekFd (sys.fds index) offset)) data t
    hinv.writable hinv.alloc (namesInv_of_reach h).fit
    (by rw [hfd]; exact hinv.fds index hk) hx (by rw [hfd]; exact hk) (by rw [hfd]; exact ha)
  rw [hfd] at hstep
  exact hstep

/-- A file `a` is created and opened for reading and writing. -/
def createRun : List FsAct := [.open [] (pfsPath [97]) 7 fun _ => 0]

/-- The descriptor of the file `a`. -/
def createdFd : AppFd :=
  { isOpen := true, kind := .pfs, flags := 7, data := [], len := 0, offset := 0, pfsIndex := 0 }

/-- A write behind a hole keeps the limit. -/
theorem limitKept_iff_hole :
    ∃ sys, exec sysStep blankSys createRun = some sys ∧
      LimitKept (abiSeek sys 3 1000).1 3 0 [4] fun _ => 0 := by
  have hrun : (exec sysStep blankSys createRun).map (fun sys => sys.fds 0) = some createdFd := by
    decide +kernel
  obtain ⟨sys, hs, hfd⟩ := Option.map_eq_some_iff.mp hrun
  have hreach := reach_of_exec (.start fsInit_blankSys) (allGood_true _ _) hs
  refine ⟨sys, hs, (limitKept_iff hreach (by decide) (by rw [hfd]; rfl) (by rw [hfd]; rfl) 1000 [4]
    fun _ => 0).mpr (Or.inl ?_)⟩
  rw [hfd]
  decide

/-- **Two bytes at the offset `2 ^ 64 - 1` of an empty file give it a sector**, although the sum is
far past the limit. -/
theorem not_limitKept_create : ¬ ∀ sys, Reach FsInit (fun _ _ => True) sysStep sys →
    ∀ fd index, appFdIndex fd = some index → (sys.fds index).kind = .pfs →
      (sys.fds index).allows fdWrite = true → ∀ offset data t,
        LimitKept (abiSeek sys fd offset).1 fd index data t := by
  intro hall
  have hrun : (exec sysStep blankSys createRun).map (fun sys =>
      (sys.fds 0, writeOffset ((abiSeek sys 3 (2 ^ 64 - 1)).1.fds 0),
        pfsEntryTotalSectors (diskHeader (abiSeek sys 3 (2 ^ 64 - 1)).1.disk) 0,
        (abiWriteFd (abiSeek sys 3 (2 ^ 64 - 1)).1 3 [1, 2] fun _ => 0).map fun r =>
          pfsEntryTotalSectors (diskHeader r.1.disk) 0)) =
      some (createdFd, 2 ^ 64 - 1, 0, some 1) := by decide +kernel
  obtain ⟨sys, hs, he⟩ := Option.map_eq_some_iff.mp hrun
  obtain ⟨hfd, he⟩ := Prod.mk.inj he
  obtain ⟨hoff, he⟩ := Prod.mk.inj he
  obtain ⟨hbefore, hafter⟩ := Prod.mk.inj he
  have hreach := reach_of_exec (.start fsInit_blankSys) (allGood_true _ _) hs
  have hlimit := hall sys hreach 3 0 (by decide) (by rw [hfd]; rfl) (by rw [hfd]; rfl) (2 ^ 64 - 1)
    [1, 2] fun _ => 0
  obtain ⟨sys', hw, hd, -⟩ := hlimit.past (by rw [hoff]; decide)
  rw [hw, Option.map_some, hd, hbefore] at hafter
  cases hafter

end Rymos
