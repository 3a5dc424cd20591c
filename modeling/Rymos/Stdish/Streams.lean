import Mathlib.Tactic
import Rymos.Stdish.Fs
import Rymos.Upload.Reads

/-!
# Reading and writing whole files

* `Serves`: the reads through a descriptor return the data from its offset on. `serves_pfs`,
  `serves_boot`: the descriptors an open returns do.
* **`readToEnd_serves`**: the loop returns the data.
* `RoomFor`: the disk has the sectors for so many bytes more. **`abiWriteFd_end`**: what
  is written through a descriptor behind the end of its file is stored if there is room, and else not.
-/

namespace Rymos

open ByteBuf Extents Files

/-! ## Descriptors of a program -/

section Calls

variable (process : ℕ) (c : Caller) (index : ℕ)

@[simp] theorem setSys_sys (sys : Sys) : (c.setSys sys).io.sys = sys := rfl

@[simp] theorem setSys_setSys (sys sys' : Sys) : (c.setSys sys).setSys sys' = c.setSys sys' := rfl

@[simp] theorem setSys_lastError (sys : Sys) : (c.setSys sys).lastError = c.lastError := rfl

@[simp] theorem setSys_cwd (sys : Sys) : (c.setSys sys).cwd = c.cwd := rfl

theorem setFd_setFd (sys : Sys) (fd fd' : AppFd) :
    (sys.setFd index fd).setFd index fd' = sys.setFd index fd' := by
  rw [Sys.setFd, Sys.setFd, Function.update_idem, Sys.setFd]

/-- The number of a descriptor is none of the standard ones. -/
theorem appResolveFd_file (stdFds : ℕ → ℤ) :
    appResolveFd stdFds (index + appFdBase) = index + appFdBase := by
  rw [appResolveFd, if_neg]
  rw [isStdFd, Bool.and_eq_true, decide_eq_true_eq, decide_eq_true_eq]
  simp only [stdinFd, stderrFd, appFdBase]
  omega

theorem fdRead_file (n : ℕ) : c.fdRead process (index + appFdBase) n =
    (c.setSys (abiRead c.io.sys (index + appFdBase) n).1,
      match (abiRead c.io.sys (index + appFdBase) n).2 with
      | .done bytes => some bytes
      | _ => none) := by
  have hneg : ¬ (index + appFdBase : ℤ) < 0 := by simp only [appFdBase]; omega
  have hstdin : ¬ (index + appFdBase : ℤ) = stdinFd := by simp only [appFdBase, stdinFd]; omega
  rw [Caller.fdRead, readFd, appResolveFd_file]
  rw [if_neg hneg, if_neg hstdin]
  rfl

theorem fileWrite_file (data : List UInt8) (t : ℕ → ℕ) :
    c.fileWrite process (index + appFdBase) data t =
      (abiWriteFd c.io.sys (index + appFdBase) data t).map fun r =>
        (c.setSys r.1, r.2.toOption) := by
  have hneg : ¬ (index + appFdBase : ℤ) < 0 := by simp only [appFdBase]; omega
  have hstd : ¬ ((index + appFdBase : ℤ) = stdoutFd ∨ (index + appFdBase : ℤ) = stderrFd) := by
    simp only [appFdBase, stdoutFd, stderrFd]; omega
  rw [Caller.fileWrite, writeFd, appResolveFd_file]
  rw [if_neg hneg, if_neg hstd, Option.map_map]
  rfl

/-- A descriptor of a file is given back. -/
theorem closeFd_file (hi : index < appFdCount) (ho : (c.io.sys.fds index).isOpen = true)
    (hr : (c.io.sys.fds index).kind = .pfs ∨ (c.io.sys.fds index).kind = .bootFs) :
    c.closeFd process (index + appFdBase) = c.setSys (c.io.sys.setFd index .empty) := by
  have hstd : isStdFd (index + appFdBase) = false := by
    rw [isStdFd, Bool.and_eq_false_iff, decide_eq_false_iff_not, decide_eq_false_iff_not]
    simp only [stdinFd, stderrFd, appFdBase]
    omega
  have hclose : abiClose c.io.sys (index + appFdBase) = (c.io.sys.setFd index .empty, .done 0) := by
    have hneg : ¬ (index + appFdBase : ℤ) < 0 := by simp only [appFdBase]; omega
    have hbase : ¬ (index + appFdBase : ℤ) < appFdBase := by simp only [appFdBase]; omega
    rw [abiClose, if_neg hneg, if_neg hbase, appFdIndex_eq_some.mpr ⟨rfl, hi⟩]
    dsimp only
    rw [ho, Bool.not_true, if_neg Bool.false_ne_true, closePipe]
    rcases hr with hk | hk <;> rw [hk]
  rw [Caller.closeFd, Rymos.closeFd, hstd, if_neg Bool.false_ne_true, hclose]
  rfl

end Calls

/-! ## Reading -/

/-- Through descriptor `index`, at every offset, reads return the data from there on; `handle` is the
descriptor at an offset. -/
structure Serves (sys : Sys) (index : ℕ) (data : List UInt8) (handle : ℕ → AppFd) : Prop where
  lt : index < appFdCount
  isOpen : ∀ offset, (handle offset).isOpen = true
  kind : ∀ offset, (handle offset).kind = .pfs ∨ (handle offset).kind = .bootFs
  len : ∀ offset, (handle offset).len = data.length
  read : ∀ offset ≤ data.length, ∀ n,
    abiRead (sys.setFd index (handle offset)) (index + appFdBase) n =
      (sys.setFd index (handle (offset + min n (data.length - offset))),
        .done ((data.drop offset).take n))

section Read

variable {sys : Sys} {index : ℕ} {data : List UInt8}

/-- A descriptor on a file of the boot archive. -/
def bootFd (data : List UInt8) (offset : ℕ) : AppFd :=
  { isOpen := true, kind := .bootFs, flags := fdRead, data := data, len := data.length,
    offset := offset, pfsIndex := 0 }

theorem serves_boot (sys : Sys) (hi : index < appFdCount) (hlen : data.length < 2 ^ 63) :
    Serves sys index data (bootFd data) where
  lt := hi
  isOpen _ := rfl
  kind _ := .inr rfl
  len _ := rfl
  read offset hoff n := by
    have hflag : hasFlag fdRead fdRead = true := by decide
    rw [abiRead, appFdIndex_eq_some.mpr ⟨rfl, hi⟩]
    simp only [setFd_fds, Function.update_self, bootFd, hflag, Bool.not_true, Bool.false_eq_true,
      if_false, reduceCtorEq]
    by_cases hc : min n (data.length - offset) = 0
    · rw [if_pos hc, hc, Nat.add_zero, take_drop_nil hc]
    · rw [if_neg hc, setFd_setFd, usize_of_lt (by omega), take_min_drop]

theorem serves_pfs {i : ℕ} (h : HoldsFile sys.disk (diskHeader sys.disk) i data)
    (hi : index < appFdCount) : Serves sys index data (fdAt i data.length) where
  lt := hi
  isOpen _ := rfl
  kind _ := .inl rfl
  len _ := rfl
  read offset hoff n := by
    have hfd : (sys.setFd index (fdAt i data.length offset)).fds index =
        fdAt i data.length offset := by
      rw [setFd_fds, Function.update_self]
    have hd : (sys.setFd index (fdAt i data.length offset)).disk = sys.disk := rfl
    rw [h.abiRead hd (appFdIndex_eq_some.mpr ⟨rfl, hi⟩) hfd hoff n, setFd_setFd]

/-- **The loop returns the data from the offset on.** -/
theorem readToEnd_serves {handle : ℕ → AppFd} (h : Serves sys index data handle) (process : ℕ)
    (c : Caller) {fuel offset : ℕ} (hoff : offset ≤ data.length) (hfuel : data.length < fuel + offset)
    (acc : List UInt8) :
    readToEnd process (index + appFdBase) fuel acc (c.setSys (sys.setFd index (handle offset))) =
      some (c.setSys (sys.setFd index (handle data.length)), .ok (acc ++ data.drop offset)) := by
  induction fuel generalizing offset acc with
  | zero => omega
  | succ fuel ih =>
    rw [readToEnd, fdRead_file, setSys_sys, h.read offset hoff 256]
    dsimp only
    rw [setSys_setSys]
    by_cases hend : offset = data.length
    · rw [hend, List.drop_length, List.take_nil, List.isEmpty_nil, if_pos rfl, Nat.sub_self, Nat.min_zero,
        Nat.add_zero, List.append_nil]
    · have hmore : ((data.drop offset).take 256).isEmpty = false := by
        rw [List.isEmpty_eq_false_iff, ← List.length_pos_iff, List.length_take, List.length_drop]
        omega
      have hrest : data.drop (offset + min 256 (data.length - offset)) =
          (data.drop offset).drop 256 := by
        rw [List.drop_drop]
        by_cases hn : 256 ≤ data.length - offset
        · rw [Nat.min_eq_left hn]
        · rw [List.drop_of_length_le (by omega), List.drop_of_length_le (by omega)]
      rw [hmore, if_neg Bool.false_ne_true, ih (by omega) (by omega), hrest, List.append_assoc,
        List.take_append_drop]

end Read

/-! ## Writing -/

/-- The disk has the sectors for `n` bytes behind the end of file `i`, within the size limit. -/
def RoomFor (disk : Disk) (i n : ℕ) : Prop :=
  diskSize disk i + n ≤ pfsFileMax ∧ FirstRunsSuffice (diskHeader disk) i (diskSize disk i + n)

section Write

variable {sys : Sys} {i index : ℕ} {name data : List UInt8} {flags : UInt32}

/-- What a file on the disk holds. -/
theorem DiskOk.content {disk : Disk} (h : DiskOk disk)
    (hf : pfsFindEntry (diskHeader disk) name = some i)
    (hfile : pfsEntryIsFile (diskHeader disk) i = true) :
    pfsMap disk name = some (.file (contentOf (pfsMap disk) name)) ∧
      (contentOf (pfsMap disk) name).length = diskSize disk i ∧
      HoldsFile disk (diskHeader disk) i (contentOf (pfsMap disk) name) := by
  have hm : pfsMap disk name = some (.file ((List.range (diskSize disk i)).map (fileByte disk i))) :=
    (pfsMap_eq_some h.names).mpr ⟨i, hf, node_eq_file.mpr ⟨(pfsEntryIsFile_iff.mp hfile).2, rfl⟩⟩
  have hc : contentOf (pfsMap disk) name = (List.range (diskSize disk i)).map (fileByte disk i) := by
    rw [contentOf, hm]
  rw [hc]
  refine ⟨hm, by simp, h.reliable, h.header, h.alloc, (pfsFindEntry_eq_some.mp hf).1, hfile,
    by simp [diskSize], fun p hp => ?_⟩
  rw [getD_map_range (by simpa using hp)]

/-- **A write behind the end** of a file just opened is stored if there is room, and else nothing
changes. -/
theorem abiWriteFd_end (h : DiskOk sys.disk) (hok : FdsOk sys) (hx : index < appFdCount)
    (hf : pfsFindEntry (diskHeader sys.disk) name = some i)
    (hfile : pfsEntryIsFile (diskHeader sys.disk) i = true)
    (hfd : sys.fds index = openedFd sys.disk flags i) (hw : hasFlag flags fdWrite = true)
    (hend : writeOffset (openedFd sys.disk flags i) = diskSize sys.disk i) (hne : data ≠ [])
    (hlen : data.length < 2 ^ 63) (t : ℕ → ℕ) :
    ∃ disk handle r, DiskOk disk ∧ handle.isOpen = true ∧ handle.kind = .pfs ∧
      abiWriteFd sys (index + appFdBase) data t = some ((sys.setDisk disk).setFd index handle, r) ∧
      (RoomFor sys.disk i data.length ∧ r = .done data.length ∧ pfsMap disk =
          Function.update (pfsMap sys.disk) name
            (some (.file (contentOf (pfsMap sys.disk) name ++ data))) ∨
        ¬ RoomFor sys.disk i data.length ∧ r = .refused ∧ pfsMap disk = pfsMap sys.disk) := by
  obtain ⟨hi, hu, -⟩ := pfsFindEntry_eq_some.mp hf
  have hindex : appFdIndex (index + appFdBase) = some index := appFdIndex_eq_some.mpr ⟨rfl, hx⟩
  have hkind : (sys.fds index).kind = .pfs := by rw [hfd, openedFd]
  have hallows : (sys.fds index).allows fdWrite = true := by
    rw [AppFd.allows, hfd, openedFd, hw]
    rfl
  have hsize : diskSize sys.disk i ≤ 268435456 := pfsFileMax_eq ▸ (h.alloc.size i hi hfile).2
  have hpos : 0 < data.length := List.length_pos_of_ne_nil hne
  have hcall := abiWriteFd_pfs hindex hkind hallows data t
  rw [hfd, hend] at hcall
  set handle : AppFd := { openedFd sys.disk flags i with offset := diskSize sys.disk i } with hhandle
  rw [writeFile] at hcall
  have husize : usize (handle.offset + data.length) = diskSize sys.disk i + data.length :=
    usize_of_lt (by rw [hhandle]; dsimp only; omega)
  rw [husize] at hcall
  by_cases hmax : diskSize sys.disk i + data.length > pfsFileMax
  · rw [if_pos hmax] at hcall
    exact ⟨sys.disk, handle, .refused, h, rfl, rfl, hcall,
      .inr ⟨fun hr => absurd hr.1 (not_le.mpr hmax), rfl, rfl⟩⟩
  rw [if_neg hmax, setFd_disk] at hcall
  have hplace : handle.pfsIndex = i := rfl
  have hoffset : handle.offset = diskSize sys.disk i := rfl
  rw [hplace, hoffset] at hcall
  rcases @pfsWriteAt_reliable _ _ _ _ (t 0) _ h.reliable h.header h.alloc h.names.fit hi hfile
    (not_lt.mp hmax) with ⟨hroom, mid, disk₁, -, hwrite, -, -⟩ | ⟨hroom, hwrite⟩
  · -- the data is stored, and then the size
    rcases pfsWriteAt_spec h.reliable.headerWritable h.alloc hi hwrite with
      ⟨he, -⟩ | ⟨mid', m, w, -⟩
    · cases he
    have h₁ : DiskOk disk₁ := h.effect (w.effect h.alloc hi)
    have hu₁ : pfsEntryUsed (diskHeader disk₁) i = true := by
      rw [w.header h.alloc hi, w.room.used hi, hu]
    obtain ⟨disk₂, hup⟩ : ∃ disk₂, pfsUpdateSize disk₁ i (diskSize sys.disk i + data.length) (t 1) =
        (true, disk₂) :=
      ⟨_, Prod.ext (pfsUpdateSize_reliable h₁.reliable h₁.names hu₁) rfl⟩
    have hgrow : diskSize sys.disk i + data.length > handle.len := by
      have : handle.len = diskSize sys.disk i := rfl
      omega
    rw [hwrite] at hcall
    dsimp only at hcall
    rw [if_pos hgrow] at hcall
    dsimp only [setFd_disk, setDisk_disk] at hcall
    rw [hup] at hcall
    dsimp only at hcall
    have hsys (fd : AppFd) : (((sys.setFd index handle).setDisk disk₁).setFd index fd).setDisk disk₂ =
        (sys.setDisk disk₂).setFd index fd := by
      simp only [Sys.setFd, Sys.setDisk, Function.update_idem]
    rw [hsys] at hcall
    rcases abiWriteFd_spec hok h.reliable.headerWritable h.alloc hcall with
      ⟨-, -, hr⟩ | ⟨index', handle', hx', -, -, hs, -⟩
    · cases hr index hindex hkind
    obtain rfl : index = index' := Option.some.inj (hindex.symm.trans hx')
    rw [hfd] at hs
    obtain ⟨hm, hcontent, -⟩ := h.content hf hfile
    have hopened : (openedFd sys.disk flags i).len = diskSize sys.disk i := rfl
    have hgood : WriteGood (diskSize sys.disk i) (openedFd sys.disk flags i) data :=
      ⟨fun _ => hopened, fun he => absurd he hne, fun _ _ => hend ▸ Nat.le_add_right _ _,
        fun _ hle => absurd hle (by rw [hend, hopened]; omega)⟩
    have hmap := hs.pfsMap h.alloc hi h.names hf hm hgood
    rw [hend, ← hcontent, write_end] at hmap
    exact ⟨disk₂, _, _, h.effect (hs.effect h.alloc hi), rfl, rfl, hcall,
      .inl ⟨⟨not_lt.mp hmax, hroom⟩, rfl, hmap⟩⟩
  · rw [hwrite] at hcall
    refine ⟨sys.disk, handle, .refused, h, rfl, rfl, hcall, .inr ⟨fun hr => hroom hr.2, rfl, rfl⟩⟩

end Write

end Rymos
