import Mathlib.Tactic
import Rymos.Pfs.Posix
import Rymos.Upload.Made

/-!
# Opening and reading a file

* `readAll`, `OpensTo`: a file is opened by its path and read to its end.
* **`opensTo_of_find`**, **`OpensTo.resolves`**: the kernel reads the entry whose name the path is
  resolved to, and no other.
-/

namespace Rymos

open ByteBuf Extents

/-- What reads of these sizes return together, one after the other; `none` if one of them fails. -/
def readAll : List ℕ → Sys → ℤ → Option (List UInt8)
  | [], _, _ => some []
  | size :: sizes, sys, fd =>
    match abiRead sys fd size with
    | (sys, .done bytes) => (readAll sizes sys fd).map (bytes ++ ·)
    | _ => none

/-- Whoever opens the path for reading gets entry `i`, and reads `data` from it up to its end. -/
def OpensTo (disk : Disk) (path : List UInt8) (i : ℕ) (data : List UInt8) : Prop :=
  ∀ (sys : Sys) (cwd : List UInt8) (t : ℕ → ℕ) (index : ℕ), sys.disk = disk →
    freeFd sys = some index →
    ∃ sys', abiOpen sys cwd path fdRead t = (sys', .done (index + appFdBase)) ∧
      (sys'.fds index).pfsIndex = i ∧
      ∀ sizes : List ℕ, readAll sizes sys' (index + appFdBase) = some (data.take sizes.sum)

/-! ## Reading -/

section Read

/-- File `i` of the disk has these bytes. -/
structure HoldsFile (disk : Disk) (header : Header) (i : ℕ) (data : List UInt8) : Prop where
  reliable : Reliable disk
  header_eq : readHeaderSilent disk = some header
  alloc : AllocInv header
  lt : i < pfsEntryCount
  file : pfsEntryIsFile header i = true
  size : pfsEntrySize header i = data.length
  bytes : ∀ p < data.length, fileByte disk i p = data.getD p 0

/-- A descriptor for reading file `i`, at `offset`. -/
def fdAt (i len offset : ℕ) : AppFd :=
  { isOpen := true, kind := .pfs, flags := fdRead, data := [], len := len, offset := offset,
    pfsIndex := i }

variable {disk : Disk} {header : Header} {i index offset : ℕ} {data : List UInt8} {sys : Sys} {fd : ℤ}

/-- A part of the data. -/
theorem map_getD_range {n : ℕ} (h : offset + n ≤ data.length) :
    ((List.range n).map fun k => data.getD (offset + k) 0) = (data.drop offset).take n := by
  refine List.ext_getElem ?_ fun k hk hk' => ?_
  · rw [List.length_map, List.length_range, List.length_take, List.length_drop]
    omega
  · rw [List.length_map, List.length_range] at hk
    rw [List.getElem_map, List.getElem_range, List.getElem_take, List.getElem_drop,
      List.getD_eq_getElem?_getD, List.getElem?_eq_getElem (by omega), Option.getD_some]

theorem take_drop_nil {n : ℕ} (h : min n (data.length - offset) = 0) :
    (data.drop offset).take n = [] := by
  rw [List.take_eq_nil_iff, List.drop_eq_nil_iff]
  omega

theorem take_min_drop (data : List UInt8) (offset n : ℕ) :
    (data.drop offset).take (min n (data.length - offset)) = (data.drop offset).take n := by
  rw [← List.length_drop, List.take_eq_take_iff]
  omega

/-- **One read** returns the next bytes and moves the descriptor behind them. -/
theorem HoldsFile.abiRead (h : HoldsFile disk header i data) (hd : sys.disk = disk)
    (hx : appFdIndex fd = some index) (hfd : sys.fds index = fdAt i data.length offset)
    (hoff : offset ≤ data.length) (n : ℕ) :
    Rymos.abiRead sys fd n =
      (sys.setFd index (fdAt i data.length (offset + min n (data.length - offset))),
        .done ((data.drop offset).take n)) := by
  have hsize := h.alloc.size i h.lt h.file
  rw [h.size, pfsFileMax_eq] at hsize
  have hflag : hasFlag fdRead fdRead = true := by decide
  simp only [Rymos.abiRead, hx, hfd, fdAt, hflag, Bool.not_true, Bool.false_eq_true, if_false,
    reduceCtorEq]
  by_cases hc : min n (data.length - offset) = 0
  · have hsame : sys.setFd index (fdAt i data.length offset) = sys := by
      rw [Sys.setFd, ← hfd, Function.update_eq_self]
    rw [if_pos hc, hc, take_drop_nil hc, Nat.add_zero, ← fdAt, hsame]
  · have hread : pfsReadAt sys.disk i offset (min n (data.length - offset)) =
        some ((data.drop offset).take n) := by
      rw [hd, pfsReadAt_eq h.reliable h.header_eq h.alloc h.lt h.file
        (by rw [pfsFileMax_eq]; omega) (by omega), ← take_min_drop, ← map_getD_range (by omega)]
      exact congrArg some (List.map_congr_left fun k hk =>
        h.bytes _ (by have := List.mem_range.mp hk; omega))
    rw [if_neg hc, hread, usize_of_lt (by omega)]

/-- **Reads one after the other** return the data from the position of the descriptor on. -/
theorem HoldsFile.readAll (h : HoldsFile disk header i data) (hx : appFdIndex fd = some index)
    (hd : sys.disk = disk) (hfd : sys.fds index = fdAt i data.length offset)
    (hoff : offset ≤ data.length) (sizes : List ℕ) :
    Rymos.readAll sizes sys fd = some ((data.drop offset).take sizes.sum) := by
  induction sizes generalizing sys offset with
  | nil => rw [Rymos.readAll, List.sum_nil, List.take_zero]
  | cons n sizes ih =>
    rw [Rymos.readAll, h.abiRead hd hx hfd hoff n]
    dsimp only
    have hfd' : (sys.setFd index (fdAt i data.length (offset + min n (data.length - offset)))).fds index =
        fdAt i data.length (offset + min n (data.length - offset)) := by
      rw [setFd_fds, Function.update_self]
    rw [ih ((setFd_disk sys index _).trans hd) hfd' (by omega), Option.map_some, List.sum_cons, List.take_add, List.drop_drop]
    congr 2
    by_cases hn : n ≤ data.length - offset
    · rw [Nat.min_eq_left hn]
    · rw [List.drop_of_length_le (by omega), List.drop_of_length_le (by omega)]

end Read

/-! ## Opening -/

section Open

variable {disk : Disk} {header : Header} {i : ℕ} {data path name : List UInt8} {sys : Sys}

/-- What `abi_open_pfs` opens for reading. -/
theorem abiOpenPfs_read (hh : readHeaderSilent sys.disk = some header) (hinv : RymfsInv header)
    (hf : pfsFindEntry header name = some i) (hfile : pfsEntryIsFile header i = true)
    {index : ℕ} (hfree : freeFd sys = some index) (t : ℕ → ℕ) :
    abiOpenPfs sys name fdRead t =
      (sys.setFd index (fdAt i (pfsEntrySize header i) 0), .done (index + appFdBase)) := by
  obtain ⟨hlt, hu, hn, -⟩ := pfsFindEntry_eq_some.mp hf
  have hentry : pfsTable header ⟨i, hlt⟩ = some (name, pfsEntryIsDir header i) :=
    pfsTable_eq_some.mpr ⟨hu, hn, rfl⟩
  have hv : validPfsPath name = true := hinv.tree.valid hentry
  have hopen : openEntry header name fdRead t = .ok (i, none) := by
    rw [openEntry, hf]
    dsimp only
    rw [(pfsEntryIsFile_iff.mp hfile).2, if_neg Bool.false_ne_true, if_neg (by decide)]
  rw [abiOpenPfs, hv, Bool.not_true, if_neg Bool.false_ne_true, if_neg (by decide),
    if_neg (by decide), if_neg (by decide), hh]
  dsimp only
  rw [hinv.tree.parentExists hf, Bool.not_true, if_neg Bool.false_ne_true, hopen]
  dsimp only
  rw [openPfsTruncate, if_neg (by decide), openPfsFd, hfree]
  rfl

/-- An open for reading that succeeds has found its entry. -/
theorem abiOpenPfs_found (hh : readHeaderSilent sys.disk = some header) {t : ℕ → ℕ} {sys' : Sys} {r : ℤ}
    (ho : abiOpenPfs sys name fdRead t = (sys', .done r)) :
    ∃ j index, pfsFindEntry header name = some j ∧ pfsEntryIsFile header j = true ∧
      freeFd sys = some index ∧ (sys'.fds index).pfsIndex = j := by
  rw [abiOpenPfs, hh] at ho
  dsimp only at ho
  split_ifs at ho
  iterate 5 (cases ho)
  rw [openEntry] at ho
  cases hf : pfsFindEntry header name with
  | none =>
    rw [hf] at ho
    dsimp only at ho
    rw [if_neg (by decide)] at ho
    cases ho
  | some j =>
    rw [hf] at ho
    dsimp only at ho
    split_ifs at ho with hd
    iterate 2 (cases ho)
    dsimp only at ho
    have hfile : pfsEntryIsFile header j = true :=
      pfsEntryIsFile_iff.mpr ⟨(pfsFindEntry_eq_some.mp hf).2.1, Bool.not_eq_true _ ▸ hd⟩
    rw [openPfsTruncate, if_neg (by decide), openPfsFd] at ho
    cases hfree : freeFd sys with
    | none =>
      rw [hfree] at ho
      cases ho
    | some index =>
      rw [hfree] at ho
      cases ho
      refine ⟨j, index, rfl, hfile, rfl, ?_⟩
      rw [setFd_fds, Function.update_self]

/-- **A path that is resolved to the name of a file opens it.** -/
theorem opensTo_of_find (h : HoldsFile disk header i data) (hinv : RymfsInv header) (hf : pfsFindEntry header name = some i)
    (hres : ∀ cwd, (checkedAppSlice path).bind (pfsResolvePath cwd) = some name) :
    OpensTo disk path i data := by
  intro sys cwd t index hd hfree
  have hh : readHeaderSilent sys.disk = some header := hd ▸ h.header_eq
  have hx : appFdIndex (index + appFdBase) = some index :=
    appFdIndex_eq_some.mpr ⟨rfl, (freeFd_spec hfree).1⟩
  refine ⟨_, (abiOpen_resolved (hres cwd)).trans (abiOpenPfs_read hh hinv hf h.file hfree t), ?_, ?_⟩
  · rw [setFd_fds, Function.update_self, fdAt]
  · intro sizes
    have hfd : (sys.setFd index (fdAt i (pfsEntrySize header i) 0)).fds index =
        fdAt i data.length 0 := by
      rw [setFd_fds, Function.update_self, h.size]
    have hall := h.readAll hx ((setFd_disk sys index _).trans hd) hfd (Nat.zero_le _) sizes
    rwa [List.drop_zero] at hall

/-- A process without descriptors. -/
def freshSys (disk : Disk) : Sys where
  disk := disk
  fds := fun _ => .empty
  pipes := fun _ => .empty
  bootfs := fun _ => none

/-- **A path that opens an entry is resolved to the name the entry is found under**, a file. -/
theorem OpensTo.resolves (h : OpensTo disk path i data) (hh : readHeaderSilent disk = some header) :
    ∃ name, pfsResolvePath [] path = some name ∧ pfsFindEntry header name = some i ∧
      pfsEntryIsFile header i = true := by
  obtain ⟨sys', ho, hi, -⟩ := h (freshSys disk) [] (fun _ => 0) 0 rfl rfl
  rw [abiOpen] at ho
  cases hc : checkedAppSlice path with
  | none =>
    rw [hc] at ho
    cases ho
  | some path' =>
    obtain rfl := checkedAppSlice_eq hc
    rw [hc] at ho
    dsimp only at ho
    cases hr : pfsResolvePath [] path' with
    | none =>
      rw [hr] at ho
      dsimp only at ho
      split_ifs at ho <;> cases ho
    | some name =>
      rw [hr] at ho
      obtain ⟨j, index, hf, hfile, hfree, hj⟩ := abiOpenPfs_found hh ho
      have hzero : index = 0 := (Option.some.inj hfree).symm
      rw [hzero, hi] at hj
      subst hj
      exact ⟨name, rfl, hf, hfile⟩

/-- **Two reads of one file** have the same bytes. -/
theorem OpensTo.unique {data' : List UInt8} (h : OpensTo disk path i data)
    (h' : OpensTo disk path i data') : data = data' := by
  obtain ⟨sys', ho, -, hread⟩ := h (freshSys disk) [] (fun _ => 0) 0 rfl rfl
  obtain ⟨sys'', ho', -, hread'⟩ := h' (freshSys disk) [] (fun _ => 0) 0 rfl rfl
  obtain rfl : sys' = sys'' := congrArg Prod.fst (ho.symm.trans ho')
  have hall := (hread [data.length + data'.length]).symm.trans (hread' [data.length + data'.length])
  rw [List.sum_singleton, List.take_of_length_le (Nat.le_add_right _ _),
    List.take_of_length_le (Nat.le_add_left _ _)] at hall
  exact Option.some.inj hall

end Open

end Rymos
