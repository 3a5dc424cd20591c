import Mathlib.Tactic
import Rymos.Base.Runs
import Rymos.Pfs.Calls

/-!
# What the file calls do to the header

* `EntryWrite`, `HeaderWrite`: the header writes of the kernel, renames apart. `EntryEffect`,
  `Effect`: a call leaves the header that some of them make.
* `AllocInv.write`, `TreeInv.write`, **`NamesInv.write`**: the header writes keep the invariants.
* `entryCall_abiOpen`, `entryCall_abiMkdir`, `entryCall_abiUnlink`, …, **`callEffect_abiWriteFd`**:
  the effect of each call. `abiRename_header`: a rename.
-/

namespace Rymos

open ByteBuf Extents Blocks Transition

/-- An entry made, emptied or removed by a call. -/
inductive EntryWrite (h : Header) : Header → Prop where
  | new {i created now : ℕ} {name : List UInt8} {kind mode : UInt8}
      (valid : validPfsPath name = true) (parent : pfsParentExists h name = true)
      (absent : pfsFindEntry h name = none) (free : pfsFreeEntry h = some i) (hk : kind ≠ 0) :
      EntryWrite h (pfsSetEntry h i name 0 kind [] created mode now)
  | truncate {i now : ℕ} {name : List UInt8} (valid : validPfsPath name = true)
      (lt : i < pfsEntryCount) (file : pfsEntryIsFile h i = true)
      (named : pfsEntryName h i = name) : EntryWrite h (truncateHeader h i name now)
  | unlink {name : List UInt8} {h' : Header} (ok : pfsUnlinkHeader h name = .ok h') :
      EntryWrite h h'

/-- A header written by a call other than `rename`. -/
inductive HeaderWrite (h : Header) : Header → Prop where
  | entry {h' : Header} (write : EntryWrite h h') : HeaderWrite h h'
  | room {i size now : ℕ} {h' : Header} (lt : i < pfsEntryCount) (room : Room h h' i size now) :
      HeaderWrite h h'
  | store {i size now : ℕ} (lt : i < pfsEntryCount) (file : pfsEntryIsFile h i = true)
      (fits : size ≤ 512 * total (pfsEntryExtents h i)) (le : size ≤ pfsFileMax) :
      HeaderWrite h (pfsStoreSize h i size now)

/-- The call changes sectors only, and the header by header writes. -/
structure Effect (disk disk' : Disk) : Prop where
  only : OnlySectors disk disk'
  writes : Relation.ReflTransGen HeaderWrite (diskHeader disk) (diskHeader disk')

/-- The call changes header sectors only, by entries made, emptied or removed. -/
structure EntryEffect (disk disk' : Disk) : Prop where
  only : OnlySectors disk disk'
  data : ∀ x, pfsDataStart ≤ x → disk'.sectors x = disk.sectors x
  writes : Relation.ReflTransGen EntryWrite (diskHeader disk) (diskHeader disk')

theorem Effect.refl (disk : Disk) : Effect disk disk := ⟨.refl _, .refl⟩

theorem Effect.trans {d d' d'' : Disk} (h : Effect d d') (h' : Effect d' d'') : Effect d d'' :=
  ⟨h.only.trans h'.only, h.writes.trans h'.writes⟩

theorem EntryEffect.refl (disk : Disk) : EntryEffect disk disk := ⟨.refl _, fun _ _ => rfl, .refl⟩

theorem EntryEffect.trans {d d' d'' : Disk} (h : EntryEffect d d') (h' : EntryEffect d' d'') :
    EntryEffect d d'' :=
  ⟨h.only.trans h'.only, fun x hx => (h'.data x hx).trans (h.data x hx), h.writes.trans h'.writes⟩

theorem EntryEffect.effect {d d' : Disk} (h : EntryEffect d d') : Effect d d' :=
  ⟨h.only, h.writes.lift id fun _ _ => HeaderWrite.entry⟩

/-! ## The header writes keep the invariants -/

section Invariants

variable {h h' : Header}

theorem AllocInv.unlink (hi : AllocInv h) {name : List UInt8}
    (he : pfsUnlinkHeader h name = .ok h') : AllocInv h' := by
  simp only [pfsUnlinkHeader] at he
  cases hf : pfsFindEntry h name with
  | none => rw [hf] at he; cases he
  | some i =>
    rw [hf] at he
    dsimp only at he
    split_ifs at he
    cases he
    exact hi.clear (pfsFindEntry_eq_some.mp hf).1

theorem AllocInv.entryWrite (ha : AllocInv h) (hw : EntryWrite h h') : AllocInv h' := by
  cases hw with
  | new hv _ _ hf _ => exact ha.setEmpty (pfsFreeEntry_spec hf).1 (length_of_validPfsPath hv).2
  | truncate hv hi _ _ => exact ha.setEmpty hi (length_of_validPfsPath hv).2
  | unlink he => exact ha.unlink he

theorem AllocInv.write (ha : AllocInv h) (hw : HeaderWrite h h') : AllocInv h' := by
  cases hw with
  | entry hw => exact ha.entryWrite hw
  | room hi hr => exact hr.allocInv ha hi
  | store hi hf hs hm => exact ha.storeSize hi (pfsEntryIsFile_iff.mp hf).1 hs hm

theorem AllocInv.renameHeader (ha : AllocInv h) {oldName newName : List UInt8} {now : ℕ}
    (he : pfsRenameHeader h oldName newName now = .ok h') : AllocInv h' := by
  obtain ⟨hv, -, -, i, hf, -, rfl⟩ := pfsRenameHeader_eq_ok he
  obtain ⟨hi, hu, -⟩ := pfsFindEntry_eq_some.mp hf
  exact ha.rename hi (length_of_validPfsPath hv).2 hu

theorem TreeInv.room (ht : TreeInv h) {i size now : ℕ} (hi : i < pfsEntryCount)
    (hr : Room h h' i size now) : TreeInv h' :=
  ht.keep hr.onlyEntry hi (hr.used hi) (hr.name_eq hi) (hr.isDir hi)

theorem TreeInv.storeSize (ht : TreeInv h) {i size now : ℕ} (hi : i < pfsEntryCount) :
    TreeInv (pfsStoreSize h i size now) := by
  have he := pfsEntry_pfsStoreSize h hi size now
  simp only [pfsEntry, PfsEntry.mk.injEq] at he
  obtain ⟨hk, hn, -⟩ := he
  rw [pfsEntryKind, pfsEntryKind] at hk
  refine ht.keep (onlyEntry_pfsStoreSize h size now) hi ?_ hn ?_
  · rw [pfsEntryUsed, pfsEntryUsed, hk]
  · rw [pfsEntryIsDir, pfsEntryIsDir, hk]

theorem TreeInv.entryWrite (ht : TreeInv h) (hw : EntryWrite h h') : TreeInv h' := by
  cases hw with
  | new hv hp hf hi hk => exact ht.newEntry hv hp hf hi hk
  | truncate _ hi hf hn =>
    exact ht.truncate hi (pfsEntryIsFile_iff.mp hf).1 hn (pfsEntryIsFile_iff.mp hf).2
  | unlink he => exact ht.unlink he

theorem TreeInv.write (ht : TreeInv h) (hw : HeaderWrite h h') : TreeInv h' := by
  cases hw with
  | entry hw => exact ht.entryWrite hw
  | room hi hr => exact ht.room hi hr
  | store hi _ _ _ => exact ht.storeSize hi

/-- A header write changes one entry; its name is the one it had, or valid and new. -/
structure NameWrite (h h' : Header) (i : ℕ) : Prop where
  lt : i < pfsEntryCount
  only : OnlyEntry h h' i
  name : pfsEntryUsed h' i = true →
    pfsEntryUsed h i = true ∧ pfsEntryName h' i = pfsEntryName h i ∨
    validPfsPath (pfsEntryName h' i) = true ∧ pfsFindEntry h (pfsEntryName h' i) = none

theorem HeaderWrite.nameWrite (hw : HeaderWrite h h') : ∃ i, NameWrite h h' i := by
  cases hw with
  | entry hw =>
    cases hw with
    | @new i _ _ name _ _ hv _ habs hf _ =>
      have hlen := (length_of_validPfsPath hv).2
      have hi := (pfsFreeEntry_spec hf).1
      refine ⟨i, hi, onlyEntry_pfsSetEntry h hlen, fun _ => Or.inr ?_⟩
      rw [pfsEntryName_pfsSetEntry h _ _ _ _ _ _ _ hi hlen]
      exact ⟨hv, habs⟩
    | @truncate i _ name hv hi hf hn =>
      have hlen := (length_of_validPfsPath hv).2
      refine ⟨i, hi, onlyEntry_pfsSetEntry h hlen, fun _ => Or.inl ?_⟩
      rw [truncateHeader, pfsEntryName_pfsSetEntry h _ _ _ _ _ _ _ hi hlen]
      exact ⟨(pfsEntryIsFile_iff.mp hf).1, hn.symm⟩
    | @unlink name _ he =>
      simp only [pfsUnlinkHeader] at he
      cases hf : pfsFindEntry h name with
      | none => rw [hf] at he; cases he
      | some i =>
        rw [hf] at he
        dsimp only at he
        split_ifs at he
        cases he
        refine ⟨i, (pfsFindEntry_eq_some.mp hf).1, onlyEntry_pfsClearEntry h, fun hu => ?_⟩
        rw [pfsEntryUsed_pfsClearEntry h] at hu
        cases hu
  | @room i _ _ _ hi hr =>
    exact ⟨i, hi, hr.onlyEntry, fun hu => Or.inl ⟨hr.used hi ▸ hu, hr.name_eq hi⟩⟩
  | @store i size now hi hf _ _ =>
    exact ⟨i, hi, onlyEntry_pfsStoreSize h size now, fun _ => Or.inl ⟨(pfsEntryIsFile_iff.mp hf).1,
      congrArg PfsEntry.name (pfsEntry_pfsStoreSize h hi size now)⟩⟩

theorem nameWrite_rename {oldName newName : List UInt8} {now : ℕ}
    (he : pfsRenameHeader h oldName newName now = .ok h') : ∃ i, NameWrite h h' i := by
  obtain ⟨hv, habs, -, i, hf, -, rfl⟩ := pfsRenameHeader_eq_ok he
  have hlen := (length_of_validPfsPath hv).2
  have hi := (pfsFindEntry_eq_some.mp hf).1
  refine ⟨i, hi, onlyEntry_pfsSetEntry h hlen, fun _ => Or.inr ?_⟩
  rw [pfsEntryName_pfsSetEntry h _ _ _ _ _ _ _ hi hlen]
  exact ⟨hv, habs⟩

/-- The header is readable, and the names of the used entries fit their fields and are distinct. -/
structure NamesInv (h : Header) : Prop where
  magic : h.slice 0 8 = pfsMagic
  fit : NamesFit h
  distinct : ∀ i < pfsEntryCount, ∀ j < pfsEntryCount, pfsEntryUsed h i = true →
    pfsEntryUsed h j = true → pfsEntryName h i = pfsEntryName h j → i = j

theorem namesInv_emptyHeader : NamesInv emptyHeader :=
  ⟨magic_emptyHeader, treeInv_emptyHeader.namesFit, fun i _ _ _ hu => by
    rw [pfsEntryUsed_emptyHeader] at hu
    cases hu⟩

theorem NamesInv.write (hn : NamesInv h) {i : ℕ} (hw : NameWrite h h' i) : NamesInv h' := by
  obtain ⟨hi, ho, hname⟩ := hw
  have hother : ∀ j < pfsEntryCount, j ≠ i → pfsEntryUsed h' j = true →
      pfsEntryUsed h j = true ∧ pfsEntryName h' j = pfsEntryName h j := fun j hj hji hu => by
    rw [(ho.other hji).used] at hu
    exact ⟨hu, (ho.other hji).name (hn.fit j hj hu)⟩
  -- no other entry has the name of entry `i`
  have hfresh : ∀ j < pfsEntryCount, j ≠ i → pfsEntryUsed h' i = true → pfsEntryUsed h' j = true →
      pfsEntryName h' j ≠ pfsEntryName h' i := fun j hj hji hui huj he => by
    obtain ⟨hu, hjn⟩ := hother j hj hji huj
    rcases hname hui with ⟨hu', hin⟩ | ⟨-, habs⟩
    · exact hji (hn.distinct j hj i hi hu hu' (by rw [← hjn, ← hin, he]))
    · exact pfsFindEntry_eq_none.mp habs j hj hu (hjn ▸ he)
  refine ⟨ho.slice_magic.trans hn.magic, hn.fit.onlyEntry ho fun hu => ?_,
    fun j hj k hk huj huk he => ?_⟩
  · rcases hname hu with ⟨hu', hin⟩ | ⟨hv, -⟩
    · rw [hin, length_pfsEntryName]
      exact hn.fit i hi hu'
    · exact (length_of_validPfsPath hv).2
  · by_cases hji : j = i <;> by_cases hki : k = i
    · rw [hji, hki]
    · subst hji
      exact absurd he.symm (hfresh k hk hki huj huk)
    · subst hki
      exact absurd he (hfresh j hj hji huk huj)
    · obtain ⟨hu, hjn⟩ := hother j hj hji huj
      obtain ⟨hu', hkn⟩ := hother k hk hki huk
      exact hn.distinct j hj k hk hu hu' (by rw [← hjn, ← hkn, he])

theorem NamesInv.effect {disk disk' : Disk} (hn : NamesInv (diskHeader disk))
    (he : Effect disk disk') : NamesInv (diskHeader disk') := by
  obtain ⟨-, hw⟩ := he
  generalize diskHeader disk' = h' at hw ⊢
  induction hw with
  | refl => exact hn
  | tail _ hw ih =>
    obtain ⟨i, hw⟩ := hw.nameWrite
    exact ih.write hw

/-- The names of the used entries are valid. -/
def ValidNames (h : Header) : Prop :=
  ∀ j < pfsEntryCount, pfsEntryUsed h j = true → validPfsPath (pfsEntryName h j) = true

theorem ValidNames.write (hv : ValidNames h) (hn : NamesInv h) {i : ℕ} (hw : NameWrite h h' i) :
    ValidNames h' := by
  intro j hj hu
  by_cases hji : j = i
  · subst hji
    rcases hw.name hu with ⟨hu', hin⟩ | ⟨hvalid, -⟩
    · rw [hin]
      exact hv j hj hu'
    · exact hvalid
  · rw [(hw.only.other hji).used] at hu
    rw [(hw.only.other hji).name (hn.fit j hj hu)]
    exact hv j hj hu

theorem ValidNames.effect {disk disk' : Disk} (hv : ValidNames (diskHeader disk))
    (hn : NamesInv (diskHeader disk)) (he : Effect disk disk') : ValidNames (diskHeader disk') := by
  obtain ⟨-, hw⟩ := he
  generalize diskHeader disk' = h' at hw ⊢
  have hboth : NamesInv h' ∧ ValidNames h' := by
    induction hw with
    | refl => exact ⟨hn, hv⟩
    | tail _ hw ih =>
      obtain ⟨i, hw⟩ := hw.nameWrite
      exact ⟨ih.1.write hw, ih.2.write ih.1 hw⟩
  exact hboth.2

theorem AllocInv.effect {disk disk' : Disk} (ha : AllocInv (diskHeader disk))
    (he : Effect disk disk') : AllocInv (diskHeader disk') := by
  obtain ⟨-, hw⟩ := he
  generalize diskHeader disk' = h' at hw ⊢
  induction hw with
  | refl => exact ha
  | tail _ hw ih => exact ih.write hw

theorem TreeInv.effect {disk disk' : Disk} (ht : TreeInv (diskHeader disk))
    (he : Effect disk disk') : TreeInv (diskHeader disk') := by
  obtain ⟨-, hw⟩ := he
  generalize diskHeader disk' = h' at hw ⊢
  induction hw with
  | refl => exact ht
  | tail _ hw ih => exact ih.write hw

end Invariants

/-! ## Effects of the calls -/

section Calls

variable {disk disk' : Disk} {sys sys' : Sys} {t : ℕ → ℕ}

theorem effect_withHeader {h' : Header} (hw : HeaderWrite (diskHeader disk) h') :
    Effect disk (withHeader disk h') := by
  refine ⟨rfl, .single ?_⟩
  rwa [diskHeader_withHeader]

theorem entryEffect_withHeader {h' : Header} (hw : EntryWrite (diskHeader disk) h') :
    EntryEffect disk (withHeader disk h') := by
  refine ⟨rfl, fun x hx => sectors_withHeader hx, .single ?_⟩
  rwa [diskHeader_withHeader]

theorem effect_pfsUpdateSize {index size now : ℕ} {ok : Bool} (hw : HeaderWritable disk)
    (hi : index < pfsEntryCount) (hf : pfsEntryIsFile (diskHeader disk) index = true)
    (hs : size ≤ 512 * total (pfsEntryExtents (diskHeader disk) index)) (hm : size ≤ pfsFileMax)
    (he : pfsUpdateSize disk index size now = (ok, disk')) : Effect disk disk' := by
  rcases pfsUpdateSize_cases hw he with ⟨-, rfl⟩ | ⟨-, rfl⟩
  · exact .refl _
  · exact effect_withHeader (.store hi hf hs hm)

/-- A write that has made room leaves the header with that room. -/
theorem WroteVia.effect {mid : Disk} {index offset now m : ℕ} {data : List UInt8}
    (w : WroteVia disk mid disk' index offset data now m) (h : AllocInv (diskHeader disk))
    (hi : index < pfsEntryCount) : Effect disk disk' := by
  refine ⟨w.only_mid.trans w.only, .single ?_⟩
  rw [w.header h hi]
  exact .room hi w.room

/-- The effect of a write through a descriptor, whatever became of it. -/
theorem Stored.effect {handle handle' : AppFd} {data : List UInt8} {r : Reply ℕ}
    (hs : Stored disk handle data t disk' handle' r) (h : AllocInv (diskHeader disk))
    (hi : handle.pfsIndex < pfsEntryCount) : Effect disk disk' := by
  cases hs with
  | idle => exact .refl _
  | part w => exact w.effect h hi
  | unsized w _ => exact w.effect h hi
  | within w _ => exact w.effect h hi
  | grown w _ =>
    obtain ⟨-, hmax, hf, hcap⟩ := w.end_le h hi
    exact (w.effect h hi).trans (effect_withHeader (.store hi hf hcap hmax))

/-- A write leaves its descriptor on the same entry. -/
theorem Stored.handle {handle handle' : AppFd} {data : List UInt8} {r : Reply ℕ}
    (hs : Stored disk handle data t disk' handle' r) :
    handle'.kind = handle.kind ∧ handle'.pfsIndex = handle.pfsIndex ∧
      handle'.flags = handle.flags ∧ handle'.isOpen = handle.isOpen := by
  cases hs <;> exact ⟨rfl, rfl, rfl, rfl⟩

/-- The descriptors on RYMFS files name entries of the table. -/
def FdsOk (sys : Sys) : Prop :=
  ∀ index, (sys.fds index).kind = .pfs → (sys.fds index).pfsIndex < pfsEntryCount

theorem FdsOk.setFd (h : FdsOk sys) {index : ℕ} {fd : AppFd}
    (hfd : fd.kind = .pfs → fd.pfsIndex < pfsEntryCount) : FdsOk (sys.setFd index fd) := by
  intro k hk
  simp only [Sys.setFd] at hk ⊢
  by_cases he : k = index
  · subst he
    rw [Function.update_self] at hk ⊢
    exact hfd hk
  · rw [Function.update_of_ne he] at hk ⊢
    exact h k hk

/-- What a file call does to the disk and to the descriptors. -/
structure CallEffect (sys sys' : Sys) : Prop where
  disk : Effect sys.disk sys'.disk
  fds : FdsOk sys → FdsOk sys'

/-- What a file call that stores no data does. -/
structure EntryCall (sys sys' : Sys) : Prop where
  disk : EntryEffect sys.disk sys'.disk
  fds : FdsOk sys → FdsOk sys'

theorem EntryCall.callEffect (h : EntryCall sys sys') : CallEffect sys sys' :=
  ⟨h.disk.effect, h.fds⟩

theorem CallEffect.refl (sys : Sys) : CallEffect sys sys := ⟨.refl _, id⟩

theorem CallEffect.trans {s s' s'' : Sys} (h : CallEffect s s') (h' : CallEffect s' s'') :
    CallEffect s s'' := ⟨h.disk.trans h'.disk, fun hf => h'.fds (h.fds hf)⟩

theorem EntryCall.refl (sys : Sys) : EntryCall sys sys := ⟨.refl _, id⟩

theorem EntryCall.trans {s s' s'' : Sys} (h : EntryCall s s') (h' : EntryCall s' s'') :
    EntryCall s s'' := ⟨h.disk.trans h'.disk, fun hf => h'.fds (h.fds hf)⟩

theorem callEffect_setDisk (h : Effect sys.disk disk) : CallEffect sys (sys.setDisk disk) :=
  ⟨h, id⟩

theorem entryCall_setDisk (h : EntryEffect sys.disk disk) : EntryCall sys (sys.setDisk disk) :=
  ⟨h, id⟩

theorem entryCall_setFd {index : ℕ} {fd : AppFd}
    (hfd : FdsOk sys → fd.kind = .pfs → fd.pfsIndex < pfsEntryCount) :
    EntryCall sys (sys.setFd index fd) := ⟨.refl _, fun h => h.setFd (hfd h)⟩

theorem entryCall_openPfsFd {header : Header} {index : ℕ} {flags : UInt32} {r : Reply ℤ}
    (hi : index < pfsEntryCount) (he : openPfsFd sys header index flags = (sys', r)) :
    EntryCall sys sys' := by
  rw [openPfsFd] at he
  dsimp only at he
  split at he <;> cases he
  · exact entryCall_setFd fun _ _ => hi
  · exact .refl _

theorem entryCall_openPfsTruncate {header : Header} {index : ℕ} {name : List UInt8}
    {flags : UInt32} {r : Reply ℤ} (hh : diskHeader sys.disk = header)
    (hw : HeaderWritable sys.disk) (hv : validPfsPath name = true) (hi : index < pfsEntryCount)
    (hf : pfsEntryIsFile header index = true) (hn : pfsEntryName header index = name)
    (he : openPfsTruncate sys header index name flags t = (sys', r)) : EntryCall sys sys' := by
  subst hh
  rw [openPfsTruncate] at he
  dsimp only at he
  split_ifs at he
  · rw [writeHeader_spec hw] at he
    exact (entryCall_setDisk (entryEffect_withHeader (.truncate hv hi hf hn))).trans
      (entryCall_openPfsFd hi he)
  · exact entryCall_openPfsFd hi he

theorem entryCall_abiOpenPfs {name : List UInt8} {flags : UInt32} {r : Reply ℤ}
    (hw : HeaderWritable sys.disk) (he : abiOpenPfs sys name flags t = (sys', r)) :
    EntryCall sys sys' := by
  rw [abiOpenPfs] at he
  by_cases hv : validPfsPath name = true
  swap
  · rw [if_pos (by simpa using hv)] at he
    cases he
    exact .refl _
  rw [if_neg (by simpa using hv)] at he
  split_ifs at he
  iterate 3 (cases he; exact .refl _)
  cases hh : readHeaderSilent sys.disk with
  | none =>
    rw [hh] at he
    cases he
    exact .refl _
  | some header =>
    obtain ⟨rfl, -⟩ := readHeaderSilent_eq_some hh
    rw [hh] at he
    dsimp only at he
    split_ifs at he with hp
    · cases he
      exact .refl _
    cases ho : openEntry (diskHeader sys.disk) name flags t with
    | error code =>
      rw [ho] at he
      cases he
      exact .refl _
    | ok p =>
      obtain ⟨i, o⟩ := p
      rw [ho] at he
      rcases openEntry_spec ho with ⟨rfl, hf, hd⟩ | ⟨-, hf, hfree, rfl⟩
      · obtain ⟨hi, hu, hn, -⟩ := pfsFindEntry_eq_some.mp hf
        exact entryCall_openPfsTruncate rfl hw hv hi (pfsEntryIsFile_iff.mpr ⟨hu, hd⟩) hn he
      · have hi := (pfsFreeEntry_spec hfree).1
        dsimp only at he
        rw [writeHeader_spec hw] at he
        dsimp only at he
        have hwrite : EntryWrite (diskHeader sys.disk) (pfsSetEntry (diskHeader sys.disk) i name 0
            pfsKindFile [] (t 0) pfsModeDefaultFile (t 1)) :=
          .new hv (by simpa using hp) hf hfree (by decide)
        have hnew : Emptied (diskHeader sys.disk) (pfsSetEntry (diskHeader sys.disk) i name 0
            pfsKindFile [] (t 0) pfsModeDefaultFile (t 1)) i name :=
          emptied_pfsSetEntry hi (length_of_validPfsPath hv).2
        generalize pfsSetEntry (diskHeader sys.disk) i name 0 pfsKindFile [] (t 0)
          pfsModeDefaultFile (t 1) = header at he hwrite hnew
        have hw' : HeaderWritable (sys.setDisk (withHeader sys.disk header)).disk := hw
        exact (entryCall_setDisk (entryEffect_withHeader hwrite)).trans
          (entryCall_openPfsTruncate diskHeader_withHeader hw' hv hi hnew.file hnew.name_eq he)

theorem entryCall_abiOpen {cwd path : List UInt8} {flags : UInt32} {r : Reply ℤ}
    (hw : HeaderWritable sys.disk) (he : abiOpen sys cwd path flags t = (sys', r)) :
    EntryCall sys sys' := by
  rw [abiOpen] at he
  cases hc : checkedAppSlice path with
  | none =>
    rw [hc] at he
    cases he
    exact .refl _
  | some p =>
    rw [hc] at he
    dsimp only at he
    cases hr : pfsResolvePath cwd p with
    | some name =>
      rw [hr] at he
      exact entryCall_abiOpenPfs hw he
    | none =>
      rw [hr] at he
      dsimp only at he
      split_ifs at he
      iterate 2 (cases he; exact .refl _)
      split at he
      · cases he
        exact .refl _
      · split at he <;> cases he
        · exact entryCall_setFd fun _ hk => AppFdKind.noConfusion hk
        · exact .refl _

/-- Pipes and BootFS files are outside the disk. -/
theorem entryCall_abiRead {fd : ℤ} {n : ℕ} {r : Reply (List UInt8)}
    (he : abiRead sys fd n = (sys', r)) : EntryCall sys sys' := by
  rw [abiRead] at he
  split at he
  · cases he
    exact .refl _
  · rename_i index _
    dsimp only at he
    split_ifs at he with _ _ hk
    · cases he
      exact .refl _
    · cases he
      exact .refl _
    · rw [readPipe] at he
      dsimp only at he
      split_ifs at he <;> cases he <;> exact ⟨.refl _, id⟩
    · cases he
      exact .refl _
    · split at he
      · cases he
        exact entryCall_setFd fun h hk => h index hk
      · split at he <;> cases he
        · exact .refl _
        · exact entryCall_setFd fun h hk => h index hk
      · cases he
        exact .refl _

/-- **Writing through a descriptor.** -/
theorem callEffect_abiWriteFd {fd : ℤ} {data : List UInt8} {r : Reply ℕ} (hok : FdsOk sys)
    (hw : HeaderWritable sys.disk) (h : AllocInv (diskHeader sys.disk))
    (he : abiWriteFd sys fd data t = some (sys', r)) : CallEffect sys sys' := by
  rcases abiWriteFd_spec hok hw h he with ⟨hd, hf, -⟩ | ⟨index, handle', -, hk, -, hs, hf⟩
  · refine ⟨hd ▸ .refl _, fun h k hk => ?_⟩
    rw [hf] at hk ⊢
    exact h k hk
  · refine ⟨hs.effect h (hok index hk), fun h => ?_⟩
    have hset : FdsOk (sys.setFd index handle') :=
      h.setFd fun _ => hs.handle.2.1 ▸ hok index hk
    intro k hk
    rw [hf] at hk ⊢
    exact hset k hk

theorem entryCall_abiSeek {fd : ℤ} {offset : UInt64} {r : Reply ℕ}
    (he : abiSeek sys fd offset = (sys', r)) : EntryCall sys sys' := by
  rw [abiSeek] at he
  split at he
  · cases he
    exact .refl _
  · rename_i index _
    dsimp only at he
    split_ifs at he <;> cases he
    · exact .refl _
    · exact .refl _
    · exact entryCall_setFd fun h hk => h index hk

@[simp] theorem closePipe_disk (sys : Sys) (handle : AppFd) :
    (closePipe sys handle).disk = sys.disk := by
  unfold closePipe
  split <;> rfl

theorem entryCall_abiClose {fd : ℤ} {r : Reply ℕ} (he : abiClose sys fd = (sys', r)) :
    EntryCall sys sys' := by
  rw [abiClose] at he
  split_ifs at he
  iterate 2 (cases he; exact .refl _)
  split at he
  · cases he
    exact .refl _
  · dsimp only at he
    split_ifs at he
    · cases he
      exact .refl _
    · cases he
      refine ⟨?_, fun h => ?_⟩
      · rw [setFd_disk, closePipe_disk]
        exact .refl _
      · refine FdsOk.setFd (fun k hk => ?_) fun hk => AppFdKind.noConfusion hk
        rw [closePipe_fds] at hk ⊢
        exact h k hk

theorem entryCall_replyHeader {h' : Header} {r : Reply ℕ} (hw : HeaderWritable sys.disk)
    (hh : EntryWrite (diskHeader sys.disk) h') (he : replyHeader sys h' = (sys', r)) :
    EntryCall sys sys' := by
  rw [replyHeader, writeHeader_spec hw] at he
  cases he
  exact entryCall_setDisk (entryEffect_withHeader hh)

theorem EntryWrite.mkdir {h h' : Header} {name : List UInt8} (hv : validPfsPath name = true)
    (he : mkdirHeader h name t = .ok h') : EntryWrite h h' := by
  simp only [mkdirHeader] at he
  split_ifs at he with hp hf
  cases hi : pfsFreeEntry h with
  | none => rw [hi] at he; cases he
  | some i =>
    rw [hi] at he
    cases he
    exact .new hv (by simpa using hp) (by simpa using hf) hi (by decide)

theorem validPfsPath_of_bind {cwd path name : List UInt8}
    (h : (checkedAppSlice path).bind (pfsResolvePath cwd) = some name) :
    validPfsPath name = true := by
  obtain ⟨p, -, hp⟩ := Option.bind_eq_some_iff.mp h
  exact validPfsPath_of_resolve hp

theorem entryCall_abiMkdir {cwd path : List UInt8} {r : Reply ℕ} (hw : HeaderWritable sys.disk)
    (he : abiMkdir sys cwd path t = (sys', r)) : EntryCall sys sys' := by
  rw [abiMkdir] at he
  split at he
  · cases he
    exact .refl _
  rename_i name hname
  cases hh : readHeaderSilent sys.disk with
  | none =>
    rw [hh] at he
    cases he
    exact .refl _
  | some header =>
    obtain ⟨rfl, -⟩ := readHeaderSilent_eq_some hh
    rw [hh] at he
    dsimp only at he
    split at he
    · cases he
      exact .refl _
    · rename_i h' hm
      exact entryCall_replyHeader hw (.mkdir (validPfsPath_of_bind hname) hm) he

theorem entryCall_abiUnlink {cwd path : List UInt8} {r : Reply ℕ} (hw : HeaderWritable sys.disk)
    (he : abiUnlink sys cwd path = (sys', r)) : EntryCall sys sys' := by
  rw [abiUnlink] at he
  split at he
  · cases he
    exact .refl _
  cases hh : readHeaderSilent sys.disk with
  | none =>
    rw [hh] at he
    cases he
    exact .refl _
  | some header =>
    obtain ⟨rfl, -⟩ := readHeaderSilent_eq_some hh
    rw [hh] at he
    dsimp only at he
    split at he
    · cases he
      exact .refl _
    · rename_i h' hm
      exact entryCall_replyHeader hw (.unlink hm) he

/-- A rename that changes the disk writes the header `pfs_rename_header` made. -/
theorem abiRename_header {cwd oldPath newPath : List UInt8} {r : Reply ℕ}
    (hw : HeaderWritable sys.disk) (he : abiRename sys cwd oldPath newPath t = (sys', r)) :
    sys' = sys ∨ ∃ oldName newName h',
      (checkedAppSlice oldPath).bind (pfsResolvePath cwd) = some oldName ∧
      (checkedAppSlice newPath).bind (pfsResolvePath cwd) = some newName ∧
      pfsRenameHeader (diskHeader sys.disk) oldName newName (t 0) = .ok h' ∧
      sys' = sys.setDisk (withHeader sys.disk h') := by
  rw [abiRename] at he
  split at he
  · rename_i oldName newName hold hnew
    cases hh : readHeaderSilent sys.disk with
    | none =>
      rw [hh] at he
      cases he
      exact Or.inl rfl
    | some header =>
      obtain ⟨rfl, -⟩ := readHeaderSilent_eq_some hh
      rw [hh] at he
      dsimp only at he
      split at he
      · cases he
        exact Or.inl rfl
      · rename_i h' hm
        rw [replyHeader, writeHeader_spec hw] at he
        cases he
        exact Or.inr ⟨oldName, newName, h', hold, hnew, hm, rfl⟩
  · cases he
    exact Or.inl rfl

end Calls

end Rymos
