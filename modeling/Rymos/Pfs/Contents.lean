import Mathlib.Tactic
import Rymos.Base.Slots
import Rymos.Pfs.Posix
import Rymos.Pfs.Unchanged
import Rymos.Shell.RamMap

/-!
# The disk as a map

* `FileView.node`, `pfsSlots`, `pfsMap`: the used entries as slots, and the map they stand for: the
  directories and the files with their bytes, by name.
* `OneEntry`: a change of one entry. **`pfsMap_put`**, **`pfsMap_clear`**, **`pfsMap_rekey`**: what
  it does to the map.
* `Emptied.oneEntry`, `Stored.oneEntry`: the changes the calls make.
-/

namespace Rymos

open ByteBuf Extents Blocks Files

/-- What one sees of an entry without its name. -/
def FileView.node (v : FileView) : Node := if v.isDir then .dir else .file v.content

/-- The used entries. -/
def pfsSlots (disk : Disk) : Slots pfsEntryCount (List UInt8) Node := fun i =>
  if pfsEntryUsed (diskHeader disk) i then
    some (pfsEntryName (diskHeader disk) i, (entryView disk i).node)
  else none

/-- The directories and files on the disk, by name. -/
def pfsMap (disk : Disk) : NameMap := (pfsSlots disk).get

section Map

variable {disk disk' : Disk} {i : ℕ} {name : List UInt8} {node : Node}

theorem pfsSlots_eq_some {i : Fin pfsEntryCount} : pfsSlots disk i = some (name, node) ↔
    pfsEntryUsed (diskHeader disk) i = true ∧ pfsEntryName (diskHeader disk) i = name ∧
      (entryView disk i).node = node := by
  unfold pfsSlots
  split_ifs with hu
  · simp [hu]
  · simp [hu]

theorem pfsSlots_eq_none {i : Fin pfsEntryCount} :
    pfsSlots disk i = none ↔ pfsEntryUsed (diskHeader disk) i = false := by
  unfold pfsSlots
  split_ifs with hu
  · simp [hu]
  · simp [hu]

theorem distinct_pfsSlots (hn : NamesInv (diskHeader disk)) : Slots.Distinct (pfsSlots disk) := by
  intro i j name v w hi hj
  obtain ⟨hui, hni, -⟩ := pfsSlots_eq_some.mp hi
  obtain ⟨huj, hnj, -⟩ := pfsSlots_eq_some.mp hj
  exact Fin.ext (hn.distinct i i.2 j j.2 hui huj (hni.trans hnj.symm))

/-- A used entry is found under its name. -/
theorem NamesInv.find (hn : NamesInv (diskHeader disk)) (hi : i < pfsEntryCount)
    (hu : pfsEntryUsed (diskHeader disk) i = true) :
    pfsFindEntry (diskHeader disk) (pfsEntryName (diskHeader disk) i) = some i :=
  pfsFindEntry_eq_some.mpr ⟨hi, hu, rfl, fun j hj huj hname => by
    have := hn.distinct j (by omega) i hi huj hu hname
    omega⟩

/-- **The map has what the search of the table finds.** -/
theorem pfsMap_eq (hn : NamesInv (diskHeader disk)) (name : List UInt8) :
    pfsMap disk name =
      (pfsFindEntry (diskHeader disk) name).map fun i => (entryView disk i).node := by
  cases hf : pfsFindEntry (diskHeader disk) name with
  | none =>
    rw [pfsFindEntry_eq_none] at hf
    refine Slots.get_eq_none.mpr fun i v hi => ?_
    obtain ⟨hu, hname, -⟩ := pfsSlots_eq_some.mp hi
    exact hf i i.2 hu hname
  | some i =>
    obtain ⟨hi, hu, hname, -⟩ := pfsFindEntry_eq_some.mp hf
    exact (Slots.get_eq_some (distinct_pfsSlots hn)).mpr
      ⟨⟨i, hi⟩, pfsSlots_eq_some.mpr ⟨hu, hname, rfl⟩⟩

theorem pfsMap_eq_none (hn : NamesInv (diskHeader disk)) :
    pfsMap disk name = none ↔ pfsFindEntry (diskHeader disk) name = none := by
  rw [pfsMap_eq hn, Option.map_eq_none_iff]

theorem pfsMap_eq_some (hn : NamesInv (diskHeader disk)) : pfsMap disk name = some node ↔
    ∃ i, pfsFindEntry (diskHeader disk) name = some i ∧ (entryView disk i).node = node := by
  rw [pfsMap_eq hn, Option.map_eq_some_iff]

theorem node_eq_dir : (entryView disk i).node = .dir ↔ pfsEntryIsDir (diskHeader disk) i = true := by
  unfold FileView.node entryView
  dsimp only
  split_ifs with hd <;> simp [hd]

theorem node_eq_file {content : List UInt8} : (entryView disk i).node = .file content ↔
    pfsEntryIsDir (diskHeader disk) i = false ∧
      (List.range (diskSize disk i)).map (fileByte disk i) = content := by
  unfold FileView.node entryView
  dsimp only
  split_ifs with hd <;> simp [hd]

/-- **What one can see on the disk is the map.** -/
theorem pfsMap_congr (hn : NamesInv (diskHeader disk)) (hn' : NamesInv (diskHeader disk'))
    (hv : fsView disk' = fsView disk) : pfsMap disk' = pfsMap disk := by
  have hiff : ∀ {d : Disk}, NamesInv (diskHeader d) → ∀ name node, pfsMap d name = some node ↔
      ∃ v ∈ fsView d, v.name = name ∧ v.node = node := by
    intro d hd name node
    rw [pfsMap, Slots.get_eq_some (distinct_pfsSlots hd)]
    constructor
    · rintro ⟨i, hi⟩
      obtain ⟨hu, hname, hnode⟩ := pfsSlots_eq_some.mp hi
      exact ⟨_, ⟨i, i.2, hu, rfl⟩, hname, hnode⟩
    · rintro ⟨_, ⟨i, hi, hu, rfl⟩, hname, hnode⟩
      exact ⟨⟨i, hi⟩, pfsSlots_eq_some.mpr ⟨hu, hname, hnode⟩⟩
  funext name
  refine Option.ext fun node => ?_
  rw [hiff hn', hiff hn, hv]

end Map

/-! ## One entry changes -/

/-- The other entries are as they were, and so is what they hold. -/
structure OneEntry (disk disk' : Disk) (i : ℕ) : Prop where
  lt : i < pfsEntryCount
  used : ∀ j < pfsEntryCount, j ≠ i →
    pfsEntryUsed (diskHeader disk') j = pfsEntryUsed (diskHeader disk) j
  view : ∀ j < pfsEntryCount, j ≠ i → pfsEntryUsed (diskHeader disk) j = true →
    entryView disk' j = entryView disk j

section OneEntry

variable {disk disk' disk'' : Disk} {i : ℕ} {name name' : List UInt8} {node : Node}

theorem OneEntry.trans (h : OneEntry disk disk' i) (h' : OneEntry disk' disk'' i) :
    OneEntry disk disk'' i where
  lt := h.lt
  used j hj hne := (h'.used j hj hne).trans (h.used j hj hne)
  view j hj hne hu :=
    (h'.view j hj hne ((h.used j hj hne).trans hu)).trans (h.view j hj hne hu)

/-- Only the slot of the entry changes. -/
theorem OneEntry.slots (h : OneEntry disk disk' i) :
    pfsSlots disk' = Function.update (pfsSlots disk) ⟨i, h.lt⟩ (pfsSlots disk' ⟨i, h.lt⟩) := by
  funext j
  by_cases hj : j = ⟨i, h.lt⟩
  · rw [hj, Function.update_self]
  have hne : (j : ℕ) ≠ i := fun he => hj (Fin.ext he)
  rw [Function.update_of_ne hj, pfsSlots, pfsSlots, h.used j j.2 hne]
  split_ifs with hu
  · have hv := h.view j j.2 hne hu
    rw [hv, show pfsEntryName (diskHeader disk') j = (entryView disk' j).name from rfl, hv]
    rfl
  · rfl

/-- **A name gets an entry, or its entry something else to hold.** -/
theorem pfsMap_put (hn : NamesInv (diskHeader disk)) (h : OneEntry disk disk' i)
    (hk : pfsFindEntry (diskHeader disk) name = some i ∨
      pfsFindEntry (diskHeader disk) name = none ∧ pfsEntryUsed (diskHeader disk) i = false)
    (hu : pfsEntryUsed (diskHeader disk') i = true)
    (hname : pfsEntryName (diskHeader disk') i = name) :
    pfsMap disk' = Function.update (pfsMap disk) name (some (entryView disk' i).node) := by
  have hd := distinct_pfsSlots hn
  have hslot : pfsSlots disk' ⟨i, h.lt⟩ = some (name, (entryView disk' i).node) :=
    pfsSlots_eq_some.mpr ⟨hu, hname, rfl⟩
  rw [pfsMap, pfsMap, h.slots, hslot]
  refine hd.put (fun j v hj => ?_) ?_ _
  · obtain ⟨huj, hnj, -⟩ := pfsSlots_eq_some.mp hj
    rcases hk with hf | ⟨hf, -⟩
    · obtain ⟨-, hui, hni, -⟩ := pfsFindEntry_eq_some.mp hf
      exact Fin.ext (hn.distinct j j.2 i h.lt huj hui (hnj.trans hni.symm))
    · exact absurd hnj (pfsFindEntry_eq_none.mp hf j j.2 huj)
  · rcases hk with hf | ⟨-, hui⟩
    · obtain ⟨-, hui, hni, -⟩ := pfsFindEntry_eq_some.mp hf
      exact .inr ⟨_, pfsSlots_eq_some.mpr ⟨hui, hni, rfl⟩⟩
    · exact .inl (pfsSlots_eq_none.mpr hui)

/-- **An entry is given up.** -/
theorem pfsMap_clear (hn : NamesInv (diskHeader disk)) (h : OneEntry disk disk' i)
    (hf : pfsFindEntry (diskHeader disk) name = some i)
    (hu : pfsEntryUsed (diskHeader disk') i = false) :
    pfsMap disk' = Function.update (pfsMap disk) name none := by
  obtain ⟨hi, hui, hni, -⟩ := pfsFindEntry_eq_some.mp hf
  have hold : pfsSlots disk ⟨i, h.lt⟩ = some (name, (entryView disk i).node) :=
    pfsSlots_eq_some.mpr ⟨hui, hni, rfl⟩
  have hslot : pfsSlots disk' ⟨i, h.lt⟩ = none := pfsSlots_eq_none.mpr hu
  rw [pfsMap, pfsMap, h.slots, hslot]
  exact ((distinct_pfsSlots hn).clear hold).2

/-- **An entry gets another name**, and keeps what it holds. -/
theorem pfsMap_rekey (hn : NamesInv (diskHeader disk)) (h : OneEntry disk disk' i)
    (hf : pfsFindEntry (diskHeader disk) name = some i)
    (hf' : pfsFindEntry (diskHeader disk) name' = none)
    (hu : pfsEntryUsed (diskHeader disk') i = true)
    (hname : pfsEntryName (diskHeader disk') i = name')
    (hnode : (entryView disk' i).node = (entryView disk i).node) :
    pfsMap disk' =
      Function.update (Function.update (pfsMap disk) name none) name' (pfsMap disk name) := by
  obtain ⟨hi, hui, hni, -⟩ := pfsFindEntry_eq_some.mp hf
  have hold : pfsSlots disk ⟨i, h.lt⟩ = some (name, (entryView disk i).node) :=
    pfsSlots_eq_some.mpr ⟨hui, hni, rfl⟩
  have hslot : pfsSlots disk' ⟨i, h.lt⟩ = some (name', (entryView disk i).node) :=
    pfsSlots_eq_some.mpr ⟨hu, hname, hnode⟩
  have hfree : ∀ j v, pfsSlots disk j = some (name', v) → j = ⟨i, h.lt⟩ := fun j v hj => by
    obtain ⟨huj, hnj, -⟩ := pfsSlots_eq_some.mp hj
    exact absurd hnj (pfsFindEntry_eq_none.mp hf' j j.2 huj)
  rw [(pfsMap_eq_some hn).mpr ⟨i, hf, rfl⟩, pfsMap, pfsMap, h.slots, hslot]
  exact ((distinct_pfsSlots hn).rekey hold hfree).2

end OneEntry

/-! ## The changes of the calls -/

section Changes

variable {disk disk' : Disk} {i : ℕ} {name : List UInt8}

/-- An entry with the same bytes, and a file with the same data, is seen as before. -/
theorem SameBytes.entryView {j : ℕ} (h : SameBytes (diskHeader disk) (diskHeader disk') j)
    (hj : j < pfsEntryCount) (hu : pfsEntryUsed (diskHeader disk) j = true)
    (hn : NamesFit (diskHeader disk)) (ha : AllocInv (diskHeader disk))
    (hdata : pfsEntryIsFile (diskHeader disk) j = true → ∀ p, fileByte disk' j p = fileByte disk j p) :
    entryView disk' j = Rymos.entryView disk j := by
  refine entryView_congr (h.name (hn j hj hu)) h.isDir h.size fun p _ => ?_
  cases hd : pfsEntryIsDir (diskHeader disk) j with
  | false => exact hdata (pfsEntryIsFile_iff.mpr ⟨hu, hd⟩) p
  | true =>
    rw [fileByte, fileByte, h.extents, ha.dirs j hj hd]
    rfl

/-- **A header write that changes one entry** leaves the other files their bytes. -/
theorem OnlyEntry.oneEntry (h : OnlyEntry (diskHeader disk) (diskHeader disk') i)
    (hi : i < pfsEntryCount) (hn : NamesFit (diskHeader disk)) (ha : AllocInv (diskHeader disk))
    (hdata : ∀ j < pfsEntryCount, j ≠ i → pfsEntryIsFile (diskHeader disk) j = true →
      ∀ p, fileByte disk' j p = fileByte disk j p) : OneEntry disk disk' i where
  lt := hi
  used _ _ hne := (h.other hne).used
  view j hj hne hu := (h.other hne).entryView hj hu hn ha (hdata j hj hne)

/-- The sectors of the files hold what they held. -/
theorem OnlyEntry.oneEntry_of_data (h : OnlyEntry (diskHeader disk) (diskHeader disk') i)
    (hi : i < pfsEntryCount) (hn : NamesFit (diskHeader disk)) (ha : AllocInv (diskHeader disk))
    (hdata : ∀ x, pfsDataStart ≤ x → disk'.sectors x = disk.sectors x) : OneEntry disk disk' i := by
  refine h.oneEntry hi hn ha fun j hj hne hf p => ?_
  rw [fileByte, fileByte, (h.other hne).extents]
  exact byteAt_congr (fun x hx => hdata x (ha.inside hj hf hx).1) p

theorem Emptied.node (h : Emptied (diskHeader disk) (diskHeader disk') i name) :
    (entryView disk' i).node = .file [] := by
  refine node_eq_file.mpr ⟨(pfsEntryIsFile_iff.mp h.file).2, ?_⟩
  rw [diskSize, h.size]
  rfl

/-- **A file made, or emptied.** -/
theorem Emptied.pfsMap (h : Emptied (diskHeader disk) (diskHeader disk') i name)
    (hi : i < pfsEntryCount) (hn : NamesInv (diskHeader disk)) (ha : AllocInv (diskHeader disk))
    (hdata : ∀ x, pfsDataStart ≤ x → disk'.sectors x = disk.sectors x)
    (hk : pfsFindEntry (diskHeader disk) name = some i ∨
      pfsFindEntry (diskHeader disk) name = none ∧ pfsEntryUsed (diskHeader disk) i = false) :
    pfsMap disk' = Function.update (Rymos.pfsMap disk) name (some (.file [])) := by
  rw [pfsMap_put hn (h.only.oneEntry_of_data hi hn.fit ha hdata) hk
    (pfsEntryIsFile_iff.mp h.file).1 h.name_eq, h.node]

/-- **A write through a descriptor** changes the entry of its file. -/
theorem Stored.oneEntry {handle handle' : AppFd} {data : List UInt8} {t : ℕ → ℕ} {r : Reply ℕ}
    (h : Stored disk handle data t disk' handle' r) (ha : AllocInv (diskHeader disk))
    (hi : handle.pfsIndex < pfsEntryCount) (hn : NamesFit (diskHeader disk)) :
    OneEntry disk disk' handle.pfsIndex := by
  refine (h.entry ha hi).1.oneEntry hi hn ha fun j hj hne hf p => ?_
  cases h with
  | idle => rfl
  | part w => exact w.fileByte_other ha hi hj hne hf p
  | unsized w _ => exact w.fileByte_other ha hi hj hne hf p
  | within w _ => exact w.fileByte_other ha hi hj hne hf p
  | @grown _ d w _ =>
    have h' := w.allocInv ha hi
    have hf' : pfsEntryIsFile (diskHeader d) j = true := by
      rw [isFile_of_onlyEntry (w.onlyEntry ha hi) hne, hf]
    rw [fileByte_pfsStoreSize h' hi hj hf', w.fileByte_other ha hi hj hne hf p]

/-- **A good write through a descriptor** does to the file what it does to the array. -/
theorem Stored.pfsMap {handle handle' : AppFd} {data content : List UInt8} {t : ℕ → ℕ} {r : ℕ}
    (h : Stored disk handle data t disk' handle' (.done r)) (ha : AllocInv (diskHeader disk))
    (hi : handle.pfsIndex < pfsEntryCount) (hn : NamesInv (diskHeader disk))
    (hf : pfsFindEntry (diskHeader disk) name = some handle.pfsIndex)
    (hm : Rymos.pfsMap disk name = some (.file content))
    (hg : WriteGood (diskSize disk handle.pfsIndex) handle data) :
    pfsMap disk' = Function.update (Rymos.pfsMap disk) name
      (some (.file (write content (writeOffset handle) data))) := by
  obtain ⟨j, hfj, hnode⟩ := (pfsMap_eq_some hn).mp hm
  obtain rfl : handle.pfsIndex = j := Option.some.inj (hf.symm.trans hfj)
  obtain ⟨hdir, hcontent⟩ := node_eq_file.mp hnode
  obtain ⟨-, hu, hname, -⟩ := pfsFindEntry_eq_some.mp hf
  obtain ⟨-, hkind, hname'⟩ := h.entry ha hi
  have hkept := entry_of_kind hkind
  have hfile : pfsEntryIsFile (diskHeader disk') handle.pfsIndex = true := by
    rw [hkept.2]
    exact pfsEntryIsFile_iff.mpr ⟨hu, hdir⟩
  rw [pfsMap_put hn (h.oneEntry ha hi hn.fit) (.inl hf) (by rw [hkept.1, hu]) (hname'.trans hname)]
  have hafter := (h.content ha hi hn.fit hf (by rw [fileContent_of_find hf, hcontent]) hg).1
  rw [fileContent_of_find ((h.find ha hi hn.fit).2 name ▸ hf), Option.some.injEq] at hafter
  rw [node_eq_file.mpr ⟨(pfsEntryIsFile_iff.mp hfile).2, hafter⟩]

end Changes

end Rymos
