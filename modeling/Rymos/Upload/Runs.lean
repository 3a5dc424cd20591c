import Mathlib.Tactic
import Rymos.Pfs.Contents
import Rymos.Upload.Agree

/-!
# One upload after another

* `withDirs`, `uploaded`: a map with directories made, and with a file stored below them.
* **`main_pfsMap`**: that is what an upload does to the disk.
* `uploadAll`, **`uploadAll_iff`**: after a run of uploads the kernel reads, under every plain path,
  what the map says.
-/

namespace Rymos

open ByteBuf Blocks Extents PfsPut

/-- The names of `dirs` that are free become directories. -/
def withDirs (M : NameMap) (dirs : List (List UInt8)) : NameMap := fun name =>
  if name ∈ dirs ∧ M name = none then some .dir else M name

/-- A file stored, and the directories on the way to it made. -/
def uploaded (M : NameMap) (dest : List Char) (data : List UInt8) : NameMap :=
  Function.update (withDirs M ((parentDirs dest).map encode)) (encode dest) (some (.file data))

/-- The script run for one file after another. -/
def uploadAll (image : List UInt8) : List (List Char × List UInt8) → Except String (List UInt8)
  | [] => .ok image
  | (dest, data) :: rest => do
    let image ← main (some image) data dest false
    uploadAll image rest

/-! ## One upload -/

section One

variable {disk disk' : Disk} {header mid header' : Header} {i : ℕ} {data : List UInt8}

/-- **Parents made** are what the map has more. -/
theorem PfsPut.MadeParents.pfsMap {parents : List (List UInt8)} {names : Finset (List UInt8)}
    (h : MadeParents (diskHeader disk) mid parents names) (hn : NamesInv (diskHeader disk))
    (ha : AllocInv (diskHeader disk)) :
    pfsMap (withHeader disk mid) = withDirs (Rymos.pfsMap disk) parents := by
  have hn' : NamesInv (diskHeader (withHeader disk mid)) := by
    rw [diskHeader_withHeader]
    exact h.inv
  funext name
  rw [withDirs]
  split_ifs with hnew
  · obtain ⟨i, hf, hd⟩ := h.all name hnew.1
    rw [← @diskHeader_withHeader disk mid] at hf hd
    exact (pfsMap_eq_some hn').mpr ⟨i, hf, node_eq_dir.mpr hd⟩
  cases hf : pfsFindEntry (diskHeader disk) name with
  | none =>
    have hnone := (pfsMap_eq_none hn).mpr hf
    have hfresh : name ∉ names := fun hm => hnew ⟨h.only name hm, hnone⟩
    rw [hnone, pfsMap_eq_none hn', diskHeader_withHeader]
    exact (h.absent name).mpr ⟨hf, hfresh⟩
  | some i =>
    obtain ⟨hi, hu, rfl, -⟩ := pfsFindEntry_eq_some.mp hf
    have hkept : SameBytes (diskHeader disk) (diskHeader (withHeader disk mid)) i := by
      rw [diskHeader_withHeader]
      exact h.kept i hi hu
    have hview : entryView (withHeader disk mid) i = entryView disk i := by
      refine hkept.entryView hi hu hn.fit ha fun hfile p => ?_
      rw [fileByte, fileByte, hkept.extents]
      exact byteAt_congr (fun x hx => sectors_withHeader (ha.inside hi hfile hx).1) p
    have hfind := hn'.find hi (hkept.used.trans hu)
    rw [hkept.name (hn.fit i hi hu)] at hfind
    rw [(pfsMap_eq_some hn).mpr ⟨i, hf, rfl⟩, (pfsMap_eq_some hn').mpr ⟨i, hfind, rfl⟩, hview]

/-- What is seen of a file that is held. -/
theorem HoldsFile.node (h : HoldsFile disk header i data) : (entryView disk i).node = .file data := by
  obtain ⟨rfl, -⟩ := readHeaderSilent_eq_some h.header_eq
  refine node_eq_file.mpr ⟨(pfsEntryIsFile_iff.mp h.file).2, ?_⟩
  refine List.ext_getElem (by simp [diskSize, h.size]) fun p _ hp => ?_
  rw [List.getElem_map, List.getElem_range, h.bytes p hp, List.getD_eq_getElem?_getD,
    List.getElem?_eq_getElem hp, Option.getD_some]

/-- A file of the map is held, and found. -/
theorem holdsFile_of_pfsMap (hr : Reliable disk) (hn : NamesInv (diskHeader disk))
    (h : RymfsInv (diskHeader disk)) {name : List UInt8}
    (hm : pfsMap disk name = some (.file data)) :
    ∃ i, pfsFindEntry (diskHeader disk) name = some i ∧ HoldsFile disk (diskHeader disk) i data := by
  obtain ⟨i, hf, hnode⟩ := (pfsMap_eq_some hn).mp hm
  obtain ⟨hd, rfl⟩ := node_eq_file.mp hnode
  obtain ⟨hi, hu, -, -⟩ := pfsFindEntry_eq_some.mp hf
  refine ⟨i, hf, hr, readHeaderSilent_of_reliable hr hn.magic, h.alloc, hi,
    pfsEntryIsFile_iff.mpr ⟨hu, hd⟩, by simp [diskSize], fun p hp => ?_⟩
  rw [Files.getD_map_range (by simpa using hp)]

/-- **What the kernel reads is what the map has.** -/
theorem opensTo_iff (hr : Reliable disk) (hn : NamesInv (diskHeader disk))
    (h : RymfsInv (diskHeader disk)) {path name : List UInt8}
    (hres : ∀ cwd, (checkedAppSlice path).bind (pfsResolvePath cwd) = some name) :
    (∃ i, OpensTo disk path i data) ↔ pfsMap disk name = some (.file data) := by
  have hh := readHeaderSilent_of_reliable hr hn.magic
  constructor
  · rintro ⟨i, ho⟩
    obtain ⟨name', hr', hf, hfile⟩ := ho.resolves hh
    obtain ⟨path', hpath, hres'⟩ := Option.bind_eq_some_iff.mp (hres [])
    obtain rfl := checkedAppSlice_eq hpath
    obtain rfl : name = name' := Option.some.inj (hres'.symm.trans hr')
    have hm : pfsMap disk name = some (.file ((List.range (diskSize disk i)).map (fileByte disk i))) :=
      (pfsMap_eq_some hn).mpr ⟨i, hf, node_eq_file.mpr ⟨(pfsEntryIsFile_iff.mp hfile).2, rfl⟩⟩
    obtain ⟨j, hf', hholds⟩ := holdsFile_of_pfsMap hr hn h hm
    obtain rfl : i = j := Option.some.inj (hf.symm.trans hf')
    rw [hm, ho.unique (opensTo_of_find hholds h hf hres)]
  · intro hm
    obtain ⟨i, hf, hholds⟩ := holdsFile_of_pfsMap hr hn h hm
    exact ⟨i, opensTo_of_find hholds h hf hres⟩

section Put

variable {parents : List (List UInt8)} {name : List UInt8} {runs : List PfsExtent}

/-- **An upload** on the map. -/
theorem PutOn.pfsMap (hp : PutOn disk disk' parents name data mid header' i runs)
    (h : RymfsInv (diskHeader disk)) (hn : NamesInv (diskHeader disk)) (hr : Reliable disk') :
    pfsMap disk' =
      Function.update (withDirs (Rymos.pfsMap disk) parents) name (some (.file data)) := by
  obtain ⟨names, hmade⟩ := hp.made
  have hholds := hp.holdsFile hr
  have hheader : diskHeader (withHeader disk mid) = mid := diskHeader_withHeader
  have hone : OneEntry (withHeader disk mid) disk' i := by
    refine OnlyEntry.oneEntry (by rw [hheader, hp.header]; exact hp.put.onlyEntry) hp.put.lt
      (by rw [hheader]; exact hmade.inv.fit) (by rw [hheader]; exact hp.inv.alloc)
      fun j hj hne hf p => ?_
    rw [hheader, hmade.isFile hj] at hf
    have hext : pfsEntryExtents mid j = pfsEntryExtents (diskHeader disk) j :=
      (hmade.kept j hj (pfsEntryIsFile_iff.mp hf).1).extents
    rw [(hp.others h hj hne hf).2 p, fileByte, fileByte, hheader, hext]
    exact byteAt_congr (fun x hx => (sectors_withHeader (h.alloc.inside hj hf hx).1).symm) p
  have hplace : pfsFindEntry (diskHeader (withHeader disk mid)) name = some i ∨
      pfsFindEntry (diskHeader (withHeader disk mid)) name = none ∧
        pfsEntryUsed (diskHeader (withHeader disk mid)) i = false := by
    rw [hheader]
    exact hp.put.place.imp And.left fun hfree => ⟨hfree.1, (pfsFreeEntry_spec hfree.2).2⟩
  rw [← hmade.pfsMap hn h.alloc, pfsMap_put (by rw [hheader]; exact hmade.inv) hone hplace
    (by rw [hp.header]; exact hp.put.used hp.inv) (by rw [hp.header]; exact hp.put.name_eq hp.inv),
    hholds.node]

end Put

variable {image image' : List UInt8} {dest : List Char} {format : Bool}

/-- **What an upload does to the disk**: it stores one file, and makes the directories it lies in. -/
theorem main_pfsMap (h : RymfsInv (diskHeader (imageDisk image)))
    (hn : NamesInv (diskHeader (imageDisk image)))
    (hm : main (some image) data dest format = .ok image') :
    RymfsInv (diskHeader (imageDisk image')) ∧ NamesInv (diskHeader (imageDisk image')) ∧
      PathOk dest ∧ pfsMap (imageDisk image') = uploaded (pfsMap (imageDisk image)) dest data := by
  obtain ⟨hok, mid, header', i, extents, hp⟩ := main_putOn h hm
  obtain ⟨names, hmade⟩ := hp.made
  have hholds := hp.holdsFile (reliable_imageDisk image')
  have hinv : RymfsInv (diskHeader (imageDisk image')) := hp.header ▸ hp.put.inv hp.inv
  refine ⟨hinv, hinv.tree.namesInv ?_, hok, hp.pfsMap h hn (reliable_imageDisk image')⟩
  rw [hp.header, hp.put.onlyEntry.slice_magic, hmade.inv.magic]

end One

/-! ## A run of uploads -/

section Runs

variable {image image' : List UInt8} {ups : List (List Char × List UInt8)}

theorem uploadAll_pfsMap (h : RymfsInv (diskHeader (imageDisk image)))
    (hn : NamesInv (diskHeader (imageDisk image))) (hm : uploadAll image ups = .ok image') :
    RymfsInv (diskHeader (imageDisk image')) ∧ NamesInv (diskHeader (imageDisk image')) ∧
      pfsMap (imageDisk image') =
        ups.foldl (fun M up => uploaded M up.1 up.2) (pfsMap (imageDisk image)) := by
  induction ups generalizing image with
  | nil =>
    cases hm
    exact ⟨h, hn, rfl⟩
  | cons up ups ih =>
    obtain ⟨dest, data⟩ := up
    rw [uploadAll, bind_eq_ok] at hm
    obtain ⟨image₁, hone, hm⟩ := hm
    obtain ⟨h₁, hn₁, -, hmap⟩ := main_pfsMap h hn hone
    obtain ⟨h', hn', hrest⟩ := ih h₁ hn₁ hm
    exact ⟨h', hn', by rw [hrest, hmap, List.foldl_cons]⟩

/-- **After a run of uploads** the kernel reads under a plain path what the map says. -/
theorem uploadAll_iff (h : RymfsInv (diskHeader (imageDisk image)))
    (hn : NamesInv (diskHeader (imageDisk image))) (hm : uploadAll image ups = .ok image')
    {dest : List Char} (hok : PathOk dest) (hplain : PlainDest dest) (data : List UInt8) :
    (∃ i, OpensTo (imageDisk image') (pfsPrefix ++ encode dest) i data) ↔
      ups.foldl (fun M up => uploaded M up.1 up.2) (pfsMap (imageDisk image)) (encode dest) =
        some (.file data) := by
  obtain ⟨h', hn', hmap⟩ := uploadAll_pfsMap h hn hm
  rw [← hmap]
  exact opensTo_iff (reliable_imageDisk image') hn' h' (hok.resolves hplain)

end Runs

/-- A run of one upload. -/
theorem uploadAll_iff_letter : ∃ image', uploadAll blankImage [(['a'], [7])] = .ok image' ∧
    ((∃ i, OpensTo (imageDisk image') (pfsPrefix ++ encode ['a']) i [7]) ↔
      [((['a'], [7]) : List Char × List UInt8)].foldl (fun M up => uploaded M up.1 up.2)
        (pfsMap (imageDisk blankImage)) (encode ['a']) = some (.file [7])) := by
  obtain ⟨image', hm⟩ := main_blankImage (by decide : validPath ['a'] = true) (by decide)
  have hrun : uploadAll blankImage [(['a'], [7])] = .ok image' := by
    rw [uploadAll, bind_eq_ok]
    exact ⟨image', hm, rfl⟩
  have hinv : RymfsInv (diskHeader (imageDisk blankImage)) := by
    rw [diskHeader_blankImage]
    exact rymfsInv_emptyHeader
  have hnames : NamesInv (diskHeader (imageDisk blankImage)) := by
    rw [diskHeader_blankImage]
    exact namesInv_emptyHeader
  obtain ⟨-, -, hok, -⟩ := main_pfsMap hinv hnames hm
  exact ⟨image', hrun, uploadAll_iff hinv hnames hrun hok (by decide) [7]⟩

end Rymos
