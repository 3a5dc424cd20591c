import Mathlib.Tactic
import Rymos.Path.MissingDirs
import Rymos.Upload.Entries
import Rymos.Upload.Paths

/-!
# What an upload makes

* `RymfsInv.mkdir`, **`createParents_spec`**: the parents of the path are made as `mkdir` makes them.
* `FilePut`, **`createEntry_file`**: the entry of the file, and its extents.
* **`FilePut.inv`**, `FilePut.find`: the header with the file.
-/

namespace Rymos

open ByteBuf Extents Forest

section Invariants

variable {header header' : Header} {name : List UInt8}

theorem TreeInv.namesInv (h : TreeInv header) (hm : header.slice 0 8 = pfsMagic) : NamesInv header := by
  refine ⟨hm, h.namesFit, fun i hi j hj hu hu' he => ?_⟩
  have ht := h.distinct (i := ⟨i, hi⟩) (j := ⟨j, hj⟩) (pfsTable_eq_some.mpr ⟨hu, rfl, rfl⟩)
    (pfsTable_eq_some.mpr ⟨hu', he.symm, rfl⟩)
  exact congrArg Fin.val ht

/-- A name whose parent is a directory of the tree. -/
theorem TreeInv.parentExists_of_dir (h : TreeInv header) (hv : validPfsPath name = true)
    (hp : ∀ dir, pfsParent name = some dir → HasDir header dir) :
    pfsParentExists header name = true := by
  refine (pfsParentExists_iff hv).mpr fun dir hd => ?_
  obtain ⟨j, hj, hjd⟩ := hp dir hd
  obtain ⟨hlt, hu, hn, -⟩ := pfsFindEntry_eq_some.mp hj
  have hdir : pfsTable header ⟨j, hlt⟩ = some (dir, true) := pfsTable_eq_some.mpr ⟨hu, hn, hjd⟩
  exact ⟨List.length_pos_iff.mp (length_of_validPfsPath (h.valid hdir)).1, j, hj, hjd⟩

/-- In a tree an entry has its parent. -/
theorem TreeInv.parentExists (h : TreeInv header) {i : ℕ} (hf : pfsFindEntry header name = some i) :
    pfsParentExists header name = true := by
  obtain ⟨hi, hu, hn, -⟩ := pfsFindEntry_eq_some.mp hf
  have hentry : pfsTable header ⟨i, hi⟩ = some (name, pfsEntryIsDir header i) :=
    pfsTable_eq_some.mpr ⟨hu, hn, rfl⟩
  refine h.parentExists_of_dir (h.valid hentry) fun dir hdir => ?_
  obtain ⟨j, hj⟩ := h.rooted hentry hdir
  obtain ⟨hju, hjn, hjd⟩ := pfsTable_eq_some.mp hj
  refine ⟨j, pfsFindEntry_eq_some.mpr ⟨j.2, hju, hjn, fun k hk hku hkn => ?_⟩, hjd⟩
  have hk' : (⟨k, hk.trans j.2⟩ : Fin pfsEntryCount) = j :=
    h.distinct (pfsTable_eq_some.mpr ⟨hku, hkn, rfl⟩) hj
  rw [← hk'] at hk
  exact lt_irrefl _ hk

/-- **`mkdir` keeps the invariants.** -/
theorem RymfsInv.mkdir (h : RymfsInv header) (hn : NamesInv header) {t : ℕ → ℕ}
    (hv : validPfsPath name = true) (he : mkdirHeader header name t = .ok header') :
    RymfsInv header' := by
  have hw : EntryWrite header header' := .mkdir hv he
  have hmade := madeDirs_of_mkdir hn hv he
  refine ⟨h.alloc.entryWrite hw, h.tree.entryWrite hw, fun j hj hu => ?_⟩
  rcases hmade.new j hj hu with hold | ⟨hd, -⟩
  · rw [(hmade.kept j hj hold).kind]
    exact h.kind j hj hold
  · exact .inr (beq_iff_eq.mp hd)

end Invariants

namespace PfsPut

variable {header header' : Header} {image image' data : List UInt8} {name : List Char}

/-! ## The parents -/

/-- A directory that is missing is made as `mkdir` makes it, with both times unknown. -/
theorem createEntry_dir (hnone : pfsFindEntry header (encode name) = none)
    (hp : pfsParentExists header (encode name) = true)
    (he : createEntry image header name [] kindDir = .ok (image', header')) :
    image' = image ∧ mkdirHeader header (encode name) (fun _ => 0) = .ok header' := by
  rw [createEntry, bind_eq_ok] at he
  obtain ⟨index, hi, he⟩ := he
  rw [chooseEntry, findEntry_eq, hnone, freeEntry_eq] at hi
  dsimp only at hi he
  rw [if_neg (by decide), bind_eq_ok] at he
  obtain ⟨made, hset, he⟩ := he
  cases he
  rw [mkdirHeader, hp, hnone]
  cases hfree : pfsFreeEntry header with
  | none =>
    rw [hfree] at hi
    cases hi
  | some i =>
    rw [hfree] at hi
    cases hi
    rw [(setEntry_eq_ok.mp hset).2]
    exact ⟨rfl, rfl⟩

/-- The missing ones of `parents` are made, under `names`. -/
structure MadeParents (header header' : Header) (parents : List (List UInt8))
    (names : Finset (List UInt8)) : Prop extends MadeDirs header header' names where
  only : ∀ name ∈ names, name ∈ parents
  all : ∀ parent ∈ parents, HasDir header' parent

/-- **The parents are made one after the other**, and nothing else changes. -/
theorem createParents_spec {parents rest : List (List Char)} (h : RymfsInv header)
    (hn : NamesInv header) (hc : Chained (HasDir header) (parents ++ rest))
    (he : createParents parents image header = .ok (image', header')) :
    image' = image ∧ RymfsInv header' ∧
      (∃ names, MadeParents header header' (parents.map encode) names) ∧
      Chained (HasDir header') rest := by
  induction parents generalizing image header with
  | nil =>
    cases he
    exact ⟨rfl, h, ⟨∅, .refl hn, by simp, by simp⟩, hc⟩
  | cons parent parents ih =>
    obtain ⟨hv, hparent, hc⟩ := hc
    rw [createParents, findEntry_eq] at he
    cases hf : pfsFindEntry header (encode parent) with
    | none =>
      rw [hf] at he
      dsimp only at he
      rw [bind_eq_ok] at he
      obtain ⟨⟨image₁, header₁⟩, hcreate, he⟩ := he
      obtain ⟨rfl, hmk⟩ := createEntry_dir hf (h.tree.parentExists_of_dir hv hparent) hcreate
      have hmade := madeDirs_of_mkdir hn hv hmk
      obtain ⟨himage, hinv, ⟨names, hnames⟩, hrest⟩ := ih (h.mkdir hn hv hmk) hmade.inv
        (hc.mono fun dir hd => (hmade.dir dir).mpr (hd.imp_right Finset.mem_singleton.mpr)) he
      have hboth := hmade.trans hnames.toMadeDirs
      refine ⟨himage, hinv, ⟨_, hboth, fun name hname => ?_, ?_⟩, hrest⟩
      · rw [List.map_cons]
        rcases Finset.mem_union.mp hname with hname | hname
        · exact List.mem_cons.mpr (.inl (Finset.mem_singleton.mp hname))
        · exact List.mem_cons_of_mem _ (hnames.only name hname)
      · rw [List.map_cons, List.forall_mem_cons]
        exact ⟨(hboth.dir _).mpr (.inr (Finset.mem_union_left _ (Finset.mem_singleton_self _))),
          hnames.all⟩
    | some found =>
      rw [hf] at he
      dsimp only at he
      split_ifs at he with hk
      have hdir : pfsEntryIsDir header found = true := by
        simpa [entryKind, entryOffset_eq, pfsEntryIsDir] using hk
      obtain ⟨himage, hinv, ⟨names, hnames⟩, hrest⟩ := ih h hn (hc.mono fun dir hd => by
        rcases hd with hd | rfl
        · exact hd
        · exact ⟨found, hf, hdir⟩) he
      refine ⟨himage, hinv, ⟨names, hnames.toMadeDirs, fun name hname => ?_, ?_⟩, hrest⟩
      · rw [List.map_cons]
        exact List.mem_cons_of_mem _ (hnames.only name hname)
      · rw [List.map_cons, List.forall_mem_cons]
        exact ⟨(hnames.dir _).mpr (.inl ⟨found, hf, hdir⟩), hnames.all⟩

/-! ## The file -/

/-- `header'` is `header` with a file of `size` bytes in entry `i`: the one with this name, or a free
one. -/
structure FilePut (header header' : Header) (i : ℕ) (name : List UInt8) (size : ℕ)
    (extents : List PfsExtent) : Prop where
  lt : i < pfsEntryCount
  place : pfsFindEntry header name = some i ∧ pfsEntryIsDir header i = false ∨
    pfsFindEntry header name = none ∧ pfsFreeEntry header = some i
  valid : validPfsPath name = true
  parent : pfsParentExists header name = true
  max : size ≤ pfsFileMax
  grow : pfsGrowExtents header [] (Rymos.sectorsForLen size) (some i) = some extents
  eq : header' = pfsSetEntry header i name size pfsKindFile extents 0 pfsModeDefaultFile 0

theorem sectorsForLen_eq {size : ℕ} (h : size ≤ fileMax) :
    sectorsForLen size = Rymos.sectorsForLen size := by
  have hmax : size ≤ 268435456 := h
  rw [sectorsForLen, Rymos.sectorsForLen, usize_of_lt (by omega), u32_of_lt (by omega)]
  rfl

/-- **A file is stored in an entry of its own, in the sectors the kernel would give it.** -/
theorem createEntry_file {dest : List Char} (h : RymfsInv header)
    (hc : Chained (HasDir header) [dest]) (hlen : data.length ≤ fileMax)
    (he : createEntry image header dest data kindFile = .ok (image', header')) :
    ∃ i extents, FilePut header header' i (encode dest) data.length extents ∧
      image' = writeFileData data image 0 extents := by
  obtain ⟨hv, hparent, -⟩ := hc
  rw [createEntry, bind_eq_ok] at he
  obtain ⟨i, hi, he⟩ := he
  rw [if_pos (by decide), bind_eq_ok] at he
  obtain ⟨extents, hx, he⟩ := he
  rw [bind_eq_ok] at he
  obtain ⟨made, hset, he⟩ := he
  cases he
  have hplace : pfsFindEntry header (encode dest) = some i ∧ pfsEntryIsDir header i = false ∨
      pfsFindEntry header (encode dest) = none ∧ pfsFreeEntry header = some i := by
    rw [chooseEntry, findEntry_eq, freeEntry_eq] at hi
    cases hf : pfsFindEntry header (encode dest) with
    | some j =>
      rw [hf] at hi
      dsimp only at hi
      split_ifs at hi with hk
      cases hi
      exact .inl ⟨rfl, by simpa [entryKind, entryOffset_eq, pfsEntryIsDir] using hk⟩
    | none =>
      rw [hf] at hi
      cases hfree : pfsFreeEntry header with
      | none =>
        rw [hfree] at hi
        cases hi
      | some j =>
        rw [hfree] at hi
        cases hi
        exact .inr ⟨rfl, rfl⟩
  have hgrow : pfsGrowExtents header [] (Rymos.sectorsForLen data.length) (some i) = some extents := by
    rw [chooseExtents] at hx
    rw [← sectorsForLen_eq hlen]
    split_ifs at hx with h0
    · cases hx
      rw [h0]
      rfl
    · exact pfsGrowExtents_of_alloc h hx
  refine ⟨i, extents, ⟨?_, hplace, hv, ?_, hlen, hgrow, (setEntry_eq_ok.mp hset).2⟩, rfl⟩
  · rcases hplace with ⟨hf, -⟩ | ⟨-, hf⟩
    · exact (pfsFindEntry_eq_some.mp hf).1
    · exact (pfsFreeEntry_spec hf).1
  · exact h.tree.parentExists_of_dir hv hparent

/-! ## The header with the file -/

section Put

variable {i size : ℕ} {path : List UInt8} {extents : List PfsExtent}

/-- What `pfs_grow_extents` gives an empty file. -/
structure Fresh (header : Header) (i size : ℕ) (extents : List PfsExtent) : Prop where
  spread : Spread extents
  fits : ∀ e ∈ extents, Fits e
  length : extents.length ≤ 4
  total : total extents = Rymos.sectorsForLen size
  free : ∀ x, Covers extents x → FreeFor header (some i) x

variable (hp : FilePut header header' i path size extents) (h : RymfsInv header)

include hp h

theorem FilePut.fresh : Fresh header i size extents := by
  obtain ⟨hgrowth, hspread, hfin, hlen, htot⟩ := pfsGrowExtents_spec
    (fun e he => otherExtents_fin h.alloc he) spread_nil (fun x hx => absurd hx (covers_nil x))
    (Nat.zero_le 4) hp.grow
  refine ⟨hspread, fun e he => fits_of_fin (hfin e he), hlen, ?_, fun x hx => ?_⟩
  · rw [htot, total_nil, Nat.zero_add]
  · exact (hgrowth.new x hx).resolve_left (covers_nil x)

omit h in
theorem FilePut.onlyEntry : OnlyEntry header header' i := by
  rw [hp.eq]
  exact onlyEntry_pfsSetEntry header (length_of_validPfsPath hp.valid).2

/-- **The entry of the file**, with both times unknown. -/
theorem FilePut.entry : pfsEntry header' i =
    { kind := pfsKindFile, name := path, size := size, extents := extents, created := 0, modified := 0,
      mode := pfsModeDefaultFile } := by
  have hf := hp.fresh h
  have hmax : size ≤ 268435456 := hp.max
  rw [hp.eq, pfsEntry_pfsSetEntry header path size pfsKindFile extents 0 pfsModeDefaultFile 0 hp.lt
    (length_of_validPfsPath hp.valid).2 hf.length hf.fits, Nat.mod_eq_of_lt (a := size) (by omega)]
  rfl

theorem FilePut.kind_eq : pfsEntryKind header' i = pfsKindFile :=
  congrArg PfsEntry.kind (hp.entry h)

theorem FilePut.name_eq : pfsEntryName header' i = path := congrArg PfsEntry.name (hp.entry h)

theorem FilePut.size_eq : pfsEntrySize header' i = size := congrArg PfsEntry.size (hp.entry h)

theorem FilePut.extents_eq : pfsEntryExtents header' i = extents :=
  congrArg PfsEntry.extents (hp.entry h)

theorem FilePut.used : pfsEntryUsed header' i = true := by
  have hk := hp.kind_eq h
  rw [pfsEntryKind] at hk
  rw [pfsEntryUsed, hk]
  decide

theorem FilePut.isDir : pfsEntryIsDir header' i = false := by
  have hk := hp.kind_eq h
  rw [pfsEntryKind] at hk
  rw [pfsEntryIsDir, hk]
  decide

theorem FilePut.file : pfsEntryIsFile header' i = true :=
  pfsEntryIsFile_iff.mpr ⟨hp.used h, hp.isDir h⟩

/-- The sectors hold the bytes of the file. -/
theorem FilePut.size_le : size ≤ 512 * total extents := by
  rw [(hp.fresh h).total]
  exact le_sectorsForLen hp.max

/-- **The path leads to the entry.** -/
theorem FilePut.find : pfsFindEntry header' path = some i := by
  rcases hp.place with ⟨hf, -⟩ | ⟨hnone, hfree⟩
  · obtain ⟨-, hu, hn, -⟩ := pfsFindEntry_eq_some.mp hf
    rw [pfsFindEntry_keep hp.onlyEntry h.tree.namesFit (by rw [hp.used h, hu])
      (by rw [hp.name_eq h, hn]), hf]
  · rw [pfsFindEntry_new hp.onlyEntry h.tree.namesFit hp.lt (pfsFreeEntry_spec hfree).2 (hp.used h)
      (hp.name_eq h) hnone, if_pos rfl]

theorem FilePut.allocInv : AllocInv header' := by
  have hf := hp.fresh h
  have hfe : fileExtents header' ⟨i, hp.lt⟩ = extents := by
    rw [fileExtents_of_file (i := ⟨i, hp.lt⟩) (hp.file h), hp.extents_eq h]
  have hcount : (header'.byte (pfsEntryOffset i + pfsExtentCountOffset)).toNat ≤ pfsMaxExtents := by
    rw [hp.eq]
    exact count_pfsSetEntry hp.lt
  refine h.alloc.update hp.onlyEntry hp.lt ?_ hcount (fun hd => ?_) fun _ => ?_
  · rw [hfe]
    refine h.alloc.placed.update hf.spread (fun x hx => ⟨(hf.free x hx).1, (hf.free x hx).2.1⟩) ?_
    intro j hj x hx hc
    exact (hf.free x hx).2.2 (covers_otherExtents h.alloc (fun e => hj (Fin.ext e)) hc)
  · rw [hp.isDir h] at hd
    cases hd
  · rw [hp.size_eq h, hp.extents_eq h]
    exact ⟨hp.size_le h, hp.max⟩

/-- In the tree the file takes the place of the one it replaces, or a new one. -/
theorem FilePut.treeInv : TreeInv header' := by
  have hlen := (length_of_validPfsPath hp.valid).2
  rcases hp.place with ⟨hf, hd⟩ | ⟨hnone, hfree⟩
  · obtain ⟨-, hu, hn, -⟩ := pfsFindEntry_eq_some.mp hf
    exact h.tree.keep hp.onlyEntry hp.lt (by rw [hp.used h, hu]) (by rw [hp.name_eq h, hn])
      (by rw [hp.isDir h, hd])
  · have hnew : TreeInv (pfsSetEntry header i path 0 pfsKindFile [] 0 pfsModeDefaultFile 0) :=
      h.tree.newEntry hp.valid hp.parent hnone hfree (by decide)
    rw [TreeInv, pfsTable_pfsSetEntry h.tree.namesFit hp.lt hlen (by decide)] at hnew
    rw [TreeInv, hp.eq, pfsTable_pfsSetEntry h.tree.namesFit hp.lt hlen (by decide)]
    exact hnew

/-- **The header with the file meets the invariants.** -/
theorem FilePut.inv : RymfsInv header' := by
  refine ⟨hp.allocInv h, hp.treeInv h, fun j hj hu => ?_⟩
  by_cases hji : j = i
  · subst hji
    exact .inl (hp.kind_eq h)
  · rw [(hp.onlyEntry.other hji).used] at hu
    rw [(hp.onlyEntry.other hji).kind]
    exact h.kind j hj hu

end Put

end PfsPut

end Rymos
