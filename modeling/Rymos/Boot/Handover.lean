import Mathlib.Tactic
import Rymos.Boot.Firmware
import Rymos.Boot.Truncated

/-!
# From the scripts to the kernel

* `archive_of_build`, `decodes_of_buildImage`: what the scripts write.
* `Started`: what is at hand when the kernel starts. **`ends_bootKernel`**: every boot.
* **`bootKernel_loads`**: the kernel is in memory, and nothing else was written to.
* **`bootKernel_finds`**: the packed files that the kernel finds.
* **`bootKernel_apart`**: the kernel does not allocate what it was given.
-/

namespace Rymos

open ByteBuf Areas Attempt Fat32 Transition

/-! ## The scripts -/

section Scripts

/-- A loop that ends has written the table and the contents. -/
theorem buildLoop_some {files : List BootFile} (h : ∀ file ∈ files, Packable file) {offset : ℕ}
    {entries payload : List UInt8} {r : List UInt8 × List UInt8}
    (hr : buildLoop files offset entries payload = some r) :
    r = (entries ++ records offset files, payload ++ contents files) := by
  induction files generalizing offset entries payload with
  | nil =>
    obtain rfl := (Option.some.inj hr).symm
    rw [records, contents_nil, List.append_nil, List.append_nil]
  | cons file files ih =>
    obtain ⟨name, data⟩ := file
    rw [buildLoop] at hr
    split_ifs at hr
    obtain ⟨offsetBytes, hoffset, hr⟩ := Option.bind_eq_some_iff.mp hr
    obtain ⟨lengthBytes, hlength, hr⟩ := Option.bind_eq_some_iff.mp hr
    unfold le32 at hoffset hlength
    split_ifs at hoffset hlength
    cases hoffset
    cases hlength
    rw [ih (fun f hf => h f (List.mem_cons_of_mem _ hf)) hr, records, contents_cons, record]
    simp only [List.append_assoc]

/-- **What `build` returns is the archive.** -/
theorem archive_of_build {files : List BootFile} (h : ∀ file ∈ files, Packable file) {initrd : List UInt8}
    (hb : build files = some initrd) : initrd = archive files ∧ files.length ≤ 65535 := by
  unfold build at hb
  obtain ⟨⟨entries, payload⟩, hloop, hb⟩ := Option.bind_eq_some_iff.mp hb
  obtain ⟨count, hcount, hb⟩ := Option.bind_eq_some_iff.mp hb
  obtain ⟨size, hsize, rfl⟩ := Option.map_eq_some_iff.mp hb
  unfold le16 at hcount hsize
  split_ifs at hcount hsize with hlt
  cases hcount
  cases hsize
  have hr := buildLoop_some h hloop
  simp only [List.nil_append, Prod.mk.injEq] at hr
  rw [hr.1, hr.2]
  refine ⟨?_, by omega⟩
  rw [archive]
  simp only [List.append_assoc]
  rfl

variable {boot kernel initrd image : List UInt8} {fuel : ℕ} {sizeMib : ℤ}

/-- **What `build_image` returns decodes.** -/
theorem decodes_of_buildImage (himage : buildImage fuel boot kernel initrd sizeMib = some (.ok image))
    (hb : boot ≠ []) (hk : kernel ≠ []) (hi : initrd ≠ []) : Decodes image boot kernel initrd := by
  have henc := encodable_of_buildImage himage
  obtain ⟨layout, hlayout, hbuild⟩ := Option.map_eq_some_iff.mp (by rw [buildImage] at himage; exact himage)
  obtain ⟨⟨fatSectors, dataSectors, clusterCount⟩, hok, -⟩ := Except.bind_ok hbuild
  rw [hok] at hlayout
  have hlay := calculateLayout_ok hlayout
  rw [buildImage_eq hlayout, writeImage_eq henc hlay hb hk hi] at himage
  cases himage
  exact decodes_imageBytes henc hlay hb hk hi

end Scripts

/-! ## Every boot -/

section Boot

variable {σ : Type} {efi : BootServices σ} {volume : List UInt8} {given : σ → List Area}
  {opened : σ → List UInt8} {b b' : Booting σ} {kernel : List UInt8}

/-- **What is at hand when the kernel starts.** -/
structure Started (volume : List UInt8) (given : σ → List Area) (kernel : List UInt8) (entry : ℕ)
    (info : BootHandover) (b : Booting σ) : Prop where
  entry_ne : entry ≠ 0
  loaded : KernelLoaded given (fun k => kernel.getD k 0) (min kernelReadLimit kernel.length) entry b
  archive : info.initrdBase = 0 ∧ info.initrdSize = 0 ∨
    Buffered volume given initrdPath16 initrdReadLimit ⟨info.initrdBase, info.initrdSize⟩ b
  map : MapHanded given info b

/-- **A boot stops, or the kernel starts.** -/
theorem ends_bootKernel (law : efi.Lawful volume given opened) {clusters : List ℕ}
    (hk : IsFile volume kernelPath clusters kernel) (hw : ElfNoWrap fun k => kernel.getD k 0)
    (b : Booting σ) :
    Ends (bootKernel efi) b
      (fun r b' => Boots given b b' ∧ Started volume given kernel r.1 r.2 b')
      fun _ b' => Boots given b b' := by
  unfold bootKernel
  refine (ends_readFile law (by decide) kernelReadLimit b).bind fun buffer b₁ h₁ => ?_
  obtain ⟨hb₁, hbuffer⟩ := h₁
  obtain ⟨hsize, hthere⟩ := hbuffer.bytes clusters kernel (fatPath_kernel ▸ hk)
  have hfile : FileAt given (fun k => kernel.getD k 0) buffer.ptr buffer.size kernelReadLimit b₁ :=
    ⟨hbuffer.size_le, hbuffer.fits, hbuffer.owned, hthere⟩
  refine (ends_loadElf law hfile hw).bind fun entry b₂ h₂ => ?_
  obtain ⟨hb₁₂, hloaded⟩ := h₂
  have hb₂ := hb₁.trans hb₁₂
  split_ifs with hentry
  · exact .stop hb₂
  · have hload₂ := hloaded hentry
    rw [hsize] at hload₂
    refine (ends_setGraphicsMode law 1024 768 b₂).bind fun _ b₃ hb₂₃ => ?_
    refine (ends_framebufferInfo law b₃).bind fun info b₄ h₄ => ?_
    obtain ⟨hb₃₄, hbase, hzero⟩ := h₄
    refine Ends.bind (Q := fun r b₅ => Boots given b₄ b₅ ∧ ∀ buffer, r = .ok buffer →
        Buffered volume given initrdPath16 initrdReadLimit buffer b₅)
      ((ends_readFile law (by decide) initrdReadLimit b₄).result ?_ ?_) ?_
    · rintro buffer' b₅ ⟨hb₅, hbuffer'⟩
      refine ⟨hb₅, fun buffer hr => ?_⟩
      cases hr
      exact hbuffer'
    · exact fun e b₅ hb₅ => ⟨hb₅, fun buffer hr => by cases hr⟩
    · rintro r b₅ ⟨hb₄₅, hinitrd⟩
      have hb₂₅ := hb₂₃.trans (hb₃₄.trans hb₄₅)
      dsimp only
      have hb₅ := hb₂.trans hb₂₅
      refine (hb₅.ends (ends_exitBootServices law _ b₅)).bind fun info' b₆ h₆ => .pure ?_
      obtain ⟨hb₅₆, hbase', hsize', hmap⟩ := h₆
      refine ⟨hb₅.trans hb₅₆, hentry, hload₂.boots (hb₂₅.trans hb₅₆), ?_, hmap⟩
      dsimp only
      rw [hbase', hsize']
      cases r with
      | error e => exact .inl ⟨hbase, hzero⟩
      | ok buffer => exact .inr ((hinitrd buffer rfl).boots hb₅₆)

/-- The archive as the kernel takes it over. -/
theorem Started.bootFs {entry : ℕ} {info : BootHandover} (h : Started volume given kernel entry info b)
    {clusters : List ℕ} {initrd : List UInt8} (hi : IsFile volume initrdPath clusters initrd) :
    (info.initrdSize = 0 ∧ BootFs.new info b.bytes = ⟨[]⟩) ∨
      (info.initrdSize ≠ 0 ∧ BootFs.new info b.bytes = ⟨initrd.take initrdReadLimit⟩) := by
  rcases h.archive with ⟨hbase, hzero⟩ | hbuffer
  · exact .inl ⟨hzero, if_pos (.inl hbase)⟩
  · have hpos : info.initrdSize ≠ 0 := hbuffer.size_pos.ne'
    refine .inr ⟨hpos, ?_⟩
    obtain ⟨hsize, hthere⟩ := hbuffer.bytes clusters initrd (fatPath_initrd ▸ hi)
    dsimp only at hsize
    rw [BootFs.new, if_neg (not_or.mpr ⟨hbuffer.ptr, hpos⟩)]
    congr 1
    refine List.ext_getElem (by simp [hsize]) fun k hk hk' => ?_
    rw [List.length_map, List.length_range] at hk
    rw [List.getElem_map, List.getElem_range, List.getElem_take]
    exact (hthere k hk).trans (List.getD_eq_getElem _ _ _)

/-- Memory that the kernel may allocate is apart from what was given away. -/
theorem Usable.apart {map : List EfiMemoryDescriptor} {areas : List Area} (hm : MapsAround map areas)
    {page : ℕ} (h : Usable map page) {a : Area} (ha : a ∈ areas) : Area.Apart ⟨page, pageSize⟩ a := by
  intro x hx
  obtain ⟨-, -, d, hd, htyp, hlo, hhi⟩ := h
  exact hm.2 d hd htyp a ha x ⟨hlo.trans hx.1, hx.2.trans_le hhi⟩

end Boot

/-! ## A firmware

Memory from 16 megabytes to one gigabyte, and two files. -/

section Rom

abbrev romBase : ℕ := 0x1000000

abbrev romTop : ℕ := 0x40000000

/-- The areas given away lie in memory. -/
structure RomState where
  given : List Area
  opened : List UInt8
  below : ∀ a ∈ given, a.start + a.size ≤ romTop

def RomState.add (s : RomState) (area : Area) (h : area.start + area.size ≤ romTop) : RomState :=
  ⟨area :: s.given, s.opened, by
    intro a ha
    rcases List.mem_cons.mp ha with rfl | ha
    · exact h
    · exact s.below a ha⟩

/-- Behind all areas. -/
def romEnd (given : List Area) : ℕ := given.foldr (fun a m => max (a.start + a.size) m) romBase

/-- One descriptor, of memory behind the rest. -/
def romMap : List UInt8 :=
  leBytes 8 efiConventionalMemory ++ leBytes 8 romTop ++ leBytes 8 0 ++ leBytes 8 16 ++ leBytes 16 0

def romServices (kernel initrd : List UInt8) : BootServices RomState where
  loadedImage s := (0, s)
  fileSystem s := (0, s)
  openVolume s := (0, s)
  openFile path s :=
    if path = kernelPath16 then (0, { s with opened := kernel })
    else if path = initrdPath16 then (0, { s with opened := initrd })
    else (efiNotFound, s)
  allocatePool size s :=
    if h : romEnd s.given + size ≤ romTop then (0, romEnd s.given, s.add ⟨romEnd s.given, size⟩ h) else (9, 0, s)
  read size s := (0, s.opened.take size, { s with opened := s.opened.drop size })
  close s := s
  allocatePages address pages s :=
    if h : address + 4096 * pages ≤ romTop ∧ ∀ a ∈ s.given,
        address + 4096 * pages ≤ a.start ∨ a.start + a.size ≤ address then
      (0, s.add ⟨address, 4096 * pages⟩ h.1)
    else (efiNotFound, s)
  graphicsOutput s := (none, s)
  queryMode _ s := (none, s)
  setMode _ s := s
  getMemoryMap size s := if size < 48 then (5, ⟨48, 1, 48, []⟩, s) else (0, ⟨48, 1, 48, romMap⟩, s)
  exitBootServices _ s := (0, s)

theorem le_romEnd {given : List Area} {a : Area} (ha : a ∈ given) : a.start + a.size ≤ romEnd given := by
  induction given with
  | nil => cases ha
  | cons b given ih =>
    rw [romEnd, List.foldr_cons]
    rcases List.mem_cons.mp ha with rfl | ha
    · exact le_max_left _ _
    · exact (ih ha).trans (le_max_right _ _)

theorem romBase_le_romEnd (given : List Area) : romBase ≤ romEnd given := by
  induction given with
  | nil => exact le_rfl
  | cons b given ih => exact ih.trans (le_max_right _ _)

theorem romMap_around {areas : List Area} (h : ∀ a ∈ areas, a.start + a.size ≤ romTop) :
    MapsAround (MapReply.map ⟨48, 1, 48, romMap⟩) areas := by
  have hmap : MapReply.map ⟨48, 1, 48, romMap⟩ =
      [EfiMemoryDescriptor.ofBytes fun k => romMap.getD (0 * 48 + k) 0] := rfl
  have hstart : (EfiMemoryDescriptor.ofBytes fun k => romMap.getD (0 * 48 + k) 0).physicalStart = romTop := by
    decide +kernel
  have hpages : (EfiMemoryDescriptor.ofBytes fun k => romMap.getD (0 * 48 + k) 0).numberOfPages = 16 := by
    decide +kernel
  rw [hmap]
  refine ⟨⟨?_, ?_, List.pairwise_singleton _ _⟩, ?_⟩
  · intro d hd
    rw [List.mem_singleton.mp hd, hstart]
    decide
  · intro d hd
    rw [List.mem_singleton.mp hd, EfiMemoryDescriptor.stop, hstart, hpages]
    decide
  intro d hd _ a ha x hx hin
  rw [List.mem_singleton.mp hd] at hx
  have hlo : romTop ≤ x := hstart ▸ hx.1
  have hhi : x < a.start + a.size := hin.2
  have := h a ha
  omega

/-- **The firmware is lawful** on a volume with the two files. -/
theorem lawful_romServices {volume kernel initrd : List UInt8} {kernelClusters initrdClusters : List ℕ}
    (hk : IsFile volume kernelPath kernelClusters kernel)
    (hi : IsFile volume initrdPath initrdClusters initrd) :
    (romServices kernel initrd).Lawful volume RomState.given RomState.opened where
  loadedImage _ := rfl
  fileSystem _ := rfl
  openVolume _ := rfl
  openFile path s := by
    simp only [romServices]
    split_ifs <;> rfl
  opens path s _ hok clusters data hdata := by
    simp only [romServices] at hok ⊢
    split_ifs at hok ⊢ with h h'
    · rw [h, fatPath_kernel] at hdata
      exact hk.eq hdata
    · rw [h', fatPath_initrd] at hdata
      exact hi.eq hdata
  pool size s := by
    by_cases h : romEnd s.given + size ≤ romTop
    · simp only [romServices, dif_pos h, Gives, if_true]
      refine ⟨h.trans (by decide), ?_, rfl⟩
      intro a ha x hx hin
      have hlo : romEnd s.given ≤ x := hx.1
      have hhi : x < a.start + a.size := hin.2
      have := le_romEnd ha
      omega
    · simp only [romServices, dif_neg h, Gives, if_neg (show (9 : ℕ) ≠ 0 by decide)]
  pool_ne size s hok := by
    simp only [romServices] at hok ⊢
    split_ifs at hok ⊢
    have := romBase_le_romEnd s.given
    simp only [romBase] at this
    dsimp only
    omega
  pool_opened size s := by
    simp only [romServices]
    split_ifs <;> rfl
  read _ _ := rfl
  read_le size s := List.length_take_le _ _
  reads _ _ _ := rfl
  close _ := rfl
  pages address pages s := by
    by_cases h : address + 4096 * pages ≤ romTop ∧ ∀ a ∈ s.given,
        address + 4096 * pages ≤ a.start ∨ a.start + a.size ≤ address
    · simp only [romServices, dif_pos h, Gives, if_true]
      refine ⟨h.1.trans (by decide), ?_, rfl⟩
      intro a ha x hx hin
      have hlo : address ≤ x := hx.1
      have hhi : x < address + 4096 * pages := hx.2
      have hlo' : a.start ≤ x := hin.1
      have hhi' : x < a.start + a.size := hin.2
      rcases h.2 a ha with hle | hle <;> omega
    · simp only [romServices, dif_neg h, Gives, if_neg (show efiNotFound ≠ 0 by decide)]
  graphicsOutput _ := rfl
  queryMode _ _ := rfl
  setMode _ _ := rfl
  memoryMap size s := by
    simp only [romServices]
    split_ifs <;> rfl
  memoryMap_le size s := by
    simp only [romServices]
    split_ifs with h
    · exact Nat.zero_le _
    · exact not_lt.mp h
  maps size s hok := by
    simp only [romServices] at hok ⊢
    split_ifs at hok ⊢
    exact ⟨rfl, show 40 ≤ 48 by decide, romMap_around s.below⟩
  exit _ _ := rfl

/-- A kernel with one segment of four bytes and four zeros. -/
def smallKernel : List UInt8 :=
  elfMagic ++ [2, 1, 1, 0] ++ leBytes 8 0 ++ leBytes 2 2 ++ leBytes 2 0x3E ++ leBytes 4 1 ++
    leBytes 8 romBase ++ leBytes 8 64 ++ leBytes 8 0 ++ leBytes 4 0 ++ leBytes 2 64 ++ leBytes 2 56 ++
    leBytes 2 1 ++ leBytes 6 0 ++
    (leBytes 4 1 ++ leBytes 4 5 ++ leBytes 8 120 ++ leBytes 8 0x2000000 ++ leBytes 8 0x2000000 ++
      leBytes 8 4 ++ leBytes 8 8 ++ leBytes 8 4096) ++
    [0xFA, 0xF4, 0xEB, 0xFD]

theorem noWrap_smallKernel : ElfNoWrap fun k => smallKernel.getD k 0 :=
  ⟨by decide +kernel, by decide +kernel⟩

theorem build_twoFiles : build twoFiles = some (archive twoFiles) := by decide +kernel

/-- The scripts write an image of 64 megabytes, and the firmware is lawful on it. -/
theorem exists_smallBoot :
    ∃ image, buildImage 2 [1] smallKernel (archive twoFiles) 64 = some (.ok image) ∧
      (romServices smallKernel (archive twoFiles)).Lawful image RomState.given RomState.opened := by
  have hlayout : calculateLayout 2 (imageSectors 64) [[1].length, smallKernel.length,
      (archive twoFiles).length] = some (.ok (1024, 128992, 128992)) := by decide +kernel
  have henc : Encodable [1] smallKernel (archive twoFiles) (imageSectors 64).toNat :=
    ⟨by decide +kernel, by decide +kernel, by decide +kernel, by decide +kernel⟩
  have himage := (buildImage_eq hlayout).trans (congrArg some (writeImage_eq henc
    (calculateLayout_ok hlayout) (by decide) (by decide) (by decide)))
  obtain ⟨-, -, hfound⟩ := decodes_of_buildImage himage (by decide) (by decide) (by decide)
  obtain ⟨-, -, -, -, kernelClusters, initrdClusters, -, -, -, -, hkernel, hinitrd, -, -⟩ := hfound
  exact ⟨_, himage, lawful_romServices hkernel hinitrd⟩

def romStart : Booting RomState := ⟨⟨[], [], by simp⟩, fun _ => 0⟩

/-- The kernel starts. -/
theorem starts_smallKernel : ∃ b' info,
    bootKernel (romServices smallKernel (archive twoFiles)) romStart = some (b', .ok (romBase, info)) ∧
      info.initrdSize ≠ 0 := by
  have hrun : (bootKernel (romServices smallKernel (archive twoFiles)) romStart).map (fun p =>
      p.2.toOption.map fun r => (r.1, r.2.initrdSize)) = some (some (romBase, 98)) := by decide +kernel
  obtain ⟨⟨b', r⟩, hb', hr⟩ := Option.map_eq_some_iff.mp hrun
  cases r with
  | error e => cases hr
  | ok r =>
    obtain ⟨entry, info⟩ := r
    simp only [Except.toOption, Option.map_some, Option.some.injEq, Prod.mk.injEq] at hr
    refine ⟨b', info, hr.1 ▸ hb', ?_⟩
    rw [hr.2]
    decide

end Rom

/-! ## From the scripts to the kernel -/

section Chain

variable {σ : Type} {efi : BootServices σ} {given : σ → List Area} {opened : σ → List UInt8}
  {b b' : Booting σ} {boot kernel initrd image : List UInt8} {fuel : ℕ} {sizeMib : ℤ}

/-- A boot from the image of the scripts. -/
theorem ends_boot (himage : buildImage fuel boot kernel initrd sizeMib = some (.ok image))
    (hb : boot ≠ []) (hk : kernel ≠ []) (hi : initrd ≠ []) (law : efi.Lawful image given opened)
    (hw : ElfNoWrap fun k => kernel.getD k 0) (b : Booting σ) :
    (∃ clusters, IsFile image initrdPath clusters initrd) ∧
      Ends (bootKernel efi) b (fun r b' => Boots given b b' ∧ Started image given kernel r.1 r.2 b')
        fun _ b' => Boots given b b' := by
  obtain ⟨-, -, hfound⟩ := decodes_of_buildImage himage hb hk hi
  obtain ⟨-, -, -, -, kernelClusters, initrdClusters, -, -, -, -, hkernel, hinitrd, -, -⟩ := hfound
  exact ⟨⟨initrdClusters, hinitrd⟩, ends_bootKernel law hkernel hw b⟩

/-- **The kernel is loaded.** A boot from the image of the scripts ends; whatever comes of it, only memory that
the firmware gave to it was written to; and if the kernel starts, it starts at its entry with its segments in
memory, which end within the first megabyte of the file. -/
theorem bootKernel_loads (himage : buildImage fuel boot kernel initrd sizeMib = some (.ok image))
    (hb : boot ≠ []) (hk : kernel ≠ []) (hi : initrd ≠ []) (law : efi.Lawful image given opened)
    (hw : ElfNoWrap fun k => kernel.getD k 0) (b : Booting σ) :
    ∃ b' r, bootKernel efi b = some (b', r) ∧ Boots given b b' ∧ ∀ entry info, r = .ok (entry, info) →
      KernelLoaded given (fun k => kernel.getD k 0) (min kernelReadLimit kernel.length) entry b' := by
  obtain ⟨-, b', r, hrun, h⟩ := ends_boot himage hb hk hi law hw b
  refine ⟨b', r, hrun, ?_, ?_⟩
  · cases r with
    | error e => exact h
    | ok r => exact h.1
  · rintro entry info rfl
    exact h.2.loaded

theorem bootKernel_loads_small : ∃ b' info,
    bootKernel (romServices smallKernel (archive twoFiles)) romStart = some (b', .ok (romBase, info)) ∧
      Boots RomState.given romStart b' ∧
      KernelLoaded RomState.given (fun k => smallKernel.getD k 0) (min kernelReadLimit smallKernel.length)
        romBase b' := by
  obtain ⟨image, himage, law⟩ := exists_smallBoot
  obtain ⟨b', r, hrun, hboots, hloads⟩ := bootKernel_loads himage (by decide) (by decide) (by decide)
    law noWrap_smallKernel romStart
  obtain ⟨b'', info, hstarts, -⟩ := starts_smallKernel
  rw [hrun] at hstarts
  cases hstarts
  exact ⟨b', info, hrun, hboots, hloads _ info rfl⟩

variable {files : List BootFile} {entry : ℕ} {info : BootHandover}

/-- **The kernel finds the packed files**: all whose contents end within the first 32 megabytes of the archive,
with their contents, and no others; none if the firmware could not read the archive. -/
theorem bootKernel_finds (hfiles : ∀ file ∈ files, Packable file) (harchive : build files = some initrd)
    (himage : buildImage fuel boot kernel initrd sizeMib = some (.ok image)) (hb : boot ≠ [])
    (hk : kernel ≠ []) (law : efi.Lawful image given opened) (hw : ElfNoWrap fun k => kernel.getD k 0)
    (hrun : bootKernel efi b = some (b', .ok (entry, info))) (name : List UInt8) :
    (BootFs.new info b'.bytes).findData name = some
      (if info.initrdSize = 0 then none
      else ((files.take (wholeFiles files initrdReadLimit)).find? fun file => file.1 == name).map
        Prod.snd) := by
  obtain ⟨rfl, hcount⟩ := archive_of_build hfiles harchive
  have hlen := length_archive hfiles
  have hne : archive files ≠ [] := List.ne_nil_of_length_pos (by omega)
  have hsize := (encodable_of_buildImage himage).initrd
  rw [hlen] at hsize
  obtain ⟨⟨clusters, hinitrd⟩, hends⟩ := ends_boot himage hb hk hne law hw b
  rcases (hends.ok hrun).2.bootFs hinitrd with ⟨hzero, hfs⟩ | ⟨hpos, hfs⟩
  · rw [hfs, if_pos hzero]
    rfl
  · rw [hfs, if_neg hpos]
    refine findData_take hfiles hcount hsize ?_ name
    simp only [bootEntrySize, initrdReadLimit]
    omega

theorem bootKernel_finds_small : ∃ b' info,
    bootKernel (romServices smallKernel (archive twoFiles)) romStart = some (b', .ok (romBase, info)) ∧
      (BootFs.new info b'.bytes).findData (ascii "a") = some (some [1, 2]) := by
  obtain ⟨image, himage, law⟩ := exists_smallBoot
  obtain ⟨b', info, hrun, hpos⟩ := starts_smallKernel
  have hpack : ∀ file ∈ twoFiles, Packable file :=
    List.forall_mem_cons.mpr ⟨packable_of_all (by decide) (by decide) (by decide),
      List.forall_mem_cons.mpr ⟨packable_of_all (by decide) (by decide) (by decide),
        List.forall_mem_nil _⟩⟩
  refine ⟨b', info, hrun, ?_⟩
  rw [bootKernel_finds hpack build_twoFiles himage (by decide) (by decide)
    law noWrap_smallKernel hrun, if_neg hpos]
  decide +kernel

/-- **The kernel never allocates what it was given**: in every run of its allocator, no page that it has or has
handed out meets a segment of the kernel, the archive or the memory map. -/
theorem bootKernel_apart (himage : buildImage fuel boot kernel initrd sizeMib = some (.ok image))
    (hb : boot ≠ []) (hk : kernel ≠ []) (hi : initrd ≠ []) (law : efi.Lawful image given opened)
    (hw : ElfNoWrap fun k => kernel.getD k 0)
    (hrun : bootKernel efi b = some (b', .ok (entry, info))) {s : AllocSys}
    (hs : Reach (fun s => s = { alloc := initAllocator info b'.bytes, held := [] }) FreesHeld allocStep s) :
    ∀ page ∈ s.alloc.available ++ s.held,
      (∀ index < (Elf64Header.ofBytes fun k => kernel.getD k 0).phnum,
        (programHeaderOf (fun k => kernel.getD k 0) index).Loadable → Area.Apart ⟨page, pageSize⟩
          (segmentPiece (fun k => kernel.getD k 0) (programHeaderOf (fun k => kernel.getD k 0) index)).area) ∧
      Area.Apart ⟨page, pageSize⟩ ⟨info.initrdBase, info.initrdSize⟩ ∧
      Area.Apart ⟨page, pageSize⟩ ⟨info.memoryMapBase, info.memoryMapSize⟩ := by
  obtain ⟨-, hends⟩ := ends_boot himage hb hk hi law hw b
  have hstarted := (hends.ok hrun).2
  obtain ⟨map, hmap, haround⟩ := hstarted.map.map
  rw [hmap] at hs
  have hinv : HeldInv map s := hs.inv (I := HeldInv map) (fun _ hi => AllocInit.inv haround.1 hi)
    fun _ _ _ hx hg hs => hx.step hg hs
  intro page hpage
  have hapart (a : Area) (ha : a ∈ given b'.firmware) : Area.Apart ⟨page, pageSize⟩ a :=
    (hinv.usable page hpage).apart haround ha
  refine ⟨fun index hidx hl => ?_, ?_, ?_⟩
  · obtain ⟨a, ha, hin⟩ := (hstarted.loaded.segments index hidx hl).owned
    exact fun x hx hseg => hapart a ha x hx (hin x hseg)
  · rcases hstarted.archive with ⟨-, hzero⟩ | hbuffer
    · intro x _ hx
      rw [hzero] at hx
      exact absurd hx.2 (not_lt.mpr hx.1)
    · exact fun x hx hin => hapart _ hbuffer.owned x hx (Area.Inside.of_le hbuffer.size_le x hin)
  · obtain ⟨a, ha, hin⟩ := hstarted.map.owned
    exact fun x hx hmem => hapart a ha x hx (hin x hmem)

theorem bootKernel_apart_small : ∃ b' info,
    bootKernel (romServices smallKernel (archive twoFiles)) romStart = some (b', .ok (romBase, info)) ∧
      ∀ page ∈ (initAllocator info b'.bytes).available,
        Area.Apart ⟨page, pageSize⟩ ⟨info.initrdBase, info.initrdSize⟩ := by
  obtain ⟨image, himage, law⟩ := exists_smallBoot
  obtain ⟨b', info, hrun, -⟩ := starts_smallKernel
  refine ⟨b', info, hrun, fun page hpage => ?_⟩
  obtain ⟨-, harchive, -⟩ := bootKernel_apart himage (by decide) (by decide) (by decide) law
    noWrap_smallKernel hrun (.start rfl) page (List.mem_append_left _ hpage)
  exact harchive

end Chain

end Rymos
