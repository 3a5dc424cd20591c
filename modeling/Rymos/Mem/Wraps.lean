import Mathlib.Tactic
import Rymos.Mem.SafeLoad
import Rymos.Mem.Tidy

/-!
# Sums of header fields that wrap

* `Records`, `Passes`, **`passes_of_loadSegment`**: what a load records, and what one program header does.
* `bareMemory`, **`exists_bare`**: a machine with pages enough, where mapping never fails.
* **`noWrap_of_loadsSafely`**, **`loadsSafely_iff`**: the images that are loaded safely are those of which no sum
  wraps that lets the loader pass a check.
-/

namespace Rymos

open ByteBuf TableTree Transition

/-! ## What is recorded -/

section Records

variable {image : Image} {pml4 index n : ℕ} {l l' : Loading}

/-- Nothing recorded is forgotten. -/
structure Records (l l' : Loading) : Prop where
  reads : l.reads ⊆ l'.reads
  maps : l.maps ⊆ l'.maps
  stores : l.stores ⊆ l'.stores

theorem Records.refl (l : Loading) : Records l l := ⟨fun _ => id, fun _ => id, fun _ => id⟩

theorem Records.trans {l'' : Loading} (h : Records l l') (h' : Records l' l'') : Records l l'' :=
  ⟨List.Subset.trans h.reads h'.reads, List.Subset.trans h.maps h'.maps,
    List.Subset.trans h.stores h'.stores⟩

theorem Within.of_records (h : Records l l') (hw : Within image l') : Within image l :=
  ⟨fun p hp => hw.reads p (h.reads hp), fun v hv => hw.maps v (h.maps hv),
    fun v hv => hw.stores v (h.stores hv)⟩

theorem records_read (offset length : ℕ) (l : Loading) : Records l (l.read offset length) :=
  ⟨List.subset_cons_self _ _, fun _ => id, fun _ => id⟩

theorem records_storeRun {destination count : ℕ} {value : ℕ → UInt8}
    (he : l.storeRun pml4 destination count value = some l') : Records l l' ∧ l'.mem = l.mem ∧
      ∀ k < count, usize (destination + k) ∈ l'.stores := by
  obtain ⟨bytes, -, rfl⟩ := Option.map_eq_some_iff.mp he
  refine ⟨⟨fun _ => id, fun _ => id, fun _ hv => List.mem_append_right _ hv⟩, rfl, fun k hk => ?_⟩
  exact List.mem_append_left _ (List.mem_map_of_mem (List.mem_range.mpr hk))

/-- A program header that the loader goes past, or stops at. -/
inductive Passes (image : Image) (pml4 : ℕ) (ph : Elf64ProgramHeader) (l : Loading) :
    Except String Unit → Loading → Prop
  | skip : ¬ ph.Loadable → Passes image pml4 ph l (.ok ()) l
  | stop (line : String) : ph.Stops image.bytes.length → Passes image pml4 ph l (.error line) l
  | failed (line : String) {l₁ : Loading} : ph.Loadable → ¬ ph.Stops image.bytes.length →
      l.mapImagePages pml4 ph.pageStart ph.pageCount = (false, l₁) → Passes image pml4 ph l (.error line) l₁
  | loaded {l₁ l₂ l₃ : Loading} : ph.Loadable → ¬ ph.Stops image.bytes.length →
      l.mapImagePages pml4 ph.pageStart ph.pageCount = (true, l₁) →
      zeroBytes pml4 ph.paddr ph.memsz l₁ = some l₂ →
      copyNonoverlapping image pml4 ph.offset ph.paddr ph.filesz l₂ = some l₃ →
      Passes image pml4 ph l (.ok ()) l₃

/-- **What one program header does**, whatever its fields are. -/
theorem passes_of_loadSegment {result : Except String Unit}
    (he : loadSegment image pml4 index l = some (result, l')) :
    Passes image pml4 (image.programHeader index)
      (l.read (image.programHeaderOffset index) elfProgramHeaderSize) result l' := by
  rw [loadSegment] at he
  generalize image.programHeader index = ph at he ⊢
  by_cases hload : ph.Loadable
  · rw [if_neg (not_not.mpr hload)] at he
    by_cases hbad : ph.BadLoad image.bytes.length
    · rw [if_pos hbad] at he
      cases he
      exact .stop _ ⟨hload, .inl hbad⟩
    by_cases hout : ph.Outside
    · rw [if_neg hbad, if_pos hout] at he
      cases he
      exact .stop _ ⟨hload, .inr hout⟩
    rw [if_neg hbad, if_neg hout] at he
    have hpass : ¬ ph.Stops image.bytes.length := fun hs => hs.2.elim hbad hout
    rcases hm : (l.read (image.programHeaderOffset index) elfProgramHeaderSize).mapImagePages pml4
      ph.pageStart ph.pageCount with ⟨_ | _, l₁⟩
    · rw [hm] at he
      cases he
      exact .failed _ hload hpass hm
    · rw [hm] at he
      obtain ⟨l₂, hz, he⟩ := Option.bind_eq_some_iff.mp he
      obtain ⟨l₃, hc, he⟩ := Option.map_eq_some_iff.mp he
      cases he
      exact .loaded hload hpass hm hz hc
  · rw [if_pos hload] at he
    cases he
    exact .skip hload

/-- What `map_image_pages` does to a load. -/
theorem mapImagePages_eq {base : ℕ} {ok : Bool} (he : l.mapImagePages pml4 base n = (ok, l')) :
    (mapImagePagesFrom pml4 base 0 n l.mem).1 = ok ∧
      l'.mem = (mapImagePagesFrom pml4 base 0 n l.mem).2 ∧
      l'.maps = imageMaps pml4 base 0 n l.mem ++ l.maps := by
  have h₁ : (l.mapImagePages pml4 base n).1 = ok := by rw [he]
  obtain rfl : (l.mapImagePages pml4 base n).2 = l' := by rw [he]
  exact ⟨h₁, rfl, rfl⟩

theorem records_mapImagePages {base : ℕ} {ok : Bool} (he : l.mapImagePages pml4 base n = (ok, l')) :
    Records l l' := by
  obtain rfl : (l.mapImagePages pml4 base n).2 = l' := by rw [he]
  exact ⟨fun _ => id, fun _ hv => List.mem_append_right _ hv, fun _ => id⟩

theorem Passes.records {ph : Elf64ProgramHeader} {result : Except String Unit}
    (h : Passes image pml4 ph l result l') : Records l l' := by
  cases h with
  | skip => exact .refl l
  | stop => exact .refl l
  | failed line hload hpass hm => exact records_mapImagePages hm
  | loaded hload hpass hm hz hc =>
    exact (records_mapImagePages hm).trans
      ((records_storeRun hz).1.trans ((records_read _ _ _).trans (records_storeRun hc).1))

/-- **Nothing is forgotten** on the way through the program headers, and the first one is read. -/
theorem records_loadSegments (n : ℕ) {index : ℕ} {l : Loading} {result : Except String ℕ}
    (he : loadSegments image pml4 index n l = some (result, l')) : Records l l' ∧
      (0 < n → (image.programHeaderOffset index, elfProgramHeaderSize) ∈ l'.reads) := by
  induction n generalizing index l with
  | zero =>
    cases he
    exact ⟨.refl _, fun hn => absurd hn (lt_irrefl 0)⟩
  | succ n ih =>
    obtain ⟨⟨r, l₁⟩, he₁, he⟩ := Option.bind_eq_some_iff.mp he
    have hrec := (passes_of_loadSegment he₁).records
    have hread := records_read (image.programHeaderOffset index) elfProgramHeaderSize l
    have hfirst := hrec.reads (List.mem_cons_self (a := (image.programHeaderOffset index, elfProgramHeaderSize)))
    cases r with
    | error line =>
      cases he
      exact ⟨hread.trans hrec, fun _ => hfirst⟩
    | ok =>
      obtain ⟨hrec', -⟩ := ih he
      exact ⟨hread.trans (hrec.trans hrec'), fun _ => hrec'.reads hfirst⟩

end Records

/-! ## Pages enough -/

section Count

variable {pml4 base n index : ℕ} {mem : Memory}

/-- The pages mapped are pages of the range, in order. -/
theorem imageMaps_sublist (pml4 base n : ℕ) {index : ℕ} {mem : Memory} :
    (imageMaps pml4 base index n mem).Sublist ((List.range' index n).map (pageVirt base)) := by
  induction n generalizing index mem with
  | zero => exact List.Sublist.refl _
  | succ n ih =>
    rw [imageMaps, List.range'_succ, List.map_cons]
    split_ifs with hm
    · exact ih.cons _
    · rcases ha : allocZeroedPage mem with ⟨_ | a, mem₁⟩
      · exact List.nil_sublist _
      · dsimp only
        rcases hp : mapPage pml4 (pageVirt base index) a presentWritable mem₁ with ⟨_ | _, mem₂⟩
        · exact List.nil_sublist _
        · exact ih.cons_cons _

/-- **The window has `36352` pages**, and none is mapped twice. -/
theorem length_imageMaps_le (hb : base % pageSize = 0) (hn : n ≤ 2 ^ 52)
    (hw : ∀ virt ∈ imageMaps pml4 base 0 n mem, InImageWindow virt) :
    (imageMaps pml4 base 0 n mem).length ≤ 36352 := by
  have hsub : (imageMaps pml4 base 0 n mem).Sublist _ := imageMaps_sublist pml4 base n
  have hnodup : (imageMaps pml4 base 0 n mem).Nodup := by
    refine (List.Nodup.map_on ?_ List.nodup_range').sublist hsub
    intro i hi j hj he
    rw [List.mem_range'_1] at hi hj
    simp only [pageVirt, pageSize] at he
    omega
  have hpages : imageMaps pml4 base 0 n mem ⊆ (List.range' 512 36352).map (· * pageSize) := by
    intro virt hv
    obtain ⟨k, -, rfl⟩ := List.mem_map.mp (hsub.subset hv)
    have hmod := pageVirt_mod hb k
    obtain ⟨hlo, hhi⟩ := hw _ hv
    refine List.mem_map.mpr ⟨pageVirt base k / pageSize, ?_, ?_⟩
    · rw [List.mem_range'_1]
      simp only [pageSize, appLoadMin, appLoadMax] at *
      omega
    · simp only [pageSize] at *
      omega
  have hle := (List.subperm_of_subset hnodup hpages).length_le
  rwa [List.length_map, List.length_range'] at hle

end Count

/-! ## Wraps -/

section Wraps

variable {image : Image} {pml4 : ℕ} {ph : Elf64ProgramHeader} {l l' : Loading}

/-- The page count of a segment takes 52 bits. -/
theorem Elf64ProgramHeader.pageCount_le (ph : Elf64ProgramHeader) : ph.pageCount ≤ 2 ^ 52 := by
  have h : usize (ph.pageEnd + 2 ^ 64 - ph.pageStart) < 2 ^ 64 := Nat.mod_lt _ (by norm_num)
  rw [pageCount, pageSize]
  omega

/-- **A segment that is loaded within the window and the image** has no sum that wraps. -/
theorem noWrap_of_loaded {l₁ l₂ l₃ : Loading} (hload : ph.Loadable)
    (hz : zeroBytes pml4 ph.paddr ph.memsz l₁ = some l₂)
    (hc : copyNonoverlapping image pml4 ph.offset ph.paddr ph.filesz l₂ = some l₃)
    (hw : Within image l₃) (hlt : ph.paddr < 2 ^ 64) : ph.NoWrap := by
  obtain ⟨hrec, -, -⟩ := records_storeRun hc
  obtain ⟨-, -, hstores⟩ := records_storeRun hz
  constructor
  · have hread := hw.reads _ (hrec.reads List.mem_cons_self)
    have hsmall := image.small
    dsimp only at hread
    omega
  · -- if the segment goes on to the end of the address space, an address beyond the window is written
    by_contra hwrap
    have hout : ∃ k < ph.memsz, usize (ph.paddr + k) = max ph.paddr appLoadMax := by
      by_cases hp : ph.paddr < appLoadMax
      · refine ⟨appLoadMax - ph.paddr, ?_, ?_⟩
        · simp only [appLoadMax] at *
          omega
        · rw [Nat.add_sub_cancel' hp.le, max_eq_right hp.le, usize_of_lt (by norm_num)]
      · refine ⟨0, Nat.pos_of_ne_zero hload.2, ?_⟩
        rw [Nat.add_zero, usize_of_lt hlt, max_eq_left (not_lt.mp hp)]
    obtain ⟨k, hk, he⟩ := hout
    have hin := hw.stores _ (hrec.stores (hstores k hk))
    rw [he] at hin
    exact absurd hin.2 (not_lt.mpr (le_max_right _ _))

/-- Pages enough for one segment. -/
abbrev segmentRoom : ℕ := 2 ^ 18

/-- **One program header** of a load within the window and the image. -/
theorem Passes.noWrap {result : Except String Unit} (h : Passes image pml4 ph l result l')
    (ht : Tidy l.mem) (hpml4 : pml4 ≠ 0) (hroot : pml4 ∉ l.mem.allocator.available)
    (hroom : segmentRoom ≤ l.mem.allocator.available.length) (hw : Within image l') (hlt : ph.paddr < 2 ^ 64) :
    ph.Stops image.bytes.length ∨ (ph.Loadable → ph.NoWrap) ∧ result = .ok () ∧ Tidy l'.mem ∧
      pml4 ∉ l'.mem.allocator.available ∧
      l.mem.allocator.available.length ≤ l'.mem.allocator.available.length + segmentRoom := by
  have hbase : ph.pageStart % pageSize = 0 := Nat.mul_mod_left _ _
  cases h with
  | skip hload => exact .inr ⟨fun hc => absurd hc hload, rfl, ht, hroot, by omega⟩
  | stop line hs => exact .inl hs
  | failed line hload hpass hm =>
    -- for want of pages, when those of the window are all mapped
    obtain ⟨hok, -, hl⟩ := mapImagePages_eq hm
    have hmaps := length_imageMaps_le hbase ph.pageCount_le
      fun virt hv => hw.maps virt (hl ▸ List.mem_append_left _ hv)
    have hfew := (ht.mapImage hbase hpml4 ph.pageCount hroot).1 hok
    simp only [segmentRoom] at hroom
    omega
  | loaded hload hpass hm hz hc =>
    have hno := noWrap_of_loaded hload hz hc hw hlt
    have hout : ¬ ph.Outside := fun hc => hpass ⟨hload, .inr hc⟩
    rw [Elf64ProgramHeader.Outside, usize_of_lt hno.2, not_or, not_lt, not_lt] at hout
    obtain ⟨⟨-, hlo, hhi⟩, -, -⟩ := Elf64ProgramHeader.inImage hout.1 hout.2
    obtain ⟨hok, hmem₁, -⟩ := mapImagePages_eq hm
    obtain ⟨ht₁, hroot₁, hlen⟩ := (ht.mapImage hbase hpml4 ph.pageCount hroot).2 hok
    obtain ⟨-, hmem₂, -⟩ := records_storeRun hz
    obtain ⟨-, hmem₃, -⟩ := records_storeRun hc
    have hmem : l'.mem = (mapImagePagesFrom pml4 ph.pageStart 0 ph.pageCount l.mem).2 :=
      hmem₃.trans (hmem₂.trans hmem₁)
    have hcount : ph.pageCount ≤ 36352 := by
      simp only [pageSize, appLoadMin, appLoadMax] at hlo hhi
      omega
    rw [hmem]
    refine .inr ⟨fun _ => hno, rfl, ht₁, hroot₁, ?_⟩
    simp only [segmentRoom]
    omega

theorem Image.paddr_lt (image : Image) (i : ℕ) : (image.programHeader i).paddr < 2 ^ 64 :=
  image.field_lt _ 8

/-- **The program headers** of a load within the window and the image. -/
theorem noWrapFrom_of_within (n : ℕ) {index : ℕ} {l : Loading} {result : Except String ℕ} (ht : Tidy l.mem)
    (hpml4 : pml4 ≠ 0) (hroot : pml4 ∉ l.mem.allocator.available)
    (hroom : n * segmentRoom ≤ l.mem.allocator.available.length)
    (he : loadSegments image pml4 index n l = some (result, l')) (hw : Within image l') :
    image.NoWrapFrom index n := by
  induction n generalizing index l with
  | zero => trivial
  | succ n ih =>
    obtain ⟨⟨r, l₁⟩, he₁, he⟩ := Option.bind_eq_some_iff.mp he
    have hp := passes_of_loadSegment he₁
    have hw₁ : Within image l₁ := by
      cases r with
      | error line =>
        cases he
        exact hw
      | ok => exact hw.of_records (records_loadSegments n he).1
    rw [Nat.add_mul, Nat.one_mul] at hroom
    rcases hp.noWrap ht hpml4 hroot (Nat.le_of_add_left_le hroom) hw₁ (image.paddr_lt index) with
      hs | ⟨hno, hr, ht₁, hroot₁, hlen⟩
    · exact .inl hs
    · cases hr
      have hroom₁ : n * segmentRoom ≤ l₁.mem.allocator.available.length :=
        Nat.le_of_add_le_add_right (hroom.trans hlen)
      exact .inr ⟨hno, ih ht₁ hroot₁ hroom₁ he⟩

end Wraps

/-! ## A machine with pages enough -/

/-- The tables of a boot PML4 that has the tables of the first GiB, and maps nothing. -/
def bareTable (t i : ℕ) : ℕ :=
  if t = 0x1000 ∧ i = 0 then pageEntry 0x2000 presentWritable
  else if t = 0x2000 ∧ i = 0 then pageEntry 0x3000 presentWritable else 0

def bareMemory : Memory := { bootWith (2 ^ 38) with table := bareTable }

theorem bareTable_cases (t i : ℕ) : bareTable t i = 0 ∨ bareTable t i = pageEntry 0x2000 presentWritable ∨
    bareTable t i = pageEntry 0x3000 presentWritable := by
  unfold bareTable
  split_ifs
  · exact .inr (.inl rfl)
  · exact .inr (.inr rfl)
  · exact .inl rfl

theorem bareMemory_available : bareMemory.allocator.available = List.range' 0x10000 (2 ^ 38) 4096 := by
  have hcount : (0x10000 + 2 ^ 38 * pageSize - 0x10000 + (pageSize - 1)) / pageSize = 2 ^ 38 := by
    norm_num
  simp only [PhysPageAllocator.available, bareMemory, bootWith, List.flatMap_cons, List.flatMap_nil,
    List.append_nil, List.nil_append, PageRange.pages, hcount]

theorem le_of_mem_bareMemory {a : ℕ} (ha : a ∈ bareMemory.allocator.available) : 0x10000 ≤ a := by
  rw [bareMemory_available] at ha
  obtain ⟨k, -, rfl⟩ := List.mem_range'.mp ha
  omega

theorem bootOk_bareMemory : BootOk bareMemory := by
  have hb := bootOk_bootWith (by norm_num : 2 ^ 38 < 2 ^ 39)
  have hfirmware : ∀ (is : List ℕ) (t u : ℕ), t < 0x10000 → follow bareTable t is = some u → u < 0x10000 := by
    intro is
    induction is with
    | nil =>
      intro t u ht hf
      cases hf
      exact ht
    | cons i is ih =>
      intro t u ht hf
      obtain ⟨v, hv, hf⟩ := Option.bind_eq_some_iff.mp hf
      refine ih v u ?_ hf
      rcases bareTable_cases t i with he | he | he
      · rw [he, tableEntryAddress_zero] at hv
        cases hv
      · rw [he, IsPage.tableEntryAddress_pageEntry (by norm_num [IsPage, pageSize])] at hv
        cases hv
        norm_num
      · rw [he, IsPage.tableEntryAddress_pageEntry (by norm_num [IsPage, pageSize])] at hv
        cases hv
        norm_num
  refine ⟨rfl, hb.loose, hb.page, fun t ht ha => ?_, fun s hs => ?_⟩
  · obtain ⟨is, -, hf⟩ := ht
    exact absurd (hfirmware is _ t (by norm_num [bareMemory, bootWith, bootMemory]) hf)
      (not_lt.mpr (le_of_mem_bareMemory ha))
  · have hz : s ≠ 0 := hs.ne_zero
    change ¬ present (bareTable 0x1000 s)
    simp [bareTable, hz]

theorem tidy_bareMemory : Tidy bareMemory := by
  have hb := bootOk_bareMemory
  refine ⟨fun t i => ?_, fun t i hp ha => ?_, hb.loose, hb.page⟩
  · change ¬ huge (bareTable t i)
    rcases bareTable_cases t i with he | he | he <;> rw [he]
    · exact not_huge_zero
    · exact not_huge_pageEntry _
    · exact not_huge_pageEntry _
  · have hle := le_of_mem_bareMemory ha
    change present (bareTable t i) at hp
    change 0x10000 ≤ pageAddress (bareTable t i) at hle
    rcases bareTable_cases t i with he | he | he
    · rw [he] at hp
      exact not_present_zero hp
    · rw [he] at hle
      exact absurd hle (by decide)
    · rw [he] at hle
      exact absurd hle (by decide)

/-- **A machine on which every image could be loaded.** -/
theorem exists_bare : ∃ s pml4, Reach (MemInit bareMemory) (OwnAct 16384) memStep s ∧
    s.space 1 = some pml4 ∧ Tidy s.mem ∧ pml4 ≠ 0 ∧ pml4 ∉ s.mem.allocator.available ∧
      2 ^ 16 * segmentRoom ≤ s.mem.allocator.available.length := by
  have hrun : (createProcessAddressSpace 1 bareMemory).1.isSome = true := by decide +kernel
  rcases hc : createProcessAddressSpace 1 bareMemory with ⟨_ | pml4, mem'⟩
  · rw [hc] at hrun
    cases hrun
  have hk : bareMemory.kernelPml4 ∉ bareMemory.allocator.available := fun hc =>
    absurd (le_of_mem_bareMemory hc) (by decide)
  obtain ⟨ht, hpage, hfree, hlen⟩ := tidy_bareMemory.create hk hc
  have hstep : memStep ⟨bareMemory, fun _ => none, fun _ => false, []⟩ (.create 1) =
      some ⟨mem', Function.update (fun _ => none) 1 (some pml4), fun _ => false, [1]⟩ := by
    rw [memStep, if_neg List.not_mem_nil]
    dsimp only
    rw [hc]
  have hgood : OwnAct 16384 ⟨bareMemory, fun _ => none, fun _ => false, []⟩ (.create 1) := by
    exact ⟨by decide, trivial⟩
  refine ⟨_, pml4, .next (.start rfl) hgood hstep, ?_, ht, hpage.2.1.ne', hfree, ?_⟩
  · change Function.update (fun _ => none) 1 (some pml4) 1 = some pml4
    rw [Function.update_self]
  · rw [bareMemory_available, List.length_range'] at hlen
    simp only [segmentRoom]
    omega

/-! ## The images that are loaded safely -/

variable {image : Image}

/-- **An image that is loaded safely has no sum that wraps.** -/
theorem noWrap_of_loadsSafely (h : LoadsSafely image) : image.NoWrap := by
  obtain ⟨s, pml4, hreach, hspace, ht, hpml4, hroot, hroom⟩ := exists_bare
  obtain ⟨result, l', he, hsafe⟩ := h bareMemory s 1 pml4 (fun _ => 0) bootOk_bareMemory hreach hspace
  rw [loadProgramElfIsolated] at he
  by_cases hlen : image.bytes.length < elfHeaderSize
  · exact .inl hlen
  rw [if_neg hlen] at he
  by_cases huns : image.header.Unsupported
  · exact .inr (.inl huns)
  rw [if_neg huns] at he
  by_cases hbad : image.header.BadProgramHeaders image.bytes.length
  · exact .inr (.inr (.inl hbad))
  rw [if_neg hbad] at he
  obtain ⟨hphoff, -, hphnum⟩ := image.header_lt
  refine .inr (.inr (.inr ⟨?_, ?_⟩))
  · -- the first program header would be read beyond the image
    by_contra hwrap
    have htable := image.table_lt
    have hpos : 0 < image.header.phnum := by
      by_contra hz
      rw [Nat.eq_zero_of_not_pos hz, Nat.mul_zero] at hwrap
      omega
    have hread := hsafe.within.reads _ ((records_loadSegments _ he).2 hpos)
    have hsmall := image.small
    have hoff : image.programHeaderOffset 0 = image.header.phoff := by
      rw [Image.programHeaderOffset, Nat.zero_mul, usize_of_lt (by norm_num : 0 < 2 ^ 64), Nat.add_zero,
        usize_of_lt hphoff]
    rw [hoff] at hread
    dsimp only at hread
    omega
  · refine noWrapFrom_of_within _ ht hpml4 hroot ?_ he hsafe.within
    exact (Nat.mul_le_mul_right segmentRoom hphnum.le).trans hroom

/-- **The images that are loaded safely** are those of which no sum wraps that lets the loader pass a check. -/
theorem loadsSafely_iff (image : Image) : LoadsSafely image ↔ image.NoWrap :=
  ⟨noWrap_of_loadsSafely, loadsSafely_of_noWrap⟩

/-- The header of an image with one program header, at `phoff`. -/
def headerAt (phoff : ℕ) : List UInt8 :=
  elfMagic ++ [2, 1, 1] ++ List.replicate 9 0 ++ leBytes 2 2 ++ leBytes 2 0x3E ++ leBytes 4 1 ++
    leBytes 8 appLoadMin ++ leBytes 8 phoff ++ List.replicate 14 0 ++ leBytes 2 56 ++ leBytes 2 1 ++
      List.replicate 6 0

/-- Three bytes at `0x200010`, and two zero ones. -/
def smallImage : Image where
  bytes := headerAt 64 ++ leBytes 4 ptLoad ++ List.replicate 4 0 ++ leBytes 8 120 ++ List.replicate 8 0 ++
    leBytes 8 0x200010 ++ leBytes 8 3 ++ leBytes 8 5 ++ List.replicate 8 0 ++ [7, 8, 9]
  around _ := 0
  small := by decide +kernel

example : smallImage.NoWrap := by decide +kernel

/-- The program header is 56 bytes before the image. -/
def headerBefore : Image where
  bytes := headerAt (2 ^ 64 - 56)
  around _ := 0
  small := by decide +kernel

/-- **The loader reads a program header before the image**, as its end is compared after it has wrapped. -/
theorem not_loadsSafely_headerBefore : ¬ LoadsSafely headerBefore := by
  have hwrap : ¬ headerBefore.NoWrap := by decide +kernel
  exact fun h => hwrap (noWrap_of_loadsSafely h)

end Rymos
