import Mathlib.Tactic
import Rymos.Mem.Loader

/-!
# What a load leaves behind

* `Loading.look`: the byte at an address with the private PML4 active. **`MemInv.oneToOne`**: addresses of the
  image window are different bytes of memory.
* `LoadState`, `Loads`: the layout during a load, and what a part of a load does.
* **`LoadState.mapImagePages`**, **`LoadState.storeRun`**, **`LoadState.segment`**: the steps.
-/

namespace Rymos

open TableTree Through

/-- The byte at an address, with the PML4 active. -/
def Loading.look (pml4 : ℕ) (l : Loading) (virt : ℕ) : Option UInt8 :=
  Through.look (translate l.mem.table pml4) l.bytes virt

section Window

variable {boot mem mem' : Memory} {kept : Set ℕ} {seen : ℕ → Set ℕ} {F F' : Layout (Option ℕ) ℕ ℕ}
  {hand : List ℕ} {pid pml4 virt x : ℕ}

/-- The page of an address of the image window. -/
theorem MemInv.frameOf_translate (h : MemInv boot kept seen F hand mem) (hr : F (some pid) [] = some pml4)
    (hv : InImageWindow virt) (hx : Rymos.translate mem.table pml4 virt = some x) :
    F (some pid) (pathOf virt) = some (frameOf x) ∧ x = frameOf x + virt % pageSize := by
  rw [h.translate hr (hv.ownedPath pid)] at hx
  obtain ⟨a, ha, rfl⟩ := Option.map_eq_some_iff.mp hx
  have hpage := (h.placed ha).1.1
  have he : frameOf (a + virt % pageSize) = a := by
    simp only [frameOf, pageSize] at hpage ⊢
    omega
  rw [he]
  exact ⟨ha, rfl⟩

/-- **Addresses of the image window are different bytes.** -/
theorem MemInv.oneToOne (h : MemInv boot kept seen F hand mem) (hr : F (some pid) [] = some pml4) :
    OneToOne (Rymos.translate mem.table pml4) {virt | InImageWindow virt} := by
  intro v hv w hw x hx hy
  obtain ⟨hv', hxv⟩ := h.frameOf_translate hr hv hx
  obtain ⟨hw', hxw⟩ := h.frameOf_translate hr hw hy
  have hpath := (h.lays.inj hv' hw').2
  simp only [pathOf, List.cons.injEq, ptIndex, pdIndex, and_true] at hpath
  simp only [Set.mem_ofPred_eq, InImageWindow, appLoadMin, appLoadMax] at hv hw
  simp only [pageSize] at hxv hxw
  omega

/-- What is mapped in the window stays where it is. -/
theorem MemInv.translate_grows (h : MemInv boot kept seen F hand mem)
    (h' : MemInv boot kept seen F' hand mem') {P : Option ℕ → List ℕ → Prop} (hg : Layout.Grows P F F')
    (hr : F (some pid) [] = some pml4) (hv : InImageWindow virt)
    (hx : Rymos.translate mem.table pml4 virt = some x) :
    Rymos.translate mem'.table pml4 virt = some x := by
  obtain ⟨ha, hxv⟩ := h.frameOf_translate hr hv hx
  rw [h'.translate (hg.some hr) (hv.ownedPath pid), hg.some ha, Option.map_some, ← hxv]

end Window

/-! ## Parts of a load -/

/-- The layout during a load for a pid. -/
structure LoadState (boot : Memory) (kept : Set ℕ) (seen : ℕ → Set ℕ) (pid pml4 : ℕ)
    (F : Layout (Option ℕ) ℕ ℕ) (l : Loading) : Prop where
  inv : MemInv boot kept seen F [] l.mem
  root : F (some pid) [] = some pml4

/-- What a part of a load does: it reads the image, maps and writes in the window, and changes nothing but the
tables and the pages of the window and pages that were free. -/
structure Loads (pid pml4 : ℕ) (image : Image) (F F' : Layout (Option ℕ) ℕ ℕ) (l l' : Loading) : Prop where
  grows : Layout.Grows (fun r _ => r = some pid) F F'
  wrote : Wrote (fun q => ∃ virt, InImageWindow virt ∧ q <:+ pathOf virt) (some pid) F' l.mem l'.mem
  reads : ∀ p ∈ l'.reads, p ∈ l.reads ∨ p.1 + p.2 ≤ image.bytes.length
  maps : ∀ virt ∈ l'.maps, virt ∈ l.maps ∨ InImageWindow virt
  stores : ∀ virt ∈ l'.stores, virt ∈ l.stores ∨ InImageWindow virt
  bytes : ∀ x, l'.bytes x ≠ l.bytes x → frameOf x ∈ l.mem.allocator.available ∨
    ∃ virt, InImageWindow virt ∧ translate l'.mem.table pml4 virt = some x

section Loads

variable {boot : Memory} {kept : Set ℕ} {seen : ℕ → Set ℕ} {F F' F'' : Layout (Option ℕ) ℕ ℕ}
  {pid pml4 base n : ℕ} {image : Image} {l l' l'' : Loading} {value : ℕ → UInt8}

theorem Loads.refl (pid pml4 : ℕ) (image : Image) (F : Layout (Option ℕ) ℕ ℕ) (l : Loading) :
    Loads pid pml4 image F F l l where
  grows := Layout.Grows.refl _ _
  wrote := .refl _ _ _ _
  reads _ := .inl
  maps _ := .inl
  stores _ := .inl
  bytes _ h := absurd rfl h

theorem LoadState.trans (h' : LoadState boot kept seen pid pml4 F' l')
    (h'' : LoadState boot kept seen pid pml4 F'' l'') (hl : Loads pid pml4 image F F' l l')
    (hl' : Loads pid pml4 image F' F'' l' l'') : Loads pid pml4 image F F'' l l'' where
  grows := hl.grows.trans hl'.grows
  wrote := hl.wrote.trans hl'.grows hl'.wrote
  reads p hp := (hl'.reads p hp).elim (hl.reads p) .inr
  maps v hv := (hl'.maps v hv).elim (hl.maps v) .inr
  stores v hv := (hl'.stores v hv).elim (hl.stores v) .inr
  bytes x hx := by
    by_cases hc : l''.bytes x = l'.bytes x
    · rw [hc] at hx
      rcases hl.bytes x hx with hav | ⟨v, hv, ht⟩
      · exact .inl hav
      · exact .inr ⟨v, hv, h'.inv.translate_grows h''.inv hl'.grows h'.root hv ht⟩
    · exact (hl'.bytes x hc).imp_left fun hav => hl.wrote.taken hav

/-- A part of the image is read. -/
theorem LoadState.read (h : LoadState boot kept seen pid pml4 F l) {offset length : ℕ}
    (hin : offset + length ≤ image.bytes.length) :
    LoadState boot kept seen pid pml4 F (l.read offset length) ∧
      Loads pid pml4 image F F l (l.read offset length) := by
  refine ⟨⟨h.inv, h.root⟩, Layout.Grows.refl _ _, .refl _ _ _ _, fun p hp => ?_, fun _ => .inl,
    fun _ => .inl, fun _ hx => absurd rfl hx⟩
  rcases List.mem_cons.mp hp with rfl | hp
  · exact .inr hin
  · exact .inl hp

/-! ## Mapping -/

/-- The pages mapped are pages of the range. -/
theorem mem_imageMaps (n : ℕ) {index : ℕ} {mem : Memory} {virt : ℕ}
    (hv : virt ∈ imageMaps pml4 base index n mem) : virt ∈ pagesFrom base index n := by
  induction n generalizing index mem with
  | zero => cases hv
  | succ n ih =>
    rw [pagesFrom_succ]
    rw [imageMaps] at hv
    split_ifs at hv with hm
    · exact Set.mem_insert_of_mem _ (ih hv)
    · rcases ha : allocZeroedPage mem with ⟨_ | phys, mem₁⟩
      · rw [ha] at hv
        cases hv
      · rw [ha] at hv
        dsimp only at hv
        rcases hp : mapPage pml4 (pageVirt base index) phys presentWritable mem₁ with ⟨_ | _, mem₂⟩
        · rw [hp] at hv
          cases hv
        · rw [hp] at hv
          rcases List.mem_cons.mp hv with rfl | hv
          · exact Set.mem_insert _ _
          · exact Set.mem_insert_of_mem _ (ih hv)

/-- The page of an address in a range of pages is one of the range. -/
theorem InImage.page_mem (h : InImage base n) {virt : ℕ} (hlo : base ≤ virt)
    (hhi : virt < base + n * pageSize) :
    ∃ page ∈ pagesFrom base 0 n, pathOf page = pathOf virt := by
  obtain ⟨hb, hmin, hmax⟩ := h
  simp only [pageSize, appLoadMin, appLoadMax] at *
  refine ⟨_, ⟨(virt - base) / 4096, Nat.zero_le _, by omega, rfl⟩, ?_⟩
  simp only [pathOf, pageVirt, pageSize, ptIndex, pdIndex, pdptIndex, pml4Index, List.cons.injEq,
    and_true]
  omega

/-- **`map_image_pages`** for a range of the window. -/
theorem LoadState.mapImagePages (h : LoadState boot kept seen pid pml4 F l) (hb : InImage base n)
    (image : Image) : ∃ F', LoadState boot kept seen pid pml4 F' (l.mapImagePages pml4 base n).2 ∧
      Loads pid pml4 image F F' l (l.mapImagePages pml4 base n).2 ∧
      ((l.mapImagePages pml4 base n).1 = true → ∀ virt, base ≤ virt → virt < base + n * pageSize →
        translate (l.mapImagePages pml4 base n).2.mem.table pml4 virt ≠ none) ∧
      ∀ virt b, InImageWindow virt → l.look pml4 virt = some b →
        (l.mapImagePages pml4 base n).2.look pml4 virt = some b := by
  obtain ⟨F', h', hi⟩ := h.inv.mapImage hb.1 n h.root fun virt hv =>
    ownedPath_image (hb.bounds hv).1 (hb.bounds hv).2
  have hg : Layout.Grows (fun r _ => r = some pid) F F' := hi.grows.mono fun r q hq =>
    hq.elim And.left And.left
  have hst : LoadState boot kept seen pid pml4 F' (l.mapImagePages pml4 base n).2 :=
    ⟨h', hg.some h.root⟩
  refine ⟨F', hst, ⟨hg, ?_, fun _ => .inl, fun v hv => ?_, fun _ => .inl, fun x hx => ?_⟩,
    fun hok v hlo hhi => ?_, fun v b hv hb' => ?_⟩
  · exact hi.wrote.mono fun q hq => hq.imp fun v hv => ⟨hb.bounds hv.1, hv.2⟩
  · rcases List.mem_append.mp hv with hv | hv
    · exact .inr (hb.bounds (mem_imageMaps n hv))
    · exact .inl hv
  · by_cases hc : frameOf x ∈ l.mem.allocator.available
    · exact .inl hc
    · exact absurd (if_neg fun hc' => hc hc'.1) hx
  · obtain ⟨page, hp, hpath⟩ := hb.page_mem hlo hhi
    have hin : InImageWindow v := by
      obtain ⟨-, hmin, hmax⟩ := hb
      exact ⟨hmin.trans hlo, hhi.trans_le hmax⟩
    have hthere := hi.there hok page hp
    rw [hpath] at hthere
    rw [hst.inv.translate hst.root (hin.ownedPath pid), Ne, Option.map_eq_none_iff]
    exact hthere
  · obtain ⟨x, hx, rfl⟩ := Option.map_eq_some_iff.mp hb'
    have hx' := h.inv.translate_grows h' hg h.root hv hx
    obtain ⟨ha, -⟩ := h.inv.frameOf_translate h.root hv hx
    have hfree : frameOf x ∉ l.mem.allocator.available := by
      have := (h.inv.placed ha).2
      rwa [List.append_nil] at this
    rw [Loading.look, Through.look]
    change (translate (mapImagePagesFrom pml4 base 0 n l.mem).2.table pml4 v).map _ = _
    rw [hx', Option.map_some]
    exact congrArg some (if_neg fun hc => hfree hc.1)

/-! ## Writing -/

/-- **Bytes written** to addresses of the window that are mapped. -/
theorem LoadState.storeRun (h : LoadState boot kept seen pid pml4 F l) (value : ℕ → UInt8)
    (hlo : appLoadMin ≤ base) (hhi : base + n ≤ appLoadMax)
    (hmap : ∀ virt, base ≤ virt → virt < base + n → translate l.mem.table pml4 virt ≠ none)
    (image : Image) : ∃ l', l.storeRun pml4 base n value = some l' ∧ l'.mem = l.mem ∧
      Loads pid pml4 image F F l l' ∧ (∀ k < n, l'.look pml4 (base + k) = some (value k)) ∧
      ∀ virt, InImageWindow virt → ¬ (base ≤ virt ∧ virt < base + n) →
        l'.look pml4 virt = l.look pml4 virt := by
  have haddr : ∀ k < n, usize (base + k) = base + k := by
    intro k hk
    simp only [appLoadMax] at hhi
    exact Nat.mod_eq_of_lt (by omega)
  have hwin : ∀ k < n, InImageWindow (usize (base + k)) := by
    intro k hk
    rw [haddr k hk]
    exact ⟨by omega, by omega⟩
  have hin : ∀ k, 0 ≤ k → k < 0 + n → usize (base + k) ∈ {virt | InImageWindow virt} ∧
      translate l.mem.table pml4 (usize (base + k)) ≠ none := by
    intro k _ hk
    refine ⟨hwin k (by omega), ?_⟩
    rw [haddr k (by omega)]
    exact hmap _ (by omega) (by omega)
  have hne : ∀ i j, 0 ≤ i → i < j → j < 0 + n → usize (base + i) ≠ usize (base + j) := by
    intro i j _ hij hj
    rw [haddr i (by omega), haddr j (by omega)]
    omega
  obtain ⟨bytes, he, hrun⟩ := putRun_spec (h.inv.oneToOne h.root) value n l.bytes hin hne
  refine ⟨{ l with
    bytes := bytes
    stores := (List.range n).map (fun k => usize (base + k)) ++ l.stores }, ?_, rfl, ?_, ?_, ?_⟩
  · rw [Loading.storeRun]
    exact congrArg (Option.map _) he
  · refine ⟨Layout.Grows.refl _ _, .refl _ _ _ _, fun _ => .inl, fun _ => .inl, fun v hv => ?_,
      fun x hx => ?_⟩
    · rcases List.mem_append.mp hv with hv | hv
      · obtain ⟨k, hk, rfl⟩ := List.mem_map.mp hv
        exact .inr (hwin k (List.mem_range.mp hk))
      · exact .inl hv
    · obtain ⟨k, -, hk, ht⟩ := hrun.kept x hx
      exact .inr ⟨_, hwin k (by omega), ht⟩
  · intro k hk
    have hs := hrun.stored k (Nat.zero_le _) (by omega)
    rwa [haddr k hk] at hs
  · intro v hv hout
    refine hrun.others v hv fun k _ hk he => hout ?_
    rw [haddr k (by omega)] at he
    omega

end Loads

/-! ## Segments -/

/-- The segment covers an address, and the loader does not skip it. -/
def Elf64ProgramHeader.Covers (ph : Elf64ProgramHeader) (virt : ℕ) : Prop :=
  ph.Loadable ∧ ph.paddr ≤ virt ∧ virt < ph.paddr + ph.memsz

/-- The segment is in the window as the image has it, but for the addresses in `later`. -/
structure SegmentLoaded (image : Image) (pml4 : ℕ) (ph : Elf64ProgramHeader) (l : Loading)
    (later : ℕ → Prop) : Prop where
  filesz : ph.filesz ≤ ph.memsz
  window : appLoadMin ≤ ph.paddr ∧ ph.paddr + ph.memsz ≤ appLoadMax
  content : ∀ k < ph.memsz, ¬ later (ph.paddr + k) →
    l.look pml4 (ph.paddr + k) = some (if k < ph.filesz then image.read (ph.offset + k) else 0)

/-- The loader stops at this header before it maps anything. -/
def Elf64ProgramHeader.Stops (ph : Elf64ProgramHeader) (length : ℕ) : Prop :=
  ph.Loadable ∧ (ph.BadLoad length ∨ ph.Outside)

/-- The sums that the loader checks do not wrap. -/
def Elf64ProgramHeader.NoWrap (ph : Elf64ProgramHeader) : Prop :=
  ph.offset + ph.filesz < 2 ^ 64 ∧ ph.paddr + ph.memsz < 2 ^ 64

/-- None of the program headers `index` to `index + n` wraps, up to one that the loader stops at. -/
def Image.NoWrapFrom (image : Image) : ℕ → ℕ → Prop
  | _, 0 => True
  | index, n + 1 => (image.programHeader index).Stops image.bytes.length ∨
      ((image.programHeader index).Loadable → (image.programHeader index).NoWrap) ∧
        image.NoWrapFrom (index + 1) n

instance (ph : Elf64ProgramHeader) (length : ℕ) : Decidable (ph.Stops length) :=
  inferInstanceAs (Decidable (_ ∧ _))

instance (ph : Elf64ProgramHeader) : Decidable ph.NoWrap := inferInstanceAs (Decidable (_ ∧ _))

instance Image.decidableNoWrapFrom (image : Image) : (index n : ℕ) → Decidable (image.NoWrapFrom index n)
  | _, 0 => inferInstanceAs (Decidable True)
  | index, n + 1 =>
    have := image.decidableNoWrapFrom (index + 1) n
    inferInstanceAs (Decidable (_ ∨ (_ → _) ∧ _))

section Segments

variable {boot : Memory} {kept : Set ℕ} {seen : ℕ → Set ℕ} {F : Layout (Option ℕ) ℕ ℕ}
  {pid pml4 : ℕ} {image : Image} {ph : Elf64ProgramHeader} {l : Loading}

/-- The pages of a segment in the window. -/
theorem Elf64ProgramHeader.inImage (hlo : appLoadMin ≤ ph.paddr)
    (hhi : ph.paddr + ph.memsz ≤ appLoadMax) : InImage ph.pageStart ph.pageCount ∧
      ph.pageStart ≤ ph.paddr ∧ ph.paddr + ph.memsz ≤ ph.pageStart + ph.pageCount * pageSize := by
  have hend : ph.pageEnd = (ph.paddr + ph.memsz + 4095) / 4096 * 4096 := by
    rw [pageEnd, usize_of_lt]
    · rfl
    · simp only [appLoadMax, pageSize] at *
      omega
  have hcount : ph.pageCount =
      ((ph.paddr + ph.memsz + 4095) / 4096 * 4096 - ph.paddr / 4096 * 4096) / 4096 := by
    rw [pageCount, hend, pageStart]
    simp only [usize, appLoadMin, appLoadMax, pageSize] at *
    omega
  rw [InImage, hcount, pageStart]
  simp only [pageSize, appLoadMin, appLoadMax] at *
  omega

/-- **A segment** that passes the checks, and whose sums do not wrap. -/
theorem LoadState.segment (h : LoadState boot kept seen pid pml4 F l) (hlo : appLoadMin ≤ ph.paddr)
    (hhi : ph.paddr + ph.memsz ≤ appLoadMax) (hsz : ph.filesz ≤ ph.memsz)
    (hin : ph.offset + ph.filesz ≤ image.bytes.length) {ok : Bool} {l₁ : Loading}
    (he : l.mapImagePages pml4 ph.pageStart ph.pageCount = (ok, l₁)) :
    ∃ F', LoadState boot kept seen pid pml4 F' l₁ ∧ Loads pid pml4 image F F' l l₁ ∧
      (∀ virt b, InImageWindow virt → l.look pml4 virt = some b → l₁.look pml4 virt = some b) ∧
      (ok = true → ∃ l₂ l₃, zeroBytes pml4 ph.paddr ph.memsz l₁ = some l₂ ∧
        copyNonoverlapping image pml4 ph.offset ph.paddr ph.filesz l₂ = some l₃ ∧
        LoadState boot kept seen pid pml4 F' l₃ ∧ Loads pid pml4 image F F' l l₃ ∧
        SegmentLoaded image pml4 ph l₃ (fun _ => False) ∧
        ∀ virt b, InImageWindow virt → ¬ (ph.paddr ≤ virt ∧ virt < ph.paddr + ph.memsz) →
          l.look pml4 virt = some b → l₃.look pml4 virt = some b) := by
  obtain ⟨hb, hstart, hend⟩ := Elf64ProgramHeader.inImage hlo hhi
  obtain ⟨F', h₁, hl₁, hmap, hkeep⟩ := h.mapImagePages hb image
  rw [he] at h₁ hl₁ hmap hkeep
  refine ⟨F', h₁, hl₁, hkeep, fun hok => ?_⟩
  have hmap₁ : ∀ v, ph.paddr ≤ v → v < ph.paddr + ph.memsz →
      translate l₁.mem.table pml4 v ≠ none :=
    fun v hv hv' => hmap hok v (hstart.trans hv) (hv'.trans_le hend)
  -- the whole of the segment is cleared, and then its first bytes are copied
  obtain ⟨l₂, he₂, hmem₂, hl₂, hzero, hother₂⟩ :=
    h₁.storeRun (fun _ => 0) hlo hhi hmap₁ image
  have h₂ : LoadState boot kept seen pid pml4 F' l₂ := ⟨hmem₂ ▸ h₁.inv, h₁.root⟩
  obtain ⟨h₂', hl₂'⟩ := h₂.read hin
  obtain ⟨l₃, he₃, hmem₃, hl₃, hcopy, hother₃⟩ :=
    h₂'.storeRun (fun k => image.read (ph.offset + k)) (n := ph.filesz) hlo (by omega)
      (fun v hv hv' => by
        change translate l₂.mem.table pml4 v ≠ none
        rw [hmem₂]
        exact hmap₁ v hv (by omega)) image
  have h₃ : LoadState boot kept seen pid pml4 F' l₃ := ⟨hmem₃ ▸ h₂'.inv, h₂'.root⟩
  have hl₃' := h₂.trans h₃ (h₁.trans h₂ hl₁ hl₂) (h₂'.trans h₃ hl₂' hl₃)
  have hwin : ∀ k < ph.memsz, InImageWindow (ph.paddr + k) := by
    intro k hk
    exact ⟨by omega, by omega⟩
  refine ⟨l₂, l₃, he₂, he₃, h₃, hl₃', ⟨hsz, ⟨hlo, hhi⟩, fun k hk _ => ?_⟩, fun v b hv hout hlook => ?_⟩
  · by_cases hkf : k < ph.filesz
    · rw [if_pos hkf]
      exact hcopy k hkf
    · rw [if_neg hkf, hother₃ _ (hwin k hk) (by omega)]
      exact hzero k hk
  · rw [hother₃ v hv (by omega)]
    change l₂.look pml4 v = some b
    rw [hother₂ v hv hout]
    exact hkeep v b hv hlook

/-- What one program header does: what its segment does not cover stays, and the segment is as the image has it. -/
structure LoadsSegment (image : Image) (pml4 : ℕ) (ph : Elf64ProgramHeader) (l l' : Loading)
    (result : Except String Unit) : Prop where
  kept : ∀ virt b, InImageWindow virt → l.look pml4 virt = some b → ¬ ph.Covers virt →
    l'.look pml4 virt = some b
  loaded : result = .ok () → ph.Loadable → SegmentLoaded image pml4 ph l' fun _ => False
  stops : ph.Stops image.bytes.length → result ≠ .ok ()

/-- **One program header**, if its sums do not wrap. -/
theorem LoadState.loadSegment (h : LoadState boot kept seen pid pml4 F l) {index : ℕ}
    (hw : (image.programHeader index).Stops image.bytes.length ∨
      ((image.programHeader index).Loadable → (image.programHeader index).NoWrap))
    (hin : image.programHeaderOffset index + elfProgramHeaderSize ≤ image.bytes.length) :
    ∃ result l' F', Rymos.loadSegment image pml4 index l = some (result, l') ∧
      LoadState boot kept seen pid pml4 F' l' ∧ Loads pid pml4 image F F' l l' ∧
      LoadsSegment image pml4 (image.programHeader index) l l' result := by
  obtain ⟨h₀, hl₀⟩ := h.read hin
  rw [Rymos.loadSegment]
  generalize image.programHeader index = ph at hw ⊢
  -- the loader says no before it has changed anything
  have hstop (line : String) : LoadsSegment image pml4 ph l
      (l.read (image.programHeaderOffset index) elfProgramHeaderSize) (.error line) := by
    refine ⟨fun _ _ _ hb _ => hb, fun he => ?_, fun _ he => ?_⟩ <;> cases he
  by_cases hload : ph.Loadable
  · rw [if_neg (not_not.mpr hload)]
    by_cases hbad : ph.BadLoad image.bytes.length
    · rw [if_pos hbad]
      exact ⟨_, _, F, rfl, h₀, hl₀, hstop _⟩
    by_cases hout : ph.Outside
    · rw [if_neg hbad, if_pos hout]
      exact ⟨_, _, F, rfl, h₀, hl₀, hstop _⟩
    rw [if_neg hbad, if_neg hout]
    have hpass : ¬ ph.Stops image.bytes.length := fun hs => hs.2.elim hbad hout
    obtain ⟨hoff, hpaddr⟩ := hw.resolve_left hpass hload
    simp only [Elf64ProgramHeader.BadLoad, Elf64ProgramHeader.Outside, not_or, not_lt,
      usize_of_lt hoff, usize_of_lt hpaddr] at hbad hout
    rcases he : (l.read (image.programHeaderOffset index) elfProgramHeaderSize).mapImagePages pml4
      ph.pageStart ph.pageCount with ⟨ok, l₁⟩
    obtain ⟨F', h₁, hl₁, hkeep, hok⟩ := h₀.segment hout.1 hout.2 hbad.2 hbad.1 he
    cases ok with
    | false =>
      refine ⟨_, _, F', rfl, h₁, h₀.trans h₁ hl₀ hl₁, fun v b hv hb _ => hkeep v b hv hb, fun hc => ?_,
        fun _ hc => ?_⟩ <;> cases hc
    | true =>
      obtain ⟨l₂, l₃, he₂, he₃, h₃, hl₃, hseg, hkeep₃⟩ := hok rfl
      refine ⟨.ok (), l₃, F', ?_, h₃, h₀.trans h₃ hl₀ hl₃, ?_, fun _ _ => hseg, fun hs => absurd hs hpass⟩
      · dsimp only
        rw [he₂, Option.bind_some, he₃, Option.map_some]
      · intro v b hv hb hcov
        exact hkeep₃ v b hv (fun hc => hcov ⟨hload, hc⟩) hb
  · rw [if_pos hload]
    exact ⟨_, _, F, rfl, h₀, hl₀, fun _ _ _ hb _ => hb, fun _ hc => absurd hc hload,
      fun hs => absurd hs.1 hload⟩

/-- What the program headers `index` to `index + n` do: what they do not cover stays, and if all are loaded,
each segment is as the image has it, but where a later one covers it. -/
structure LoadsSegments (image : Image) (pml4 index n : ℕ) (l l' : Loading) (result : Except String ℕ) :
    Prop where
  kept : ∀ virt b, InImageWindow virt → l.look pml4 virt = some b →
    (∀ i, index ≤ i → i < index + n → ¬ (image.programHeader i).Covers virt) →
      l'.look pml4 virt = some b
  loaded : ∀ entry, result = .ok entry → entry = image.header.entry ∧
    ∀ i, index ≤ i → i < index + n → (image.programHeader i).Loadable →
      SegmentLoaded image pml4 (image.programHeader i) l' fun virt =>
        ∃ j, i < j ∧ j < index + n ∧ (image.programHeader j).Covers virt

/-- The first header stops the load. -/
theorem LoadsSegment.stop {index n : ℕ} {l l' : Loading} {line : String} {result : Except String Unit}
    (h : LoadsSegment image pml4 (image.programHeader index) l l' result) :
    LoadsSegments image pml4 index (n + 1) l l' (.error line) where
  kept virt b hv hb hc := h.kept virt b hv hb (hc index le_rfl (by omega))
  loaded _ he := by cases he

/-- A header loaded, and those after it. -/
theorem LoadsSegments.cons {index n : ℕ} {l l₁ l' : Loading} {result : Except String ℕ}
    (h : LoadsSegments image pml4 (index + 1) n l₁ l' result)
    (h₁ : LoadsSegment image pml4 (image.programHeader index) l l₁ (.ok ())) :
    LoadsSegments image pml4 index (n + 1) l l' result where
  kept virt b hv hb hc := by
    have hb₁ := h₁.kept virt b hv hb (hc index le_rfl (by omega))
    exact h.kept virt b hv hb₁ fun i hi hi' => hc i (by omega) (by omega)
  loaded entry he := by
    obtain ⟨hentry, hall⟩ := h.loaded entry he
    have hend : index + 1 + n = index + (n + 1) := by omega
    refine ⟨hentry, fun i hi hi' hload => ?_⟩
    rcases Nat.eq_or_lt_of_le hi with rfl | hlt
    · have hseg := h₁.loaded rfl hload
      refine ⟨hseg.filesz, hseg.window, fun k hk hlater => ?_⟩
      obtain ⟨hlo, hhi⟩ := hseg.window
      refine h.kept _ _ ⟨by omega, by omega⟩ (hseg.content k hk id) fun j hj hj' hcov => ?_
      exact hlater ⟨j, hj, by omega, hcov⟩
    · have hs := hall i hlt (by omega) hload
      rwa [hend] at hs

/-- **The program headers**, if none of their sums wraps. -/
theorem LoadState.loadSegments (n : ℕ) {index : ℕ} {F : Layout (Option ℕ) ℕ ℕ} {l : Loading}
    (h : LoadState boot kept seen pid pml4 F l) (hw : image.NoWrapFrom index n)
    (hin : ∀ i, index ≤ i → i < index + n →
      image.programHeaderOffset i + elfProgramHeaderSize ≤ image.bytes.length) :
    ∃ result l' F', Rymos.loadSegments image pml4 index n l = some (result, l') ∧
      LoadState boot kept seen pid pml4 F' l' ∧ Loads pid pml4 image F F' l l' ∧
      LoadsSegments image pml4 index n l l' result := by
  induction n generalizing index F l with
  | zero =>
    refine ⟨_, l, F, rfl, h, .refl _ _ _ _ _, fun _ _ _ hb _ => hb, fun entry he => ?_⟩
    refine ⟨(Except.ok.inj he).symm, ?_⟩
    intro i hi hi'
    omega
  | succ n ih =>
    rw [Image.NoWrapFrom] at hw
    obtain ⟨result, l₁, F₁, he, h₁, hl₁, hs₁⟩ :=
      h.loadSegment (hw.imp_right And.left) (hin index le_rfl (by omega))
    rw [Rymos.loadSegments, he, Option.bind_some]
    cases result with
    | error line => exact ⟨_, l₁, F₁, rfl, h₁, hl₁, hs₁.stop⟩
    | ok =>
      have hpass : ¬ (image.programHeader index).Stops image.bytes.length := fun hs => hs₁.stops hs rfl
      obtain ⟨result, l', F', he', h', hl', hs'⟩ := ih h₁ (hw.resolve_left hpass).2
        fun i hi hi' => hin i (by omega) (by omega)
      exact ⟨result, l', F', he', h', h₁.trans h' hl₁ hl', hs'.cons hs₁⟩

end Segments

end Rymos
