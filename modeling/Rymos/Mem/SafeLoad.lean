import Mathlib.Tactic
import Rymos.Mem.Loaded
import Rymos.Mem.Walk

/-!
# Loads that are safe

* `SafeLoad`, `LoadsSafely`: what is asked of a load, and of an image in every state reached.
* `Image.NoWrap`: no sum of header fields wraps that lets the loader pass a check.
* **`loadsSafely_of_noWrap`**: such an image is loaded safely.
-/

namespace Rymos

open ByteBuf TableTree Transition

/-- An entry that an address of the image window is looked up in. -/
def OnWalk (mem : Memory) (pml4 t i : ℕ) : Prop :=
  ∃ virt is, InImageWindow virt ∧ is ++ [i] <+: (pathOf virt).reverse ∧ follow mem.table pml4 is = some t

/-- The image is read inside, and only addresses of the window are mapped and written. -/
structure Within (image : Image) (l : Loading) : Prop where
  reads : ∀ p ∈ l.reads, p.1 + p.2 ≤ image.bytes.length
  maps : ∀ virt ∈ l.maps, InImageWindow virt
  stores : ∀ virt ∈ l.stores, InImageWindow virt

/-- What is asked of a load: it stays within the image and the window, it changes nothing but pages that were
free and the window's own tables and pages, neither what the kernel's PML4 maps nor the images of other
processes, and if all is loaded, the window has the segments as the image has them. -/
structure SafeLoad (image : Image) (s : MemSys) (pml4 : ℕ) (l l' : Loading) (result : Except String ℕ) :
    Prop where
  within : Within image l'
  tables : ∀ t i, l'.mem.table t i ≠ l.mem.table t i →
    t ∈ l.mem.allocator.available ∨ OnWalk l'.mem pml4 t i
  bytes : ∀ x, l'.bytes x ≠ l.bytes x → frameOf x ∈ l.mem.allocator.available ∨
    ∃ virt, InImageWindow virt ∧ translate l'.mem.table pml4 virt = some x
  kernel : ∀ virt, translate l'.mem.table l'.mem.kernelPml4 virt =
    translate l.mem.table l.mem.kernelPml4 virt
  others : ∀ q t, s.space q = some t → t ≠ pml4 → ∀ virt, InImageWindow virt →
    translate l'.mem.table t virt = translate l.mem.table t virt ∧ l'.look t virt = l.look t virt
  loaded : ∀ entry, result = .ok entry → entry = image.header.entry ∧
    ∀ i < image.header.phnum, (image.programHeader i).Loadable →
      SegmentLoaded image pml4 (image.programHeader i) l' fun virt =>
        ∃ j, i < j ∧ j < image.header.phnum ∧ (image.programHeader j).Covers virt

def Loading.start (mem : Memory) (bytes : ℕ → UInt8) : Loading := ⟨mem, bytes, [], [], []⟩

/-- **Every load of the image is safe**, in every state reached, and ends without a page fault. -/
def LoadsSafely (image : Image) : Prop :=
  ∀ boot s pid pml4 bytes, BootOk boot → Reach (MemInit boot) (OwnAct 16384) memStep s →
    s.space pid = some pml4 → ∃ result l',
      loadProgramElfIsolated image pml4 (.start s.mem bytes) = some (result, l') ∧
        SafeLoad image s pml4 (.start s.mem bytes) l' result

/-- No sum wraps that lets the loader pass a check. -/
def Image.NoWrap (image : Image) : Prop :=
  image.bytes.length < elfHeaderSize ∨ image.header.Unsupported ∨
    image.header.BadProgramHeaders image.bytes.length ∨
      image.header.phoff + image.header.phentsize * image.header.phnum < 2 ^ 64 ∧
        image.NoWrapFrom 0 image.header.phnum

instance (image : Image) : Decidable image.NoWrap := inferInstanceAs (Decidable (_ ∨ _ ∨ _ ∨ _ ∧ _))

/-! ## Fields -/

section Fields

variable {image : Image}

theorem Image.field_lt (image : Image) (offset size : ℕ) : image.field offset size < 256 ^ size := by
  have h := leValue_lt ((List.range size).map fun k => image.read (offset + k))
  rwa [List.length_map, List.length_range] at h

theorem Image.header_lt (image : Image) : image.header.phoff < 2 ^ 64 ∧ image.header.phentsize < 2 ^ 16 ∧
    image.header.phnum < 2 ^ 16 :=
  ⟨image.field_lt 32 8, image.field_lt 54 2, image.field_lt 56 2⟩

theorem Image.table_lt (image : Image) :
    image.header.phentsize * image.header.phnum < 2 ^ 32 := by
  obtain ⟨-, he, hn⟩ := image.header_lt
  calc image.header.phentsize * image.header.phnum
      ≤ (2 ^ 16 - 1) * (2 ^ 16 - 1) := Nat.mul_le_mul (by omega) (by omega)
    _ < 2 ^ 32 := by norm_num

/-- The program headers are in the image, if the end of their table does not wrap. -/
theorem Image.programHeader_in (hw : image.header.phoff + image.header.phentsize * image.header.phnum < 2 ^ 64)
    (hb : ¬ image.header.BadProgramHeaders image.bytes.length) {i : ℕ} (hi : i < image.header.phnum) :
    image.programHeaderOffset i + elfProgramHeaderSize ≤ image.bytes.length := by
  have ht : usize (image.header.phentsize * image.header.phnum) = _ :=
    usize_of_lt (image.table_lt.trans (by norm_num))
  rw [Elf64Header.BadProgramHeaders, ht, usize_of_lt hw, not_or, not_lt, not_lt] at hb
  have hmul : (i + 1) * image.header.phentsize ≤ image.header.phentsize * image.header.phnum := by
    rw [Nat.mul_comm _ image.header.phnum]
    exact Nat.mul_le_mul_right _ hi
  rw [Nat.add_mul, Nat.one_mul] at hmul
  rw [Image.programHeaderOffset, usize_of_lt (by omega : i * image.header.phentsize < 2 ^ 64),
    usize_of_lt (by omega)]
  omega

end Fields

/-! ## Images without a wrap -/

section Safe

variable {boot : Memory} {s : MemSys} {F F' : Layout (Option ℕ) ℕ ℕ} {pid pml4 : ℕ} {image : Image}
  {l l' : Loading} {kept : Set ℕ} {seen : ℕ → Set ℕ} {result : Except String ℕ}

/-- What is written among the tables is on the walk of an address of the window. -/
theorem LoadState.onWalk (h' : LoadState boot kept seen pid pml4 F' l') {t i : ℕ} {q : List ℕ} {virt : ℕ}
    (ht : F' (some pid) q = some t) (hv : InImageWindow virt) (hs : (i :: q) <:+ pathOf virt) :
    OnWalk l'.mem pml4 t i := by
  refine ⟨virt, q.reverse, hv, ?_, ?_⟩
  · rw [← List.reverse_cons]
    exact List.reverse_prefix.mpr hs
  · have ho : OwnedPath (some pid) q := h'.inv.lays.owned ht
    rw [h'.inv.follow q.reverse h'.root (by rwa [List.reverse_reverse, List.append_nil]),
      List.reverse_reverse, List.append_nil, ht]

/-- **Below the kernel's PML4** nothing changes. -/
theorem LoadState.kernel (h : LoadState boot kept seen pid pml4 F l)
    (h' : LoadState boot kept seen pid pml4 F' l') (hl : Loads pid pml4 image F F' l l') (virt : ℕ) :
    translate l'.mem.table l'.mem.kernelPml4 virt = translate l.mem.table l.mem.kernelPml4 virt := by
  have hsame : ∀ q, F' none q = F none q := fun q => hl.grows.eq (Option.some_ne_none pid).symm
  obtain ⟨k, hk⟩ := Option.ne_none_iff_exists'.mp (h.inv.born h.root)
  have hroot : k = l.mem.kernelPml4 := by
    have := h.inv.kernel
    split_ifs at this with hz
    · rw [hk] at this
      cases this
    · rw [hk] at this
      exact Option.some.inj this
  have hroot' : k = l'.mem.kernelPml4 := by
    have := h'.inv.kernel
    rw [hsame] at this
    split_ifs at this with hz
    · rw [hk] at this
      cases this
    · rw [hk] at this
      exact Option.some.inj this
  have hk' : F' none [] = some k := (hsame []).trans hk
  rw [← hroot, ← hroot']
  by_cases hw : WindowSlot (pml4Index virt)
  · have ho : OwnedPath none (pathOf virt) := ⟨hw, mem_pathOf_lt virt⟩
    rw [h'.inv.translate hk' ho, h.inv.translate hk ho, hsame]
  · rw [h'.inv.translate_boot hk' hw, h.inv.translate_boot hk hw]

/-- **In the image of another process** nothing changes. -/
theorem LoadState.other (h : LoadState boot kept seen pid pml4 F l)
    (h' : LoadState boot kept seen pid pml4 F' l') (hl : Loads pid pml4 image F F' l l') {q t virt : ℕ}
    (ht : F (some q) [] = some t) (hne : t ≠ pml4) (hv : InImageWindow virt) :
    translate l'.mem.table t virt = translate l.mem.table t virt ∧ l'.look t virt = l.look t virt := by
  have hq : some q ≠ some pid := by
    rintro he
    rw [he, h.root] at ht
    exact hne (Option.some.inj ht).symm
  have ht' : F' (some q) [] = some t := hl.grows.some ht
  have htr : translate l'.mem.table t virt = translate l.mem.table t virt := by
    rw [h'.inv.translate ht' (hv.ownedPath q), h.inv.translate ht (hv.ownedPath q), hl.grows.eq hq]
  refine ⟨htr, ?_⟩
  rw [Loading.look, Loading.look, Through.look, Through.look, htr]
  cases hx : translate l.mem.table t virt with
  | none => rfl
  | some x =>
    rw [Option.map_some, Option.map_some, Option.some.injEq]
    by_contra hc
    obtain ⟨ha, -⟩ := h.inv.frameOf_translate ht hv hx
    rcases hl.bytes x hc with hav | ⟨w, hw, hx'⟩
    · have hfree := (h.inv.placed ha).2
      rw [List.append_nil] at hfree
      exact hfree hav
    · obtain ⟨ha', -⟩ := h'.inv.frameOf_translate h'.root hw hx'
      exact hq (h'.inv.lays.inj (hl.grows.some ha) ha').1

/-- A load that is done. -/
theorem LoadState.safeLoad {bytes : ℕ → UInt8} (hs : SysLayout boot s F)
    (h : LoadState boot kept seen pid pml4 F (.start s.mem bytes))
    (h' : LoadState boot kept seen pid pml4 F' l') (hl : Loads pid pml4 image F F' (.start s.mem bytes) l')
    (hr : ∀ entry, result = .ok entry → entry = image.header.entry ∧
      ∀ i < image.header.phnum, (image.programHeader i).Loadable →
        SegmentLoaded image pml4 (image.programHeader i) l' fun virt =>
          ∃ j, i < j ∧ j < image.header.phnum ∧ (image.programHeader j).Covers virt) :
    SafeLoad image s pml4 (.start s.mem bytes) l' result where
  within := by
    refine ⟨fun p hp => ?_, fun v hv => ?_, fun v hv => ?_⟩
    · exact (hl.reads p hp).resolve_left List.not_mem_nil
    · exact (hl.maps v hv).resolve_left List.not_mem_nil
    · exact (hl.stores v hv).resolve_left List.not_mem_nil
  tables t i hne := by
    refine (hl.wrote.entries hne).imp_right ?_
    rintro ⟨q, ht, v, hv, hsuf⟩
    exact h'.onWalk ht hv hsuf
  bytes := hl.bytes
  kernel := h.kernel h' hl
  others q t ht hne _ hv := h.other h' hl ((hs.space q).trans ht) hne hv
  loaded := hr

/-- **An image without a wrap is loaded safely.** -/
theorem loadsSafely_of_noWrap (hw : image.NoWrap) : LoadsSafely image := by
  intro boot s pid pml4 bytes hb hreach hspace
  obtain ⟨F, hs⟩ := sysInv_of_reach hb hreach
  obtain ⟨hroot, -⟩ := hs.root hspace
  have h : LoadState boot _ _ pid pml4 F (.start s.mem bytes) := ⟨hs.inv, hroot⟩
  have hstop {l'} {line : String} (h' : LoadState boot _ _ pid pml4 F l')
      (hl : Loads pid pml4 image F F (.start s.mem bytes) l') :
      SafeLoad image s pml4 (.start s.mem bytes) l' (.error line) :=
    h.safeLoad hs h' hl fun _ he => by cases he
  rw [loadProgramElfIsolated]
  by_cases hlen : image.bytes.length < elfHeaderSize
  · rw [if_pos hlen]
    exact ⟨_, _, rfl, hstop h (.refl _ _ _ _ _)⟩
  obtain ⟨h₀, hl₀⟩ := h.read (by omega : 0 + elfHeaderSize ≤ image.bytes.length)
  rw [if_neg hlen]
  by_cases huns : image.header.Unsupported
  · rw [if_pos huns]
    exact ⟨_, _, rfl, hstop h₀ hl₀⟩
  rw [if_neg huns]
  by_cases hbad : image.header.BadProgramHeaders image.bytes.length
  · rw [if_pos hbad]
    exact ⟨_, _, rfl, hstop h₀ hl₀⟩
  rw [if_neg hbad]
  obtain ⟨hsum, hfrom⟩ := ((hw.resolve_left hlen).resolve_left huns).resolve_left hbad
  obtain ⟨result, l', F', he, h', hl', hall⟩ := h₀.loadSegments image.header.phnum hfrom
    fun i _ hi => Image.programHeader_in hsum hbad (by omega)
  refine ⟨result, l', he, h.safeLoad hs h' (h₀.trans h' hl₀ hl') fun entry hr => ?_⟩
  obtain ⟨hentry, hseg⟩ := hall.loaded entry hr
  refine ⟨hentry, fun i hi hload => ?_⟩
  have hs := hseg i (Nat.zero_le i) (by omega) hload
  rwa [Nat.zero_add] at hs

end Safe

end Rymos
