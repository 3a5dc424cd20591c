import Mathlib.Tactic
import Rymos.Boot.Bootloader
import Rymos.Boot.Volume

/-!
# What the bootloader relies on

* `fatPath`: the path on a FAT volume that a path of the firmware names.
* `BootServices.Lawful`: what the calls of the firmware do; `given` are the areas of memory it has given away.
* `Boots`: a part of the boot writes only to memory that is given away meanwhile.
* **`ends_readFile`**, **`ends_loadElf`**, **`ends_exitBootServices`**: the parts of the bootloader.
-/

namespace Rymos

open ByteBuf Areas Attempt Fat32

/-! ## The firmware -/

/-- Names between backslashes, up to the zero at the end, with a dot before the extension. -/
def fatPath (path : List ℕ) : List (List UInt8) :=
  ((((path.takeWhile (· ≠ 0)).map UInt8.ofNat).splitOn 92).filter (· ≠ [])).map fun name =>
    shortName ((name.splitOn 46).headD []) ((name.splitOn 46).tail.headD [])

theorem fatPath_kernel : fatPath kernelPath16 = kernelPath := by decide

theorem fatPath_initrd : fatPath initrdPath16 = initrdPath := by decide

/-- A descriptor of memory that is free to use lies apart from the areas given away. -/
def MapsAround (map : List EfiMemoryDescriptor) (given : List Area) : Prop :=
  UefiMap map ∧ ∀ d ∈ map, d.typ = efiConventionalMemory → ∀ a ∈ given, ∀ x, d.Has x → ¬ a.Has x

/-- The descriptors in a buffer. -/
def MapReply.map (reply : MapReply) : List EfiMemoryDescriptor :=
  descriptors (fun k => reply.data.getD k 0) reply.descriptorSize (reply.size / reply.descriptorSize)

section Law

variable {σ : Type}

/-- An allocation: where it succeeds, an area of the address space that was not given away before. -/
def Gives (given : σ → List Area) (s : σ) (status : ℕ) (area : Area) (s' : σ) : Prop :=
  if status = 0 then
    area.start + area.size ≤ 2 ^ 64 ∧ (∀ a ∈ given s, area.Apart a) ∧ given s' = area :: given s
  else given s' = given s

/-- **The firmware**, with a volume in the drive it booted from: `given` are the areas of memory given away and
`opened` the bytes of the file that was opened last, from its position on. -/
structure BootServices.Lawful (efi : BootServices σ) (volume : List UInt8) (given : σ → List Area)
    (opened : σ → List UInt8) : Prop where
  loadedImage : ∀ s, given (efi.loadedImage s).2 = given s
  fileSystem : ∀ s, given (efi.fileSystem s).2 = given s
  openVolume : ∀ s, given (efi.openVolume s).2 = given s
  openFile : ∀ path s, given (efi.openFile path s).2 = given s
  opens : ∀ path s, (∀ c ∈ path, c < 128) → (efi.openFile path s).1 = 0 → ∀ clusters data,
    IsFile volume (fatPath path) clusters data → opened (efi.openFile path s).2 = data
  pool : ∀ size s, Gives given s (efi.allocatePool size s).1 ⟨(efi.allocatePool size s).2.1, size⟩
    (efi.allocatePool size s).2.2
  pool_ne : ∀ size s, (efi.allocatePool size s).1 = 0 → (efi.allocatePool size s).2.1 ≠ 0
  pool_opened : ∀ size s, opened (efi.allocatePool size s).2.2 = opened s
  read : ∀ size s, given (efi.read size s).2.2 = given s
  read_le : ∀ size s, (efi.read size s).2.1.length ≤ size
  reads : ∀ size s, (efi.read size s).1 = 0 → (efi.read size s).2.1 = (opened s).take size
  close : ∀ s, given (efi.close s) = given s
  pages : ∀ address pages s, Gives given s (efi.allocatePages address pages s).1
    ⟨address, 4096 * pages⟩ (efi.allocatePages address pages s).2
  graphicsOutput : ∀ s, given (efi.graphicsOutput s).2 = given s
  queryMode : ∀ mode s, given (efi.queryMode mode s).2 = given s
  setMode : ∀ mode s, given (efi.setMode mode s) = given s
  memoryMap : ∀ size s, given (efi.getMemoryMap size s).2.2 = given s
  memoryMap_le : ∀ size s, (efi.getMemoryMap size s).2.1.data.length ≤ size
  maps : ∀ size s, (efi.getMemoryMap size s).1 = 0 →
    (efi.getMemoryMap size s).2.1.data.length = (efi.getMemoryMap size s).2.1.size ∧
      40 ≤ (efi.getMemoryMap size s).2.1.descriptorSize ∧
      MapsAround (efi.getMemoryMap size s).2.1.map (given s)
  exit : ∀ key s, given (efi.exitBootServices key s).2 = given s

/-- **A part of the boot writes only to memory given away meanwhile.** -/
def Boots (given : σ → List Area) (b b' : Booting σ) : Prop :=
  Grows (given b.firmware) b.bytes (given b'.firmware) b'.bytes

variable {efi : BootServices σ} {volume : List UInt8} {given : σ → List Area}
  {opened : σ → List UInt8} {b b' b'' : Booting σ}

theorem Boots.refl (given : σ → List Area) (b : Booting σ) : Boots given b b := Grows.refl _ _

theorem Boots.trans (h : Boots given b b') (h' : Boots given b' b'') : Boots given b b'' :=
  Grows.trans h h'

/-- Nothing is given away and nothing written. -/
theorem Boots.of_eq (hg : given b'.firmware = given b.firmware) (hb : b'.bytes = b.bytes) :
    Boots given b b' := by
  unfold Boots
  rw [hg, hb]
  exact Grows.refl _ _

theorem Boots.piece (h : Boots given b b') {p : Piece UInt8} (hp : p.In b.bytes) {a : Area}
    (hin : p.area.Inside a) (ha : a ∈ given b.firmware) : p.In b'.bytes := hp.grows hin ha h

/-- A part of an area that was just given away is written. -/
theorem Boots.fill {area : Area} {part : Piece UInt8}
    (hgiven : given b'.firmware = area :: given b.firmware) (hbytes : b'.bytes = part.fill b.bytes)
    (hapart : ∀ a ∈ given b.firmware, area.Apart a) (hin : part.area.Inside area) : Boots given b b' := by
  unfold Boots
  rw [hgiven, hbytes]
  exact Grows.fill hapart hin

/-- Where a later part stops, the whole does. -/
theorem Boots.ends {α : Type} {p : BootRun σ α} {Q : α → Booting σ → Prop} (h : Boots given b b')
    (hp : Ends p b' Q fun _ b'' => Boots given b' b'') : Ends p b' Q fun _ b'' => Boots given b b'' :=
  hp.mono (fun _ _ => id) fun _ _ h' => h.trans h'

/-! ## Calls -/

theorem ends_firmwareCall {f : σ → ℕ × σ} (hf : ∀ s, given (f s).2 = given s) (b : Booting σ) :
    Ends (firmwareCall f) b
      (fun _ b' => Boots given b b' ∧ (f b.firmware).1 = 0 ∧ b'.firmware = (f b.firmware).2)
      fun _ b' => Boots given b b' := by
  have hb : Boots given b { b with firmware := (f b.firmware).2 } := .of_eq (hf _) rfl
  by_cases h : (f b.firmware).1 = 0
  · refine ⟨_, .ok (), ?_, hb, h, rfl⟩
    simp only [firmwareCall, h, if_true]
  · refine ⟨_, .error (f b.firmware).1, ?_, hb⟩
    simp only [firmwareCall, h, if_false]

theorem ends_firmwareAsk {α : Type} (f : σ → α × σ) (b : Booting σ) {E : ℕ → Booting σ → Prop} :
    Ends (firmwareAsk f) b
      (fun answer b' => answer = (f b.firmware).1 ∧ b' = { b with firmware := (f b.firmware).2 }) E :=
  ⟨_, .ok _, rfl, rfl, rfl⟩

theorem ends_storeBytes {start count : ℕ} {value : ℕ → UInt8} (h : start + count ≤ 2 ^ 64) (b : Booting σ)
    {E : ℕ → Booting σ → Prop} :
    Ends (storeBytes start count value) b
      (fun _ b' => b' = { b with bytes := Piece.fill ⟨⟨start, count⟩, value⟩ b.bytes }) E :=
  .call (if_pos h) rfl

/-! ## Files -/

section Files

variable (law : efi.Lawful volume given opened)
include law

/-- A buffer with the first bytes of the file. -/
structure Buffered (volume : List UInt8) (given : σ → List Area) (path : List ℕ) (readLimit : ℕ)
    (buffer : FileBuffer) (b : Booting σ) : Prop where
  ptr : buffer.ptr ≠ 0
  fits : buffer.ptr + readLimit ≤ 2 ^ 64
  size_pos : 0 < buffer.size
  size_le : buffer.size ≤ readLimit
  owned : (⟨buffer.ptr, readLimit⟩ : Area) ∈ given b.firmware
  bytes : ∀ clusters data, IsFile volume (fatPath path) clusters data →
    buffer.size = min readLimit data.length ∧
      Piece.In ⟨⟨buffer.ptr, buffer.size⟩, fun k => data.getD k 0⟩ b.bytes

omit law in
theorem Buffered.boots {path : List ℕ} {readLimit : ℕ} {buffer : FileBuffer}
    (h : Buffered volume given path readLimit buffer b) (hb : Boots given b b') :
    Buffered volume given path readLimit buffer b' where
  ptr := h.ptr
  fits := h.fits
  size_pos := h.size_pos
  size_le := h.size_le
  owned := Grows.given_mem hb h.owned
  bytes clusters data hf := by
    obtain ⟨hsize, hin⟩ := h.bytes clusters data hf
    exact ⟨hsize, hb.piece hin (Area.Inside.of_le h.size_le) h.owned⟩

theorem ends_allocatePool (size : ℕ) (b : Booting σ) {E : ℕ → Booting σ → Prop} :
    Ends (firmwareAsk fun s =>
        let (status, buffer, s) := efi.allocatePool size s
        ((status, buffer), s)) b
      (fun answer b' => Boots given b b' ∧ opened b'.firmware = opened b.firmware ∧
        (answer.1 = 0 → answer.2 ≠ 0 ∧ answer.2 + size ≤ 2 ^ 64 ∧
          (∀ a ∈ given b.firmware, Area.Apart ⟨answer.2, size⟩ a) ∧
          given b'.firmware = ⟨answer.2, size⟩ :: given b.firmware ∧ b'.bytes = b.bytes)) E := by
  refine ⟨_, .ok _, rfl, ?_, law.pool_opened size _, ?_⟩
  all_goals
    have hgive := law.pool size b.firmware
    unfold Gives at hgive
    split_ifs at hgive with h
  · obtain ⟨-, hapart, hgiven⟩ := hgive
    refine ⟨[_], hgiven, ?_, fun _ _ => rfl⟩
    simpa using hapart
  · exact .of_eq hgive rfl
  · intro _
    exact ⟨law.pool_ne size _ h, hgive.1, hgive.2.1, hgive.2.2, rfl⟩
  · exact fun hc => absurd hc h

theorem ends_readFile {path : List ℕ} (hpath : ∀ c ∈ path, c < 128) (readLimit : ℕ) (b : Booting σ) :
    Ends (readFile efi path readLimit) b
      (fun buffer b' => Boots given b b' ∧ Buffered volume given path readLimit buffer b')
      fun _ b' => Boots given b b' := by
  unfold readFile
  refine (ends_firmwareCall law.loadedImage b).bind fun _ b₁ h₁ => ?_
  refine (h₁.1.ends (ends_firmwareCall law.fileSystem b₁)).bind fun _ b₂ h₂ => ?_
  have hb₂ := h₁.1.trans h₂.1
  refine (hb₂.ends (ends_firmwareCall law.openVolume b₂)).bind fun _ b₃ h₃ => ?_
  have hb₃ := hb₂.trans h₃.1
  refine (hb₃.ends (ends_firmwareCall (law.openFile path) b₃)).bind fun _ b₄ h₄ => ?_
  obtain ⟨hb₃₄, hopen, hfw⟩ := h₄
  have hb₄ := hb₃.trans hb₃₄
  refine (ends_allocatePool law readLimit b₄).bind fun answer b₅ h₅ => ?_
  obtain ⟨hb₄₅, hopened, hpool⟩ := h₅
  have hb₅ := hb₄.trans hb₄₅
  obtain ⟨status, buffer⟩ := answer
  dsimp only at hpool ⊢
  split_ifs with hstatus
  · exact .stop hb₅
  · obtain ⟨hptr, hfits, hapart, hgiven, hbytes⟩ := hpool (not_not.mp hstatus)
    refine (ends_firmwareAsk _ b₅).bind fun answer b₆ h₆ => ?_
    obtain ⟨rfl, rfl⟩ := h₆
    dsimp only
    obtain ⟨data, hdata⟩ : ∃ data, data = (efi.read readLimit b₅.firmware).2.1 := ⟨_, rfl⟩
    have hle := hdata ▸ law.read_le readLimit b₅.firmware
    rw [← hdata]
    refine (ends_storeBytes (by omega) _).bind fun _ b₇ h₇ => ?_
    refine (ends_firmwareAsk _ b₇).bind fun _ b₈ h₈ => ?_
    obtain ⟨-, rfl⟩ := h₈
    obtain ⟨part, hpart⟩ : ∃ part : Piece UInt8, part = ⟨⟨buffer, data.length⟩, fun k => data.getD k 0⟩ :=
      ⟨_, rfl⟩
    have hin : part.area.Inside ⟨buffer, readLimit⟩ := hpart ▸ Area.Inside.of_le hle
    have hgiven₈ : given (efi.close b₇.firmware) = ⟨buffer, readLimit⟩ :: given b₄.firmware := by
      rw [law.close, h₇]
      dsimp only
      rw [law.read, hgiven]
    have hbytes₈ : b₇.bytes = part.fill b₄.bytes := by rw [h₇, hpart, ← hbytes]
    have hb₈ : Boots given b { b₇ with firmware := efi.close b₇.firmware } :=
      hb₄.trans (.fill hgiven₈ hbytes₈ hapart hin)
    split_ifs with hzero hread
    · exact .stop hb₈
    · exact .stop hb₈
    · refine .pure ⟨hb₈, hptr, hfits, Nat.pos_of_ne_zero hzero, hle, ?_, ?_⟩
      · rw [hgiven₈]
        exact List.mem_cons_self
      · intro clusters file hfile
        have hfile' : opened b₅.firmware = file := by
          rw [hopened, hfw]
          exact law.opens path _ hpath hopen clusters file hfile
        have htake : data = file.take readLimit := by
          rw [hdata, law.reads readLimit _ (not_not.mp hread), hfile']
        refine ⟨by rw [htake, List.length_take], fun k hk => ?_⟩
        have hk' : k < data.length := hk
        have hvalue := part.in_fill b₄.bytes k (by rw [hpart]; exact hk)
        rw [← hbytes₈, hpart] at hvalue
        refine hvalue.trans ?_
        simp only [htake, List.length_take, lt_min_iff] at hk'
        simp only [htake, List.getD_eq_getElem?_getD, List.getElem?_take, hk'.1, if_true]
end Files

/-! ## The kernel -/

/-- The program headers of a file whose sums do not wrap. -/
def programHeaderOf (file : ℕ → UInt8) (index : ℕ) : Elf64ProgramHeader :=
  .ofBytes fun k =>
    file ((Elf64Header.ofBytes file).phoff + index * (Elf64Header.ofBytes file).phentsize + k)

/-- What a program header puts into memory: bytes of the file, then zeros. -/
def segmentPiece (file : ℕ → UInt8) (ph : Elf64ProgramHeader) : Piece UInt8 :=
  ⟨⟨ph.paddr, ph.memsz⟩, fun k => if k < ph.filesz then file (ph.offset + k) else 0⟩

/-- No sum of the headers that the bootloader computes wraps. -/
structure ElfNoWrap (file : ℕ → UInt8) : Prop where
  headers : (Elf64Header.ofBytes file).phoff +
    (Elf64Header.ofBytes file).phentsize * (Elf64Header.ofBytes file).phnum < 2 ^ 64
  segments : ∀ index < (Elf64Header.ofBytes file).phnum, (programHeaderOf file index).Loadable →
    (programHeaderOf file index).offset + (programHeaderOf file index).filesz < 2 ^ 64

/-- A segment is in the file and in memory. -/
structure SegmentPlaced (given : σ → List Area) (file : ℕ → UInt8) (size : ℕ) (ph : Elf64ProgramHeader)
    (b : Booting σ) : Prop where
  inside : ph.offset + ph.filesz ≤ size
  filesz_le : ph.filesz ≤ ph.memsz
  there : (segmentPiece file ph).In b.bytes
  owned : ∃ a ∈ given b.firmware, (segmentPiece file ph).area.Inside a

theorem SegmentPlaced.boots {file : ℕ → UInt8} {size : ℕ} {ph : Elf64ProgramHeader}
    (h : SegmentPlaced given file size ph b) (hb : Boots given b b') :
    SegmentPlaced given file size ph b' := by
  obtain ⟨a, ha, hin⟩ := h.owned
  exact ⟨h.inside, h.filesz_le, hb.piece h.there hin ha, a, Grows.given_mem hb ha, hin⟩

section Elf

variable {file : ℕ → UInt8} {elf size limit : ℕ}

theorem fieldOf_congr {read read' : ℕ → UInt8} {offset width n : ℕ} (h : ∀ k < n, read k = read' k)
    (hn : offset + width ≤ n) : fieldOf read offset width = fieldOf read' offset width := by
  unfold fieldOf
  congr 1
  refine List.map_congr_left fun k hk => h _ ?_
  rw [List.mem_range] at hk
  omega

theorem Elf64Header.ofBytes_congr {read read' : ℕ → UInt8} (h : ∀ k < elfHeaderSize, read k = read' k) :
    Elf64Header.ofBytes read = Elf64Header.ofBytes read' := by
  unfold Elf64Header.ofBytes
  rw [fieldOf_congr h (by decide), fieldOf_congr h (by decide), fieldOf_congr h (by decide),
    fieldOf_congr h (by decide), fieldOf_congr h (by decide)]
  congr 1
  refine List.map_congr_left fun k hk => h k ?_
  rw [List.mem_range] at hk
  exact hk.trans (by decide)

theorem Elf64ProgramHeader.ofBytes_congr {read read' : ℕ → UInt8}
    (h : ∀ k < elfProgramHeaderSize, read k = read' k) :
    Elf64ProgramHeader.ofBytes read = Elf64ProgramHeader.ofBytes read' := by
  unfold Elf64ProgramHeader.ofBytes
  rw [fieldOf_congr h (by decide), fieldOf_congr h (by decide), fieldOf_congr h (by decide),
    fieldOf_congr h (by decide), fieldOf_congr h (by decide)]

/-- The file is in a buffer. -/
structure FileAt (given : σ → List Area) (file : ℕ → UInt8) (elf size limit : ℕ) (b : Booting σ) : Prop where
  le : size ≤ limit
  fits : elf + limit ≤ 2 ^ 64
  owned : (⟨elf, limit⟩ : Area) ∈ given b.firmware
  there : Piece.In ⟨⟨elf, size⟩, file⟩ b.bytes

theorem FileAt.boots (h : FileAt given file elf size limit b) (hb : Boots given b b') :
    FileAt given file elf size limit b' :=
  ⟨h.le, h.fits, Grows.given_mem hb h.owned, hb.piece h.there (Area.Inside.of_le h.le) h.owned⟩

/-- A byte of the file, read through the pointer. -/
theorem FileAt.at (h : FileAt given file elf size limit b) {k : ℕ} (hk : k < size) :
    b.at elf k = file k := by
  have hle := h.le
  have hfits := h.fits
  rw [Booting.at, usize_of_lt (by omega)]
  exact h.there k hk

/-- **The headers that are read are those of the file.** -/
theorem FileAt.header (h : FileAt given file elf size limit b) (hsize : elfHeaderSize ≤ size) :
    Elf64Header.ofBytes (b.at elf) = Elf64Header.ofBytes file :=
  Elf64Header.ofBytes_congr fun _ hk => h.at (hk.trans_le hsize)

/-- **So are the program headers.** -/
theorem FileAt.programHeader (h : FileAt given file elf size limit b) (hw : ElfNoWrap file)
    (hbad : ¬ (Elf64Header.ofBytes file).BadProgramHeaders size) {index : ℕ}
    (hi : index < (Elf64Header.ofBytes file).phnum) :
    Elf64ProgramHeader.ofBytes (fun k => b.at elf ((Elf64Header.ofBytes file).entryOffset index + k)) =
      programHeaderOf file index := by
  obtain ⟨header, hheader⟩ : ∃ header, header = Elf64Header.ofBytes file := ⟨_, rfl⟩
  have hsum := hw.headers
  unfold programHeaderOf
  rw [← hheader] at hbad hi hsum ⊢
  unfold Elf64Header.BadProgramHeaders at hbad
  obtain ⟨hsize, hend⟩ := not_or.mp hbad
  have hin : usize (header.phentsize * header.phnum) = header.phentsize * header.phnum :=
    usize_of_lt (by omega)
  rw [hin, usize_of_lt hsum] at hend
  have hmul : (index + 1) * header.phentsize ≤ header.phnum * header.phentsize := Nat.mul_le_mul_right _ hi
  rw [Nat.mul_comm header.phnum, Nat.add_mul, one_mul] at hmul
  have hoffset : header.entryOffset index = header.phoff + index * header.phentsize := by
    have hin' : usize (index * header.phentsize) = index * header.phentsize := usize_of_lt (by omega)
    rw [Elf64Header.entryOffset, hin', usize_of_lt (by omega)]
  rw [hoffset]
  refine Elf64ProgramHeader.ofBytes_congr fun k hk => h.at ?_
  omega

section Load

variable (law : efi.Lawful volume given opened)
include law

/-- **One program header.** -/
theorem ends_loadProgramHeader (h : FileAt given file elf size limit b) (hw : ElfNoWrap file)
    (hbad : ¬ (Elf64Header.ofBytes file).BadProgramHeaders size) {index : ℕ}
    (hi : index < (Elf64Header.ofBytes file).phnum) {E : ℕ → Booting σ → Prop} :
    Ends (loadProgramHeader efi elf size (Elf64Header.ofBytes file) index) b
      (fun ok b' => Boots given b b' ∧ (ok = true → (programHeaderOf file index).Loadable →
        SegmentPlaced given file size (programHeaderOf file index) b')) E := by
  have hseg := hw.segments index hi
  unfold loadProgramHeader
  refine Ends.bind_read ?_
  rw [h.programHeader hw hbad hi]
  obtain ⟨ph, hph⟩ : ∃ ph, ph = programHeaderOf file index := ⟨_, rfl⟩
  rw [← hph] at hseg ⊢
  dsimp only
  split_ifs with hload hbadload
  · exact .pure ⟨.refl _ _, fun hc => absurd hc Bool.false_ne_true⟩
  · obtain ⟨hend, hle⟩ := not_or.mp hbadload
    rw [not_lt] at hle
    rw [usize_of_lt (hseg hload)] at hend
    refine (ends_firmwareAsk _ _).bind fun status b₁ h₁ => ?_
    obtain ⟨hstatus, rfl⟩ := h₁
    have hgive := law.pages ph.paddr ((ph.memsz + 4095) / 4096) b.firmware
    rw [← hstatus] at hgive
    unfold Gives at hgive
    by_cases hzero : status = 0
    · rw [if_pos hzero] at hgive
      rw [if_neg (not_not.mpr hzero)]
      obtain ⟨hfits, hapart, hgiven⟩ := hgive
      have hroom : ph.memsz ≤ 4096 * ((ph.memsz + 4095) / 4096) := by omega
      have hstart : ph.paddr + ph.memsz ≤ 2 ^ 64 := (Nat.add_le_add_left hroom _).trans hfits
      refine (ends_storeBytes hstart _).bind fun _ b₂ h₂ => ?_
      have hbytes₂ : b₂.bytes = Piece.fill ⟨⟨ph.paddr, ph.memsz⟩, fun _ => 0⟩ b.bytes := by rw [h₂]
      have hgiven₂ : given b₂.firmware =
          ⟨ph.paddr, 4096 * ((ph.memsz + 4095) / 4096)⟩ :: given b.firmware := by rw [h₂, ← hgiven]
      have hfile := h.boots (.fill hgiven₂ hbytes₂ hapart (Area.Inside.of_le hroom))
      refine Ends.bind_read ?_
      refine (ends_storeBytes (by omega) _).bind fun _ b₃ h₃ => ?_
      -- the two stores are one
      have hbytes₃ : b₃.bytes = (segmentPiece file ph).fill b.bytes := by
        rw [h₃]
        dsimp only
        rw [hbytes₂, Piece.fill_fill _ _ hle]
        refine Piece.fill_congr rfl fun k _ => ?_
        dsimp only [segmentPiece]
        split_ifs with hk
        · exact hfile.at (by omega)
        · rfl
      have hgiven₃ : given b₃.firmware =
          ⟨ph.paddr, 4096 * ((ph.memsz + 4095) / 4096)⟩ :: given b.firmware := by rw [h₃, ← hgiven₂]
      have hin : (segmentPiece file ph).area.Inside ⟨ph.paddr, 4096 * ((ph.memsz + 4095) / 4096)⟩ :=
        Area.Inside.of_le hroom
      refine .pure ⟨.fill hgiven₃ hbytes₃ hapart hin, fun _ _ => ⟨not_lt.mp hend, hle, ?_, _, ?_, hin⟩⟩
      · rw [hbytes₃]
        exact Piece.in_fill _ _
      · rw [hgiven₃]
        exact List.mem_cons_self
    · rw [if_neg hzero] at hgive
      rw [if_pos hzero]
      exact .pure ⟨.of_eq hgive rfl, fun hc => absurd hc Bool.false_ne_true⟩
  · exact .pure ⟨.refl _ _, fun _ hl => absurd hl hload⟩

/-- **The program headers** from one on. -/
theorem ends_loadProgramHeaders (hw : ElfNoWrap file)
    (hbad : ¬ (Elf64Header.ofBytes file).BadProgramHeaders size) (n : ℕ) {index : ℕ}
    (hn : index + n ≤ (Elf64Header.ofBytes file).phnum) {b : Booting σ}
    (h : FileAt given file elf size limit b) {E : ℕ → Booting σ → Prop} :
    Ends (loadProgramHeaders efi elf size (Elf64Header.ofBytes file) index n) b
      (fun ok b' => Boots given b b' ∧ (ok = true → ∀ j, index ≤ j → j < index + n →
        (programHeaderOf file j).Loadable → SegmentPlaced given file size (programHeaderOf file j) b')) E := by
  induction n generalizing index b with
  | zero => exact .pure ⟨.refl _ _, fun _ j hj hj' => by omega⟩
  | succ n ih =>
    unfold loadProgramHeaders
    refine (ends_loadProgramHeader law h hw hbad (by omega)).bind fun ok b₁ h₁ => ?_
    obtain ⟨hb₁, hload⟩ := h₁
    split_ifs with hok
    · refine (ih (by omega) (h.boots hb₁)).mono ?_ fun _ _ => id
      rintro ok' b₂ ⟨hb₂, hrest⟩
      refine ⟨hb₁.trans hb₂, fun hok' j hj hj' hl => ?_⟩
      rcases hj.eq_or_lt with rfl | hlt
      · exact (hload hok hl).boots hb₂
      · exact hrest hok' j hlt (by omega) hl
    · exact .pure ⟨hb₁, fun hc => absurd hc Bool.false_ne_true⟩

/-- A kernel whose segments are in memory. -/
structure KernelLoaded (given : σ → List Area) (file : ℕ → UInt8) (size entry : ℕ) (b : Booting σ) : Prop where
  supported : ¬ (Elf64Header.ofBytes file).Unsupported
  entry : entry = (Elf64Header.ofBytes file).entry
  segments : ∀ index < (Elf64Header.ofBytes file).phnum, (programHeaderOf file index).Loadable →
    SegmentPlaced given file size (programHeaderOf file index) b

omit law in
theorem KernelLoaded.boots {entry : ℕ} (h : KernelLoaded given file size entry b) (hb : Boots given b b') :
    KernelLoaded given file size entry b' :=
  ⟨h.supported, h.entry, fun index hi hl => (h.segments index hi hl).boots hb⟩

/-- **The kernel is loaded**, or zero is returned. -/
theorem ends_loadElf (h : FileAt given file elf size limit b) (hw : ElfNoWrap file)
    {E : ℕ → Booting σ → Prop} :
    Ends (loadElf efi elf size) b
      (fun entry b' => Boots given b b' ∧ (entry ≠ 0 → KernelLoaded given file size entry b')) E := by
  have hzero : Ends (Pure.pure 0 : BootRun σ ℕ) b
      (fun entry b' => Boots given b b' ∧ (entry ≠ 0 → KernelLoaded given file size entry b')) E :=
    .pure ⟨.refl _ _, fun hc => absurd rfl hc⟩
  unfold loadElf
  split_ifs with hsize
  · exact hzero
  · refine Ends.bind_read ?_
    rw [h.header (not_lt.mp hsize)]
    dsimp only
    split_ifs with hsup hbad
    · exact hzero
    · exact hzero
    · refine (ends_loadProgramHeaders law hw hbad _ (by omega) h).bind fun ok b₁ h₁ => ?_
      obtain ⟨hb₁, hload⟩ := h₁
      split_ifs with hok
      · refine Ends.bind_read ?_
        rw [(h.boots hb₁).header (not_lt.mp hsize)]
        exact .pure ⟨hb₁, fun _ => ⟨hsup, rfl, fun index hi => hload hok index (by omega) (by omega)⟩⟩
      · exact .pure ⟨hb₁, fun hc => absurd rfl hc⟩

end Load

end Elf

/-! ## The screen and the memory map -/

section Exit

variable (law : efi.Lawful volume given opened)
include law

theorem ends_graphicsModeLoop (width height n : ℕ) {mode : ℕ} {b : Booting σ} {E : ℕ → Booting σ → Prop} :
    Ends (graphicsModeLoop efi width height mode n) b (fun _ b' => Boots given b b') E := by
  induction n generalizing mode b with
  | zero => exact .pure (.refl _ _)
  | succ n ih =>
    unfold graphicsModeLoop
    refine (ends_firmwareAsk _ b).bind fun answer b₁ h₁ => ?_
    obtain ⟨-, rfl⟩ := h₁
    have hb₁ : Boots given b { b with firmware := (efi.queryMode mode b.firmware).2 } :=
      .of_eq (law.queryMode _ _) rfl
    cases answer with
    | none => exact ih.mono (fun _ _ h => hb₁.trans h) fun _ _ => id
    | some info =>
      dsimp only
      split_ifs
      · refine (ends_firmwareAsk _ _).mono (fun _ b₂ h₂ => ?_) fun _ _ => id
        obtain ⟨-, rfl⟩ := h₂
        exact hb₁.trans (.of_eq (law.setMode _ _) rfl)
      · exact ih.mono (fun _ _ h => hb₁.trans h) fun _ _ => id

theorem ends_setGraphicsMode (width height : ℕ) (b : Booting σ) {E : ℕ → Booting σ → Prop} :
    Ends (setGraphicsMode efi width height) b (fun _ b' => Boots given b b') E := by
  unfold setGraphicsMode
  refine (ends_firmwareAsk _ b).bind fun answer b₁ h₁ => ?_
  obtain ⟨-, rfl⟩ := h₁
  have hb₁ : Boots given b { b with firmware := (efi.graphicsOutput b.firmware).2 } :=
    .of_eq (law.graphicsOutput _) rfl
  rcases answer with _ | _ | mode
  · exact .pure hb₁
  · exact .pure hb₁
  · exact (ends_graphicsModeLoop law width height _).mono (fun _ _ h => hb₁.trans h) fun _ _ => id

theorem ends_framebufferInfo (b : Booting σ) {E : ℕ → Booting σ → Prop} :
    Ends (framebufferInfo efi) b
      (fun info b' => Boots given b b' ∧ info.initrdBase = 0 ∧ info.initrdSize = 0) E := by
  unfold framebufferInfo
  refine (ends_firmwareAsk _ b).bind fun answer b₁ h₁ => ?_
  obtain ⟨-, rfl⟩ := h₁
  have hb₁ : Boots given b { b with firmware := (efi.graphicsOutput b.firmware).2 } :=
    .of_eq (law.graphicsOutput _) rfl
  rcases answer with _ | _ | ⟨_, _ | info, _, _⟩ <;> exact .pure ⟨hb₁, rfl, rfl⟩

/-- The kernel is told of a map in memory that was given away, which describes memory apart from all that
was. -/
structure MapHanded (given : σ → List Area) (info : BootHandover) (b : Booting σ) : Prop where
  owned : ∃ a ∈ given b.firmware, Area.Inside ⟨info.memoryMapBase, info.memoryMapSize⟩ a
  map : ∃ map, initAllocator info b.bytes = initPhysicalAllocator map ∧ MapsAround map (given b.firmware)

omit law in
theorem descriptors_congr {read read' : ℕ → UInt8} {descriptorSize count : ℕ} (hwide : 40 ≤ descriptorSize)
    (h : ∀ k < count * descriptorSize, read k = read' k) :
    descriptors read descriptorSize count = descriptors read' descriptorSize count := by
  unfold descriptors
  refine List.map_congr_left fun index hi => ?_
  have hlt := List.mem_range.mp hi
  have hmul : (index + 1) * descriptorSize ≤ count * descriptorSize := Nat.mul_le_mul_right _ hlt
  rw [Nat.add_mul, one_mul] at hmul
  have hread : ∀ k < 32, read (index * descriptorSize + k) = read' (index * descriptorSize + k) :=
    fun k hk => h _ (by omega)
  unfold EfiMemoryDescriptor.ofBytes
  rw [fieldOf_congr hread (by decide), fieldOf_congr hread (by decide), fieldOf_congr hread (by decide)]

omit law in
/-- The kernel reads the map that is in the buffer. -/
theorem initAllocator_handed {info : BootHandover} {memoryMap : ℕ} {reply : MapReply} {bytes : ℕ → UInt8}
    (hptr : memoryMap ≠ 0) (hwide : 40 ≤ reply.descriptorSize) (hlen : reply.data.length = reply.size)
    (hthere : Piece.In ⟨⟨memoryMap, reply.data.length⟩, fun k => reply.data.getD k 0⟩ bytes) :
    initAllocator { info with
      memoryMapBase := memoryMap
      memoryMapSize := reply.size
      memoryDescriptorSize := reply.descriptorSize } bytes = initPhysicalAllocator reply.map := by
  unfold initAllocator MapReply.map
  dsimp only
  by_cases hzero : reply.size = 0
  · rw [if_pos (.inr (.inl hzero)), hzero, Nat.zero_div]
    rfl
  · rw [if_neg (by omega), descriptors_congr hwide fun k hk => ?_]
    have := Nat.div_mul_le_self reply.size reply.descriptorSize
    exact hthere k (by dsimp only; omega)

/-- **What is handed over of the memory map.** -/
theorem ends_exitBootServices (info : BootHandover) (b : Booting σ) :
    Ends (exitBootServices efi info) b
      (fun info' b' => Boots given b b' ∧ info'.initrdBase = info.initrdBase ∧
        info'.initrdSize = info.initrdSize ∧ MapHanded given info' b')
      fun _ b' => Boots given b b' := by
  unfold exitBootServices
  refine (ends_firmwareAsk _ b).bind fun asked b₁ h₁ => ?_
  obtain ⟨-, rfl⟩ := h₁
  obtain ⟨b₁, hb₁⟩ : ∃ b₁ : Booting σ, b₁ = { b with firmware := (efi.getMemoryMap 0 b.firmware).2.2 } :=
    ⟨_, rfl⟩
  have hboots₁ : Boots given b b₁ := by
    rw [hb₁]
    exact .of_eq (law.memoryMap _ _) rfl
  dsimp only
  rw [← hb₁]
  obtain ⟨size, hsize⟩ : ∃ size, size = usize (asked.size + usize (asked.descriptorSize * 8)) := ⟨_, rfl⟩
  rw [← hsize]
  refine (ends_allocatePool law size b₁).bind fun answer b₂ h₂ => ?_
  obtain ⟨hboots₁₂, -, hpool⟩ := h₂
  have hboots₂ := hboots₁.trans hboots₁₂
  obtain ⟨status, memoryMap⟩ := answer
  dsimp only at hpool ⊢
  split_ifs with hstatus
  · exact .stop hboots₂
  · obtain ⟨hptr, hfits, hapart, hgiven, hbytes⟩ := hpool (not_not.mp hstatus)
    refine (ends_firmwareAsk _ b₂).bind fun answer b₃ h₃ => ?_
    obtain ⟨rfl, rfl⟩ := h₃
    dsimp only
    obtain ⟨reply, hreply⟩ : ∃ reply, reply = (efi.getMemoryMap size b₂.firmware).2.1 := ⟨_, rfl⟩
    have hle : reply.data.length ≤ size := hreply ▸ law.memoryMap_le size _
    rw [← hreply]
    obtain ⟨piece, hpiece⟩ : ∃ piece : Piece UInt8,
        piece = ⟨⟨memoryMap, reply.data.length⟩, fun k => reply.data.getD k 0⟩ := ⟨_, rfl⟩
    have hin : piece.area.Inside ⟨memoryMap, size⟩ := hpiece ▸ Area.Inside.of_le hle
    refine (ends_storeBytes (by omega) _).bind fun _ b₄ h₄ => ?_
    have hbytes₄ : b₄.bytes = piece.fill b₁.bytes := by rw [h₄, hpiece, ← hbytes]
    have hgiven₄ : given b₄.firmware = given b₂.firmware := by
      rw [h₄]
      exact law.memoryMap size _
    have hboots₄ : Boots given b b₄ :=
      hboots₁.trans (.fill (hgiven₄.trans hgiven) hbytes₄ hapart hin)
    split_ifs with hmap
    · exact .stop hboots₄
    · refine (hboots₄.ends (ends_firmwareCall (law.exit reply.key) b₄)).bind fun _ b₅ h₅ =>
        .pure ⟨hboots₄.trans h₅.1, rfl, rfl, ?_⟩
      obtain ⟨hlen, hwide, haround⟩ := law.maps size b₂.firmware (not_not.mp hmap)
      rw [← hreply] at hlen hwide haround
      have hgiven₅ : given b₅.firmware = given b₂.firmware := by rw [h₅.2.2, law.exit, hgiven₄]
      have hthere : piece.In b₅.bytes := by
        refine h₅.1.piece (by rw [hbytes₄]; exact Piece.in_fill _ _) hin ?_
        rw [hgiven₄, hgiven]
        exact List.mem_cons_self
      have hmem : (⟨memoryMap, size⟩ : Area) ∈ given b₅.firmware := by
        rw [hgiven₅, hgiven]
        exact List.mem_cons_self
      refine ⟨⟨_, hmem, Area.Inside.of_le (hlen ▸ hle)⟩, ?_⟩
      rw [hgiven₅]
      exact ⟨_, initAllocator_handed hptr hwide hlen (hpiece ▸ hthere), haround⟩

end Exit

end Law

end Rymos
