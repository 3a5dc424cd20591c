import Mathlib.Tactic
import Rymos.Base.Through
import Rymos.Mem.Isolation
import Rymos.Pfs.Header

/-!
# The ELF loader

* `Image`: the bytes of a program, and what is around them in memory.
* `Elf64Header`, `Elf64ProgramHeader`: the fields that the loader reads.
* `Loading`: memory during a load, with what of the image was read, the pages mapped and the addresses
  written. `Loading.mapImagePages`, `zeroBytes`, `copyNonoverlapping`: the steps.
* **`loadProgramElfIsolated`**: `load_program_elf_isolated`.
-/

namespace Rymos

open ByteBuf

/-! ## The image -/

/-- The bytes of an image, and those at any other distance from its first one. A slice takes less than half of
the address space. -/
structure Image where
  bytes : List UInt8
  around : ℕ → UInt8
  small : bytes.length < 2 ^ 63

/-- The byte at a distance from the first one. -/
def Image.read (image : Image) (offset : ℕ) : UInt8 :=
  image.bytes[usize offset]?.getD (image.around (usize offset))

/-- A little-endian field of `size` bytes. -/
def Image.field (image : Image) (offset size : ℕ) : ℕ :=
  leValue ((List.range size).map fun k => image.read (offset + k))

abbrev elfHeaderSize : ℕ := 64
abbrev elfProgramHeaderSize : ℕ := 56
def elfMagic : List UInt8 := [0x7F, 0x45, 0x4C, 0x46]
abbrev ptLoad : ℕ := 1

structure Elf64Header where
  ident : List UInt8
  machine : ℕ
  entry : ℕ
  phoff : ℕ
  phentsize : ℕ
  phnum : ℕ

def Image.header (image : Image) : Elf64Header where
  ident := (List.range 16).map image.read
  machine := image.field 18 2
  entry := image.field 24 8
  phoff := image.field 32 8
  phentsize := image.field 54 2
  phnum := image.field 56 2

structure Elf64ProgramHeader where
  typ : ℕ
  offset : ℕ
  paddr : ℕ
  filesz : ℕ
  memsz : ℕ

/-- Where program header `index` is. -/
def Image.programHeaderOffset (image : Image) (index : ℕ) : ℕ :=
  usize (image.header.phoff + usize (index * image.header.phentsize))

def Image.programHeader (image : Image) (index : ℕ) : Elf64ProgramHeader where
  typ := image.field (image.programHeaderOffset index) 4
  offset := image.field (image.programHeaderOffset index + 8) 8
  paddr := image.field (image.programHeaderOffset index + 24) 8
  filesz := image.field (image.programHeaderOffset index + 32) 8
  memsz := image.field (image.programHeaderOffset index + 40) 8

namespace Elf64ProgramHeader

/-- The loader skips the other segments. -/
def Loadable (ph : Elf64ProgramHeader) : Prop := ph.typ = ptLoad ∧ ph.memsz ≠ 0

instance (ph : Elf64ProgramHeader) : Decidable ph.Loadable := inferInstanceAs (Decidable (_ ∧ _))

def pageStart (ph : Elf64ProgramHeader) : ℕ := ph.paddr / pageSize * pageSize

def pageEnd (ph : Elf64ProgramHeader) : ℕ :=
  usize (ph.paddr + ph.memsz + pageSize - 1) / pageSize * pageSize

def pageCount (ph : Elf64ProgramHeader) : ℕ := usize (ph.pageEnd + 2 ^ 64 - ph.pageStart) / pageSize

/-- The check of the bytes in the image. -/
def BadLoad (ph : Elf64ProgramHeader) (length : ℕ) : Prop :=
  usize (ph.offset + ph.filesz) > length ∨ ph.filesz > ph.memsz

/-- The check of the addresses. -/
def Outside (ph : Elf64ProgramHeader) : Prop :=
  ph.paddr < appLoadMin ∨ usize (ph.paddr + ph.memsz) > appLoadMax

instance (ph : Elf64ProgramHeader) (length : ℕ) : Decidable (ph.BadLoad length) :=
  inferInstanceAs (Decidable (_ ∨ _))

instance (ph : Elf64ProgramHeader) : Decidable ph.Outside := inferInstanceAs (Decidable (_ ∨ _))

end Elf64ProgramHeader

/-! ## Loading -/

/-- Memory during a load: `bytes` is physical memory read as bytes, apart from the tables. `reads` are the parts of
the image that were read, with their lengths, `maps` the pages mapped and `stores` the addresses written. -/
structure Loading where
  mem : Memory
  bytes : ℕ → UInt8
  reads : List (ℕ × ℕ)
  maps : List ℕ
  stores : List ℕ

/-- The pages that `map_image_pages` maps, from page `index` on. -/
def imageMaps (pml4 base : ℕ) : ℕ → ℕ → Memory → List ℕ
  | _, 0, _ => []
  | index, n + 1, mem =>
    if pageMapped pml4 (pageVirt base index) mem then imageMaps pml4 base (index + 1) n mem
    else
      match allocZeroedPage mem with
      | (none, _) => []
      | (some phys, mem) =>
        match mapPage pml4 (pageVirt base index) phys presentWritable mem with
        | (false, _) => []
        | (true, mem) => pageVirt base index :: imageMaps pml4 base (index + 1) n mem

/-- The page of a byte. -/
def frameOf (x : ℕ) : ℕ := x / pageSize * pageSize

/-- The pages that the allocator has handed out are cleared. -/
def clearTaken (before after : PhysPageAllocator) (bytes : ℕ → UInt8) (x : ℕ) : UInt8 :=
  if frameOf x ∈ before.available ∧ frameOf x ∉ after.available then 0 else bytes x

namespace Loading

def read (offset length : ℕ) (l : Loading) : Loading := { l with reads := (offset, length) :: l.reads }

def mapImagePages (pml4 base pageCount : ℕ) (l : Loading) : Bool × Loading :=
  let (ok, mem) := Rymos.mapImagePages pml4 base pageCount l.mem
  (ok, { l with
    mem := mem
    bytes := clearTaken l.mem.allocator mem.allocator l.bytes
    maps := imageMaps pml4 base 0 pageCount l.mem ++ l.maps })

/-- `count` bytes written from an address on, through the active PML4; `none` is a page fault. -/
def storeRun (pml4 destination count : ℕ) (value : ℕ → UInt8) (l : Loading) : Option Loading :=
  let address := fun k => usize (destination + k)
  (Through.putRun (translate l.mem.table pml4) address value 0 count l.bytes).map fun bytes =>
    { l with
      bytes := bytes
      stores := (List.range count).map address ++ l.stores }

end Loading

def zeroBytes (pml4 destination length : ℕ) (l : Loading) : Option Loading :=
  l.storeRun pml4 destination length fun _ => 0

def copyNonoverlapping (image : Image) (pml4 source destination count : ℕ) (l : Loading) : Option Loading :=
  (l.read source count).storeRun pml4 destination count fun k => image.read (source + k)

/-- One program header. An error is `None`, with the line that is written. -/
def loadSegment (image : Image) (pml4 index : ℕ) (l : Loading) : Option (Except String Unit × Loading) :=
  let ph := image.programHeader index
  let l := l.read (image.programHeaderOffset index) elfProgramHeaderSize
  if ¬ ph.Loadable then some (.ok (), l)
  else if ph.BadLoad image.bytes.length then some (.error "run: bad load segment", l)
  else if ph.Outside then some (.error "run: segment outside app area", l)
  else
    match l.mapImagePages pml4 ph.pageStart ph.pageCount with
    | (false, l) => some (.error "run: segment map failed", l)
    | (true, l) =>
      (zeroBytes pml4 ph.paddr ph.memsz l).bind fun l =>
        (copyNonoverlapping image pml4 ph.offset ph.paddr ph.filesz l).map fun l => (.ok (), l)

/-- The program headers `index` to `index + n`. -/
def loadSegments (image : Image) (pml4 : ℕ) : ℕ → ℕ → Loading → Option (Except String ℕ × Loading)
  | _, 0, l => some (.ok image.header.entry, l)
  | index, n + 1, l =>
    (loadSegment image pml4 index l).bind fun r =>
      match r.1 with
      | .error line => some (.error line, r.2)
      | .ok _ => loadSegments image pml4 (index + 1) n r.2

def Elf64Header.Unsupported (header : Elf64Header) : Prop :=
  header.ident.take 4 ≠ elfMagic ∨ header.ident[4]? ≠ some 2 ∨ header.machine ≠ 0x3E

instance (header : Elf64Header) : Decidable header.Unsupported := inferInstanceAs (Decidable (_ ∨ _ ∨ _))

def Elf64Header.BadProgramHeaders (header : Elf64Header) (length : ℕ) : Prop :=
  header.phentsize < elfProgramHeaderSize ∨
    usize (header.phoff + usize (header.phentsize * header.phnum)) > length

instance (header : Elf64Header) (length : ℕ) : Decidable (header.BadProgramHeaders length) :=
  inferInstanceAs (Decidable (_ ∨ _))

/-- `load_program_elf_isolated`, with the private PML4 active. -/
def loadProgramElfIsolated (image : Image) (pml4 : ℕ) (l : Loading) :
    Option (Except String ℕ × Loading) :=
  if image.bytes.length < elfHeaderSize then some (.error "run: bad elf header", l)
  else
    let l := l.read 0 elfHeaderSize
    if image.header.Unsupported then some (.error "run: unsupported elf", l)
    else if image.header.BadProgramHeaders image.bytes.length then
      some (.error "run: bad program headers", l)
    else loadSegments image pml4 0 image.header.phnum l

end Rymos
