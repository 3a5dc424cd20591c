import Mathlib.Tactic
import Rymos.Base.Areas
import Rymos.Base.Attempt
import Rymos.Boot.BootFs
import Rymos.Boot.Initrd
import Rymos.Console.Screen
import Rymos.Mem.Allocator
import Rymos.Mem.Loader

/-!
# The bootloader

* `BootServices`: the calls of the firmware.
* `Booting`: the firmware and memory during the boot. `BootRun`: a part of the bootloader; it may stop with a
  status, and does not return where its behaviour is undefined.
* `readFile`, `loadElf`, `setGraphicsMode`, `framebufferInfo`, `exitBootServices`, **`bootKernel`**: the
  bootloader.
* `BootFs.new`, `initAllocator`: how the kernel takes over what it is given.
-/

namespace Rymos

open ByteBuf Areas Attempt

/-! ## The firmware -/

abbrev efiLoadError : ℕ := 1

abbrev efiNotFound : ℕ := 14

structure EfiGraphicsOutputModeInformation where
  horizontalResolution : ℕ
  verticalResolution : ℕ
  pixelFormat : ℕ
  pixelsPerScanLine : ℕ

/-- The information is `none` where its pointer is null. -/
structure EfiGraphicsOutputProtocolMode where
  maxMode : ℕ
  info : Option EfiGraphicsOutputModeInformation
  framebufferBase : ℕ
  framebufferSize : ℕ

/-- What `get_memory_map` writes: to its arguments, and to the buffer. -/
structure MapReply where
  size : ℕ
  key : ℕ
  descriptorSize : ℕ
  data : List UInt8

/-- The calls of the bootloader to the firmware, over the states of the firmware. The first result is a status;
`0` is success. -/
structure BootServices (σ : Type) where
  loadedImage : σ → ℕ × σ
  fileSystem : σ → ℕ × σ
  openVolume : σ → ℕ × σ
  openFile (path : List ℕ) : σ → ℕ × σ
  allocatePool (size : ℕ) : σ → ℕ × ℕ × σ
  /-- `read` into a buffer of a size, with the bytes that are put there. -/
  read (size : ℕ) : σ → ℕ × List UInt8 × σ
  /-- `close` of the file and of the root directory. -/
  close : σ → σ
  allocatePages (address pages : ℕ) : σ → ℕ × σ
  /-- `locate_protocol`, and the `mode` of what it locates. -/
  graphicsOutput : σ → Option (Option EfiGraphicsOutputProtocolMode) × σ
  /-- `query_mode`; `none` on an error. -/
  queryMode (mode : ℕ) : σ → Option EfiGraphicsOutputModeInformation × σ
  setMode (mode : ℕ) : σ → σ
  getMemoryMap (size : ℕ) : σ → ℕ × MapReply × σ
  exitBootServices (key : ℕ) : σ → ℕ × σ

/-- The firmware, and memory. -/
structure Booting (σ : Type) where
  firmware : σ
  bytes : ℕ → UInt8

/-- A part of the bootloader. It stops with a status. -/
abbrev BootRun (σ : Type) : Type → Type := Attempt (Booting σ) ℕ

variable {σ : Type}

/-- A call that stops the bootloader unless it succeeds. -/
def firmwareCall (f : σ → ℕ × σ) : BootRun σ Unit := fun b =>
  let (status, firmware) := f b.firmware
  some ({ b with firmware := firmware }, if status = 0 then .ok () else .error status)

/-- A call whose answer is looked at. -/
def firmwareAsk {α : Type} (f : σ → α × σ) : BootRun σ α := fun b =>
  let (answer, firmware) := f b.firmware
  some ({ b with firmware := firmware }, .ok answer)

/-- Bytes written from an address on; past the end of the address space this is undefined. -/
def storeBytes (start count : ℕ) (value : ℕ → UInt8) : BootRun σ Unit :=
  call fun b =>
    if start + count ≤ 2 ^ 64 then
      some { b with bytes := Piece.fill ⟨⟨start, count⟩, value⟩ b.bytes }
    else none

/-! ## Files -/

abbrev kernelReadLimit : ℕ := 1024 * 1024

abbrev initrdReadLimit : ℕ := 32 * 1024 * 1024

/-- `KERNEL_PATH`. -/
def kernelPath16 : List ℕ := (ascii "\\KERNEL.ELF").map UInt8.toNat ++ [0]

/-- `INITRD_PATH`. -/
def initrdPath16 : List ℕ := (ascii "\\INITRD.RFS").map UInt8.toNat ++ [0]

/-- A buffer of a status of success. -/
structure FileBuffer where
  ptr : ℕ
  size : ℕ

variable (efi : BootServices σ)

def readFile (path : List ℕ) (readLimit : ℕ) : BootRun σ FileBuffer := do
  firmwareCall efi.loadedImage
  firmwareCall efi.fileSystem
  firmwareCall efi.openVolume
  firmwareCall (efi.openFile path)
  let (status, buffer) ← firmwareAsk fun s =>
    let (status, buffer, s) := efi.allocatePool readLimit s
    ((status, buffer), s)
  if status ≠ 0 then stop status
  else
    let (status, data) ← firmwareAsk fun s =>
      let (status, data, s) := efi.read readLimit s
      ((status, data), s)
    storeBytes buffer data.length fun k => data.getD k 0
    firmwareAsk fun s => ((), efi.close s)
    if data.length = 0 then stop efiNotFound
    else if status ≠ 0 then stop status
    else pure ⟨buffer, data.length⟩

/-! ## The kernel -/

/-- A little-endian field. -/
def fieldOf (read : ℕ → UInt8) (offset size : ℕ) : ℕ :=
  leValue ((List.range size).map fun k => read (offset + k))

def Elf64Header.ofBytes (read : ℕ → UInt8) : Elf64Header where
  ident := (List.range 16).map read
  machine := fieldOf read 18 2
  entry := fieldOf read 24 8
  phoff := fieldOf read 32 8
  phentsize := fieldOf read 54 2
  phnum := fieldOf read 56 2

def Elf64ProgramHeader.ofBytes (read : ℕ → UInt8) : Elf64ProgramHeader where
  typ := fieldOf read 0 4
  offset := fieldOf read 8 8
  paddr := fieldOf read 24 8
  filesz := fieldOf read 32 8
  memsz := fieldOf read 40 8

/-- The bytes at a pointer. -/
def Booting.at (b : Booting σ) (ptr offset : ℕ) : UInt8 := b.bytes (usize (ptr + offset))

/-- Where a program header is, from the first byte of the file. -/
def Elf64Header.entryOffset (header : Elf64Header) (index : ℕ) : ℕ :=
  usize (header.phoff + usize (index * header.phentsize))

/-- One program header; `false` is the `return 0`. -/
def loadProgramHeader (elf size : ℕ) (header : Elf64Header) (index : ℕ) : BootRun σ Bool := do
  let b ← Attempt.read
  let ph := Elf64ProgramHeader.ofBytes fun k => b.at elf (header.entryOffset index + k)
  if ¬ ph.Loadable then pure true
  else if ph.BadLoad size then pure false
  else
    let status ← firmwareAsk (efi.allocatePages ph.paddr ((ph.memsz + 4095) / 4096))
    if status ≠ 0 then pure false
    else
      storeBytes ph.paddr ph.memsz fun _ => 0
      let b ← Attempt.read
      storeBytes ph.paddr ph.filesz fun k => b.at elf (ph.offset + k)
      pure true

/-- The program headers `index` to `index + n`. -/
def loadProgramHeaders (elf size : ℕ) (header : Elf64Header) : ℕ → ℕ → BootRun σ Bool
  | _, 0 => pure true
  | index, n + 1 => do
    if ← loadProgramHeader efi elf size header index then
      loadProgramHeaders elf size header (index + 1) n
    else pure false

def loadElf (elf size : ℕ) : BootRun σ ℕ := do
  if size < elfHeaderSize then pure 0
  else
    let b ← Attempt.read
    let header := Elf64Header.ofBytes (b.at elf)
    if header.Unsupported then pure 0
    else if header.BadProgramHeaders size then pure 0
    else if ← loadProgramHeaders efi elf size header 0 header.phnum then
      let b ← Attempt.read
      pure (Elf64Header.ofBytes (b.at elf)).entry
    else pure 0

/-! ## The screen -/

/-- The loop over the modes, `mode` to `mode + n`. -/
def graphicsModeLoop (width height : ℕ) : ℕ → ℕ → BootRun σ Unit
  | _, 0 => pure ()
  | mode, n + 1 => do
    match ← firmwareAsk (efi.queryMode mode) with
    | none => graphicsModeLoop width height (mode + 1) n
    | some info =>
      if info.horizontalResolution = width ∧ info.verticalResolution = height then
        firmwareAsk fun s => ((), efi.setMode mode s)
      else graphicsModeLoop width height (mode + 1) n

def setGraphicsMode (width height : ℕ) : BootRun σ Unit := do
  match ← firmwareAsk efi.graphicsOutput with
  | some (some mode) => graphicsModeLoop efi width height 0 mode.maxMode
  | _ => pure ()

/-- What the kernel is told. -/
structure BootHandover extends BootInfo where
  initrdBase : ℕ
  initrdSize : ℕ
  memoryMapBase : ℕ
  memoryMapSize : ℕ
  memoryDescriptorSize : ℕ

def emptyBootInfo : BootHandover where
  framebufferBase := 0
  framebufferSize := 0
  horizontalResolution := 0
  verticalResolution := 0
  pixelsPerScanLine := 0
  pixelFormat := 0
  initrdBase := 0
  initrdSize := 0
  memoryMapBase := 0
  memoryMapSize := 0
  memoryDescriptorSize := 0

def framebufferInfo : BootRun σ BootHandover := do
  match ← firmwareAsk efi.graphicsOutput with
  | some (some ⟨_, some info, base, size⟩) =>
    pure { emptyBootInfo with
      framebufferBase := base
      framebufferSize := size
      horizontalResolution := info.horizontalResolution
      verticalResolution := info.verticalResolution
      pixelsPerScanLine := info.pixelsPerScanLine
      pixelFormat := info.pixelFormat }
  | _ => pure emptyBootInfo

/-! ## The way to the kernel -/

/-- The status of the first `get_memory_map` is not looked at. -/
def exitBootServices (info : BootHandover) : BootRun σ BootHandover := do
  let asked ← firmwareAsk fun s =>
    let (_, reply, s) := efi.getMemoryMap 0 s
    (reply, s)
  let size := usize (asked.size + usize (asked.descriptorSize * 8))
  let (status, memoryMap) ← firmwareAsk fun s =>
    let (status, buffer, s) := efi.allocatePool size s
    ((status, buffer), s)
  if status ≠ 0 then stop status
  else
    let (status, reply) ← firmwareAsk fun s =>
      let (status, reply, s) := efi.getMemoryMap size s
      ((status, reply), s)
    storeBytes memoryMap reply.data.length fun k => reply.data.getD k 0
    if status ≠ 0 then stop status
    else
      firmwareCall (efi.exitBootServices reply.key)
      pure { info with
        memoryMapBase := memoryMap
        memoryMapSize := reply.size
        memoryDescriptorSize := reply.descriptorSize }

/-- The address of the kernel, and what it is told. -/
def bootKernel : BootRun σ (ℕ × BootHandover) := do
  let kernel ← readFile efi kernelPath16 kernelReadLimit
  let entry ← loadElf efi kernel.ptr kernel.size
  if entry = 0 then stop efiLoadError
  else
    setGraphicsMode efi 1024 768
    let info ← framebufferInfo efi
    let initrd ← result (readFile efi initrdPath16 initrdReadLimit)
    let info := initrd.toOption.elim info fun buffer =>
      { info with initrdBase := buffer.ptr, initrdSize := buffer.size }
    let info ← exitBootServices efi info
    pure (entry, info)

/-! ## The kernel takes over -/

/-- `BootFs::new`. -/
def BootFs.new (info : BootHandover) (bytes : ℕ → UInt8) : BootFs :=
  if info.initrdBase = 0 ∨ info.initrdSize = 0 then ⟨[]⟩
  else ⟨(List.range info.initrdSize).map fun k => bytes (info.initrdBase + k)⟩

/-- The descriptor at a place of the map. -/
def EfiMemoryDescriptor.ofBytes (read : ℕ → UInt8) : EfiMemoryDescriptor where
  typ := fieldOf read 0 4
  physicalStart := fieldOf read 8 8
  numberOfPages := fieldOf read 24 8

/-- The first `count` descriptors of a map. -/
def descriptors (read : ℕ → UInt8) (descriptorSize count : ℕ) : List EfiMemoryDescriptor :=
  (List.range count).map fun index =>
    .ofBytes fun k => read (index * descriptorSize + k)

/-- `init_physical_allocator`. -/
def initAllocator (info : BootHandover) (bytes : ℕ → UInt8) : PhysAllocator :=
  if info.memoryMapBase = 0 ∨ info.memoryMapSize = 0 ∨ info.memoryDescriptorSize = 0 then .empty
  else
    initPhysicalAllocator (descriptors (fun k => bytes (info.memoryMapBase + k))
      info.memoryDescriptorSize (info.memoryMapSize / info.memoryDescriptorSize))

end Rymos
