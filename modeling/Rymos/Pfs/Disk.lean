import Mathlib.Tactic
import Rymos.Base.Blocks
import Rymos.Pfs.AllocInv

/-!
# The data disk

* `Disk`: the sectors of the drive and how it answers. `ataReadSector`, `ataWriteSector`.
* `readHeaderSilent`, `writeHeader`, `persistentFormat`: the header sector by sector.
* `diskHeader`: the header bytes on the disk. **`writeHeader_spec`**, `readHeaderSilent_eq_some`.
* `HeaderWritable`, `Reliable`: the drive accepts every write of a header sector; it never fails.
-/

namespace Rymos

open ByteBuf Extents Blocks

abbrev Sector : Type := Buf 512

/-- The drive: its sectors, whether it is there, and for which sectors a command succeeds. A failed
write leaves the sector. -/
structure Disk where
  sectors : Device 512
  present : Bool
  readOk : ℕ → Bool
  writeOk : ℕ → Bool

/-- The drive is sent the low 28 bits of an address. -/
def lba28 (lba : ℕ) : ℕ := lba % 2 ^ 28

def ataReadSector (disk : Disk) (lba : ℕ) : Option Sector :=
  if disk.readOk (lba28 lba) then some (disk.sectors (lba28 lba)) else none

def ataWriteSector (disk : Disk) (lba : ℕ) (buffer : Sector) : Bool × Disk :=
  if disk.writeOk (lba28 lba) then
    (true, { disk with sectors := Function.update disk.sectors (lba28 lba) buffer })
  else (false, disk)

/-! ## The header -/

/-- `b"RYMFS5\0\0"`. -/
def pfsMagic : List UInt8 := [82, 89, 77, 70, 83, 53, 0, 0]

/-- The bytes of the header sectors. -/
def diskHeader (disk : Disk) : Header :=
  ⟨fun k => (disk.sectors (k.1 / 512)).byte (k.1 % 512)⟩

def readHeaderSilent (disk : Disk) : Option Header :=
  if (List.range pfsHeaderSectors).all fun sectorIndex => disk.readOk (lba28 sectorIndex) then
    if (diskHeader disk).slice 0 8 == pfsMagic then some (diskHeader disk) else none
  else none

def readHeader (disk : Disk) : Option Header := if disk.present then readHeaderSilent disk else none

/-- Sector `sectorIndex` of the header. -/
def headerSector (header : Header) (sectorIndex : ℕ) : Sector :=
  ⟨fun k => header.byte (sectorIndex * 512 + k.1)⟩

/-- The loop of `write_header`, over the sectors still to be written. -/
def writeHeaderLoop (header : Header) : List ℕ → Disk → Bool × Disk
  | [], disk => (true, disk)
  | sectorIndex :: rest, disk =>
    match ataWriteSector disk sectorIndex (headerSector header sectorIndex) with
    | (true, disk) => writeHeaderLoop header rest disk
    | (false, disk) => (false, disk)

def writeHeader (disk : Disk) (header : Header) : Bool × Disk :=
  writeHeaderLoop header (List.range pfsHeaderSectors) disk

/-- The header `PersistentFs::format` writes; its entry count byte is `256 as u8`. -/
def emptyHeader : Header :=
  (((Buf.zero pfsHeaderBytes).put 0 pfsMagic).put 8 [5]).put 9 [UInt8.ofNat pfsEntryCount]

def persistentFormat (disk : Disk) : Disk :=
  if disk.present then (writeHeader disk emptyHeader).2 else disk

/-! ## What the header functions do -/

/-- The drive accepts every write of a header sector. -/
def HeaderWritable (disk : Disk) : Prop := ∀ x < pfsDataStart, disk.writeOk x = true

/-- The drive never fails. -/
def Reliable (disk : Disk) : Prop :=
  disk.present = true ∧ ∀ x, disk.readOk x = true ∧ disk.writeOk x = true

/-- The disk with another header. -/
def withHeader (disk : Disk) (header : Header) : Disk :=
  { disk with
    sectors := fun x => if x < pfsDataStart then headerSector header x else disk.sectors x }

section Header

variable {disk : Disk} {header : Header}

theorem Reliable.headerWritable (h : Reliable disk) : HeaderWritable disk := fun x _ => (h.2 x).2

theorem lba28_of_lt {x : ℕ} (h : x < pfsDiskSectors) : lba28 x = x :=
  Nat.mod_eq_of_lt (by rw [pfsDiskSectors_eq] at h; omega)

theorem byte_headerSector (header : Header) (x : ℕ) {k : ℕ} (hk : k < 512) :
    (headerSector header x).byte k = header.byte (x * 512 + k) := by
  rw [Buf.byte, dif_pos hk]
  rfl

theorem byte_diskHeader (disk : Disk) {k : ℕ} (hk : k < 39424) :
    (diskHeader disk).byte k = (disk.sectors (k / 512)).byte (k % 512) := by
  rw [Buf.byte, dif_pos (by rw [pfsHeaderBytes_eq]; exact hk)]
  rfl

theorem writeHeaderLoop_spec (h : HeaderWritable disk) (l : List ℕ) (hl : ∀ x ∈ l, x < pfsDataStart) :
    writeHeaderLoop header l disk = (true, { disk with
      sectors := fun x => if x ∈ l then headerSector header x else disk.sectors x }) := by
  induction l generalizing disk with
  | nil => simp [writeHeaderLoop]
  | cons x l ih =>
    have hx := hl x (by simp)
    have h28 : lba28 x = x := lba28_of_lt (by rw [pfsDataStart_eq] at hx; rw [pfsDiskSectors_eq]; omega)
    rw [writeHeaderLoop, ataWriteSector, h28, if_pos (h x hx)]
    dsimp only
    rw [ih (by exact h) fun y hy => hl y (List.mem_cons_of_mem _ hy)]
    congr 2
    funext y
    dsimp only
    by_cases hy : y ∈ l
    · rw [if_pos hy, if_pos (List.mem_cons_of_mem _ hy)]
    · rw [if_neg hy]
      by_cases hyx : y = x
      · subst hyx
        rw [Function.update_self, if_pos List.mem_cons_self]
      · rw [Function.update_of_ne hyx, if_neg (by simp [hyx, hy])]

/-- **A header write replaces the header sectors.** -/
theorem writeHeader_spec (h : HeaderWritable disk) :
    writeHeader disk header = (true, withHeader disk header) := by
  rw [writeHeader, writeHeaderLoop_spec h _ fun x hx => List.mem_range.mp hx, withHeader]
  simp only [List.mem_range]

@[simp] theorem diskHeader_withHeader : diskHeader (withHeader disk header) = header := by
  refine Buf.ext_byte fun k hk => ?_
  rw [pfsHeaderBytes_eq] at hk
  have hlt : k / 512 < pfsDataStart := by rw [pfsDataStart_eq]; omega
  rw [byte_diskHeader _ hk, withHeader]
  dsimp only
  rw [if_pos hlt, byte_headerSector _ _ (Nat.mod_lt _ (by omega))]
  congr 1
  omega

theorem sectors_withHeader {x : ℕ} (h : pfsDataStart ≤ x) :
    (withHeader disk header).sectors x = disk.sectors x := by
  rw [withHeader]
  dsimp only
  rw [if_neg (by omega)]

theorem withHeader_withHeader (disk : Disk) (header header' : Header) :
    withHeader (withHeader disk header) header' = withHeader disk header' := by
  simp only [withHeader]
  congr 1
  funext x
  split_ifs <;> rfl

/-- A disk whose header is written again. -/
theorem withHeader_self (disk : Disk) : withHeader disk (diskHeader disk) = disk := by
  have hsectors : (fun x => if x < pfsDataStart then headerSector (diskHeader disk) x
      else disk.sectors x) = disk.sectors := by
    funext x
    split_ifs with hx
    · have hx : x < 77 := hx
      refine Buf.ext_byte fun k hk => ?_
      rw [byte_headerSector _ _ hk, byte_diskHeader _ (by omega)]
      congr 2 <;> omega
    · rfl
  rw [withHeader, hsectors]

theorem readHeaderSilent_eq_some (h : readHeaderSilent disk = some header) :
    header = diskHeader disk ∧ (diskHeader disk).slice 0 8 = pfsMagic := by
  rw [readHeaderSilent] at h
  split_ifs at h with h₁ h₂
  cases h
  exact ⟨rfl, beq_iff_eq.mp h₂⟩

theorem readHeaderSilent_of_reliable (h : Reliable disk)
    (hm : (diskHeader disk).slice 0 8 = pfsMagic) : readHeaderSilent disk = some (diskHeader disk) := by
  rw [readHeaderSilent, if_pos (List.all_eq_true.mpr fun x _ => (h.2 _).1), if_pos (beq_iff_eq.mpr hm)]

/-- A header read before is read again as long as its sectors and the drive are the same. -/
theorem readHeaderSilent_congr {disk' : Disk} (hr : disk'.readOk = disk.readOk)
    (hd : (diskHeader disk').slice 0 8 = (diskHeader disk).slice 0 8)
    (h : readHeaderSilent disk = some header) : readHeaderSilent disk' = some (diskHeader disk') := by
  rw [readHeaderSilent] at h ⊢
  rw [hr, hd]
  split_ifs at h ⊢
  rfl

theorem diskHeader_congr {disk' : Disk} (h : ∀ x < pfsDataStart, disk'.sectors x = disk.sectors x) :
    diskHeader disk' = diskHeader disk := by
  refine Buf.ext_byte fun k hk => ?_
  rw [pfsHeaderBytes_eq] at hk
  rw [byte_diskHeader _ hk, byte_diskHeader _ hk, h _ (by rw [pfsDataStart_eq]; omega)]

end Header

/-! ## The formatted disk -/

theorem byte_emptyHeader {k : ℕ} (h : 10 ≤ k) : emptyHeader.byte k = 0 := by
  rw [emptyHeader, Buf.byte_put_of_not _ (by simp; omega), Buf.byte_put_of_not _ (by simp; omega),
    Buf.byte_put_of_not _ (by simp [pfsMagic]; omega), Buf.byte_zero]

theorem pfsEntryUsed_emptyHeader (i : ℕ) : pfsEntryUsed emptyHeader i = false := by
  rw [pfsEntryUsed, byte_emptyHeader (by rw [pfsEntryOffset_eq]; omega)]
  rfl

theorem magic_emptyHeader : emptyHeader.slice 0 8 = pfsMagic := by
  rw [emptyHeader, Buf.slice_put_disj _ (by simp), Buf.slice_put_disj _ (by simp)]
  exact Buf.slice_put_same _ 0 pfsMagic (by rw [pfsHeaderBytes_eq]; simp [pfsMagic])

/-- **An empty header meets both invariants.** -/
theorem allocInv_emptyHeader : AllocInv emptyHeader := by
  have hu := pfsEntryUsed_emptyHeader
  have hf : ∀ i, pfsEntryIsFile emptyHeader i = false := fun i => by simp [pfsEntryIsFile, hu]
  have he : fileExtents emptyHeader = fun _ => [] := by
    funext i
    rw [fileExtents, hf]
    rfl
  refine ⟨he ▸ ⟨fun _ => spread_nil, fun _ x hx => absurd hx (covers_nil x),
    fun _ _ x hx => absurd hx (covers_nil x)⟩, fun i _ h => ?_, fun i _ h => ?_, fun i _ h => ?_⟩
  · rw [hu] at h; cases h
  · rw [pfsEntryIsDir, byte_emptyHeader (by rw [pfsEntryOffset_eq]; omega)] at h
    cases h
  · rw [hf] at h; cases h

theorem treeInv_emptyHeader : TreeInv emptyHeader := by
  have ht : ∀ {i name b}, pfsTable emptyHeader i ≠ some (name, b) := fun {i name b} h => by
    simp [pfsTable, pfsEntryUsed_emptyHeader] at h
  exact ⟨fun h => absurd h ht, fun h => absurd h ht, fun h => absurd h ht⟩

/-! ## A blank drive -/

/-- A drive that never fails, all zeros but for its header. -/
def blankDisk (header : Header) : Disk :=
  withHeader
    { sectors := fun _ => Buf.zero 512
      present := true
      readOk := fun _ => true
      writeOk := fun _ => true } header

theorem reliable_blankDisk (header : Header) : Reliable (blankDisk header) :=
  ⟨rfl, fun _ => ⟨rfl, rfl⟩⟩

theorem readHeaderSilent_blankDisk {header : Header} (h : header.slice 0 8 = pfsMagic) :
    readHeaderSilent (blankDisk header) = some header := by
  have := readHeaderSilent_of_reliable (reliable_blankDisk header)
    (by rw [blankDisk, diskHeader_withHeader]; exact h)
  rwa [blankDisk, diskHeader_withHeader] at this

end Rymos
