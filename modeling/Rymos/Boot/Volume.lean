import Mathlib.Tactic
import Rymos.Base.Fat32
import Rymos.Boot.MakeFat32

/-!
# The boot image decodes to the payloads

* `Storable`, `stored`: directory entries, and **`dirEntry_entryBytes`**.
* `field_sector`, `field_table`, `field_block`: the parts of the image; **`geometry_imageBytes`**,
  `isFat32_imageBytes`, `copiesEqual_imageBytes`, `fatEntry_imageBytes`.
* `Linked`: clusters that the table links one after the other; **`chain_of_linked`**.
* `findIn_imageBytes`, `lookup_boot`, `lookup_kernel`, `lookup_initrd`: the directories;
  `isFile_imageBytes`.
* `Decodes`, `decodes_imageBytes`, **`buildImage_decodes`**: the image as a reader finds it.
-/

namespace Rymos

open ByteBuf Fat32

/-! ## The parts of the image -/

theorem ascending_bootWrites (totalSectors fatSectors : ℕ) :
    Ascending (bootWrites (leBytes 4 totalSectors) (leBytes 4 fatSectors)) := by
  simp only [Ascending, bootWrites, List.isChain_cons_cons, List.isChain_singleton, length_leBytes]
  decide

theorem inside_bootWrites (totalSectors fatSectors : ℕ) : Inside (List.replicate bytesPerSector 0)
    (bootWrites (leBytes 4 totalSectors) (leBytes 4 fatSectors)) := by
  simp only [Inside, bootWrites, List.forall_mem_cons, List.not_mem_nil, false_implies, implies_true,
    and_true, length_leBytes, List.length_replicate]
  decide

theorem length_bootBytes (totalSectors fatSectors : ℕ) :
    (bootBytes totalSectors fatSectors).length = bytesPerSector := by
  rw [bootBytes, length_putAll (inside_bootWrites _ _), List.length_replicate]

theorem length_fsinfo : fsinfo.length = bytesPerSector := by decide +kernel

/-! ## Entries -/

section Entry

variable {name : List UInt8} (hname : name.length = 11) (attr : UInt8) (cluster size : ℕ)
include hname

theorem ascending_entryWrites : Ascending (entryWrites name attr
    (leBytes 2 (cluster >>> 16 &&& 0xFFFF)) (leBytes 2 (cluster &&& 0xFFFF)) (leBytes 4 size)) := by
  simp [Ascending, entryWrites, hname]

theorem inside_entryWrites : Inside (List.replicate 32 0) (entryWrites name attr
    (leBytes 2 (cluster >>> 16 &&& 0xFFFF)) (leBytes 2 (cluster &&& 0xFFFF)) (leBytes 4 size)) := by
  simp [Inside, entryWrites, hname]

theorem length_entryBytes : (entryBytes name attr cluster size).length = 32 := by
  rw [entryBytes, length_putAll (inside_entryWrites hname attr cluster size), List.length_replicate]

theorem field_entryBytes {off : ℕ} {part : List UInt8} (h : (off, part) ∈ entryWrites name attr
    (leBytes 2 (cluster >>> 16 &&& 0xFFFF)) (leBytes 2 (cluster &&& 0xFFFF)) (leBytes 4 size)) :
    field (entryBytes name attr cluster size) off part.length = part :=
  field_putAll_of_mem (ascending_entryWrites hname attr cluster size)
    (inside_entryWrites hname attr cluster size) h

theorem numberAt_entryBytes (value : ℕ) {off width : ℕ} (h : (off, leBytes width value) ∈
    entryWrites name attr (leBytes 2 (cluster >>> 16 &&& 0xFFFF)) (leBytes 2 (cluster &&& 0xFFFF))
      (leBytes 4 size)) :
    numberAt (entryBytes name attr cluster size) off width = value % 256 ^ width := by
  have hread := field_entryBytes hname attr cluster size h
  rw [length_leBytes] at hread
  rw [numberAt, hread, leValue_leBytes]

/-- **An entry is read as it was made.** -/
theorem dirEntry_entryBytes (hcluster : cluster < 2 ^ 32) (hsize : size < 2 ^ 32) :
    dirEntry (entryBytes name attr cluster size) = ⟨name, attr, cluster, size⟩ := by
  have hname' := field_entryBytes hname attr cluster size (show (0, name) ∈ _ by simp [entryWrites])
  have hattr := field_entryBytes hname attr cluster size
    (show (11, [attr]) ∈ _ by simp [entryWrites])
  have hhigh : numberAt (entryBytes name attr cluster size) 20 2 = cluster / 2 ^ 16 := by
    rw [numberAt_entryBytes hname attr cluster size (cluster >>> 16 &&& 0xFFFF) (by simp [entryWrites]),
      Nat.shiftRight_eq_div_pow]
    have := Nat.and_two_pow_sub_one_eq_mod (cluster / 2 ^ 16) 16
    norm_num at *
    omega
  have hlow : numberAt (entryBytes name attr cluster size) 26 2 = cluster % 2 ^ 16 := by
    rw [numberAt_entryBytes hname attr cluster size (cluster &&& 0xFFFF) (by simp [entryWrites])]
    have := Nat.and_two_pow_sub_one_eq_mod cluster 16
    norm_num at *
    omega
  have hsize' : numberAt (entryBytes name attr cluster size) 28 4 = size := by
    rw [numberAt_entryBytes hname attr cluster size size (by simp [entryWrites])]
    exact Nat.mod_eq_of_lt hsize
  rw [hname] at hname'
  rw [dirEntry, hname', hhigh, hlow, hsize', Nat.div_add_mod', show field (entryBytes name attr cluster
    size) 11 1 = [attr] from hattr]
  rfl

theorem headD_entryBytes : (entryBytes name attr cluster size).headD 0 = name.headD 0 := by
  have hread := field_entryBytes hname attr cluster size (show (0, name) ∈ _ by simp [entryWrites])
  rw [hname, field, List.drop_zero] at hread
  rw [← hread]
  cases entryBytes name attr cluster size <;> rfl

end Entry

/-- The bytes of an entry. -/
def stored (entry : DirEntry) : List UInt8 :=
  entryBytes entry.name entry.attr entry.cluster entry.size

/-- The entry has a short name that does not end the directory, and its numbers fit. -/
structure Storable (entry : DirEntry) : Prop where
  name : entry.name.length = 11
  head : entry.name.headD 0 ≠ 0
  cluster : entry.cluster < 2 ^ 32
  size : entry.size < 2 ^ 32

theorem storable_mk {name : List UInt8} {attr : UInt8} {cluster size : ℕ} (hname : name.length = 11)
    (hhead : name.headD 0 ≠ 0) (hcluster : cluster < 2 ^ 32) (hsize : size < 2 ^ 32) :
    Storable ⟨name, attr, cluster, size⟩ := ⟨hname, hhead, hcluster, hsize⟩

theorem Storable.length_stored {entry : DirEntry} (h : Storable entry) :
    (stored entry).length = 32 :=
  length_entryBytes h.name entry.attr entry.cluster entry.size

/-- A stored entry stands first in its directory. -/
theorem Storable.dirEntries {entry : DirEntry} (h : Storable entry) (fuel : ℕ)
    (rest : List UInt8) :
    dirEntries (fuel + 1) (stored entry ++ rest) = entry :: dirEntries fuel rest := by
  have hhead := headD_entryBytes h.name entry.attr entry.cluster entry.size
  rw [dirEntries_append h.length_stored (by rw [stored, hhead]; exact h.head), stored,
    dirEntry_entryBytes h.name entry.attr entry.cluster entry.size h.cluster h.size]

section Parts

variable {boot kernel initrd : List UInt8} {totalSectors fatSectors clusterCount : ℕ}

@[simp] theorem length_imageEntries :
    (imageEntries boot kernel initrd clusterCount).length = clusterCount + 2 := by
  simp [imageEntries, fatEntries]

theorem length_imageBlocks : (imageBlocks boot kernel initrd).length =
    3 + (clustersOf boot.length + clustersOf kernel.length + clustersOf initrd.length) := by
  simp only [imageBlocks, chunks, List.length_append, List.length_cons, List.length_nil,
    List.length_map, List.length_range']
  omega

theorem length_of_mem_imageBlocks : ∀ block ∈ imageBlocks boot kernel initrd,
    block.length = bytesPerSector := by
  intro block hblock
  simp only [imageBlocks, chunks, List.mem_append, List.mem_cons, List.not_mem_nil, or_false,
    List.mem_map] at hblock
  rcases hblock with (rfl | rfl | rfl) | ⟨_, -, rfl⟩ | ⟨_, -, rfl⟩ | ⟨_, -, rfl⟩ <;>
    exact length_padded _

variable (hlay : ImageLayout boot kernel initrd totalSectors fatSectors clusterCount)
include hlay

theorem inside_table : Inside (List.replicate (fatSectors * bytesPerSector) 0)
    (blockWrites 4 0 ((imageEntries boot kernel initrd clusterCount).map (leBytes 4))) := by
  have := hlay.table
  refine inside_blockWrites (fun block hb => ?_) ?_
  · obtain ⟨v, -, rfl⟩ := List.mem_map.mp hb
    exact length_leBytes 4 v
  · rw [List.length_map, length_imageEntries, List.length_replicate]
    omega

theorem length_tableBytes : (tableBytes boot kernel initrd fatSectors clusterCount).length =
    fatSectors * bytesPerSector := by
  rw [tableBytes, length_putAll (inside_table hlay), List.length_replicate]

theorem inside_headWrites : Inside (List.replicate (totalSectors * bytesPerSector) 0)
    (headWrites boot kernel initrd totalSectors fatSectors clusterCount) := by
  have htotal := hlay.total
  have hfat := hlay.fat32
  simp only [Inside, headWrites, List.forall_mem_cons, List.not_mem_nil, false_implies, implies_true,
    and_true, length_bootBytes, length_fsinfo, length_tableBytes hlay, List.length_replicate]
  simp only [reservedSectors, fatCount, bytesPerSector] at *
  omega

theorem length_headBytes : (putAll (List.replicate (totalSectors * bytesPerSector) 0)
    (headWrites boot kernel initrd totalSectors fatSectors clusterCount)).length =
      totalSectors * bytesPerSector := by
  rw [length_putAll (inside_headWrites hlay), List.length_replicate]

theorem blocks_fit : (reservedSectors + fatCount * fatSectors) * bytesPerSector +
    bytesPerSector * (imageBlocks boot kernel initrd).length ≤ totalSectors * bytesPerSector := by
  have htotal := hlay.total
  have hroom := hlay.room
  rw [length_imageBlocks, Nat.mul_comm bytesPerSector, ← Nat.add_mul]
  exact Nat.mul_le_mul_right _ (by omega)

theorem length_imageBytes : (imageBytes boot kernel initrd totalSectors fatSectors
    clusterCount).length = totalSectors * bytesPerSector := by
  rw [imageBytes, length_putAll, length_headBytes hlay]
  refine inside_blockWrites length_of_mem_imageBlocks ?_
  rw [length_headBytes hlay]
  exact blocks_fit hlay

/-- A block of the data area. -/
theorem field_block {i : ℕ} (hi : i < (imageBlocks boot kernel initrd).length) :
    field (imageBytes boot kernel initrd totalSectors fatSectors clusterCount)
      ((reservedSectors + fatCount * fatSectors) * bytesPerSector + bytesPerSector * i)
      bytesPerSector = (imageBlocks boot kernel initrd)[i] := by
  refine field_blockWrites length_of_mem_imageBlocks ?_ hi
  rw [length_headBytes hlay]
  exact blocks_fit hlay

/-- Before the data area stand the writes of the head. -/
theorem field_head {off len : ℕ}
    (hle : off + len ≤ (reservedSectors + fatCount * fatSectors) * bytesPerSector) :
    field (imageBytes boot kernel initrd totalSectors fatSectors clusterCount) off len =
      field (putAll (List.replicate (totalSectors * bytesPerSector) 0)
        (headWrites boot kernel initrd totalSectors fatSectors clusterCount)) off len := by
  refine field_putAll_of_disj (inside_blockWrites length_of_mem_imageBlocks ?_) fun write hw =>
    Or.inl (hle.trans (mem_blockWrites length_of_mem_imageBlocks hw).1)
  rw [length_headBytes hlay]
  exact blocks_fit hlay

/-- The first sector. -/
theorem field_sector {off len : ℕ} (hle : off + len ≤ bytesPerSector) :
    field (imageBytes boot kernel initrd totalSectors fatSectors clusterCount) off len =
      field (bootBytes totalSectors fatSectors) off len := by
  have hin := inside_headWrites hlay
  have hwhole : field (imageBytes boot kernel initrd totalSectors fatSectors clusterCount) 0
      bytesPerSector = bootBytes totalSectors fatSectors := by
    rw [field_head hlay (by simp only [reservedSectors, fatCount, bytesPerSector]; omega)]
    have hread := @field_putAll _ [] _ (0, bootBytes totalSectors fatSectors) hin (by
      simp only [List.forall_mem_cons, List.not_mem_nil, false_implies, implies_true, and_true,
        length_bootBytes, length_fsinfo, length_tableBytes hlay]
      simp only [reservedSectors, bytesPerSector]
      omega)
    rwa [length_bootBytes] at hread
  rw [← Nat.zero_add off, ← field_field hle, hwhole, Nat.zero_add]

/-- Both copies of the table. -/
theorem field_table {copy : ℕ} (hcopy : copy < 2) :
    field (imageBytes boot kernel initrd totalSectors fatSectors clusterCount)
      (reservedSectors * bytesPerSector + copy * (fatSectors * bytesPerSector))
      (fatSectors * bytesPerSector) = tableBytes boot kernel initrd fatSectors clusterCount := by
  have hin := inside_headWrites hlay
  have hlen := length_tableBytes hlay
  rw [field_head hlay (by simp only [reservedSectors, fatCount, bytesPerSector]; interval_cases copy <;> omega)]
  rw [headWrites] at hin ⊢
  set sector := bootBytes totalSectors fatSectors
  set table := tableBytes boot kernel initrd fatSectors clusterCount
  interval_cases copy
  · have hread := @field_putAll _ [(0, sector), (6 * bytesPerSector, sector),
      (bytesPerSector, fsinfo), (7 * bytesPerSector, fsinfo)] _ (reservedSectors * bytesPerSector, table)
      hin (by simp [hlen])
    dsimp only at hread
    rw [hlen] at hread
    rw [Nat.zero_mul, Nat.add_zero]
    exact hread
  · have hread := @field_putAll _ [(0, sector), (6 * bytesPerSector, sector),
      (bytesPerSector, fsinfo), (7 * bytesPerSector, fsinfo), (reservedSectors * bytesPerSector, table)]
      _ (reservedSectors * bytesPerSector + fatSectors * bytesPerSector, table) hin (by simp)
    dsimp only at hread
    rw [hlen] at hread
    rw [Nat.one_mul]
    exact hread

/-! ## What the parts say -/

section Geometry

variable (henc : Encodable boot kernel initrd totalSectors)
include henc

theorem fatSectors_lt : fatSectors < 2 ^ 32 := by
  have htotal := hlay.total
  have hlt := henc.total
  simp only [reservedSectors, fatCount] at *
  omega

omit henc in
/-- A number of the first sector. -/
theorem numberAt_sector {off width value : ℕ} (hmem : (off, leBytes width value) ∈
    bootWrites (leBytes 4 totalSectors) (leBytes 4 fatSectors)) (hvalue : value < 256 ^ width) :
    numberAt (imageBytes boot kernel initrd totalSectors fatSectors clusterCount) off width =
      value := by
  have hin := inside_bootWrites totalSectors fatSectors
  have hread := field_putAll_of_mem (ascending_bootWrites _ _) hin hmem
  have hle := hin _ hmem
  rw [length_leBytes] at hread hle
  rw [List.length_replicate] at hle
  rw [numberAt, field_sector hlay hle, bootBytes, hread, leValue_leBytes, Nat.mod_eq_of_lt hvalue]

/-- **The boot sector describes the volume.** -/
theorem geometry_imageBytes :
    geometry (imageBytes boot kernel initrd totalSectors fatSectors clusterCount) =
      ⟨bytesPerSector, sectorsPerCluster, reservedSectors, fatCount, totalSectors, fatSectors,
        rootCluster⟩ := by
  have hfat := fatSectors_lt hlay henc
  have htotal := henc.total
  simp only [geometry, Geometry.mk.injEq]
  exact ⟨numberAt_sector hlay (by simp [bootWrites]) (by norm_num),
    numberAt_sector hlay (by simp [bootWrites, leBytes]) (by norm_num),
    numberAt_sector hlay (by simp [bootWrites]) (by norm_num),
    numberAt_sector hlay (by simp [bootWrites, leBytes]) (by norm_num),
    numberAt_sector hlay (by simp [bootWrites]) (by norm_num; omega),
    numberAt_sector hlay (by simp [bootWrites]) (by norm_num; omega),
    numberAt_sector hlay (by simp [bootWrites]) (by norm_num)⟩

theorem clusterCount_imageBytes : (geometry (imageBytes boot kernel initrd totalSectors
    fatSectors clusterCount)).clusterCount = clusterCount := by
  rw [geometry_imageBytes hlay henc, Geometry.clusterCount, Geometry.dataStart, hlay.total,
    Nat.div_one]
  exact Nat.add_sub_cancel_left _ _

/-- **The image is a FAT32 volume.** -/
theorem isFat32_imageBytes :
    IsFat32 (imageBytes boot kernel initrd totalSectors fatSectors clusterCount) := by
  have hgeometry := geometry_imageBytes hlay henc
  have hcount := clusterCount_imageBytes hlay henc
  have hmem : (510, [0x55, 0xAA]) ∈ bootWrites (leBytes 4 totalSectors) (leBytes 4 fatSectors) := by
    simp [bootWrites]
  have hsign := field_putAll_of_mem (ascending_bootWrites _ _) (inside_bootWrites _ _) hmem
  refine ⟨?_, ?_, ?_, ?_, ?_, ?_, ?_, ?_⟩
  · rw [field_sector hlay (by norm_num), bootBytes]
    exact hsign
  · exact numberAt_sector hlay (by simp [bootWrites]) (by norm_num)
  · exact numberAt_sector hlay (by simp [bootWrites]) (by norm_num)
  · exact numberAt_sector hlay (by simp [bootWrites]) (by norm_num)
  · exact numberAt_sector hlay (by simp [bootWrites]) (by norm_num)
  · rw [hcount]
    exact hlay.fat32
  · rw [hcount, hgeometry]
    exact hlay.table
  · simp only [length_imageBytes hlay, hgeometry]

theorem copiesEqual_imageBytes :
    CopiesEqual (imageBytes boot kernel initrd totalSectors fatSectors clusterCount) := by
  have h₀ := field_table hlay (show 0 < 2 by omega)
  have h₁ := field_table hlay (show 1 < 2 by omega)
  simp only [CopiesEqual, geometry_imageBytes hlay henc, Geometry.linkStart, Nat.mul_zero,
    Nat.add_zero, Nat.add_mul, Nat.mul_assoc]
  rw [h₀, h₁]

/-- The links of the volume. -/
theorem fatEntry_imageBytes {cluster link : ℕ}
    (h : (imageEntries boot kernel initrd clusterCount)[cluster]? = some link) :
    fatEntry (imageBytes boot kernel initrd totalSectors fatSectors clusterCount) cluster =
      link := by
  have htable := hlay.table
  obtain ⟨hlt, rfl⟩ := List.getElem?_eq_some_iff.mp h
  have hlink := mem_imageEntries_lt henc _ (List.getElem_mem hlt)
  have hcluster : cluster < clusterCount + 2 := by rwa [length_imageEntries] at hlt
  have hcells : cluster < ((imageEntries boot kernel initrd clusterCount).map (leBytes 4)).length := by
    rwa [List.length_map]
  have hread : field (tableBytes boot kernel initrd fatSectors clusterCount) (0 + 4 * cluster) 4 =
      ((imageEntries boot kernel initrd clusterCount).map (leBytes 4))[cluster] := by
    refine field_blockWrites (fun block hb => ?_) ?_ _
    · obtain ⟨v, -, rfl⟩ := List.mem_map.mp hb
      exact length_leBytes 4 v
    · rw [List.length_map, length_imageEntries, List.length_replicate]
      omega
  rw [Nat.zero_add, List.getElem_map] at hread
  have hinside : 4 * cluster + 4 ≤ fatSectors * bytesPerSector := by omega
  have hfield := field_table hlay (show 0 < 2 by omega) ▸ @field_field (imageBytes boot kernel initrd
    totalSectors fatSectors clusterCount) (reservedSectors * bytesPerSector + 0 * (fatSectors *
      bytesPerSector)) _ _ _ hinside
  rw [hread] at hfield
  rw [fatEntry, geometry_imageBytes hlay henc, Geometry.linkStart, numberAt, Nat.add_mul,
    Nat.mul_assoc, ← hfield, leValue_leBytes, Nat.mod_eq_of_lt (hlink.trans (by norm_num)),
    Nat.mod_eq_of_lt hlink]

end Geometry

end Parts

/-! ## The chains -/

/-- The links lead through the `n` clusters from `first` on, and end there. -/
def Linked (entries : List ℕ) (first n : ℕ) : Prop :=
  ∀ c, first ≤ c → c < first + n →
    entries[c]? = some (if c + 1 < first + n then c + 1 else endOfChain)

section Chains

variable {boot kernel initrd : List UInt8} {totalSectors fatSectors clusterCount : ℕ}

theorem linked_linkChain {entries : List ℕ} {first n : ℕ} (hlen : first + n ≤ entries.length) :
    Linked (linkChain entries (List.range' first n)) first n := fun _ hc hc' =>
  getElem?_linkChain_range' hc hc' hlen

/-- A file further up leaves the links. -/
theorem Linked.linkChain {entries : List ℕ} {first n first' n' : ℕ} (h : Linked entries first n)
    (hd : first + n ≤ first') : Linked (linkChain entries (List.range' first' n')) first n := by
  intro c hc hc'
  rw [getElem?_linkChain_of_not_mem fun hmem => ?_, h c hc hc']
  have := (List.mem_range'_1.mp hmem).1
  omega

variable (hlay : ImageLayout boot kernel initrd totalSectors fatSectors clusterCount)
include hlay

/-- The clusters of the directories. -/
theorem linked_dir {c : ℕ} (hc : 2 ≤ c) (hc' : c < 5) :
    Linked (imageEntries boot kernel initrd clusterCount) c 1 := by
  have hfat := hlay.fat32
  simp only [imageEntries, fatEntries, List.foldl_cons, List.foldl_nil, initrdFirst, kernelFirst]
  refine ((Linked.linkChain ?_ (by omega)).linkChain (by omega)).linkChain (by omega)
  intro c' hlo hhi
  obtain rfl : c' = c := by omega
  rw [if_neg (by omega)]
  interval_cases c' <;> simp [rootCluster, List.getElem?_set] <;> omega

theorem linked_boot :
    Linked (imageEntries boot kernel initrd clusterCount) 5 (clustersOf boot.length) := by
  have hroom := hlay.room
  simp only [imageEntries, fatEntries, List.foldl_cons, List.foldl_nil, initrdFirst, kernelFirst]
  refine ((linked_linkChain ?_).linkChain (by omega)).linkChain (by omega)
  simp only [List.length_set, List.length_replicate]
  omega

theorem linked_kernel : Linked (imageEntries boot kernel initrd clusterCount) (kernelFirst boot)
    (clustersOf kernel.length) := by
  have hroom := hlay.room
  simp only [imageEntries, fatEntries, List.foldl_cons, List.foldl_nil, initrdFirst, kernelFirst]
  refine (linked_linkChain ?_).linkChain (by omega)
  simp only [length_linkChain, List.length_set, List.length_replicate]
  omega

theorem linked_initrd : Linked (imageEntries boot kernel initrd clusterCount)
    (initrdFirst boot kernel) (clustersOf initrd.length) := by
  have hroom := hlay.room
  simp only [imageEntries, fatEntries, List.foldl_cons, List.foldl_nil, initrdFirst, kernelFirst]
  refine linked_linkChain ?_
  simp only [length_linkChain, List.length_set, List.length_replicate]
  omega

variable (henc : Encodable boot kernel initrd totalSectors)
include henc

theorem hasCluster_imageBytes {c : ℕ} : (geometry (imageBytes boot kernel initrd totalSectors
    fatSectors clusterCount)).HasCluster c ↔ 2 ≤ c ∧ c < clusterCount + 2 := by
  rw [Geometry.HasCluster, clusterCount_imageBytes hlay henc]

/-- **Linked clusters are a chain of the volume.** -/
theorem chain_of_linked {first n : ℕ} (hl : Linked (imageEntries boot kernel initrd clusterCount)
    first n) (hn : 0 < n) (hfirst : 2 ≤ first) (hsmall : first + n ≤ 2 ^ 27) :
    chain (imageBytes boot kernel initrd totalSectors fatSectors clusterCount) first =
      some (List.range' first n) := by
  have hin : ∀ c, first ≤ c → c < first + n → c < clusterCount + 2 := fun c hc hc' => by
    have := (List.getElem?_eq_some_iff.mp (hl c hc hc')).1
    rwa [length_imageEntries] at this
  have hlast := hin (first + n - 1) (by omega) (by omega)
  have hcount := clusterCount_imageBytes hlay henc
  refine chain_eq hn (by rw [hcount]; omega) (fun c hc hc' => ?_) (fun c hc hc' => ?_) ?_
    (by simp only [endMark]; omega)
  · exact (hasCluster_imageBytes hlay henc).mpr ⟨by omega, hin c hc hc'⟩
  · rw [fatEntry_imageBytes hlay henc (hl c hc (by omega)), if_pos hc']
  · rw [fatEntry_imageBytes hlay henc (hl (first + n - 1) (by omega) (by omega)), if_neg (by omega)]
    norm_num

/-! ## The directories -/

/-- The bytes of a cluster. -/
theorem clusterBytes_imageBytes {i : ℕ} {block : List UInt8}
    (h : (imageBlocks boot kernel initrd)[i]? = some block) :
    clusterBytes (imageBytes boot kernel initrd totalSectors fatSectors clusterCount) (2 + i) =
      block := by
  obtain ⟨hi, rfl⟩ := List.getElem?_eq_some_iff.mp h
  have hblock := field_block hlay hi
  rw [clusterBytes, geometry_imageBytes hlay henc, Geometry.clusterStart, Geometry.dataStart,
    Geometry.clusterSize]
  simp only [Nat.add_sub_cancel_left, sectorsPerCluster, Nat.mul_one, Nat.one_mul]
  rw [Nat.add_mul, Nat.mul_comm i]
  exact hblock

theorem chain_dir {c : ℕ} (hc : 2 ≤ c) (hc' : c < 5) :
    chain (imageBytes boot kernel initrd totalSectors fatSectors clusterCount) c = some [c] :=
  chain_of_linked hlay henc (linked_dir hlay hc hc') (by omega) hc (by omega)

/-- **A directory of three entries.** -/
theorem findIn_imageBytes {i : ℕ} {d₁ d₂ d₃ : DirEntry} (hi : i < 3)
    (h : (imageBlocks boot kernel initrd)[i]? = some (padded (stored d₁ ++ stored d₂ ++ stored d₃)))
    (h₁ : Storable d₁) (h₂ : Storable d₂) (h₃ : Storable d₃) (name : List UInt8) :
    findIn (imageBytes boot kernel initrd totalSectors fatSectors clusterCount) (2 + i) name =
      [d₁, d₂, d₃].find? fun entry => entry.name == name := by
  have hlen : (stored d₁ ++ stored d₂ ++ stored d₃).length = 96 := by
    simp only [List.length_append, h₁.length_stored, h₂.length_stored, h₃.length_stored]
  have hbytes : chainBytes (imageBytes boot kernel initrd totalSectors fatSectors clusterCount)
      [2 + i] = stored d₁ ++ (stored d₂ ++ (stored d₃ ++ List.replicate 416 0)) := by
    rw [chainBytes, List.flatMap_singleton, clusterBytes_imageBytes hlay henc h,
      padded_eq (by rw [hlen]; norm_num), hlen, List.append_assoc, List.append_assoc]
    rfl
  have hfuel : (stored d₁ ++ (stored d₂ ++ (stored d₃ ++ List.replicate 416 0))).length / 32 =
      13 + 1 + 1 + 1 := by
    simp only [List.length_append, List.length_replicate, h₁.length_stored, h₂.length_stored,
      h₃.length_stored]
  rw [findIn, chain_dir hlay henc (by omega) (by omega), Option.bind_some]
  dsimp only
  rw [hbytes, hfuel, h₁.dirEntries, h₂.dirEntries, h₃.dirEntries, dirEntries_zeros]

omit hlay in
theorem kernelFirst_lt : kernelFirst boot < 2 ^ 26 := by
  have := clustersOf_lt henc.boot
  simp only [kernelFirst]
  omega

omit hlay in
theorem initrdFirst_lt : initrdFirst boot kernel < 2 ^ 26 := by
  have := clustersOf_lt henc.boot
  have := clustersOf_lt henc.kernel
  simp only [initrdFirst, kernelFirst]
  omega

/-- **The root directory.** -/
theorem findIn_root (name : List UInt8) :
    findIn (imageBytes boot kernel initrd totalSectors fatSectors clusterCount) 2 name =
      [⟨ascii "EFI        ", 0x10, 3, 0⟩,
        ⟨ascii "KERNEL  ELF", 0x20, kernelFirst boot, kernel.length⟩,
        ⟨ascii "INITRD  RFS", 0x20, initrdFirst boot kernel, initrd.length⟩].find?
          fun entry => entry.name == name := by
  have hk : kernelFirst boot < 2 ^ 32 := (kernelFirst_lt henc).trans (by norm_num)
  have hi : initrdFirst boot kernel < 2 ^ 32 := (initrdFirst_lt henc).trans (by norm_num)
  refine @findIn_imageBytes _ _ _ _ _ _ hlay henc 0 _ _ _ (by omega) ?_
    (storable_mk (by decide) (by decide) (by norm_num) (by norm_num))
    (storable_mk (by decide) (by decide) hk henc.kernel)
    (storable_mk (by decide) (by decide) hi henc.initrd) name
  rw [imageBlocks, List.cons_append, List.getElem?_cons_zero, rootBytes]
  simp only [stored]

/-- The directory `EFI`. -/
theorem findIn_efi (name : List UInt8) :
    findIn (imageBytes boot kernel initrd totalSectors fatSectors clusterCount) 3 name =
      [⟨ascii ".          ", 0x10, 3, 0⟩, ⟨ascii "..         ", 0x10, 2, 0⟩,
        ⟨ascii "BOOT       ", 0x10, 4, 0⟩].find? fun entry => entry.name == name := by
  refine @findIn_imageBytes _ _ _ _ _ _ hlay henc 1 _ _ _ (by omega) ?_
    (storable_mk (by decide) (by decide) (by norm_num) (by norm_num))
    (storable_mk (by decide) (by decide) (by norm_num) (by norm_num))
    (storable_mk (by decide) (by decide) (by norm_num) (by norm_num)) name
  rw [imageBlocks, List.cons_append, List.cons_append, List.getElem?_cons_succ,
    List.getElem?_cons_zero, efiBytes]
  simp only [stored]

/-- The directory `EFI/BOOT`. -/
theorem findIn_boot (name : List UInt8) :
    findIn (imageBytes boot kernel initrd totalSectors fatSectors clusterCount) 4 name =
      [⟨ascii ".          ", 0x10, 4, 0⟩, ⟨ascii "..         ", 0x10, 3, 0⟩,
        ⟨ascii "BOOTX64 EFI", 0x20, 5, boot.length⟩].find? fun entry => entry.name == name := by
  refine @findIn_imageBytes _ _ _ _ _ _ hlay henc 2 _ _ _ (by omega) ?_
    (storable_mk (by decide) (by decide) (by norm_num) (by norm_num))
    (storable_mk (by decide) (by decide) (by norm_num) (by norm_num))
    (storable_mk (by decide) (by decide) (by norm_num) henc.boot) name
  rw [imageBlocks, List.cons_append, List.cons_append, List.cons_append, List.getElem?_cons_succ,
    List.getElem?_cons_succ, List.getElem?_cons_zero, bootDirBytes]
  simp only [stored]

/-! ## Paths -/

def efiPath : List (List UInt8) := [shortName (ascii "EFI") []]

def efiBootPath : List (List UInt8) := [shortName (ascii "EFI") [], shortName (ascii "BOOT") []]

def bootPath : List (List UInt8) :=
  [shortName (ascii "EFI") [], shortName (ascii "BOOT") [],
    shortName (ascii "BOOTX64") (ascii "EFI")]

def kernelPath : List (List UInt8) := [shortName (ascii "KERNEL") (ascii "ELF")]

def initrdPath : List (List UInt8) := [shortName (ascii "INITRD") (ascii "RFS")]

/-- The root directory starts in cluster `2`. -/
theorem lookup_imageBytes (path : List (List UInt8)) :
    lookup (imageBytes boot kernel initrd totalSectors fatSectors clusterCount) path =
      lookupFrom (imageBytes boot kernel initrd totalSectors fatSectors clusterCount) 2 path := by
  rw [lookup, geometry_imageBytes hlay henc]

theorem lookup_kernel :
    lookup (imageBytes boot kernel initrd totalSectors fatSectors clusterCount) kernelPath =
      some ⟨ascii "KERNEL  ELF", 0x20, kernelFirst boot, kernel.length⟩ := by
  rw [lookup_imageBytes hlay henc, kernelPath, lookupFrom, findIn_root hlay henc]
  rfl

theorem lookup_initrd :
    lookup (imageBytes boot kernel initrd totalSectors fatSectors clusterCount) initrdPath =
      some ⟨ascii "INITRD  RFS", 0x20, initrdFirst boot kernel, initrd.length⟩ := by
  rw [lookup_imageBytes hlay henc, initrdPath, lookupFrom, findIn_root hlay henc]
  rfl

theorem lookup_efi :
    lookup (imageBytes boot kernel initrd totalSectors fatSectors clusterCount) efiPath =
      some ⟨ascii "EFI        ", 0x10, 3, 0⟩ := by
  rw [lookup_imageBytes hlay henc, efiPath, lookupFrom, findIn_root hlay henc]
  rfl

theorem lookup_efiBoot :
    lookup (imageBytes boot kernel initrd totalSectors fatSectors clusterCount) efiBootPath =
      some ⟨ascii "BOOT       ", 0x10, 4, 0⟩ := by
  rw [lookup_imageBytes hlay henc, efiBootPath, lookupFrom_cons, findIn_root hlay henc]
  change lookupFrom _ 3 _ = _
  rw [lookupFrom, findIn_efi hlay henc]
  rfl

theorem lookup_boot :
    lookup (imageBytes boot kernel initrd totalSectors fatSectors clusterCount) bootPath =
      some ⟨ascii "BOOTX64 EFI", 0x20, 5, boot.length⟩ := by
  rw [lookup_imageBytes hlay henc, bootPath, lookupFrom_cons, findIn_root hlay henc]
  change lookupFrom _ 3 _ = _
  rw [lookupFrom_cons, findIn_efi hlay henc]
  change lookupFrom _ 4 _ = _
  rw [lookupFrom, findIn_boot hlay henc]
  rfl

/-! ## The payloads -/

omit hlay henc in
theorem getElem?_chunks {payload : List UInt8} {n i : ℕ} (hi : i < n) :
    (chunks payload 0 n)[i]? =
      some (padded (field payload (i * bytesPerSector) bytesPerSector)) := by
  simp [chunks, hi]

/-- The clusters of a payload hold it. -/
theorem chainBytes_payload {payload : List UInt8} {first : ℕ} (hfirst : 2 ≤ first)
    (h : ∀ i < clustersOf payload.length, (imageBlocks boot kernel initrd)[first - 2 + i]? =
      (chunks payload 0 (clustersOf payload.length))[i]?) :
    (chainBytes (imageBytes boot kernel initrd totalSectors fatSectors clusterCount)
      (List.range' first (clustersOf payload.length))).take payload.length = payload := by
  refine take_chunks (le_clustersOf payload.length) fun i hi => ?_
  have hblock := (h i hi).trans (getElem?_chunks hi)
  have hbytes := clusterBytes_imageBytes hlay henc hblock
  rw [show 2 + (first - 2 + i) = first + i by omega] at hbytes
  rw [hbytes, padded_eq (by rw [field, List.length_take]; omega)]
  rfl

/-- A file of the image. -/
theorem isFile_imageBytes {path : List (List UInt8)} {name payload : List UInt8} {first : ℕ}
    (hpath : lookup (imageBytes boot kernel initrd totalSectors fatSectors clusterCount) path =
      some ⟨name, 0x20, first, payload.length⟩)
    (hl : Linked (imageEntries boot kernel initrd clusterCount) first (clustersOf payload.length))
    (hpayload : payload ≠ []) (hlen : payload.length < 2 ^ 32) (hfirst : 2 ≤ first)
    (hsmall : first < 2 ^ 26)
    (h : ∀ i < clustersOf payload.length, (imageBlocks boot kernel initrd)[first - 2 + i]? =
      (chunks payload 0 (clustersOf payload.length))[i]?) :
    IsFile (imageBytes boot kernel initrd totalSectors fatSectors clusterCount) path
      (List.range' first (clustersOf payload.length)) payload := by
  have hpos := clustersOf_pos (List.length_pos_iff.mpr hpayload)
  have hle := clustersOf_lt hlen
  have hsmall' : first + clustersOf payload.length ≤ 2 ^ 27 := by omega
  exact ⟨⟨_, hpath, (by decide : ((0x20 : UInt8) &&& 0x10 != 0) = false), rfl,
    chain_of_linked hlay henc hl hpos hfirst hsmall'⟩, chainBytes_payload hlay henc hfirst h⟩

omit hlay henc in
theorem getElem?_imageBlocks (i : ℕ) : (imageBlocks boot kernel initrd)[3 + i]? =
    (chunks boot 0 (clustersOf boot.length) ++ (chunks kernel 0 (clustersOf kernel.length) ++
      chunks initrd 0 (clustersOf initrd.length)))[i]? := by
  rw [imageBlocks, List.getElem?_append_right (by simp)]
  simp

end Chains

/-! ## The image decodes -/

/-- A FAT32 volume with equal copies of the table, on which the three payloads are found; no cluster
belongs to two of the files and directories, and all are in the data area. -/
structure Decodes (image boot kernel initrd : List UInt8) : Prop where
  fat32 : IsFat32 image
  copies : CopiesEqual image
  found : ∃ rootClusters efiClusters efiBootClusters bootClusters kernelClusters initrdClusters,
    chain image (geometry image).rootCluster = some rootClusters ∧
    IsDir image efiPath efiClusters ∧ IsDir image efiBootPath efiBootClusters ∧
    IsFile image bootPath bootClusters boot ∧ IsFile image kernelPath kernelClusters kernel ∧
    IsFile image initrdPath initrdClusters initrd ∧
    (rootClusters ++ efiClusters ++ efiBootClusters ++ bootClusters ++ kernelClusters ++
      initrdClusters).Nodup ∧
    ∀ c ∈ rootClusters ++ efiClusters ++ efiBootClusters ++ bootClusters ++ kernelClusters ++
      initrdClusters, (geometry image).HasCluster c

section Decode

variable {boot kernel initrd : List UInt8} {totalSectors fatSectors clusterCount : ℕ}

/-- **The image that is written decodes to the payloads.** -/
theorem decodes_imageBytes (henc : Encodable boot kernel initrd totalSectors)
    (hlay : ImageLayout boot kernel initrd totalSectors fatSectors clusterCount)
    (hb : boot ≠ []) (hk : kernel ≠ []) (hi : initrd ≠ []) :
    Decodes (imageBytes boot kernel initrd totalSectors fatSectors clusterCount) boot kernel
      initrd := by
  have hroom := hlay.room
  have hkf : kernelFirst boot = 5 + clustersOf boot.length := rfl
  have hif : initrdFirst boot kernel = kernelFirst boot + clustersOf kernel.length := rfl
  have hclusters : [2] ++ [3] ++ [4] ++ List.range' 5 (clustersOf boot.length) ++
      List.range' (kernelFirst boot) (clustersOf kernel.length) ++
        List.range' (initrdFirst boot kernel) (clustersOf initrd.length) =
      List.range' 2 (3 + clustersOf boot.length + clustersOf kernel.length +
        clustersOf initrd.length) := by
    rw [← List.range'_append_1, ← List.range'_append_1, ← List.range'_append_1, hif, hkf]
    simp only [← Nat.add_assoc, Nat.reduceAdd]
    rfl
  have hlen (payload : List UInt8) (n : ℕ) : (chunks payload 0 n).length = n := by simp [chunks]
  have hbootFile := isFile_imageBytes hlay henc (lookup_boot hlay henc) (linked_boot hlay) hb
    henc.boot (by omega) (by norm_num) fun i hi => by
      rw [getElem?_imageBlocks, List.getElem?_append_left (by rwa [hlen])]
  have hkernelFile := isFile_imageBytes hlay henc (lookup_kernel hlay henc) (linked_kernel hlay) hk
    henc.kernel (by omega) (kernelFirst_lt henc) fun i hi => by
      rw [show kernelFirst boot - 2 + i = 3 + (clustersOf boot.length + i) by omega,
        getElem?_imageBlocks, List.getElem?_append_right (by rw [hlen]; omega), hlen,
        Nat.add_sub_cancel_left, List.getElem?_append_left (by rwa [hlen])]
  have hinitrdFile := isFile_imageBytes hlay henc (lookup_initrd hlay henc) (linked_initrd hlay) hi
    henc.initrd (by omega) (initrdFirst_lt henc) fun i hi => by
      rw [show initrdFirst boot kernel - 2 + i =
          3 + (clustersOf boot.length + (clustersOf kernel.length + i)) by omega,
        getElem?_imageBlocks, List.getElem?_append_right (by rw [hlen]; omega), hlen,
        Nat.add_sub_cancel_left, List.getElem?_append_right (by rw [hlen]; omega), hlen,
        Nat.add_sub_cancel_left]
  have hroot : chain (imageBytes boot kernel initrd totalSectors fatSectors clusterCount)
      (geometry (imageBytes boot kernel initrd totalSectors fatSectors clusterCount)).rootCluster =
        some [2] := by
    rw [geometry_imageBytes hlay henc]
    exact chain_dir hlay henc le_rfl (by norm_num)
  refine ⟨isFat32_imageBytes hlay henc, copiesEqual_imageBytes hlay henc, [2], [3], [4], _, _, _,
    hroot, ⟨_, lookup_efi hlay henc, by decide, chain_dir hlay henc (by norm_num) (by norm_num)⟩,
    ⟨_, lookup_efiBoot hlay henc, by decide, chain_dir hlay henc (by norm_num) (by norm_num)⟩,
    hbootFile, hkernelFile, hinitrdFile, hclusters ▸ List.nodup_range', fun c hc => ?_⟩
  rw [hclusters, List.mem_range'_1] at hc
  exact (hasCluster_imageBytes hlay henc).mpr (by omega)

/-- What the whole script does with a layout. -/
theorem buildImage_eq {fuel : ℕ} {sizeMib fatSectors dataSectors clusterCount : ℤ}
    (h : calculateLayout fuel (imageSectors sizeMib) [boot.length, kernel.length, initrd.length] =
      some (.ok (fatSectors, dataSectors, clusterCount))) :
    buildImage fuel boot kernel initrd sizeMib = some (writeImage boot kernel initrd
      (imageSectors sizeMib).toNat fatSectors.toNat clusterCount.toNat) := by
  rw [buildImage, h]
  rfl

/-- An image is produced only if the numbers fit. -/
theorem encodable_of_buildImage {fuel : ℕ} {sizeMib : ℤ} {image : List UInt8}
    (h : buildImage fuel boot kernel initrd sizeMib = some (.ok image)) :
    Encodable boot kernel initrd (imageSectors sizeMib).toNat := by
  rw [buildImage] at h
  obtain ⟨layout, -, h⟩ := Option.map_eq_some_iff.mp h
  obtain ⟨_, -, h⟩ := Except.bind_ok h
  exact encodable_of_writeImage h

/-- **`calculate_layout` always ends. Where it finds a layout, an image is written if and only if the
numbers of its sectors and of the bytes of each payload fit 32 bits; an image that is written decodes
to the payloads.** -/
theorem buildImage_decodes (hb : boot ≠ []) (hk : kernel ≠ []) (hi : initrd ≠ []) (sizeMib : ℤ) :
    ∃ layout, (∀ fuel, 2 ≤ fuel → calculateLayout fuel (imageSectors sizeMib)
        [boot.length, kernel.length, initrd.length] = some layout) ∧
      ((∃ sectors, layout = .ok sectors) → ∀ fuel, 2 ≤ fuel →
        ((∃ image, buildImage fuel boot kernel initrd sizeMib = some (.ok image)) ↔
          Encodable boot kernel initrd (imageSectors sizeMib).toNat) ∧
        ∀ image, buildImage fuel boot kernel initrd sizeMib = some (.ok image) →
          Decodes image boot kernel initrd) := by
  obtain ⟨layout, hlayout⟩ := calculateLayout_terminates (imageSectors sizeMib)
    [boot.length, kernel.length, initrd.length]
  refine ⟨layout, hlayout, ?_⟩
  rintro ⟨⟨fatSectors, dataSectors, clusterCount⟩, rfl⟩ fuel hfuel
  have hlay := calculateLayout_ok (hlayout fuel hfuel)
  have hbuild := buildImage_eq (hlayout fuel hfuel)
  refine ⟨?_, fun image himage => ?_⟩
  · rw [← writeImage_isOk_iff hlay hb hk hi, hbuild]
    simp only [Option.some.injEq]
  · have henc := encodable_of_buildImage himage
    rw [hbuild, writeImage_eq henc hlay hb hk hi] at himage
    cases himage
    exact decodes_imageBytes henc hlay hb hk hi

/-- Payloads of one byte on an image of 64 MiB. -/
theorem buildImage_decodes_bytes :
    ∃ image, buildImage 2 [1] [2] [3] 64 = some (.ok image) ∧ Decodes image [1] [2] [3] := by
  obtain ⟨layout, hlayout, himage⟩ := @buildImage_decodes [1] [2] [3] (by decide) (by decide)
    (by decide) 64
  have hok : calculateLayout 2 (imageSectors 64) [1, 1, 1] = some (.ok (1024, 128992, 128992)) := by
    decide +kernel
  obtain rfl : layout = .ok (1024, 128992, 128992) :=
    Option.some.inj ((hlayout 2 le_rfl).symm.trans hok)
  obtain ⟨hiff, hdecodes⟩ := himage ⟨_, rfl⟩ 2 le_rfl
  obtain ⟨image, h⟩ := hiff.mpr ⟨by norm_num, by norm_num, by norm_num, by decide⟩
  exact ⟨image, h, hdecodes image h⟩

/-- A kernel of 4 GiB has a layout on an image of 8 GiB, and no image. -/
theorem not_buildImage_decodes_large :
    calculateLayout 2 (imageSectors 8192) [[1].length, (List.replicate (2 ^ 32) (0 : UInt8)).length,
        [3].length] = some (.ok (131072, 16515040, 16515040)) ∧
      ¬ ∃ fuel image, buildImage fuel [1] (List.replicate (2 ^ 32) 0) [3] 8192 = some (.ok image) ∧
        Decodes image [1] (List.replicate (2 ^ 32) 0) [3] := by
  refine ⟨?_, ?_⟩
  · rw [List.length_replicate]
    decide +kernel
  · rintro ⟨fuel, image, h, -⟩
    have hlt := (encodable_of_buildImage h).kernel
    rw [List.length_replicate] at hlt
    exact lt_irrefl _ hlt

end Decode

end Rymos
