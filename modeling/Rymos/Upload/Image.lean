import Mathlib.Tactic
import Rymos.Pfs.Store
import Rymos.Upload.Tool

/-!
# The image as a disk

* `imageDisk`: the drive that has the image as its sectors. **`imageDisk_header`**: a header stored at
  the start of the image.
* **`writeFileData_spec`**: the bytes of the file, sector by sector, and what stays.
-/

namespace Rymos

open ByteBuf Extents Blocks

/-- The drive that has the image as its sectors, with zeros behind the end. -/
def imageDisk (image : List UInt8) : Disk where
  sectors := fun x => ⟨fun k => image.getD (x * 512 + k) 0⟩
  present := true
  readOk := fun _ => true
  writeOk := fun _ => true

namespace PfsPut

variable {image data bytes : List UInt8} {header : Header}

theorem reliable_imageDisk (image : List UInt8) : Reliable (imageDisk image) :=
  ⟨rfl, fun _ => ⟨rfl, rfl⟩⟩

theorem byte_imageDisk (image : List UInt8) (x : ℕ) {k : ℕ} (hk : k < 512) :
    ((imageDisk image).sectors x).byte k = image.getD (x * 512 + k) 0 := by
  rw [Buf.byte, dif_pos hk]
  rfl

/-- Equal bytes make equal sectors. -/
theorem sectors_congr {image' : List UInt8} {x : ℕ}
    (h : ∀ k < 512, image'.getD (x * 512 + k) 0 = image.getD (x * 512 + k) 0) :
    (imageDisk image').sectors x = (imageDisk image).sectors x := by
  refine Buf.ext_byte fun k hk => ?_
  rw [byte_imageDisk _ _ hk, byte_imageDisk _ _ hk, h k hk]

theorem imageDisk_congr {image' : List UInt8} (h : ∀ k, image'.getD k 0 = image.getD k 0) :
    imageDisk image' = imageDisk image := by
  have hs : (imageDisk image').sectors = (imageDisk image).sectors := by
    funext x
    exact sectors_congr fun k _ => h _
  rw [imageDisk, imageDisk, Disk.mk.injEq]
  exact ⟨hs, rfl, rfl, rfl⟩

/-- The header on the disk is the start of the image. -/
theorem byte_header (image : List UInt8) {k : ℕ} (hk : k < 39424) :
    (diskHeader (imageDisk image)).byte k = image.getD k 0 := by
  rw [byte_diskHeader _ hk, byte_imageDisk _ _ (Nat.mod_lt _ (by omega)), Nat.div_add_mod']

/-! ## Stores -/

/-- **A store changes the bytes stored.** -/
theorem getD_writeAt (image : List UInt8) (pos : ℕ) (bytes : List UInt8) (k : ℕ) :
    (writeAt image pos bytes).getD k 0 =
      if pos ≤ k ∧ k < pos + bytes.length then bytes.getD (k - pos) 0 else image.getD k 0 := by
  rw [writeAt]
  cases hb : bytes.isEmpty with
  | true =>
    rw [if_pos rfl, List.isEmpty_iff.mp hb, if_neg (by rw [List.length_nil]; omega)]
  | false =>
    rw [if_neg Bool.false_ne_true]
    have hfill : (image.take pos ++ List.replicate (pos - image.length) 0).length = pos := by
      rw [List.length_append, List.length_take, List.length_replicate]
      omega
    simp only [List.getD_eq_getElem?_getD]
    by_cases hk : k < pos
    · rw [if_neg (by omega), List.append_assoc _ bytes, List.getElem?_append_left (by omega)]
      by_cases hi : k < image.length
      · rw [List.getElem?_append_left (by rw [List.length_take]; omega), List.getElem?_take,
          if_pos hk]
      · rw [List.getElem?_append_right (by rw [List.length_take]; omega), List.getElem?_replicate,
          List.length_take, if_pos (by omega), List.getElem?_eq_none (by omega)]
        rfl
    by_cases hlt : k < pos + bytes.length
    · rw [if_pos ⟨by omega, hlt⟩, List.append_assoc _ bytes, List.getElem?_append_right (by omega),
        hfill, List.getElem?_append_left (by omega)]
    · rw [if_neg (by omega), List.getElem?_append_right (by rw [List.length_append, hfill]; omega),
        List.length_append, hfill, List.getElem?_drop]
      congr 2
      omega

/-- Padding adds zeros only. -/
theorem imageDisk_ensureDisk (image : List UInt8) :
    imageDisk (ensureDisk (some image)) = imageDisk image := by
  refine imageDisk_congr fun k => ?_
  rw [ensureDisk]
  split_ifs with h
  · simp only [List.getD_eq_getElem?_getD]
    by_cases hk : k < image.length
    · rw [List.getElem?_append_left hk]
    · rw [List.getElem?_append_right (by omega), List.getElem?_replicate,
        List.getElem?_eq_none (by omega : image.length ≤ k)]
      split_ifs <;> rfl
  · rfl

/-- The first bytes of an image that has them. -/
theorem take_magic (h : headerBytes ≤ image.length) :
    (image.take headerBytes).take 8 = (diskHeader (imageDisk image)).slice 0 8 := by
  have hlen : 8 ≤ image.length := le_trans (by decide) h
  have htake : (image.take headerBytes).take 8 = image.take 8 := by
    rw [List.take_take]
    rfl
  rw [htake, Buf.slice]
  refine List.ext_getElem ?_ fun k hk hk' => ?_
  · rw [List.length_map, List.length_range, List.length_take, Nat.min_eq_left hlen]
  · rw [List.length_map, List.length_range] at hk'
    rw [List.getElem_map, List.getElem_range, byte_header _ (by omega), Nat.zero_add,
      List.getElem_take, List.getD_eq_getElem?_getD, List.getElem?_eq_getElem (by omega),
      Option.getD_some]

/-- **The header the script reads is the one on the disk.** -/
theorem readHeader_eq_ok : readHeader image = .ok header ↔
    headerBytes ≤ image.length ∧ header = diskHeader (imageDisk image) ∧ header.slice 0 8 = pfsMagic := by
  have hread : (⟨fun k => (image.take headerBytes).getD k 0⟩ : Header) = diskHeader (imageDisk image) := by
    refine Buf.ext_byte fun k hk => ?_
    rw [byte_header _ hk, Buf.byte, dif_pos hk]
    simp only [List.getD_eq_getElem?_getD, List.getElem?_take]
    rw [if_pos (show k < headerBytes from hk)]
  have hlen : ((image.take headerBytes).length != headerBytes) = false ↔ headerBytes ≤ image.length := by
    rw [List.length_take, bne_eq_false_iff_eq]
    omega
  rw [readHeader, hread]
  constructor
  · intro h
    split_ifs at h with hc
    rw [Bool.or_eq_true, not_or, Bool.not_eq_true, Bool.not_eq_true, hlen, bne_eq_false_iff_eq] at hc
    obtain rfl := Except.ok.inj h
    exact ⟨hc.1, rfl, (take_magic hc.1).symm.trans hc.2⟩
  · rintro ⟨hl, rfl, hm⟩
    rw [if_neg]
    rw [Bool.or_eq_true, not_or, Bool.not_eq_true, Bool.not_eq_true, hlen, bne_eq_false_iff_eq]
    exact ⟨hl, (take_magic hl).trans hm⟩

/-- A header stored at the start of the image. -/
theorem imageDisk_header (image : List UInt8) (header : Header) :
    imageDisk (writeAt image 0 (header.slice 0 headerBytes)) = withHeader (imageDisk image) header := by
  have hs : (imageDisk (writeAt image 0 (header.slice 0 headerBytes))).sectors =
      (withHeader (imageDisk image) header).sectors := by
    funext x
    refine Buf.ext_byte fun k hk => ?_
    rw [byte_imageDisk _ _ hk, getD_writeAt, Buf.length_slice]
    by_cases hx : x < pfsDataStart
    · have hlt : x * 512 + k < headerBytes := by
        have := show x < 77 from hx
        have := show headerBytes = 39424 from rfl
        omega
      rw [if_pos ⟨Nat.zero_le _, by rwa [Nat.zero_add]⟩, Nat.sub_zero, Buf.getD_slice _ _ _ _ hlt,
        Nat.zero_add, withHeader]
      dsimp only
      rw [if_pos hx, byte_headerSector _ _ hk]
    · have hge : headerBytes ≤ x * 512 + k := by
        have := show 77 ≤ x from not_lt.mp hx
        have := show headerBytes = 39424 from rfl
        omega
      rw [if_neg (by omega), sectors_withHeader (not_lt.mp hx), byte_imageDisk _ _ hk]
  rw [imageDisk, withHeader, Disk.mk.injEq]
  exact ⟨hs, rfl, rfl, rfl⟩

/-! ## The data of a file -/

/-- The part of the data that goes to one extent. -/
theorem getD_chunk {written n q : ℕ} (hq : q < ((data.drop written).take n).length) :
    ((data.drop written).take n).getD q 0 = data.getD (written + q) 0 := by
  rw [List.length_take] at hq
  simp only [List.getD_eq_getElem?_getD, List.getElem?_take, List.getElem?_drop]
  rw [if_pos (by omega)]

/-- Behind the first extent a position belongs to the others. -/
theorem byteAt_cons {m : Device 512} {e : Run} {es : List Run} {p : ℕ} (h : 512 * e.sectors ≤ p) :
    byteAt m (e :: es) p = byteAt m es (p - 512 * e.sectors) := by
  have hdiv : (p - 512 * e.sectors) / 512 = p / 512 - e.sectors := by omega
  have hmod : (p - 512 * e.sectors) % 512 = p % 512 := by omega
  rw [byteAt, byteAt, nth, if_neg (by omega), hdiv, hmod]

/-- **The extents hold the data from `written` on**, and no other sector changes. -/
theorem writeFileData_spec {extents : List PfsExtent} (hs : Spread extents) (image : List UInt8)
    (written : ℕ) :
    (∀ p, written + p < data.length → p < 512 * total extents →
      byteAt (imageDisk (writeFileData data image written extents)).sectors extents p =
        data.getD (written + p) 0) ∧
    ∀ x, ¬ Covers extents x →
      (imageDisk (writeFileData data image written extents)).sectors x =
        (imageDisk image).sectors x := by
  induction extents generalizing image written with
  | nil => exact ⟨fun p _ hp => absurd hp (Nat.not_lt_zero p), fun x _ => rfl⟩
  | cons e es ih =>
    rw [writeFileData]
    by_cases hw : written ≥ data.length
    · rw [if_pos hw]
      exact ⟨fun p hp => absurd hp (by omega), fun x _ => rfl⟩
    rw [if_neg hw]
    dsimp only
    generalize hchunk : (data.drop written).take (e.sectors * sectorSize) = chunk
    have hlen : chunk.length = min (e.sectors * 512) (data.length - written) := by
      rw [← hchunk, List.length_take, List.length_drop]
    have hget : ∀ q < chunk.length, chunk.getD q 0 = data.getD (written + q) 0 := by
      intro q hq
      rw [← hchunk] at hq ⊢
      exact getD_chunk hq
    obtain ⟨hdata, hother⟩ := ih hs.tail (writeAt image (e.start * sectorSize) chunk)
      (written + chunk.length)
    have hfin : e.fin = e.start + e.sectors := rfl
    have hpos : e.start * sectorSize = e.start * 512 := rfl
    refine ⟨fun p hp htot => ?_, fun x hx => ?_⟩
    · by_cases hpe : p < 512 * e.sectors
      · -- the byte lies in the first extent, which the later chunks do not touch
        have hn : nth (e :: es) (p / 512) = some (e.start + p / 512) := by
          rw [nth, if_pos (by omega)]
        have hc : ¬ Covers es (e.start + p / 512) := fun hc => by
          have := hs.head_lt hc
          omega
        rw [byteAt_of_nth hn, hother _ hc, byte_imageDisk _ _ (Nat.mod_lt _ (by omega)), getD_writeAt,
          if_pos (by omega), ← hget p (by omega)]
        congr 1
        omega
      · rw [byteAt_cons (not_lt.mp hpe), hdata _ (by omega) (by rw [total_cons] at htot; omega)]
        congr 1
        omega
    · rw [covers_cons, not_or, Run.Mem] at hx
      rw [hother x hx.2]
      refine sectors_congr fun k hk => ?_
      rw [getD_writeAt, if_neg (by omega)]

end PfsPut

end Rymos
