import Mathlib.Tactic
import Rymos.Mem.Loaded

/-!
# Memory without large pages

* `Tidy`: no entry is one of a large page, and none leads to a page of the allocator.
* **`Tidy.ensure`**, **`Tidy.ensureTables`**, **`Tidy.mapPage`**: mapping fails for want of pages only.
* **`Tidy.mapImage`**: `map_image_pages` maps pages as long as there are any.
* **`Tidy.create`**: a private PML4 made in such a memory.
-/

namespace Rymos

/-- Entries, wherever they are, lead to pages in use, and none is one of a large page. -/
structure Tidy (mem : Memory) : Prop where
  flat : ∀ t i, ¬ huge (mem.table t i)
  leads : ∀ t i, present (mem.table t i) → pageAddress (mem.table t i) ∉ mem.allocator.available
  loose : mem.allocator.available.Nodup
  page : ∀ a ∈ mem.allocator.available, IsPage a

section Tidy

variable {mem mem' : Memory} {pml4 virt t u a i : ℕ}

theorem not_huge_zero : ¬ huge 0 := by decide

/-- Every entry is none, one that was there, or leads to a page in use. -/
theorem Tidy.retable (h : Tidy mem) (hsub : mem'.allocator.available ⊆ mem.allocator.available)
    (hloose : mem'.allocator.available.Nodup)
    (htab : ∀ t i, mem'.table t i = 0 ∨ (∃ t' i', mem'.table t i = mem.table t' i') ∨
      ∃ a, IsPage a ∧ a ∉ mem'.allocator.available ∧ mem'.table t i = pageEntry a presentWritable) :
    Tidy mem' where
  flat t i := by
    rcases htab t i with h0 | ⟨t', i', he⟩ | ⟨a, -, -, he⟩
    · rw [h0]
      exact not_huge_zero
    · rw [he]
      exact h.flat t' i'
    · rw [he]
      exact not_huge_pageEntry a
  leads t i hp := by
    rcases htab t i with h0 | ⟨t', i', he⟩ | ⟨a, hpage, ha, he⟩
    · rw [h0] at hp
      exact absurd hp not_present_zero
    · rw [he] at hp ⊢
      exact fun hc => h.leads t' i' hp (hsub hc)
    · rw [he, hpage.pageAddress_pageEntry]
      exact ha
  loose := hloose
  page a ha := h.page a (hsub ha)

/-- An entry leads to a table if it is present. -/
theorem Tidy.tableEntryAddress (h : Tidy mem) (t i : ℕ) : Rymos.tableEntryAddress (mem.table t i) =
    if present (mem.table t i) then some (pageAddress (mem.table t i)) else none := by
  rw [Rymos.tableEntryAddress]
  by_cases hp : present (mem.table t i)
  · rw [if_neg (by simp [hp, h.flat]), if_pos hp]
  · rw [if_pos (.inl hp), if_neg hp]

/-- What a page in use leads to is in use. -/
theorem Tidy.next (h : Tidy mem) (hu : Rymos.tableEntryAddress (mem.table t i) = some u) :
    u ∉ mem.allocator.available := by
  obtain ⟨hp, -, rfl⟩ := tableEntryAddress_eq_some.mp hu
  exact h.leads t i hp

/-- **A page taken and cleared.** -/
theorem Tidy.alloc (h : Tidy mem) (ha : allocZeroedPage mem = (some a, mem')) :
    Tidy mem' ∧ mem.allocator.available = a :: mem'.allocator.available ∧ IsPage a ∧
      a ∉ mem'.allocator.available ∧ ∀ j, mem'.table a j = 0 := by
  have hav : mem.allocator.available = a :: mem'.allocator.available := by
    unfold allocZeroedPage at ha
    split at ha
    · cases ha
    · next hal =>
      cases ha
      exact (allocPage_eq_some hal).1
  have hzero : ∀ j, mem'.table a j = 0 := by
    intro j
    unfold allocZeroedPage at ha
    split at ha
    · cases ha
    · cases ha
      simp
  have hloose := hav ▸ h.loose
  refine ⟨h.retable (hav ▸ List.subset_cons_self _ _) (List.nodup_cons.mp hloose).2 fun t i => ?_, hav,
    h.page a (hav ▸ List.mem_cons_self), (List.nodup_cons.mp hloose).1, hzero⟩
  by_cases hta : t = a
  · rw [hta]
    exact .inl (hzero i)
  · exact .inr (.inl ⟨t, i, congrFun (allocZeroedPage_table ha hta) i⟩)

/-- **An entry set** to a page in use. -/
theorem Tidy.write (h : Tidy mem) (hpage : IsPage a) (ha : a ∉ mem.allocator.available) (t i : ℕ) :
    Tidy (mem.write t i (pageEntry a presentWritable)) := by
  refine h.retable (fun _ => id) h.loose fun t' i' => ?_
  by_cases hc : t' = t ∧ i' = i
  · obtain ⟨rfl, rfl⟩ := hc
    exact .inr (.inr ⟨a, hpage, ha, Memory.write_table_self mem t' i' _⟩)
  · exact .inr (.inl ⟨t', i', Memory.write_table_of_ne hc⟩)

/-- **`ensure_next_table`** fails for want of a page only. -/
theorem Tidy.ensure (h : Tidy mem) (ht : t ∉ mem.allocator.available) (i : ℕ) :
    (ensureNextTable t i mem = (none, mem) ∧ mem.allocator.available = []) ∨
      ∃ u mem', ensureNextTable t i mem = (some u, mem') ∧ Tidy mem' ∧
        u ∉ mem'.allocator.available ∧ mem'.allocator.available ⊆ mem.allocator.available ∧
        mem.allocator.available.length ≤ mem'.allocator.available.length + 1 ∧
        (mem' = mem ∧ Rymos.tableEntryAddress (mem.table t i) = some u ∨ ∀ j, mem'.table u j = 0) := by
  rw [ensureNextTable]
  by_cases hp : present (mem.table t i)
  · have hu : Rymos.tableEntryAddress (mem.table t i) = some (pageAddress (mem.table t i)) := by
      rw [h.tableEntryAddress, if_pos hp]
    rw [if_pos hp, if_neg (h.flat t i)]
    exact .inr ⟨_, mem, rfl, h, h.next hu, fun _ => id, by omega, .inl ⟨rfl, hu⟩⟩
  · rw [if_neg hp]
    rcases ha : allocZeroedPage mem with ⟨_ | a, mem₁⟩
    · obtain ⟨rfl, hav⟩ := allocZeroedPage_eq_none ha
      exact .inl ⟨rfl, hav⟩
    · obtain ⟨h₁, hav, hpage, hfree, hzero⟩ := h.alloc ha
      refine .inr ⟨a, _, rfl, h₁.write hpage hfree t i, hfree, hav ▸ List.subset_cons_self _ _, ?_, .inr ?_⟩
      · rw [hav]
        exact le_rfl
      · intro j
        have hta : ¬ (a = t ∧ j = i) := by
          rintro ⟨rfl, -⟩
          exact ht (hav ▸ List.mem_cons_self)
        rw [Memory.write_table_of_ne hta, hzero]

/-- **The tables of a way**: the last one was there, or is empty. -/
theorem Tidy.ensureTables (is : List ℕ) {t : ℕ} {mem : Memory} (h : Tidy mem)
    (ht : t ∉ mem.allocator.available) :
    ((∃ mem', Rymos.ensureTables t is mem = (none, mem')) ∧ mem.allocator.available.length < is.length) ∨
      ∃ u mem', Rymos.ensureTables t is mem = (some u, mem') ∧ Tidy mem' ∧
        u ∉ mem'.allocator.available ∧ mem'.allocator.available ⊆ mem.allocator.available ∧
        mem.allocator.available.length ≤ mem'.allocator.available.length + is.length ∧
        (mem' = mem ∧ follow mem.table t is = some u ∨ ∀ j, mem'.table u j = 0) := by
  induction is generalizing t mem with
  | nil => exact .inr ⟨t, mem, rfl, h, ht, fun _ => id, le_rfl, .inl ⟨rfl, rfl⟩⟩
  | cons i is ih =>
    rw [Rymos.ensureTables, List.length_cons]
    rcases h.ensure ht i with ⟨he, hav⟩ | ⟨u₁, mem₁, he, h₁, hu₁, hsub₁, hlen₁, hlast₁⟩
    · rw [he, hav, List.length_nil]
      exact .inl ⟨⟨mem, rfl⟩, by omega⟩
    rw [he]
    dsimp only
    rcases ih h₁ hu₁ with ⟨hnone, hlt⟩ | ⟨u, mem', he', h', hu, hsub, hlen, hlast⟩
    · exact .inl ⟨hnone, by omega⟩
    refine .inr ⟨u, mem', he', h', hu, List.Subset.trans hsub hsub₁, by omega, ?_⟩
    rcases hlast with ⟨rfl, hf⟩ | hzero
    · rcases hlast₁ with ⟨rfl, hnext⟩ | hzero₁
      · exact .inl ⟨rfl, by rw [follow, hnext, Option.bind_some, hf]⟩
      · -- nothing leads on from an empty table
        cases is with
        | nil =>
          cases hf
          exact .inr hzero₁
        | cons j is =>
          rw [follow, hzero₁, tableEntryAddress_zero] at hf
          cases hf
    · exact .inr hzero

/-- A page that is taken is on no way. -/
theorem Tidy.follow_alloc (h : Tidy mem) (ha : allocZeroedPage mem = (some a, mem')) (is : List ℕ) {t : ℕ}
    (ht : t ∉ mem.allocator.available) : follow mem'.table t is = follow mem.table t is ∧
      ∀ u, follow mem.table t is = some u → u ∉ mem.allocator.available := by
  obtain ⟨-, hav, -⟩ := h.alloc ha
  induction is generalizing t with
  | nil =>
    refine ⟨rfl, fun u hu => ?_⟩
    cases hu
    exact ht
  | cons i is ih =>
    have hta : t ≠ a := by
      rintro rfl
      exact ht (hav ▸ List.mem_cons_self)
    rw [follow, follow, congrFun (allocZeroedPage_table ha hta) i]
    cases hn : Rymos.tableEntryAddress (mem.table t i) with
    | none =>
      refine ⟨rfl, fun u hu => ?_⟩
      cases hu
    | some v =>
      rw [Option.bind_some, Option.bind_some]
      exact ih (h.next hn)

/-- **`map_page`** of a page taken for an address that is not mapped. -/
theorem Tidy.mapPage (h : Tidy mem) (hpml4 : pml4 ≠ 0) (hroot : pml4 ∉ mem.allocator.available)
    (hv : virt % pageSize = 0) (hm : pageMapped pml4 virt mem = false)
    (ha : allocZeroedPage mem = (some a, mem')) :
    ((∃ mem'', Rymos.mapPage pml4 virt a presentWritable mem' = (false, mem'')) ∧
        mem.allocator.available.length < 4) ∨
      ∃ mem'', Rymos.mapPage pml4 virt a presentWritable mem' = (true, mem'') ∧ Tidy mem'' ∧
        pml4 ∉ mem''.allocator.available ∧
        mem.allocator.available.length ≤ mem''.allocator.available.length + 4 := by
  obtain ⟨h', hav, hpage, hfree, -⟩ := h.alloc ha
  have hroot' : pml4 ∉ mem'.allocator.available := by
    rw [hav] at hroot
    exact fun hc => hroot (List.mem_cons_of_mem _ hc)
  have hlen : mem.allocator.available.length = mem'.allocator.available.length + 1 := by
    rw [hav, List.length_cons]
  rw [Rymos.mapPage, if_neg (by simp [hpml4, hv, hpage.1])]
  rcases h'.ensureTables (tablePath virt) hroot' with
    ⟨⟨mem'', he⟩, hlt⟩ | ⟨pt, mem'', he, h'', hpt, hsub, hle, hlast⟩
  · rw [he]
    exact .inl ⟨⟨mem'', rfl⟩, by simp only [tablePath, List.length_cons, List.length_nil] at hlt; omega⟩
  rw [he]
  dsimp only
  have habsent : ¬ present (mem''.table pt (ptIndex virt)) := by
    rcases hlast with ⟨rfl, hf⟩ | hzero
    · obtain ⟨hsame, hused⟩ := h.follow_alloc ha (tablePath virt) hroot
      rw [hsame] at hf
      have hpta : pt ≠ a := by
        rintro rfl
        exact hused pt hf (hav ▸ List.mem_cons_self)
      rw [congrFun (allocZeroedPage_table ha hpta) _]
      rw [pageMapped, if_neg (by simp [hpml4, hv]), pageTableOf, hf] at hm
      intro hp
      simp [h.tableEntryAddress, hp] at hm
    · rw [hzero]
      exact not_present_zero
  rw [if_neg habsent]
  refine .inr ⟨_, rfl, h''.write hpage (fun hc => hfree (hsub hc)) _ _, fun hc => hroot' (hsub hc), ?_⟩
  simp only [tablePath, List.length_cons, List.length_nil] at hle
  change _ ≤ mem''.allocator.available.length + 4
  omega

/-- **`map_image_pages`** maps pages as long as there are any, and takes four for each page at most. -/
theorem Tidy.mapImage {base : ℕ} (hb : base % pageSize = 0) (hpml4 : pml4 ≠ 0) (n : ℕ) {index : ℕ}
    {mem : Memory} (h : Tidy mem) (hroot : pml4 ∉ mem.allocator.available) :
    ((mapImagePagesFrom pml4 base index n mem).1 = false → mem.allocator.available.length <
        4 * ((imageMaps pml4 base index n mem).length + 1)) ∧
      ((mapImagePagesFrom pml4 base index n mem).1 = true →
        Tidy (mapImagePagesFrom pml4 base index n mem).2 ∧
        pml4 ∉ (mapImagePagesFrom pml4 base index n mem).2.allocator.available ∧
        mem.allocator.available.length ≤
          (mapImagePagesFrom pml4 base index n mem).2.allocator.available.length + 4 * n) := by
  induction n generalizing index mem with
  | zero =>
    refine ⟨fun hc => ?_, fun _ => ⟨h, hroot, le_rfl⟩⟩
    cases hc
  | succ n ih =>
    rw [mapImagePagesFrom, imageMaps]
    by_cases hm : pageMapped pml4 (pageVirt base index) mem = true
    · rw [if_pos hm, if_pos hm]
      obtain ⟨hfalse, htrue⟩ := @ih (index + 1) mem h hroot
      refine ⟨hfalse, fun hc => ?_⟩
      obtain ⟨h', hroot', hlen⟩ := htrue hc
      exact ⟨h', hroot', by omega⟩
    rw [if_neg hm, if_neg hm]
    rcases ha : allocZeroedPage mem with ⟨_ | a, mem₁⟩
    · obtain ⟨rfl, hav⟩ := allocZeroedPage_eq_none ha
      refine ⟨fun _ => ?_, fun hc => ?_⟩
      · rw [hav, List.length_nil]
        omega
      · cases hc
    rcases h.mapPage hpml4 hroot (pageVirt_mod hb index) (by simpa using hm) ha with
      ⟨⟨mem₂, he⟩, hlt⟩ | ⟨mem₂, he, h₂, hroot₂, hle⟩
    · simp only [he]
      refine ⟨fun _ => ?_, fun hc => ?_⟩
      · rw [List.length_nil]
        exact hlt
      · cases hc
    · simp only [he, List.length_cons]
      obtain ⟨hfalse, htrue⟩ := @ih (index + 1) mem₂ h₂ hroot₂
      refine ⟨fun hc => ?_, fun hc => ?_⟩
      · have := hfalse hc
        omega
      · obtain ⟨h', hroot', hlen⟩ := htrue hc
        exact ⟨h', hroot', by omega⟩

/-! ## A private PML4 -/

/-- Entries are copied or cleared. -/
theorem Tidy.table (h : Tidy mem) {table : ℕ → ℕ → ℕ}
    (htab : ∀ t i, table t i = 0 ∨ ∃ t' i', table t i = mem.table t' i') :
    Tidy { mem with table := table } :=
  h.retable (fun _ => id) h.loose fun t i => (htab t i).imp_right .inl

theorem Tidy.copyTable (h : Tidy mem) (source target : ℕ) : Tidy (mem.copyTable source target) := by
  refine h.table fun t i => .inr ?_
  by_cases ht : t = target
  · exact ⟨source, i, by rw [ht, Function.update_self]⟩
  · exact ⟨t, i, by rw [Function.update_of_ne ht]⟩

theorem Tidy.clearEntries (h : Tidy mem) (table start stop : ℕ) :
    Tidy (mem.clearEntries table start stop) := by
  refine h.table fun t i => ?_
  by_cases ht : t = table
  · rw [ht, Function.update_self]
    by_cases hc : start ≤ i ∧ i < stop
    · exact .inl (if_pos hc)
    · exact .inr ⟨table, i, if_neg hc⟩
  · exact .inr ⟨t, i, by rw [Function.update_of_ne ht]⟩

/-- **`ensure_kernel_pml4`.** -/
theorem Tidy.ensureKernel (h : Tidy mem) {k : ℕ} (hk : mem.kernelPml4 ∉ mem.allocator.available)
    (he : ensureKernelPml4 mem = (some k, mem')) : Tidy mem' ∧ k ∉ mem'.allocator.available ∧
      mem.allocator.available.length ≤ mem'.allocator.available.length + 1 := by
  rw [ensureKernelPml4] at he
  split_ifs at he with hz
  · cases he
    exact ⟨h, hk, by omega⟩
  rw [cloneActivePml4] at he
  rcases ha : allocZeroedPage mem with ⟨_ | a, mem₁⟩
  · rw [ha] at he
    cases he
  · rw [ha] at he
    cases he
    obtain ⟨h₁, hav, -, hfree, -⟩ := h.alloc ha
    have hc := h₁.copyTable mem₁.cr3 k
    refine ⟨⟨hc.flat, hc.leads, hc.loose, hc.page⟩, hfree, ?_⟩
    rw [hav]
    exact le_rfl

/-- **The top-level entries of the windows.** -/
theorem Tidy.touch (h : Tidy mem) {k pid : ℕ} (hk : k ∉ mem.allocator.available)
    (he : touchWindows k pid mem = (true, mem')) : Tidy mem' ∧ k ∉ mem'.allocator.available ∧
      mem.allocator.available.length ≤ mem'.allocator.available.length + 3 := by
  rw [touchWindows] at he
  rcases h.ensure hk (pml4Index (heapBase pid)) with ⟨he₁, -⟩ | ⟨u₁, mem₁, he₁, h₁, -, hs₁, hl₁, -⟩
  · rw [he₁] at he
    cases he
  rw [he₁] at he
  dsimp only at he
  rcases h₁.ensure (fun hc => hk (hs₁ hc)) (pml4Index (mmapBase pid)) with
    ⟨he₂, -⟩ | ⟨u₂, mem₂, he₂, h₂, -, hs₂, hl₂, -⟩
  · rw [he₂] at he
    cases he
  rw [he₂] at he
  dsimp only at he
  rcases h₂.ensure (fun hc => hk (hs₁ (hs₂ hc))) (pml4Index (stackBase pid)) with
    ⟨he₃, -⟩ | ⟨u₃, mem₃, he₃, h₃, -, hs₃, hl₃, -⟩
  · rw [he₃] at he
    cases he
  rw [he₃] at he
  cases he
  exact ⟨h₃, fun hc => hk (hs₁ (hs₂ (hs₃ hc))), by omega⟩

/-- **The copies of the kernel's tables.** -/
theorem Tidy.copyImage (h : Tidy mem) {k : ℕ} (he : copyImageTables k mem = (some pml4, mem')) :
    Tidy mem' ∧ IsPage pml4 ∧ pml4 ∉ mem'.allocator.available ∧
      mem.allocator.available.length ≤ mem'.allocator.available.length + 3 := by
  rw [copyImageTables] at he
  rcases ha : allocZeroedPage mem with ⟨_ | a, mem₁⟩
  · rw [ha] at he
    cases he
  obtain ⟨h₁, hav₁, hpage₁, hfree₁, -⟩ := h.alloc ha
  rw [ha] at he
  dsimp only at he
  generalize hm₁ : mem₁.copyTable k a = copied₁ at he
  have hc₁ : Tidy copied₁ := hm₁ ▸ h₁.copyTable k a
  have hal₁ : copied₁.allocator = mem₁.allocator := by rw [← hm₁, Memory.copyTable]
  split at he
  · cases he
  next sharedPdpt _ =>
  rcases hb : allocZeroedPage copied₁ with ⟨_ | b, mem₂⟩
  · rw [hb] at he
    cases he
  obtain ⟨h₂, hav₂, hpage₂, hfree₂, -⟩ := hc₁.alloc hb
  rw [hb] at he
  dsimp only at he
  generalize hm₂ : mem₂.copyTable sharedPdpt b = copied₂ at he
  have hc₂ : Tidy copied₂ := hm₂ ▸ h₂.copyTable sharedPdpt b
  have hal₂ : copied₂.allocator = mem₂.allocator := by rw [← hm₂, Memory.copyTable]
  split at he
  · cases he
  next sharedPd _ =>
  rcases hd : allocZeroedPage copied₂ with ⟨_ | c, mem₃⟩
  · rw [hd] at he
    cases he
  obtain ⟨h₃, hav₃, hpage₃, hfree₃, -⟩ := hc₂.alloc hd
  rw [hd] at he
  obtain ⟨hroot, rfl⟩ := Prod.mk.inj he
  cases hroot
  rw [hal₁] at hav₂
  rw [hal₂] at hav₃
  have hsub₃ : mem₃.allocator.available ⊆ mem₂.allocator.available := hav₃ ▸ List.subset_cons_self _ _
  have hsub₂ : mem₂.allocator.available ⊆ mem₁.allocator.available := hav₂ ▸ List.subset_cons_self _ _
  have hlen : mem.allocator.available.length = mem₃.allocator.available.length + 3 := by
    rw [hav₁, hav₂, hav₃]
    rfl
  -- the entries to the two tables below are written last
  have hc₃ := (h₃.copyTable sharedPd c).clearEntries c startPdIndex endPdIndex
  have hw := hc₃.write hpage₃ hfree₃ b (pdptIndex appLoadMin)
  exact ⟨hw.write hpage₂ (fun hc => hfree₂ (hsub₃ hc)) pml4 (pml4Index appLoadMin), hpage₁,
    fun hc => hfree₁ (hsub₂ (hsub₃ hc)), hlen.le⟩

/-- **`create_process_address_space`.** -/
theorem Tidy.create (h : Tidy mem) {pid : ℕ} (hk : mem.kernelPml4 ∉ mem.allocator.available)
    (he : createProcessAddressSpace pid mem = (some pml4, mem')) :
    Tidy mem' ∧ IsPage pml4 ∧ pml4 ∉ mem'.allocator.available ∧
      mem.allocator.available.length ≤ mem'.allocator.available.length + 7 := by
  rw [createProcessAddressSpace] at he
  rcases hk₁ : ensureKernelPml4 mem with ⟨_ | k, mem₁⟩
  · rw [hk₁] at he
    cases he
  obtain ⟨h₁, hfree₁, hlen₁⟩ := h.ensureKernel hk hk₁
  rw [hk₁] at he
  dsimp only at he
  rcases ht : touchWindows k pid mem₁ with ⟨_ | _, mem₂⟩
  · rw [ht] at he
    cases he
  obtain ⟨h₂, -, hlen₂⟩ := h₁.touch hfree₁ ht
  rw [ht] at he
  obtain ⟨h₃, hpage, hfree₃, hlen₃⟩ := h₂.copyImage he
  exact ⟨h₃, hpage, hfree₃, by omega⟩

end Tidy

end Rymos
