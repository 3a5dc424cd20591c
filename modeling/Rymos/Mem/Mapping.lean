import Mathlib.Tactic
import Rymos.Mem.Layout

/-!
# Mapping and unmapping

What the mapping functions do to the layout: one lemma for each function.

* **`MemInv.ensure`**, **`MemInv.map`**, **`MemInv.unmap`**: one table, one page.
* **`MemInv.unmapUser`**, **`MemInv.mapUser`**, **`MemInv.mapImage`**: a range of pages.
-/

namespace Rymos

open TableTree

section Mapping

variable {boot mem mem' : Memory} {kept : Set ℕ} {seen : ℕ → Set ℕ}
  {F : Layout (Option ℕ) ℕ ℕ} {hand : List ℕ}  {r : Option ℕ} {p : List ℕ} {i t a pml4 virt base : ℕ}

/-! ## What is written -/

/-- Pages are taken from the allocator, and entries change only in these and at places in `W`. -/
structure Wrote (W : List ℕ → Prop) (r : Option ℕ) (F' : Layout (Option ℕ) ℕ ℕ) (mem mem' : Memory) :
    Prop where
  taken : mem'.allocator.available ⊆ mem.allocator.available
  entries : ∀ {u j}, mem'.table u j ≠ mem.table u j →
    u ∈ mem.allocator.available ∨ ∃ q, F' r q = some u ∧ W (j :: q)

section Wrote

variable {W W' : List ℕ → Prop} {F' F'' : Layout (Option ℕ) ℕ ℕ} {mem'' : Memory}

theorem Wrote.refl (W : List ℕ → Prop) (r : Option ℕ) (F' : Layout (Option ℕ) ℕ ℕ) (mem : Memory) :
    Wrote W r F' mem mem := ⟨fun _ => id, fun h => absurd rfl h⟩

theorem Wrote.mono (h : Wrote W r F' mem mem') (hW : ∀ q, W q → W' q) : Wrote W' r F' mem mem' where
  taken := h.taken
  entries hne := (h.entries hne).imp_right fun hq => hq.imp fun _ hc => ⟨hc.1, hW _ hc.2⟩

theorem Wrote.trans {P : Option ℕ → List ℕ → Prop} (h : Wrote W r F' mem mem')
    (hg : Layout.Grows P F' F'') (h' : Wrote W r F'' mem' mem'') : Wrote W r F'' mem mem'' where
  taken := List.Subset.trans h'.taken h.taken
  entries {u j} hne := by
    by_cases hc : mem''.table u j = mem'.table u j
    · rw [hc] at hne
      exact (h.entries hne).imp_right fun hq => hq.imp fun q hq => ⟨hg.some hq.1, hq.2⟩
    · exact (h'.entries hc).imp_left fun hu => h.taken hu

/-- A page is taken and cleared. -/
theorem wrote_alloc (W : List ℕ → Prop) (r : Option ℕ) (F' : Layout (Option ℕ) ℕ ℕ)
    (ha : allocZeroedPage mem = (some a, mem'))
    (hav : mem.allocator.available = a :: mem'.allocator.available) : Wrote W r F' mem mem' where
  taken := hav ▸ List.subset_cons_self _ _
  entries {u j} hne := by
    by_cases hu : u = a
    · rw [hu, hav]
      exact .inl List.mem_cons_self
    · exact absurd (congrFun (allocZeroedPage_table ha hu) j) hne

/-- An entry of a table that has a place is written. -/
theorem wrote_write {p : List ℕ} (hp : F' r p = some t) (hW : W (i :: p)) (e : ℕ) :
    Wrote W r F' mem (mem.write t i e) where
  taken := fun _ => id
  entries {u j} hne := by
    by_cases hu : u = t ∧ j = i
    · exact .inr ⟨p, hu.1 ▸ hp, hu.2 ▸ hW⟩
    · exact absurd (Memory.write_table_of_ne hu) hne

/-- The page taken last is handed back. -/
theorem Wrote.freed (h : Wrote W r F' mem mem') (ha : a ∈ mem.allocator.available) :
    Wrote W r F' mem (freed a mem') where
  taken b hb := by
    rcases freePage_available mem'.allocator a with ⟨hav, -⟩ | ⟨hav, -⟩
    · change b ∈ (mem'.allocator.freePage a).2.available at hb
      rw [hav] at hb
      rcases List.mem_cons.mp hb with rfl | hb
      · exact ha
      · exact h.taken hb
    · change b ∈ (mem'.allocator.freePage a).2.available at hb
      rw [hav] at hb
      exact h.taken hb
  entries hne := h.entries hne

end Wrote

/-! ## One table -/

/-- One table is missing at a place, or none. -/
def missing (F : Layout (Option ℕ) ℕ ℕ) (r : Option ℕ) (p : List ℕ) : ℕ :=
  if F r p = none then 1 else 0

theorem missing_plant {q : List ℕ} (h : q ≠ p) : missing (F.plant r p a) r q = missing F r q := by
  rw [missing, missing, Layout.plant_of_ne fun hc => h hc.2]

/-- **`ensure_next_table`**: no page left, or the table at its place. -/
theorem MemInv.ensure (h : MemInv boot kept seen F hand mem) (ht : F r p = some t)
    (ho : OwnedPath r (i :: p)) :
    (ensureNextTable t i mem = (none, mem) ∧ F r (i :: p) = none ∧
      mem.allocator.available = []) ∨
    ∃ a mem', ensureNextTable t i mem = (some a, mem') ∧
      MemInv boot kept seen (F.plant r (i :: p) a) hand mem' ∧
      (F r (i :: p) = none ∨ F r (i :: p) = some a) ∧
      mem.allocator.available.length =
        mem'.allocator.available.length + missing F r (i :: p) ∧
      Wrote (· = i :: p) r (F.plant r (i :: p) a) mem mem' := by
  unfold ensureNextTable
  rcases hf : F r (i :: p) with _ | u
  · rw [if_neg (h.not_present ht ho hf)]
    rcases ha : allocZeroedPage mem with ⟨_ | next, mem₁⟩
    · obtain ⟨rfl, hav⟩ := allocZeroedPage_eq_none ha
      exact .inl ⟨rfl, rfl, hav⟩
    · obtain ⟨h₁, hz, hav⟩ := h.alloc ha
      have ht' : F.plant r (i :: p) next r p = some t := by
        rw [Layout.plant_of_ne fun hc => List.cons_ne_self i p hc.2.symm, ht]
      refine .inr ⟨next, _, rfl, h₁.plant ht ho hf fun j _ => hz j, .inl rfl, ?_,
        (wrote_alloc _ r _ ha hav).trans (Layout.Grows.refl (fun _ _ => True) _) (wrote_write (W := (· = i :: p)) ht' rfl _)⟩
      rw [missing, if_pos hf, hav]
      rfl
  · obtain ⟨hp, hh, hu⟩ := h.entry ht ho hf
    rw [if_pos hp, if_neg hh, hu]
    refine .inr ⟨u, mem, rfl, ?_, .inr rfl, ?_, .refl _ _ _ _⟩
    · rwa [Layout.plant_eq_self hf]
    · rw [missing, if_neg (by simp [hf])]
      rfl

/-- The tables missing on a way from the place `p` on. -/
def missingOn (F : Layout (Option ℕ) ℕ ℕ) (r : Option ℕ) : List ℕ → List ℕ → ℕ
  | _, [] => 0
  | p, i :: is => missing F r (i :: p) + missingOn F r (i :: p) is

theorem missingOn_congr {F' : Layout (Option ℕ) ℕ ℕ} (is : List ℕ) {p : List ℕ}
    (h : ∀ q, p.length < q.length → F' r q = F r q) : missingOn F' r p is = missingOn F r p is := by
  induction is generalizing p with
  | nil => rfl
  | cons i is ih =>
    have hlen : p.length < (i :: p).length := by simp
    rw [missingOn, missingOn, missing, missing, h _ hlen, ih fun q hq => h q (hlen.trans hq)]

/-- **The tables of a way.** -/
theorem MemInv.ensureTables (is : List ℕ) {p : List ℕ} {t : ℕ} {F : Layout (Option ℕ) ℕ ℕ}
    {mem : Memory} (h : MemInv boot kept seen F hand mem) (ht : F r p = some t)
    (ho : OwnedPath r (is.reverse ++ p)) :
    ∃ F' result mem', Rymos.ensureTables t is mem = (result, mem') ∧
      MemInv boot kept seen F' hand mem' ∧ F' r (is.reverse ++ p) = result ∧
      Layout.Grows (fun r' q => r' = r ∧ q <:+ is.reverse ++ p) F F' ∧
      (result = none → mem'.allocator.available = [] ∧
        mem.allocator.available.length < missingOn F r p is) ∧
      (result ≠ none → mem.allocator.available.length =
        mem'.allocator.available.length + missingOn F r p is) ∧
      Wrote (fun q => q <:+ is.reverse ++ p) r F' mem mem' := by
  induction is generalizing p t F mem with
  | nil =>
    refine ⟨F, some t, mem, rfl, h, ht, Layout.Grows.refl _ _, ?_, fun _ => rfl, .refl _ _ _ _⟩
    intro hc
    cases hc
  | cons i is ih =>
    have hrev : (i :: is).reverse ++ p = is.reverse ++ i :: p := by simp
    rw [hrev] at ho ⊢
    have hsuf : (i :: p) <:+ is.reverse ++ i :: p := List.suffix_append _ _
    have ho' : OwnedPath r (i :: p) := ho.suffix hsuf
    rw [Rymos.ensureTables, missingOn]
    obtain ⟨he, hf, hav⟩ | ⟨next, mem₁, he, h₁, hf, hav, hw⟩ := h.ensure ht ho'
    · rw [he]
      refine ⟨F, none, mem, rfl, h, h.lays.eq_none_append hf _, Layout.Grows.refl _ _, fun _ => ⟨hav, ?_⟩,
        fun hc => absurd rfl hc, .refl _ _ _ _⟩
      rw [missing, if_pos hf, hav, List.length_nil]
      omega
    · obtain ⟨F', result, mem', he', h', hres, hg, hnone, hsome, hw'⟩ := ih h₁ Layout.plant_self ho
      have hmiss : missingOn (F.plant r (i :: p) next) r (i :: p) is = missingOn F r (i :: p) is :=
        missingOn_congr is fun q hq => Layout.plant_of_ne fun hc => by simp [hc.2] at hq
      rw [hmiss] at hnone hsome
      refine ⟨F', result, mem', by rw [he, ← he'], h', hres,
        (Layout.grows_plant hf ⟨rfl, hsuf⟩).trans hg, fun hc => ?_, fun hc => ?_,
        (hw.mono fun q hq => hq ▸ hsuf).trans hg hw'⟩
      · obtain ⟨hav', hlt⟩ := hnone hc
        exact ⟨hav', by omega⟩
      · have := hsome hc
        omega

/-! ## One page -/

/-- The place of the page table of an address. -/
def tableOf (virt : ℕ) : List ℕ := [pdIndex virt, pdptIndex virt, pml4Index virt]

/-- The tables missing on the way to a page. -/
def missingTables (F : Layout (Option ℕ) ℕ ℕ) (r : Option ℕ) (virt : ℕ) : ℕ :=
  missingOn F r [] (tablePath virt)

/-- The places of the tables on the way to an address. -/
def OnWay (r : Option ℕ) (virts : Set ℕ) (r' : Option ℕ) (q : List ℕ) : Prop :=
  r' = r ∧ ∃ virt ∈ virts, q <:+ tableOf virt

/-- The places of given pages. -/
def PageOf (r : Option ℕ) (virts : Set ℕ) (r' : Option ℕ) (q : List ℕ) : Prop :=
  r' = r ∧ ∃ virt ∈ virts, q = pathOf virt

theorem pathOf_eq (virt : ℕ) : pathOf virt = ptIndex virt :: tableOf virt := rfl

theorem not_onWay_pathOf {r' : Option ℕ} {virts : Set ℕ} {virt' : ℕ} :
    ¬ OnWay r virts r' (pathOf virt') := by
  rintro ⟨-, virt, -, hs⟩
  have hlen := hs.length_le
  simp [pathOf, tableOf] at hlen

/-- **`map_page`** of the page in the hand: a table could not be made or the place is taken, or the
page is at its place. -/
theorem MemInv.map (h : MemInv boot kept seen F (a :: hand) mem) (hr : F r [] = some pml4)
    (hv : virt % pageSize = 0) (ho : OwnedPath r (pathOf virt)) :
    ∃ F' mem', Layout.Grows (OnWay r {virt}) F F' ∧
      ((mapPage pml4 virt a presentWritable mem = (false, mem') ∧
          MemInv boot kept seen F' (a :: hand) mem' ∧
          (F r (pathOf virt) = none → F' r (tableOf virt) = none ∧ mem'.allocator.available = [] ∧
            mem.allocator.available.length < missingTables F r virt) ∧
          Wrote (fun q => q <:+ pathOf virt) r F' mem mem') ∨
        (mapPage pml4 virt a presentWritable mem = (true, mem') ∧
          MemInv boot kept seen (F'.plant r (pathOf virt) a) hand mem' ∧
          F r (pathOf virt) = none ∧ mem.allocator.available.length =
            mem'.allocator.available.length + missingTables F r virt ∧
          Wrote (fun q => q <:+ pathOf virt) r (F'.plant r (pathOf virt) a) mem mem')) := by
  have hpage : IsPage a := h.page a (by simp)
  have hpml4 : pml4 ≠ 0 := (h.placed hr).1.2.1.ne'
  unfold mapPage
  rw [if_neg (by simp [hpml4, hv, hpage.1])]
  obtain ⟨F', result, mem', he, h', hres, hg, hnone, hsome, hw⟩ :=
    h.ensureTables (tablePath virt) hr ho.tail
  have hg' : Layout.Grows (OnWay r {virt}) F F' :=
    hg.mono fun r' q hq => ⟨hq.1, virt, rfl, hq.2⟩
  have hsame : F' r (pathOf virt) = F r (pathOf virt) := hg'.eq not_onWay_pathOf
  have hw' : Wrote (fun q => q <:+ pathOf virt) r F' mem mem' :=
    hw.mono fun q hq => List.IsSuffix.trans hq (List.suffix_cons _ (tableOf virt))
  change F' r (tableOf virt) = result at hres
  rw [he]
  rcases result with _ | pt
  · exact ⟨F', mem', hg', .inl ⟨rfl, h', fun _ => ⟨hres, hnone rfl⟩, hw'⟩⟩
  by_cases hp : present (mem'.table pt (ptIndex virt))
  · refine ⟨F', mem', hg', .inl ⟨if_pos hp, h', fun hf => ?_, hw'⟩⟩
    exact absurd hp (h'.not_present hres ho (hsame.trans hf))
  · have hf : F' r (pathOf virt) = none := by
      by_contra hc
      obtain ⟨b, hb⟩ := Option.ne_none_iff_exists'.mp hc
      exact hp (h'.entry hres ho hb).1
    have hpt : F'.plant r (pathOf virt) a r (tableOf virt) = some pt := by
      have hne : tableOf virt ≠ pathOf virt := (List.cons_ne_self (ptIndex virt) (tableOf virt)).symm
      rw [Layout.plant_of_ne fun hc => hne hc.2, hres]
    have hgrow : Layout.Grows (PageOf r {virt}) F' (F'.plant r (pathOf virt) a) :=
      Layout.grows_plant (.inl hf) ⟨rfl, virt, rfl, rfl⟩
    refine ⟨F', mem'.write pt (ptIndex virt) (pageEntry a presentWritable), hg',
      .inr ⟨if_neg hp, h'.plant hres ho hf fun j hj => ?_, hsame ▸ hf, hsome (by simp),
        hw'.trans hgrow (wrote_write (W := (· <:+ pathOf virt)) hpt List.suffix_rfl _)⟩⟩
    have := hj.length_le
    simp at this

/-- The table that memory has at the end of a way is the one of the layout. -/
theorem MemInv.follow (h : MemInv boot kept seen F hand mem) (is : List ℕ) {p : List ℕ} {t : ℕ}
    (ht : F r p = some t) (ho : OwnedPath r (is.reverse ++ p)) :
    Rymos.follow mem.table t is = F r (is.reverse ++ p) := by
  induction is generalizing p t with
  | nil => exact ht.symm
  | cons i is ih =>
    have hrev : (i :: is).reverse ++ p = is.reverse ++ i :: p := by simp
    rw [hrev] at ho ⊢
    have ho' : OwnedPath r (i :: p) := ho.suffix (List.suffix_append _ _)
    have hc : tableEntryAddress (mem.table t i) = F r (i :: p) := h.lays.child ht ho'
    rw [Rymos.follow, hc]
    rcases hf : F r (i :: p) with _ | u
    · exact (h.lays.eq_none_append hf _).symm
    · exact ih hf ho

/-- Only the page itself is at or below its place. -/
theorem prune_pathOf (hl : Lays OwnedPath mem.next F) (virt : ℕ) (r' : Option ℕ) (q : List ℕ) :
    F.prune r (pathOf virt) r' q = if r' = r ∧ q = pathOf virt then none else F r' q := by
  unfold Layout.prune
  by_cases hq : r' = r ∧ q = pathOf virt
  · rw [if_pos hq, if_pos ⟨hq.1, hq.2 ▸ List.suffix_rfl⟩]
  · rw [if_neg hq]
    split_ifs with hs
    · by_contra hc
      obtain ⟨b, hb⟩ := Option.ne_none_iff_exists'.mp (Ne.symm hc)
      have hlen := (hl.owned hb).length_le
      obtain ⟨q', rfl⟩ := hs.2
      have hnil : q' = [] := by simpa [pathOf] using hlen
      exact hq ⟨hs.1, by rw [hnil, List.nil_append]⟩
    · rfl

/-- **`unmap_page`**: nothing there, or the page's entry cleared. -/
theorem MemInv.unmap (h : MemInv boot kept seen F hand mem) (hr : F r [] = some pml4)
    (hv : virt % pageSize = 0) (ho : OwnedPath r (pathOf virt)) :
    (unmapPage pml4 virt mem = (none, mem) ∧ F r (pathOf virt) = none) ∨
      ∃ a pt, unmapPage pml4 virt mem = (some a, mem.write pt (ptIndex virt) 0) ∧
        F r (pathOf virt) = some a ∧ F r (tableOf virt) = some pt := by
  have hpml4 : pml4 ≠ 0 := (h.placed hr).1.2.1.ne'
  have hway : pageTableOf pml4 virt mem = F r (tableOf virt) := h.follow (tablePath virt) hr ho.tail
  unfold unmapPage
  rw [if_neg (by simp [hpml4, hv]), hway]
  rcases hf : F r (tableOf virt) with _ | pt
  · exact .inl ⟨rfl, h.lays.eq_none hf⟩
  rcases hd : F r (pathOf virt) with _ | a
  · exact .inl ⟨if_pos (h.not_present hf ho hd), rfl⟩
  obtain ⟨hp, -, haddr⟩ := h.entry hf ho hd
  refine .inr ⟨a, pt, ?_, rfl, rfl⟩
  simp only [hp, not_true_eq_false, if_false, haddr]

/-- A page taken away and freed. -/
theorem MemInv.freeOne (h : MemInv boot kept seen F hand mem) {pt : ℕ}
    (hpt : F r (tableOf virt) = some pt) (ha : F r (pathOf virt) = some a) :
    MemInv boot kept seen (F.prune r (pathOf virt)) hand
        (freed a (mem.write pt (ptIndex virt) 0)) ∧
      Reclaims (PageOf r {virt}) F (F.prune r (pathOf virt)) mem
        (freed a (mem.write pt (ptIndex virt) 0)) := by
  have hbelow : ∀ r' q b, F r' q = some b → (Below r (pathOf virt) r' q ↔ PageOf r {virt} r' q) := by
    intro r' q b hb
    constructor
    · intro hq
      have hpr := prune_pathOf (r := r) h.lays virt r' q
      rw [Layout.prune, if_pos (show r' = r ∧ pathOf virt <:+ q from hq)] at hpr
      split_ifs at hpr with hc
      · exact ⟨hc.1, virt, rfl, hc.2⟩
      · rw [hb] at hpr
        cases hpr
    · rintro ⟨rfl, w, rfl, rfl⟩
      exact ⟨rfl, List.suffix_rfl⟩
  obtain ⟨h', hre⟩ := h.reclaim (L := [a]) hpt (List.cons_ne_nil _ _) (List.nodup_singleton a)
    (fun b hb => ⟨pathOf virt, List.suffix_rfl, List.mem_singleton.mp hb ▸ ha⟩)
    fun b _ q hq hb => by
      obtain ⟨-, w, rfl, rfl⟩ := (hbelow r q b hb).mp ⟨rfl, hq⟩
      rw [ha] at hb
      cases hb
      exact List.mem_singleton_self _
  refine ⟨h', fun r' q => ?_, fun {u j} hu => ?_, fun {b} hb => ?_⟩
  · rw [prune_pathOf h.lays]
    refine ⟨?_, fun hc => if_neg fun hq => hc ⟨hq.1, _, rfl, hq.2⟩⟩
    rintro ⟨rfl, w, rfl, rfl⟩
    exact if_pos ⟨rfl, rfl⟩
  · by_cases hne : u = pt ∧ j = ptIndex virt
    · obtain ⟨rfl, rfl⟩ := hne
      exact ⟨r, tableOf virt, hpt, rfl, virt, rfl, rfl⟩
    · exact absurd (Memory.write_table_of_ne hne) hu
  · rcases hre.freed hb with hfree | ⟨r', q, hq, hbel⟩
    · exact .inl hfree
    · exact .inr ⟨r', q, hq, (hbelow r' q b hq).mp hbel⟩

/-! ## Ranges of pages -/

/-- The addresses of the pages `index` to `index + n` from `base` on. -/
def pagesFrom (base index n : ℕ) : Set ℕ :=
  {virt | ∃ k, index ≤ k ∧ k < index + n ∧ virt = pageVirt base k}

theorem pageVirt_mod (h : base % pageSize = 0) (k : ℕ) : pageVirt base k % pageSize = 0 := by
  simp only [pageVirt, pageSize] at *
  omega

theorem pagesFrom_zero (base index : ℕ) : pagesFrom base index 0 = ∅ := by
  ext virt
  simp only [pagesFrom, Set.mem_ofPred_eq, Set.mem_empty_iff_false, iff_false]
  rintro ⟨k, hk, hk', -⟩
  omega

theorem pagesFrom_succ (base index n : ℕ) :
    pagesFrom base index (n + 1) = insert (pageVirt base index) (pagesFrom base (index + 1) n) := by
  ext virt
  simp only [pagesFrom, Set.mem_ofPred_eq, Set.mem_insert_iff]
  constructor
  · rintro ⟨k, hk, hk', rfl⟩
    rcases Nat.eq_or_lt_of_le hk with rfl | hlt
    · exact .inl rfl
    · exact .inr ⟨k, hlt, by omega, rfl⟩
  · rintro (rfl | ⟨k, hk, hk', rfl⟩)
    · exact ⟨index, le_rfl, by omega, rfl⟩
    · exact ⟨k, by omega, by omega, rfl⟩

theorem pagesFrom_append (base index : ℕ) :
    pagesFrom base 0 (index + 1) = insert (pageVirt base index) (pagesFrom base 0 index) := by
  ext virt
  simp only [pagesFrom, Set.mem_ofPred_eq, Set.mem_insert_iff]
  constructor
  · rintro ⟨k, hk, hk', rfl⟩
    rcases Nat.lt_or_ge k index with hlt | hge
    · exact .inr ⟨k, hk, by omega, rfl⟩
    · exact .inl (by rw [show k = index by omega])
  · rintro (rfl | ⟨k, hk, hk', rfl⟩)
    · exact ⟨index, by omega, by omega, rfl⟩
    · exact ⟨k, hk, by omega, rfl⟩

theorem pageOf_insert {virts : Set ℕ} {virt : ℕ} {r' : Option ℕ} {q : List ℕ} :
    PageOf r (insert virt virts) r' q ↔ (r' = r ∧ q = pathOf virt) ∨ PageOf r virts r' q := by
  simp only [PageOf, Set.mem_insert_iff, exists_eq_or_imp, and_or_left]

theorem not_pageOf_nil {virts : Set ℕ} {r' : Option ℕ} : ¬ PageOf r virts r' [] := by
  rintro ⟨-, virt, -, hq⟩
  cases hq

/-- **`unmap_user_pages`** takes exactly the pages of the range away. -/
theorem MemInv.unmapUser (hb : base % pageSize = 0) (n : ℕ) {index : ℕ} {mem : Memory}
    {F : Layout (Option ℕ) ℕ ℕ} (h : MemInv boot kept seen F hand mem) (hr : F r [] = some pml4)
    (ho : ∀ virt ∈ pagesFrom base index n, OwnedPath r (pathOf virt)) :
    ∃ F', MemInv boot kept seen F' hand (unmapUserPagesFrom pml4 base index n mem).2 ∧
      Reclaims (PageOf r (pagesFrom base index n)) F F' mem
        (unmapUserPagesFrom pml4 base index n mem).2 := by
  induction n generalizing index mem F with
  | zero =>
    refine ⟨F, h, Reclaims.refl ?_⟩
    rintro r' q ⟨-, virt, hv, -⟩
    rw [pagesFrom_zero] at hv
    exact hv.elim
  | succ n ih =>
    rw [pagesFrom_succ] at ho ⊢
    have hpage : OwnedPath r (pathOf (pageVirt base index)) := ho _ (Set.mem_insert _ _)
    have hrest := fun virt hv => ho virt (Set.mem_insert_of_mem _ hv)
    have hroot : ∀ {F' mem'}, Reclaims (PageOf r {pageVirt base index}) F F' mem mem' →
        F' r [] = some pml4 := fun hc => by rw [(hc.cleared r []).2 not_pageOf_nil, hr]
    have hjoin : ∀ {F' F'' mem' mem''}, Reclaims (PageOf r {pageVirt base index}) F F' mem mem' →
        Reclaims (PageOf r (pagesFrom base (index + 1) n)) F' F'' mem' mem'' →
        Reclaims (PageOf r (insert (pageVirt base index) (pagesFrom base (index + 1) n)))
          F F'' mem mem'' := fun h₁ h₂ => (h₁.trans h₂).congr fun r' q => by
      rw [pageOf_insert]
      simp [PageOf]
    rw [unmapUserPagesFrom]
    obtain ⟨he, hf⟩ | ⟨a, pt, he, ha, hpt⟩ := h.unmap hr (pageVirt_mod hb index) hpage
    · have hsame : Reclaims (PageOf r {pageVirt base index}) F F mem mem := Reclaims.refl <| by
        rintro r' q ⟨rfl, virt, rfl, rfl⟩
        exact hf
      obtain ⟨F', h'', hc⟩ := ih h (hroot hsame) hrest
      rw [he]
      exact ⟨F', h'', hjoin hsame hc⟩
    · obtain ⟨h', hone⟩ := h.freeOne hpt ha
      obtain ⟨F', h'', hc⟩ := ih h' (hroot hone) hrest
      have ha₀ : a ≠ 0 := (h.placed ha).1.2.1.ne'
      rw [he]
      simp only [if_neg ha₀]
      exact ⟨F', h'', hjoin hone hc⟩

theorem OnWay.mono {virts virts' : Set ℕ} (hs : virts ⊆ virts') {r' : Option ℕ} {q : List ℕ}
    (h : OnWay r virts r' q) : OnWay r virts' r' q :=
  ⟨h.1, h.2.imp fun _ hv => ⟨hs hv.1, hv.2⟩⟩

theorem OnWay.length_lt {virts : Set ℕ} {r' : Option ℕ} {q : List ℕ} (h : OnWay r virts r' q) :
    q.length < 4 := by
  obtain ⟨-, virt, -, hs⟩ := h
  have hlen := hs.length_le
  simp only [tableOf, List.length_cons, List.length_nil] at hlen
  omega

/-- The first `index` pages of a range mapped where nothing was. -/
structure MappedSoFar (r : Option ℕ) (virts done : Set ℕ) (F₀ F : Layout (Option ℕ) ℕ ℕ) : Prop where
  grows : Layout.Grows (fun r' q => OnWay r virts r' q ∨ PageOf r done r' q) F₀ F
  fresh : ∀ virt ∈ done, F₀ r (pathOf virt) = none
  there : ∀ virt ∈ done, F r (pathOf virt) ≠ none

theorem MappedSoFar.start (r : Option ℕ) (virts : Set ℕ) (F₀ : Layout (Option ℕ) ℕ ℕ) :
    MappedSoFar r virts ∅ F₀ F₀ := ⟨Layout.Grows.refl _ _, nofun, nofun⟩

theorem MappedSoFar.next {virts done : Set ℕ} {F₀ F F' : Layout (Option ℕ) ℕ ℕ}
    (h : MappedSoFar r virts done F₀ F) (hv : virt ∈ virts)
    (hg : Layout.Grows (OnWay r {virt}) F F') (hf : F r (pathOf virt) = none) :
    MappedSoFar r virts (insert virt done) F₀ (F'.plant r (pathOf virt) a) := by
  have hf' : F' r (pathOf virt) = none := by rw [hg.eq not_onWay_pathOf, hf]
  have hplant : Layout.Grows (PageOf r {virt}) F' (F'.plant r (pathOf virt) a) :=
    Layout.grows_plant (.inl hf') ⟨rfl, virt, rfl, rfl⟩
  refine ⟨?_, ?_, ?_⟩
  · refine (h.grows.mono ?_).trans ((hg.mono ?_).trans (hplant.mono ?_))
    · exact fun r' q hq => hq.imp id fun hp => pageOf_insert.mpr (.inr hp)
    · exact fun r' q hq => .inl (hq.mono (Set.singleton_subset_iff.mpr hv))
    · rintro r' q ⟨hr, w, rfl, hq⟩
      exact .inr (pageOf_insert.mpr (.inl ⟨hr, hq⟩))
  · rintro w (rfl | hw)
    · by_contra hc
      obtain ⟨b, hb⟩ := Option.ne_none_iff_exists'.mp hc
      rw [h.grows.some hb] at hf
      cases hf
    · exact h.fresh w hw
  · rintro w (rfl | hw)
    · simp
    · obtain ⟨b, hb⟩ := Option.ne_none_iff_exists'.mp (h.there w hw)
      rw [hplant.some (hg.some hb)]
      exact Option.some_ne_none b

theorem MappedSoFar.root {virts done : Set ℕ} {F₀ F : Layout (Option ℕ) ℕ ℕ}
    (h : MappedSoFar r virts done F₀ F) (hr : F₀ r [] = some pml4) : F r [] = some pml4 :=
  h.grows.some hr

/-- **`map_user_pages`**: every page of the range where none was, or only tables more. -/
theorem MemInv.mapUserFrom {F₀ : Layout (Option ℕ) ℕ ℕ} (hb : base % pageSize = 0) {pages : ℕ}
    (ho : ∀ virt ∈ pagesFrom base 0 pages, OwnedPath r (pathOf virt)) (hr : F₀ r [] = some pml4) (n : ℕ)
    {index : ℕ} {mem : Memory} {F : Layout (Option ℕ) ℕ ℕ} (h : MemInv boot kept seen F hand mem)
    (hn : index + n = pages)
    (hF : MappedSoFar r (pagesFrom base 0 pages) (pagesFrom base 0 index) F₀ F) :
    ∃ F' mem', MemInv boot kept seen F' hand mem' ∧
      ((mapUserPagesFrom pml4 base index n mem = (false, mem') ∧
          Layout.Grows (OnWay r (pagesFrom base 0 pages)) F₀ F') ∨
        (mapUserPagesFrom pml4 base index n mem = (true, mem') ∧
          MappedSoFar r (pagesFrom base 0 pages) (pagesFrom base 0 pages) F₀ F')) := by
  induction n generalizing index mem F with
  | zero =>
    obtain rfl : index = pages := by omega
    exact ⟨F, mem, h, .inr ⟨rfl, hF⟩⟩
  | succ n ih =>
    have hin : pageVirt base index ∈ pagesFrom base 0 pages := ⟨index, by omega, by omega, rfl⟩
    have hsub : pagesFrom base 0 index ⊆ pagesFrom base 0 pages := by
      rintro virt ⟨k, hk, hk', rfl⟩
      exact ⟨k, hk, by omega, rfl⟩
    -- what has been mapped so far is taken away again
    have hback : ∀ {mem₁ F₁}, MemInv boot kept seen F₁ hand mem₁ →
        MappedSoFar r (pagesFrom base 0 pages) (pagesFrom base 0 index) F₀ F₁ →
        ∃ F', MemInv boot kept seen F' hand (unmapUserPages pml4 base index mem₁).2 ∧
          Layout.Grows (OnWay r (pagesFrom base 0 pages)) F₀ F' := by
      intro mem₁ F₁ h₁ hF₁
      obtain ⟨F', h', hc⟩ := h₁.unmapUser hb index (hF₁.root hr) fun virt hv => ho virt (hsub hv)
      refine ⟨F', h', hF₁.grows.cleared hc.cleared ?_⟩
      rintro r' q ⟨rfl, virt, hv, rfl⟩
      exact hF₁.fresh virt hv
    rw [mapUserPagesFrom]
    rcases ha : allocZeroedPage mem with ⟨_ | phys, mem₁⟩
    · obtain ⟨rfl, -⟩ := allocZeroedPage_eq_none ha
      obtain ⟨F', h', hg⟩ := hback h hF
      exact ⟨F', _, h', .inl ⟨rfl, hg⟩⟩
    · obtain ⟨h₁, -, -⟩ := h.alloc ha
      obtain ⟨F₁, mem₂, hg, ⟨hm, h₂, -⟩ | ⟨hm, h₂, hf, -⟩⟩ :=
        h₁.map (hF.root hr) (pageVirt_mod hb index) (ho _ hin)
      · have hF₁ : MappedSoFar r (pagesFrom base 0 pages) (pagesFrom base 0 index) F₀ F₁ := by
          refine ⟨hF.grows.trans (hg.mono fun r' q hq => .inl (hq.mono ?_)), hF.fresh, ?_⟩
          · exact Set.singleton_subset_iff.mpr hin
          · intro virt hv
            rw [hg.eq not_onWay_pathOf]
            exact hF.there virt hv
        obtain ⟨F', h', hg'⟩ := hback h₂.free hF₁
        exact ⟨F', _, h', .inl ⟨by simp only [hm], hg'⟩⟩
      · have hnext := hF.next (a := phys) hin hg hf
        rw [← pagesFrom_append] at hnext
        obtain ⟨F', mem', h', hres⟩ := ih h₂ (by omega) hnext
        refine ⟨F', mem', h', ?_⟩
        simp only [hm]
        exact hres

theorem MemInv.mapUser (h : MemInv boot kept seen F hand mem) (hb : base % pageSize = 0) {pages : ℕ}
    (ho : ∀ virt ∈ pagesFrom base 0 pages, OwnedPath r (pathOf virt)) (hr : F r [] = some pml4) :
    ∃ F' mem', MemInv boot kept seen F' hand mem' ∧
      ((mapUserPages pml4 base pages mem = (false, mem') ∧
          Layout.Grows (OnWay r (pagesFrom base 0 pages)) F F') ∨
        (mapUserPages pml4 base pages mem = (true, mem') ∧
          MappedSoFar r (pagesFrom base 0 pages) (pagesFrom base 0 pages) F F')) := by
  refine h.mapUserFrom hb ho hr pages (Nat.zero_add pages) ?_
  rw [pagesFrom_zero]
  exact MappedSoFar.start _ _ _

/-- A page that is mapped is at its place. -/
theorem MemInv.pageMapped_iff (h : MemInv boot kept seen F hand mem) (hr : F r [] = some pml4)
    (hv : virt % pageSize = 0) (ho : OwnedPath r (pathOf virt)) :
    pageMapped pml4 virt mem = true ↔ F r (pathOf virt) ≠ none := by
  have hpml4 : pml4 ≠ 0 := (h.placed hr).1.2.1.ne'
  have hway : pageTableOf pml4 virt mem = F r (tableOf virt) := h.follow (tablePath virt) hr ho.tail
  rw [pageMapped, if_neg (by simp [hpml4, hv]), hway]
  cases hf : F r (tableOf virt) with
  | none => simp [pathOf_eq, h.lays.eq_none hf]
  | some pt =>
    have hc : tableEntryAddress (mem.table pt (ptIndex virt)) = F r (pathOf virt) := h.lays.child hf ho
    dsimp only
    rw [hc, Option.isSome_iff_ne_none]

/-- What `map_image_pages` does: pages of the range and tables on the way to them are added, and it says if all
pages of the range are there. -/
structure ImageMapped (r : Option ℕ) (virts : Set ℕ) (F F' : Layout (Option ℕ) ℕ ℕ) (mem : Memory)
    (result : Bool × Memory) : Prop where
  grows : Layout.Grows (fun r' q => OnWay r virts r' q ∨ PageOf r virts r' q) F F'
  wrote : Wrote (fun q => ∃ virt ∈ virts, q <:+ pathOf virt) r F' mem result.2
  there : result.1 = true → ∀ virt ∈ virts, F' r (pathOf virt) ≠ none

/-- **`map_image_pages`**. -/
theorem MemInv.mapImage (hb : base % pageSize = 0) (n : ℕ) {index : ℕ} {mem : Memory}
    {F : Layout (Option ℕ) ℕ ℕ} (h : MemInv boot kept seen F hand mem) (hr : F r [] = some pml4)
    (ho : ∀ virt ∈ pagesFrom base index n, OwnedPath r (pathOf virt)) :
    ∃ F', MemInv boot kept seen F' hand (mapImagePagesFrom pml4 base index n mem).2 ∧
      ImageMapped r (pagesFrom base index n) F F' mem (mapImagePagesFrom pml4 base index n mem) := by
  induction n generalizing index mem F with
  | zero =>
    refine ⟨F, h, Layout.Grows.refl _ _, .refl _ _ _ _, fun _ virt hv => ?_⟩
    rw [pagesFrom_zero] at hv
    exact absurd hv (Set.notMem_empty virt)
  | succ n ih =>
    rw [pagesFrom_succ] at ho ⊢
    have hin := Set.mem_insert (pageVirt base index) (pagesFrom base (index + 1) n)
    have hsub := Set.subset_insert (pageVirt base index) (pagesFrom base (index + 1) n)
    have hpage := ho _ hin
    have hrest := fun virt hv => ho virt (hsub hv)
    have hwiden : ∀ r' q, OnWay r (pagesFrom base (index + 1) n) r' q ∨
        PageOf r (pagesFrom base (index + 1) n) r' q →
        OnWay r (insert (pageVirt base index) (pagesFrom base (index + 1) n)) r' q ∨
          PageOf r (insert (pageVirt base index) (pagesFrom base (index + 1) n)) r' q :=
      fun r' q hq => hq.imp (OnWay.mono hsub) fun hp => pageOf_insert.mpr (.inr hp)
    have hwiden' : ∀ q, (∃ virt ∈ pagesFrom base (index + 1) n, q <:+ pathOf virt) →
        ∃ virt ∈ insert (pageVirt base index) (pagesFrom base (index + 1) n), q <:+ pathOf virt :=
      fun q hq => hq.imp fun virt hc => ⟨hsub hc.1, hc.2⟩
    have hhere : ∀ q, q <:+ pathOf (pageVirt base index) →
        ∃ virt ∈ insert (pageVirt base index) (pagesFrom base (index + 1) n), q <:+ pathOf virt :=
      fun q hq => ⟨_, hin, hq⟩
    rw [mapImagePagesFrom]
    split_ifs with hmap
    · obtain ⟨F', h', hi⟩ := ih h hr hrest
      refine ⟨F', h', hi.grows.mono hwiden, hi.wrote.mono hwiden', fun hok virt hv => ?_⟩
      rcases hv with rfl | hv
      · obtain ⟨a, ha⟩ := Option.ne_none_iff_exists'.mp
          ((h.pageMapped_iff hr (pageVirt_mod hb index) hpage).mp hmap)
        rw [hi.grows.some ha]
        exact Option.some_ne_none a
      · exact hi.there hok virt hv
    · rcases ha : allocZeroedPage mem with ⟨_ | phys, mem₁⟩
      · obtain ⟨rfl, -⟩ := allocZeroedPage_eq_none ha
        refine ⟨F, h, Layout.Grows.refl _ _, .refl _ _ _ _, fun hok => ?_⟩
        cases hok
      · obtain ⟨h₁, -, hav⟩ := h.alloc ha
        have hway : ∀ r' q, OnWay r {pageVirt base index} r' q →
            OnWay r (insert (pageVirt base index) (pagesFrom base (index + 1) n)) r' q :=
          fun r' q hq => hq.mono (Set.singleton_subset_iff.mpr hin)
        obtain ⟨F₁, mem₂, hg, ⟨hm, h₂, -, hw⟩ | ⟨hm, h₂, hf, -, hw⟩⟩ :=
          h₁.map hr (pageVirt_mod hb index) hpage
        · simp only [hm]
          refine ⟨F₁, h₂.free, hg.mono fun r' q hq => .inl (hway r' q hq), ?_, fun hok => ?_⟩
          · have hw' := (wrote_alloc _ r F₁ ha hav).trans (Layout.Grows.refl (fun _ _ => True) _) hw
            exact (hw'.mono hhere).freed (hav ▸ List.mem_cons_self)
          · cases hok
        · have hf' : F₁ r (pathOf (pageVirt base index)) = none := by
            rw [hg.eq not_onWay_pathOf, hf]
          have hplant : Layout.Grows (PageOf r {pageVirt base index}) F₁
              (F₁.plant r (pathOf (pageVirt base index)) phys) :=
            Layout.grows_plant (.inl hf') ⟨rfl, _, rfl, rfl⟩
          obtain ⟨F', h', hi⟩ := ih h₂ (hplant.some (hg.some hr)) hrest
          simp only [hm]
          have hw' := (wrote_alloc _ r _ ha hav).trans (Layout.Grows.refl (fun _ _ => True) _) hw
          have hpage' : ∀ r' q, PageOf r {pageVirt base index} r' q →
              PageOf r (insert (pageVirt base index) (pagesFrom base (index + 1) n)) r' q :=
            fun r' q hq => ⟨hq.1, hq.2.imp fun virt hc =>
              ⟨Set.singleton_subset_iff.mpr hin hc.1, hc.2⟩⟩
          refine ⟨F', h', (hg.mono fun r' q hq => .inl (hway r' q hq)).trans
            ((hplant.mono fun r' q hq => .inr (hpage' r' q hq)).trans (hi.grows.mono hwiden)),
            (hw'.mono hhere).trans hi.grows (hi.wrote.mono hwiden'), fun hok virt hv => ?_⟩
          rcases hv with rfl | hv
          · rw [hi.grows.some Layout.plant_self]
            exact Option.some_ne_none phys
          · exact hi.there hok virt hv

end Mapping

end Rymos
