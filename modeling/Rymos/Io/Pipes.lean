import Mathlib.Tactic
import Rymos.Base.Queue
import Rymos.Io.Ends

/-!
# Pipes and descriptors agree, and pipes deliver in order

* `EndsOk`: the flags of a pipe tell which ends are open, each at most once. **`EndsOk.step`**.
* `QueueOk`: a pipe keeps what was accepted and not delivered yet. **`QueueOk.step`**.
* `PipeLaw`, **`pipeLaw_of_reach`**.
-/

namespace Rymos

open ByteBuf Transition

variable {io : Io} {sys sys' : Sys} {g g' : PipeLedger}

def AppPipe.openFor (pipe : AppPipe) : AppFdKind → Bool
  | .pipeRead => pipe.readOpen
  | .pipeWrite => pipe.writeOpen
  | _ => false

/-- The bytes written to a pipe and not read yet. -/
def AppPipe.queue (pipe : AppPipe) : List UInt8 := pipe.buffer.window pipe.readOffset pipe.len

/-! ## The two tables -/

structure EndsOk (sys : Sys) : Prop where
  index : ∀ {k i d}, k.isEnd = true → EndAt sys k i d → i < appPipeCount
  one : ∀ {k i d d'}, k.isEnd = true → EndAt sys k i d → EndAt sys k i d' → d = d'
  opened : ∀ {k i}, k.isEnd = true → i < appPipeCount →
    ((sys.pipes i).openFor k = true ↔ ∃ d, EndAt sys k i d)
  used : ∀ {i}, i < appPipeCount →
    ((sys.pipes i).used = true ↔ (sys.pipes i).readOpen = true ∨ (sys.pipes i).writeOpen = true)

/-- An end depends on what its slot refers to only. -/
theorem endAt_iff {k : AppFdKind} {i d : ℕ} (h : (sys.fds d).alike (sys'.fds d)) :
    EndAt sys' k i d ↔ EndAt sys k i d := by
  obtain ⟨ho, hk, hi, -⟩ := h
  constructor
  · rintro ⟨h₁, h₂, h₃, h₄⟩
    exact ⟨h₁, ho ▸ h₂, hk ▸ h₃, hi ▸ h₄⟩
  · rintro ⟨h₁, h₂, h₃, h₄⟩
    exact ⟨h₁, ho.trans h₂, hk.trans h₃, hi.trans h₄⟩

theorem endAt_congr (h : sys'.fds = sys.fds) {k : AppFdKind} {i d : ℕ} :
    EndAt sys' k i d ↔ EndAt sys k i d :=
  endAt_iff (h ▸ AppFd.alike_refl _)

/-- A slot that is closed, or that refers to no pipe, is no end. -/
theorem not_endAt {k : AppFdKind} {i d : ℕ} (hk : k.isEnd = true)
    (h : (sys.fds d).isOpen = false ∨ (sys.fds d).kind.isEnd = false) : ¬ EndAt sys k i d := by
  rintro ⟨-, ho, rfl, -⟩
  rcases h with h | h
  · rw [ho] at h
    cases h
  · rw [hk] at h
    cases h

/-- Another slot than the one that changes. -/
theorem endAt_update {d e : ℕ} {fd : AppFd} (h : sys'.fds = Function.update sys.fds d fd)
    (he : e ≠ d) {k : AppFdKind} {i : ℕ} : EndAt sys' k i e ↔ EndAt sys k i e := by
  refine endAt_iff ?_
  rw [h, Function.update_of_ne he]
  exact AppFd.alike_refl _

/-- What is kept when the ends and the flags are. -/
theorem EndsOk.congr (h : EndsOk sys)
    (he : ∀ {k i d}, k.isEnd = true → (EndAt sys' k i d ↔ EndAt sys k i d))
    (hp : ∀ i, (sys'.pipes i).readOpen = (sys.pipes i).readOpen ∧
      (sys'.pipes i).writeOpen = (sys.pipes i).writeOpen ∧ (sys'.pipes i).used = (sys.pipes i).used) :
    EndsOk sys' where
  index hk hd := h.index hk ((he hk).mp hd)
  one hk hd hd' := h.one hk ((he hk).mp hd) ((he hk).mp hd')
  opened := by
    intro k i hk hi
    have hf : (sys'.pipes i).openFor k = (sys.pipes i).openFor k := by
      obtain ⟨hr, hw, -⟩ := hp i
      cases k <;> first | rfl | exact hr | exact hw
    rw [hf, h.opened hk hi]
    exact exists_congr fun d => (he hk).symm
  used := by
    intro i hi
    obtain ⟨hr, hw, hu⟩ := hp i
    rw [hr, hw, hu]
    exact h.used hi

/-- A slot of the pipe table that is not used has no end. -/
theorem EndsOk.unused (h : EndsOk sys) {i : ℕ} (hi : i < appPipeCount)
    (hu : (sys.pipes i).used = false) {k : AppFdKind} (hk : k.isEnd = true) {d : ℕ} :
    ¬ EndAt sys k i d := by
  intro hd
  have hf := (h.opened hk hi).mpr ⟨d, hd⟩
  have : (sys.pipes i).used = true := by
    rw [h.used hi]
    cases k <;> first | (cases hk; done) | exact .inl hf | exact .inr hf
  rw [this] at hu
  cases hu

/-! ## Closing -/

theorem closePipe_openFor (handle : AppFd) (i : ℕ) (k : AppFdKind) :
    ((closePipe sys handle).pipes i).openFor k = ((sys.pipes i).openFor k &&
      !(decide (i = handle.pfsIndex) && decide (k = handle.kind))) := by
  by_cases hi : i = handle.pfsIndex
  · subst hi
    rw [closePipe]
    cases hk : handle.kind <;> cases k <;>
      cases hr : (sys.pipes handle.pfsIndex).readOpen <;>
      cases hw : (sys.pipes handle.pfsIndex).writeOpen <;>
      simp [AppPipe.openFor, Sys.setPipe, AppPipe.empty, hr, hw]
  · rw [closePipe]
    cases hk : handle.kind <;> simp [Sys.setPipe, hi]

theorem closePipe_used (handle : AppFd) (i : ℕ)
    (h : (sys.pipes i).used = true ↔ (sys.pipes i).readOpen = true ∨ (sys.pipes i).writeOpen = true) :
    ((closePipe sys handle).pipes i).used = true ↔
      ((closePipe sys handle).pipes i).readOpen = true ∨
        ((closePipe sys handle).pipes i).writeOpen = true := by
  by_cases hi : i = handle.pfsIndex
  · subst hi
    rw [closePipe]
    cases hk : handle.kind <;>
      cases hr : (sys.pipes handle.pfsIndex).readOpen <;>
      cases hw : (sys.pipes handle.pfsIndex).writeOpen <;>
      simp [Sys.setPipe, AppPipe.empty, hr, hw] at h ⊢ <;> exact h
  · rw [closePipe]
    cases hk : handle.kind <;> simpa [Sys.setPipe, Function.update_of_ne hi] using h

/-- What is left of a pipe that is still used. -/
theorem closePipe_queue (handle : AppFd) (i : ℕ) :
    (closePipe sys handle).pipes i = .empty ∨
      ((closePipe sys handle).pipes i).buffer = (sys.pipes i).buffer ∧
        ((closePipe sys handle).pipes i).readOffset = (sys.pipes i).readOffset ∧
        ((closePipe sys handle).pipes i).len = (sys.pipes i).len ∧
        ((closePipe sys handle).pipes i).used = (sys.pipes i).used := by
  by_cases hi : i = handle.pfsIndex
  · subst hi
    rw [closePipe]
    cases handle.kind <;> simp only [Sys.setPipe, Function.update_self]
    case pipeRead | pipeWrite =>
      split_ifs
      · exact .inl rfl
      · exact .inr ⟨rfl, rfl, rfl, rfl⟩
    all_goals exact .inr ⟨trivial, trivial, trivial, trivial⟩
  · refine .inr ?_
    rw [closePipe]
    cases handle.kind <;> simp [Sys.setPipe, Function.update_of_ne hi]

theorem EndsOk.close (h : EndsOk sys) {d : ℕ} (ho : (sys.fds d).isOpen = true) (hd : d < appFdCount) :
    EndsOk ((closePipe sys (sys.fds d)).setFd d .empty) := by
  have hend : ∀ {k i e}, k.isEnd = true →
      (EndAt ((closePipe sys (sys.fds d)).setFd d .empty) k i e ↔ e ≠ d ∧ EndAt sys k i e) := by
    intro k i e hk
    have hf : ((closePipe sys (sys.fds d)).setFd d .empty).fds = Function.update sys.fds d .empty := by
      rw [Sys.setFd, closePipe_fds]
    by_cases he : e = d
    · subst he
      refine ⟨fun hc => absurd hc (not_endAt hk (.inl ?_)), fun hc => absurd rfl hc.1⟩
      rw [hf, Function.update_self]
      rfl
    · rw [endAt_update hf he]
      exact ⟨fun hc => ⟨he, hc⟩, And.right⟩
  refine ⟨fun hk hc => h.index hk ((hend hk).mp hc).2,
    fun hk hc hc' => h.one hk ((hend hk).mp hc).2 ((hend hk).mp hc').2, ?_, fun hi => ?_⟩
  · intro k i hk hi
    change ((closePipe sys (sys.fds d)).pipes i).openFor k = true ↔ _
    rw [closePipe_openFor, Bool.and_eq_true, h.opened hk hi]
    constructor
    · rintro ⟨⟨e, he⟩, hc⟩
      refine ⟨e, (hend hk).mpr ⟨?_, he⟩⟩
      rintro rfl
      simp [he.index, he.kind_eq] at hc
    · rintro ⟨e, he⟩
      obtain ⟨hne, he⟩ := (hend hk).mp he
      refine ⟨⟨e, he⟩, ?_⟩
      simp only [Bool.not_eq_true', Bool.and_eq_false_iff, decide_eq_false_iff_not]
      by_contra hc
      simp only [not_or, not_not] at hc
      exact hne (h.one hk he ⟨hd, ho, hc.2.symm, hc.1.symm⟩)
  · exact closePipe_used (sys.fds d) _ (h.used hi)

/-! ## Opening -/

theorem EndsOk.opens (h : EndsOk sys) {d : ℕ} {fd : AppFd} (hd : (sys.fds d).isOpen = false)
    (hk : fd.kind.isEnd = false) (hf : sys'.fds = Function.update sys.fds d fd)
    (hp : sys'.pipes = sys.pipes) : EndsOk sys' := by
  refine h.congr (fun {k i e} he => ?_) fun i => by rw [hp]; exact ⟨rfl, rfl, rfl⟩
  by_cases hde : e = d
  · subst hde
    refine iff_of_false (not_endAt he (.inr ?_)) (not_endAt he (.inl hd))
    rwa [hf, Function.update_self]
  · exact endAt_update hf hde

/-- The ends of a new pipe `i` in the slots `r` and `w`. -/
theorem endAt_pipe {i r w : ℕ} (hr : r < appFdCount) (hw : w < appFdCount) (hrw : r ≠ w)
    (hf : sys'.fds = Function.update (Function.update sys.fds r (pipeFd .pipeRead fdRead i)) w
      (pipeFd .pipeWrite fdWrite i)) (hro : (sys.fds r).isOpen = false)
    (hwo : (sys.fds w).isOpen = false) {k : AppFdKind} (hk : k.isEnd = true) {j d : ℕ} :
    EndAt sys' k j d ↔ (j = i ∧ (d = r ∧ k = .pipeRead ∨ d = w ∧ k = .pipeWrite)) ∨
      EndAt sys k j d := by
  by_cases hdw : d = w
  · subst hdw
    have hfd : sys'.fds d = pipeFd .pipeWrite fdWrite i := by rw [hf, Function.update_self]
    constructor
    · rintro ⟨-, -, h₃, h₄⟩
      rw [hfd] at h₃ h₄
      exact .inl ⟨h₄.symm, .inr ⟨rfl, h₃.symm⟩⟩
    · rintro (⟨rfl, ⟨rfl, -⟩ | ⟨-, rfl⟩⟩ | hc)
      · exact absurd rfl hrw
      · exact ⟨hw, by rw [hfd]; rfl, by rw [hfd]; rfl, by rw [hfd]; rfl⟩
      · exact absurd hc (not_endAt hk (.inl hwo))
  by_cases hdr : d = r
  · subst hdr
    have hfd : sys'.fds d = pipeFd .pipeRead fdRead i := by
      rw [hf, Function.update_of_ne hdw, Function.update_self]
    constructor
    · rintro ⟨-, -, h₃, h₄⟩
      rw [hfd] at h₃ h₄
      exact .inl ⟨h₄.symm, .inl ⟨rfl, h₃.symm⟩⟩
    · rintro (⟨rfl, ⟨-, rfl⟩ | ⟨rfl, -⟩⟩ | hc)
      · exact ⟨hr, by rw [hfd]; rfl, by rw [hfd]; rfl, by rw [hfd]; rfl⟩
      · exact absurd rfl hdw
      · exact absurd hc (not_endAt hk (.inl hro))
  · have hfd : sys'.fds d = sys.fds d := by
      rw [hf, Function.update_of_ne hdw, Function.update_of_ne hdr]
    have ha : (sys.fds d).alike (sys'.fds d) := by
      rw [hfd]
      exact AppFd.alike_refl _
    rw [endAt_iff ha]
    refine ⟨.inr, ?_⟩
    rintro (⟨-, ⟨rfl, -⟩ | ⟨rfl, -⟩⟩ | hc)
    · exact absurd rfl hdr
    · exact absurd rfl hdw
    · exact hc

theorem EndsOk.pipe (h : EndsOk sys) {i r w : ℕ} (hi : freePipe sys = some i)
    (hr : freeFd sys = some r) (hw : freeFdAfter sys r = some w) :
    EndsOk (((sys.setPipe i newPipe).setFd r (pipeFd .pipeRead fdRead i)).setFd w
      (pipeFd .pipeWrite fdWrite i)) := by
  obtain ⟨hlt, hu⟩ := freePipe_eq_some hi
  obtain ⟨hr, hro⟩ := freeFd_eq_some hr
  obtain ⟨hrw, hw, hwo⟩ := freeFdAfter_eq_some hw
  have hend : ∀ {k j d}, k.isEnd = true → (EndAt (((sys.setPipe i newPipe).setFd r
      (pipeFd .pipeRead fdRead i)).setFd w (pipeFd .pipeWrite fdWrite i)) k j d ↔
        (j = i ∧ (d = r ∧ k = .pipeRead ∨ d = w ∧ k = .pipeWrite)) ∨ EndAt sys k j d) :=
    fun hk => endAt_pipe hr hw hrw.ne rfl hro hwo hk
  refine ⟨fun {k j d} hk hd => ?_, fun {k j d d'} hk hd hd' => ?_, fun {k j} hk hj => ?_,
    fun {j} hj => ?_⟩
  · rcases (hend hk).mp hd with ⟨rfl, -⟩ | hd
    · exact hlt
    · exact h.index hk hd
  · rcases (hend hk).mp hd with ⟨rfl, hslot⟩ | hold <;>
      rcases (hend hk).mp hd' with ⟨he, hslot'⟩ | hold'
    · rcases hslot with ⟨hdr, hkr⟩ | ⟨hdw, hkw⟩ <;> rcases hslot' with ⟨hdr', hkr'⟩ | ⟨hdw', hkw'⟩
      · exact hdr.trans hdr'.symm
      · exact absurd (hkr.symm.trans hkw') nofun
      · exact absurd (hkw.symm.trans hkr') nofun
      · exact hdw.trans hdw'.symm
    · exact absurd hold' (h.unused hlt hu hk)
    · exact absurd hold (h.unused (he ▸ hlt) (he ▸ hu) hk)
    · exact h.one hk hold hold'
  · change ((Function.update sys.pipes i newPipe) j).openFor k = true ↔ _
    simp only [hend hk]
    by_cases hji : j = i
    · subst hji
      rw [Function.update_self]
      cases k with
      | pipeRead => exact ⟨fun _ => ⟨r, .inl ⟨rfl, .inl ⟨rfl, rfl⟩⟩⟩, fun _ => rfl⟩
      | pipeWrite => exact ⟨fun _ => ⟨w, .inl ⟨rfl, .inr ⟨rfl, rfl⟩⟩⟩, fun _ => rfl⟩
      | _ => cases hk
    · rw [Function.update_of_ne hji, h.opened hk hj]
      simp only [hji, false_and, false_or]
  · change ((Function.update sys.pipes i newPipe) j).used = true ↔ _
    change _ ↔ ((Function.update sys.pipes i newPipe) j).readOpen = true ∨
      ((Function.update sys.pipes i newPipe) j).writeOpen = true
    by_cases hji : j = i
    · subst hji
      rw [Function.update_self]
      exact ⟨fun _ => .inl rfl, fun _ => rfl⟩
    · rw [Function.update_of_ne hji]
      exact h.used hj

/-! ## Reading and writing -/

/-- A read that takes `bytes` from a pipe. -/
theorem readPipe_done {handle : AppFd} {n : ℕ} {bytes : List UInt8}
    (h : readPipe sys handle n = (sys', .done bytes)) :
    sys'.fds = sys.fds ∧ ∃ pipe, sys'.pipes = Function.update sys.pipes handle.pfsIndex pipe ∧
      pipe.used = (sys.pipes handle.pfsIndex).used ∧
      pipe.readOpen = (sys.pipes handle.pfsIndex).readOpen ∧
      pipe.writeOpen = (sys.pipes handle.pfsIndex).writeOpen ∧
      ((sys.pipes handle.pfsIndex).readOffset ≤ (sys.pipes handle.pfsIndex).len →
        pipe.readOffset ≤ pipe.len ∧ pipe.len ≤ (sys.pipes handle.pfsIndex).len ∧
          (sys.pipes handle.pfsIndex).queue = bytes ++ pipe.queue) := by
  rw [readPipe] at h
  dsimp only at h
  split_ifs at h with h₁ h₂ h₃ <;> cases h
  · refine ⟨rfl, _, (Function.update_eq_self _ _).symm, rfl, rfl, rfl, fun hle => ⟨hle, le_rfl, rfl⟩⟩
  · refine ⟨rfl, _, rfl, rfl, rfl, rfl, fun hle => ⟨le_rfl, Nat.zero_le _, ?_⟩⟩
    rw [AppPipe.queue, AppPipe.queue, Buf.window_self, List.append_nil, Buf.window]
    congr 1
    omega
  · refine ⟨rfl, _, rfl, rfl, rfl, rfl, fun hle => ⟨by dsimp only; omega, le_rfl, ?_⟩⟩
    rw [AppPipe.queue, AppPipe.queue,
      Buf.window_split _ (Nat.le_add_right _ (min n ((sys.pipes handle.pfsIndex).len -
        (sys.pipes handle.pfsIndex).readOffset))) (by omega)]
    congr 1
    rw [Buf.window, Nat.add_sub_cancel_left]

/-- A write of which a pipe accepts `n` bytes. -/
theorem writePipe_done {handle : AppFd} {n : ℕ} {data : List UInt8}
    (h : writePipe sys handle data = (sys', .done n)) :
    sys'.fds = sys.fds ∧ ∃ pipe, sys'.pipes = Function.update sys.pipes handle.pfsIndex pipe ∧
      pipe.used = (sys.pipes handle.pfsIndex).used ∧
      pipe.readOpen = (sys.pipes handle.pfsIndex).readOpen ∧
      pipe.writeOpen = (sys.pipes handle.pfsIndex).writeOpen ∧
      ((sys.pipes handle.pfsIndex).readOffset ≤ (sys.pipes handle.pfsIndex).len →
        (sys.pipes handle.pfsIndex).len ≤ appPipeBufferSize →
        pipe.readOffset ≤ pipe.len ∧ pipe.len ≤ appPipeBufferSize ∧
          pipe.queue = (sys.pipes handle.pfsIndex).queue ++ data.take n) := by
  rw [writePipe] at h
  dsimp only at h
  split_ifs at h <;> cases h
  refine ⟨rfl, _, rfl, rfl, rfl, rfl, fun hle hsz => ?_⟩
  have hlen : (data.take (min data.length (appPipeBufferSize -
      (sys.pipes handle.pfsIndex).len))).length =
        min data.length (appPipeBufferSize - (sys.pipes handle.pfsIndex).len) := by
    rw [List.length_take]
    omega
  refine ⟨by dsimp only; omega, by dsimp only; omega, ?_⟩
  have hfit : (sys.pipes handle.pfsIndex).len +
      (data.take (min data.length (appPipeBufferSize - (sys.pipes handle.pfsIndex).len))).length ≤
        appPipeBufferSize := by
    rw [hlen]
    omega
  have hput := Buf.window_put (sys.pipes handle.pfsIndex).buffer hle hfit
  rw [hlen] at hput
  exact hput

/-- A pipe whose flags stay. -/
theorem EndsOk.moved (h : EndsOk sys) {i : ℕ} {pipe : AppPipe} (hf : sys'.fds = sys.fds)
    (hp : sys'.pipes = Function.update sys.pipes i pipe) (hu : pipe.used = (sys.pipes i).used)
    (hr : pipe.readOpen = (sys.pipes i).readOpen) (hw : pipe.writeOpen = (sys.pipes i).writeOpen) :
    EndsOk sys' := by
  refine h.congr (fun _ => endAt_congr hf) fun j => ?_
  rw [hp]
  by_cases hj : j = i
  · subst hj
    rw [Function.update_self]
    exact ⟨hr, hw, hu⟩
  · rw [Function.update_of_ne hj]
    exact ⟨rfl, rfl, rfl⟩

theorem endsOk_boot (h : IoBoot io) : EndsOk io.sys := by
  have hno : ∀ {k i d}, k.isEnd = true → ¬ EndAt io.sys k i d :=
    fun hk => not_endAt hk (.inl (by rw [h.fds]; rfl))
  refine ⟨fun hk hd => absurd hd (hno hk), fun hk hd => absurd hd (hno hk), fun {k i} hk _ => ?_,
    fun {i} _ => ?_⟩
  · rw [h.pipes]
    exact iff_of_false (by cases k <;> nofun) fun ⟨d, hd⟩ => hno hk hd
  · rw [h.pipes]
    exact iff_of_false nofun (by rintro (h | h) <;> cases h)

/-- **The two tables agree after every call.** -/
theorem EndsOk.step (h : EndsOk sys) (he : TableEffect sys sys' g g') : EndsOk sys' := by
  cases he with
  | same hs => exact h.congr (fun _ => endAt_iff (hs.fds _)) fun i => by rw [hs.pipes]; exact ⟨rfl, rfl, rfl⟩
  | opens hd hk hf hp => exact h.opens (freeFd_eq_some hd).2 hk hf hp
  | pipe hi hr hw hs =>
    subst hs
    exact h.pipe hi hr hw
  | closes hd ho hs =>
    subst hs
    exact h.close ho hd
  | takes hend hr =>
    obtain ⟨hf, pipe, hp, hu, hro, hwo, -⟩ := readPipe_done hr
    exact h.moved hf hp hu hro hwo
  | puts hend hw =>
    obtain ⟨hf, pipe, hp, hu, hro, hwo, -⟩ := writePipe_done hw
    exact h.moved hf hp hu hro hwo

/-! ## The bytes -/

structure QueueOk (sys : Sys) (g : PipeLedger) : Prop where
  offsets : ∀ i, (sys.pipes i).readOffset ≤ (sys.pipes i).len ∧ (sys.pipes i).len ≤ appPipeBufferSize
  flow : ∀ i, (sys.pipes i).used = true →
    Conserved (g.accepted i) (g.delivered i) (sys.pipes i).queue

theorem queueOk_boot (h : IoBoot io) : QueueOk io.sys .empty := by
  refine ⟨fun i => ?_, fun i hu => ?_⟩
  · rw [h.pipes]
    exact ⟨le_rfl, Nat.zero_le _⟩
  · rw [h.pipes] at hu
    cases hu

theorem QueueOk.start (h : QueueOk sys g) (i : ℕ) (hp : sys'.pipes = Function.update sys.pipes i newPipe) :
    QueueOk sys' (g.start i) := by
  refine ⟨fun j => ?_, fun j hu => ?_⟩ <;> by_cases hj : j = i
  · subst hj
    rw [hp, Function.update_self]
    exact ⟨le_rfl, Nat.zero_le _⟩
  · rw [hp, Function.update_of_ne hj]
    exact h.offsets j
  · subst hj
    rw [hp, Function.update_self, PipeLedger.start]
    simp only [Function.update_self]
    exact .nil
  · rw [hp, Function.update_of_ne hj] at hu ⊢
    rw [PipeLedger.start]
    simp only [Function.update_of_ne hj]
    exact h.flow j hu

theorem QueueOk.close (h : QueueOk sys g) (handle : AppFd) : QueueOk (closePipe sys handle) g := by
  refine ⟨fun j => ?_, fun j hu => ?_⟩ <;>
    rcases @closePipe_queue sys handle j with he | ⟨hb, hr, hl, hused⟩
  · rw [he]
    exact ⟨le_rfl, Nat.zero_le _⟩
  · rw [hr, hl]
    exact h.offsets j
  · rw [he] at hu
    cases hu
  · rw [AppPipe.queue, hb, hr, hl]
    exact h.flow j (hused ▸ hu)

/-- **What was accepted is what was delivered and what is queued, after every call.** -/
theorem QueueOk.step (h : QueueOk sys g) (he : TableEffect sys sys' g g') : QueueOk sys' g' := by
  cases he with
  | same hs hg =>
    subst hg
    exact ⟨fun i => hs.pipes ▸ h.offsets i, fun i hu => hs.pipes ▸ h.flow i (hs.pipes ▸ hu)⟩
  | opens hd hk hf hp hg =>
    subst hg
    exact ⟨fun i => hp ▸ h.offsets i, fun i hu => hp ▸ h.flow i (hp ▸ hu)⟩
  | pipe hi hr hw hs hg =>
    subst hs hg
    exact h.start _ rfl
  | @closes d hd ho hs hg =>
    subst hs hg
    have hclose := h.close (sys.fds d)
    exact ⟨hclose.offsets, hclose.flow⟩
  | @takes i d n bytes hend hr hg =>
    obtain ⟨-, pipe, hp, hu, -, -, hq⟩ := readPipe_done hr
    rw [hend.index] at hp hu hq
    obtain ⟨hle, hlen, hq⟩ := hq (h.offsets i).1
    subst hg
    refine ⟨fun j => ?_, fun j hused => ?_⟩ <;> by_cases hj : j = i
    · subst hj
      rw [hp, Function.update_self]
      exact ⟨hle, hlen.trans (h.offsets j).2⟩
    · rw [hp, Function.update_of_ne hj]
      exact h.offsets j
    · subst hj
      rw [hp, Function.update_self] at hused ⊢
      simp only [PipeLedger.deliver, Function.update_self]
      exact (h.flow j (hu ▸ hused)).pop hq
    · rw [hp, Function.update_of_ne hj] at hused ⊢
      simp only [PipeLedger.deliver, Function.update_of_ne hj]
      exact h.flow j hused
  | @puts i d n data hend hw hg =>
    obtain ⟨-, pipe, hp, hu, -, -, hq⟩ := writePipe_done hw
    rw [hend.index] at hp hu hq
    obtain ⟨hle, hlen, hq⟩ := hq (h.offsets i).1 (h.offsets i).2
    subst hg
    refine ⟨fun j => ?_, fun j hused => ?_⟩ <;> by_cases hj : j = i
    · subst hj
      rw [hp, Function.update_self]
      exact ⟨hle, hlen⟩
    · rw [hp, Function.update_of_ne hj]
      exact h.offsets j
    · subst hj
      rw [hp, Function.update_self] at hused ⊢
      simp only [PipeLedger.accept, Function.update_self, hq]
      exact (h.flow j (hu ▸ hused)).push _
    · rw [hp, Function.update_of_ne hj] at hused ⊢
      simp only [PipeLedger.accept, Function.update_of_ne hj]
      exact h.flow j hused

/-! ## Every run -/

/-- The calls, with the record of the pipes. -/
def pipeStep : Io × PipeLedger → IoAct → Option (Io × PipeLedger) :=
  Transition.record PipeLedger.note ioStep

def PipeBoot (x : Io × PipeLedger) : Prop := IoBoot x.1 ∧ x.2 = .empty

/-- The descriptor `d` is open, of the kind `kind`, and refers to pipe `i`. -/
def Refers (sys : Sys) (kind : AppFdKind) (i d : ℕ) : Prop :=
  d < appFdCount ∧ (sys.fds d).isOpen = true ∧ (sys.fds d).kind = kind ∧ (sys.fds d).pfsIndex = i

structure PipeLaw (x : Io × PipeLedger) : Prop where
  used : ∀ i < appPipeCount, (x.1.sys.pipes i).used = true ↔
    ∃ d, Refers x.1.sys .pipeRead i d ∨ Refers x.1.sys .pipeWrite i d
  readOpen : ∀ i < appPipeCount, (x.1.sys.pipes i).readOpen = true ↔ ∃! d, Refers x.1.sys .pipeRead i d
  writeOpen : ∀ i < appPipeCount,
    (x.1.sys.pipes i).writeOpen = true ↔ ∃! d, Refers x.1.sys .pipeWrite i d
  offsets : ∀ i < appPipeCount, (x.1.sys.pipes i).readOffset ≤ (x.1.sys.pipes i).len ∧
    (x.1.sys.pipes i).len ≤ appPipeBufferSize
  flow : ∀ i < appPipeCount, (x.1.sys.pipes i).used = true →
    x.2.delivered i ++ (x.1.sys.pipes i).queue = x.2.accepted i

theorem refers_iff {k : AppFdKind} {i d : ℕ} : Refers sys k i d ↔ EndAt sys k i d :=
  ⟨fun h => ⟨h.1, h.2.1, h.2.2.1, h.2.2.2⟩, fun h => ⟨h.lt, h.isOpen, h.kind_eq, h.index⟩⟩

theorem EndsOk.unique (h : EndsOk sys) {k : AppFdKind} {i : ℕ} (hk : k.isEnd = true)
    (hi : i < appPipeCount) : (sys.pipes i).openFor k = true ↔ ∃! d, Refers sys k i d := by
  rw [h.opened hk hi]
  constructor
  · rintro ⟨d, hd⟩
    exact ⟨d, refers_iff.mpr hd, fun e he => h.one hk (refers_iff.mp he) hd⟩
  · rintro ⟨d, hd, -⟩
    exact ⟨d, refers_iff.mp hd⟩

/-- Both invariants hold in every state reached. -/
theorem endsQueueOk_of_reach {x : Io × PipeLedger}
    (h : Reach PipeBoot (fun _ _ => True) pipeStep x) : EndsOk x.1.sys ∧ QueueOk x.1.sys x.2 := by
  refine h.inv (I := fun x => EndsOk x.1.sys ∧ QueueOk x.1.sys x.2) (fun x hb => ?_)
    fun x a y hx _ hs => ?_
  · rw [hb.2]
    exact ⟨endsOk_boot hb.1, queueOk_boot hb.1⟩
  · obtain ⟨hs, hg⟩ := record_eq_some.mp hs
    have he := ioStep_effect (g := x.2) hs
    rw [← hg] at he
    exact ⟨hx.1.step he, hx.2.step he⟩

/-- **The tables agree and pipes deliver in order.** -/
theorem pipeLaw_of_reach {x : Io × PipeLedger} (h : Reach PipeBoot (fun _ _ => True) pipeStep x) :
    PipeLaw x := by
  obtain ⟨hends, hqueue⟩ := endsQueueOk_of_reach h
  exact {
    used := fun i hi => by
      simp only [hends.used hi, refers_iff, exists_or]
      exact or_congr (hends.opened (k := .pipeRead) rfl hi) (hends.opened (k := .pipeWrite) rfl hi)
    readOpen := fun i hi => hends.unique (k := .pipeRead) rfl hi
    writeOpen := fun i hi => hends.unique (k := .pipeWrite) rfl hi
    offsets := fun i _ => hqueue.offsets i
    flow := fun i _ hu => hqueue.flow i hu }

/-- The state at boot, with an empty drive and no boot archive. -/
def bootIo : Io where
  sys :=
    { disk := { sectors := fun _ => Buf.zero _, present := false, readOk := fun _ => false,
                writeOk := fun _ => false }
      fds := fun _ => .empty
      pipes := fun _ => .empty
      bootfs := fun _ => none }
  stdFds := fun _ => emptyStdFds

theorem ioBoot_bootIo : IoBoot bootIo := ⟨fun _ => rfl, fun _ => rfl, fun _ => rfl⟩

/-- A process makes a pipe, writes three bytes to it and reads two of them. -/
def twoOfThreeRun : List IoAct := [.pipe 0, .write 0 4 [1, 2, 3] fun _ => 0, .read 0 3 2 []]

theorem pipeLaw_of_reach_twoOfThreeRun :
    ∃ x, exec pipeStep (bootIo, .empty) twoOfThreeRun = some x ∧
      (x.2.delivered 0 = [1, 2] ∧ x.2.accepted 0 = [1, 2, 3]) ∧ PipeLaw x := by
  have hrun : (exec pipeStep (bootIo, .empty) twoOfThreeRun).map (fun x =>
      (x.2.delivered 0, x.2.accepted 0)) = some ([1, 2], [1, 2, 3]) := by decide +kernel
  obtain ⟨x, hx, hv⟩ := Option.map_eq_some_iff.mp hrun
  exact ⟨x, hx, Prod.mk.inj hv,
    pipeLaw_of_reach (reach_of_exec (.start ⟨ioBoot_bootIo, rfl⟩) (allGood_true _ _) hx)⟩

end Rymos
