import Mathlib.Tactic
import Rymos.Io.Pipes

/-!
# How much a pipe takes

* `KeepsFlags`: a slot that stays open keeps its flags. **`keepsFlags_ioStep`**.
* `WriteEnds`: what is the write end of a pipe can be written to. **`WriteEnds.step`**.
* `TakesRoom`: a write to a pipe takes what the buffer has room for besides the unread bytes.
* **`takesRoom_iff`**: so it does just if nothing was read since the pipe was empty, or the bytes fit
  behind the last one. `not_takesRoom_halfReadRun`.
-/

namespace Rymos

open ByteBuf Transition

variable {io io' : Io} {sys sys' : Sys} {g g' : PipeLedger}

/-! ## Flags -/

def KeepsFlags (sys sys' : Sys) : Prop :=
  ∀ d, (sys.fds d).isOpen = true → (sys'.fds d).isOpen = true →
    (sys'.fds d).flags = (sys.fds d).flags

theorem keepsFlags_of_eq (h : sys'.fds = sys.fds) : KeepsFlags sys sys' := by
  intro d _ _
  rw [h]

theorem keepsFlags_update {d : ℕ} {fd : AppFd} (hf : sys'.fds = Function.update sys.fds d fd)
    (h : (sys.fds d).isOpen = true → fd.isOpen = true → fd.flags = (sys.fds d).flags) :
    KeepsFlags sys sys' := by
  intro e ho ho'
  rw [hf] at ho' ⊢
  by_cases he : e = d
  · subst he
    rw [Function.update_self] at ho' ⊢
    exact h ho ho'
  · rw [Function.update_of_ne he]

theorem KeepsFlags.of_setDisk {disk : Disk} (h : KeepsFlags (sys.setDisk disk) sys') :
    KeepsFlags sys sys' := h

/-- A slot taken for something new. -/
theorem keepsFlags_fresh {d : ℕ} {fd : AppFd} (hd : (sys.fds d).isOpen = false)
    (hf : sys'.fds = Function.update sys.fds d fd) : KeepsFlags sys sys' :=
  keepsFlags_update hf fun ho => absurd (hd.symm.trans ho) nofun

theorem keepsFlags_openPfsFd {header : Header} {index : ℕ} {flags : UInt32} :
    KeepsFlags sys (openPfsFd sys header index flags).1 := by
  rw [openPfsFd]
  split
  · exact keepsFlags_fresh (freeFd_eq_some ‹_›).2 rfl
  · exact keepsFlags_of_eq rfl

theorem keepsFlags_openPfsTruncate {header : Header} {index : ℕ} {name : List UInt8}
    {flags : UInt32} {t : ℕ → ℕ} :
    KeepsFlags sys (openPfsTruncate sys header index name flags t).1 := by
  rw [openPfsTruncate]
  split_ifs
  · dsimp only
    split
    · exact keepsFlags_of_eq rfl
    · exact keepsFlags_openPfsFd.of_setDisk
  · exact keepsFlags_openPfsFd

theorem keepsFlags_abiOpenPfs {name : List UInt8} {flags : UInt32} {t : ℕ → ℕ} :
    KeepsFlags sys (abiOpenPfs sys name flags t).1 := by
  rw [abiOpenPfs]
  split_ifs
  iterate 4 exact keepsFlags_of_eq rfl
  split
  · exact keepsFlags_of_eq rfl
  split_ifs
  · exact keepsFlags_of_eq rfl
  split
  · exact keepsFlags_of_eq rfl
  · exact keepsFlags_openPfsTruncate
  split
  · exact keepsFlags_of_eq rfl
  · exact keepsFlags_openPfsTruncate.of_setDisk

theorem keepsFlags_abiOpen {cwd path : List UInt8} {flags : UInt32} {t : ℕ → ℕ} :
    KeepsFlags sys (abiOpen sys cwd path flags t).1 := by
  rw [abiOpen]
  split
  · exact keepsFlags_of_eq rfl
  split
  · exact keepsFlags_abiOpenPfs
  split_ifs
  iterate 2 exact keepsFlags_of_eq rfl
  split
  · exact keepsFlags_of_eq rfl
  split
  · exact keepsFlags_fresh (freeFd_eq_some ‹_›).2 rfl
  · exact keepsFlags_of_eq rfl

theorem readPipe_fds (handle : AppFd) (n : ℕ) : (readPipe sys handle n).1.fds = sys.fds := by
  rw [readPipe]
  dsimp only
  split_ifs <;> rfl

theorem writePipe_fds (handle : AppFd) (data : List UInt8) :
    (writePipe sys handle data).1.fds = sys.fds := by
  rw [writePipe]
  dsimp only
  split_ifs <;> rfl

theorem keepsFlags_abiRead (fd : ℤ) (n : ℕ) : KeepsFlags sys (abiRead sys fd n).1 := by
  rw [abiRead]
  split
  · exact keepsFlags_of_eq rfl
  dsimp only
  split_ifs
  iterate 2 exact keepsFlags_of_eq rfl
  · exact keepsFlags_of_eq (readPipe_fds _ _)
  · exact keepsFlags_of_eq rfl
  split
  · exact keepsFlags_update rfl fun _ _ => rfl
  · split
    · exact keepsFlags_of_eq rfl
    · exact keepsFlags_update rfl fun _ _ => rfl
  · exact keepsFlags_of_eq rfl

theorem keepsFlags_writeFile {d : ℕ} {handle : AppFd} {data : List UInt8} {t : ℕ → ℕ}
    {r : Sys × Reply ℕ} (h : handle.flags = (sys.fds d).flags)
    (he : writeFile (sys.setFd d handle) d handle data t = some r) : KeepsFlags sys r.1 := by
  have hset : ∀ (fd : AppFd) (disk : Disk), fd.flags = handle.flags →
      KeepsFlags sys (((sys.setFd d handle).setDisk disk).setFd d fd) := fun fd disk hfd =>
    keepsFlags_update (Function.update_idem _ _ _) fun _ _ => hfd.trans h
  have hdisk : ∀ disk, KeepsFlags sys ((sys.setFd d handle).setDisk disk) :=
    fun disk => keepsFlags_update rfl fun _ _ => h
  rw [writeFile] at he
  split_ifs at he
  · cases he
    exact hdisk _
  split at he
  · cases he
  · cases he
    exact hdisk _
  dsimp only at he
  split_ifs at he
  · split at he <;> cases he
    · exact hset _ _ rfl
    · exact hset _ _ rfl
  · cases he
    exact hset _ _ rfl

theorem keepsFlags_abiWriteFd {fd : ℤ} {data : List UInt8} {t : ℕ → ℕ} {r : Sys × Reply ℕ}
    (he : abiWriteFd sys fd data t = some r) : KeepsFlags sys r.1 := by
  rw [abiWriteFd] at he
  split at he
  · cases he
    exact keepsFlags_of_eq rfl
  dsimp only at he
  split_ifs at he
  · cases he
    exact keepsFlags_of_eq rfl
  · cases he
    exact keepsFlags_of_eq (writePipe_fds _ _)
  · cases he
    exact keepsFlags_of_eq rfl
  · exact keepsFlags_writeFile (by rfl) he
  · exact keepsFlags_writeFile rfl he

theorem keepsFlags_abiSeek (fd : ℤ) (offset : UInt64) : KeepsFlags sys (abiSeek sys fd offset).1 := by
  rw [abiSeek]
  split
  · exact keepsFlags_of_eq rfl
  dsimp only
  split_ifs
  iterate 2 exact keepsFlags_of_eq rfl
  exact keepsFlags_update rfl fun _ _ => rfl

theorem keepsFlags_abiClose (fd : ℤ) : KeepsFlags sys (abiClose sys fd).1 := by
  rcases @abiClose_tables sys fd with he | ⟨d, -, -, he⟩
  · rw [he]
    exact keepsFlags_of_eq rfl
  · rw [he]
    exact keepsFlags_update (by rw [Sys.setFd, closePipe_fds]) fun _ hc => by cases hc

theorem keepsFlags_abiPipe : KeepsFlags sys (abiPipe sys).1 := by
  rcases @abiPipe_tables sys with ⟨code, he⟩ | ⟨i, r, w, -, hr, hw, he⟩
  · rw [he]
    exact keepsFlags_of_eq rfl
  · rw [he]
    intro d ho ho'
    have hdr : d ≠ r := by
      rintro rfl
      rw [(freeFd_eq_some hr).2] at ho
      cases ho
    have hdw : d ≠ w := by
      rintro rfl
      rw [(freeFdAfter_eq_some hw).2.2] at ho
      cases ho
    simp only [Sys.setFd, Sys.setPipe, Function.update_of_ne hdw, Function.update_of_ne hdr]

/-- **A call keeps the flags of the slots that stay open.** -/
theorem keepsFlags_ioStep {a : IoAct} (h : ioStep io a = some io') : KeepsFlags io.sys io'.sys := by
  cases a with
  | «open» p cwd path flags t =>
    cases h
    exact keepsFlags_abiOpen
  | pipe p =>
    cases h
    exact keepsFlags_abiPipe
  | read p fd n line =>
    cases h
    rw [readFd]
    split_ifs
    iterate 2 exact keepsFlags_of_eq rfl
    exact keepsFlags_abiRead _ _
  | write p fd data t =>
    obtain ⟨r, hr, rfl⟩ := Option.map_eq_some_iff.mp h
    rw [writeFd] at hr
    split_ifs at hr
    iterate 2
      cases hr
      exact keepsFlags_of_eq rfl
    obtain ⟨q, hq, rfl⟩ := Option.map_eq_some_iff.mp hr
    exact keepsFlags_abiWriteFd hq
  | seek p fd offset =>
    cases h
    exact keepsFlags_abiSeek _ _
  | dup2 p oldFd newFd =>
    cases h
    rw [dup2]
    split_ifs <;> exact keepsFlags_of_eq rfl
  | close p fd =>
    cases h
    rw [closeFd]
    split_ifs
    · exact keepsFlags_of_eq rfl
    · exact keepsFlags_abiClose fd
  | spawn p child =>
    cases h
    exact keepsFlags_of_eq rfl
  | exit p =>
    cases h
    exact keepsFlags_of_eq rfl
  | fault readOk writeOk =>
    cases h
    exact keepsFlags_of_eq rfl

/-! ## Write ends -/

def WriteEnds (sys : Sys) : Prop := ∀ i d, EndAt sys .pipeWrite i d → (sys.fds d).flags = fdWrite

theorem writeEnds_boot (h : IoBoot io) : WriteEnds io.sys := by
  intro i d hd
  exact absurd hd (not_endAt rfl (.inl (by rw [h.fds]; rfl)))

/-- **A write end can be written.** -/
theorem WriteEnds.step (h : WriteEnds sys) (hk : KeepsFlags sys sys')
    (he : TableEffect sys sys' g g') : WriteEnds sys' := by
  have hold : ∀ {i d}, EndAt sys .pipeWrite i d → EndAt sys' .pipeWrite i d →
      (sys'.fds d).flags = fdWrite := fun hd hd' => (hk _ hd.isOpen hd'.isOpen).trans (h _ _ hd)
  intro i d hd
  cases he with
  | same hs => exact hold ((endAt_iff (hs.fds d)).mp hd) hd
  | @opens e fd hfree hkind hf =>
    by_cases hde : d = e
    · subst hde
      exact absurd hd (not_endAt rfl (.inr (by rwa [hf, Function.update_self])))
    · exact hold ((endAt_update hf hde).mp hd) hd
  | @pipe j r w hj hr hw hs =>
    subst hs
    obtain ⟨hrw, hwlt, hwo⟩ := freeFdAfter_eq_some hw
    obtain ⟨hrlt, hro⟩ := freeFd_eq_some hr
    rcases (endAt_pipe hrlt hwlt hrw.ne rfl hro hwo rfl).mp hd with ⟨-, ⟨-, hc⟩ | ⟨rfl, -⟩⟩ | hd'
    · cases hc
    · simp only [Sys.setFd, Function.update_self]
      rfl
    · exact hold hd' hd
  | @closes e _ _ hs =>
    have hf : sys'.fds = Function.update sys.fds e .empty := by rw [hs, Sys.setFd, closePipe_fds]
    by_cases hde : d = e
    · subst hde
      exact absurd hd (not_endAt rfl (.inl (by rw [hf, Function.update_self]; rfl)))
    · exact hold ((endAt_update hf hde).mp hd) hd
  | takes _ hr => exact hold ((endAt_congr (readPipe_done hr).1).mp hd) hd
  | puts _ hw => exact hold ((endAt_congr (writePipe_done hw).1).mp hd) hd

/-! ## Room -/

/-- The bytes written to a pipe and not read yet. -/
def outstanding (g : PipeLedger) (i : ℕ) : ℕ := (g.accepted i).length - (g.delivered i).length

/-- The reply of a buffer with all but `unread` bytes free to a write of `n` bytes. -/
def roomReply (unread n : ℕ) : Reply ℕ :=
  if unread = appPipeBufferSize then .refused else .done (min n (appPipeBufferSize - unread))

/-- A write to pipe `i` takes what there is room for besides the unread bytes. -/
def TakesRoom (x : Io × PipeLedger) (process i : ℕ) (fd : ℤ) (data : List UInt8) (t : ℕ → ℕ) :
    Prop :=
  (writeFd x.1 process fd data t).map Prod.snd =
    some (roomReply (outstanding x.2 i) data.length)

theorem writeEnds_of_reach {x : Io × PipeLedger}
    (h : Reach PipeBoot (fun _ _ => True) pipeStep x) : WriteEnds x.1.sys := by
  refine h.inv (I := fun x => WriteEnds x.1.sys) (fun x hb => writeEnds_boot hb.1)
    fun x a y hx _ hs => ?_
  obtain ⟨hs, -⟩ := record_eq_some.mp hs
  exact hx.step (keepsFlags_ioStep hs) (ioStep_effect (g := x.2) hs)

/-- The unread bytes lie between the two offsets. -/
theorem QueueOk.outstanding (h : QueueOk sys g) {i : ℕ} (hu : (sys.pipes i).used = true) :
    Rymos.outstanding g i = (sys.pipes i).len - (sys.pipes i).readOffset := by
  have hflow := congrArg List.length (h.flow i hu)
  rw [List.length_append, AppPipe.queue, Buf.length_window] at hflow
  rw [Rymos.outstanding]
  omega

theorem pipeOf_eq_some {process i : ℕ} {kind : AppFdKind} {fd : ℤ}
    (h : pipeOf io process kind fd = some i) :
    ∃ d, appFdIndex (appResolveFd (io.stdFds process) fd) = some d ∧ EndAt io.sys kind i d := by
  obtain ⟨d, hd, hi⟩ := Option.bind_eq_some_iff.mp h
  split_ifs at hi with hc
  cases hi
  exact ⟨d, hd, appFdIndex_lt hd, hc.1, hc.2, rfl⟩

theorem appFdBase_le {fd : ℤ} {d : ℕ} (h : appFdIndex fd = some d) : 3 ≤ fd := by
  by_contra hc
  rw [appFdIndex, if_pos (not_le.mp hc)] at h
  cases h

/-- The reply to a write to a pipe with both ends open. -/
theorem EndsOk.writeFd_reply (h : EndsOk io.sys) (hwrites : WriteEnds io.sys) {process i : ℕ} {fd : ℤ}
    (hw : pipeOf io process .pipeWrite fd = some i) (hr : (io.sys.pipes i).readOpen = true)
    (data : List UInt8) (t : ℕ → ℕ) :
    (writeFd io process fd data t).map Prod.snd =
      some (if min data.length (appPipeBufferSize - (io.sys.pipes i).len) = 0 ∧ data.length ≠ 0
        then .refused else .done (min data.length (appPipeBufferSize - (io.sys.pipes i).len))) := by
  obtain ⟨d, hd, hend⟩ := pipeOf_eq_some hw
  have hge := appFdBase_le hd
  have hout : ¬ (appResolveFd (io.stdFds process) fd = stdoutFd ∨
      appResolveFd (io.stdFds process) fd = stderrFd) := by
    simp only [stdoutFd, stderrFd]
    omega
  have hopen := (h.opened rfl (h.index rfl hend)).mpr ⟨d, hend⟩
  have hused := (h.used (h.index rfl hend)).mpr (.inl hr)
  have hflag : hasFlag (io.sys.fds d).flags fdWrite = true := by
    rw [hwrites _ _ hend]
    decide
  rw [writeFd, if_neg (by omega), if_neg hout, abiWriteFd, hd]
  dsimp only
  rw [if_neg (by simp [hend.isOpen, hflag]), if_pos hend.kind_eq, writePipe, hend.index]
  dsimp only
  rw [if_neg (by simp [hused, hr]; exact hopen)]
  by_cases hfull : min data.length (appPipeBufferSize - (io.sys.pipes i).len) = 0 ∧ data.length ≠ 0
  · rw [if_pos (by simpa using hfull), if_pos hfull]
    rfl
  · rw [if_neg (by simpa using hfull), if_neg hfull]
    rfl

/-- **A write takes what there is room for** just if nothing was read since the pipe was empty, or the
bytes fit behind the last one. -/
theorem takesRoom_iff {x : Io × PipeLedger} (h : Reach PipeBoot (fun _ _ => True) pipeStep x)
    {process i : ℕ} {fd : ℤ} (hw : pipeOf x.1 process .pipeWrite fd = some i)
    (hr : (x.1.sys.pipes i).readOpen = true) {data : List UInt8} (hn : data ≠ []) (t : ℕ → ℕ) :
    TakesRoom x process i fd data t ↔ (x.1.sys.pipes i).readOffset = 0 ∨
      (x.1.sys.pipes i).len + data.length ≤ appPipeBufferSize := by
  obtain ⟨hends, hqueue⟩ := endsQueueOk_of_reach h
  obtain ⟨d, -, hend⟩ := pipeOf_eq_some hw
  have hused := (hends.used (hends.index rfl hend)).mpr (.inl hr)
  obtain ⟨hoff, hlen⟩ := hqueue.offsets i
  have hpos : 0 < data.length := List.length_pos_of_ne_nil hn
  rw [TakesRoom, hends.writeFd_reply (writeEnds_of_reach h) hw hr, hqueue.outstanding hused,
    roomReply, Option.some_inj]
  split_ifs with h₁ h₂ h₂
  · exact iff_of_true rfl (by omega)
  · exact iff_of_false nofun (by omega)
  · exact iff_of_false nofun (by omega)
  · rw [Reply.done.injEq]
    omega

theorem takesRoom_iff_twoOfThreeRun :
    ∃ x, exec pipeStep (bootIo, .empty) twoOfThreeRun = some x ∧
      TakesRoom x 0 0 4 [4, 5] fun _ => 0 := by
  have hrun : (exec pipeStep (bootIo, .empty) twoOfThreeRun).map (fun x =>
      (pipeOf x.1 0 .pipeWrite 4, (x.1.sys.pipes 0).readOpen, (x.1.sys.pipes 0).len)) =
      some (some 0, true, 3) := by decide +kernel
  obtain ⟨x, hx, hv⟩ := Option.map_eq_some_iff.mp hrun
  simp only [Prod.mk.injEq] at hv
  obtain ⟨hw, hr, hlen⟩ := hv
  have hreach : Reach PipeBoot (fun _ _ => True) pipeStep x :=
    reach_of_exec (.start ⟨ioBoot_bootIo, rfl⟩) (allGood_true _ _) hx
  exact ⟨x, hx, (takesRoom_iff hreach hw hr (by decide) _).mpr (.inr (by rw [hlen]; decide))⟩

/-- A pipe filled, and one byte of it read. -/
def halfReadRun : List IoAct :=
  [.pipe 0, .write 0 4 (List.replicate 8192 0) fun _ => 0, .read 0 3 1 []]

/-- **A byte more is refused.** -/
theorem not_takesRoom_halfReadRun :
    ¬ ∀ x, Reach PipeBoot (fun _ _ => True) pipeStep x → ∀ process i fd,
      pipeOf x.1 process .pipeWrite fd = some i → (x.1.sys.pipes i).readOpen = true →
        ∀ data ≠ [], ∀ t, TakesRoom x process i fd data t := by
  intro hall
  have hrun : (exec pipeStep (bootIo, .empty) halfReadRun).map (fun x =>
      (pipeOf x.1 0 .pipeWrite 4, (x.1.sys.pipes 0).readOpen, outstanding x.2 0,
        (writeFd x.1 0 4 [7] fun _ => 0).map Prod.snd)) =
      some (some 0, true, 8191, some .refused) := by decide +kernel
  obtain ⟨x, hx, hv⟩ := Option.map_eq_some_iff.mp hrun
  simp only [Prod.mk.injEq] at hv
  obtain ⟨hw, hr, hout, hreply⟩ := hv
  have h := hall x (reach_of_exec (.start ⟨ioBoot_bootIo, rfl⟩) (allGood_true _ _) hx) 0 0 4 hw hr
    [7] (by decide) fun _ => 0
  rw [TakesRoom, hreply, hout] at h
  exact absurd h (by decide)

end Rymos
