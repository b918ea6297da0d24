import Mathlib.Data.Nat.Notation
import Mathlib.Tactic.Common

/-! Descriptor tables, where a new descriptor has the lowest free number. -/
namespace NetLab.Lib

/-- What each number refers to, as far as the table goes. -/
abbrev FdTable (δ : Type*) := List (Option δ)

section
variable {δ : Type*}

def FdTable.file (t : FdTable δ) (fd : ℕ) : Option δ := t[fd]?.join

def FdTable.lowest (t : FdTable δ) : ℕ := t.findIdx Option.isNone

def FdTable.add (t : FdTable δ) (x : δ) : FdTable δ :=
  if t.lowest < t.length then t.set t.lowest (some x) else t ++ [some x]

def FdTable.close (t : FdTable δ) (fd : ℕ) : FdTable δ := t.set fd none

@[simp] theorem FdTable.file_nil (fd : ℕ) : FdTable.file ([] : FdTable δ) fd = none := by
  simp [FdTable.file]

theorem FdTable.mem_iff {t : FdTable δ} {x : δ} : some x ∈ t ↔ ∃ fd, t.file fd = some x := by
  simp only [FdTable.file, Option.join_eq_some_iff, List.mem_iff_getElem?]

theorem FdTable.file_lowest (t : FdTable δ) : t.file t.lowest = none := by
  unfold FdTable.file FdTable.lowest
  by_cases hlt : t.findIdx Option.isNone < t.length
  · have hnone := List.findIdx_getElem (w := hlt)
    rw [List.getElem?_eq_getElem hlt, Option.isNone_iff_eq_none.mp hnone]
    rfl
  · rw [List.getElem?_eq_none (Nat.le_of_not_lt hlt)]
    rfl

theorem FdTable.file_add (t : FdTable δ) (x : δ) (fd : ℕ) :
    (t.add x).file fd = if fd = t.lowest then some x else t.file fd := by
  unfold FdTable.add FdTable.file
  split_ifs with hlt hfd hfd
  · rw [hfd, List.getElem?_set_self hlt]
    rfl
  · rw [List.getElem?_set_ne (Ne.symm hfd)]
  · have hlen : t.lowest = t.length := Nat.le_antisymm List.findIdx_le_length (Nat.le_of_not_lt hlt)
    rw [hfd, hlen, List.getElem?_concat_length]
    rfl
  · have hlen : t.lowest = t.length := Nat.le_antisymm List.findIdx_le_length (Nat.le_of_not_lt hlt)
    rcases Nat.lt_or_gt_of_ne (hlen ▸ hfd) with hlt | hgt
    · rw [List.getElem?_append_left hlt]
    · rw [List.getElem?_eq_none (by simpa using Nat.succ_le_of_lt hgt), List.getElem?_eq_none (Nat.le_of_lt hgt)]

/-- A descriptor that is open stays as it is. -/
theorem FdTable.file_add_of_file {t : FdTable δ} {fd : ℕ} {x : δ} (h : t.file fd = some x) (y : δ) :
    (t.add y).file fd = some x := by
  rw [file_add, if_neg, h]
  rintro rfl
  rw [file_lowest] at h
  cases h

theorem FdTable.file_close (t : FdTable δ) (fd fd' : ℕ) :
    (t.close fd).file fd' = if fd' = fd then none else t.file fd' := by
  unfold FdTable.close FdTable.file
  split_ifs with hfd
  · subst hfd
    rw [List.getElem?_set_self']
    cases t[fd']? <;> rfl
  · rw [List.getElem?_set_ne (Ne.symm hfd)]

end

end NetLab.Lib
