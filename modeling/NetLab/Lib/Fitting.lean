import Mathlib.Algebra.BigOperators.Group.List.Basic
import Mathlib.Algebra.Ring.Nat
import Mathlib.Data.List.Basic

/-! Records of different sizes in a buffer: a call that fills in as many as fit, and how its caller
can tell from two answers that none is missing. -/
namespace NetLab.Lib

section
variable {α : Type*} (size : α → ℕ)

/-- The length of the records in bytes. -/
def totalSize (xs : List α) : ℕ := (xs.map size).sum

/-- The first records, as many as fit into `len` bytes. -/
def fitting : ℕ → List α → List α
  | _, [] => []
  | len, x :: xs => if size x ≤ len then x :: fitting (len - size x) xs else []

@[simp] theorem totalSize_nil : totalSize size [] = 0 := rfl

@[simp] theorem totalSize_cons (x : α) (xs : List α) :
    totalSize size (x :: xs) = size x + totalSize size xs := by simp [totalSize]

theorem fitting_of_le {len : ℕ} {xs : List α} (h : totalSize size xs ≤ len) : fitting size len xs = xs := by
  induction xs generalizing len with
  | nil => rfl
  | cons x xs ih =>
    rw [totalSize_cons] at h
    rw [fitting, if_pos (by omega), ih (by omega)]

theorem totalSize_fitting_le (len : ℕ) (xs : List α) : totalSize size (fitting size len xs) ≤ len := by
  induction xs generalizing len with
  | nil => exact Nat.zero_le len
  | cons x xs ih =>
    unfold fitting
    split_ifs with hx
    · have hrest := ih (len - size x)
      rw [totalSize_cons]
      omega
    · exact Nat.zero_le len

theorem totalSize_fitting_le_totalSize (len : ℕ) (xs : List α) :
    totalSize size (fitting size len xs) ≤ totalSize size xs := by
  induction xs generalizing len with
  | nil => exact Nat.le_refl _
  | cons x xs ih =>
    unfold fitting
    split_ifs with hx
    · have hrest := ih (len - size x)
      rw [totalSize_cons, totalSize_cons]
      omega
    · exact Nat.zero_le _

variable {size} {more : ℕ}

theorem totalSize_fitting_lt {xs : List α} (hsize : ∀ x ∈ xs, 0 < size x ∧ size x ≤ more)
    {len len' : ℕ} (hlen : len + more ≤ len') (h : fitting size len xs ≠ xs) :
    totalSize size (fitting size len xs) < totalSize size (fitting size len' xs) := by
  induction xs generalizing len len' with
  | nil => exact absurd rfl h
  | cons x xs ih =>
    obtain ⟨hpos, hmore⟩ := hsize x List.mem_cons_self
    have hrest := fun y hy => hsize y (List.mem_cons_of_mem x hy)
    have htakes : fitting size len' (x :: xs) = x :: fitting size (len' - size x) xs := by
      rw [fitting, if_pos (by omega)]
    rw [htakes, totalSize_cons]
    by_cases hx : size x ≤ len
    · rw [fitting, if_pos hx] at h ⊢
      rw [totalSize_cons]
      have hne : fitting size (len - size x) xs ≠ xs := fun heq => h (by rw [heq])
      have hmore' : len - size x + more ≤ len' - size x := by omega
      have hlt := ih hrest hmore' hne
      omega
    · rw [fitting, if_neg hx, totalSize_nil]
      omega

theorem fitting_eq_of_totalSize_eq {xs : List α} (hsize : ∀ x ∈ xs, 0 < size x ∧ size x ≤ more)
    {len len' : ℕ} (hlen : len + more ≤ len')
    (h : totalSize size (fitting size len' xs) = totalSize size (fitting size len xs)) :
    fitting size len' xs = xs := by
  by_cases hwhole : fitting size len xs = xs
  · apply fitting_of_le
    have hle := totalSize_fitting_le size len xs
    rw [hwhole] at hle
    omega
  · exact absurd h (Nat.ne_of_gt (totalSize_fitting_lt hsize hlen hwhole))

end

end NetLab.Lib
