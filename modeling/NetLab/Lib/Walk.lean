import Mathlib.Order.Bounds.Basic
import Mathlib.Order.Lattice.Nat

/-! Walks of an exact length along a relation, and the walks that avoid a point. -/
namespace NetLab.Lib

/-- `Walk r k a b`: `b` is reached from `a` by exactly `k` steps of `r`. -/
inductive Walk {α : Type*} (r : α → α → Prop) : ℕ → α → α → Prop
  | nil (a : α) : Walk r 0 a a
  | cons {k : ℕ} {a b c : α} (h : r a b) (w : Walk r k b c) : Walk r (k + 1) a c

/-- The steps of `r` that neither leave nor enter `d`. -/
def Avoiding {α : Type*} (r : α → α → Prop) (d : α) (a b : α) : Prop :=
  r a b ∧ a ≠ d ∧ b ≠ d

/-- `k` is the length of a shortest walk from `a` to `b`. -/
def Shortest {α : Type*} (r : α → α → Prop) (a b : α) (k : ℕ) : Prop :=
  IsLeast {k | Walk r k a b} k

theorem Walk.single {α : Type*} {r : α → α → Prop} {a b : α} (h : r a b) : Walk r 1 a b :=
  .cons h (.nil b)

theorem Walk.trans {α : Type*} {r : α → α → Prop} {k l : ℕ} {a b c : α}
    (w : Walk r k a b) (w' : Walk r l b c) : Walk r (k + l) a c := by
  induction w with
  | nil a => simpa using w'
  | @cons k a b c h w ih =>
    have h' := Walk.cons h (ih w')
    rwa [show k + l + 1 = k + 1 + l by omega] at h'

theorem Walk.snoc {α : Type*} {r : α → α → Prop} {k : ℕ} {a b c : α}
    (w : Walk r k a b) (h : r b c) : Walk r (k + 1) a c := w.trans (.single h)

theorem Walk.mono {α : Type*} {r r' : α → α → Prop} (hr : ∀ a b, r a b → r' a b)
    {k : ℕ} {a b : α} (w : Walk r k a b) : Walk r' k a b := by
  induction w with
  | nil a => exact .nil a
  | cons h _ ih => exact .cons (hr _ _ h) ih

theorem Walk.of_avoiding {α : Type*} {r : α → α → Prop} {d : α} {k : ℕ} {a b : α}
    (w : Walk (Avoiding r d) k a b) : Walk r k a b := w.mono fun _ _ h => h.1

theorem Walk.first_visit {α : Type*} {r : α → α → Prop} {d : α} {k : ℕ} {a : α}
    (w : Walk r k a d) (hne : a ≠ d) :
    ∃ j b, j + 1 ≤ k ∧ Walk (Avoiding r d) j a b ∧ b ≠ d ∧ r b d := by
  induction w with
  | nil a => exact absurd rfl hne
  | @cons k a b c h w ih =>
    by_cases hb : b = c
    · subst hb
      exact ⟨0, a, by omega, .nil a, hne, h⟩
    · obtain ⟨j, y, hj, hw, hy, hr⟩ := ih hb
      exact ⟨j + 1, y, by omega, .cons ⟨h, hne, hb⟩ hw, hy, hr⟩

end NetLab.Lib
