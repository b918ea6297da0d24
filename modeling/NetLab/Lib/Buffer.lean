import Mathlib.Data.List.Basic
import Mathlib.Data.Nat.Notation

/-! `memcpy` out of a buffer and into one, and buffers made of rows of one length. -/
namespace NetLab.Lib

section
variable {α : Type*}

/-- `len` elements from `pos` on, none where the buffer does not hold them. -/
def slice (xs : List α) (pos len : ℕ) : Option (List α) :=
  if pos + len ≤ xs.length then some ((xs.drop pos).take len) else none

/-- The buffer with `ys` written at `pos`. -/
def blit (xs : List α) (pos : ℕ) (ys : List α) : List α :=
  xs.take pos ++ ys ++ xs.drop (pos + ys.length)

theorem slice_append {pre mid post : List α} {pos len : ℕ} (hpos : pre.length = pos)
    (hlen : mid.length = len) : slice (pre ++ (mid ++ post)) pos len = some mid := by
  subst hpos hlen
  simp [slice]

theorem blit_append {pre old new post : List α} {pos : ℕ} (hpos : pre.length = pos)
    (hlen : old.length = new.length) :
    blit (pre ++ (old ++ post)) pos new = pre ++ (new ++ post) := by
  subst hpos
  have hdrop : (pre ++ (old ++ post)).drop (pre.length + new.length) = post := by
    rw [← hlen, ← List.append_assoc, ← List.length_append, List.drop_left]
  simp only [blit, List.take_left, hdrop, List.append_assoc]

theorem slice_flatten {rows : List (List α)} {len i : ℕ} (hrows : ∀ r ∈ rows, r.length = len)
    (hi : i < rows.length) (pre : List α) :
    slice (pre ++ rows.flatten) (pre.length + len * i) len = some rows[i] := by
  have hlen : rows[i].length = len := hrows _ (List.getElem_mem hi)
  have hbefore : (rows.take i).flatten.length = len * i := by
    have hconst : ∀ r ∈ rows.take i, r.length = len := fun r hr => hrows r (List.mem_of_mem_take hr)
    rw [List.length_flatten, List.map_congr_left hconst, List.map_const', List.sum_replicate_nat,
      List.length_take, Nat.min_eq_left (Nat.le_of_lt hi)]
    exact Nat.mul_comm i len
  have hsplit : rows.flatten = (rows.take i).flatten ++ (rows[i] ++ (rows.drop (i + 1)).flatten) := by
    conv_lhs => rw [← List.take_append_drop i rows, List.drop_eq_getElem_cons hi]
    rw [List.flatten_append, List.flatten_cons]
  rw [hsplit, ← List.append_assoc]
  exact slice_append (by rw [List.length_append, hbefore]) hlen

end

end NetLab.Lib
