import Mathlib.Data.Int.ModEq
import Mathlib.Data.Nat.ModEq
import Mathlib.Logic.Function.Basic

/-! The circular queue of unacknowledged datagrams. The memory at `base` is read as an array
of `struct data` without end: only the first `MAX_QSIZE` entries belong to the queue, and no
entry is defined before `EnCirQueue` writes it. -/
namespace NetLab.Transfer

structure Data where
  seq : ℕ
  ts : ℕ
  sendline : List UInt8
  ack : ℤ
  deriving DecidableEq, Repr

structure CirQueue where
  base : ℕ → Data
  front : ℕ
  rear : ℕ
  maxQsize : ℕ

/-- `malloc` leaves the memory as it is. -/
def initCirQueue (memory : ℕ → Data) (size : ℕ) : CirQueue := ⟨memory, 0, 0, size⟩

def isEmptyCirQueue (Q : CirQueue) : Bool := Q.front == Q.rear

def cirQueueLength (Q : CirQueue) : ℤ :=
  ((Q.rear : ℤ) - Q.front + Q.maxQsize).tmod Q.maxQsize

def enCirQueue (Q : CirQueue) (input : Data) : CirQueue :=
  { Q with base := Function.update Q.base Q.rear input, rear := (Q.rear + 1) % Q.maxQsize }

def deCirQueue (Q : CirQueue) : CirQueue := { Q with front := (Q.front + 1) % Q.maxQsize }

/-- The ring position `i` places behind `front`. -/
def CirQueue.slot (Q : CirQueue) (i : ℕ) : ℕ := (Q.front + i) % Q.maxQsize

/-- Both indices are in the array and `u` entries lie between them. -/
structure CirQueue.Spans (Q : CirQueue) (u : ℕ) : Prop where
  front : Q.front < Q.maxQsize
  rear : Q.rear = Q.slot u
  room : u < Q.maxQsize

theorem slot_inj {Q : CirQueue} {i j : ℕ} (hi : i < Q.maxQsize) (hj : j < Q.maxQsize)
    (h : Q.slot i = Q.slot j) : i = j :=
  Nat.ModEq.eq_of_lt_of_lt (Nat.ModEq.add_left_cancel' Q.front h) hi hj

theorem cirQueueLength_lt (Q : CirQueue) (h : 0 < Q.maxQsize) :
    cirQueueLength Q < Q.maxQsize := by
  unfold cirQueueLength
  exact Int.tmod_lt_of_pos _ (by omega)

theorem CirQueue.Spans.length {Q : CirQueue} {u : ℕ} (h : Q.Spans u) :
    cirQueueLength Q = u := by
  obtain ⟨hf, hr, hu⟩ := h
  unfold cirQueueLength
  unfold slot at hr
  by_cases hw : Q.front + u < Q.maxQsize
  · rw [hr, Nat.mod_eq_of_lt hw, Int.tmod_eq_emod_of_nonneg (by omega)]
    rw [show ((Q.front + u : ℕ) : ℤ) - Q.front + Q.maxQsize = u + Q.maxQsize by omega,
      Int.add_emod_right]
    exact Int.emod_eq_of_lt (by omega) (by omega)
  · have hmod : (Q.front + u) % Q.maxQsize = Q.front + u - Q.maxQsize := by
      rw [Nat.mod_eq_sub_mod (by omega), Nat.mod_eq_of_lt (by omega)]
    rw [hr, hmod, Int.tmod_eq_emod_of_nonneg (by omega)]
    exact (Int.emod_eq_of_lt (by omega) (by omega)).trans (by omega)

theorem CirQueue.Spans.isEmpty {Q : CirQueue} {u : ℕ} (h : Q.Spans u) :
    isEmptyCirQueue Q = true ↔ u = 0 := by
  obtain ⟨hf, hr, hu⟩ := h
  simp only [isEmptyCirQueue, beq_iff_eq]
  constructor
  · intro he
    refine slot_inj hu (by omega) ?_
    rw [← hr, ← he]
    simp [slot, Nat.mod_eq_of_lt hf]
  · rintro rfl
    rw [hr]
    simp [slot, Nat.mod_eq_of_lt hf]

theorem CirQueue.Spans.en {Q : CirQueue} {u : ℕ} (h : Q.Spans u) (hroom : u + 1 < Q.maxQsize)
    (d : Data) : (enCirQueue Q d).Spans (u + 1) where
  front := h.front
  rear := by
    have hr := h.rear
    simp only [enCirQueue, slot] at hr ⊢
    rw [hr, Nat.mod_add_mod]
    rfl
  room := hroom

/-- A new entry does not touch the ones behind `front`. -/
theorem CirQueue.Spans.en_base {Q : CirQueue} {u : ℕ} (h : Q.Spans u) (d : Data) {i : ℕ}
    (hi : i < u) : (enCirQueue Q d).base (Q.slot i) = Q.base (Q.slot i) := by
  have hu := h.room
  have hne : Q.slot i ≠ Q.rear := by
    rw [h.rear]
    intro he
    have := slot_inj (by omega) hu he
    omega
  simp [enCirQueue, hne]

theorem CirQueue.Spans.en_last {Q : CirQueue} {u : ℕ} (h : Q.Spans u) (d : Data) :
    (enCirQueue Q d).base (Q.slot u) = d := by
  rw [← h.rear]
  simp [enCirQueue]

theorem deCirQueue_slot (Q : CirQueue) (i : ℕ) : (deCirQueue Q).slot i = Q.slot (i + 1) := by
  simp only [deCirQueue, CirQueue.slot, Nat.mod_add_mod]
  congr 1
  omega

theorem CirQueue.Spans.de {Q : CirQueue} {u : ℕ} (h : Q.Spans (u + 1)) :
    (deCirQueue Q).Spans u where
  front := Nat.mod_lt _ (by have := h.front; omega)
  rear := by rw [deCirQueue_slot]; exact h.rear
  room := by
    have := h.room
    simp only [deCirQueue]
    omega

/-- `k` rounds of the loop that discards acknowledged entries. -/
theorem deCirQueue_iterate (Q : CirQueue) (k : ℕ) :
    (deCirQueue^[k] Q).base = Q.base ∧ (deCirQueue^[k] Q).rear = Q.rear ∧
      (deCirQueue^[k] Q).maxQsize = Q.maxQsize ∧ (∀ i, (deCirQueue^[k] Q).slot i = Q.slot (k + i)) ∧
      ∀ u, Q.Spans (k + u) → (deCirQueue^[k] Q).Spans u := by
  induction k generalizing Q with
  | zero => exact ⟨rfl, rfl, rfl, fun i => by simp, fun u h => by simpa using h⟩
  | succ k ih =>
    obtain ⟨hb, hr, hm, hs, hu⟩ := ih (deCirQueue Q)
    rw [Function.iterate_succ_apply]
    refine ⟨hb, hr, hm, ?_, ?_⟩
    · intro i
      rw [hs, deCirQueue_slot]
      congr 1
      omega
    · intro u h
      refine hu u (CirQueue.Spans.de ?_)
      rwa [show k + u + 1 = k + 1 + u by omega]

/-- Discarding moves `front` on, even past `rear`. -/
theorem deCirQueue_iterate_front {Q : CirQueue} (hf : Q.front % Q.maxQsize = Q.front) (k : ℕ) :
    (deCirQueue^[k] Q).front = Q.slot k := by
  induction k with
  | zero => exact hf.symm
  | succ k ih =>
    rw [Function.iterate_succ_apply', deCirQueue, ih, (deCirQueue_iterate Q k).2.2.1]
    simp only [CirQueue.slot, Nat.mod_add_mod, Nat.add_assoc]

end NetLab.Transfer
