import NetLab.Lib.Run
import NetLab.Lib.Scan
import NetLab.Transfer.CirQueue

/-! The circular queue as a FIFO: what the indices and the array stand for after any sequence of
calls that the queue has room or an element for. -/
namespace NetLab.Transfer
open NetLab.Lib

inductive QueueOp where
  | en (input : Data)
  | de
  deriving DecidableEq, Repr

/-- A FIFO of capacity `n - 1`: the calls that are allowed, and what they leave. -/
def fifoStep (n : ℕ) (l : List Data) : QueueOp → Option (List Data)
  | .en input => if l.length + 1 < n then some (l ++ [input]) else none
  | .de => match l with
    | [] => none
    | _ :: l => some l

def CirQueue.apply (Q : CirQueue) : QueueOp → CirQueue
  | .en input => enCirQueue Q input
  | .de => deCirQueue Q

/-- `Q->rear-Q->front` in `CirQueueLength`. -/
def CirQueue.difference (Q : CirQueue) : ℤ := (Q.rear : ℤ) - Q.front

/-- The dividend of `%` in `CirQueueLength`. -/
def CirQueue.dividend (Q : CirQueue) : ℤ := Q.difference + Q.maxQsize

/-- The queue of size `n` holds these elements. -/
structure Holds (n : ℕ) (Q : CirQueue) (l : List Data) : Prop where
  size : Q.maxQsize = n
  spans : Q.Spans l.length
  base : ∀ i (hi : i < l.length), Q.base (Q.slot i) = l[i]

/-- What can be observed of a queue of size `n` that stands for the FIFO `l`. -/
structure Simulates (n : ℕ) (Q : CirQueue) (l : List Data) : Prop where
  contents : (List.range (cirQueueLength Q).toNat).map (fun i => Q.base ((Q.front + i) % n)) = l
  front : Q.front < n
  rear : Q.rear < n
  length : cirQueueLength Q = l.length
  isEmpty : isEmptyCirQueue Q = true ↔ l = []
  remainder : cirQueueLength Q = Q.dividend.tmod n
  dividend : 0 ≤ Q.dividend
  /-- The difference of the indices is negative while the elements wrap around the end. -/
  difference : Q.difference < 0 ↔ n ≤ Q.front + l.length
  ints : n ≤ 1073741824 → IsInt Q.difference ∧ IsInt Q.dividend ∧ IsInt (Q.rear + 1) ∧
    IsInt (Q.front + 1)

theorem holds_init (memory : ℕ → Data) {n : ℕ} (hn : 1 ≤ n) :
    Holds n (initCirQueue memory n) [] := by
  constructor
  · rfl
  · constructor
    · exact hn
    · simp [initCirQueue, CirQueue.slot]
    · exact hn
  · exact fun i hi => absurd hi (Nat.not_lt_zero i)

theorem Holds.en {n : ℕ} {Q : CirQueue} {l : List Data} (h : Holds n Q l)
    (hroom : l.length + 1 < n) (input : Data) : Holds n (enCirQueue Q input) (l ++ [input]) := by
  have hroom' : l.length + 1 < Q.maxQsize := by rwa [h.size]
  constructor
  · exact h.size
  · rw [List.length_append]
    exact h.spans.en hroom' input
  · intro i hi
    have hslot : (enCirQueue Q input).slot i = Q.slot i := rfl
    rw [hslot]
    rw [List.length_append, List.length_singleton] at hi
    rcases Nat.lt_succ_iff_lt_or_eq.mp hi with hlt | rfl
    · rw [h.spans.en_base input hlt, h.base i hlt, List.getElem_append_left hlt]
    · rw [h.spans.en_last input, List.getElem_concat_length rfl]

theorem Holds.de {n : ℕ} {Q : CirQueue} {x : Data} {l : List Data} (h : Holds n Q (x :: l)) :
    Holds n (deCirQueue Q) l := by
  constructor
  · exact h.size
  · exact CirQueue.Spans.de h.spans
  · intro i hi
    have hbase := h.base (i + 1) (Nat.succ_lt_succ hi)
    rw [deCirQueue_slot]
    exact hbase

theorem Holds.apply {n : ℕ} {Q : CirQueue} {l l' : List Data} {op : QueueOp} (h : Holds n Q l)
    (hs : fifoStep n l op = some l') : Holds n (Q.apply op) l' := by
  cases op with
  | en input =>
    obtain ⟨hroom, hs⟩ := Option.ite_none_right_eq_some.mp hs
    cases hs
    exact h.en hroom input
  | de =>
    cases l with
    | nil => cases hs
    | cons x l =>
      cases hs
      exact h.de

theorem Holds.simulates {n : ℕ} {Q : CirQueue} {l : List Data} (h : Holds n Q l) :
    Simulates n Q l := by
  have hsize := h.size
  have hlength := h.spans.length
  obtain ⟨hfront, hrear, hroom⟩ := h.spans
  have hrear' : Q.rear < Q.maxQsize := by
    rw [hrear]
    exact Nat.mod_lt _ (Nat.zero_lt_of_lt hfront)
  have hwrap : Q.rear < Q.front ↔ Q.maxQsize ≤ Q.front + l.length := by
    rw [hrear, CirQueue.slot]
    by_cases hw : Q.front + l.length < Q.maxQsize
    · rw [Nat.mod_eq_of_lt hw]
      omega
    · rw [Nat.mod_eq_sub_mod (Nat.le_of_not_lt hw), Nat.mod_eq_of_lt (by omega)]
      omega
  have hdifference : Q.difference < 0 ↔ Q.rear < Q.front := by
    unfold CirQueue.difference
    omega
  rw [hsize] at hfront hrear' hwrap
  constructor
  case contents =>
    rw [hlength, Int.toNat_natCast]
    apply List.ext_getElem
    · simp
    · intro i _ hi
      rw [List.getElem_map, List.getElem_range, ← h.base i hi, CirQueue.slot, hsize]
  case front =>
    exact hfront
  case rear =>
    exact hrear'
  case length =>
    exact hlength
  case isEmpty =>
    rw [h.spans.isEmpty, List.length_eq_zero_iff]
  case remainder =>
    rw [← hsize]
    rfl
  case dividend =>
    unfold CirQueue.dividend CirQueue.difference
    omega
  case difference =>
    rw [hdifference, hwrap]
  case ints =>
    intro hn
    unfold CirQueue.dividend CirQueue.difference IsInt
    omega

/-- The queue of size `n` simulates a FIFO of capacity `n - 1`. -/
theorem ring_buffer_fifo (memory : ℕ → Data) {n : ℕ} (hn : 1 ≤ n) {ops : List QueueOp}
    {l : List Data} (hr : Run (fifoStep n) (fun _ _ => True) [] ops l) :
    Simulates n (ops.foldl CirQueue.apply (initCirQueue memory n)) l := by
  have hholds : Holds n (ops.foldl CirQueue.apply (initCirQueue memory n)) l :=
    hr.simulate CirQueue.apply (fun l Q => Holds n Q l) (fun _ _ _ _ hQ _ hs => hQ.apply hs)
      (holds_init memory hn)
  exact hholds.simulates

def noData : Data := ⟨0, 0, [], 0⟩

def oneData : Data := ⟨1, 0, [97], 0⟩

/-- Two elements pass through a queue of size 3, and a third one is left at its end. -/
def wrapping : List QueueOp := [.en oneData, .en oneData, .de, .de, .en oneData]

theorem run_wrapping : Run (fifoStep 3) (fun _ _ => True) [] wrapping [oneData] :=
  .of_runnable (by decide) [oneData]

theorem ring_buffer_fifo_wrapping :
    Simulates 3 (wrapping.foldl CirQueue.apply (initCirQueue (fun _ => noData) 3)) [oneData] :=
  ring_buffer_fifo (fun _ => noData) (by decide) run_wrapping

/-- The difference of the indices is negative on the way to the length 1; and a queue of the
greatest size has a dividend above the range of `int`. -/
theorem length_difference_negative :
    Run (fifoStep 3) (fun _ _ => True) [] wrapping [oneData] ∧
      (wrapping.foldl CirQueue.apply (initCirQueue (fun _ => noData) 3)).difference = -2 ∧
      ¬ IsInt ([QueueOp.en oneData].foldl CirQueue.apply
        (initCirQueue (fun _ => noData) 2147483647)).dividend := by
  refine ⟨run_wrapping, ?_, ?_⟩
  · decide
  · unfold IsInt
    decide

end NetLab.Transfer
