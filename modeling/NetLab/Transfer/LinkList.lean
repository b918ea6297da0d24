import Mathlib.Data.List.Pairwise
import Mathlib.Data.Nat.Notation
import Mathlib.Tactic.Common

/-! The sorted list of received datagrams. A list stands for the chain reached from `header`,
where every allocated node starts with a null link. -/
namespace NetLab.Transfer

structure LinkNode where
  seq : ℕ
  recvline : List UInt8
  deriving DecidableEq, Repr

/-- What `strcpy` copies of a buffer that ends with a NUL. -/
def cString (bs : List UInt8) : List UInt8 := bs.takeWhile (· != 0)

/-- `InsertLinkList`. The empty chain and the end of the chain are separate branches of the
source that link the same new node. -/
def insertLinkList (seq : ℕ) (recvline : List UInt8) : List LinkNode → List LinkNode
  | [] => [⟨seq, cString recvline⟩]
  | x :: xs =>
    if x.seq < seq then x :: insertLinkList seq recvline xs
    else if x.seq ≠ seq then ⟨seq, cString recvline⟩ :: x :: xs
    else x :: xs

/-- `DeleteSelectedNode`, which compares the number and the text. -/
def deleteSelectedNode (port : ℕ) (ipAddr : List UInt8) : List LinkNode → List LinkNode
  | [] => []
  | x :: xs =>
    if x.seq ≠ port ∨ x.recvline ≠ cString ipAddr then x :: deleteSelectedNode port ipAddr xs else xs

def duplicateNode (port : ℕ) (ipAddr : List UInt8) : List LinkNode → ℕ
  | [] => 0
  | x :: xs => if x.seq ≠ port ∨ x.recvline ≠ cString ipAddr then duplicateNode port ipAddr xs else 1

def linkListLength (l : List LinkNode) : ℕ := l.length

/-- `NextAck`: one more than the end of the run of sequence numbers that follows `start`. -/
def nextAck : List LinkNode → ℕ → ℕ
  | [], start => start + 1
  | x :: xs, start => if x.seq = start + 1 then nextAck xs x.seq else start + 1

def Ascending (l : List LinkNode) : Prop := l.Pairwise fun x y => x.seq < y.seq

theorem mem_insertLinkList {seq : ℕ} {line : List UInt8} {l : List LinkNode} (h : Ascending l)
    (y : LinkNode) : y ∈ insertLinkList seq line l ↔
      y ∈ l ∨ (y = ⟨seq, cString line⟩ ∧ ∀ x ∈ l, x.seq ≠ seq) := by
  induction l with
  | nil => simp [insertLinkList]
  | cons x xs ih =>
    obtain ⟨hx, hxs⟩ := List.pairwise_cons.mp h
    unfold insertLinkList
    split_ifs with hlt hne
    · rw [List.mem_cons, ih hxs]
      have hxne : x.seq ≠ seq := by omega
      simp [hxne, or_assoc]
    · have hall : ∀ z ∈ xs, z.seq ≠ seq := by
        intro z hz
        have := hx z hz
        omega
      simp only [List.mem_cons, forall_eq_or_imp]
      tauto
    · have heq : x.seq = seq := by simpa using hne
      simp [heq]

theorem insertLinkList_ascending {seq : ℕ} {line : List UInt8} {l : List LinkNode}
    (h : Ascending l) : Ascending (insertLinkList seq line l) := by
  induction l with
  | nil => simp [insertLinkList, Ascending]
  | cons x xs ih =>
    obtain ⟨hx, hxs⟩ := List.pairwise_cons.mp h
    unfold insertLinkList
    split_ifs with hlt hne
    · refine List.pairwise_cons.mpr ⟨?_, ih hxs⟩
      intro y hy
      rcases (mem_insertLinkList hxs y).mp hy with hy | ⟨rfl, _⟩
      · exact hx y hy
      · exact hlt
    · refine List.pairwise_cons.mpr ⟨?_, h⟩
      intro y hy
      rcases List.mem_cons.mp hy with rfl | hy
      · dsimp only
        omega
      · have := hx y hy
        dsimp only
        omega
    · exact h

theorem duplicateNode_eq_one {port : ℕ} {ipAddr : List UInt8} {l : List LinkNode} :
    duplicateNode port ipAddr l = 1 ↔ ⟨port, cString ipAddr⟩ ∈ l := by
  induction l with
  | nil => simp [duplicateNode]
  | cons x xs ih =>
    unfold duplicateNode
    split_ifs with hne
    · have hx : (⟨port, cString ipAddr⟩ : LinkNode) ≠ x := by
        rintro rfl
        simp at hne
      simp [ih, hx]
    · obtain ⟨hport, hip⟩ := not_or.mp hne
      have hx : x = ⟨port, cString ipAddr⟩ := by
        cases x
        simp_all
      simp [hx]

theorem duplicateNode_eq_zero {port : ℕ} {ipAddr : List UInt8} {l : List LinkNode} :
    duplicateNode port ipAddr l = 0 ↔ ⟨port, cString ipAddr⟩ ∉ l := by
  rw [← duplicateNode_eq_one]
  have hbool : duplicateNode port ipAddr l = 0 ∨ duplicateNode port ipAddr l = 1 := by
    induction l with
    | nil => exact .inl rfl
    | cons x xs ih =>
      unfold duplicateNode
      split_ifs
      · exact ih
      · exact .inr rfl
  omega

theorem lt_nextAck (l : List LinkNode) (start : ℕ) : start < nextAck l start := by
  induction l generalizing start with
  | nil => exact Nat.lt_succ_self start
  | cons x xs ih =>
    unfold nextAck
    split_ifs with heq
    · have hlt := ih x.seq
      omega
    · exact Nat.lt_succ_self start

/-- `NextAck` finds the first sequence number above `start` that the list does not hold. -/
theorem nextAck_spec {l : List LinkNode} {start : ℕ} (h : Ascending l)
    (hl : ∀ x ∈ l, start < x.seq) :
    start < nextAck l start ∧ (∀ k, start < k → k < nextAck l start → ∃ x ∈ l, x.seq = k) ∧
      ∀ x ∈ l, x.seq ≠ nextAck l start := by
  induction l generalizing start with
  | nil => exact ⟨Nat.lt_succ_self start, fun k h1 h2 => by simp [nextAck] at h2; omega, by simp⟩
  | cons x xs ih =>
    obtain ⟨hx, hxs⟩ := List.pairwise_cons.mp h
    unfold nextAck
    split_ifs with heq
    · obtain ⟨hlt, hall, hnot⟩ := ih hxs hx
      refine ⟨by omega, ?_, ?_⟩
      · intro k hk hk'
        by_cases hkx : k = x.seq
        · exact ⟨x, by simp, hkx.symm⟩
        · obtain ⟨y, hy, rfl⟩ := hall k (by omega) hk'
          exact ⟨y, by simp [hy], rfl⟩
      · intro y hy
        rcases List.mem_cons.mp hy with rfl | hy
        · omega
        · exact hnot y hy
    · refine ⟨by omega, fun k h1 h2 => by omega, ?_⟩
      intro y hy
      have hgt := hl x (by simp)
      rcases List.mem_cons.mp hy with rfl | hy
      · exact heq
      · have := hx y hy
        omega

end NetLab.Transfer
