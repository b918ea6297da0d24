import Mathlib.Data.List.Basic

/-! One direction of a stream connection. The kernel of the writer takes as many bytes as there is
room for; they arrive in the order in which they were written, in pieces of any size, and the end of
the stream comes behind the last of them. -/
namespace NetLab.Lib

structure Stream (α : Type*) where
  cap : ℕ
  /-- What was written and has not arrived, oldest first. -/
  transit : List α
  /-- What has arrived and was not read. -/
  arrived : List α
  closed : Bool
  fits : arrived.length + transit.length ≤ cap

namespace Stream

variable {α : Type*} (s : Stream α)

def empty (cap : ℕ) : Stream α := ⟨cap, [], [], false, Nat.zero_le cap⟩

/-- Everything in the stream, oldest first. -/
def held : List α := s.arrived ++ s.transit

def room : ℕ := s.cap - s.held.length

/-- How much of `xs` a write takes, of which `k` bytes at most. -/
def takes (k : ℕ) (xs : List α) : ℕ := min (min k s.room) xs.length

def write (k : ℕ) (xs : List α) : Stream α where
  cap := s.cap
  transit := s.transit ++ xs.take (s.takes k xs)
  arrived := s.arrived
  closed := s.closed
  fits := by
    have hfits := s.fits
    have hheld : s.held.length = s.arrived.length + s.transit.length := List.length_append
    rw [List.length_append, List.length_take]
    unfold takes room
    omega

def arrive (k : ℕ) : Stream α where
  cap := s.cap
  transit := s.transit.drop k
  arrived := s.arrived ++ s.transit.take k
  closed := s.closed
  fits := by
    have hfits := s.fits
    rw [List.length_append, List.length_take, List.length_drop]
    omega

/-- What is left by a read of `k` bytes. -/
def read (k : ℕ) : Stream α where
  cap := s.cap
  transit := s.transit
  arrived := s.arrived.drop k
  closed := s.closed
  fits := by
    have hfits := s.fits
    rw [List.length_drop]
    omega

def shut : Stream α := { s with closed := true }

/-- A read finds the end of the stream. -/
def AtEnd : Prop := s.closed = true ∧ s.held = []

/-- A read does not block. -/
def Readable : Prop := s.arrived ≠ [] ∨ s.AtEnd

instance : Decidable s.AtEnd :=
  decidable_of_iff (s.closed = true ∧ s.held.isEmpty = true) (by simp [AtEnd])

instance : Decidable s.Readable :=
  decidable_of_iff (s.arrived.isEmpty = false ∨ s.AtEnd) (by simp [Readable])

@[simp] theorem write_held (k : ℕ) (xs : List α) :
    (s.write k xs).held = s.held ++ xs.take (s.takes k xs) :=
  (List.append_assoc ..).symm

@[simp] theorem arrive_held (k : ℕ) : (s.arrive k).held = s.held := by
  simp [held, arrive, List.append_assoc]

@[simp] theorem shut_held : s.shut.held = s.held := rfl

theorem read_held (k : ℕ) : s.arrived.take k ++ (s.read k).held = s.held := by
  simp [held, read, ← List.append_assoc]

theorem held_length_le : s.held.length ≤ s.cap := by
  have hfits := s.fits
  rw [held, List.length_append]
  exact hfits

theorem takes_pos {k : ℕ} {xs : List α} (hk : 0 < k) (hxs : xs ≠ []) (hroom : 0 < s.room) :
    0 < s.takes k xs := by
  have hlen := List.length_pos_of_ne_nil hxs
  unfold takes
  omega

theorem takes_le (k : ℕ) (xs : List α) : s.takes k xs ≤ xs.length := Nat.min_le_right _ _

end Stream

end NetLab.Lib
