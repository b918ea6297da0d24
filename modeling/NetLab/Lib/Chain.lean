import Mathlib.Data.List.Nodup
import Mathlib.Logic.Function.Basic

/-! Nodes of a heap that are linked by pointers: the segments of such a chain, and which writes
to the heap leave them alone. -/
namespace NetLab.Lib

section
variable {α : Type*}

/-- A node: what it holds, and its link. No link stands for `NULL`. -/
structure Cell (α : Type*) where
  val : α
  next : Option ℕ
  deriving DecidableEq, Repr

/-- The allocated nodes by their addresses. -/
abbrev Heap (α : Type*) := ℕ → Option (Cell α)

def Heap.set (h : Heap α) (a : ℕ) (c : Cell α) : Heap α := Function.update h a (some c)

def Heap.setNext (h : Heap α) (a : ℕ) (q : Option ℕ) : Heap α :=
  Function.update h a ((h a).map fun c => { c with next := q })

def Heap.free (h : Heap α) (a : ℕ) : Heap α := Function.update h a none

/-- The nodes `xs`, each with its address, are linked from the pointer `p` to the pointer `q`. -/
def Segment (h : Heap α) (p : Option ℕ) : List (ℕ × α) → Option ℕ → Prop
  | [], q => p = q
  | (a, v) :: xs, q => p = some a ∧ ∃ r, h a = some ⟨v, r⟩ ∧ Segment h r xs q

/-- The segment ends with `NULL`. -/
def Chain (h : Heap α) (p : Option ℕ) (xs : List (ℕ × α)) : Prop := Segment h p xs none

variable {h h' : Heap α} {p q : Option ℕ} {a b : ℕ} {v : α} {xs ys : List (ℕ × α)}

@[simp] theorem Heap.set_self (c : Cell α) : h.set a c a = some c := Function.update_self ..

theorem Heap.set_of_ne (c : Cell α) (hne : b ≠ a) : h.set a c b = h b := Function.update_of_ne hne ..

theorem Heap.setNext_self {c : Cell α} (ha : h a = some c) (q : Option ℕ) :
    h.setNext a q a = some { c with next := q } := by
  unfold setNext
  rw [Function.update_self, ha]
  rfl

theorem Heap.setNext_of_ne (q : Option ℕ) (hne : b ≠ a) : h.setNext a q b = h b :=
  Function.update_of_ne hne ..

theorem Heap.free_of_ne (hne : b ≠ a) : h.free a b = h b := Function.update_of_ne hne ..

theorem Heap.ne_of_fresh {c : Cell α} (hb : h b = none) (ha : h a = some c) : a ≠ b := by
  intro hab
  rw [hab, hb] at ha
  cases ha

theorem Heap.link_fresh {c : Cell α} (hb : h b = none) (ha : h a = some c) (d : Cell α) :
    (h.set b d).setNext a (some b) a = some { c with next := some b } ∧
      (h.set b d).setNext a (some b) b = some d ∧
      ∀ e, e ≠ b → e ≠ a → (h.set b d).setNext a (some b) e = h e := by
  have hne : a ≠ b := Heap.ne_of_fresh hb ha
  refine ⟨?_, ?_, ?_⟩
  · apply Heap.setNext_self
    rw [Heap.set_of_ne d hne, ha]
  · rw [Heap.setNext_of_ne _ hne.symm, Heap.set_self]
  · intro e heb hea
    rw [Heap.setNext_of_ne _ hea, Heap.set_of_ne d heb]

theorem chain_cons : Chain h p ((a, v) :: xs) ↔
    p = some a ∧ ∃ r, h a = some ⟨v, r⟩ ∧ Chain h r xs := Iff.rfl

/-- A segment only depends on its own nodes. -/
theorem Segment.congr (hs : Segment h p xs q) (heq : ∀ x ∈ xs, h' x.1 = h x.1) :
    Segment h' p xs q := by
  induction xs generalizing p with
  | nil => exact hs
  | cons x xs ih =>
    obtain ⟨a, v⟩ := x
    obtain ⟨hp, r, hr, hxs⟩ := hs
    have hcell : h' a = some ⟨v, r⟩ := (heq (a, v) List.mem_cons_self).trans hr
    exact ⟨hp, r, hcell, ih hxs fun x hx => heq x (List.mem_cons_of_mem _ hx)⟩

theorem Segment.prefix_of_chain (hs : Segment h p xs q) (hc : Chain h p ys) :
    ∃ zs, ys = xs ++ zs ∧ Chain h q zs := by
  induction xs generalizing p ys with
  | nil =>
    have hpq : p = q := hs
    subst hpq
    exact ⟨ys, rfl, hc⟩
  | cons x xs ih =>
    obtain ⟨a, v⟩ := x
    obtain ⟨rfl, r, hr, hxs⟩ := hs
    cases ys with
    | nil => cases hc
    | cons y ys =>
      obtain ⟨b, w⟩ := y
      obtain ⟨hab, r', hr', hys⟩ := hc
      cases hab
      have hcell := hr.symm.trans hr'
      cases hcell
      obtain ⟨zs, rfl, hzs⟩ := ih hxs hys
      exact ⟨zs, rfl, hzs⟩

theorem Chain.unique (hxs : Chain h p xs) (hys : Chain h p ys) : xs = ys := by
  obtain ⟨zs, rfl, hzs⟩ := hxs.prefix_of_chain hys
  cases zs with
  | nil => exact (List.append_nil xs).symm
  | cons z zs => cases hzs.1

theorem Segment.end_null (hs : Segment h p xs q) (hc : Chain h p ys)
    (hlen : ys.length ≤ xs.length) : q = none := by
  obtain ⟨zs, rfl, hzs⟩ := hs.prefix_of_chain hc
  rw [List.length_append] at hlen
  have hnil : zs = [] := List.length_eq_zero_iff.mp (by omega)
  subst hnil
  exact hzs

theorem Segment.split (hs : Segment h p (xs ++ (a, v) :: ys) q) :
    Segment h p xs (some a) ∧ Segment h (some a) ((a, v) :: ys) q := by
  induction xs generalizing p with
  | nil =>
    obtain ⟨rfl, hrest⟩ := hs
    exact ⟨rfl, rfl, hrest⟩
  | cons x xs ih =>
    obtain ⟨b, w⟩ := x
    obtain ⟨hp, r, hr, hxs⟩ := hs
    obtain ⟨hbefore, hfrom⟩ := ih hxs
    exact ⟨⟨hp, r, hr, hbefore⟩, hfrom⟩

theorem Chain.nodup (hc : Chain h p xs) : (xs.map Prod.fst).Nodup := by
  induction xs generalizing p with
  | nil => exact List.nodup_nil
  | cons x xs ih =>
    obtain ⟨a, v⟩ := x
    obtain ⟨rfl, r, hr, hxs⟩ := hc
    rw [List.map_cons, List.nodup_cons]
    constructor
    · intro hmem
      obtain ⟨⟨b, w⟩, hx, rfl⟩ := List.mem_map.mp hmem
      obtain ⟨before, behind, rfl⟩ := List.append_of_mem hx
      have hagain := (Segment.split hxs).2
      have hwhole : Chain h (some b) ((b, v) :: (before ++ (b, w) :: behind)) := ⟨rfl, r, hr, hxs⟩
      have hlist := hwhole.unique hagain
      have hlen := congrArg List.length hlist
      simp only [List.length_cons, List.length_append] at hlen
      omega
    · exact ih hxs

theorem Chain.head_last (hc : Chain h p [(a, v)]) : h a = some ⟨v, none⟩ := by
  obtain ⟨_, r, ha, hr⟩ := hc
  have hnull : r = none := hr
  rw [ha, hnull]

theorem Chain.head_cons {w : α} (hc : Chain h p ((a, v) :: (b, w) :: xs)) :
    h a = some ⟨v, some b⟩ ∧ Chain h (some b) ((b, w) :: xs) ∧ ∀ x ∈ (b, w) :: xs, x.1 ≠ a := by
  have hnodup := hc.nodup
  rw [List.map_cons, List.nodup_cons] at hnodup
  obtain ⟨_, r, ha, hrest⟩ := hc
  obtain rfl : r = some b := hrest.1
  refine ⟨ha, hrest, ?_⟩
  intro x hx heq
  exact hnodup.1 (List.mem_map.mpr ⟨x, hx, heq⟩)

theorem Segment.allocated (hs : Segment h p xs q) {x : ℕ × α} (hx : x ∈ xs) : h x.1 ≠ none := by
  induction xs generalizing p with
  | nil => cases hx
  | cons y xs ih =>
    obtain ⟨hp, r, hr, hxs⟩ := hs
    rcases List.mem_cons.mp hx with rfl | hx
    · rw [hr]
      exact Option.some_ne_none _
    · exact ih hxs hx

end

end NetLab.Lib
