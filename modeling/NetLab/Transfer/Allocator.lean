import NetLab.Transfer.SortedMap

/-! The list when `malloc` returns nodes with any contents, for the header too. -/
namespace NetLab.Transfer
open NetLab.Lib

/-- A heap, the addresses of the nodes that calls have linked, and the list that these calls make
whatever `malloc` returns. -/
structure Traced where
  heap : Heap LinkNode
  linked : List ℕ
  list : List LinkNode

/-- The header at `L` has been allocated, with the contents that it had. -/
def Traced.start (heap : Heap LinkNode) : Traced := ⟨heap, [], []⟩

/-- A call of `InsertLinkList`. -/
def Traced.step (L : ℕ) (s : Traced) : ListCall → Option Traced
  | .insert seq line block fuel =>
    (ListCall.run L s.heap (.insert seq line block fuel)).map fun t =>
      ⟨t, if t block.addr = none then s.linked else block.addr :: s.linked,
        insertLinkList seq line.bytes s.list⟩
  | .delete _ _ _ => none

/-- The chain from the header ends with `NULL`, visits linked nodes only, and holds the list. -/
def Traced.WellLinked (L : ℕ) (s : Traced) : Prop :=
  ∃ v xs, Chain s.heap (some L) ((L, v) :: xs) ∧ xs.map Prod.snd = s.list ∧
    ∀ x ∈ xs, x.1 ∈ s.linked

/-- A node that the call links behind the last one has a null link when `malloc` returns it. -/
def ListCall.TailNull (s : Traced) : ListCall → Prop
  | .insert seq _ block _ =>
    (s.list ≠ [] ∧ ∀ x ∈ s.list, x.seq < seq) → block.cell.next = none
  | .delete _ _ _ => True

instance (s : Traced) (c : ListCall) : Decidable (c.TailNull s) :=
  match c with
  | .insert seq _ block _ => inferInstanceAs
      (Decidable ((s.list ≠ [] ∧ ∀ x ∈ s.list, x.seq < seq) → block.cell.next = none))
  | .delete _ _ _ => inferInstanceAs (Decidable True)

theorem atTail_iff {seq : ℕ} {xs : List (ℕ × LinkNode)} {l : List LinkNode}
    (hmap : xs.map Prod.snd = l) : AtTail seq xs ↔ l ≠ [] ∧ ∀ x ∈ l, x.seq < seq := by
  subst hmap
  simp only [AtTail, ne_eq, List.map_eq_nil_iff, List.forall_mem_map]

theorem length_placeNode {a seq : ℕ} {line : List UInt8} {xs : List (ℕ × LinkNode)}
    {l : List LinkNode} (hmap : xs.map Prod.snd = l) :
    (placeNode a seq line xs).length = (insertLinkList seq line l).length := by
  rw [← hmap, ← map_placeNode a, List.length_map]

/-- A call keeps the chain as it should be if and only if it does not link an open end. -/
theorem wellLinked_step_iff {L : ℕ} {s t : Traced} {c : ListCall} (h : s.WellLinked L)
    (hs : s.step L c = some t) : t.WellLinked L ↔ c.TailNull s := by
  cases c with
  | delete port ipAddr fuel => cases hs
  | insert seq line block fuel =>
    obtain ⟨v, xs, hc, hmap, hlinked⟩ := h
    obtain ⟨heap, hcall, rfl⟩ := Option.map_eq_some_iff.mp hs
    obtain ⟨hfresh, hrun⟩ := Option.ite_none_right_eq_some.mp hcall
    obtain ⟨heap', hrun', hseg⟩ := insertLinkList_linked seq line.bytes hc hfresh
      (Nat.lt_of_lt_of_le (Nat.lt_succ_self xs.length) (Nat.le_max_right fuel _))
    have hsame := (insertLinkList_mono (Nat.le_max_left fuel (xs.length + 1)) hrun).symm.trans hrun'
    cases hsame
    change _ ↔ ((s.list ≠ [] ∧ ∀ x ∈ s.list, x.seq < seq) → block.cell.next = none)
    rw [← atTail_iff hmap]
    constructor
    · rintro ⟨w, ys, hys, hlist, _⟩ htail
      rw [if_pos htail] at hseg
      -- the chain holds no more nodes than the segment, so that it ends there
      have hys' : ys.length = (insertLinkList seq line.bytes s.list).length := by
        rw [← List.length_map Prod.snd, hlist]
      apply hseg.end_null hys
      rw [List.length_cons, List.length_cons, hys', length_placeNode hmap]
    · intro hnull
      have hend : (if AtTail seq xs then block.cell.next else none) = none := by
        split_ifs with htail
        · exact hnull htail
        · rfl
      rw [hend] at hseg
      refine ⟨v, placeNode block.addr seq line.bytes xs, hseg, ?_, ?_⟩
      · rw [map_placeNode, hmap]
      · intro x hx
        have halloc : heap x.1 ≠ none := hseg.allocated (List.mem_cons_of_mem _ hx)
        dsimp only
        rcases mem_placeNode hx with hold | rfl
        · split_ifs
          · exact hlinked x hold
          · exact List.mem_cons_of_mem _ (hlinked x hold)
        · rw [if_neg halloc]
          exact List.mem_cons_self

theorem wellLinked_start_iff {L : ℕ} {g : Cell LinkNode} {heap : Heap LinkNode}
    (hL : heap L = some g) : (Traced.start heap).WellLinked L ↔ g.next = none := by
  constructor
  · rintro ⟨v, xs, hc, hlist, _⟩
    have hnil : xs = [] := List.map_eq_nil_iff.mp hlist
    subst hnil
    obtain ⟨_, r, hr, hend⟩ := hc
    have hcell := hL.symm.trans hr
    cases hcell
    exact hend
  · intro hnull
    refine ⟨g.val, [], ⟨rfl, none, ?_, rfl⟩, rfl, fun x hx => absurd hx List.not_mem_nil⟩
    have hg : g = ⟨g.val, none⟩ := by rw [← hnull]
    rw [← hg]
    exact hL

/-- The chain is what the calls make of it, whatever `malloc` returns, if and only if the header has
a null link when `malloc` returns it, and so has every node that is linked behind the last one. -/
theorem malloc_contents_iff {L : ℕ} {g : Cell LinkNode} {heap : Heap LinkNode}
    {calls : List ListCall} {t : Traced} (hL : heap L = some g)
    (hr : Run (Traced.step L) (fun _ _ => True) (Traced.start heap) calls t) :
    Along (Traced.step L) (Traced.WellLinked L) (Traced.start heap) calls ↔
      g.next = none ∧
        Run (Traced.step L) (fun s c => True ∧ c.TailNull s) (Traced.start heap) calls t := by
  by_cases hnull : g.next = none
  · rw [and_iff_right hnull]
    apply hr.along_iff (fun _ => True) (Traced.WellLinked L)
    · exact fun _ _ _ _ _ _ => trivial
    · exact fun s t c _ h _ hs => wellLinked_step_iff h hs
    · trivial
    · exact (wellLinked_start_iff hL).mpr hnull
  · apply iff_of_false
    · intro halong
      exact hnull ((wellLinked_start_iff hL).mp (halong [] calls _ rfl rfl))
    · exact fun h => hnull h.1

def twoCalls (link : Option ℕ) : List ListCall :=
  [.insert 1 lineA ⟨2, ⟨⟨9, []⟩, none⟩⟩ 5, .insert 2 lineB ⟨3, ⟨⟨9, []⟩, link⟩⟩ 5]

def afterTwo (link : Option ℕ) : Traced :=
  (exec (Traced.step 1) (Traced.start emptyAtOne) (twoCalls link)).getD (Traced.start emptyAtOne)

theorem malloc_contents_two :
    Along (Traced.step 1) (Traced.WellLinked 1) (Traced.start emptyAtOne) (twoCalls none) := by
  have hr : Run (Traced.step 1) (fun _ _ => True) (Traced.start emptyAtOne) (twoCalls none)
      (afterTwo none) := .of_runnable (by decide +kernel) (Traced.start emptyAtOne)
  apply (malloc_contents_iff (g := ⟨⟨0, []⟩, none⟩) rfl hr).mpr
  exact ⟨rfl, .of_runnable (by decide +kernel) (Traced.start emptyAtOne)⟩

/-- A block that still holds a link to the first node makes a cycle of the two. -/
theorem recycled_block_cycle :
    Segment (afterTwo (some 2)).heap (some 1)
        [(1, ⟨0, []⟩), (2, ⟨1, [97]⟩), (3, ⟨2, [98]⟩)] (some 2) ∧
      ¬ Along (Traced.step 1) (Traced.WellLinked 1) (Traced.start emptyAtOne) (twoCalls (some 2)) := by
  have hr : Run (Traced.step 1) (fun _ _ => True) (Traced.start emptyAtOne) (twoCalls (some 2))
      (afterTwo (some 2)) := .of_runnable (by decide +kernel) (Traced.start emptyAtOne)
  have hseg : Segment (afterTwo (some 2)).heap (some 1)
      [(1, ⟨0, []⟩), (2, ⟨1, [97]⟩), (3, ⟨2, [98]⟩)] (some 2) := by
    refine ⟨rfl, some 2, ?_, rfl, some 3, ?_, rfl, some 2, ?_, rfl⟩ <;> decide +kernel
  have hlist : (afterTwo (some 2)).list.length = 2 := by decide +kernel
  constructor
  · exact hseg
  · intro halong
    obtain ⟨v, xs, hc, hmap, _⟩ := halong.last hr
    have hlen : xs.length = 2 := by rw [← List.length_map Prod.snd, hmap, hlist]
    have hnull := hseg.end_null hc (by rw [List.length_cons, hlen]; exact le_rfl)
    cases hnull

end NetLab.Transfer
