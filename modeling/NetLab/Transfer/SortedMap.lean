import Mathlib.Data.Set.Card
import NetLab.Transfer.HeapList

/-! The receive list as a map from sequence numbers to lines: every sequence of calls, with nodes
that `malloc` returns with a null link. -/
namespace NetLab.Transfer
open NetLab.Lib

inductive ListOp where
  | insert (seq : ℕ) (line : LineArg)
  | delete (port : ℕ) (ipAddr : List UInt8)

def ListOp.apply (l : List LinkNode) : ListOp → List LinkNode
  | .insert seq line => insertLinkList seq line.bytes l
  | .delete port ipAddr => deleteSelectedNode port ipAddr l

def listAfter (ops : List ListOp) : List LinkNode := ops.foldl ListOp.apply []

/-- A call, with the block that `malloc` would return and the iterations that its loop may make. -/
inductive ListCall where
  | insert (seq : ℕ) (line : LineArg) (block : Block) (fuel : ℕ)
  | delete (port : ℕ) (ipAddr : List UInt8) (fuel : ℕ)

def ListCall.op : ListCall → ListOp
  | .insert seq line _ _ => .insert seq line
  | .delete port ipAddr _ => .delete port ipAddr

/-- The heap after a call for the list at `L`; a block is not allocated before. -/
def ListCall.run (L : ℕ) (h : Heap LinkNode) : ListCall → Option (Heap LinkNode)
  | .insert seq line block fuel =>
    if h block.addr = none then InHeap.insertLinkList h L seq line.bytes block fuel else none
  | .delete port ipAddr fuel => InHeap.deleteSelectedNode h port ipAddr fuel L

/-- `malloc` returns a node with a null link. -/
def ListCall.Zeroed : ListCall → Prop
  | .insert _ _ block _ => block.cell.next = none
  | .delete _ _ _ => True

instance (c : ListCall) : Decidable c.Zeroed :=
  match c with
  | .insert _ _ block _ => inferInstanceAs (Decidable (block.cell.next = none))
  | .delete _ _ _ => inferInstanceAs (Decidable True)

/-- The line was inserted for `seq` when the list had none for it, and was not removed since. -/
def FirstSince (ops : List ListOp) (seq : ℕ) (line : List UInt8) : Prop :=
  ∃ before arg behind, ops = before ++ .insert seq arg :: behind ∧ cString arg.bytes = line ∧
    (∀ x ∈ listAfter before, x.seq ≠ seq) ∧
    ∀ ipAddr, .delete seq ipAddr ∈ behind → cString ipAddr ≠ line

def insertions (pairs : List (ℕ × LineArg)) : List ListOp := pairs.map fun p => .insert p.1 p.2

/-- What the list at `L` is after the calls `ops`. -/
structure SortedMap (L : ℕ) (ops : List ListOp) (h : Heap LinkNode) (xs : List (ℕ × LinkNode)) :
    Prop where
  linked : Linked h L xs
  ascending : Ascending (xs.map Prod.snd)
  maps : ∀ seq line, ⟨seq, line⟩ ∈ xs.map Prod.snd ↔ FirstSince ops seq line
  inserts : ∀ seq (line : LineArg) (block : Block) fuel, h block.addr = none →
    block.cell.next = none → xs.length < fuel → ∃ t,
      InHeap.insertLinkList h L seq line.bytes block fuel = some t ∧
        Linked t L (placeNode block.addr seq line.bytes xs)
  deletes : ∀ port ipAddr fuel, xs.length < fuel → ∃ t,
    InHeap.deleteSelectedNode h port ipAddr fuel L = some t ∧
      Linked t L (xs.filter fun x => x.2 ≠ ⟨port, cString ipAddr⟩)
  duplicate : ∀ port ipAddr fuel, xs.length < fuel →
    InHeap.duplicateNode h port ipAddr fuel L =
      some (if ⟨port, cString ipAddr⟩ ∈ xs.map Prod.snd then 1 else 0)
  length : ∀ fuel, xs.length < fuel → InHeap.linkListLength h L fuel =
    some {seq | ∃ line, FirstSince ops seq line}.ncard
  /-- Pairs with different numbers can be inserted in any order. -/
  order : ∀ ps qs : List (ℕ × LineArg), ps.Perm qs → (ps.map Prod.fst).Nodup → ∀ cs ds t u,
    cs.map ListCall.op = insertions ps → ds.map ListCall.op = insertions qs →
    Run (ListCall.run L) (fun _ c => c.Zeroed) h cs t →
    Run (ListCall.run L) (fun _ c => c.Zeroed) h ds u →
    ∃ ys zs, Linked t L ys ∧ Linked u L zs ∧ ys.map Prod.snd = zs.map Prod.snd

theorem listAfter_concat (ops : List ListOp) (op : ListOp) :
    listAfter (ops ++ [op]) = op.apply (listAfter ops) := List.foldl_append

theorem deleteSelectedNode_eq_erase (port : ℕ) (ipAddr : List UInt8) (l : List LinkNode) :
    deleteSelectedNode port ipAddr l = l.erase ⟨port, cString ipAddr⟩ := by
  induction l with
  | nil => rfl
  | cons x xs ih =>
    have hx : (x.seq ≠ port ∨ x.recvline ≠ cString ipAddr) ↔ x ≠ ⟨port, cString ipAddr⟩ := by
      cases x
      simp only [ne_eq, LinkNode.mk.injEq, not_and_or]
    unfold deleteSelectedNode
    split_ifs with hmiss
    · rw [List.erase_cons_tail (by simpa using hx.mp hmiss), ih]
    · have heq : x = ⟨port, cString ipAddr⟩ := not_not.mp (hx.not.mp hmiss)
      rw [heq, List.erase_cons_head]

theorem Ascending.nodup {l : List LinkNode} (h : Ascending l) : l.Nodup :=
  List.Pairwise.imp (fun hlt heq => absurd (congrArg LinkNode.seq heq) hlt.ne) h

theorem apply_ascending {l : List LinkNode} (h : Ascending l) (op : ListOp) :
    Ascending (op.apply l) := by
  cases op with
  | insert seq line => exact insertLinkList_ascending h
  | delete port ipAddr =>
    change Ascending (deleteSelectedNode port ipAddr l)
    rw [deleteSelectedNode_eq_erase]
    exact List.Pairwise.sublist List.erase_sublist h

theorem listAfter_ascending (ops : List ListOp) : Ascending (listAfter ops) := by
  induction ops using List.reverseRecOn with
  | nil => exact List.Pairwise.nil
  | append_singleton ops op ih =>
    rw [listAfter_concat]
    exact apply_ascending ih op

theorem firstSince_concat {ops : List ListOp} {op : ListOp} {seq : ℕ} {line : List UInt8} :
    FirstSince (ops ++ [op]) seq line ↔
      (FirstSince ops seq line ∧ ∀ ipAddr, op = .delete seq ipAddr → cString ipAddr ≠ line) ∨
      ∃ arg, op = .insert seq arg ∧ cString arg.bytes = line ∧
        ∀ x ∈ listAfter ops, x.seq ≠ seq := by
  constructor
  · rintro ⟨before, arg, behind, hops, hline, hnone, hkept⟩
    cases behind using List.reverseRecOn with
    | nil =>
      obtain ⟨rfl, hop⟩ := List.append_inj' hops rfl
      cases hop
      exact .inr ⟨arg, rfl, hline, hnone⟩
    | append_singleton behind last _ =>
      have hsplit : before ++ ListOp.insert seq arg :: (behind ++ [last]) =
          (before ++ ListOp.insert seq arg :: behind) ++ [last] := by simp
      rw [hsplit] at hops
      obtain ⟨rfl, hop⟩ := List.append_inj' hops rfl
      cases hop
      refine .inl ⟨⟨before, arg, behind, rfl, hline, hnone, ?_⟩, ?_⟩
      · exact fun ipAddr hmem => hkept ipAddr (List.mem_append_left _ hmem)
      · rintro ipAddr rfl
        exact hkept ipAddr (by simp)
  · rintro (⟨⟨before, arg, behind, rfl, hline, hnone, hkept⟩, hlast⟩ | ⟨arg, rfl, hline, hnone⟩)
    · refine ⟨before, arg, behind ++ [op], by simp, hline, hnone, ?_⟩
      intro ipAddr hmem
      rcases List.mem_append.mp hmem with hmem | hmem
      · exact hkept ipAddr hmem
      · exact hlast ipAddr (List.mem_singleton.mp hmem).symm
    · exact ⟨ops, arg, [], rfl, hline, hnone, fun ipAddr hmem => absurd hmem List.not_mem_nil⟩

/-- The list maps every number to the line inserted first since it was last removed. -/
theorem mem_listAfter {ops : List ListOp} {seq : ℕ} {line : List UInt8} :
    ⟨seq, line⟩ ∈ listAfter ops ↔ FirstSince ops seq line := by
  induction ops using List.reverseRecOn with
  | nil =>
    apply iff_of_false List.not_mem_nil
    rintro ⟨before, arg, behind, hops, _⟩
    simp at hops
  | append_singleton ops op ih =>
    rw [listAfter_concat, firstSince_concat, ← ih]
    cases op with
    | insert s arg =>
      change ⟨seq, line⟩ ∈ insertLinkList s arg.bytes (listAfter ops) ↔ _
      rw [mem_insertLinkList (listAfter_ascending ops)]
      constructor
      · rintro (hmem | ⟨heq, hnone⟩)
        · exact .inl ⟨hmem, fun ipAddr hop => by cases hop⟩
        · cases heq
          exact .inr ⟨arg, rfl, rfl, hnone⟩
      · rintro (⟨hmem, _⟩ | ⟨arg', hop, hline, hnone⟩)
        · exact .inl hmem
        · cases hop
          exact .inr ⟨by rw [hline], hnone⟩
    | delete port ipAddr =>
      change ⟨seq, line⟩ ∈ deleteSelectedNode port ipAddr (listAfter ops) ↔ _
      rw [deleteSelectedNode_eq_erase, (listAfter_ascending ops).nodup.mem_erase_iff, and_comm]
      constructor
      · rintro ⟨hmem, hne⟩
        refine .inl ⟨hmem, ?_⟩
        intro ip hop hline
        cases hop
        exact hne (by rw [hline])
      · rintro (⟨hmem, hkept⟩ | ⟨arg, hop, _⟩)
        · refine ⟨hmem, ?_⟩
          intro heq
          cases heq
          exact hkept ipAddr rfl rfl
        · cases hop

theorem insertLinkList_comm {s t : ℕ} (hne : s ≠ t) (a b : List UInt8) (l : List LinkNode) :
    insertLinkList t b (insertLinkList s a l) = insertLinkList s a (insertLinkList t b l) := by
  induction l with
  | nil =>
    simp only [insertLinkList]
    split_ifs <;> first | rfl | omega
  | cons x xs ih =>
    simp only [insertLinkList]
    split_ifs <;> simp only [insertLinkList] <;> split_ifs <;> first | rfl | omega | rw [ih]

section
variable {L : ℕ} {h t : Heap LinkNode} {xs : List (ℕ × LinkNode)}

theorem Linked.insert (hl : Linked h L xs) (seq : ℕ) (line : List UInt8) {block : Block}
    (hfresh : h block.addr = none) (hzero : block.cell.next = none) {fuel : ℕ}
    (hfuel : xs.length < fuel) : ∃ t, InHeap.insertLinkList h L seq line block fuel = some t ∧
      Linked t L (placeNode block.addr seq line xs) := by
  obtain ⟨v, hc⟩ := hl
  obtain ⟨t, hrun, hseg⟩ := insertLinkList_linked seq line hc hfresh hfuel
  rw [hzero, ite_self] at hseg
  exact ⟨t, hrun, v, hseg⟩

theorem Linked.delete (hl : Linked h L xs) (port : ℕ) (ipAddr : List UInt8) {fuel : ℕ}
    (hfuel : xs.length < fuel) :
    ∃ t, InHeap.deleteSelectedNode h port ipAddr fuel L = some t ∧
      Linked t L (dropNode port ipAddr xs) := by
  obtain ⟨v, hc⟩ := hl
  obtain ⟨t, hrun, hchain, _⟩ := deleteSelectedNode_linked port ipAddr hc hfuel
  exact ⟨t, hrun, v, hchain⟩

theorem Linked.call (hl : Linked h L xs) {c : ListCall} (hzero : c.Zeroed)
    (hrun : c.run L h = some t) :
    ∃ ys, Linked t L ys ∧ ys.map Prod.snd = c.op.apply (xs.map Prod.snd) := by
  cases c with
  | insert seq line block fuel =>
    obtain ⟨hfresh, hrun⟩ := Option.ite_none_right_eq_some.mp hrun
    obtain ⟨t', hrun', hlinked⟩ := hl.insert seq line.bytes hfresh hzero
      (Nat.lt_of_lt_of_le (Nat.lt_succ_self xs.length) (Nat.le_max_right fuel _))
    have hsame := (insertLinkList_mono (Nat.le_max_left fuel (xs.length + 1)) hrun).symm.trans hrun'
    cases hsame
    exact ⟨_, hlinked, map_placeNode _ _ _ _⟩
  | delete port ipAddr fuel =>
    obtain ⟨t', hrun', hlinked⟩ := hl.delete port ipAddr
      (Nat.lt_of_lt_of_le (Nat.lt_succ_self xs.length) (Nat.le_max_right fuel _))
    have hsame :=
      (deleteSelectedNode_mono (Nat.le_max_left fuel (xs.length + 1)) hrun).symm.trans hrun'
    cases hsame
    exact ⟨_, hlinked, map_dropNode _ _ _⟩

theorem Linked.calls (hl : Linked h L xs) {cs : List ListCall}
    (hr : Run (ListCall.run L) (fun _ c => c.Zeroed) h cs t) :
    ∃ ys, Linked t L ys ∧
      ys.map Prod.snd = (cs.map ListCall.op).foldl ListOp.apply (xs.map Prod.snd) := by
  have hsim := hr.simulate (fun l c => c.op.apply l)
    (fun h l => ∃ ys, Linked h L ys ∧ ys.map Prod.snd = l)
    (fun h t l c hl hzero hs => by
      obtain ⟨ys, hys, rfl⟩ := hl
      exact hys.call hzero hs) ⟨xs, hl, rfl⟩
  rw [List.foldl_map]
  exact hsim

theorem dropNode_eq_filter (port : ℕ) (ipAddr : List UInt8) (hnodup : (xs.map Prod.snd).Nodup) :
    dropNode port ipAddr xs = xs.filter fun x => x.2 ≠ ⟨port, cString ipAddr⟩ := by
  induction xs with
  | nil => rfl
  | cons x xs ih =>
    rw [List.map_cons, List.nodup_cons] at hnodup
    have hx : (x.2.seq ≠ port ∨ x.2.recvline ≠ cString ipAddr) ↔ x.2 ≠ ⟨port, cString ipAddr⟩ := by
      obtain ⟨a, y⟩ := x
      cases y
      simp only [ne_eq, LinkNode.mk.injEq, not_and_or]
    unfold dropNode
    split_ifs with hmiss
    · rw [List.filter_cons_of_pos (by simpa using hx.mp hmiss), ih hnodup.2]
    · have heq : x.2 = ⟨port, cString ipAddr⟩ := not_not.mp (hx.not.mp hmiss)
      have hall : ∀ y ∈ xs, y.2 ≠ ⟨port, cString ipAddr⟩ := by
        intro y hy heq'
        exact hnodup.1 (List.mem_map.mpr ⟨y, hy, heq'.trans heq.symm⟩)
      rw [List.filter_cons_of_neg (by simp [heq]), List.filter_eq_self.mpr (by simpa using hall)]

theorem insertions_order {ps qs : List (ℕ × LineArg)} (hperm : ps.Perm qs)
    (hnodup : (ps.map Prod.fst).Nodup) (l : List LinkNode) :
    (insertions ps).foldl ListOp.apply l = (insertions qs).foldl ListOp.apply l := by
  unfold insertions
  rw [List.foldl_map, List.foldl_map]
  apply hperm.foldl_eq'
  intro p hp q hq l
  by_cases hpq : p = q
  · rw [hpq]
  · have hne : p.1 ≠ q.1 := fun heq => hpq (List.inj_on_of_nodup_map hnodup hp hq heq)
    exact insertLinkList_comm hne p.2.bytes q.2.bytes l

/-- The numbers in the list are those that a line was inserted for and is still held. -/
theorem live_ncard {ops : List ListOp} (hmap : xs.map Prod.snd = listAfter ops) :
    {seq | ∃ line, FirstSince ops seq line}.ncard = xs.length := by
  have hseqs : {seq | ∃ line, FirstSince ops seq line} =
      ↑((listAfter ops).map LinkNode.seq).toFinset := by
    ext seq
    simp only [Set.mem_ofPred_eq, List.coe_toFinset, List.mem_map, ← mem_listAfter]
    constructor
    · rintro ⟨line, hmem⟩
      exact ⟨_, hmem, rfl⟩
    · rintro ⟨⟨s, line⟩, hmem, rfl⟩
      exact ⟨line, hmem⟩
  have hnodup : ((listAfter ops).map LinkNode.seq).Nodup := by
    rw [List.Nodup, List.pairwise_map]
    exact (listAfter_ascending ops).imp fun hlt => hlt.ne
  rw [hseqs, Set.ncard_coe_finset, List.toFinset_card_of_nodup hnodup, List.length_map, ← hmap,
    List.length_map]

/-- The receive list is a sorted finite map: after every sequence of calls from the empty list. -/
theorem receive_list_sorted_map {L : ℕ} {v : LinkNode} {h₀ h : Heap LinkNode}
    {calls : List ListCall} (hempty : h₀ L = some ⟨v, none⟩)
    (hr : Run (ListCall.run L) (fun _ c => c.Zeroed) h₀ calls h) :
    ∃ xs, SortedMap L (calls.map ListCall.op) h xs := by
  have hl₀ : Linked h₀ L [] := ⟨v, rfl, none, hempty, rfl⟩
  obtain ⟨xs, hl, hmap⟩ := hl₀.calls hr
  have hlist : xs.map Prod.snd = listAfter (calls.map ListCall.op) := hmap
  refine ⟨xs, ?_⟩
  constructor
  case linked =>
    exact hl
  case ascending =>
    rw [hlist]
    exact listAfter_ascending _
  case maps =>
    intro seq line
    rw [hlist]
    exact mem_listAfter
  case inserts =>
    intro seq line block fuel hfresh hzero hfuel
    exact hl.insert seq line.bytes hfresh hzero hfuel
  case deletes =>
    intro port ipAddr fuel hfuel
    obtain ⟨t, hrun, hlinked⟩ := hl.delete port ipAddr hfuel
    rw [dropNode_eq_filter port ipAddr (hlist ▸ (listAfter_ascending _).nodup)] at hlinked
    exact ⟨t, hrun, hlinked⟩
  case duplicate =>
    intro port ipAddr fuel hfuel
    obtain ⟨w, hc⟩ := hl
    rw [duplicateNode_linked port ipAddr hc hfuel]
    split_ifs with hmem
    · rw [duplicateNode_eq_one.mpr hmem]
    · rw [duplicateNode_eq_zero.mpr hmem]
  case length =>
    intro fuel hfuel
    obtain ⟨w, hc⟩ := hl
    rw [linkListLength_linked hc hfuel, live_ncard hlist]
  case order =>
    intro ps qs hperm hnodup cs ds t u hcs hds ht hu
    obtain ⟨ys, hys, hmapy⟩ := hl.calls ht
    obtain ⟨zs, hzs, hmapz⟩ := hl.calls hu
    refine ⟨ys, zs, hys, hzs, ?_⟩
    rw [hmapy, hmapz, hcs, hds]
    exact insertions_order hperm hnodup _

end

def emptyAtOne : Heap LinkNode := fun a => if a = 1 then some ⟨⟨0, []⟩, none⟩ else none

def lineA : LineArg := ⟨[97, 0], by decide, by decide⟩

def lineB : LineArg := ⟨[98, 0], by decide, by decide⟩

/-- Number 2, number 1 in front of it, number 2 with another line, and number 1 removed. -/
def fourCalls : List ListCall :=
  [.insert 2 lineA ⟨2, ⟨⟨9, []⟩, none⟩⟩ 5, .insert 1 lineB ⟨3, ⟨⟨9, []⟩, none⟩⟩ 5,
    .insert 2 lineB ⟨4, ⟨⟨9, []⟩, none⟩⟩ 5, .delete 1 [98] 5]

theorem receive_list_sorted_map_four : ∃ xs, SortedMap 1 (fourCalls.map ListCall.op)
    ((exec (ListCall.run 1) emptyAtOne fourCalls).getD emptyAtOne) xs :=
  receive_list_sorted_map (v := ⟨0, []⟩) rfl (.of_runnable (by decide +kernel) emptyAtOne)

end NetLab.Transfer
