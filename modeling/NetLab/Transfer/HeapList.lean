import NetLab.Lib.Chain
import NetLab.Lib.Run
import NetLab.Transfer.LinkList

/-! The functions of LinkList.c on a heap, where `malloc` returns a node with any contents. A loop
takes the number of times its condition may be evaluated. -/
namespace NetLab.Transfer
open NetLab.Lib

def recvlineSize : ℕ := 4099

/-- A text that `strcpy` can copy to `recvline`. -/
structure LineArg where
  bytes : List UInt8
  terminated : 0 ∈ bytes
  fits : (cString bytes).length < recvlineSize

/-- What `malloc` returns: an address, and what the memory there holds. -/
structure Block where
  addr : ℕ
  cell : Cell LinkNode
  deriving DecidableEq, Repr

/-- The new node once `seq` and `recvline` are assigned. -/
def Block.fill (b : Block) (seq : ℕ) (recvline : List UInt8) : Cell LinkNode :=
  { b.cell with val := ⟨seq, cString recvline⟩ }

namespace InHeap

/-- `while(head->next!=NULL && head->next->seq<seq) head=head->next`. -/
def seekNode (h : Heap LinkNode) (seq : ℕ) : ℕ → ℕ → Option ℕ
  | 0, _ => none
  | fuel + 1, head => (h head).bind fun n => match n.next with
    | none => some head
    | some next => (h next).bind fun m =>
      if m.val.seq < seq then seekNode h seq fuel next else some head

/-- What follows the loop: the node is linked at the end, in the middle, or not at all. -/
def linkNode (h : Heap LinkNode) (seq : ℕ) (recvline : List UInt8) (b : Block) (head : ℕ) :
    Option (Heap LinkNode) :=
  (h head).bind fun n => match n.next with
    | none => some ((h.set b.addr (b.fill seq recvline)).setNext head (some b.addr))
    | some temp => (h temp).bind fun m =>
      if m.val.seq ≠ seq then
        some (((h.set b.addr (b.fill seq recvline)).setNext head (some b.addr)).setNext b.addr
          (some temp))
      else some h

def insertLinkList (h : Heap LinkNode) (L : ℕ) (seq : ℕ) (recvline : List UInt8) (b : Block)
    (fuel : ℕ) : Option (Heap LinkNode) :=
  (h L).bind fun n => match n.next with
    | none => some (((h.set b.addr (b.fill seq recvline)).setNext b.addr none).setNext L
        (some b.addr))
    | some _ => (seekNode h seq fuel L).bind (linkNode h seq recvline b)

/-- `DeleteSelectedNode`, with `front` where its loop is. -/
def deleteSelectedNode (h : Heap LinkNode) (port : ℕ) (ipAddr : List UInt8) :
    ℕ → ℕ → Option (Heap LinkNode)
  | 0, _ => none
  | fuel + 1, front => (h front).bind fun n => match n.next with
    | none => some h
    | some rear => (h rear).bind fun m =>
      if m.val.seq ≠ port ∨ m.val.recvline ≠ cString ipAddr then
        deleteSelectedNode h port ipAddr fuel rear
      else some ((h.setNext front m.next).free rear)

def duplicateNode (h : Heap LinkNode) (port : ℕ) (ipAddr : List UInt8) : ℕ → ℕ → Option ℕ
  | 0, _ => none
  | fuel + 1, front => (h front).bind fun n => match n.next with
    | none => some 0
    | some rear => (h rear).bind fun m =>
      if m.val.seq ≠ port ∨ m.val.recvline ≠ cString ipAddr then duplicateNode h port ipAddr fuel rear
      else some 1

def countNodes (h : Heap LinkNode) : ℕ → Option ℕ → ℕ → Option ℕ
  | 0, _, _ => none
  | _ + 1, none, len => some len
  | fuel + 1, some temp, len => (h temp).bind fun n => countNodes h fuel n.next (len + 1)

def linkListLength (h : Heap LinkNode) (L fuel : ℕ) : Option ℕ :=
  (h L).bind fun n => countNodes h fuel n.next 0

end InHeap

/-- The chain with a new node, as `InsertLinkList` places it. -/
def placeNode (a seq : ℕ) (recvline : List UInt8) : List (ℕ × LinkNode) → List (ℕ × LinkNode)
  | [] => [(a, ⟨seq, cString recvline⟩)]
  | x :: xs =>
    if x.2.seq < seq then x :: placeNode a seq recvline xs
    else if x.2.seq ≠ seq then (a, ⟨seq, cString recvline⟩) :: x :: xs
    else x :: xs

/-- The chain without the node that `DeleteSelectedNode` selects. -/
def dropNode (port : ℕ) (ipAddr : List UInt8) : List (ℕ × LinkNode) → List (ℕ × LinkNode)
  | [] => []
  | x :: xs =>
    if x.2.seq ≠ port ∨ x.2.recvline ≠ cString ipAddr then x :: dropNode port ipAddr xs else xs

/-- The list at `L` holds these nodes. -/
def Linked (h : Heap LinkNode) (L : ℕ) (xs : List (ℕ × LinkNode)) : Prop :=
  ∃ v, Chain h (some L) ((L, v) :: xs)

/-- A new node is linked behind the last one of a list that is not empty. -/
def AtTail (seq : ℕ) (xs : List (ℕ × LinkNode)) : Prop := xs ≠ [] ∧ ∀ x ∈ xs, x.2.seq < seq

instance (seq : ℕ) (xs : List (ℕ × LinkNode)) : Decidable (AtTail seq xs) :=
  inferInstanceAs (Decidable (_ ∧ _))

theorem map_placeNode (a seq : ℕ) (recvline : List UInt8) (xs : List (ℕ × LinkNode)) :
    (placeNode a seq recvline xs).map Prod.snd = insertLinkList seq recvline (xs.map Prod.snd) := by
  induction xs with
  | nil => rfl
  | cons x xs ih =>
    unfold placeNode insertLinkList
    rw [List.map_cons]
    dsimp only
    split_ifs
    · rw [List.map_cons, ih]
    · rfl
    · rfl

theorem map_dropNode (port : ℕ) (ipAddr : List UInt8) (xs : List (ℕ × LinkNode)) :
    (dropNode port ipAddr xs).map Prod.snd = deleteSelectedNode port ipAddr (xs.map Prod.snd) := by
  induction xs with
  | nil => rfl
  | cons x xs ih =>
    unfold dropNode deleteSelectedNode
    rw [List.map_cons]
    dsimp only
    split_ifs
    · rw [List.map_cons, ih]
    · rfl

theorem mem_placeNode {a seq : ℕ} {recvline : List UInt8} {xs : List (ℕ × LinkNode)}
    {y : ℕ × LinkNode} (hy : y ∈ placeNode a seq recvline xs) :
    y ∈ xs ∨ y = (a, ⟨seq, cString recvline⟩) := by
  induction xs with
  | nil => exact .inr (List.mem_singleton.mp hy)
  | cons x xs ih =>
    unfold placeNode at hy
    split_ifs at hy
    · rcases List.mem_cons.mp hy with rfl | hy
      · exact .inl List.mem_cons_self
      · rcases ih hy with hy | hy
        · exact .inl (List.mem_cons_of_mem _ hy)
        · exact .inr hy
    · rcases List.mem_cons.mp hy with hy | hy
      · exact .inr hy
      · exact .inl hy
    · exact .inl hy

section
variable {h : Heap LinkNode} {seq : ℕ} {recvline : List UInt8} {b : Block}
  {xs : List (ℕ × LinkNode)}

/-- What follows the loop of `InsertLinkList`, where it ends: at the end of the chain the link of
the new node stays as `malloc` left it. -/
theorem linkNode_linked (seq : ℕ) (recvline : List UInt8) {head : ℕ} {v : LinkNode}
    (hc : Chain h (some head) ((head, v) :: xs)) (hfresh : h b.addr = none)
    (hstop : ∀ x ∈ xs.head?, ¬ x.2.seq < seq) :
    ∃ h', InHeap.linkNode h seq recvline b head = some h' ∧
      Segment h' (some head) ((head, v) :: placeNode b.addr seq recvline xs)
        (if ∀ x ∈ xs, x.2.seq < seq then b.cell.next else none) ∧
      ∀ a, a ≠ b.addr → a ≠ head → h' a = h a := by
  cases xs with
  | nil =>
    have hhead := hc.head_last
    obtain ⟨hself, hnew, hother⟩ := Heap.link_fresh hfresh hhead (b.fill seq recvline)
    refine ⟨(h.set b.addr (b.fill seq recvline)).setNext head (some b.addr), ?_, ?_, hother⟩
    · simp [InHeap.linkNode, hhead]
    · refine ⟨rfl, some b.addr, hself, rfl, b.cell.next, hnew, ?_⟩
      simp [Segment]
  | cons x xs =>
    obtain ⟨c, w⟩ := x
    obtain ⟨hhead, hrest, hhne⟩ := hc.head_cons
    obtain ⟨_, r, hcell, _⟩ := chain_cons.mp hrest
    have hlt : ¬ w.seq < seq := hstop (c, w) rfl
    have hnot : ¬ ∀ x ∈ (c, w) :: xs, x.2.seq < seq := fun hall => hlt (hall _ List.mem_cons_self)
    rw [if_neg hnot]
    by_cases heq : w.seq = seq
    · have hplace : placeNode b.addr seq recvline ((c, w) :: xs) = (c, w) :: xs := by
        simp [placeNode, heq]
      rw [hplace]
      refine ⟨h, ?_, hc, fun _ _ _ => rfl⟩
      simp [InHeap.linkNode, hhead, hcell, heq]
    · have hplace : placeNode b.addr seq recvline ((c, w) :: xs) =
          (b.addr, ⟨seq, cString recvline⟩) :: (c, w) :: xs := by
        simp [placeNode, hlt, heq]
      obtain ⟨hself, hnew, hother⟩ := Heap.link_fresh hfresh hhead (b.fill seq recvline)
      have hsame : ∀ a, a ≠ b.addr → a ≠ head →
          (((h.set b.addr (b.fill seq recvline)).setNext head (some b.addr)).setNext b.addr
            (some c)) a = h a := by
        intro a hab hah
        rw [Heap.setNext_of_ne _ hab, hother a hab hah]
      rw [hplace]
      refine ⟨((h.set b.addr (b.fill seq recvline)).setNext head (some b.addr)).setNext b.addr
        (some c), ?_, ?_, hsame⟩
      · simp [InHeap.linkNode, hhead, hcell, heq]
      · refine ⟨rfl, some b.addr, ?_, rfl, some c, Heap.setNext_self hnew (some c), ?_⟩
        · rw [Heap.setNext_of_ne _ (Heap.ne_of_fresh hfresh hhead), hself]
        · apply Segment.congr hrest
          intro x hx
          have hold : x.1 ≠ b.addr := fun hxb => hrest.allocated hx (hxb ▸ hfresh)
          exact hsame x.1 hold (hhne x hx)

/-- The loop of `InsertLinkList` and what follows it. -/
theorem seekNode_linkNode (seq : ℕ) (recvline : List UInt8) {head : ℕ} {v : LinkNode}
    (hc : Chain h (some head) ((head, v) :: xs))
    (hfresh : h b.addr = none) {fuel : ℕ} (hfuel : xs.length < fuel) :
    ∃ h', (InHeap.seekNode h seq fuel head).bind (InHeap.linkNode h seq recvline b) = some h' ∧
      Segment h' (some head) ((head, v) :: placeNode b.addr seq recvline xs)
        (if ∀ x ∈ xs, x.2.seq < seq then b.cell.next else none) ∧
      ∀ a, a ≠ b.addr → a ≠ head → (∀ x ∈ xs, x.1 ≠ a) → h' a = h a := by
  induction xs generalizing head v fuel with
  | nil =>
    have hhead := hc.head_last
    obtain ⟨fuel, rfl⟩ := Nat.exists_eq_succ_of_ne_zero (Nat.ne_of_gt hfuel)
    have hseek : InHeap.seekNode h seq (fuel + 1) head = some head := by
      simp [InHeap.seekNode, hhead]
    obtain ⟨h', hrun, hseg, hsame⟩ := linkNode_linked seq recvline hc hfresh (by simp)
    rw [hseek]
    exact ⟨h', hrun, hseg, fun a hab hah _ => hsame a hab hah⟩
  | cons x xs ih =>
    obtain ⟨c, w⟩ := x
    obtain ⟨hhead, hrest, hhne⟩ := hc.head_cons
    obtain ⟨_, r, hcell, _⟩ := chain_cons.mp hrest
    obtain ⟨fuel, rfl⟩ := Nat.exists_eq_succ_of_ne_zero (Nat.ne_of_gt (Nat.zero_lt_of_lt hfuel))
    by_cases hlt : w.seq < seq
    · have hseek : InHeap.seekNode h seq (fuel + 1) head = InHeap.seekNode h seq fuel c := by
        simp [InHeap.seekNode, hhead, hcell, hlt]
      obtain ⟨h', hrun, hseg, hsame⟩ := ih hrest (Nat.lt_of_succ_lt_succ hfuel)
      rw [List.forall_mem_cons] at hhne
      have hhead' : h' head = some ⟨v, some c⟩ :=
        (hsame head (Heap.ne_of_fresh hfresh hhead) hhne.1.symm hhne.2).trans hhead
      have hplace : placeNode b.addr seq recvline ((c, w) :: xs) =
          (c, w) :: placeNode b.addr seq recvline xs := if_pos hlt
      rw [hseek, hplace]
      simp only [List.forall_mem_cons, hlt, true_and]
      refine ⟨h', hrun, ⟨rfl, some c, hhead', hseg⟩, ?_⟩
      intro a hab hah hax
      exact hsame a hab hax.1.symm hax.2
    · have hseek : InHeap.seekNode h seq (fuel + 1) head = some head := by
        simp [InHeap.seekNode, hhead, hcell, hlt]
      have hstop : ∀ x ∈ ((c, w) :: xs).head?, ¬ x.2.seq < seq := by
        intro x hx
        cases hx
        exact hlt
      obtain ⟨h', hrun, hseg, hsame⟩ := linkNode_linked seq recvline hc hfresh hstop
      rw [hseek]
      exact ⟨h', hrun, hseg, fun a hab hah _ => hsame a hab hah⟩

theorem insertLinkList_linked (seq : ℕ) (recvline : List UInt8) {L : ℕ} {v : LinkNode}
    (hc : Chain h (some L) ((L, v) :: xs))
    (hfresh : h b.addr = none) {fuel : ℕ} (hfuel : xs.length < fuel) :
    ∃ h', InHeap.insertLinkList h L seq recvline b fuel = some h' ∧
      Segment h' (some L) ((L, v) :: placeNode b.addr seq recvline xs)
        (if AtTail seq xs then b.cell.next else none) := by
  cases xs with
  | nil =>
    have hhead := hc.head_last
    have hne : L ≠ b.addr := Heap.ne_of_fresh hfresh hhead
    have htail : ¬ AtTail seq ([] : List (ℕ × LinkNode)) := fun htail => htail.1 rfl
    refine ⟨((h.set b.addr (b.fill seq recvline)).setNext b.addr none).setNext L (some b.addr),
      ?_, ?_⟩
    · simp [InHeap.insertLinkList, hhead]
    · rw [if_neg htail]
      refine ⟨rfl, some b.addr, ?_, rfl, none, ?_, rfl⟩
      · have hL : ((h.set b.addr (b.fill seq recvline)).setNext b.addr none) L =
            some ⟨v, none⟩ := by
          rw [Heap.setNext_of_ne _ hne, Heap.set_of_ne _ hne, hhead]
        exact Heap.setNext_self hL (some b.addr)
      · rw [Heap.setNext_of_ne _ hne.symm]
        exact Heap.setNext_self (Heap.set_self _) none
  | cons x xs =>
    obtain ⟨h', hrun, hseg, _⟩ := seekNode_linkNode seq recvline hc hfresh hfuel
    have hhead := hc.head_cons.1
    have htail : AtTail seq (x :: xs) ↔ ∀ y ∈ x :: xs, y.2.seq < seq :=
      and_iff_right (List.cons_ne_nil x xs)
    refine ⟨h', ?_, ?_⟩
    · rw [← hrun]
      simp [InHeap.insertLinkList, hhead]
    · simp only [htail]
      exact hseg

theorem deleteSelectedNode_linked {front : ℕ} {v : LinkNode} (port : ℕ) (ipAddr : List UInt8)
    (hc : Chain h (some front) ((front, v) :: xs)) {fuel : ℕ} (hfuel : xs.length < fuel) :
    ∃ h', InHeap.deleteSelectedNode h port ipAddr fuel front = some h' ∧
      Chain h' (some front) ((front, v) :: dropNode port ipAddr xs) ∧
      ∀ a, a ≠ front → (∀ x ∈ xs, x.1 ≠ a) → h' a = h a := by
  induction xs generalizing front v fuel with
  | nil =>
    have hfront := hc.head_last
    obtain ⟨fuel, rfl⟩ := Nat.exists_eq_succ_of_ne_zero (Nat.ne_of_gt hfuel)
    refine ⟨h, ?_, hc, fun _ _ _ => rfl⟩
    simp [InHeap.deleteSelectedNode, hfront]
  | cons x xs ih =>
    obtain ⟨c, w⟩ := x
    obtain ⟨hfront, hrest, hfne⟩ := hc.head_cons
    obtain ⟨_, r, hcell, hxs⟩ := chain_cons.mp hrest
    rw [List.forall_mem_cons] at hfne
    obtain ⟨fuel, rfl⟩ := Nat.exists_eq_succ_of_ne_zero (Nat.ne_of_gt (Nat.zero_lt_of_lt hfuel))
    by_cases hmiss : w.seq ≠ port ∨ w.recvline ≠ cString ipAddr
    · obtain ⟨h', hrun, hchain, hsame⟩ := ih hrest (Nat.lt_of_succ_lt_succ hfuel)
      have hdrop : dropNode port ipAddr ((c, w) :: xs) = (c, w) :: dropNode port ipAddr xs :=
        if_pos hmiss
      have hfront' : h' front = some ⟨v, some c⟩ :=
        (hsame front hfne.1.symm hfne.2).trans hfront
      refine ⟨h', ?_, ?_, ?_⟩
      · rw [← hrun]
        simp [InHeap.deleteSelectedNode, hfront, hcell, hmiss]
      · rw [hdrop]
        exact ⟨rfl, some c, hfront', hchain⟩
      · intro a haf hax
        rw [List.forall_mem_cons] at hax
        exact hsame a hax.1.symm hax.2
    · have hdrop : dropNode port ipAddr ((c, w) :: xs) = xs := if_neg hmiss
      have hcne : ∀ x ∈ xs, x.1 ≠ c := by
        have hnodup := hrest.nodup
        rw [List.map_cons, List.nodup_cons] at hnodup
        exact fun x hx heq => hnodup.1 (List.mem_map.mpr ⟨x, hx, heq⟩)
      refine ⟨(h.setNext front r).free c, ?_, ?_, ?_⟩
      · simp [InHeap.deleteSelectedNode, hfront, hcell, hmiss]
      · rw [hdrop]
        refine ⟨rfl, r, ?_, ?_⟩
        · rw [Heap.free_of_ne hfne.1.symm, Heap.setNext_self hfront]
        · apply Segment.congr hxs
          intro x hx
          rw [Heap.free_of_ne (hcne x hx), Heap.setNext_of_ne _ (hfne.2 x hx)]
      · intro a haf hax
        rw [List.forall_mem_cons] at hax
        rw [Heap.free_of_ne hax.1.symm, Heap.setNext_of_ne _ haf]

theorem duplicateNode_linked {front : ℕ} {v : LinkNode} (port : ℕ) (ipAddr : List UInt8)
    (hc : Chain h (some front) ((front, v) :: xs)) {fuel : ℕ} (hfuel : xs.length < fuel) :
    InHeap.duplicateNode h port ipAddr fuel front =
      some (duplicateNode port ipAddr (xs.map Prod.snd)) := by
  induction xs generalizing front v fuel with
  | nil =>
    have hfront := hc.head_last
    obtain ⟨fuel, rfl⟩ := Nat.exists_eq_succ_of_ne_zero (Nat.ne_of_gt hfuel)
    simp [InHeap.duplicateNode, duplicateNode, hfront]
  | cons x xs ih =>
    obtain ⟨c, w⟩ := x
    obtain ⟨hfront, hcx, _⟩ := hc.head_cons
    obtain ⟨_, r, hcell, _⟩ := chain_cons.mp hcx
    obtain ⟨fuel, rfl⟩ := Nat.exists_eq_succ_of_ne_zero (Nat.ne_of_gt (Nat.zero_lt_of_lt hfuel))
    have hrest := ih hcx (Nat.lt_of_succ_lt_succ hfuel)
    by_cases hmiss : w.seq ≠ port ∨ w.recvline ≠ cString ipAddr
    · simp only [InHeap.duplicateNode, hfront, hcell, Option.bind_some, if_pos hmiss, hrest,
        List.map_cons, duplicateNode]
    · simp only [InHeap.duplicateNode, hfront, hcell, Option.bind_some, if_neg hmiss,
        List.map_cons, duplicateNode]

theorem countNodes_chain {p : Option ℕ} (hc : Chain h p xs) {fuel : ℕ} (hfuel : xs.length < fuel)
    (len : ℕ) : InHeap.countNodes h fuel p len = some (len + xs.length) := by
  induction xs generalizing p fuel len with
  | nil =>
    have hnull : p = none := hc
    subst hnull
    obtain ⟨fuel, rfl⟩ := Nat.exists_eq_succ_of_ne_zero (Nat.ne_of_gt hfuel)
    rfl
  | cons x xs ih =>
    obtain ⟨c, w⟩ := x
    obtain ⟨rfl, r, hcell, hxs⟩ := hc
    obtain ⟨fuel, rfl⟩ := Nat.exists_eq_succ_of_ne_zero (Nat.ne_of_gt (Nat.zero_lt_of_lt hfuel))
    have hrest := ih hxs (Nat.lt_of_succ_lt_succ hfuel) (len + 1)
    have hlen : len + 1 + xs.length = len + (xs.length + 1) := by omega
    simp only [InHeap.countNodes, hcell, Option.bind_some, hrest, hlen, List.length_cons]

theorem linkListLength_linked {L : ℕ} {v : LinkNode} (hc : Chain h (some L) ((L, v) :: xs))
    {fuel : ℕ} (hfuel : xs.length < fuel) : InHeap.linkListLength h L fuel = some xs.length := by
  obtain ⟨_, r, hL, hxs⟩ := hc
  unfold InHeap.linkListLength
  rw [hL, Option.bind_some, countNodes_chain hxs hfuel, Nat.zero_add]

theorem seekNode_mono {fuel fuel' head last : ℕ} (hle : fuel ≤ fuel')
    (hrun : InHeap.seekNode h seq fuel head = some last) :
    InHeap.seekNode h seq fuel' head = some last := by
  induction fuel generalizing head fuel' with
  | zero => cases hrun
  | succ fuel ih =>
    have hpos : fuel' ≠ 0 := Nat.ne_of_gt (Nat.lt_of_lt_of_le (Nat.succ_pos fuel) hle)
    obtain ⟨fuel', rfl⟩ := Nat.exists_eq_succ_of_ne_zero hpos
    unfold InHeap.seekNode at hrun ⊢
    obtain ⟨n, hn, hrun⟩ := Option.bind_eq_some_iff.mp hrun
    rw [hn, Option.bind_some]
    cases hnext : n.next with
    | none => simpa [hnext] using hrun
    | some next =>
      simp only [hnext] at hrun ⊢
      obtain ⟨m, hm, hrun⟩ := Option.bind_eq_some_iff.mp hrun
      rw [hm, Option.bind_some]
      split_ifs at hrun ⊢ with hlt
      · exact ih (Nat.le_of_succ_le_succ hle) hrun
      · exact hrun

theorem insertLinkList_mono {t : Heap LinkNode} {L fuel fuel' : ℕ} (hle : fuel ≤ fuel')
    (hrun : InHeap.insertLinkList h L seq recvline b fuel = some t) :
    InHeap.insertLinkList h L seq recvline b fuel' = some t := by
  unfold InHeap.insertLinkList at hrun ⊢
  obtain ⟨n, hn, hrun⟩ := Option.bind_eq_some_iff.mp hrun
  rw [hn, Option.bind_some]
  cases hnext : n.next with
  | none => simpa [hnext] using hrun
  | some next =>
    simp only [hnext] at hrun ⊢
    obtain ⟨head, hhead, hrun⟩ := Option.bind_eq_some_iff.mp hrun
    rw [seekNode_mono hle hhead, Option.bind_some]
    exact hrun

theorem deleteSelectedNode_mono {t : Heap LinkNode} {port : ℕ} {ipAddr : List UInt8}
    {fuel fuel' front : ℕ} (hle : fuel ≤ fuel')
    (hrun : InHeap.deleteSelectedNode h port ipAddr fuel front = some t) :
    InHeap.deleteSelectedNode h port ipAddr fuel' front = some t := by
  induction fuel generalizing front fuel' with
  | zero => cases hrun
  | succ fuel ih =>
    have hpos : fuel' ≠ 0 := Nat.ne_of_gt (Nat.lt_of_lt_of_le (Nat.succ_pos fuel) hle)
    obtain ⟨fuel', rfl⟩ := Nat.exists_eq_succ_of_ne_zero hpos
    unfold InHeap.deleteSelectedNode at hrun ⊢
    obtain ⟨n, hn, hrun⟩ := Option.bind_eq_some_iff.mp hrun
    rw [hn, Option.bind_some]
    cases hnext : n.next with
    | none => simpa [hnext] using hrun
    | some rear =>
      simp only [hnext] at hrun ⊢
      obtain ⟨m, hm, hrun⟩ := Option.bind_eq_some_iff.mp hrun
      rw [hm, Option.bind_some]
      split_ifs at hrun ⊢ with hmiss
      · exact ih (Nat.le_of_succ_le_succ hle) hrun
      · exact hrun

end

end NetLab.Transfer
