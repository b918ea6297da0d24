import NetLab.Odr.Handlers

/-! One ODR process on its own, fed with any frames and local datagrams in any order. -/
namespace NetLab.Odr
open NetLab.Lib

/-- What `select` reports: a frame on the interface socket `index`, or a local datagram. -/
inductive NodeEvent (n : ℕ) where
  | frame (index : ℕ) (f : Frame n)
  | app (m : LocalMsg n)
  deriving DecidableEq, Repr

/-- One iteration of the `select` loop. -/
def Node.react {n : ℕ} (h : Host n) (nd : Node n) : NodeEvent n → Node n × List (Out n)
  | .frame index f => onFrame h nd index f
  | .app m => onLocal h nd m

def Node.run {n : ℕ} (h : Host n) (nd : Node n) (es : List (NodeEvent n)) : Node n :=
  es.foldl (fun nd e => (nd.react h e).1) nd

def NodeEvent.idFrom {n : ℕ} (d : Fin n) : NodeEvent n → Option ℕ
  | .frame _ f => match f.body with
    | .rreq q => if d = q.srcAddr then some q.broadcastId else none
    | _ => none
  | .app _ => none

/-- The ids of the RREQs from `d`, in the order in which they are received. -/
def idsFrom {n : ℕ} (d : Fin n) (es : List (NodeEvent n)) : List ℕ :=
  es.filterMap (NodeEvent.idFrom d)

/-- The event is a copy of a RREQ that does not update the reverse route. -/
def Node.Repeats {n : ℕ} (nd : Node n) (src : Fin n) (id : ℕ) : NodeEvent n → Prop
  | .frame index f => ∃ q, f.body = .rreq q ∧ q.srcAddr = src ∧ q.broadcastId = id ∧
      moreEfficient (nd.routingTable src) q.discovery q.hopCnt index = false
  | .app _ => False

/-- A copy of a RREQ that was received before, and does not update the reverse route, is neither
flooded nor answered. -/
def Suppresses {n : ℕ} (h : Host n) (nd : Node n) (es : List (NodeEvent n)) : Prop :=
  ∀ bs e cs, es = bs ++ e :: cs → ∀ src, ∀ id ∈ idsFrom src bs,
    (nd.run h bs).Repeats src id e → ((nd.run h bs).react h e).2 = []

section
variable {n : ℕ} {h : Host n} {nd : Node n}

@[simp] theorem run_nil : nd.run h [] = nd := rfl

@[simp] theorem run_cons (e : NodeEvent n) (es : List (NodeEvent n)) :
    nd.run h (e :: es) = (nd.react h e).1.run h es := rfl

@[simp] theorem run_append (es es' : List (NodeEvent n)) :
    nd.run h (es ++ es') = (nd.run h es).run h es' := List.foldl_append

theorem react_broadcastId (e : NodeEvent n) (d : Fin n) :
    ((nd.react h e).1.routingTable d).broadcastId =
      (e.idFrom d).getD (nd.routingTable d).broadcastId := by
  cases e with
  | app m => exact congrArg (fun t => (t d).broadcastId) (onLocal_routingTable h nd m)
  | frame index f =>
    simp only [Node.react, onFrame_broadcastId, NodeEvent.idFrom]
    cases f.body with
    | rreq q => by_cases hd : d = q.srcAddr <;> simp [hd]
    | rrep r => rfl
    | payload l => rfl

theorem run_broadcastId (es : List (NodeEvent n)) (d : Fin n) :
    ((nd.run h es).routingTable d).broadcastId =
      (idsFrom d es).getLastD (nd.routingTable d).broadcastId := by
  induction es generalizing nd with
  | nil => rfl
  | cons e es ih =>
    rw [run_cons, ih, react_broadcastId]
    unfold idsFrom
    rw [List.filterMap_cons]
    cases e.idFrom d with
    | none => rfl
    | some id => exact List.getLastD_cons.symm

theorem monotone_succ_iff {f : ℕ → ℕ} : Monotone f ↔ f 0 ≤ f 1 ∧ Monotone fun k => f (k + 1) := by
  constructor
  · intro h
    exact ⟨h (Nat.zero_le 1), fun i j hij => h (Nat.succ_le_succ hij)⟩
  · intro ⟨h₀, h⟩
    refine monotone_nat_of_le_succ fun k => ?_
    cases k with
    | zero => exact h₀
    | succ k => exact h (Nat.le_succ k)

theorem monotone_broadcastId_iff (es : List (NodeEvent n)) (d : Fin n) :
    Monotone (fun k => ((nd.run h (es.take k)).routingTable d).broadcastId) ↔
      ((nd.routingTable d).broadcastId :: idsFrom d es).IsChain (· ≤ ·) := by
  induction es generalizing nd with
  | nil =>
    refine iff_of_true ?_ (by simp [idsFrom])
    simp only [List.take_nil]
    exact monotone_const
  | cons e es ih =>
    rw [monotone_succ_iff]
    simp only [List.take_zero, List.take_succ_cons, run_nil, run_cons, ih, react_broadcastId]
    unfold idsFrom
    rw [List.filterMap_cons]
    cases e.idFrom d with
    | none => simp
    | some id => exact List.isChain_cons_cons.symm

theorem le_getLastD {l : List ℕ} {a : ℕ} (h : (a :: l).IsChain (· ≤ ·)) :
    ∀ x ∈ a :: l, x ≤ l.getLastD a := by
  induction l generalizing a with
  | nil => simp
  | cons b l ih =>
    obtain ⟨hab, hl⟩ := List.isChain_cons_cons.mp h
    intro x hx
    rw [List.getLastD_cons]
    rcases List.mem_cons.mp hx with rfl | hx
    · exact hab.trans (ih hl b (by simp))
    · exact ih hl x hx

theorem onRreq_repeated {index : ℕ} (mac : Mac) {q : Rreq n}
    (hid : q.broadcastId ≤ (nd.routingTable q.srcAddr).broadcastId)
    (hslow : moreEfficient (nd.routingTable q.srcAddr) q.discovery q.hopCnt index = false) :
    (onRreq h nd index mac q).2 = [] := by
  have hfresh : isFresh (learn (nd.routingTable q.srcAddr) q.discovery q.hopCnt index mac) q false =
      false := by
    simp [isFresh, hid]
  rw [onRreq_out]
  simp only [hslow, hfresh, answer, Bool.and_false, Bool.false_eq_true, if_false, List.append_nil]
  split_ifs
  · rfl
  · split <;> rfl

/-- A run suppresses duplicates, and the ids in its rows never decrease, if and only if the ids of
every source arrive in ascending order, from the one that the row holds at the start. -/
theorem duplicates_suppressed_iff (h : Host n) (nd : Node n) (es : List (NodeEvent n)) :
    ((∀ d, Monotone fun k => ((nd.run h (es.take k)).routingTable d).broadcastId) ∧
        Suppresses h nd es) ↔
      ∀ d, ((nd.routingTable d).broadcastId :: idsFrom d es).IsChain (· ≤ ·) := by
  simp only [monotone_broadcastId_iff]
  refine ⟨fun hboth => hboth.1, fun hchain => ⟨hchain, ?_⟩⟩
  rintro bs e cs rfl src id hid hrep
  cases e with
  | app m => cases hrep
  | frame index f =>
    obtain ⟨q, hq, rfl, rfl, hslow⟩ := hrep
    have hle : q.broadcastId ≤ ((nd.run h bs).routingTable q.srcAddr).broadcastId := by
      have hids := hchain q.srcAddr
      unfold idsFrom at hids
      rw [List.filterMap_append, ← List.cons_append] at hids
      rw [run_broadcastId]
      exact le_getLastD hids.left_of_append _ (List.mem_cons_of_mem _ hid)
    simp only [Node.react, onFrame, hq]
    exact onRreq_repeated f.srcMac hle hslow

end

def relayHost : Host 3 := ⟨vm 1, 3, fun i => i, .little⟩

def freshNode : Node 3 := ⟨0, 6000, fun _ => ⟨0, 0, 0, 0⟩, [serverEntry], [], sockaddrUnSize⟩

def requestCopy (id hops : ℕ) : NodeEvent 3 :=
  .frame 0 ⟨broadcastMac, 100, .rreq ⟨vm 0, some (vm 2), 6000, id, hops, false, false⟩⟩

theorem duplicates_suppressed_twice :
    ((freshNode.run relayHost [requestCopy 1 0, requestCopy 2 0]).react relayHost
      (requestCopy 2 3)).2 = [] := by
  have hspec := (duplicates_suppressed_iff relayHost freshNode
    [requestCopy 1 0, requestCopy 2 0, requestCopy 2 3]).mpr (by decide)
  exact hspec.2 [requestCopy 1 0, requestCopy 2 0] (requestCopy 2 3) [] rfl (vm 0) 2 (by decide)
    ⟨_, rfl, rfl, rfl, by decide⟩

/-- Request 2 arrives, a late copy of request 1, and a late copy of request 2. -/
def interleaved : List (NodeEvent 3) := [requestCopy 2 0, requestCopy 1 3, requestCopy 2 4]

/-- The id falls from 2 to 1, and request 2 is flooded once more. -/
theorem duplicate_flooded :
    (¬ Monotone fun k =>
        ((freshNode.run relayHost (interleaved.take k)).routingTable (vm 0)).broadcastId) ∧
      ¬ Suppresses relayHost freshNode interleaved := by
  constructor
  · intro h
    have hle := h (show 1 ≤ 2 by decide)
    revert hle
    decide
  · intro h
    have hnil := h (interleaved.take 2) (requestCopy 2 4) [] rfl (vm 0) 2 (by decide)
      ⟨_, rfl, rfl, rfl, by decide⟩
    revert hnil
    decide

/-- What copies of one RREQ can differ in. -/
structure RreqCopy where
  index : ℕ
  dstMac : Mac
  srcMac : Mac
  srcPort : ℕ
  hopCnt : ℕ
  rrepSent : Bool

def RreqCopy.forced {n : ℕ} (src : Fin n) (dst : Option (Fin n)) (id : ℕ) (c : RreqCopy) :
    NodeEvent n :=
  .frame c.index ⟨c.dstMac, c.srcMac, .rreq ⟨src, dst, c.srcPort, id, c.hopCnt, c.rrepSent, true⟩⟩

theorem react_forced {n : ℕ} (h : Host n) (nd : Node n) (src : Fin n) (dst : Option (Fin n)) (id : ℕ)
    (c : RreqCopy) : ((nd.react h (c.forced src dst id)).1.routingTable src).route =
      (c.srcMac, c.index + 3, c.hopCnt + 1) := by
  simp only [Node.react, RreqCopy.forced, onFrame_route, learned, Message.advert, if_true]
  rw [learn_of_moreEfficient _ (by simp [moreEfficient])]
  rfl

/-- The copy of a forced RREQ that is processed last decides: the row has the smallest hop count if
and only if that copy does, and the order does not matter if and only if all copies agree. -/
theorem forced_last_copy_wins {n : ℕ} (h : Host n) (nd : Node n) (src : Fin n) (dst : Option (Fin n))
    (id : ℕ) (cs : List RreqCopy) (c : RreqCopy) :
    let row := fun cs : List RreqCopy =>
      (nd.run h (cs.map (RreqCopy.forced src dst id))).routingTable src
    (row (cs ++ [c])).route = (c.srcMac, c.index + 3, c.hopCnt + 1) ∧
      (IsLeast {k | ∃ c' ∈ cs ++ [c], k = c'.hopCnt + 1} (row (cs ++ [c])).hopCnt ↔
        ∀ c' ∈ cs, c.hopCnt ≤ c'.hopCnt) ∧
      ((∀ cs', cs'.Perm (cs ++ [c]) → (row cs').hopCnt = (row (cs ++ [c])).hopCnt) ↔
        ∀ c' ∈ cs, c'.hopCnt = c.hopCnt) := by
  intro row
  have hroute : ∀ cs c, (row (cs ++ [c])).route = (c.srcMac, c.index + 3, c.hopCnt + 1) := by
    intro cs c
    simp only [row, List.map_append, run_append]
    exact react_forced h _ src dst id c
  have hhop : ∀ cs c, (row (cs ++ [c])).hopCnt = c.hopCnt + 1 := fun cs c =>
    congrArg (fun r => r.2.2) (hroute cs c)
  refine ⟨hroute cs c, ?_, ?_⟩
  · rw [hhop]
    constructor
    · intro hleast c' hc'
      exact Nat.succ_le_succ_iff.mp (hleast.2 ⟨c', by simp [hc'], rfl⟩)
    · intro hmin
      refine ⟨⟨c, by simp, rfl⟩, ?_⟩
      rintro _ ⟨c', hc', rfl⟩
      rcases List.mem_append.mp hc' with hc' | hc'
      · exact Nat.succ_le_succ (hmin c' hc')
      · rw [List.mem_singleton.mp hc']
  · constructor
    · intro hall c' hc'
      obtain ⟨as, bs, rfl⟩ := List.append_of_mem hc'
      have hperm : ((as ++ bs ++ [c]) ++ [c']).Perm ((as ++ c' :: bs) ++ [c]) := by
        refine (List.perm_append_singleton c' _).trans ?_
        rw [List.append_assoc, List.append_assoc]
        exact List.perm_middle.symm
      have heq := hall _ hperm
      rw [hhop, hhop] at heq
      exact Nat.succ_injective heq
    · intro hsame cs' hperm
      cases cs' using List.reverseRecOn with
      | nil => exact absurd hperm.length_eq (by simp)
      | append_singleton cs' d _ =>
        rw [hhop, hhop]
        have hd := hperm.mem_iff.mp (show d ∈ cs' ++ [d] by simp)
        rcases List.mem_append.mp hd with hd | hd
        · rw [hsame d hd]
        · rw [List.mem_singleton.mp hd]

/-- A copy over one hop, and one over six. -/
def nearCopy : RreqCopy := ⟨0, broadcastMac, 100, 6000, 0, false⟩

def farCopy : RreqCopy := ⟨1, broadcastMac, 200, 6000, 5, false⟩

/-- The hop count that the copies leave in the row of their source. -/
def hopsAfter (cs : List RreqCopy) : ℕ :=
  ((freshNode.run relayHost (cs.map (RreqCopy.forced (vm 0) (some (vm 2)) 1))).routingTable
    (vm 0)).hopCnt

theorem forced_longer_route_kept : hopsAfter [farCopy, nearCopy] = 1 ∧
    hopsAfter [nearCopy, farCopy] = 6 ∧
      ¬ hopsAfter [nearCopy, farCopy] = 1 + min nearCopy.hopCnt farCopy.hopCnt := by
  decide

end NetLab.Odr
