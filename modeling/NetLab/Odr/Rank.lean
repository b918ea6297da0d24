import Mathlib.Algebra.BigOperators.Fin
import Mathlib.Algebra.Order.BigOperators.Group.Finset
import Mathlib.Algebra.Order.BigOperators.Group.List
import NetLab.Lib.Descent
import NetLab.Odr.Relay

/-! A rank of the network state for unforced traffic, ranging over the broadcast ids of the
RREQs in flight, and the bounds on what one delivery adds to it. -/
namespace NetLab.Odr
open NetLab.Lib

/-- The network delivers or loses a frame; it duplicates none and no application sends. -/
def Drain {n : ℕ} (_ : Net n) : Action n → Prop
  | .deliver _ => True
  | .lose _ => True
  | _ => False

def Out.isSend {n : ℕ} : Out n → Bool
  | .send _ _ => true
  | _ => false

/-- The number of frames that ODR nodes send in one step. -/
def framesSent {n : ℕ} (T : Topology n) (s : Net n) : Action n → ℕ
  | .app x m => (onLocal (T.host x) (s.node x) m).2.countP Out.isSend
  | .deliver k => (s.inFlight[k]?.map fun p => (s.receive T p).2.countP Out.isSend).getD 0
  | _ => 0

def missing {n : ℕ} (s : Net n) : ℕ :=
  (Finset.univ.filter fun z : Fin n × Fin n => (s.row z.1 z.2).outgoingIf = 0).card

/-- Rows whose broadcast id lets a RREQ numbered `k` be flooded again. -/
def stale {n : ℕ} (s : Net n) (k : ℕ) : ℕ :=
  (Finset.univ.filter fun z : Fin n × Fin n => (s.row z.1 z.2).broadcastId < k).card

def fanout {n : ℕ} (T : Topology n) : ℕ := (∑ x, T.ifCnt x + 1) * T.interfaces.length

/-- The weight of a RREQ numbered `k`; it is divided among the copies of a re-flood. `m`
bounds the stored hop counts. -/
def Packet.load {n : ℕ} (e m k : ℕ) (p : Packet n) : ℕ :=
  match p.frame.body with
  | .rreq q => if q.broadcastId = k then (e + 1) ^ (m - q.hopCnt) else 0
  | _ => 0

def load {n : ℕ} (e m : ℕ) (s : Net n) (k : ℕ) : ℕ := (s.inFlight.map (Packet.load e m k)).sum

/-- How often a unicast frame can still be delivered. -/
def Packet.hopsLeft {n : ℕ} (s : Net n) (p : Packet n) : ℕ :=
  match p.frame.body.target with
  | some a => if p.dst = a then 1 else (s.row p.dst a).hopCnt + 1
  | none => 0

def hopsLeft {n : ℕ} (s : Net n) : ℕ := (s.inFlight.map (Packet.hopsLeft s)).sum

/-- Lower ids count first: they are the ones that can make later ids flood again. -/
def rank {n : ℕ} (e m b : ℕ) (s : Net n) : Lex (Fin (b + 1) → ℕ ×ₗ ℕ) ×ₗ ℕ :=
  toLex (toLex fun k => toLex (stale s k, load e m s k), hopsLeft s)

theorem sum_eraseIdx {α : Type*} {l : List α} {k : ℕ} {x : α} (h : l[k]? = some x)
    (f : α → ℕ) : (l.map f).sum = f x + ((l.eraseIdx k).map f).sum := by
  obtain ⟨hk, rfl⟩ := List.getElem?_eq_some_iff.mp h
  have hp := ((List.getElem_cons_eraseIdx_perm hk).map f).sum_eq
  rw [← hp, List.map_cons, List.sum_cons]

/-- What is divided among at most `e` copies of lower height is less than the whole. -/
theorem sum_lt_pow {e m : ℕ} {l : List ℕ} (hlen : l.length ≤ e)
    (h : ∀ w ∈ l, w = 0 ∨ ∃ c < m, w = (e + 1) ^ c) : l.sum < (e + 1) ^ m := by
  cases m with
  | zero =>
    have hzero : l.sum = 0 := by
      apply List.sum_eq_zero
      intro w hw
      rcases h w hw with hw0 | ⟨c, hc, _⟩
      · exact hw0
      · omega
    rw [hzero]
    exact Nat.pow_pos (Nat.succ_pos _)
  | succ m =>
    have hpos : 0 < (e + 1) ^ m := Nat.pow_pos (Nat.succ_pos _)
    have hbound : ∀ w ∈ l, w ≤ (e + 1) ^ m := by
      intro w hw
      rcases h w hw with rfl | ⟨c, hc, rfl⟩
      · exact Nat.zero_le _
      · exact Nat.pow_le_pow_right (Nat.succ_pos _) (by omega)
    calc l.sum ≤ l.length • (e + 1) ^ m := List.sum_le_card_nsmul _ _ hbound
      _ ≤ e * (e + 1) ^ m := by
          rw [smul_eq_mul]
          exact Nat.mul_le_mul_right _ hlen
      _ < (e + 1) ^ (m + 1) := by
          rw [Nat.pow_succ, Nat.mul_comm]
          exact Nat.mul_lt_mul_of_pos_left (Nat.lt_succ_self _) hpos

theorem receive_broadcastId {n : ℕ} (T : Topology n) (s : Net n) (p : Packet n) (d : Fin n) :
    ((s.receive T p).1.routingTable d).broadcastId =
      match p.frame.body with
      | .rreq q => if d = q.srcAddr then q.broadcastId else (s.row p.dst d).broadcastId
      | _ => (s.row p.dst d).broadcastId :=
  onFrame_broadcastId (T.host p.dst) (s.node p.dst) p.dstIf p.frame d

/-- A RREQ is flooded on only if its id is new to the row or it improved the row. -/
theorem onRreq_refloods {n : ℕ} {h : Host n} {nd : Node n} {index : ℕ} {mac : Mac}
    {q q' : Rreq n} {i : ℕ} {g : Frame n} (hm : .send i g ∈ (onRreq h nd index mac q).2)
    (hg : g.body = .rreq q') :
    (nd.routingTable q.srcAddr).broadcastId < q.broadcastId ∨
      moreEfficient (nd.routingTable q.srcAddr) q.discovery q.hopCnt index = true := by
  have hans : ∀ {e : RoutingEntry} {fresh : Bool} {c : ℕ} {b : Bool},
      .send i g ∉ answer h e index mac q fresh c b := by
    intro e fresh c b ha
    obtain ⟨_, _, rfl⟩ := send_eq_reply (mem_answer.mp ha).2.2
    cases hg
  rw [onRreq_out] at hm
  by_cases hd : q.dstAddr = some h.node
  · rw [if_pos hd] at hm
    exact absurd hm hans
  · rw [if_neg hd] at hm
    split at hm
    · rcases List.mem_append.mp hm with hm | hm
      · exact absurd hm hans
      · exact .inr (List.mem_ite_nil_right.mp hm).1
    · have hfresh := (List.mem_ite_nil_right.mp hm).1
      simp only [isFresh, learn_broadcastId, Bool.or_eq_true, decide_eq_true_eq,
        Bool.and_eq_true] at hfresh
      exact hfresh.imp_right And.right

theorem onRreq_length {n : ℕ} (h : Host n) (nd : Node n) (index : ℕ) (mac : Mac) (q : Rreq n) :
    (onRreq h nd index mac q).2.length ≤ h.ifCnt + 1 := by
  have hans : ∀ (e : RoutingEntry) (fresh : Bool) (c : ℕ) (b : Bool),
      (answer h e index mac q fresh c b).length ≤ 1 := by
    intro e fresh c b
    unfold answer
    split <;> simp
  have hflood : ∀ (skip : Option ℕ) (q' : Rreq n), (flood h skip q').length ≤ h.ifCnt := by
    intro skip q'
    unfold flood
    rw [List.length_map]
    exact (List.length_filter_le _ _).trans (by simp)
  rw [onRreq_out]
  split
  · exact (hans _ _ _ _).trans (by omega)
  · split
    · rw [List.length_append]
      have h1 := hans (learn (nd.routingTable q.srcAddr) q.discovery q.hopCnt index mac)
        (isFresh (learn (nd.routingTable q.srcAddr) q.discovery q.hopCnt index mac) q
          (moreEfficient (nd.routingTable q.srcAddr) q.discovery q.hopCnt index))
      rename_i route _
      have h1 := h1 route.hopCnt false
      have h2 := hflood (some index) { q with rrepSent := true, hopCnt := q.hopCnt + 1 }
      split
      · omega
      · simp only [List.length_nil]
        omega
    · split
      · exact (hflood _ _).trans (by omega)
      · simp

theorem Topology.interfaces_nodup {n : ℕ} (T : Topology n) : T.interfaces.Nodup := by
  refine List.nodup_flatMap.mpr ⟨?_, ?_⟩
  · intro x _
    exact List.nodup_range.map (fun i j h => by simpa using h)
  · refine (List.nodup_finRange n).imp ?_
    intro x y hne
    simp only [Function.onFun, List.disjoint_left, List.mem_map, not_exists, not_and]
    rintro _ ⟨i, _, rfl⟩ j _ h
    exact hne (congrArg Prod.fst h).symm

theorem Topology.transmit_length {n : ℕ} (T : Topology n) (x : Fin n) (o : Out n) :
    (T.transmit x o).length ≤ T.interfaces.length := by
  cases o with
  | send i f =>
    rw [transmit, List.length_map]
    exact List.length_filter_le _ _
  | toLocal _ _ => exact Nat.zero_le _
  | badIndex => exact Nat.zero_le _

theorem Topology.transmit_unicast {n : ℕ} (T : Topology n) (x : Fin n) {i : ℕ} {f : Frame n}
    (hf : f.dstMac ≠ broadcastMac) : (T.transmit x (.send i f)).length ≤ 1 := by
  rw [transmit, List.length_map, ← List.toFinset_card_of_nodup (T.interfaces_nodup.filter _)]
  apply Finset.card_le_one.mpr
  rintro ⟨y, j⟩ hy ⟨z, k⟩ hz
  simp only [List.mem_toFinset, List.mem_filter, mem_interfaces, accepts, Bool.and_eq_true,
    Bool.or_eq_true, decide_eq_true_eq] at hy hz
  have hmac := (hy.2.2.resolve_left hf).symm.trans (hz.2.2.resolve_left hf)
  obtain ⟨rfl, rfl⟩ := T.mac_inj y j z k hy.1 hz.1 hmac
  rfl

def Net.copies {n : ℕ} (T : Topology n) (s : Net n) (p : Packet n) : List (Packet n) :=
  (s.receive T p).2.flatMap (T.transmit p.dst)

theorem copies_length_rreq {n : ℕ} (T : Topology n) (s : Net n) {p : Packet n} {q : Rreq n}
    (hq : p.frame.body = .rreq q) : (s.copies T p).length ≤ fanout T := by
  have hout : (s.receive T p).2.length ≤ T.ifCnt p.dst + 1 := by
    unfold Net.receive onFrame
    rw [hq]
    exact onRreq_length _ _ _ _ _
  have hif : T.ifCnt p.dst ≤ ∑ x, T.ifCnt x :=
    Finset.single_le_sum (fun x _ => Nat.zero_le (T.ifCnt x)) (Finset.mem_univ p.dst)
  unfold Net.copies fanout
  rw [List.length_flatMap]
  calc ((s.receive T p).2.map fun o => (T.transmit p.dst o).length).sum
      ≤ (s.receive T p).2.length • T.interfaces.length := by
        refine (List.sum_le_card_nsmul _ T.interfaces.length ?_).trans (by simp)
        intro c hc
        obtain ⟨o, _, rfl⟩ := List.mem_map.mp hc
        exact T.transmit_length p.dst o
    _ ≤ (∑ x, T.ifCnt x + 1) * T.interfaces.length := by
        rw [smul_eq_mul]
        exact Nat.mul_le_mul_right _ (by omega)

/-- The RREQs that the delivery of a RREQ puts in flight. -/
theorem copies_rreq {n : ℕ} {T : Topology n} {s : Net n} {p p' : Packet n} {q q' : Rreq n}
    (hq : p.frame.body = .rreq q) (hp' : p' ∈ s.copies T p) (hq' : p'.frame.body = .rreq q') :
    q'.broadcastId = q.broadcastId ∧ q'.hopCnt = q.hopCnt + 1 ∧
      ((s.row p.dst q.srcAddr).broadcastId < q.broadcastId ∨
        moreEfficient (s.row p.dst q.srcAddr) q.discovery q.hopCnt p.dstIf = true) := by
  obtain ⟨o, ho, hp'⟩ := List.mem_flatMap.mp hp'
  obtain ⟨rfl, _⟩ := T.mem_transmit.mp hp'
  have hre : (s.row p.dst q.srcAddr).broadcastId < q.broadcastId ∨
      moreEfficient (s.row p.dst q.srcAddr) q.discovery q.hopCnt p.dstIf = true := by
    have ho' := ho
    unfold Net.receive onFrame at ho'
    rw [hq] at ho'
    exact onRreq_refloods ho' hq'
  generalize p'.srcIf = i at ho
  generalize p'.frame = g at ho hq'
  cases onFrame_sends ho with
  | flood hf _ _ =>
    rw [hq] at hf
    cases hf
    cases hq'
    exact ⟨rfl, rfl, hre⟩
  | answer => cases hq'
  | relay hf => rw [hq] at hf; cases hf

/-- A frame with a target makes one output, which is no frame at the target itself. -/
theorem receive_target {n : ℕ} {T : Topology n} {s : Net n} {p : Packet n} {a : Fin n}
    (ha : p.frame.body.target = some a) :
    ∃ o, (s.receive T p).2 = [o] ∧ (p.dst = a → ∀ i g, o ≠ .send i g) := by
  unfold Net.receive onFrame
  cases hb : p.frame.body with
  | rreq q => rw [hb] at ha; cases ha
  | rrep r =>
    rw [hb] at ha
    cases ha
    dsimp only [onRrep]
    split_ifs with hd
    · exact ⟨_, rfl, by simp⟩
    · exact ⟨_, rfl, fun hd' => absurd hd'.symm hd⟩
  | payload l =>
    rw [hb] at ha
    simp only [Message.target] at ha
    dsimp only [onPayload]
    split_ifs with hd
    · exact ⟨_, rfl, by simp⟩
    · refine ⟨_, rfl, fun hd' => absurd ?_ hd⟩
      rw [ha, ← hd']
      rfl

/-- A RREP or payload is relayed as at most one copy, if the next hop is somebody's. -/
theorem copies_relay {n : ℕ} {T : Topology n} {s : Net n} {p : Packet n} {a : Fin n}
    (ha : p.frame.body.target = some a)
    (hown : p.dst ≠ a → ((s.receive T p).1.routingTable a).outgoingIf ≠ 0 →
      ∃ y, T.Owns y ((s.receive T p).1.routingTable a).nextHop) :
    (s.copies T p).length ≤ 1 ∧ (p.dst = a → s.copies T p = []) := by
  obtain ⟨o, hout, hself⟩ := receive_target (T := T) (s := s) ha
  have hcopies : s.copies T p = T.transmit p.dst o := by
    unfold Net.copies
    rw [hout]
    simp
  rw [hcopies]
  constructor
  · cases o with
    | toLocal _ _ => exact Nat.zero_le _
    | badIndex => exact Nat.zero_le _
    | send i g =>
      have hs : .send i g ∈ (s.receive T p).2 := by simp [hout]
      apply T.transmit_unicast p.dst
      cases onFrame_sends hs with
      | flood hf => rw [hf] at ha; cases ha
      | answer hf => rw [hf] at ha; cases ha
      | @relay b hb hne ho =>
        rw [ha] at hb
        cases hb
        obtain ⟨y, j, hj, hm⟩ := hown (Ne.symm hne) (by unfold Net.receive; omega)
        intro hbr
        exact T.mac_ne_broadcast y j hj (hm.trans hbr)
  · intro hd
    cases o with
    | toLocal _ _ => rfl
    | badIndex => rfl
    | send i g => exact absurd rfl (hself hd i g)

theorem copies_unicast {n : ℕ} {T : Topology n} {s : Net n} (hw : Wired T s) (h : Vouched T s)
    {p : Packet n} (hp : p ∈ s.inFlight) {a : Fin n} (ha : p.frame.body.target = some a) :
    (s.copies T p).length ≤ 1 ∧ (p.dst = a → s.copies T p = []) := by
  apply copies_relay ha
  intro _ ho
  obtain ⟨y, _, hy, _⟩ := receive_row_vouched hw h (.refl s) hp a ho
  exact ⟨y, hy⟩

/-- The bounds that hold while no new row is set. -/
structure Bounded {n : ℕ} (m b : ℕ) (s : Net n) : Prop where
  id : ∀ p ∈ s.inFlight, ∀ q, p.frame.body = .rreq q → q.broadcastId ≤ b
  hop : ∀ x d, (s.row x d).outgoingIf ≠ 0 → (s.row x d).hopCnt ≤ m

theorem exists_bounded {n : ℕ} (s : Net n) : ∃ m b, Bounded m b s := by
  let ids := s.inFlight.map fun p =>
    match p.frame.body with
    | .rreq q => q.broadcastId
    | _ => 0
  refine ⟨∑ z : Fin n × Fin n, (s.row z.1 z.2).hopCnt, ids.sum, ⟨?_, ?_⟩⟩
  · intro p hp q hq
    have hmem : q.broadcastId ∈ ids := List.mem_map.mpr ⟨p, hp, by rw [hq]⟩
    exact List.le_sum_of_mem hmem
  · intro x d _
    exact Finset.single_le_sum (f := fun z : Fin n × Fin n => (s.row z.1 z.2).hopCnt)
      (fun z _ => Nat.zero_le _) (Finset.mem_univ (x, d))

theorem missing_le {n : ℕ} {s t : Net n} (hi : s.Improves t) : missing t ≤ missing s := by
  apply Finset.card_le_card
  intro z hz
  simp only [Finset.mem_filter, Finset.mem_univ, true_and] at hz ⊢
  by_contra hne
  exact (hi z.1 z.2 hne).1 hz

theorem route_of_missing_eq {n : ℕ} {s t : Net n} (hi : s.Improves t)
    (h : missing t = missing s) (x d : Fin n) (hd : (t.row x d).outgoingIf ≠ 0) :
    (s.row x d).outgoingIf ≠ 0 := by
  intro h0
  have hsub : (Finset.univ.filter fun z : Fin n × Fin n => (t.row z.1 z.2).outgoingIf = 0) ⊆
      Finset.univ.filter fun z : Fin n × Fin n => (s.row z.1 z.2).outgoingIf = 0 := by
    intro z hz
    simp only [Finset.mem_filter, Finset.mem_univ, true_and] at hz ⊢
    by_contra hne
    exact (hi z.1 z.2 hne).1 hz
  have heq := Finset.eq_of_subset_of_card_le hsub h.ge
  have hmem : (x, d) ∈ Finset.univ.filter fun z : Fin n × Fin n =>
      (t.row z.1 z.2).outgoingIf = 0 := by
    rw [heq]
    simpa using h0
  exact hd (by simpa using hmem)

end NetLab.Odr
