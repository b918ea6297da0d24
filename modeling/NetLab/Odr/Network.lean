import Mathlib.Data.List.FinRange
import Mathlib.Data.Nat.Pairing
import NetLab.Lib.Run
import NetLab.Lib.Walk
import NetLab.Odr.Node

/-! ODR processes on a finite topology. A frame sent on an interface is put in flight once
for every other interface of that LAN that accepts its destination address. -/
namespace NetLab.Odr
open NetLab.Lib

/-- Interfaces `i < ifCnt x` of each node, the LAN each is attached to, and its MAC. -/
structure Topology (n : ℕ) where
  ifCnt : Fin n → ℕ
  lan : Fin n → ℕ → ℕ
  mac : Fin n → ℕ → Mac
  order : Fin n → ByteOrder
  mac_inj : ∀ x i y j, i < ifCnt x → j < ifCnt y → mac x i = mac y j → x = y ∧ i = j
  mac_ne_broadcast : ∀ x i, i < ifCnt x → mac x i ≠ broadcastMac

def Topology.host {n : ℕ} (T : Topology n) (x : Fin n) : Host n :=
  ⟨x, T.ifCnt x, T.mac x, T.order x⟩

/-- Node `x` owns the address `m`. -/
def Topology.Owns {n : ℕ} (T : Topology n) (x : Fin n) (m : Mac) : Prop :=
  ∃ i < T.ifCnt x, T.mac x i = m

/-- One LAN hop: two different interfaces attached to the same LAN. -/
def Topology.Hop {n : ℕ} (T : Topology n) (x y : Fin n) : Prop :=
  ∃ i < T.ifCnt x, ∃ j < T.ifCnt y, T.lan x i = T.lan y j ∧ (x, i) ≠ (y, j)

/-- A copy of a frame on its way from interface `srcIf` of `src` to `dstIf` of `dst`. -/
structure Packet (n : ℕ) where
  src : Fin n
  srcIf : ℕ
  dst : Fin n
  dstIf : ℕ
  frame : Frame n
  deriving DecidableEq, Repr

def Topology.interfaces {n : ℕ} (T : Topology n) : List (Fin n × ℕ) :=
  (List.finRange n).flatMap fun y => (List.range (T.ifCnt y)).map fun j => (y, j)

def Topology.accepts {n : ℕ} (T : Topology n) (x : Fin n) (i : ℕ) (m : Mac)
    (p : Fin n × ℕ) : Bool :=
  decide (T.lan p.1 p.2 = T.lan x i) && decide (p ≠ (x, i)) &&
    (decide (m = broadcastMac) || decide (m = T.mac p.1 p.2))

def Topology.transmit {n : ℕ} (T : Topology n) (x : Fin n) : Out n → List (Packet n)
  | .send i f => (T.interfaces.filter (T.accepts x i f.dstMac)).map fun p => ⟨x, i, p.1, p.2, f⟩
  | _ => []

structure Net (n : ℕ) where
  node : Fin n → Node n
  inFlight : List (Packet n)

/-- Local datagrams and the choices of the network. Frames are delivered in any order. -/
inductive Action (n : ℕ) where
  | app (x : Fin n) (m : LocalMsg n)
  | deliver (k : ℕ)
  | duplicate (k : ℕ)
  | lose (k : ℕ)
  deriving DecidableEq, Repr

def Net.act {n : ℕ} (T : Topology n) (s : Net n) (x : Fin n) (r : Node n × List (Out n)) :
    Net n :=
  ⟨Function.update s.node x r.1, s.inFlight ++ r.2.flatMap (T.transmit x)⟩

def Net.receive {n : ℕ} (T : Topology n) (s : Net n) (p : Packet n) :
    Node n × List (Out n) :=
  onFrame (T.host p.dst) (s.node p.dst) p.dstIf p.frame

def Net.drop {n : ℕ} (s : Net n) (k : ℕ) : Net n := { s with inFlight := s.inFlight.eraseIdx k }

def Net.step {n : ℕ} (T : Topology n) (s : Net n) : Action n → Option (Net n)
  | .app x m => some (s.act T x (onLocal (T.host x) (s.node x) m))
  | .deliver k => s.inFlight[k]?.map fun p => (s.drop k).act T p.dst (s.receive T p)
  | .duplicate k => s.inFlight[k]?.map fun p => { s with inFlight := p :: s.inFlight }
  | .lose k => s.inFlight[k]?.map fun _ => s.drop k

/-- No route anywhere and nothing in flight; every other variable is arbitrary. -/
def Net.Initial {n : ℕ} (s : Net n) : Prop :=
  (∀ x d, ((s.node x).routingTable d).outgoingIf = 0) ∧ s.inFlight = []

/-- The application does not force a route discovery. -/
def Unforced {n : ℕ} (_ : Net n) : Action n → Prop
  | .app _ m => m.flag ≠ 1
  | _ => True

def Net.row {n : ℕ} (s : Net n) (x d : Fin n) : RoutingEntry := (s.node x).routingTable d

/-- The topology in which `lans x` lists the LANs of the interfaces of node `x`. -/
def Topology.ofLans {n : ℕ} (lans : Fin n → List ℕ) : Topology n where
  ifCnt x := (lans x).length
  lan x i := (lans x).getD i 0
  mac x i := 2 * Nat.pair x i
  order _ := .little
  mac_inj := by
    intro x i y j _ _ h
    obtain ⟨hx, hi⟩ := Nat.pair_eq_pair.mp (Nat.mul_left_cancel (by decide) h)
    exact ⟨Fin.ext hx, hi⟩
  mac_ne_broadcast := by
    intro x i _
    have hodd : 2 * Nat.pair x i ≠ 281474976710655 := by omega
    exact hodd

/-- The node in position `k` of `vm_addr`. -/
def vm {n : ℕ} (k : ℕ) : Fin (n + 1) := ⟨k % (n + 1), Nat.mod_lt k (Nat.succ_pos n)⟩

def Net.started (n : ℕ) : Net n :=
  ⟨fun _ => ⟨0, 6000, fun _ => ⟨0, 0, 0, 0⟩, [serverEntry], [], sockaddrUnSize⟩, []⟩

theorem Net.started_initial (n : ℕ) : (started n).Initial := ⟨fun _ _ => rfl, rfl⟩

theorem Topology.hop_symm {n : ℕ} (T : Topology n) (x y : Fin n) (h : T.Hop x y) :
    T.Hop y x := by
  obtain ⟨i, hi, j, hj, hl, hne⟩ := h
  exact ⟨j, hj, i, hi, hl.symm, hne.symm⟩

theorem Topology.owns_unique {n : ℕ} (T : Topology n) {x y : Fin n} {m : Mac}
    (hx : T.Owns x m) (hy : T.Owns y m) : x = y := by
  obtain ⟨i, hi, hm⟩ := hx
  obtain ⟨j, hj, hm'⟩ := hy
  exact (T.mac_inj x i y j hi hj (hm.trans hm'.symm)).1

theorem Topology.mem_interfaces {n : ℕ} (T : Topology n) (y : Fin n) (j : ℕ) :
    (y, j) ∈ T.interfaces ↔ j < T.ifCnt y := by
  simp [Topology.interfaces]

/-- What a packet in flight says about the transmission it is a copy of. -/
theorem Topology.mem_transmit {n : ℕ} (T : Topology n) {x : Fin n} {o : Out n}
    {p : Packet n} :
    p ∈ T.transmit x o ↔ o = .send p.srcIf p.frame ∧ p.src = x ∧ p.dstIf < T.ifCnt p.dst ∧
      T.lan p.dst p.dstIf = T.lan x p.srcIf ∧ (p.dst, p.dstIf) ≠ (x, p.srcIf) ∧
      (p.frame.dstMac = broadcastMac ∨ p.frame.dstMac = T.mac p.dst p.dstIf) := by
  cases o with
  | send i f =>
    simp only [transmit, List.mem_map, List.mem_filter, accepts, Prod.exists, mem_interfaces,
      Bool.and_eq_true, Bool.or_eq_true, decide_eq_true_eq, Out.send.injEq]
    constructor
    · rintro ⟨y, j, ⟨hj, ⟨hl, hne⟩, hm⟩, rfl⟩
      exact ⟨⟨rfl, rfl⟩, rfl, hj, hl, hne, hm⟩
    · rintro ⟨⟨rfl, rfl⟩, rfl, hj, hl, hne, hm⟩
      exact ⟨p.dst, p.dstIf, ⟨hj, ⟨hl, hne⟩, hm⟩, rfl⟩
  | toLocal _ _ => simp [transmit]
  | badIndex => simp [transmit]

@[simp] theorem Net.act_node_self {n : ℕ} (T : Topology n) (s : Net n) (x : Fin n)
    (r : Node n × List (Out n)) : (s.act T x r).node x = r.1 := by simp [act]

theorem Net.act_node_of_ne {n : ℕ} (T : Topology n) (s : Net n) {x y : Fin n} (h : y ≠ x)
    (r : Node n × List (Out n)) : (s.act T x r).node y = s.node y := by simp [act, h]

theorem Net.act_row {n : ℕ} (T : Topology n) (s : Net n) (x : Fin n)
    (r : Node n × List (Out n)) (y d : Fin n) :
    (s.act T x r).row y d = if y = x then r.1.routingTable d else s.row y d := by
  unfold row
  split_ifs with hy
  · rw [hy, act_node_self]
  · rw [act_node_of_ne T s hy]

theorem Net.mem_act {n : ℕ} (T : Topology n) (s : Net n) (x : Fin n)
    (r : Node n × List (Out n)) (p : Packet n) :
    p ∈ (s.act T x r).inFlight ↔ p ∈ s.inFlight ∨ ∃ o ∈ r.2, p ∈ T.transmit x o := by
  simp [act]

theorem Net.mem_of_mem_drop {n : ℕ} {s : Net n} {k : ℕ} {p : Packet n}
    (h : p ∈ (s.drop k).inFlight) : p ∈ s.inFlight :=
  List.mem_of_mem_eraseIdx h

theorem Net.step_cases {n : ℕ} {T : Topology n} {s t : Net n} {a : Action n}
    (h : s.step T a = some t) :
    (∃ x m, a = .app x m ∧ t = s.act T x (onLocal (T.host x) (s.node x) m)) ∨
    (∃ k p, a = .deliver k ∧ s.inFlight[k]? = some p ∧
      t = (s.drop k).act T p.dst (s.receive T p)) ∨
    ((∀ y m, a ≠ .app y m) ∧ t.node = s.node ∧ ∀ p ∈ t.inFlight, p ∈ s.inFlight) := by
  cases a with
  | app x m => exact .inl ⟨x, m, rfl, (Option.some.inj h).symm⟩
  | deliver k =>
    obtain ⟨p, hp, rfl⟩ := Option.map_eq_some_iff.mp h
    exact .inr (.inl ⟨k, p, rfl, hp, rfl⟩)
  | duplicate k =>
    obtain ⟨p, hp, rfl⟩ := Option.map_eq_some_iff.mp h
    refine .inr (.inr ⟨by simp, rfl, ?_⟩)
    intro q hq
    rcases List.mem_cons.mp hq with rfl | hq
    · exact List.mem_of_getElem? hp
    · exact hq
  | lose k =>
    obtain ⟨p, _, rfl⟩ := Option.map_eq_some_iff.mp h
    exact .inr (.inr ⟨by simp, rfl, fun q hq => mem_of_mem_drop hq⟩)

end NetLab.Odr
