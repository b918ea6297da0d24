import Mathlib.Data.List.Count
import NetLab.Odr.Flood
import NetLab.Odr.NextHop
import NetLab.Odr.Rank
import NetLab.Odr.Relay

/-! What becomes of application payloads. A ledger beside the network records the payloads that
local datagrams put on the way, the ones that reach an application, and the copies that the network
makes; no handler reads it. -/
namespace NetLab.Odr
open NetLab.Lib

def Message.payload? {n : ℕ} : Message n → Option (Payload n)
  | .payload l => some l
  | _ => none

theorem Message.payload?_eq_some {n : ℕ} {b : Message n} {l : Payload n} (h : b.payload? = some l) :
    b = .payload l := by
  cases b with
  | payload l' =>
    cases h
    rfl
  | rreq q => cases h
  | rrep r => cases h

def Out.payload? {n : ℕ} : Out n → Option (Payload n)
  | .send _ f => f.body.payload?
  | _ => none

def payloads {n : ℕ} (ps : List (Packet n)) : List (Payload n) :=
  ps.filterMap fun p => p.frame.body.payload?

/-- A payload, and the local datagram of node `node` that it was made from. -/
structure Submission (n : ℕ) where
  node : Fin n
  datagram : LocalMsg n
  payload : Payload n
  deriving DecidableEq, Repr

structure Traffic (n : ℕ) where
  net : Net n
  submitted : List (Submission n)
  /-- The payloads written to a local socket, with the node that did so. -/
  handed : List (Fin n × Payload n)
  copied : List (Payload n)

def Traffic.start {n : ℕ} (s : Net n) : Traffic n := ⟨s, [], [], []⟩

/-- What node `x` makes of a local datagram. -/
def Net.submits {n : ℕ} (T : Topology n) (s : Net n) (x : Fin n) (m : LocalMsg n) :
    List (Submission n) :=
  ((onLocal (T.host x) (s.node x) m).2.filterMap Out.payload?).map fun l => ⟨x, m, l⟩

/-- What the delivery of `p` writes to local sockets, if `p` is a payload. -/
def Net.hands {n : ℕ} (T : Topology n) (s : Net n) (p : Packet n) : List (Fin n × Payload n) :=
  match p.frame.body with
  | .payload l => (s.receive T p).2.filterMap fun o => match o with
      | .toLocal _ _ => some (p.dst, l)
      | _ => none
  | _ => []

def Traffic.step {n : ℕ} (T : Topology n) (y : Traffic n) (a : Action n) : Option (Traffic n) :=
  (y.net.step T a).map fun net => match a with
    | .app x m => { y with net := net, submitted := y.submitted ++ y.net.submits T x m }
    | .deliver k =>
      { y with net := net, handed := y.handed ++ y.net.inFlight[k]?.toList.flatMap (y.net.hands T) }
    | .duplicate k =>
      { y with net := net, copied := y.copied ++ payloads y.net.inFlight[k]?.toList }
    | .lose _ => { y with net := net }

/-- The ledger does not disturb the network. -/
theorem Traffic.step_net {n : ℕ} {T : Topology n} {y z : Traffic n} {a : Action n}
    (h : y.step T a = some z) : y.net.step T a = some z.net := by
  obtain ⟨net, hnet, rfl⟩ := Option.map_eq_some_iff.mp h
  cases a <;> exact hnet

/-- Inversion of a step: a local datagram, a delivery, or a choice of the network. -/
theorem Traffic.step_cases {n : ℕ} {T : Topology n} {y z : Traffic n} {a : Action n}
    (h : y.step T a = some z) :
    (∃ x m, a = .app x m ∧ z = { y with
      net := y.net.act T x (onLocal (T.host x) (y.net.node x) m)
      submitted := y.submitted ++ y.net.submits T x m }) ∨
    (∃ k p, a = .deliver k ∧ y.net.inFlight[k]? = some p ∧ z = { y with
      net := (y.net.drop k).act T p.dst (y.net.receive T p)
      handed := y.handed ++ y.net.hands T p }) ∨
    (∃ k p, a = .duplicate k ∧ y.net.inFlight[k]? = some p ∧ z = { y with
      net := { y.net with inFlight := p :: y.net.inFlight }
      copied := y.copied ++ payloads [p] }) ∨
    ∃ k, a = .lose k ∧ z = { y with net := y.net.drop k } := by
  obtain ⟨net, hnet, rfl⟩ := Option.map_eq_some_iff.mp h
  cases a with
  | app x m =>
    cases hnet
    exact .inl ⟨x, m, rfl, rfl⟩
  | deliver k =>
    obtain ⟨p, hp, rfl⟩ := Option.map_eq_some_iff.mp hnet
    exact .inr (.inl ⟨k, p, rfl, hp, by simp [hp]⟩)
  | duplicate k =>
    obtain ⟨p, hp, rfl⟩ := Option.map_eq_some_iff.mp hnet
    exact .inr (.inr (.inl ⟨k, p, rfl, hp, by simp [hp]⟩))
  | lose k =>
    obtain ⟨p, _, rfl⟩ := Option.map_eq_some_iff.mp hnet
    exact .inr (.inr (.inr ⟨k, rfl, rfl⟩))

section
variable {n : ℕ} {T : Topology n} {s : Net n} {l : Payload n}

@[simp] theorem payloads_nil : payloads ([] : List (Packet n)) = [] := rfl

@[simp] theorem payloads_append (ps qs : List (Packet n)) :
    payloads (ps ++ qs) = payloads ps ++ payloads qs := List.filterMap_append

/-- A frame leaves with the message as it is, or the tables are left. -/
theorem sendTo_cases (h : Host n) (t : Fin n → RoutingEntry) (dst : Option (Fin n))
    (body : Message n) : sendTo h t dst body = .badIndex ∨
      ∃ i f, sendTo h t dst body = .send i f ∧ f.body = body := by
  unfold sendTo sendVia
  cases dst with
  | none => exact .inl rfl
  | some d =>
    dsimp only
    split_ifs
    · exact .inl rfl
    · exact .inr ⟨_, _, rfl, rfl⟩

theorem sendTo_payload? (h : Host n) (t : Fin n → RoutingEntry) (dst : Option (Fin n))
    (l : Payload n) : [sendTo h t dst (.payload l)].filterMap Out.payload? = [l] ∨
      sendTo h t dst (.payload l) = .badIndex := by
  rcases sendTo_cases h t dst (.payload l) with hbad | ⟨i, f, hsend, hf⟩
  · exact .inr hbad
  · left
    rw [hsend]
    simp [Out.payload?, hf, Message.payload?]

theorem mem_sendTo_payload {h : Host n} {t : Fin n → RoutingEntry} {dst : Option (Fin n)}
    {l l' : Payload n} (hl : l ∈ [sendTo h t dst (.payload l')].filterMap Out.payload?) : l = l' := by
  rcases sendTo_payload? h t dst l' with hmem | hbad
  · rw [hmem] at hl
    exact List.mem_singleton.mp hl
  · rw [hbad] at hl
    cases hl

/-- A payload that a local datagram sends names its node, and has the text and the destination of
the datagram. -/
theorem onLocal_payload {h : Host n} {nd : Node n} {m : LocalMsg n}
    (hl : l ∈ (onLocal h nd m).2.filterMap Out.payload?) :
    l.srcAddr = h.node ∧ l.dstAddr = m.dstAddr ∧ l.message = m.message ∧ l.hopCnt = 0 := by
  have hrequest : ∀ (nd' : Node n) (e : PortEntry),
      l ∈ (onRequest h nd' e m).2.filterMap Out.payload? →
        l.srcAddr = h.node ∧ l.dstAddr = m.dstAddr ∧ l.message = m.message ∧ l.hopCnt = 0 := by
    intro nd' e hmem
    unfold onRequest at hmem
    split_ifs at hmem
    · rw [mem_sendTo_payload hmem]
      exact ⟨rfl, rfl, rfl, rfl⟩
    · obtain ⟨o, ho, hpayload⟩ := List.mem_filterMap.mp hmem
      obtain ⟨i, _, rfl⟩ := List.mem_map.mp ho
      cases hpayload
  unfold onLocal at hl
  dsimp only at hl
  split at hl
  · rw [mem_sendTo_payload hl]
    exact ⟨rfl, rfl, rfl, rfl⟩
  · exact hrequest _ _ hl
  · exact hrequest _ _ hl

theorem onFrame_payload {h : Host n} {nd : Node n} {index i : ℕ} {f g : Frame n}
    (hs : .send i g ∈ (onFrame h nd index f).2) (hg : g.body = .payload l) :
    f.body = .payload l := by
  cases onFrame_sends hs with
  | flood => cases hg
  | answer => cases hg
  | relay => exact Message.relayed_payload hg

/-- What a node does with a payload: it hands it over, or sends it on once, unless its tables have
no row for the destination. -/
theorem receive_payload {p : Packet n} (hp : p.frame.body = .payload l) :
    (l.dstAddr = some p.dst ∧ (s.receive T p).2.filterMap Out.payload? = [] ∧
      s.hands T p = [(p.dst, l)]) ∨
    (l.dstAddr ≠ some p.dst ∧ s.hands T p = [] ∧
      ((s.receive T p).2.filterMap Out.payload? = [l] ∨
        ((s.receive T p).2.filterMap Out.payload? = [] ∧ Out.badIndex ∈ (s.receive T p).2))) := by
  have hreceive : s.receive T p = onPayload (T.host p.dst) (s.node p.dst) l := by
    unfold Net.receive onFrame
    rw [hp]
  unfold Net.hands
  rw [hp, hreceive]
  unfold onPayload
  dsimp only
  by_cases hd : l.dstAddr = some p.dst
  · left
    rw [if_pos (show l.dstAddr = some (T.host p.dst).node from hd)]
    exact ⟨hd, rfl, rfl⟩
  · right
    rw [if_neg (show ¬ l.dstAddr = some (T.host p.dst).node from hd)]
    dsimp only
    refine ⟨hd, ?_, ?_⟩
    · rcases sendTo_cases (T.host p.dst) (s.node p.dst).routingTable l.dstAddr (.payload l) with
        hbad | ⟨i, f, hsend, _⟩
      · rw [hbad]
        rfl
      · rw [hsend]
        rfl
    · rcases sendTo_payload? (T.host p.dst) (s.node p.dst).routingTable l.dstAddr l with hl | hbad
      · exact .inl hl
      · right
        rw [hbad]
        exact ⟨rfl, List.mem_singleton.mpr rfl⟩

/-- Nothing else carries a payload. -/
theorem receive_no_payload {p : Packet n} (hp : p.frame.body.payload? = none) :
    (s.receive T p).2.filterMap Out.payload? = [] ∧ s.hands T p = [] := by
  constructor
  · apply List.filterMap_eq_nil_iff.mpr
    intro o ho
    cases o with
    | send i g =>
      cases hg : g.body with
      | payload l =>
        have hl := onFrame_payload ho hg
        rw [hl] at hp
        cases hp
      | rreq q => simp [Out.payload?, Message.payload?, hg]
      | rrep r => simp [Out.payload?, Message.payload?, hg]
    | toLocal path data => rfl
    | badIndex => rfl
  · unfold Net.hands
    cases hb : p.frame.body with
    | payload l =>
      rw [hb] at hp
      cases hp
    | rreq q => rfl
    | rrep r => rfl

end

section
variable {n : ℕ} {T : Topology n} {s t : Net n} {l : Payload n}

theorem payloads_transmit (x : Fin n) (o : Out n) :
    payloads (T.transmit x o) = (T.transmit x o).filterMap fun _ => o.payload? := by
  cases o with
  | send i f => simp [payloads, Topology.transmit, List.filterMap_map, Out.payload?]
  | toLocal path data => rfl
  | badIndex => rfl

theorem count_transmit (x : Fin n) (o : Out n) : (payloads (T.transmit x o)).count l =
    (T.transmit x o).length * ([o].filterMap Out.payload?).count l := by
  rw [payloads_transmit]
  cases hp : o.payload? with
  | none => simp [hp]
  | some l' =>
    have hmap : ((T.transmit x o).filterMap fun _ => some l') =
        List.replicate (T.transmit x o).length l' := by
      rw [← List.map_const', ← List.filterMap_eq_map]
      rfl
    rw [hmap, List.count_replicate]
    simp only [List.filterMap_cons, hp, List.filterMap_nil, List.count_singleton]
    split_ifs <;> omega

theorem filterMap_payload_cons (o : Out n) (os : List (Out n)) :
    ((o :: os).filterMap Out.payload?).count l =
      ([o].filterMap Out.payload?).count l + (os.filterMap Out.payload?).count l := by
  rw [← List.count_append, ← List.filterMap_append]
  rfl

theorem count_transmits_le {x : Fin n} (os : List (Out n))
    (hos : ∀ o ∈ os, o.payload? ≠ none → (T.transmit x o).length ≤ 1) :
    (payloads (os.flatMap (T.transmit x))).count l ≤ (os.filterMap Out.payload?).count l := by
  induction os with
  | nil => exact le_rfl
  | cons o os ih =>
    have htail := ih fun o' ho' => hos o' (List.mem_cons_of_mem o ho')
    rw [List.flatMap_cons, payloads_append, List.count_append, count_transmit,
      filterMap_payload_cons o os]
    cases hp : o.payload? with
    | none =>
      simp only [List.filterMap_cons, hp, List.filterMap_nil, List.count_nil]
      omega
    | some l' =>
      have hlen := hos o List.mem_cons_self (by simp [hp])
      have hle := Nat.mul_le_mul_right (([o].filterMap Out.payload?).count l) hlen
      omega

theorem count_transmits_eq {x : Fin n} (os : List (Out n))
    (hos : ∀ o ∈ os, o.payload? ≠ none → (T.transmit x o).length = 1) :
    (payloads (os.flatMap (T.transmit x))).count l = (os.filterMap Out.payload?).count l := by
  induction os with
  | nil => rfl
  | cons o os ih =>
    have htail := ih fun o' ho' => hos o' (List.mem_cons_of_mem o ho')
    rw [List.flatMap_cons, payloads_append, List.count_append, count_transmit,
      filterMap_payload_cons o os]
    cases hp : o.payload? with
    | none =>
      simp only [List.filterMap_cons, hp, List.filterMap_nil, List.count_nil]
      omega
    | some l' =>
      rw [hos o List.mem_cons_self (by simp [hp])]
      omega

theorem count_drop {k : ℕ} {p : Packet n} (hp : s.inFlight[k]? = some p) (l : Payload n) :
    (payloads s.inFlight).count l =
      (payloads [p]).count l + (payloads (s.drop k).inFlight).count l := by
  obtain ⟨hk, rfl⟩ := List.getElem?_eq_some_iff.mp hp
  have hperm := (List.getElem_cons_eraseIdx_perm hk).filterMap
    fun p : Packet n => p.frame.body.payload?
  rw [← List.count_append, ← payloads_append]
  exact (hperm.count_eq l).symm

theorem count_map_snd {α β : Type*} [DecidableEq α] [DecidableEq β] {es : List (α × β)} {x : α}
    {l : β} (h : ∀ e ∈ es, e.2 = l → e.1 = x) : es.count (x, l) = (es.map Prod.snd).count l := by
  induction es with
  | nil => rfl
  | cons e es ih =>
    obtain ⟨a, b⟩ := e
    have htail := ih fun e' he' => h e' (List.mem_cons_of_mem _ he')
    rw [List.map_cons, List.count_cons, List.count_cons, htail]
    by_cases hb : b = l
    · obtain rfl : a = x := h (a, b) List.mem_cons_self hb
      simp [hb]
    · have hne : (a, b) ≠ (x, l) := fun hab => hb (congrArg Prod.snd hab)
      simp [hb, hne]

/-- A delivery neither adds a payload to those on the way nor hands one over twice. -/
theorem receive_count_le (p : Packet n) (l : Payload n) :
    ((s.receive T p).2.filterMap Out.payload?).count l +
      ((s.hands T p).map Prod.snd).count l ≤ (payloads [p]).count l := by
  cases hp : p.frame.body.payload? with
  | none =>
    obtain ⟨hout, hhand⟩ := receive_no_payload (T := T) (s := s) hp
    rw [hout, hhand]
    exact Nat.zero_le _
  | some l' =>
    have hbody : p.frame.body = .payload l' := Message.payload?_eq_some hp
    have hone : payloads [p] = [l'] := by simp [payloads, hp]
    rw [hone]
    rcases receive_payload (T := T) (s := s) hbody with
      ⟨_, hout, hhand⟩ | ⟨_, hhand, hout | ⟨hout, _⟩⟩ <;>
    rw [hout, hhand] <;> simp

/-- A delivery that finds its row keeps the payload. -/
theorem receive_count_eq {p : Packet n} (hbad : .badIndex ∉ (s.receive T p).2) (l : Payload n) :
    ((s.receive T p).2.filterMap Out.payload?).count l +
      ((s.hands T p).map Prod.snd).count l = (payloads [p]).count l := by
  cases hp : p.frame.body.payload? with
  | none =>
    obtain ⟨hout, hhand⟩ := receive_no_payload (T := T) (s := s) hp
    rw [hout, hhand]
    simp [payloads, hp]
  | some l' =>
    have hbody : p.frame.body = .payload l' := Message.payload?_eq_some hp
    have hone : payloads [p] = [l'] := by simp [payloads, hp]
    rw [hone]
    rcases receive_payload (T := T) (s := s) hbody with
      ⟨_, hout, hhand⟩ | ⟨_, hhand, hout | ⟨_, hmem⟩⟩
    · rw [hout, hhand]
      simp
    · rw [hout, hhand]
      simp
    · exact absurd hmem hbad

end

section
variable {n : ℕ} {T : Topology n} {s t : Net n}

/-- Next hops are addresses of interfaces. -/
def RowsUnicast (s : Net n) : Prop :=
  ∀ x d, (s.row x d).outgoingIf ≠ 0 → (s.row x d).nextHop ≠ broadcastMac

theorem owns_ne_broadcast {x : Fin n} {m : Mac} (h : T.Owns x m) : m ≠ broadcastMac := by
  obtain ⟨i, hi, rfl⟩ := h
  exact T.mac_ne_broadcast x i hi

theorem receive_unicast (hw : Wired T s) (h : RowsUnicast s) {p : Packet n} (hp : p ∈ s.inFlight)
    (d : Fin n) (hd : ((s.receive T p).1.routingTable d).outgoingIf ≠ 0) :
    ((s.receive T p).1.routingTable d).nextHop ≠ broadcastMac := by
  rcases receive_row T s p d with hr | ⟨a, _, _, hr⟩
  · obtain ⟨hnext, hout, _⟩ := route_eq_iff.mp hr
    rw [hnext]
    rw [hout] at hd
    exact h p.dst d hd
  · have hnext : ((s.receive T p).1.routingTable d).nextHop = p.frame.srcMac :=
      congrArg Prod.fst hr
    rw [hnext]
    exact owns_ne_broadcast (hw.pkt_mac p hp)

theorem rowsUnicast_step {a : Action n} (hw : Wired T s) (h : RowsUnicast s)
    (hs : s.step T a = some t) : RowsUnicast t := by
  intro x d hd
  rcases Net.step_cases hs with ⟨y, m, _, rfl⟩ | ⟨k, p, _, hp, rfl⟩ | ⟨_, hn, _⟩
  · rw [Net.act_row, onLocal_routingTable] at hd ⊢
    split_ifs at hd ⊢ with hxy
    · exact h y d hd
    · exact h x d hd
  · rw [Net.act_row] at hd ⊢
    split_ifs at hd ⊢ with hx
    · exact receive_unicast hw h (List.mem_of_getElem? hp) d hd
    · exact h x d hd
  · have hrow : t.row x d = s.row x d := by
      unfold Net.row
      rw [hn]
    rw [hrow] at hd ⊢
    exact h x d hd

theorem receive_sends_unicast (hw : Wired T s) (h : RowsUnicast s) {p : Packet n}
    (hp : p ∈ s.inFlight) (i : ℕ) (g : Frame n) (hg : .send i g ∈ (s.receive T p).2)
    (hload : g.body.payload? ≠ none) : g.dstMac ≠ broadcastMac := by
  cases onFrame_sends hg with
  | flood => exact absurd rfl hload
  | answer => exact absurd rfl hload
  | @relay a hf ha hout =>
    apply receive_unicast hw h hp a
    unfold Net.receive
    omega

theorem onLocal_sends_unicast (h : RowsUnicast s) {x : Fin n} {m : LocalMsg n} (i : ℕ) (g : Frame n)
    (hg : .send i g ∈ (onLocal (T.host x) (s.node x) m).2) (hload : g.body.payload? ≠ none) :
    g.dstMac ≠ broadcastMac := by
  cases onLocal_originates hg with
  | request => exact absurd rfl hload
  | @payload a l hl hout =>
    apply h x a
    unfold Net.row
    omega

end

section
variable {n : ℕ} {T : Topology n} {y z : Traffic n} {a : Action n}

/-- How often a payload is on its way or was handed to an application, and how often it was put
on the way. -/
structure Conserved (y : Traffic n) : Prop where
  balance : ∀ l, (payloads y.net.inFlight).count l + (y.handed.map Prod.snd).count l ≤
    (y.submitted.map Submission.payload).count l + y.copied.count l
  submitted : ∀ e ∈ y.submitted, e.payload.srcAddr = e.node ∧
    e.payload.dstAddr = e.datagram.dstAddr ∧ e.payload.message = e.datagram.message ∧
    e.payload.hopCnt = 0
  known : ∀ l ∈ payloads y.net.inFlight, ∃ e ∈ y.submitted, e.payload = l
  handed : ∀ e ∈ y.handed, e.2.dstAddr = some e.1 ∧ ∃ e' ∈ y.submitted, e'.payload = e.2

theorem payloads_act (s : Net n) (x : Fin n) (r : Node n × List (Out n)) :
    payloads (s.act T x r).inFlight =
      payloads s.inFlight ++ payloads (r.2.flatMap (T.transmit x)) := by
  rw [← payloads_append]
  rfl

theorem submits_payloads (s : Net n) (x : Fin n) (m : LocalMsg n) :
    (s.submits T x m).map Submission.payload =
      (onLocal (T.host x) (s.node x) m).2.filterMap Out.payload? := by
  unfold Net.submits
  rw [List.map_map]
  exact List.map_id _

theorem mem_payloads_transmits {x : Fin n} {os : List (Out n)} {l : Payload n}
    (h : l ∈ payloads (os.flatMap (T.transmit x))) : l ∈ os.filterMap Out.payload? := by
  obtain ⟨p, hp, hl⟩ := List.mem_filterMap.mp h
  obtain ⟨o, ho, hpo⟩ := List.mem_flatMap.mp hp
  obtain ⟨rfl, _⟩ := T.mem_transmit.mp hpo
  exact List.mem_filterMap.mpr ⟨_, ho, hl⟩

theorem mem_payloads_drop {s : Net n} {k : ℕ} {l : Payload n}
    (h : l ∈ payloads (s.drop k).inFlight) : l ∈ payloads s.inFlight := by
  obtain ⟨p, hp, hl⟩ := List.mem_filterMap.mp h
  exact List.mem_filterMap.mpr ⟨p, Net.mem_of_mem_drop hp, hl⟩

theorem Conserved.app (h : Conserved y) (hrows : RowsUnicast y.net) (x : Fin n) (m : LocalMsg n) :
    Conserved { y with
      net := y.net.act T x (onLocal (T.host x) (y.net.node x) m)
      submitted := y.submitted ++ y.net.submits T x m } where
  balance := by
    intro l
    have hone := count_transmits_le (T := T) (x := x) (l := l)
      (onLocal (T.host x) (y.net.node x) m).2 (by
        intro o ho hload
        cases o with
        | send i g => exact T.transmit_unicast x (onLocal_sends_unicast hrows i g ho hload)
        | toLocal path data => exact absurd rfl hload
        | badIndex => exact absurd rfl hload)
    have hbal := h.balance l
    dsimp only
    rw [payloads_act, List.count_append, List.map_append, List.count_append, submits_payloads]
    omega
  submitted := by
    intro e he
    rcases List.mem_append.mp he with he | he
    · exact h.submitted e he
    · obtain ⟨l, hl, rfl⟩ := List.mem_map.mp he
      exact onLocal_payload hl
  known := by
    intro l hl
    dsimp only at hl
    rw [payloads_act] at hl
    rcases List.mem_append.mp hl with hl | hl
    · obtain ⟨e, he, hel⟩ := h.known l hl
      exact ⟨e, List.mem_append_left _ he, hel⟩
    · have hsent := mem_payloads_transmits hl
      exact ⟨⟨x, m, l⟩, List.mem_append_right _ (List.mem_map.mpr ⟨l, hsent, rfl⟩), rfl⟩
  handed := by
    intro e he
    obtain ⟨hd, e', he', hl⟩ := h.handed e he
    exact ⟨hd, e', List.mem_append_left _ he', hl⟩

theorem mem_hands {s : Net n} {p : Packet n} {e : Fin n × Payload n} (he : e ∈ s.hands T p) :
    e.2.dstAddr = some e.1 ∧ e.2 ∈ payloads [p] := by
  cases hp : p.frame.body.payload? with
  | none =>
    rw [(receive_no_payload hp).2] at he
    cases he
  | some l =>
    have hbody : p.frame.body = .payload l := Message.payload?_eq_some hp
    rcases receive_payload (T := T) (s := s) hbody with ⟨hd, _, hhand⟩ | ⟨_, hhand, _⟩
    · rw [hhand] at he
      obtain rfl := List.mem_singleton.mp he
      exact ⟨hd, by simp [payloads, hp]⟩
    · rw [hhand] at he
      cases he

theorem mem_receive_payloads {s : Net n} {p : Packet n} {l : Payload n}
    (h : l ∈ (s.receive T p).2.filterMap Out.payload?) : l ∈ payloads [p] := by
  have hle := receive_count_le (T := T) (s := s) p l
  have hpos : 0 < ((s.receive T p).2.filterMap Out.payload?).count l := List.count_pos_iff.mpr h
  apply List.count_pos_iff.mp
  omega

theorem Conserved.deliver (h : Conserved y) (hw : Wired T y.net) (hrows : RowsUnicast y.net)
    {k : ℕ} {p : Packet n} (hp : y.net.inFlight[k]? = some p) :
    Conserved { y with
      net := (y.net.drop k).act T p.dst (y.net.receive T p)
      handed := y.handed ++ y.net.hands T p } where
  balance := by
    intro l
    have hmem := List.mem_of_getElem? hp
    have hone := count_transmits_le (T := T) (x := p.dst) (l := l)
      (y.net.receive T p).2 (by
        intro o ho hload
        cases o with
        | send i g =>
          exact T.transmit_unicast p.dst (receive_sends_unicast hw hrows hmem i g ho hload)
        | toLocal path data => exact absurd rfl hload
        | badIndex => exact absurd rfl hload)
    have hbal := h.balance l
    have hdrop := count_drop hp l
    have hrecv := receive_count_le (T := T) (s := y.net) p l
    dsimp only
    rw [payloads_act, List.count_append, List.map_append, List.count_append]
    omega
  submitted := h.submitted
  known := by
    intro l hl
    apply h.known l
    dsimp only at hl
    rw [payloads_act] at hl
    rcases List.mem_append.mp hl with hl | hl
    · exact mem_payloads_drop hl
    · obtain ⟨p', hp', hl'⟩ := List.mem_filterMap.mp (mem_receive_payloads (mem_payloads_transmits hl))
      obtain rfl := List.mem_singleton.mp hp'
      exact List.mem_filterMap.mpr ⟨_, List.mem_of_getElem? hp, hl'⟩
  handed := by
    intro e he
    rcases List.mem_append.mp he with he | he
    · exact h.handed e he
    · obtain ⟨hd, hl⟩ := mem_hands he
      obtain ⟨p', hp', hl'⟩ := List.mem_filterMap.mp hl
      obtain rfl := List.mem_singleton.mp hp'
      exact ⟨hd, h.known e.2 (List.mem_filterMap.mpr ⟨_, List.mem_of_getElem? hp, hl'⟩)⟩

/-- One step of the network keeps the balance. -/
theorem conserved_step (hw : Wired T y.net) (hrows : RowsUnicast y.net) (h : Conserved y)
    (hs : y.step T a = some z) : Conserved z := by
  rcases Traffic.step_cases hs with ⟨x, m, _, rfl⟩ | ⟨k, p, _, hp, rfl⟩ | ⟨k, p, _, hp, rfl⟩ |
    ⟨k, _, rfl⟩
  · exact h.app hrows x m
  · exact h.deliver hw hrows hp
  · refine ⟨?_, h.submitted, ?_, h.handed⟩
    · intro l
      have hbal := h.balance l
      have hsplit : payloads (p :: y.net.inFlight) = payloads [p] ++ payloads y.net.inFlight :=
        payloads_append [p] y.net.inFlight
      dsimp only
      rw [hsplit, List.count_append, List.count_append]
      omega
    · intro l hl
      apply h.known l
      obtain ⟨p', hp', hl'⟩ := List.mem_filterMap.mp hl
      rcases List.mem_cons.mp hp' with rfl | hp'
      · exact List.mem_filterMap.mpr ⟨_, List.mem_of_getElem? hp, hl'⟩
      · exact List.mem_filterMap.mpr ⟨p', hp', hl'⟩
  · refine ⟨?_, h.submitted, fun l hl => h.known l (mem_payloads_drop hl), h.handed⟩
    intro l
    have hbal := h.balance l
    have hle : (payloads (y.net.drop k).inFlight).count l ≤ (payloads y.net.inFlight).count l :=
      ((List.eraseIdx_sublist _ _).filterMap _).count_le l
    dsimp only
    omega

/-- What is sent along a route goes to one interface of another node. -/
theorem transmit_row_one {s : Net n} (hv : Vouched T s) (hnext : NextHopsOnLan T s) {x a : Fin n}
    (hroute : (s.row x a).outgoingIf ≠ 0) (ha : x ≠ a) (mac : Mac) (body : Message n) :
    (T.transmit x (.send ((s.row x a).outgoingIf - 3) ⟨(s.row x a).nextHop, mac, body⟩)).length = 1 := by
  obtain ⟨y, j, hj, hl, hmac⟩ := hnext x a hroute
  obtain ⟨y', c, hy', hc, hvy⟩ := hv.row x a hroute
  obtain rfl : y = y' := T.owns_unique ⟨j, hj, hmac.symm⟩ hy'
  -- the next hop is nearer to the addressee, so it is another node
  have hne : y ≠ x := by
    rintro rfl
    rcases hvy with rfl | ⟨_, hle⟩
    · exact ha rfl
    · omega
  apply Nat.le_antisymm
  · apply T.transmit_unicast
    rw [hmac]
    exact T.mac_ne_broadcast y j hj
  · apply List.length_pos_of_mem (a := (⟨x, (s.row x a).outgoingIf - 3, y, j,
      ⟨(s.row x a).nextHop, mac, body⟩⟩ : Packet n))
    apply T.mem_transmit.mpr
    exact ⟨rfl, rfl, hj, hl, fun h => hne (congrArg Prod.fst h), .inr hmac⟩

/-- A node with a route to the addressee sends a payload to one interface of another node. -/
theorem transmit_payload_one {s : Net n} (hw : Wired T s) (hv : Vouched T s) (hown : OwnMac T s)
    (hnext : NextHopsOnLan T s) {k : ℕ} {p : Packet n} (hp : s.inFlight[k]? = some p)
    {o : Out n} (ho : o ∈ (s.receive T p).2) (hload : o.payload? ≠ none) :
    (T.transmit p.dst o).length = 1 := by
  have hstep : s.step T (.deliver k) = some ((s.drop k).act T p.dst (s.receive T p)) := by
    show (s.inFlight[k]?.map fun p => (s.drop k).act T p.dst (s.receive T p)) = _
    rw [hp]
    rfl
  have hlan := nextHops_step hw hown hnext hstep
  have hvouch := (vouched_step (a := .deliver k) hw hv trivial hstep).2
  have hself : ∀ d, ((s.drop k).act T p.dst (s.receive T p)).row p.dst d =
      (s.receive T p).1.routingTable d := by
    intro d
    rw [Net.act_row, if_pos rfl]
  generalize (s.drop k).act T p.dst (s.receive T p) = t at hlan hvouch hself
  cases o with
  | toLocal path data => exact absurd rfl hload
  | badIndex => exact absurd rfl hload
  | send i g =>
    cases onFrame_sends ho with
    | flood => exact absurd rfl hload
    | answer => exact absurd rfl hload
    | @relay a hf ha hout =>
      change 3 ≤ ((s.receive T p).1.routingTable a).outgoingIf at hout
      change (T.transmit p.dst (.send (((s.receive T p).1.routingTable a).outgoingIf - 3)
        ⟨((s.receive T p).1.routingTable a).nextHop,
          T.mac p.dst (((s.receive T p).1.routingTable a).outgoingIf - 3),
          p.frame.body.relayed⟩)).length = 1
      rw [← hself] at hout ⊢
      have hroute : (t.row p.dst a).outgoingIf ≠ 0 := by omega
      exact transmit_row_one hvouch hlan hroute (Ne.symm ha) _ _

/-- What holds in a network without forced discovery whose replies are aligned. -/
structure Settled (T : Topology n) (s : Net n) : Prop where
  wired : Wired T s
  vouched : Vouched T s
  own : OwnMac T s
  onLan : NextHopsOnLan T s

theorem Settled.step {s t : Net n} (h : Settled T s) (hok : Unforced s a ∧ Aligned T s a)
    (hs : s.step T a = some t) : Settled T t where
  wired := wired_step h.wired hs
  vouched := (vouched_step h.wired h.vouched hok.1 hs).2
  own := ownMac_step h.own hok.2 hs
  onLan := nextHops_step h.wired h.own h.onLan hs

theorem settled_initial {s : Net n} (h : s.Initial) : Settled T s where
  wired := wired_initial T h
  vouched := vouched_initial T h
  own := by simp [OwnMac, h.2]
  onLan := fun x d hd => absurd (h.1 x d) hd

/-- A delivery moves a payload, or hands it over. -/
theorem Settled.deliver (h : Settled T y.net) {k : ℕ} (hs : y.step T (.deliver k) = some z)
    (l : Payload n) :
    (payloads z.net.inFlight).count l + (z.handed.map Prod.snd).count l =
      (payloads y.net.inFlight).count l + (y.handed.map Prod.snd).count l := by
  rcases Traffic.step_cases hs with ⟨_, _, ha, _⟩ | ⟨_, p, ha, hp, rfl⟩ | ⟨_, _, ha, _⟩ | ⟨_, ha, _⟩
  · cases ha
  · cases ha
    have hmem := List.mem_of_getElem? hp
    have hcopies := count_transmits_eq (T := T) (x := p.dst) (l := l)
      (y.net.receive T p).2
      fun o ho hload => transmit_payload_one h.wired h.vouched h.own h.onLan hp ho hload
    have hkept := receive_count_eq (receive_has_route h.wired h.vouched hmem).2 l
    have hdrop := count_drop hp l
    dsimp only
    rw [payloads_act, List.count_append, List.map_append, List.count_append]
    omega
  · cases ha
  · cases ha

/-- However frames are delayed, reordered, lost and duplicated, and whether or not discoveries
are forced: a payload reaches an application no more often than local datagrams and the network
put it on the way, at the node it is addressed to, with the text and the destination of a datagram
of its source. -/
theorem Traffic.at_most_once {n : ℕ} (T : Topology n) (s₀ : Net n) (y : Traffic n)
    (as : List (Action n)) (h₀ : s₀.Initial)
    (hr : Run (Traffic.step T) (fun _ _ => True) (.start s₀) as y) :
    (∀ l, (payloads y.net.inFlight).count l + (y.handed.map Prod.snd).count l ≤
      (y.submitted.map Submission.payload).count l + y.copied.count l) ∧
    ∀ e ∈ y.handed, e.2.dstAddr = some e.1 ∧ ∃ e' ∈ y.submitted, e'.payload = e.2 ∧
      e'.node = e.2.srcAddr ∧ e'.datagram.dstAddr = some e.1 ∧
      e'.datagram.message = e.2.message := by
  have hinit : Conserved (.start s₀) := by
    refine ⟨?_, ?_, ?_, ?_⟩
    · intro l
      simp [Traffic.start, h₀.2]
    · intro e he
      cases he
    · intro l hl
      simp [Traffic.start, h₀.2] at hl
    · intro e he
      cases he
  have hrows : RowsUnicast s₀ := fun x d hd => absurd (h₀.1 x d) hd
  have h := hr.invariant (fun y => (Wired T y.net ∧ RowsUnicast y.net) ∧ Conserved y) (by
    intro y z a h _ hs
    have hnet := Traffic.step_net hs
    exact ⟨⟨wired_step h.1.1 hnet, rowsUnicast_step h.1.1 h.1.2 hnet⟩,
      conserved_step h.1.1 h.1.2 h.2 hs⟩) ⟨⟨wired_initial T h₀, hrows⟩, hinit⟩
  refine ⟨h.2.balance, ?_⟩
  intro e he
  obtain ⟨hd, e', he', hl⟩ := h.2.handed e he
  obtain ⟨hsrc, hdst, htext, _⟩ := h.2.submitted e' he'
  refine ⟨hd, e', he', hl, ?_, ?_, ?_⟩
  · rw [← hsrc, hl]
  · rw [← hdst, hl, hd]
  · rw [← htext, hl]

instance (s : Net n) (a : Action n) : Decidable (Unforced s a) :=
  match a with
  | .app _ m => inferInstanceAs (Decidable (m.flag ≠ 1))
  | .deliver _ => .isTrue trivial
  | .duplicate _ => .isTrue trivial
  | .lose _ => .isTrue trivial

instance (s : Net n) (a : Action n) : Decidable (Delivery s a) :=
  match a with
  | .deliver _ => .isTrue trivial
  | .app _ _ => .isFalse id
  | .duplicate _ => .isFalse id
  | .lose _ => .isFalse id

/-- Once a network without forced discovery has delivered every frame, each payload that was on
its way has been handed over at its destination, as often as it was on its way. -/
theorem Traffic.delivered {n : ℕ} (T : Topology n) (s₀ s : Net n) (y : Traffic n)
    (as bs : List (Action n)) (h₀ : s₀.Initial)
    (hr : Run (Net.step T) (fun s a => Unforced s a ∧ Aligned T s a) s₀ as s)
    (hd : Run (Traffic.step T) (fun y a => Delivery y.net a ∧ Aligned T y.net a) (.start s) bs y)
    (hquiet : y.net.inFlight = []) (x : Fin n) (l : Payload n) :
    y.handed.count (x, l) =
      if l.dstAddr = some x then (payloads s.inFlight).count l else 0 := by
  have hinit : Settled T s :=
    hr.invariant (Settled T) (fun _ _ _ h hok hs => h.step hok hs) (settled_initial h₀)
  have h := hd.invariant (fun y => Settled T y.net ∧
      (payloads y.net.inFlight).count l + (y.handed.map Prod.snd).count l =
        (payloads s.inFlight).count l ∧ ∀ e ∈ y.handed, e.2.dstAddr = some e.1) (by
    intro y z a h hok hs
    cases a with
    | deliver k =>
      refine ⟨h.1.step (a := .deliver k) ⟨trivial, hok.2⟩ (Traffic.step_net hs),
        (h.1.deliver hs l).trans h.2.1, ?_⟩
      intro e he
      rcases Traffic.step_cases hs with ⟨_, _, ha, _⟩ | ⟨_, p, _, _, rfl⟩ | ⟨_, _, ha, _⟩ | ⟨_, ha, _⟩
      · cases ha
      · rcases List.mem_append.mp he with he | he
        · exact h.2.2 e he
        · exact (mem_hands he).1
      · cases ha
      · cases ha
    | app x m => exact hok.1.elim
    | duplicate k => exact hok.1.elim
    | lose k => exact hok.1.elim) ⟨hinit, by simp [Traffic.start], by simp [Traffic.start]⟩
  obtain ⟨_, hbal, hdst⟩ := h
  have hbal : (y.handed.map Prod.snd).count l = (payloads s.inFlight).count l := by
    rw [hquiet] at hbal
    simpa using hbal
  split_ifs with hx
  · rw [← hbal]
    apply count_map_snd
    intro e he hl
    have hde := hdst e he
    rw [hl, hx] at hde
    exact (Option.some.inj hde).symm
  · apply List.count_eq_zero_of_not_mem
    intro he
    exact hx (hdst _ he)

end

end NetLab.Odr
