import NetLab.Odr.LoopFree

/-! Relays of RREPs and application payloads: a route is always there, and every relay
brings the frame closer to its addressee. -/
namespace NetLab.Odr
open NetLab.Lib

/-- The relays that one unicast message goes through, starting with the delivery of `p` in
state `s`. The list holds the hop count to the addressee that each relaying node stores when
it sends the message on. Between two relays the network takes any steps. -/
inductive RelayChain {n : ℕ} (T : Topology n) : Net n → Packet n → List ℕ → Prop
  | last {s t : Net n} {p : Packet n} {k : ℕ} {a : Fin n} (hp : s.inFlight[k]? = some p)
      (ha : p.frame.body.target = some a) (hne : p.dst ≠ a)
      (hs : s.step T (.deliver k) = some t) : RelayChain T s p [(t.row p.dst a).hopCnt]
  | next {s t u : Net n} {p p' : Packet n} {k : ℕ} {a : Fin n} {as : List (Action n)}
      {hops : List ℕ} (hp : s.inFlight[k]? = some p)
      (ha : p.frame.body.target = some a) (hne : p.dst ≠ a)
      (hs : s.step T (.deliver k) = some t)
      (hp' : p' ∈ (s.receive T p).2.flatMap (T.transmit p.dst))
      (hr : Run (Net.step T) Unforced t as u) (hc : RelayChain T u p' hops) :
      RelayChain T s p ((t.row p.dst a).hopCnt :: hops)

theorem run_improves {n : ℕ} {T : Topology n} {s t : Net n} {as : List (Action n)}
    (hw : Wired T s) (h : Vouched T s) (hr : Run (Net.step T) Unforced s as t) :
    s.Improves t ∧ Wired T t ∧ Vouched T t :=
  hr.invariant (fun u => s.Improves u ∧ Wired T u ∧ Vouched T u)
    (fun u v a hu hok hs => by
      obtain ⟨hi, hv⟩ := vouched_step hu.2.1 hu.2.2 hok hs
      exact ⟨hu.1.trans hi, wired_step hu.2.1 hs, hv⟩)
    ⟨.refl s, hw, h⟩

/-- A relay has a route, so no handler of a frame indexes outside its tables. -/
theorem receive_has_route {n : ℕ} {T : Topology n} {s : Net n} (hw : Wired T s)
    (h : Vouched T s) {p : Packet n} (hp : p ∈ s.inFlight) :
    (∀ a, p.frame.body.target = some a → p.dst ≠ a →
      ((s.receive T p).1.routingTable a).outgoingIf ≠ 0) ∧
    Out.badIndex ∉ (s.receive T p).2 := by
  have hroute : ∀ a, p.frame.body.target = some a → p.dst ≠ a →
      ((s.receive T p).1.routingTable a).outgoingIf ≠ 0 := by
    intro a ha hne
    have ho := (h.target p hp a ha).resolve_left hne
    exact (receive_improves (fun b hb => (h.advert p hp b hb).2) a ho).1
  refine ⟨hroute, ?_⟩
  intro hb
  rcases onFrame_badIndex hb with ⟨q, hq, hlt⟩ | ⟨a, ha, hne, hlt⟩ | ⟨l, hl, hd⟩
  · have ho := (receive_vouches (T := T) (s := s) (Message.advert_rreq hq)).1
    have := (receive_row_if hw hp q.srcAddr ho).1
    unfold Net.receive at this
    omega
  · have := (receive_row_if hw hp a (hroute a ha (Ne.symm hne))).1
    unfold Net.receive at this
    omega
  · exact h.addressed p hp l hl hd

/-- The copy that a relaying node sends goes to the owner of its next hop. -/
theorem relay_next {n : ℕ} {T : Topology n} {s : Net n} {p p' : Packet n} {a : Fin n}
    (ha : p.frame.body.target = some a)
    (hp' : p' ∈ (s.receive T p).2.flatMap (T.transmit p.dst)) :
    p'.frame.body.target = some a ∧
      (∀ y, T.Owns y ((s.receive T p).1.routingTable a).nextHop → p'.dst = y) := by
  obtain ⟨o, ho, hp'⟩ := List.mem_flatMap.mp hp'
  obtain ⟨rfl, _, hj, _, _, hm⟩ := T.mem_transmit.mp hp'
  generalize hi : p'.srcIf = i at ho
  generalize hg : p'.frame = g at ho hm
  cases onFrame_sends ho with
  | flood hf => rw [hf] at ha; cases ha
  | answer hf => rw [hf] at ha; cases ha
  | @relay b hf _ _ =>
    rw [ha] at hf
    cases hf
    refine ⟨by rw [Message.relayed_target, ha], ?_⟩
    intro y hy
    rw [← hg] at hm
    exact dst_eq_of_owns hj hm (by rw [hg]; exact hy)

theorem RelayChain.head_bound {n : ℕ} {T : Topology n} {s : Net n} {p : Packet n}
    {hops : List ℕ} (hc : RelayChain T s p hops) (hw : Wired T s) (h : Vouched T s) :
    ∃ c a, hops.head? = some c ∧ hops.length ≤ c ∧ p.frame.body.target = some a ∧
      p.dst ≠ a ∧ ((s.row p.dst a).outgoingIf ≠ 0 → c ≤ (s.row p.dst a).hopCnt) := by
  induction hc with
  | @last s t p k a hp ha hne hs =>
    obtain ⟨hi, hv⟩ := vouched_step hw h (a := .deliver k) trivial hs
    have ho := (h.target p (List.mem_of_getElem? hp) a ha).resolve_left hne
    obtain ⟨_, c, _, hc, _⟩ := hv.row p.dst a (hi p.dst a ho).1
    exact ⟨_, a, rfl, by simp [hc], ha, hne, fun ho => (hi p.dst a ho).2⟩
  | @next s t u p p' k a as hops hp ha hne hs hp' hr _ ih =>
    obtain ⟨hi, hv⟩ := vouched_step hw h (a := .deliver k) trivial hs
    obtain ⟨hi', hw', hv'⟩ := run_improves (wired_step hw hs) hv hr
    obtain ⟨c, b, hhead, hlen, hb, hne', hle⟩ := ih hw' hv'
    have ho := (hi p.dst a ((h.target p (List.mem_of_getElem? hp) a ha).resolve_left hne)).1
    have hrow : t.row p.dst a = (s.receive T p).1.routingTable a := by
      obtain ⟨p₀, hp₀, rfl⟩ := Option.map_eq_some_iff.mp hs
      rw [hp] at hp₀
      cases hp₀
      unfold Net.row
      rw [Net.act_node_self]
    obtain ⟨hb', hdst⟩ := relay_next ha hp'
    rw [hb] at hb'
    cases hb'
    obtain ⟨y, d, hy, hd, hvy⟩ := hv.row p.dst a ho
    have hy' : p'.dst = y := hdst y (by rwa [← hrow])
    subst hy'
    obtain ⟨ho', hle'⟩ := hvy.resolve_left hne'
    have hu := hi' p'.dst a ho'
    have := hle hu.1
    refine ⟨_, a, rfl, ?_, ha, hne, fun ho => (hi p.dst a ho).2⟩
    rw [List.length_cons, hd]
    omega

/-- Relays have a route and make progress: a node that is not the addressee holds a route
when it relays, and a message is relayed at most as often as the hop count that the first
relaying node then stores. -/
theorem relay_progress {n : ℕ} (T : Topology n) (s₀ s : Net n) (as : List (Action n))
    (h₀ : s₀.Initial) (hr : Run (Net.step T) Unforced s₀ as s) :
    (∀ p ∈ s.inFlight, (∀ q, p.frame.body ≠ .rreq q) → ∃ a, p.frame.body.target = some a ∧
      (p.dst ≠ a → ((s.receive T p).1.routingTable a).outgoingIf ≠ 0) ∧
      Out.badIndex ∉ (s.receive T p).2) ∧
    ∀ p c hops, RelayChain T s p (c :: hops) → (c :: hops).length ≤ c := by
  obtain ⟨hw, hv⟩ := reachable_vouched h₀ hr
  constructor
  · intro p hp hq
    obtain ⟨hroute, hbad⟩ := receive_has_route hw hv hp
    have ht : p.frame.body.target ≠ none := by
      cases hb : p.frame.body with
      | rreq q => exact absurd hb (hq q)
      | rrep r => simp [Message.target]
      | payload l => exact hv.addressed p hp l hb
    obtain ⟨a, ha⟩ := Option.ne_none_iff_exists'.mp ht
    exact ⟨a, ha, hroute a ha, hbad⟩
  · intro p c hops hc
    obtain ⟨c', _, hhead, hlen, _⟩ := hc.head_bound hw hv
    cases hhead
    exact hlen

theorem relay_progress_line :
    lineReply ∈ lineState.inFlight ∧
      ((lineState.receive line lineReply).1.routingTable 0).outgoingIf ≠ 0 ∧
      ∀ c hops, RelayChain line lineState lineReply (c :: hops) → (c :: hops).length ≤ c := by
  have h := relay_progress line (.started 3) lineState lineRun (Net.started_initial 3)
    line_unforced
  have hmem : lineReply ∈ lineState.inFlight := by decide
  obtain ⟨a, ha, hroute, _⟩ := h.1 lineReply hmem (by simp [lineReply])
  cases ha
  exact ⟨hmem, hroute (by decide), h.2 lineReply⟩

end NetLab.Odr
