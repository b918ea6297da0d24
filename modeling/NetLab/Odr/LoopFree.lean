import Mathlib.Logic.Relation
import NetLab.Odr.HopCount

/-! Loop freedom of the next hops when no application forces a discovery. -/
namespace NetLab.Odr
open NetLab.Lib

/-- Node `y` is `a`, or holds a route to `a` of at most `c` hops. -/
def Net.Vouches {n : ℕ} (s : Net n) (y a : Fin n) (c : ℕ) : Prop :=
  y = a ∨ ((s.row y a).outgoingIf ≠ 0 ∧ (s.row y a).hopCnt ≤ c)

/-- No route is lost or lengthened. -/
def Net.Improves {n : ℕ} (s t : Net n) : Prop :=
  ∀ x d, (s.row x d).outgoingIf ≠ 0 →
    (t.row x d).outgoingIf ≠ 0 ∧ (t.row x d).hopCnt ≤ (s.row x d).hopCnt

theorem Net.Improves.refl {n : ℕ} (s : Net n) : s.Improves s := fun _ _ h => ⟨h, le_rfl⟩

theorem Net.Improves.trans {n : ℕ} {s t u : Net n} (h : s.Improves t) (h' : t.Improves u) :
    s.Improves u := by
  intro x d hd
  obtain ⟨ht, hle⟩ := h x d hd
  obtain ⟨hu, hle'⟩ := h' x d ht
  exact ⟨hu, hle'.trans hle⟩

theorem Net.Vouches.mono {n : ℕ} {s t : Net n} (hi : s.Improves t) {y a : Fin n} {c : ℕ}
    (h : s.Vouches y a c) : t.Vouches y a c := by
  rcases h with rfl | ⟨ho, hc⟩
  · exact .inl rfl
  · obtain ⟨ho', hc'⟩ := hi y a ho
    exact .inr ⟨ho', hc'.trans hc⟩

/-- Every stored or advertised hop count is vouched for by the node it leads to next, and
every unicast frame travels to a node that can pass it on. -/
structure Vouched {n : ℕ} (T : Topology n) (s : Net n) : Prop where
  row : ∀ x d, (s.row x d).outgoingIf ≠ 0 → ∃ y c, T.Owns y (s.row x d).nextHop ∧
    (s.row x d).hopCnt = c + 1 ∧ s.Vouches y d c
  advert : ∀ p ∈ s.inFlight, ∀ a, p.frame.body.advert = some a →
    s.Vouches p.src a.addr a.hopCnt ∧ a.discovery = false
  target : ∀ p ∈ s.inFlight, ∀ a, p.frame.body.target = some a →
    p.dst = a ∨ (s.row p.dst a).outgoingIf ≠ 0
  addressed : ∀ p ∈ s.inFlight, ∀ l, p.frame.body = .payload l → l.dstAddr ≠ none

theorem vouched_initial {n : ℕ} (T : Topology n) {s : Net n} (h : s.Initial) :
    Vouched T s where
  row := fun x d hd => absurd (h.1 x d) hd
  advert := by simp [h.2]
  target := by simp [h.2]
  addressed := by simp [h.2]

theorem dst_eq_of_owns {n : ℕ} {T : Topology n} {p : Packet n} {y : Fin n}
    (hi : p.dstIf < T.ifCnt p.dst)
    (hm : p.frame.dstMac = broadcastMac ∨ p.frame.dstMac = T.mac p.dst p.dstIf)
    (hy : T.Owns y p.frame.dstMac) : p.dst = y := by
  obtain ⟨j, hj, hmac⟩ := hy
  rcases hm with hm | hm
  · exact absurd (hmac.trans hm) (T.mac_ne_broadcast y j hj)
  · exact (T.mac_inj p.dst p.dstIf y j hi hj (hm.symm.trans hmac.symm)).1

theorem Net.Vouches.of_target {n : ℕ} {s : Net n} {y a : Fin n} {c : ℕ} (h : s.Vouches y a c) :
    y = a ∨ (s.row y a).outgoingIf ≠ 0 := by
  rcases h with h | h
  · exact .inl h
  · exact .inr h.1

theorem act_improves {n : ℕ} {T : Topology n} {s : Net n} {x : Fin n}
    {r : Node n × List (Out n)}
    (hx : ∀ d, (s.row x d).outgoingIf ≠ 0 → (r.1.routingTable d).outgoingIf ≠ 0 ∧
      (r.1.routingTable d).hopCnt ≤ (s.row x d).hopCnt) : s.Improves (s.act T x r) := by
  intro y d hd
  unfold Net.row at hd ⊢
  by_cases hy : y = x
  · subst hy
    rw [Net.act_node_self]
    exact hx d hd
  · rw [Net.act_node_of_ne T s hy]
    exact ⟨hd, le_rfl⟩

theorem local_improves {n : ℕ} (T : Topology n) (s : Net n) (x : Fin n) (m : LocalMsg n) :
    s.Improves (s.act T x (onLocal (T.host x) (s.node x) m)) := by
  apply act_improves
  intro d hd
  rw [onLocal_routingTable]
  exact ⟨hd, le_rfl⟩

/-- The row of the advertised node after an unforced frame was handled. -/
theorem receive_vouches {n : ℕ} {T : Topology n} {s : Net n} {p : Packet n} {a : Advert n}
    (ha : p.frame.body.advert = some a) :
    ((s.receive T p).1.routingTable a.addr).outgoingIf ≠ 0 ∧
      ((s.receive T p).1.routingTable a.addr).hopCnt ≤ a.hopCnt + 1 := by
  have hr := onFrame_route (T.host p.dst) (s.node p.dst) p.dstIf p.frame a.addr
  simp only [learned, ha, if_true] at hr
  obtain ⟨_, ho, hc⟩ := route_eq_iff.mp hr
  unfold Net.receive
  rw [ho, hc]
  exact ⟨learn_outgoingIf_ne _ _ _ _ _, learn_hopCnt_le _ _ _ _ _⟩

theorem receive_improves {n : ℕ} {T : Topology n} {s : Net n} {p : Packet n}
    (hf : ∀ a, p.frame.body.advert = some a → a.discovery = false) (d : Fin n)
    (hd : (s.row p.dst d).outgoingIf ≠ 0) :
    ((s.receive T p).1.routingTable d).outgoingIf ≠ 0 ∧
      ((s.receive T p).1.routingTable d).hopCnt ≤ (s.row p.dst d).hopCnt := by
  have hr := onFrame_route (T.host p.dst) (s.node p.dst) p.dstIf p.frame d
  obtain ⟨_, ho, hc⟩ := route_eq_iff.mp hr
  unfold Net.receive
  rw [ho, hc]
  unfold learned
  cases ha : p.frame.body.advert with
  | none => exact ⟨hd, le_rfl⟩
  | some a =>
    dsimp only
    split_ifs
    · rw [hf a ha]
      exact ⟨learn_outgoingIf_ne _ _ _ _ _, learn_hopCnt_le_old hd _ _ _⟩
    · exact ⟨hd, le_rfl⟩

/-- A handler that only improves its table keeps the network vouched for, if its rows and
its frames are. -/
theorem vouched_act {n : ℕ} {T : Topology n} {s : Net n} {x : Fin n}
    {r : Node n × List (Out n)} (h : Vouched T s) (hi : s.Improves (s.act T x r))
    (hx : ∀ d, (r.1.routingTable d).outgoingIf ≠ 0 → ∃ y c,
      T.Owns y (r.1.routingTable d).nextHop ∧ (r.1.routingTable d).hopCnt = c + 1 ∧
        (s.act T x r).Vouches y d c)
    (hadv : ∀ i g, .send i g ∈ r.2 → ∀ a, g.body.advert = some a →
      (s.act T x r).Vouches x a.addr a.hopCnt ∧ a.discovery = false)
    (htgt : ∀ i g, .send i g ∈ r.2 → ∀ a, g.body.target = some a → ∃ y,
      T.Owns y g.dstMac ∧ (y = a ∨ ((s.act T x r).row y a).outgoingIf ≠ 0))
    (hdst : ∀ i g, .send i g ∈ r.2 → ∀ l, g.body = .payload l → l.dstAddr ≠ none) :
    Vouched T (s.act T x r) where
  row := by
    intro y d hd
    by_cases hy : y = x
    · subst hy
      unfold Net.row at hd ⊢
      rw [Net.act_node_self] at hd ⊢
      exact hx d hd
    · have hrow : (s.act T x r).row y d = s.row y d := by
        unfold Net.row
        rw [Net.act_node_of_ne T s hy]
      rw [hrow] at hd ⊢
      obtain ⟨z, c, ho, hc, hv⟩ := h.row y d hd
      exact ⟨z, c, ho, hc, hv.mono hi⟩
  advert := by
    intro p hp a ha
    rcases mem_act_cases hp with hp | ⟨hs, hsrc, _⟩
    · obtain ⟨hv, hd⟩ := h.advert p hp a ha
      exact ⟨hv.mono hi, hd⟩
    · rw [hsrc]
      exact hadv _ _ hs a ha
  target := by
    intro p hp a ha
    rcases mem_act_cases hp with hp | ⟨hs, _, hj, _, _, hm⟩
    · rcases h.target p hp a ha with ht | ht
      · exact .inl ht
      · exact .inr (hi p.dst a ht).1
    · obtain ⟨y, hy, ht⟩ := htgt _ _ hs a ha
      rwa [dst_eq_of_owns hj hm hy]
  addressed := by
    intro p hp l hl
    rcases mem_act_cases hp with hp | ⟨hs, _⟩
    · exact h.addressed p hp l hl
    · exact hdst _ _ hs l hl

theorem Vouched.drop {n : ℕ} {T : Topology n} {s : Net n} (h : Vouched T s) (k : ℕ) :
    Vouched T (s.drop k) :=
  ⟨h.row, fun p hp => h.advert p (Net.mem_of_mem_drop hp),
    fun p hp => h.target p (Net.mem_of_mem_drop hp),
    fun p hp => h.addressed p (Net.mem_of_mem_drop hp)⟩

theorem vouched_local {n : ℕ} {T : Topology n} {s : Net n} (h : Vouched T s) (x : Fin n)
    {m : LocalMsg n} (hm : m.flag ≠ 1) :
    Vouched T (s.act T x (onLocal (T.host x) (s.node x) m)) := by
  have hi := local_improves T s x m
  refine vouched_act h hi ?_ ?_ ?_ ?_
  · rw [onLocal_routingTable]
    intro d hd
    obtain ⟨y, c, ho, hc, hv⟩ := h.row x d hd
    exact ⟨y, c, ho, hc, hv.mono hi⟩
  · intro i g hg a ha
    cases onLocal_originates hg with
    | request _ hsrc _ _ _ hdisc =>
      cases ha
      exact ⟨.inl hsrc.symm, by simp [hdisc, hm]⟩
    | payload => cases ha
  · intro i g hg a ha
    cases onLocal_originates hg with
    | request => cases ha
    | @payload b l hl hout =>
      rw [Message.target, hl] at ha
      cases ha
      obtain ⟨y, c, ho, _, hv⟩ := h.row x a (by unfold Net.row; omega)
      exact ⟨y, ho, (hv.mono hi).of_target⟩
  · intro i g hg l hl
    cases onLocal_originates hg with
    | request => cases hl
    | payload hd _ =>
      cases hl
      simp [hd]

theorem receive_row_vouched {n : ℕ} {T : Topology n} {s t : Net n} (hw : Wired T s)
    (h : Vouched T s) (hi : s.Improves t) {p : Packet n} (hp : p ∈ s.inFlight) (d : Fin n)
    (hd : ((s.receive T p).1.routingTable d).outgoingIf ≠ 0) :
    ∃ y c, T.Owns y ((s.receive T p).1.routingTable d).nextHop ∧
      ((s.receive T p).1.routingTable d).hopCnt = c + 1 ∧ t.Vouches y d c := by
  rcases receive_row T s p d with hr | ⟨a, ha, rfl, hr⟩
  · obtain ⟨hm, ho, hc⟩ := route_eq_iff.mp hr
    obtain ⟨y, c, hy, hyc, hv⟩ := h.row p.dst d (by rwa [← ho])
    exact ⟨y, c, by rwa [hm], by rw [hc, hyc], hv.mono hi⟩
  · simp only [RoutingEntry.route, Prod.mk.injEq] at hr
    obtain ⟨hm, _, hc⟩ := hr
    refine ⟨p.src, a.hopCnt, ?_, hc, (h.advert p hp a ha).1.mono hi⟩
    rw [hm]
    exact hw.pkt_mac p hp

theorem vouched_deliver {n : ℕ} {T : Topology n} {s : Net n} (hw : Wired T s)
    (h : Vouched T s) {p : Packet n} (hp : p ∈ s.inFlight) (k : ℕ) :
    s.Improves ((s.drop k).act T p.dst (s.receive T p)) ∧
      Vouched T ((s.drop k).act T p.dst (s.receive T p)) := by
  have hi : s.Improves ((s.drop k).act T p.dst (s.receive T p)) :=
    act_improves (s := s.drop k) (receive_improves fun a ha => (h.advert p hp a ha).2)
  have hrow := receive_row_vouched hw h hi hp
  have hself : ∀ a, ((s.drop k).act T p.dst (s.receive T p)).row p.dst a =
      (s.receive T p).1.routingTable a := by
    intro a
    unfold Net.row
    rw [Net.act_node_self]
  refine ⟨hi, vouched_act (h.drop k) hi hrow ?_ ?_ ?_⟩
  · intro i g hg a ha
    have hs := onFrame_sends hg
    constructor
    · rcases hs.advert ha with ⟨hx, _⟩ | ⟨b, hb, hx, hc⟩ | ⟨ho, hc⟩
      · exact .inl hx.symm
      · obtain ⟨ho', hc'⟩ := receive_vouches (T := T) (s := s) hb
        rw [hx] at ho' hc'
        exact .inr ⟨by rwa [hself], by rw [hself]; omega⟩
      · exact .inr ⟨by rw [hself]; exact ho, by rw [hself]; exact hc.ge⟩
    · cases hd : a.discovery with
      | false => rfl
      | true =>
        obtain ⟨b, hb, hbd⟩ := hs.discovery ha hd
        rw [(h.advert p hp b hb).2] at hbd
        cases hbd
  · intro i g hg a ha
    cases onFrame_sends hg with
    | flood => cases ha
    | @answer q r hf _ _ _ hdst _ =>
      cases ha
      refine ⟨p.src, hw.pkt_mac p hp, ?_⟩
      have hv := (h.advert p hp _ (Message.advert_rreq hf)).1
      rw [hdst]
      exact (hv.mono hi).of_target
    | @relay b hf _ hout =>
      obtain rfl : b = a := by simpa [hf] using ha
      obtain ⟨y, c, ho, _, hv⟩ := hrow b (by unfold Net.receive; omega)
      exact ⟨y, ho, hv.of_target⟩
  · intro i g hg l hl
    cases onFrame_sends hg with
    | flood => cases hl
    | answer => cases hl
    | @relay b hf _ _ =>
      exact h.addressed p hp l (Message.relayed_payload hl)

theorem vouched_step {n : ℕ} {T : Topology n} {s t : Net n} {a : Action n} (hw : Wired T s)
    (h : Vouched T s) (hok : Unforced s a) (hs : s.step T a = some t) :
    s.Improves t ∧ Vouched T t := by
  rcases Net.step_cases hs with ⟨x, m, rfl, rfl⟩ | ⟨k, p, _, hp, rfl⟩ | ⟨_, hn, hf⟩
  · exact ⟨local_improves T s x m, vouched_local h x hok⟩
  · exact vouched_deliver hw h (List.mem_of_getElem? hp) k
  · have hrow : ∀ x d, t.row x d = s.row x d := by
      intro x d
      unfold Net.row
      rw [hn]
    have hi : s.Improves t := by
      intro x d hd
      rw [hrow]
      exact ⟨hd, le_rfl⟩
    refine ⟨hi, ⟨?_, ?_, ?_, fun p hp => h.addressed p (hf p hp)⟩⟩
    · intro x d hd
      rw [hrow] at hd ⊢
      obtain ⟨y, c, ho, hc, hv⟩ := h.row x d hd
      exact ⟨y, c, ho, hc, hv.mono hi⟩
    · intro p hp b hb
      obtain ⟨hv, hd⟩ := h.advert p (hf p hp) b hb
      exact ⟨hv.mono hi, hd⟩
    · intro p hp b hb
      rw [hrow]
      exact h.target p (hf p hp) b hb

/-- The invariants of a run without forced discovery. -/
theorem reachable_vouched {n : ℕ} {T : Topology n} {s₀ s : Net n} {as : List (Action n)}
    (h₀ : s₀.Initial) (hr : Run (Net.step T) Unforced s₀ as s) : Wired T s ∧ Vouched T s :=
  hr.invariant (fun s => Wired T s ∧ Vouched T s)
    (fun _ _ _ h hok hs => ⟨wired_step h.1 hs, (vouched_step h.1 h.2 hok hs).2⟩)
    ⟨wired_initial T h₀, vouched_initial T h₀⟩

/-- `y` is the node to which `x` sends a frame for `d`. -/
def NextHop {n : ℕ} (T : Topology n) (s : Net n) (d x y : Fin n) : Prop :=
  x ≠ d ∧ (s.row x d).outgoingIf ≠ 0 ∧ T.Owns y (s.row x d).nextHop

theorem Vouched.nextHop {n : ℕ} {T : Topology n} {s : Net n} (h : Vouched T s)
    {d x y : Fin n} (hn : NextHop T s d x y) :
    y = d ∨ ((s.row y d).outgoingIf ≠ 0 ∧ (s.row y d).hopCnt < (s.row x d).hopCnt) := by
  obtain ⟨z, c, hz, hc, hv⟩ := h.row x d hn.2.1
  have hzy : z = y := T.owns_unique hz hn.2.2
  subst hzy
  rcases hv with hv | ⟨ho, hle⟩
  · exact .inl hv
  · exact .inr ⟨ho, by omega⟩

theorem Vouched.walk {n : ℕ} {T : Topology n} {s : Net n} (h : Vouched T s) (d : Fin n)
    (c : ℕ) (x : Fin n) (hx : x ≠ d) (ho : (s.row x d).outgoingIf ≠ 0)
    (hc : (s.row x d).hopCnt ≤ c) :
    ∃ k ≤ (s.row x d).hopCnt, Walk (NextHop T s d) k x d := by
  induction c generalizing x with
  | zero =>
    obtain ⟨_, _, _, hc', _⟩ := h.row x d ho
    omega
  | succ c ih =>
    obtain ⟨y, b, hy, hb, _⟩ := h.row x d ho
    have hn : NextHop T s d x y := ⟨hx, ho, hy⟩
    by_cases hyd : y = d
    · subst hyd
      exact ⟨1, by omega, .single hn⟩
    · rcases h.nextHop hn with hy' | ⟨ho', hlt⟩
      · exact absurd hy' hyd
      · obtain ⟨k, hk, hw⟩ := ih y hyd ho' (by omega)
        exact ⟨k + 1, by omega, .cons hn hw⟩

theorem Vouched.descends {n : ℕ} {T : Topology n} {s : Net n} (h : Vouched T s) {d x y : Fin n}
    (ht : Relation.TransGen (NextHop T s d) x y) :
    x ≠ d ∧ (y = d ∨ (s.row y d).hopCnt < (s.row x d).hopCnt) := by
  induction ht with
  | single hn => exact ⟨hn.1, (h.nextHop hn).imp_right And.right⟩
  | tail _ hn ih =>
    refine ⟨ih.1, ?_⟩
    rcases ih.2 with hy | hy
    · exact absurd hy hn.1
    · exact (h.nextHop hn).imp_right fun hz => hz.2.trans hy

/-- Loop freedom: every stored next hop is closer to the destination, so following next
hops reaches it within the stored hop count and never returns to a node. -/
theorem nextHop_loop_free {n : ℕ} (T : Topology n) (s₀ s : Net n) (as : List (Action n))
    (h₀ : s₀.Initial) (hr : Run (Net.step T) Unforced s₀ as s) :
    (∀ x d, x ≠ d → (s.row x d).outgoingIf ≠ 0 → ∃ y, T.Owns y (s.row x d).nextHop ∧
      (y = d ∨ ((s.row y d).outgoingIf ≠ 0 ∧ (s.row y d).hopCnt < (s.row x d).hopCnt))) ∧
    (∀ x d, x ≠ d → (s.row x d).outgoingIf ≠ 0 →
      ∃ k ≤ (s.row x d).hopCnt, Walk (NextHop T s d) k x d) ∧
    ∀ d x, ¬ Relation.TransGen (NextHop T s d) x x := by
  obtain ⟨_, hv⟩ := reachable_vouched h₀ hr
  refine ⟨?_, ?_, ?_⟩
  · intro x d hx ho
    obtain ⟨y, c, hy, _, _⟩ := hv.row x d ho
    exact ⟨y, hy, hv.nextHop ⟨hx, ho, hy⟩⟩
  · intro x d hx ho
    exact hv.walk d _ x hx ho le_rfl
  · intro d x hc
    obtain ⟨hx, hd | hlt⟩ := hv.descends hc
    · exact hx hd
    · omega

theorem line_unforced : Run (Net.step line) Unforced (.started 3) lineRun lineState :=
  line_run (by simp [lineRun, Unforced])

theorem nextHop_loop_free_line :
    (lineState.row 2 0).outgoingIf ≠ 0 ∧ (lineState.row 2 0).hopCnt = 2 ∧
      (∃ k ≤ 2, Walk (NextHop line lineState 0) k 2 0) ∧
      ¬ Relation.TransGen (NextHop line lineState 0) 1 1 := by
  have h := nextHop_loop_free line (.started 3) lineState lineRun (Net.started_initial 3)
    line_unforced
  exact ⟨by decide, by decide, h.2.1 2 0 (by decide) (by decide), h.2.2 0 1⟩

end NetLab.Odr
