import Mathlib.Data.Fin.VecNotation
import NetLab.Odr.Handlers

/-! Table rows and frames agree with the wiring of the topology, and no hop count
understates a distance. Both hold with forced discovery too. -/
namespace NetLab.Odr
open NetLab.Lib

/-- Rows name an interface of their node, and packets travel along a LAN. -/
structure Wired {n : ℕ} (T : Topology n) (s : Net n) : Prop where
  row_if : ∀ x d, (s.row x d).outgoingIf ≠ 0 →
    3 ≤ (s.row x d).outgoingIf ∧ (s.row x d).outgoingIf - 3 < T.ifCnt x
  pkt_if : ∀ p ∈ s.inFlight, p.srcIf < T.ifCnt p.src ∧ p.dstIf < T.ifCnt p.dst ∧
    T.lan p.dst p.dstIf = T.lan p.src p.srcIf ∧ (p.dst, p.dstIf) ≠ (p.src, p.srcIf)
  pkt_mac : ∀ p ∈ s.inFlight, T.Owns p.src p.frame.srcMac

theorem wired_initial {n : ℕ} (T : Topology n) {s : Net n} (h : s.Initial) : Wired T s where
  row_if := fun x d hd => absurd (h.1 x d) hd
  pkt_if := by simp [h.2]
  pkt_mac := by simp [h.2]

/-- A row after a delivery is the old row or the one read off the frame. -/
theorem receive_row {n : ℕ} (T : Topology n) (s : Net n) (p : Packet n) (d : Fin n) :
    (((s.receive T p).1.routingTable d).route = (s.row p.dst d).route) ∨
    ∃ a, p.frame.body.advert = some a ∧ d = a.addr ∧
      ((s.receive T p).1.routingTable d).route =
        (p.frame.srcMac, p.dstIf + 3, a.hopCnt + 1) := by
  have hr := onFrame_route (T.host p.dst) (s.node p.dst) p.dstIf p.frame d
  unfold learned at hr
  cases ha : p.frame.body.advert with
  | none =>
    rw [ha] at hr
    exact .inl hr
  | some a =>
    rw [ha] at hr
    dsimp only at hr
    by_cases hd : d = a.addr
    · rw [if_pos hd] at hr
      cases he : moreEfficient ((s.node p.dst).routingTable d) a.discovery a.hopCnt p.dstIf with
      | true =>
        rw [learn_of_moreEfficient _ he] at hr
        exact .inr ⟨a, rfl, hd, hr⟩
      | false =>
        rw [learn_of_not _ he] at hr
        exact .inl hr
    · rw [if_neg hd] at hr
      exact .inl hr

theorem receive_row_if {n : ℕ} {T : Topology n} {s : Net n} (h : Wired T s) {p : Packet n}
    (hp : p ∈ s.inFlight) (d : Fin n)
    (hd : ((s.receive T p).1.routingTable d).outgoingIf ≠ 0) :
    3 ≤ ((s.receive T p).1.routingTable d).outgoingIf ∧
      ((s.receive T p).1.routingTable d).outgoingIf - 3 < T.ifCnt p.dst := by
  rcases receive_row T s p d with hr | ⟨a, _, _, hr⟩
  · obtain ⟨_, ho, _⟩ := route_eq_iff.mp hr
    rw [ho] at hd ⊢
    exact h.row_if p.dst d hd
  · have ho : ((s.receive T p).1.routingTable d).outgoingIf = p.dstIf + 3 := by
      simpa [RoutingEntry.route] using congrArg (fun r => r.2.1) hr
    rw [ho]
    exact ⟨by omega, by simpa using (h.pkt_if p hp).2.1⟩

theorem sends_wired {n : ℕ} {T : Topology n} {s : Net n} (h : Wired T s) {p : Packet n}
    (hp : p ∈ s.inFlight) {i : ℕ} {g : Frame n} (hs : .send i g ∈ (s.receive T p).2) :
    i < T.ifCnt p.dst ∧ T.Owns p.dst g.srcMac := by
  have hrow := receive_row_if h hp
  cases onFrame_sends hs with
  | flood hf hi hne => exact ⟨hi, i, hi, rfl⟩
  | @answer q r hf hsent hout hsrc hdst hr =>
    exact ⟨(h.pkt_if p hp).2.1, _, (hrow q.srcAddr (by unfold Net.receive; omega)).2, rfl⟩
  | @relay a hf ha hout =>
    have hv := (hrow a (by unfold Net.receive; omega)).2
    exact ⟨hv, _, hv, rfl⟩

theorem originates_wired {n : ℕ} {T : Topology n} {s : Net n} (h : Wired T s) {x : Fin n}
    {m : LocalMsg n} {i : ℕ} {g : Frame n}
    (hs : .send i g ∈ (onLocal (T.host x) (s.node x) m).2) :
    i < T.ifCnt x ∧ T.Owns x g.srcMac := by
  cases onLocal_originates hs with
  | request hi hsrc hdst hhop hsent hdisc => exact ⟨hi, i, hi, rfl⟩
  | @payload a l hl hout =>
    have hv := (h.row_if x a (by unfold Net.row; omega)).2
    exact ⟨hv, _, hv, rfl⟩

/-- Induction step shared by the packet invariants: a packet in flight after a handler of
`x` ran was in flight before, or is a copy of a frame that the handler sent. -/
theorem mem_act_cases {n : ℕ} {T : Topology n} {s : Net n} {x : Fin n}
    {r : Node n × List (Out n)} {p : Packet n} (hp : p ∈ (s.act T x r).inFlight) :
    p ∈ s.inFlight ∨ (.send p.srcIf p.frame ∈ r.2 ∧ p.src = x ∧ p.dstIf < T.ifCnt p.dst ∧
      T.lan p.dst p.dstIf = T.lan x p.srcIf ∧ (p.dst, p.dstIf) ≠ (x, p.srcIf) ∧
      (p.frame.dstMac = broadcastMac ∨ p.frame.dstMac = T.mac p.dst p.dstIf)) := by
  rcases (Net.mem_act T s x r p).mp hp with hp | ⟨o, ho, hp⟩
  · exact .inl hp
  · obtain ⟨rfl, hrest⟩ := T.mem_transmit.mp hp
    exact .inr ⟨ho, hrest⟩

theorem wired_act {n : ℕ} {T : Topology n} {s : Net n} {x : Fin n}
    {r : Node n × List (Out n)}
    (hpkt : ∀ p ∈ s.inFlight, (p.srcIf < T.ifCnt p.src ∧ p.dstIf < T.ifCnt p.dst ∧
      T.lan p.dst p.dstIf = T.lan p.src p.srcIf ∧ (p.dst, p.dstIf) ≠ (p.src, p.srcIf)) ∧
      T.Owns p.src p.frame.srcMac)
    (hrow : ∀ y d, (s.row y d).outgoingIf ≠ 0 →
      3 ≤ (s.row y d).outgoingIf ∧ (s.row y d).outgoingIf - 3 < T.ifCnt y)
    (hx : ∀ d, (r.1.routingTable d).outgoingIf ≠ 0 →
      3 ≤ (r.1.routingTable d).outgoingIf ∧ (r.1.routingTable d).outgoingIf - 3 < T.ifCnt x)
    (hsend : ∀ i g, .send i g ∈ r.2 → i < T.ifCnt x ∧ T.Owns x g.srcMac) :
    Wired T (s.act T x r) where
  row_if := by
    intro y d hd
    unfold Net.row at hd ⊢
    by_cases hy : y = x
    · subst hy
      rw [Net.act_node_self] at hd ⊢
      exact hx d hd
    · rw [Net.act_node_of_ne T s hy] at hd ⊢
      exact hrow y d hd
  pkt_if := by
    intro p hp
    rcases mem_act_cases hp with hp | ⟨hs, hsrc, hi, hl, hne, _⟩
    · exact (hpkt p hp).1
    · rw [hsrc]
      exact ⟨(hsend _ _ hs).1, hi, hl, hne⟩
  pkt_mac := by
    intro p hp
    rcases mem_act_cases hp with hp | ⟨hs, hsrc, _⟩
    · exact (hpkt p hp).2
    · rw [hsrc]
      exact (hsend _ _ hs).2

theorem wired_step {n : ℕ} {T : Topology n} {s t : Net n} {a : Action n} (h : Wired T s)
    (hs : s.step T a = some t) : Wired T t := by
  have hpkt := fun p hp => And.intro (h.pkt_if p hp) (h.pkt_mac p hp)
  rcases Net.step_cases hs with ⟨x, m, _, rfl⟩ | ⟨k, p, _, hp, rfl⟩ | ⟨_, hn, hf⟩
  · refine wired_act hpkt h.row_if ?_ (fun i g hg => originates_wired h hg)
    rw [onLocal_routingTable]
    exact h.row_if x
  · have hp := List.mem_of_getElem? hp
    refine wired_act (fun q hq => hpkt q (Net.mem_of_mem_drop hq)) h.row_if
      (receive_row_if h hp) (fun i g hg => sends_wired h hp hg)
  · exact ⟨by unfold Net.row; rw [hn]; exact h.row_if, fun p hp => h.pkt_if p (hf p hp),
      fun p hp => h.pkt_mac p (hf p hp)⟩

theorem Wired.hop {n : ℕ} {T : Topology n} {s : Net n} (h : Wired T s) {p : Packet n}
    (hp : p ∈ s.inFlight) : T.Hop p.dst p.src := by
  obtain ⟨hi, hj, hl, hne⟩ := h.pkt_if p hp
  exact ⟨p.dstIf, hj, p.srcIf, hi, hl, hne⟩

/-- Every row and every advertisement stands for a walk of exactly its hop count. -/
structure HopsAreWalks {n : ℕ} (T : Topology n) (s : Net n) : Prop where
  row : ∀ x d, (s.row x d).outgoingIf ≠ 0 → Walk T.Hop (s.row x d).hopCnt x d
  advert : ∀ p ∈ s.inFlight, ∀ a, p.frame.body.advert = some a →
    Walk T.Hop a.hopCnt p.src a.addr
  named : ∀ p ∈ s.inFlight, ∀ r, p.frame.body = .rrep r → r.srcAddr ≠ none

theorem receive_walk {n : ℕ} {T : Topology n} {s : Net n} (hw : Wired T s)
    (h : HopsAreWalks T s) {p : Packet n} (hp : p ∈ s.inFlight) (d : Fin n)
    (hd : ((s.receive T p).1.routingTable d).outgoingIf ≠ 0) :
    Walk T.Hop ((s.receive T p).1.routingTable d).hopCnt p.dst d := by
  rcases receive_row T s p d with hr | ⟨a, ha, rfl, hr⟩
  · obtain ⟨_, ho, hc⟩ := route_eq_iff.mp hr
    rw [hc]
    exact h.row p.dst d (by rwa [← ho])
  · have hc : ((s.receive T p).1.routingTable a.addr).hopCnt = a.hopCnt + 1 := by
      simpa [RoutingEntry.route] using congrArg (fun r => r.2.2) hr
    rw [hc]
    exact .cons (hw.hop hp) (h.advert p hp a ha)

theorem sends_walk {n : ℕ} {T : Topology n} {s : Net n} (hw : Wired T s)
    (h : HopsAreWalks T s) {p : Packet n} (hp : p ∈ s.inFlight) {i : ℕ} {g : Frame n}
    (hs : .send i g ∈ (s.receive T p).2) {a : Advert n} (ha : g.body.advert = some a) :
    Walk T.Hop a.hopCnt p.dst a.addr := by
  rcases (onFrame_sends hs).advert ha with ⟨hx, hc⟩ | ⟨b, hb, hx, hc⟩ | ⟨ho, hc⟩
  · rw [hx, hc]
    exact .nil p.dst
  · rw [← hx, ← hc]
    exact .cons (hw.hop hp) (h.advert p hp b hb)
  · rw [hc]
    exact receive_walk hw h hp a.addr ho

theorem originates_walk {n : ℕ} {T : Topology n} {s : Net n} {x : Fin n} {m : LocalMsg n}
    {i : ℕ} {g : Frame n} (hs : .send i g ∈ (onLocal (T.host x) (s.node x) m).2) :
    (∀ a, g.body.advert = some a → Walk T.Hop a.hopCnt x a.addr) ∧
      ∀ r, g.body ≠ .rrep r := by
  cases onLocal_originates hs with
  | request hi hsrc hdst hhop hsent hdisc =>
    refine ⟨?_, by simp⟩
    intro a ha
    cases ha
    dsimp only
    rw [hhop, hsrc]
    exact .nil x
  | payload hl hout => exact ⟨by simp [Message.advert], by simp⟩

theorem hopsAreWalks_act {n : ℕ} {T : Topology n} {s : Net n} {x : Fin n}
    {r : Node n × List (Out n)} (h : HopsAreWalks T s)
    (hx : ∀ d, (r.1.routingTable d).outgoingIf ≠ 0 →
      Walk T.Hop (r.1.routingTable d).hopCnt x d)
    (hsend : ∀ i g, .send i g ∈ r.2 →
      (∀ a, g.body.advert = some a → Walk T.Hop a.hopCnt x a.addr) ∧
        ∀ q, g.body = .rrep q → q.srcAddr ≠ none) : HopsAreWalks T (s.act T x r) where
  row := by
    intro y d hd
    unfold Net.row at hd ⊢
    by_cases hy : y = x
    · subst hy
      rw [Net.act_node_self] at hd ⊢
      exact hx d hd
    · rw [Net.act_node_of_ne T s hy] at hd ⊢
      exact h.row y d hd
  advert := by
    intro p hp a ha
    rcases mem_act_cases hp with hp | ⟨hs, hsrc, _⟩
    · exact h.advert p hp a ha
    · rw [hsrc]
      exact (hsend _ _ hs).1 a ha
  named := by
    intro p hp q hq
    rcases mem_act_cases hp with hp | ⟨hs, _⟩
    · exact h.named p hp q hq
    · exact (hsend _ _ hs).2 q hq

theorem hopsAreWalks_step {n : ℕ} {T : Topology n} {s t : Net n} {a : Action n}
    (hw : Wired T s) (h : HopsAreWalks T s) (hs : s.step T a = some t) : HopsAreWalks T t := by
  rcases Net.step_cases hs with ⟨x, m, _, rfl⟩ | ⟨k, p, _, hp, rfl⟩ | ⟨_, hn, hf⟩
  · refine hopsAreWalks_act h ?_ ?_
    · rw [onLocal_routingTable]
      exact h.row x
    · intro i g hg
      obtain ⟨ha, hr⟩ := originates_walk hg
      exact ⟨ha, fun q hq => absurd hq (hr q)⟩
  · have hp := List.mem_of_getElem? hp
    have hd : HopsAreWalks T (s.drop k) := ⟨h.row,
      fun q hq => h.advert q (Net.mem_of_mem_drop hq),
      fun q hq => h.named q (Net.mem_of_mem_drop hq)⟩
    refine hopsAreWalks_act hd (receive_walk hw h hp) ?_
    intro i g hg
    exact ⟨fun a ha => sends_walk hw h hp hg ha, (onFrame_sends hg).named (h.named p hp)⟩
  · refine ⟨?_, fun p hp => h.advert p (hf p hp), fun p hp => h.named p (hf p hp)⟩
    unfold Net.row
    rw [hn]
    exact h.row

theorem reachable_walks {n : ℕ} {T : Topology n} {s₀ s : Net n} {as : List (Action n)}
    (h₀ : s₀.Initial) (hr : Run (Net.step T) (fun _ _ => True) s₀ as s) :
    Wired T s ∧ HopsAreWalks T s := by
  have hi : HopsAreWalks T s₀ :=
    ⟨fun x d hd => absurd (h₀.1 x d) hd, by simp [h₀.2], by simp [h₀.2]⟩
  exact hr.invariant (fun s => Wired T s ∧ HopsAreWalks T s)
    (fun s t a h _ hs => ⟨wired_step h.1 hs, hopsAreWalks_step h.1 h.2 hs⟩)
    ⟨wired_initial T h₀, hi⟩

/-- Hop counts never understate a distance, with any mix of forced and unforced requests and
any loss, duplication and reordering of frames. -/
theorem hopCnt_is_walk_length {n : ℕ} (T : Topology n) (s₀ s : Net n) (as : List (Action n))
    (h₀ : s₀.Initial) (hr : Run (Net.step T) (fun _ _ => True) s₀ as s) :
    (∀ x d, (s.row x d).outgoingIf ≠ 0 → Walk T.Hop (s.row x d).hopCnt x d) ∧
    (∀ p ∈ s.inFlight, ∀ q, p.frame.body = .rreq q →
      Walk T.Hop q.hopCnt p.src q.srcAddr) ∧
    ∀ p ∈ s.inFlight, ∀ r, p.frame.body = .rrep r →
      ∃ d, r.srcAddr = some d ∧ Walk T.Hop r.hopCnt p.src d := by
  obtain ⟨_, hw⟩ := reachable_walks h₀ hr
  refine ⟨hw.row, ?_, ?_⟩
  · intro p hp q hq
    exact hw.advert p hp _ (Message.advert_rreq hq)
  · intro p hp r hr
    obtain ⟨d, hd⟩ := Option.ne_none_iff_exists'.mp (hw.named p hp r hr)
    exact ⟨d, hd, hw.advert p hp ⟨d, r.hopCnt, r.discovery⟩ (by simp [hr, Message.advert, hd])⟩

def line : Topology 3 := .ofLans ![[0], [0, 1], [1]]

def lineRun : List (Action 3) :=
  [.app 0 ⟨"240411c", some 2, 5000, "hi", 0⟩, .deliver 0, .deliver 0]

def lineState : Net 3 := (exec (Net.step line) (.started 3) lineRun).getD (.started 3)

def lineReply : Packet 3 := ⟨2, 0, 1, 1, ⟨6, 12, .rrep ⟨some 2, 0, 6000, 0, false⟩⟩⟩

theorem line_run {ok : Net 3 → Action 3 → Prop} (hok : ∀ a ∈ lineRun, ∀ u, ok u a) :
    Run (Net.step line) ok (.started 3) lineRun lineState := .of_exec hok rfl

theorem hopCnt_is_walk_length_line :
    (lineState.row 2 0).outgoingIf ≠ 0 ∧ Walk line.Hop 2 2 0 ∧ lineState.inFlight ≠ [] := by
  refine ⟨by decide, ?_, by decide⟩
  exact (hopCnt_is_walk_length line (.started 3) lineState lineRun (Net.started_initial 3)
    (line_run fun _ _ _ => trivial)).1 2 0 (by decide)

end NetLab.Odr
