import NetLab.Lib.Alternating
import NetLab.Odr.Flood

/-! The flood of a forced RREQ. Every copy passes for a better route, so every node but the
destination floods every copy on, and the flood ends exactly where copies cannot come round. -/
namespace NetLab.Odr
open NetLab.Lib

/-- Two interfaces of one node that is not the destination. -/
def Topology.Turn {n : ℕ} (T : Topology n) (dst : Option (Fin n)) (a b : Fin n × ℕ) : Prop :=
  a.1 = b.1 ∧ a.2 ≠ b.2 ∧ a.2 < T.ifCnt a.1 ∧ b.2 < T.ifCnt b.1 ∧ dst ≠ some a.1

def Topology.Wire {n : ℕ} (T : Topology n) (a b : Fin n × ℕ) : Prop :=
  a.2 < T.ifCnt a.1 ∧ b.2 < T.ifCnt b.1 ∧ T.lan a.1 a.2 = T.lan b.1 b.2 ∧ a ≠ b

def Topology.InterfaceOf {n : ℕ} (T : Topology n) (S : Fin n) (a : Fin n × ℕ) : Prop :=
  a.1 = S ∧ a.2 < T.ifCnt S

/-- A forced RREQ for `dst` that arrives at interface `a` is passed on to interface `c`. -/
abbrev Topology.Pass {n : ℕ} (T : Topology n) (dst : Option (Fin n)) :
    Fin n × ℕ → Fin n × ℕ → Prop := Relation.Comp (T.Turn dst) T.Wire

/-- A forced RREQ of `S` for `dst` can arrive at interface `a`. -/
abbrev Topology.Arrives {n : ℕ} (T : Topology n) (S : Fin n) (dst : Option (Fin n)) :
    Fin n × ℕ → Prop := Reached (T.Turn dst) T.Wire (T.InterfaceOf S)

theorem Topology.turn_joins {n : ℕ} (T : Topology n) (dst : Option (Fin n)) :
    Joins (T.Turn dst) where
  irrefl := fun a h => h.2.1 rfl
  symm := by
    rintro a b ⟨hx, hne, ha, hb, hd⟩
    exact ⟨hx.symm, hne.symm, hb, ha, hx ▸ hd⟩
  trans := by
    rintro a b c ⟨hx, _, ha, _, hd⟩ ⟨hy, _, _, hc, _⟩ hne
    refine ⟨hx.trans hy, ?_, ha, hc, hd⟩
    intro hi
    exact hne (Prod.ext (hx.trans hy) hi)

theorem Topology.wire_joins {n : ℕ} (T : Topology n) : Joins T.Wire where
  irrefl := fun a h => h.2.2.2 rfl
  symm := by
    rintro a b ⟨ha, hb, hl, hne⟩
    exact ⟨hb, ha, hl.symm, hne.symm⟩
  trans := by
    rintro a b c ⟨ha, _, hl, _⟩ ⟨_, hc, hl', _⟩ hne
    exact ⟨ha, hc, hl.trans hl', hne⟩

/-- Where a copy that arrives at interface `a` can come from. -/
def Topology.Upstream {n : ℕ} (T : Topology n) (S : Fin n) (dst : Option (Fin n)) (y : Fin n)
    (a : Fin n × ℕ) : Prop :=
  y = S ∨ ∃ k, T.Arrives S dst (y, k) ∧ T.Pass dst (y, k) a

theorem Wired.wire {n : ℕ} {T : Topology n} {s : Net n} (h : Wired T s) {p : Packet n}
    (hp : p ∈ s.inFlight) : T.Wire (p.src, p.srcIf) (p.dst, p.dstIf) := by
  obtain ⟨hi, hj, hl, hne⟩ := h.pkt_if p hp
  exact ⟨hi, hj, hl.symm, hne.symm⟩

/-- The traffic that one forced request of `S` for `dst` causes. -/
structure ForcedFlood {n : ℕ} (T : Topology n) (S : Fin n) (dst : Option (Fin n)) (s : Net n) :
    Prop where
  rreq : ∀ p ∈ s.inFlight, ∀ q, p.frame.body = .rreq q → q.srcAddr = S ∧ q.dstAddr = dst ∧
    q.discovery = true ∧ T.Arrives S dst (p.dst, p.dstIf) ∧
    T.Upstream S dst p.src (p.dst, p.dstIf)
  rrep : ∀ p ∈ s.inFlight, ∀ r, p.frame.body = .rrep r → r.srcAddr = dst ∧ r.dstAddr = S ∧
    r.discovery = true ∧ (dst = some S → p.dst = S ∨ p.src = S)
  payload : ∀ p ∈ s.inFlight, ∀ l, p.frame.body ≠ .payload l
  row : ∀ x, x ≠ S → (s.row x S).outgoingIf ≠ 0 →
    T.Arrives S dst (x, (s.row x S).outgoingIf - 3) ∧ ∃ y, T.Owns y (s.row x S).nextHop ∧
      T.Upstream S dst y (x, (s.row x S).outgoingIf - 3)

theorem onRreq_forced {n : ℕ} {h : Host n} {nd : Node n} {index : ℕ} {mac : Mac} {q : Rreq n}
    (hq : q.discovery = true) {i : ℕ} {g : Frame n}
    (hm : .send i g ∈ (onRreq h nd index mac q).2) :
    (q.dstAddr ≠ some h.node ∧ i < h.ifCnt ∧ i ≠ index ∧
      g = ⟨broadcastMac, h.ifAddr i, .rreq { q with hopCnt := q.hopCnt + 1 }⟩) ∨
    (q.dstAddr = some h.node ∧ i = index ∧ g.dstMac = mac ∧ ∃ r, g.body = .rrep r ∧
      r.srcAddr = q.dstAddr ∧ r.dstAddr = q.srcAddr ∧ r.discovery = true) := by
  rw [onRreq_out] at hm
  by_cases hd : q.dstAddr = some h.node
  · rw [if_pos hd] at hm
    obtain ⟨_, _, hr⟩ := mem_answer.mp hm
    obtain ⟨_, rfl, rfl⟩ := send_eq_reply hr
    exact .inr ⟨hd, rfl, rfl, _, rfl, rfl, rfl, hq⟩
  · rw [if_neg hd] at hm
    split at hm
    · rename_i route hk
      obtain ⟨_, _, _, hdisc, _⟩ := knownRoute_eq_some hk
      rw [hq] at hdisc
      cases hdisc
    · obtain ⟨hi, hne, rfl⟩ := mem_flood.mp (List.mem_ite_nil_right.mp hm).2
      exact .inl ⟨hd, hi, by simpa using hne, rfl⟩

theorem receive_forced {n : ℕ} {T : Topology n} {s : Net n} {p : Packet n} {a : Advert n}
    (ha : p.frame.body.advert = some a) (hd : a.discovery = true) :
    ((s.receive T p).1.routingTable a.addr).route =
      (p.frame.srcMac, p.dstIf + 3, a.hopCnt + 1) := by
  have hroute := onFrame_route (T.host p.dst) (s.node p.dst) p.dstIf p.frame a.addr
  unfold learned at hroute
  rw [ha] at hroute
  simp only [if_true] at hroute
  rw [learn_of_moreEfficient _ (by simp [moreEfficient, hd])] at hroute
  exact hroute

theorem ForcedFlood.row_deliver {n : ℕ} {T : Topology n} {S : Fin n} {dst : Option (Fin n)}
    {s : Net n} (h : ForcedFlood T S dst s) (hw : Wired T s) {p : Packet n}
    (hp : p ∈ s.inFlight) (hx : p.dst ≠ S)
    (ho : ((s.receive T p).1.routingTable S).outgoingIf ≠ 0) :
    T.Arrives S dst (p.dst, ((s.receive T p).1.routingTable S).outgoingIf - 3) ∧
      ∃ y, T.Owns y ((s.receive T p).1.routingTable S).nextHop ∧
        T.Upstream S dst y (p.dst, ((s.receive T p).1.routingTable S).outgoingIf - 3) := by
  rcases receive_row T s p S with hr | ⟨a, ha, haddr, hr⟩
  · obtain ⟨hnext, hout, _⟩ := route_eq_iff.mp hr
    rw [hout] at ho
    rw [hout, hnext]
    exact h.row p.dst hx ho
  · have hnext : ((s.receive T p).1.routingTable S).nextHop = p.frame.srcMac := by
      simpa [RoutingEntry.route] using congrArg (fun r => r.1) hr
    have hout : ((s.receive T p).1.routingTable S).outgoingIf = p.dstIf + 3 := by
      simpa [RoutingEntry.route] using congrArg (fun r => r.2.1) hr
    rw [hnext, hout, Nat.add_sub_cancel]
    have hmac := hw.pkt_mac p hp
    cases hb : p.frame.body with
    | rreq q =>
      obtain ⟨_, _, _, harr, hup⟩ := h.rreq p hp q hb
      exact ⟨harr, p.src, hmac, hup⟩
    | rrep r =>
      -- only the destination answers, so the source is its own destination here
      obtain ⟨hsrc, _, _, hself⟩ := h.rrep p hp r hb
      have hdst : dst = some S := by
        rw [hb] at ha
        simp only [Message.advert, Option.map_eq_some_iff] at ha
        obtain ⟨d, hd, rfl⟩ := ha
        rw [← hsrc, hd, haddr]
      have hfrom := (hself hdst).resolve_left hx
      have hwire := hw.wire hp
      rw [hfrom] at hwire hmac
      exact ⟨.start ⟨rfl, hwire.1⟩ hwire, S, hmac, .inl rfl⟩
    | payload l => exact absurd hb (h.payload p hp l)

/-- A RREP of `S` for itself comes straight from `S`, and goes straight back. -/
theorem ForcedFlood.owns_self {n : ℕ} {T : Topology n} {S : Fin n} {dst : Option (Fin n)}
    {s : Net n} (h : ForcedFlood T S dst s) (hw : Wired T s) {p : Packet n} (hp : p ∈ s.inFlight)
    {r : Rrep n} (hr : p.frame.body = .rrep r) (hx : p.dst ≠ S) (hS : dst = some S) :
    T.Owns S ((s.receive T p).1.routingTable S).nextHop := by
  obtain ⟨hsrc, _, hdisc, hself⟩ := h.rrep p hp r hr
  have hadv : p.frame.body.advert = some ⟨S, r.hopCnt, true⟩ := by
    rw [hr, Message.advert, hsrc, hS, hdisc]
    rfl
  have hlearn : ((s.receive T p).1.routingTable S).nextHop = p.frame.srcMac :=
    congrArg Prod.fst (receive_forced hadv rfl)
  rw [hlearn, ← (hself hS).resolve_left hx]
  exact hw.pkt_mac p hp

/-- The copies that the delivery of `p` puts in flight during a forced flood. -/
inductive ForcedCopy {n : ℕ} (T : Topology n) (S : Fin n) (dst : Option (Fin n)) (s : Net n)
    (p : Packet n) : Packet n → Prop
  | flood {p' : Packet n} {q q' : Rreq n} (hq : p.frame.body = .rreq q)
      (hq' : p'.frame.body = .rreq q') (hsrc : q'.srcAddr = S) (hdst : q'.dstAddr = dst)
      (hdisc : q'.discovery = true) (hfrom : p'.src = p.dst)
      (hpass : T.Pass dst (p.dst, p.dstIf) (p'.dst, p'.dstIf)) : ForcedCopy T S dst s p p'
  | answer {p' : Packet n} {q : Rreq n} {r : Rrep n} (hq : p.frame.body = .rreq q)
      (hr : p'.frame.body = .rrep r) (hsrc : r.srcAddr = dst) (hdst : r.dstAddr = S)
      (hdisc : r.discovery = true) (hself : dst = some S → p'.src = S) :
      ForcedCopy T S dst s p p'
  | relay {p' : Packet n} {r : Rrep n} (hr : p.frame.body = .rrep r) (hx : p.dst ≠ S)
      (hr' : p'.frame.body = .rrep { r with hopCnt := r.hopCnt + 1 })
      (hout : ((s.receive T p).1.routingTable S).outgoingIf ≠ 0)
      (hnext : ∀ y, T.Owns y ((s.receive T p).1.routingTable S).nextHop → p'.dst = y) :
      ForcedCopy T S dst s p p'

theorem ForcedFlood.copies {n : ℕ} {T : Topology n} {S : Fin n} {dst : Option (Fin n)}
    {s : Net n} (h : ForcedFlood T S dst s) (hw : Wired T s) {p p' : Packet n}
    (hp : p ∈ s.inFlight) (hp' : p' ∈ s.copies T p) : ForcedCopy T S dst s p p' := by
  obtain ⟨o, ho, htrans⟩ := List.mem_flatMap.mp hp'
  obtain ⟨rfl, hfrom, hj, hl, hne, _⟩ := T.mem_transmit.mp htrans
  cases hb : p.frame.body with
  | rreq q =>
    obtain ⟨hsrc, hdst, hdisc, _⟩ := h.rreq p hp q hb
    have hm := ho
    unfold Net.receive onFrame at hm
    rw [hb] at hm
    rcases onRreq_forced hdisc hm with ⟨hd, hi, hidx, hg⟩ | ⟨hd, _, _, r, hr, hrs, hrd, hrdisc⟩
    · have hb' : p'.frame.body = .rreq { q with hopCnt := q.hopCnt + 1 } := by rw [hg]
      have hi' : p'.srcIf < T.ifCnt p.dst := hi
      have hturn : T.Turn dst (p.dst, p.dstIf) (p.dst, p'.srcIf) :=
        ⟨rfl, Ne.symm hidx, (hw.pkt_if p hp).2.1, hi', hdst ▸ hd⟩
      have hwire : T.Wire (p.dst, p'.srcIf) (p'.dst, p'.dstIf) := ⟨hi', hj, hl.symm, hne.symm⟩
      exact .flood hb hb' hsrc hdst hdisc hfrom ⟨_, hturn, hwire⟩
    · refine .answer hb hr (hrs.trans hdst) (hrd.trans hsrc) hrdisc ?_
      intro hS
      have hself : some S = some p.dst := hS.symm.trans (hdst.symm.trans hd)
      rw [hfrom]
      exact (Option.some.inj hself).symm
  | rrep r =>
    obtain ⟨hsrc, hdst, hdisc, hself⟩ := h.rrep p hp r hb
    have ha : p.frame.body.target = some S := by
      rw [hb, ← hdst]
      rfl
    obtain ⟨_, hnext⟩ := relay_next ha hp'
    generalize hi : p'.srcIf = i at ho
    generalize hg : p'.frame = g at ho
    cases onFrame_sends ho with
    | flood hf => rw [hf] at ha; cases ha
    | answer hf => rw [hf] at ha; cases ha
    | @relay b hf hx hout =>
      rw [ha] at hf
      cases hf
      refine .relay hb (Ne.symm hx) ?_ (by unfold Net.receive; omega) hnext
      rw [hg, hb]
      rfl
  | payload l => exact absurd hb (h.payload p hp l)

theorem ForcedFlood.deliver {n : ℕ} {T : Topology n} {S : Fin n} {dst : Option (Fin n)}
    {s : Net n} (h : ForcedFlood T S dst s) (hw : Wired T s) {p : Packet n}
    (hp : p ∈ s.inFlight) (k : ℕ) :
    ForcedFlood T S dst ((s.drop k).act T p.dst (s.receive T p)) where
  rreq := by
    intro p' hp' q' hq'
    rcases List.mem_append.mp hp' with hp' | hp'
    · exact h.rreq p' (List.mem_of_mem_eraseIdx hp') q' hq'
    · cases h.copies hw hp hp' with
      | flood hq hb hsrc hdst hdisc hfrom hpass =>
        rw [hq'] at hb
        cases hb
        have harr := (h.rreq p hp _ hq).2.2.2.1
        rw [hfrom]
        exact ⟨hsrc, hdst, hdisc, .pass harr hpass, .inr ⟨p.dstIf, harr, hpass⟩⟩
      | answer _ hr => rw [hq'] at hr; cases hr
      | relay _ _ hr => rw [hq'] at hr; cases hr
  rrep := by
    intro p' hp' r' hr'
    rcases List.mem_append.mp hp' with hp' | hp'
    · exact h.rrep p' (List.mem_of_mem_eraseIdx hp') r' hr'
    · cases h.copies hw hp hp' with
      | flood _ hq => rw [hr'] at hq; cases hq
      | answer _ hr hsrc hdst hdisc hself =>
        rw [hr'] at hr
        cases hr
        exact ⟨hsrc, hdst, hdisc, fun hS => .inr (hself hS)⟩
      | @relay r hb hx hr hout hnext =>
        rw [hr'] at hr
        cases hr
        obtain ⟨hsrc, hdst, hdisc, hself⟩ := h.rrep p hp r hb
        refine ⟨hsrc, hdst, hdisc, ?_⟩
        intro hS
        exact .inl (hnext S (h.owns_self hw hp hb hx hS))
  payload := by
    intro p' hp' l hl
    rcases List.mem_append.mp hp' with hp' | hp'
    · exact h.payload p' (List.mem_of_mem_eraseIdx hp') l hl
    · cases h.copies hw hp hp' with
      | flood _ hq => rw [hl] at hq; cases hq
      | answer _ hr => rw [hl] at hr; cases hr
      | relay _ _ hr => rw [hl] at hr; cases hr
  row := by
    intro x hx ho
    rw [Net.act_row] at ho ⊢
    by_cases hxp : x = p.dst
    · rw [if_pos hxp] at ho ⊢
      rw [hxp] at hx ⊢
      exact h.row_deliver hw hp hx ho
    · rw [if_neg hxp] at ho ⊢
      exact h.row x hx ho

theorem ForcedFlood.drop {n : ℕ} {T : Topology n} {S : Fin n} {dst : Option (Fin n)} {s : Net n}
    (h : ForcedFlood T S dst s) (k : ℕ) : ForcedFlood T S dst (s.drop k) :=
  ⟨fun p hp => h.rreq p (Net.mem_of_mem_drop hp), fun p hp => h.rrep p (Net.mem_of_mem_drop hp),
    fun p hp => h.payload p (Net.mem_of_mem_drop hp), h.row⟩

end NetLab.Odr
