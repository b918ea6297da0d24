import NetLab.Odr.ReverseRoute

/-! The forward route that the requesting node learns. Every RREP sent finds its way back, so
the route exists and is no longer than any answer promised; `RREP_sent` can keep the
destination from answering the copy of the request that came along a shortest path. -/
namespace NetLab.Odr
open NetLab.Lib

/-- A RREP on its way to `S`, or the route it installed there: at most `c` hops to `D`. -/
def Promised {n : ℕ} (s : Net n) (S D : Fin n) (c : ℕ) : Prop :=
  ((s.row S D).outgoingIf ≠ 0 ∧ (s.row S D).hopCnt ≤ c) ∨
  ∃ p ∈ s.inFlight, ∃ r, p.frame.body = .rrep r ∧
    ∃ b, s.Vouches p.dst S b ∧ r.hopCnt + 1 + b ≤ c

/-- The reverse routes can be used, and nobody answers before `D` has heard the request. -/
structure Replying {n : ℕ} (T : Topology n) (S D : Fin n) (id : ℕ) (s : Net n) : Prop where
  pos : 0 < id
  rreq_mac : ∀ p ∈ s.inFlight, ∀ q, p.frame.body = .rreq q → p.frame.srcMac = T.mac p.src p.srcIf
  row_mac : ∀ x, (s.row x S).outgoingIf ≠ 0 → ∃ y j, j < T.ifCnt y ∧
    T.mac y j = (s.row x S).nextHop ∧ T.lan y j = T.lan x ((s.row x S).outgoingIf - 3) ∧
    (y, j) ≠ (x, (s.row x S).outgoingIf - 3)
  rrep_dst : ∀ p ∈ s.inFlight, ∀ r, p.frame.body = .rrep r → r.dstAddr = S
  unheard : (s.row D S).outgoingIf = 0 → (s.row D S).broadcastId = 0 ∧
    (∀ x, (s.row x D).outgoingIf = 0) ∧
    ∀ p ∈ s.inFlight, ∃ q, p.frame.body = .rreq q ∧ q.rrepSent = false
  heard : (s.row D S).outgoingIf ≠ 0 → ∃ c, Promised s S D c

theorem onRreq_rrepSent {n : ℕ} {h : Host n} {nd : Node n} {index : ℕ} {mac : Mac}
    {q q' : Rreq n} {i : ℕ} {g : Frame n} (hm : .send i g ∈ (onRreq h nd index mac q).2)
    (hg : g.body = .rreq q') (hsent : q'.rrepSent ≠ q.rrepSent) :
    ∃ d, q.dstAddr = some d ∧ ((onRreq h nd index mac q).1.routingTable d).outgoingIf ≠ 0 := by
  have hd := onRreq_sends_rreq hm hg
  rw [onRreq_out, if_neg hd] at hm
  split at hm
  · rename_i route hk
    obtain ⟨d, hdst, ho, _⟩ := knownRoute_eq_some hk
    refine ⟨d, hdst, ?_⟩
    rw [onRreq_routingTable]
    by_cases hds : d = q.srcAddr
    · subst hds
      simpa using ho
    · simpa [hds] using ho
  · obtain ⟨_, _, rfl⟩ := mem_flood.mp (List.mem_ite_nil_right.mp hm).2
    cases hg
    exact absurd rfl hsent

theorem onRreq_answers {n : ℕ} (h : Host n) (nd : Node n) (index : ℕ) (mac : Mac) {q : Rreq n}
    (hd : q.dstAddr = some h.node) (hsent : q.rrepSent = false)
    (hid : (nd.routingTable q.srcAddr).broadcastId < q.broadcastId)
    (ho : (nd.routingTable q.srcAddr).outgoingIf = 0) :
    ∃ i g r, .send i g ∈ (onRreq h nd index mac q).2 ∧ g.body = .rrep r := by
  have he := learn_of_moreEfficient mac (moreEfficient_of_no_route ho q.discovery q.hopCnt index)
  refine ⟨index, ⟨mac, h.ifAddr index, .rrep ⟨q.dstAddr, q.srcAddr, h.order.htonl q.srcPort, 0,
    q.discovery⟩⟩, _, ?_, rfl⟩
  rw [onRreq_out, if_pos hd]
  refine mem_answer.mpr ⟨hsent, by simp [isFresh, hid], ?_⟩
  simp [reply, he]

theorem onRrep_relays {n : ℕ} (h : Host n) (nd : Node n) (index : ℕ) (mac : Mac) {r : Rrep n}
    (hd : r.dstAddr ≠ h.node) (hsrc : r.srcAddr ≠ some r.dstAddr)
    (ho : 3 ≤ (nd.routingTable r.dstAddr).outgoingIf) :
    .send ((nd.routingTable r.dstAddr).outgoingIf - 3) ⟨(nd.routingTable r.dstAddr).nextHop,
      h.ifAddr ((nd.routingTable r.dstAddr).outgoingIf - 3),
      .rrep { r with hopCnt := r.hopCnt + 1 }⟩ ∈ (onRrep h nd index mac r).2 := by
  have htab := onRrep_routingTable h nd index mac r r.dstAddr
  rw [if_neg hsrc] at htab
  unfold onRrep at htab ⊢
  rw [if_neg hd] at htab ⊢
  dsimp only at htab ⊢
  rw [htab, sendVia, if_neg (by omega)]
  exact List.mem_singleton.mpr rfl

theorem Promised.deliver {n : ℕ} {T : Topology n} {S D : Fin n} {id k : ℕ} {s : Net n}
    {p : Packet n} (hf : FloodState T S D id s) (h : Replying T S D id s) (hne : D ≠ S)
    (hp : s.inFlight[k]? = some p) {c : ℕ} (hc : Promised s S D c) :
    Promised ((s.drop k).act T p.dst (s.receive T p)) S D c := by
  have hmem := List.mem_of_getElem? hp
  have hi := (vouched_deliver hf.wired hf.vouched hmem k).1
  rcases hc with ⟨ho, hle⟩ | ⟨p', hp', r, hr, b, hb, hle⟩
  · exact .inl ⟨(hi S D ho).1, (hi S D ho).2.trans hle⟩
  · by_cases hpp : p' = p
    · subst hpp
      by_cases hS : p'.dst = S
      · have hadv : p'.frame.body.advert = some ⟨D, r.hopCnt, r.discovery⟩ := by
          rw [hr, Message.advert, hf.flooding.rrep p' hmem r hr]
          rfl
        obtain ⟨ho, hh⟩ := receive_vouches (T := T) (s := s) hadv
        left
        rw [Net.act_row, if_pos hS.symm]
        exact ⟨ho, hh.trans (by dsimp only; omega)⟩
      · obtain ⟨ho, hb'⟩ := hb.resolve_left hS
        obtain ⟨y, j, hj, hmac, hlan, hyj⟩ := h.row_mac p'.dst ho
        obtain ⟨z, e, hz, he, hv⟩ := hf.vouched.row p'.dst S ho
        have hzy : z = y := T.owns_unique hz ⟨j, hj, hmac⟩
        subst hzy
        have hdst := h.rrep_dst p' hmem r hr
        have hsend := onRrep_relays (T.host p'.dst) (s.node p'.dst) p'.dstIf p'.frame.srcMac
          (r := r) (by rw [hdst]; exact Ne.symm hS)
          (by rw [hf.flooding.rrep p' hmem r hr, hdst]; simpa using hne)
          (by rw [hdst]; exact (hf.wired.row_if p'.dst S ho).1)
        have hout : onRrep (T.host p'.dst) (s.node p'.dst) p'.dstIf p'.frame.srcMac r =
            s.receive T p' := by
          unfold Net.receive onFrame
          rw [hr]
        rw [hout, hdst] at hsend
        refine .inr ⟨⟨p'.dst, _, z, j, _⟩, (Net.mem_act _ _ _ _ _).mpr (.inr ⟨_, hsend,
          T.mem_transmit.mpr ⟨rfl, rfl, hj, hlan, hyj, .inr hmac.symm⟩⟩), _, rfl, e,
          hv.mono hi, ?_⟩
        dsimp only
        omega
    · exact .inr ⟨p', (Net.mem_act _ _ _ _ _).mpr (.inl (mem_drop_of_ne hp hp' hpp)), r, hr, b,
        hb.mono hi, hle⟩

/-- An answer promises `S` a route through the node that sent the copy of the request. -/
theorem promised_of_answer {n : ℕ} {T : Topology n} {S D : Fin n} {id k : ℕ} {s : Net n}
    {p : Packet n} (hf : FloodState T S D id s) (h : Replying T S D id s)
    (hp : s.inFlight[k]? = some p) {q : Rreq n} (hq : p.frame.body = .rreq q) {i : ℕ}
    {g : Frame n} {r : Rrep n} (hs : .send i g ∈ (s.receive T p).2) (hr : g.body = .rrep r) :
    Promised ((s.drop k).act T p.dst (s.receive T p)) S D (r.hopCnt + 1 + q.hopCnt) := by
  have hmem := List.mem_of_getElem? hp
  have hi := (vouched_deliver hf.wired hf.vouched hmem k).1
  have hmac := h.rreq_mac p hmem q hq
  obtain ⟨hsi, hdi, hlan, hpne⟩ := hf.wired.pkt_if p hmem
  have hv : s.Vouches p.src S q.hopCnt := by
    have hadv := (hf.vouched.advert p hmem _ (Message.advert_rreq hq)).1
    rwa [(hf.flooding.rreq p hmem q hq).1] at hadv
  have hdm : i = p.dstIf ∧ g.dstMac = p.frame.srcMac := by
    cases onFrame_sends hs with
    | flood => cases hr
    | answer => exact ⟨rfl, rfl⟩
    | relay hf' => rw [hq] at hf'; cases hf'
  obtain ⟨rfl, hgm⟩ := hdm
  refine .inr ⟨⟨p.dst, p.dstIf, p.src, p.srcIf, g⟩, (Net.mem_act _ _ _ _ _).mpr (.inr ⟨_, hs,
    T.mem_transmit.mpr ⟨rfl, rfl, hsi, hlan.symm, hpne.symm, .inr ?_⟩⟩), r, hr, q.hopCnt,
    hv.mono hi, le_rfl⟩
  exact hgm.trans hmac

theorem Replying.unheard_deliver {n : ℕ} {T : Topology n} {S D : Fin n} {id k : ℕ} {s : Net n}
    {p : Packet n} (hf : FloodState T S D id s) (h : Replying T S D id s) (hne : D ≠ S)
    (hp : s.inFlight[k]? = some p) (ho : (s.row D S).outgoingIf = 0) (hD : p.dst ≠ D) :
    (∀ x, (((s.drop k).act T p.dst (s.receive T p)).row x D).outgoingIf = 0) ∧
    ∀ p' ∈ ((s.drop k).act T p.dst (s.receive T p)).inFlight,
      ∃ q, p'.frame.body = .rreq q ∧ q.rrepSent = false := by
  have hmem := List.mem_of_getElem? hp
  obtain ⟨_, hrows, hpkts⟩ := h.unheard ho
  obtain ⟨q, hq, hsent⟩ := hpkts p hmem
  obtain ⟨hsrc, hdst, _⟩ := hf.flooding.rreq p hmem q hq
  have htab : ((s.receive T p).1.routingTable D).outgoingIf = 0 := by
    rcases receive_row T s p D with hr | ⟨a, ha, hDa, _⟩
    · rw [(route_eq_iff.mp hr).2.1]
      exact hrows p.dst
    · rw [hq] at ha
      cases ha
      exact absurd (hDa.trans hsrc) hne
  have hrow : ∀ x, (((s.drop k).act T p.dst (s.receive T p)).row x D).outgoingIf = 0 := by
    intro x
    rw [Net.act_row]
    split_ifs
    · exact htab
    · exact hrows x
  refine ⟨hrow, ?_⟩
  intro p' hp'
  rcases mem_act_cases hp' with hp' | ⟨hs, _⟩
  · exact hpkts p' (Net.mem_of_mem_drop hp')
  · generalize p'.srcIf = i at hs
    generalize p'.frame = g at hs
    have hs' := hs
    cases onFrame_sends hs with
    | @flood q₁ i sent hf₁ _ _ =>
      rw [hq] at hf₁
      cases hf₁
      refine ⟨_, rfl, ?_⟩
      by_contra hne'
      unfold Net.receive onFrame at hs' htab
      rw [hq] at hs' htab
      obtain ⟨d, hd, hod⟩ := onRreq_rrepSent hs' rfl (by rw [hsent]; exact hne')
      rw [hdst] at hd
      cases hd
      exact hod htab
    | @answer q₁ r hf₁ _ _ _ _ hr =>
      rw [hq] at hf₁
      cases hf₁
      rcases hr with ⟨hd, _⟩ | ⟨d, hd, hod, _⟩
      · rw [hdst] at hd
        exact absurd (Option.some.inj hd).symm hD
      · rw [hdst] at hd
        cases hd
        exact absurd htab hod
    | relay hf₁ => rw [hq] at hf₁; cases hf₁

theorem Replying.heard_deliver {n : ℕ} {T : Topology n} {S D : Fin n} {id k : ℕ} {s : Net n}
    {p : Packet n} (hf : FloodState T S D id s) (h : Replying T S D id s) (hne : D ≠ S)
    (hp : s.inFlight[k]? = some p)
    (ho : (((s.drop k).act T p.dst (s.receive T p)).row D S).outgoingIf ≠ 0) :
    ∃ c, Promised ((s.drop k).act T p.dst (s.receive T p)) S D c := by
  by_cases hs : (s.row D S).outgoingIf = 0
  · have hmem := List.mem_of_getElem? hp
    obtain ⟨hb, _, hpkts⟩ := h.unheard hs
    obtain ⟨q, hq, hsent⟩ := hpkts p hmem
    obtain ⟨hsrc, hdst, hid, _⟩ := hf.flooding.rreq p hmem q hq
    have hD : p.dst = D := by
      by_contra hD
      rw [Net.act_row, if_neg (Ne.symm hD)] at ho
      exact ho hs
    have hpos := h.pos
    obtain ⟨i, g, r, hsend, hr⟩ := onRreq_answers (T.host p.dst) (s.node p.dst) p.dstIf
      p.frame.srcMac (q := q) (by rw [hdst, ← hD]; rfl) hsent
      (by rw [hsrc, hD]; unfold Net.row at hb; omega) (by rw [hsrc, hD]; exact hs)
    refine ⟨_, promised_of_answer hf h hp hq (i := i) (g := g) ?_ hr⟩
    unfold Net.receive onFrame
    rw [hq]
    exact hsend
  · obtain ⟨c, hc⟩ := h.heard hs
    exact ⟨c, hc.deliver hf h hne hp⟩

theorem Replying.deliver {n : ℕ} {T : Topology n} {S D : Fin n} {id k : ℕ} {s : Net n}
    {p : Packet n} (hf : FloodState T S D id s) (h : Replying T S D id s) (hne : D ≠ S)
    (hp : s.inFlight[k]? = some p) :
    Replying T S D id ((s.drop k).act T p.dst (s.receive T p)) := by
  have hmem := List.mem_of_getElem? hp
  have hi := (vouched_deliver hf.wired hf.vouched hmem k).1
  constructor
  case pos =>
    exact h.pos
  case rreq_mac =>
    intro p' hp' q' hq'
    rcases mem_act_cases hp' with hp' | ⟨hs, hsrc, _⟩
    · exact h.rreq_mac p' (Net.mem_of_mem_drop hp') q' hq'
    · rw [hsrc]
      generalize p'.srcIf = i at hs
      generalize p'.frame = g at hs hq'
      cases onFrame_sends hs with
      | flood => rfl
      | answer => cases hq'
      | relay hf₁ => exact absurd hq' (Message.relayed_ne_rreq hf₁ q')
  case row_mac =>
    intro x ho
    rw [Net.act_row] at ho ⊢
    by_cases hx : x = p.dst
    · subst hx
      rw [if_pos rfl] at ho ⊢
      rcases hf.flooding.receive_cases hne hmem with hr | ⟨q, hq, _, hr⟩
      · obtain ⟨hm, hro, _⟩ := route_eq_iff.mp hr
        rw [hm, hro]
        exact h.row_mac p.dst (by rwa [← hro])
      · simp only [RoutingEntry.route, Prod.mk.injEq] at hr
        obtain ⟨hsi, _, hlan, hpne⟩ := hf.wired.pkt_if p hmem
        rw [hr.1, hr.2.1]
        exact ⟨p.src, p.srcIf, hsi, (h.rreq_mac p hmem q hq).symm, hlan.symm, hpne.symm⟩
    · rw [if_neg hx] at ho ⊢
      exact h.row_mac x ho
  case rrep_dst =>
    intro p' hp' r hr
    rcases mem_act_cases hp' with hp' | ⟨hs, _⟩
    · exact h.rrep_dst p' (Net.mem_of_mem_drop hp') r hr
    · generalize p'.srcIf = i at hs
      generalize p'.frame = g at hs hr
      cases onFrame_sends hs with
      | flood => cases hr
      | @answer q r' hf₁ _ _ _ hdst _ =>
        cases hr
        rw [hdst]
        exact (hf.flooding.rreq p hmem q hf₁).1
      | relay hf₁ =>
        obtain ⟨r', hb, rfl⟩ := Message.relayed_rrep hr
        exact h.rrep_dst p hmem r' hb
  case unheard =>
    intro ho
    have hs : (s.row D S).outgoingIf = 0 := by
      by_contra hs
      exact (hi D S hs).1 ho
    obtain ⟨hb, _, hpkts⟩ := h.unheard hs
    obtain ⟨q, hq, _⟩ := hpkts p hmem
    have hD : p.dst ≠ D := by
      intro hD
      rw [Net.act_row, if_pos hD.symm] at ho
      exact (hf.flooding.learns hmem hq).1 ho
    refine ⟨?_, h.unheard_deliver hf hne hp hs hD⟩
    rw [Net.act_row, if_neg (Ne.symm hD)]
    exact hb
  case heard =>
    exact h.heard_deliver hf hne hp

theorem Opening.replying {n : ℕ} {T : Topology n} {S D : Fin n} {q : Rreq n} {s : Net n}
    (h : Opening T S D q s) : Replying T S D q.broadcastId s where
  pos := h.id
  rreq_mac := by
    intro p hp _ _
    rw [(h.pkt p hp).2.1, (h.pkt p hp).1]
  row_mac := fun x ho => absurd (h.row x S).1 ho
  rrep_dst := by
    intro p hp r hr
    rw [(h.pkt p hp).2.1] at hr
    cases hr
  unheard := by
    intro _
    refine ⟨(h.row D S).2, fun x => (h.row x D).1, ?_⟩
    intro p hp
    exact ⟨q, by rw [(h.pkt p hp).2.1], h.sent⟩
  heard := fun ho => absurd (h.row D S).1 ho

/-- In the run `as` from `s`, a copy of the RREQ is answered by a RREP, and the hop counts of
the two make a route of `c` hops from the source to the destination. -/
def Answered {n : ℕ} (T : Topology n) (s : Net n) (as : List (Action n)) (c : ℕ) : Prop :=
  ∃ bs k cs u p q i g r, as = bs ++ .deliver k :: cs ∧ exec (Net.step T) s bs = some u ∧
    u.inFlight[k]? = some p ∧ p.frame.body = .rreq q ∧ .send i g ∈ (u.receive T p).2 ∧
    g.body = .rrep r ∧ c = r.hopCnt + 1 + q.hopCnt

theorem replying_run {n : ℕ} {T : Topology n} {S D : Fin n} {id : ℕ} {s t : Net n}
    {as : List (Action n)} (hne : D ≠ S) (hf : FloodState T S D id s)
    (h : Replying T S D id s) (hr : Run (Net.step T) Delivery s as t) :
    FloodState T S D id t ∧ Replying T S D id t ∧
      ∀ c, Promised s S D c → Promised t S D c := by
  refine hr.invariant (fun u => FloodState T S D id u ∧ Replying T S D id u ∧
    ∀ c, Promised s S D c → Promised u S D c) ?_ ⟨hf, h, fun _ hc => hc⟩
  rintro u v a ⟨hfu, hu, hpu⟩ hok hs
  refine ⟨hfu.step hne hok hs, ?_⟩
  cases a with
  | app x m => exact absurd hok not_false
  | duplicate k => exact absurd hok not_false
  | lose k => exact absurd hok not_false
  | deliver k =>
    obtain ⟨p, hp, rfl⟩ := Option.map_eq_some_iff.mp hs
    exact ⟨hu.deliver hfu hne hp, fun c hc => (hpu c hc).deliver hfu hu hne hp⟩

theorem answered_promised {n : ℕ} {T : Topology n} {S D : Fin n} {id : ℕ} {s t : Net n}
    {as : List (Action n)} (hne : D ≠ S) (hf : FloodState T S D id s)
    (h : Replying T S D id s) (hr : Run (Net.step T) Delivery s as t) {c : ℕ}
    (hc : Answered T s as c) : Promised t S D c := by
  obtain ⟨bs, k, cs, u, p, q, i, g, r, rfl, hex, hp, hq, hs, hr', rfl⟩ := hc
  induction bs generalizing s with
  | nil =>
    cases hex
    cases hr with
    | @cons _ v _ _ _ hok hstep hrest =>
      obtain ⟨p', hp', rfl⟩ := Option.map_eq_some_iff.mp hstep
      rw [hp] at hp'
      cases hp'
      have hv := promised_of_answer hf h hp hq hs hr'
      exact (replying_run hne (hf.step hne hok hstep) (h.deliver hf hne hp) hrest).2.2 _ hv
  | cons b bs ih =>
    cases hr with
    | @cons _ v _ _ _ hok hstep hrest =>
      obtain ⟨v', hv', hex'⟩ := Option.bind_eq_some_iff.mp hex
      rw [hstep] at hv'
      cases hv'
      obtain ⟨hf', h', _⟩ := replying_run hne hf h (.cons hok hstep (.nil v))
      exact ih hf' h' hrest hex'

theorem Requested.walks {n : ℕ} {T : Topology n} {S D : Fin n} {s t : Net n}
    {as : List (Action n)} (h : Requested T S D s) (hr : Run (Net.step T) Delivery s as t) :
    HopsAreWalks T t := by
  cases h with
  | intro hfresh _ _ _ _ hs =>
    exact (reachable_walks hfresh.1 (.cons trivial hs (hr.mono fun _ _ _ => trivial))).2

/-- The requesting node learns a route to a reachable destination. Its hop count is the
length of a walk and at most that of every answer given, so it is shortest if the copy of
the request that came along a shortest path was answered. -/
theorem forward_route_answered {n : ℕ} (T : Topology n) (S D : Fin n) (s t : Net n)
    (as : List (Action n)) (hreq : Requested T S D s) (hreach : ∃ k, Walk T.Hop k S D)
    (hr : Run (Net.step T) Delivery s as t) (hquiet : t.inFlight = []) :
    (t.row S D).outgoingIf ≠ 0 ∧ Walk T.Hop (t.row S D).hopCnt S D ∧
    (∀ c, Answered T s as c → (t.row S D).hopCnt ≤ c) ∧
    ∀ c, Shortest T.Hop S D c → Answered T s as c → (t.row S D).hopCnt = c := by
  obtain ⟨q, hq, hf⟩ := hreq.floodState
  obtain ⟨hft, ht, _⟩ := replying_run hreq.ne hf hq.replying hr
  have hkept : ∀ c, Promised t S D c → (t.row S D).outgoingIf ≠ 0 ∧ (t.row S D).hopCnt ≤ c := by
    intro c hc
    rcases hc with hc | ⟨p, hp, _⟩
    · exact hc
    · rw [hquiet] at hp
      cases hp
  obtain ⟨k, hk⟩ := hreach
  obtain ⟨c, hc⟩ := ht.heard (hft.flooding.dest_bound hreq.ne hquiet hk).1
  have hwalk := (hreq.walks hr).row S D (hkept c hc).1
  have hle : ∀ c, Answered T s as c → (t.row S D).hopCnt ≤ c := fun c hc =>
    (hkept c (answered_promised hreq.ne hf hq.replying hr hc)).2
  exact ⟨(hkept c hc).1, hwalk, hle, fun c hs hc => le_antisymm (hle c hc) (hs.2 hwalk)⟩

theorem forward_route_answered_line :
    Answered line lineAsked (List.replicate 4 (.deliver 0)) 2 ∧
      Walk line.Hop (lineQuiet.row 0 2).hopCnt 0 2 ∧ (lineQuiet.row 0 2).hopCnt ≤ 2 := by
  have h := forward_route_answered line 0 2 lineAsked lineQuiet _ line_requested
    ⟨2, .cons (b := 1) ⟨0, by decide, 0, by decide, rfl, by decide⟩
      (.single ⟨1, by decide, 0, by decide, rfl, by decide⟩)⟩ line_quiet_run rfl
  have ha : Answered line lineAsked (List.replicate 4 (.deliver 0)) 2 :=
    ⟨[.deliver 0], 0, List.replicate 2 (.deliver 0), _,
      ⟨1, 1, 2, 0, ⟨broadcastMac, 6, .rreq ⟨0, some 2, 1880555520, 1, 1, false, false⟩⟩⟩, _, 0,
      ⟨6, 12, .rrep ⟨some 2, 0, 6000, 0, false⟩⟩, _, rfl, rfl, rfl, rfl, by decide, rfl, rfl⟩
  exact ⟨ha, h.2.1, h.2.2.1 2 ha⟩

/-- Four nodes in which a reply in the name of the destination overtakes the best request. -/
def diamond : Topology 4 := .ofLans ![[1, 0], [3, 2], [2, 3], [2, 1, 0]]

def diamondAsked : Net 4 :=
  (Net.step diamond (.started 4) (.app 0 ⟨"240411c", some 1, 5000, "hi", 0⟩)).getD (.started 4)

def diamondRun : List (Action 4) :=
  [1, 2, 3, 3, 3, 3, 2, 3, 2, 2, 0, 4, 4, 3, 2, 0, 0].map .deliver

def diamondQuiet : Net 4 := (exec (Net.step diamond) diamondAsked diamondRun).getD (.started 4)

/-- The row of node 0 for node 1 ends with 3 hops although node 1 is 2 hops away. -/
theorem forward_route_not_shortest :
    Requested diamond 0 1 diamondAsked ∧
      Run (Net.step diamond) Delivery diamondAsked diamondRun diamondQuiet ∧
      diamondQuiet.inFlight = [] ∧ (diamondQuiet.row 0 1).outgoingIf ≠ 0 ∧
      (diamondQuiet.row 0 1).hopCnt = 3 ∧ Shortest diamond.Hop 0 1 2 := by
  refine ⟨?_, .of_exec (by simp [diamondRun, Delivery]) rfl, rfl, by decide, rfl, ?_⟩
  · exact @Requested.intro 4 diamond 0 1 (.started 4) diamondAsked
      ⟨"240411c", some 1, 5000, "hi", 0⟩ ⟨Net.started_initial 4, fun _ _ => rfl⟩ (by decide)
      (fun e he => by cases he; decide) (by decide) rfl rfl
  · refine ⟨.cons (b := 3) ⟨0, by decide, 1, by decide, rfl, by decide⟩
      (.single ⟨0, by decide, 1, by decide, rfl, by decide⟩), ?_⟩
    intro k hk
    cases hk with
    | @cons k a b c h w =>
      cases w with
      | nil a =>
        obtain ⟨i, hi, j, hj, hl, _⟩ := h
        revert hl
        revert i j
        decide
      | cons => omega

end NetLab.Odr
