import NetLab.Odr.Rank

/-! Without forced discovery, the traffic that a set of requests causes dies out: a delivery
sets a new row, or it lowers the rank. -/
namespace NetLab.Odr
open NetLab.Lib

theorem inFlight_deliver {n : ℕ} (T : Topology n) (s : Net n) (p : Packet n) (k : ℕ) :
    ((s.drop k).act T p.dst (s.receive T p)).inFlight =
      s.inFlight.eraseIdx k ++ s.copies T p := rfl

theorem load_deliver {n : ℕ} {T : Topology n} {s : Net n} {p : Packet n} {k : ℕ}
    (hp : s.inFlight[k]? = some p) (e m j : ℕ) :
    ∃ rest, load e m s j = p.load e m j + rest ∧
      load e m ((s.drop k).act T p.dst (s.receive T p)) j =
        rest + ((s.copies T p).map (Packet.load e m j)).sum := by
  refine ⟨((s.inFlight.eraseIdx k).map (Packet.load e m j)).sum, sum_eraseIdx hp _, ?_⟩
  unfold load
  rw [inFlight_deliver, List.map_append, List.sum_append]

theorem deliver_broadcastId {n : ℕ} (T : Topology n) (s : Net n) (p : Packet n) (k : ℕ)
    (x d : Fin n) :
    (((s.drop k).act T p.dst (s.receive T p)).row x d).broadcastId =
      match p.frame.body with
      | .rreq q => if x = p.dst ∧ d = q.srcAddr then q.broadcastId else (s.row x d).broadcastId
      | _ => (s.row x d).broadcastId := by
  rw [Net.act_row]
  by_cases hx : x = p.dst
  · subst hx
    rw [if_pos rfl, receive_broadcastId]
    cases p.frame.body <;> simp
  · rw [if_neg hx]
    cases p.frame.body with
    | rreq q => simp only [hx, false_and, if_false]; rfl
    | rrep r => rfl
    | payload l => rfl

theorem stale_deliver_le {n : ℕ} {T : Topology n} {s : Net n} {p : Packet n} {q : Rreq n}
    (hq : p.frame.body = .rreq q) (k : ℕ) {j : ℕ} (hj : j ≤ q.broadcastId) :
    stale ((s.drop k).act T p.dst (s.receive T p)) j ≤ stale s j := by
  apply Finset.card_le_card
  rintro ⟨x, d⟩ hz
  simp only [Finset.mem_filter, Finset.mem_univ, true_and, deliver_broadcastId, hq] at hz ⊢
  split_ifs at hz with hc
  · omega
  · exact hz

theorem stale_deliver_lt {n : ℕ} {T : Topology n} {s : Net n} {p : Packet n} {q : Rreq n}
    (hq : p.frame.body = .rreq q) (k : ℕ)
    (hold : (s.row p.dst q.srcAddr).broadcastId < q.broadcastId) :
    stale ((s.drop k).act T p.dst (s.receive T p)) q.broadcastId < stale s q.broadcastId := by
  refine Finset.card_lt_card (Finset.ssubset_iff_of_subset ?_ |>.mpr ⟨(p.dst, q.srcAddr), ?_, ?_⟩)
  · rintro ⟨x, d⟩ hz
    simp only [Finset.mem_filter, Finset.mem_univ, true_and, deliver_broadcastId, hq] at hz ⊢
    split_ifs at hz with hc
    · omega
    · exact hz
  · simpa using hold
  · simp [deliver_broadcastId, hq]

theorem stale_deliver_unicast {n : ℕ} (T : Topology n) (s : Net n) {p : Packet n} (k : ℕ)
    (hq : ∀ q, p.frame.body ≠ .rreq q) (j : ℕ) :
    stale ((s.drop k).act T p.dst (s.receive T p)) j = stale s j := by
  unfold stale
  congr 1
  apply Finset.filter_congr
  rintro ⟨x, d⟩ _
  rw [deliver_broadcastId]
  cases hb : p.frame.body with
  | rreq q => exact absurd hb (hq q)
  | rrep r => rfl
  | payload l => rfl

theorem load_copies_of_ne {n : ℕ} {T : Topology n} {s : Net n} {p : Packet n} {q : Rreq n}
    (hq : p.frame.body = .rreq q) (e m : ℕ) {j : ℕ} (hj : j ≠ q.broadcastId) :
    ((s.copies T p).map (Packet.load e m j)).sum = 0 := by
  apply List.sum_eq_zero
  intro c hc
  obtain ⟨p', hp', rfl⟩ := List.mem_map.mp hc
  unfold Packet.load
  cases hb : p'.frame.body with
  | rreq q' =>
    dsimp only
    rw [if_neg]
    rw [(copies_rreq hq hp' hb).1]
    exact hj.symm
  | rrep r => rfl
  | payload l => rfl

/-- A re-flood of a RREQ whose id was known weighs less than the RREQ itself. -/
theorem load_copies_lt {n : ℕ} {T : Topology n} {s : Net n} {p : Packet n} {q : Rreq n} {m : ℕ}
    (hq : p.frame.body = .rreq q) (hdisc : q.discovery = false)
    (hout : (s.row p.dst q.srcAddr).outgoingIf ≠ 0)
    (hm : (s.row p.dst q.srcAddr).hopCnt ≤ m)
    (hold : q.broadcastId ≤ (s.row p.dst q.srcAddr).broadcastId) :
    ((s.copies T p).map (Packet.load (fanout T) m q.broadcastId)).sum <
      p.load (fanout T) m q.broadcastId := by
  have hself : p.load (fanout T) m q.broadcastId = (fanout T + 1) ^ (m - q.hopCnt) := by
    simp [Packet.load, hq]
  rw [hself]
  refine sum_lt_pow (by simpa using copies_length_rreq T s hq) ?_
  intro w hw
  obtain ⟨p', hp', rfl⟩ := List.mem_map.mp hw
  unfold Packet.load
  cases hb : p'.frame.body with
  | rreq q' =>
    obtain ⟨hid, hh, hre⟩ := copies_rreq hq hp' hb
    have he := hre.resolve_left (by omega)
    rw [hdisc] at he
    have hle := le_of_moreEfficient hout he
    dsimp only
    rw [if_pos hid, hh]
    exact .inr ⟨_, by omega, rfl⟩
  | rrep r => exact .inl rfl
  | payload l => exact .inl rfl

/-- The rank falls at the id of a delivered RREQ and not before it. -/
theorem rank_deliver_rreq {n : ℕ} {T : Topology n} {s : Net n} {p : Packet n} {q : Rreq n}
    {k m b : ℕ} (hp : s.inFlight[k]? = some p) (hq : p.frame.body = .rreq q)
    (hdisc : q.discovery = false) (hB : Bounded m b s)
    (hout : (s.row p.dst q.srcAddr).outgoingIf ≠ 0) :
    rank (fanout T) m b ((s.drop k).act T p.dst (s.receive T p)) < rank (fanout T) m b s := by
  have hid := hB.id p (List.mem_of_getElem? hp) q hq
  refine Prod.Lex.toLex_lt_toLex.mpr (.inl ?_)
  refine toLex_lt_of_le ⟨q.broadcastId, by omega⟩ ?_ ?_
  · intro j hj
    have hj : (j : ℕ) < q.broadcastId := hj
    obtain ⟨rest, hs, ht⟩ := load_deliver (T := T) hp (fanout T) m j
    have hzero : p.load (fanout T) m j = 0 := by
      unfold Packet.load
      rw [hq]
      exact if_neg (by omega)
    rw [load_copies_of_ne hq _ _ (by omega)] at ht
    refine Prod.Lex.toLex_mono ⟨stale_deliver_le hq k hj.le, ?_⟩
    dsimp only
    omega
  · dsimp only
    apply Prod.Lex.toLex_lt_toLex.mpr
    dsimp only
    by_cases hold : (s.row p.dst q.srcAddr).broadcastId < q.broadcastId
    · exact .inl (stale_deliver_lt hq k hold)
    · rcases (stale_deliver_le (T := T) (s := s) hq k le_rfl).lt_or_eq with hlt | heq
      · exact .inl hlt
      · obtain ⟨rest, hs, ht⟩ := load_deliver (T := T) hp (fanout T) m q.broadcastId
        have hlt := load_copies_lt (T := T) hq hdisc hout (hB.hop _ _ hout) (by omega)
        exact .inr ⟨heq, by omega⟩

theorem hopsLeft_le {n : ℕ} {T : Topology n} {s t : Net n} (h : Vouched T s)
    (hi : s.Improves t) {p : Packet n} (hp : p ∈ s.inFlight) : p.hopsLeft t ≤ p.hopsLeft s := by
  unfold Packet.hopsLeft
  cases ha : p.frame.body.target with
  | none => exact le_rfl
  | some a =>
    dsimp only
    by_cases hd : p.dst = a
    · rw [if_pos hd, if_pos hd]
    · rw [if_neg hd, if_neg hd]
      have ho := (h.target p hp a ha).resolve_left hd
      have := (hi p.dst a ho).2
      omega

/-- The copy that a relay sends has fewer hops left than the one it received. -/
theorem hopsLeft_copies {n : ℕ} {T : Topology n} {s t : Net n} (hw : Wired T s)
    (h : Vouched T s) (hi : s.Improves t) {p : Packet n} (hp : p ∈ s.inFlight) {a : Fin n}
    (ha : p.frame.body.target = some a)
    (hrow : ∀ d, t.row p.dst d = (s.receive T p).1.routingTable d) :
    ((s.copies T p).map (Packet.hopsLeft t)).sum < p.hopsLeft s := by
  obtain ⟨hlen, hself⟩ := copies_unicast hw h hp ha
  have hleft : p.hopsLeft s = if p.dst = a then 1 else (s.row p.dst a).hopCnt + 1 := by
    unfold Packet.hopsLeft
    rw [ha]
  rw [hleft]
  by_cases hd : p.dst = a
  · simp [hself hd, hd]
  · rw [if_neg hd]
    have ho := (h.target p hp a ha).resolve_left hd
    obtain ⟨hot, hle⟩ := hi p.dst a ho
    rw [hrow] at hot hle
    obtain ⟨y, c, hy, hc, hv⟩ := receive_row_vouched hw h hi hp a hot
    have hbound : ∀ w ∈ (s.copies T p).map (Packet.hopsLeft t), w ≤ c + 1 := by
      intro w hw'
      obtain ⟨p', hp', rfl⟩ := List.mem_map.mp hw'
      obtain ⟨ha', hdst⟩ := relay_next ha hp'
      have hdst := hdst y hy
      unfold Packet.hopsLeft
      rw [ha']
      dsimp only
      split_ifs with hd'
      · omega
      · rw [hdst] at hd' ⊢
        have := (hv.resolve_left hd').2
        omega
    calc ((s.copies T p).map (Packet.hopsLeft t)).sum
        ≤ (s.copies T p).length • (c + 1) := by simpa using List.sum_le_card_nsmul _ _ hbound
      _ ≤ 1 * (c + 1) := by
          rw [smul_eq_mul]
          exact Nat.mul_le_mul_right _ hlen
      _ < (s.row p.dst a).hopCnt + 1 := by omega

/-- A delivered RREP or payload lowers the last component and leaves the others alone. -/
theorem rank_deliver_unicast {n : ℕ} {T : Topology n} {s : Net n} {p : Packet n} {a : Fin n}
    {k : ℕ} (hw : Wired T s) (h : Vouched T s) (hp : s.inFlight[k]? = some p)
    (ha : p.frame.body.target = some a) (e m b : ℕ) :
    rank e m b ((s.drop k).act T p.dst (s.receive T p)) < rank e m b s := by
  have hmem := List.mem_of_getElem? hp
  have hi := (vouched_deliver hw h hmem k).1
  have hnot : ∀ q, p.frame.body ≠ .rreq q := by
    intro q hq
    rw [hq] at ha
    cases ha
  have hload : ∀ j, load e m ((s.drop k).act T p.dst (s.receive T p)) j = load e m s j := by
    intro j
    have hzero : ∀ p' : Packet n, p'.frame.body.target = some a → p'.load e m j = 0 := by
      intro p' ha'
      unfold Packet.load
      cases hb : p'.frame.body with
      | rreq q => rw [hb] at ha'; cases ha'
      | rrep r => rfl
      | payload l => rfl
    obtain ⟨rest, hs, ht⟩ := load_deliver (T := T) hp e m j
    have hnew : ((s.copies T p).map (Packet.load e m j)).sum = 0 := by
      apply List.sum_eq_zero
      intro c hc
      obtain ⟨p', hp', rfl⟩ := List.mem_map.mp hc
      exact hzero p' (relay_next ha hp').1
    rw [hs, ht, hnew, hzero p ha]
    omega
  refine Prod.Lex.toLex_lt_toLex.mpr (.inr ⟨?_, ?_⟩)
  · simp only [hload, stale_deliver_unicast T s k hnot]
  · dsimp only
    have hcop := hopsLeft_copies hw h hi hmem ha (fun d => by rw [Net.act_row, if_pos rfl])
    have hrest : ((s.inFlight.eraseIdx k).map
        (Packet.hopsLeft ((s.drop k).act T p.dst (s.receive T p)))).sum ≤
        ((s.inFlight.eraseIdx k).map (Packet.hopsLeft s)).sum := by
      apply List.sum_le_sum
      intro p' hp'
      exact hopsLeft_le h hi (List.mem_of_mem_eraseIdx hp')
    unfold hopsLeft
    rw [inFlight_deliver, List.map_append, List.sum_append, sum_eraseIdx hp (Packet.hopsLeft s)]
    omega

theorem rank_lose {n : ℕ} {T : Topology n} {s : Net n} {p : Packet n} {k m b : ℕ}
    (h : Vouched T s) (hp : s.inFlight[k]? = some p) (hB : Bounded m b s) (e : ℕ) :
    rank e m b (s.drop k) < rank e m b s := by
  have hmem := List.mem_of_getElem? hp
  have hload : ∀ j, load e m s j = p.load e m j + load e m (s.drop k) j :=
    fun j => sum_eraseIdx hp _
  have hstale : ∀ j, stale (s.drop k) j = stale s j := fun _ => rfl
  cases hb : p.frame.body.target with
  | none =>
    cases hq : p.frame.body with
    | rreq q =>
      have hid := hB.id p hmem q hq
      have hpos : 0 < p.load e m q.broadcastId := by
        simp only [Packet.load, hq, if_true]
        exact Nat.pow_pos (Nat.succ_pos _)
      refine Prod.Lex.toLex_lt_toLex.mpr (.inl (toLex_lt_of_le ⟨q.broadcastId, by omega⟩ ?_ ?_))
      · intro j _
        refine Prod.Lex.toLex_mono ⟨(hstale j).le, ?_⟩
        have := hload j
        dsimp only
        omega
      · have := hload q.broadcastId
        exact Prod.Lex.toLex_lt_toLex.mpr (.inr ⟨hstale _, by dsimp only; omega⟩)
    | rrep r => rw [hq] at hb; cases hb
    | payload l =>
      rw [hq] at hb
      exact absurd hb (h.addressed p hmem l hq)
  | some a =>
    have hzero : ∀ j, p.load e m j = 0 := by
      intro j
      unfold Packet.load
      cases hq : p.frame.body with
      | rreq q => rw [hq] at hb; cases hb
      | rrep r => rfl
      | payload l => rfl
    have hpos : 0 < p.hopsLeft s := by
      unfold Packet.hopsLeft
      rw [hb]
      dsimp only
      split_ifs <;> omega
    refine Prod.Lex.toLex_lt_toLex.mpr (.inr ⟨?_, ?_⟩)
    · simp only [hload, hstale, hzero, Nat.zero_add]
    · have hsum : hopsLeft s = p.hopsLeft s + hopsLeft (s.drop k) := sum_eraseIdx hp _
      dsimp only
      omega

theorem bounded_deliver {n : ℕ} {T : Topology n} {s t : Net n} {p : Packet n} {k m b : ℕ}
    (hp : s.inFlight[k]? = some p) (hB : Bounded m b s) (hi : s.Improves t)
    (hmiss : missing t = missing s) (ht : t = (s.drop k).act T p.dst (s.receive T p)) :
    Bounded m b t where
  id := by
    intro p' hp' q' hq'
    rw [ht, inFlight_deliver] at hp'
    rcases List.mem_append.mp hp' with hp' | hp'
    · exact hB.id p' (List.mem_of_mem_eraseIdx hp') q' hq'
    · cases hb : p.frame.body with
      | rreq q =>
        rw [(copies_rreq hb hp' hq').1]
        exact hB.id p (List.mem_of_getElem? hp) q hb
      | rrep r =>
        have ha : p.frame.body.target = some r.dstAddr := by rw [hb]; rfl
        have := (relay_next ha hp').1
        rw [hq'] at this
        cases this
      | payload l =>
        cases hl : l.dstAddr with
        | none =>
          obtain ⟨o, ho, hp'⟩ := List.mem_flatMap.mp hp'
          have hout : (s.receive T p).2 = [.badIndex] := by
            simp [Net.receive, onFrame, hb, onPayload, hl, sendTo]
          rw [hout, List.mem_singleton] at ho
          subst ho
          cases hp'
        | some a =>
          have ha : p.frame.body.target = some a := by rw [hb]; exact hl
          have := (relay_next ha hp').1
          rw [hq'] at this
          cases this
  hop := by
    intro x d hd
    have ho := route_of_missing_eq hi hmiss x d hd
    exact (hi x d ho).2.trans (hB.hop x d ho)

/-- One step without new requests sets a new row or lowers the rank. -/
theorem drain_step {n : ℕ} {T : Topology n} {s t : Net n} {a : Action n} {m b : ℕ}
    (hw : Wired T s) (h : Vouched T s) (hB : Bounded m b s) (hok : Drain s a)
    (hs : s.step T a = some t) :
    missing t < missing s ∨ (missing t = missing s ∧ Bounded m b t ∧
      rank (fanout T) m b t < rank (fanout T) m b s) := by
  cases a with
  | app x m => exact absurd hok id
  | duplicate k => exact absurd hok id
  | lose k =>
    obtain ⟨p, hp, rfl⟩ := Option.map_eq_some_iff.mp hs
    refine .inr ⟨rfl, ⟨?_, hB.hop⟩, rank_lose h hp hB _⟩
    intro p' hp'
    exact hB.id p' (Net.mem_of_mem_drop hp')
  | deliver k =>
    obtain ⟨p, hp, rfl⟩ := Option.map_eq_some_iff.mp hs
    have hmem := List.mem_of_getElem? hp
    have hi := (vouched_deliver hw h hmem k).1
    rcases (missing_le hi).lt_or_eq with hlt | heq
    · exact .inl hlt
    · refine .inr ⟨heq, bounded_deliver hp hB hi heq rfl, ?_⟩
      cases hb : p.frame.body with
      | rreq q =>
        have hadv := Message.advert_rreq hb
        have hnew := (receive_vouches (T := T) (s := s) hadv).1
        refine rank_deliver_rreq hp hb (h.advert p hmem _ hadv).2 hB ?_
        refine route_of_missing_eq hi heq p.dst q.srcAddr ?_
        rw [Net.act_row, if_pos rfl]
        exact hnew
      | rrep r => exact rank_deliver_unicast hw h hp (a := r.dstAddr) (by rw [hb]; rfl) _ m b
      | payload l =>
        obtain ⟨a, ha⟩ := Option.ne_none_iff_exists'.mp (h.addressed p hmem l hb)
        exact rank_deliver_unicast hw h hp (a := a) (by rw [hb]; exact ha) _ m b

theorem drain_invariant {n : ℕ} {T : Topology n} {s t : Net n} {a : Action n} (hw : Wired T s)
    (h : Vouched T s) (hok : Drain s a) (hs : s.step T a = some t) :
    Wired T t ∧ Vouched T t := by
  refine ⟨wired_step hw hs, (vouched_step hw h ?_ hs).2⟩
  cases a with
  | app x m => exact absurd hok id
  | deliver k => trivial
  | duplicate k => trivial
  | lose k => trivial

/-- No infinite run of deliveries and losses. The outer induction is on the rows without a
route, the inner one on the rank under the bounds that hold until the next row is set. -/
theorem drain_acc {n : ℕ} {T : Topology n} {s : Net n} (hw : Wired T s) (h : Vouched T s) :
    Acc (Descends (Net.step T) Drain) s := by
  induction hN : missing s using Nat.strong_induction_on generalizing s with
  | _ N ih =>
    obtain ⟨m, b, hB⟩ := exists_bounded s
    have hinner : ∀ (r : Lex (Fin (b + 1) → ℕ ×ₗ ℕ) ×ₗ ℕ) (u : Net n), Wired T u →
        Vouched T u → Bounded m b u → missing u = N → rank (fanout T) m b u = r →
        Acc (Descends (Net.step T) Drain) u := by
      intro r
      induction r using WellFoundedLT.induction with
      | ind r ihr =>
        intro u hwu hu hBu hNu hru
        refine .intro u ?_
        rintro v ⟨a, hok, hs⟩
        obtain ⟨hwv, hv⟩ := drain_invariant hwu hu hok hs
        rcases drain_step hwu hu hBu hok hs with hlt | ⟨heq, hBv, hlt⟩
        · exact ih (missing v) (by omega) hwv hv rfl
        · exact ihr _ (hru ▸ hlt) v hwv hv hBv (heq.trans hNu) rfl
    exact hinner _ s hw h hB hN rfl

theorem drain_enabled_finite {n : ℕ} (T : Topology n) (s : Net n) :
    {a | Drain s a ∧ ∃ t, s.step T a = some t}.Finite := by
  refine ((Set.finite_lt_nat s.inFlight.length).image Action.deliver |>.union
    ((Set.finite_lt_nat s.inFlight.length).image Action.lose)).subset ?_
  rintro a ⟨hok, t, ht⟩
  cases a with
  | app x m => exact absurd hok id
  | duplicate k => exact absurd hok id
  | deliver k =>
    obtain ⟨p, hp, _⟩ := Option.map_eq_some_iff.mp ht
    exact .inl ⟨k, (List.getElem?_eq_some_iff.mp hp).1, rfl⟩
  | lose k =>
    obtain ⟨p, hp, _⟩ := Option.map_eq_some_iff.mp ht
    exact .inr ⟨k, (List.getElem?_eq_some_iff.mp hp).1, rfl⟩

/-- One bound holds for all runs from a state from which no run is infinite. -/
theorem drain_bounded {n : ℕ} {T : Topology n} {s : Net n}
    (h : Acc (Descends (Net.step T) Drain) s) :
    ∃ N, ∀ bs t, Run (Net.step T) Drain s bs t →
      bs.length ≤ N ∧ totalCost (Net.step T) (framesSent T) s bs ≤ N := by
  obtain ⟨b, hb⟩ := bounded_totalCost (fun _ _ => 1) (drain_enabled_finite T) h
  obtain ⟨c, hc⟩ := bounded_totalCost (framesSent T) (drain_enabled_finite T) h
  refine ⟨max b c, ?_⟩
  intro bs t hr
  have hlen := hb bs t hr
  rw [totalCost_one hr] at hlen
  exact ⟨hlen.trans (le_max_left b c), (hc bs t hr).trans (le_max_right b c)⟩

/-- Unforced route discovery terminates: once no application sends and the network does not
duplicate, one bound holds for the length of every run and for the frames sent in it. -/
theorem discovery_terminates {n : ℕ} (T : Topology n) (s₀ s : Net n) (as : List (Action n))
    (h₀ : s₀.Initial) (hr : Run (Net.step T) Unforced s₀ as s) :
    ∃ N, ∀ bs t, Run (Net.step T) Drain s bs t →
      bs.length ≤ N ∧ totalCost (Net.step T) (framesSent T) s bs ≤ N := by
  obtain ⟨hw, hv⟩ := reachable_vouched h₀ hr
  exact drain_bounded (drain_acc hw hv)

theorem discovery_terminates_line :
    lineState.inFlight ≠ [] ∧ ∃ N, ∀ bs t, Run (Net.step line) Drain lineState bs t →
      bs.length ≤ N ∧ totalCost (Net.step line) (framesSent line) lineState bs ≤ N :=
  ⟨by decide, discovery_terminates line (.started 3) lineState lineRun (Net.started_initial 3)
    line_unforced⟩

end NetLab.Odr
