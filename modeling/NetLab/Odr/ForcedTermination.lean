import NetLab.Odr.ForcedFlood

/-! A forced route discovery ends if and only if no copy of its RREQ can come round. -/
namespace NetLab.Odr
open NetLab.Lib Relation

/-- The weight of a RREQ is divided among the copies that its flood makes. -/
noncomputable def Packet.rreqLoad {n : ℕ} (T : Topology n) (dst : Option (Fin n))
    (p : Packet n) : ℕ :=
  match p.frame.body with
  | .rreq _ => (fanout T + 1) ^ height (T.Pass dst) T.interfaces.toFinset (p.dst, p.dstIf)
  | _ => 0

/-- How often a RREP can still be delivered: the node that holds it passes it on towards the
interface where its RREQ arrived. -/
noncomputable def Packet.rrepLoad {n : ℕ} (T : Topology n) (S : Fin n) (dst : Option (Fin n))
    (s : Net n) (p : Packet n) : ℕ :=
  match p.frame.body with
  | .rrep _ =>
    if p.dst = S then 1 else if dst = some S then 2
    else if (s.row p.dst S).outgoingIf = 0 then 1
    else height (Function.swap (T.Pass dst)) T.interfaces.toFinset
      (p.dst, (s.row p.dst S).outgoingIf - 3) + 2
  | _ => 0

noncomputable def forcedRank {n : ℕ} (T : Topology n) (S : Fin n) (dst : Option (Fin n))
    (s : Net n) : ℕ ×ₗ ℕ :=
  toLex ((s.inFlight.map (Packet.rreqLoad T dst)).sum,
    (s.inFlight.map (Packet.rrepLoad T S dst s)).sum)

theorem Topology.Pass.mem {n : ℕ} {T : Topology n} {dst : Option (Fin n)} {a c : Fin n × ℕ}
    (h : T.Pass dst a c) : a ∈ T.interfaces.toFinset ∧ c ∈ T.interfaces.toFinset := by
  obtain ⟨b, hab, hbc⟩ := h
  have ha := (T.mem_interfaces a.1 a.2).mpr hab.2.2.1
  have hc := (T.mem_interfaces c.1 c.2).mpr hbc.2.1
  exact ⟨List.mem_toFinset.mpr ha, List.mem_toFinset.mpr hc⟩

section
variable {n : ℕ} {T : Topology n} {S : Fin n} {dst : Option (Fin n)} {s : Net n}

theorem rreqLoad_copies_lt (hac : NoReturn (T.Turn dst) T.Wire (T.InterfaceOf S))
    (h : ForcedFlood T S dst s) (hw : Wired T s) {p : Packet n} (hp : p ∈ s.inFlight)
    {q : Rreq n} (hq : p.frame.body = .rreq q) :
    ((s.copies T p).map (Packet.rreqLoad T dst)).sum < p.rreqLoad T dst := by
  have harr := (h.rreq p hp q hq).2.2.2.1
  have hself : p.rreqLoad T dst =
      (fanout T + 1) ^ height (T.Pass dst) T.interfaces.toFinset (p.dst, p.dstIf) := by
    simp [Packet.rreqLoad, hq]
  rw [hself]
  refine sum_lt_pow (by simpa using copies_length_rreq T s hq) ?_
  intro w hw'
  obtain ⟨p', hp', rfl⟩ := List.mem_map.mp hw'
  unfold Packet.rreqLoad
  cases h.copies hw hp hp' with
  | flood _ hb _ _ _ _ hpass =>
    rw [hb]
    exact .inr ⟨_, height_lt hpass hpass.mem.2 (hac _ (.pass harr hpass)), rfl⟩
  | answer _ hr =>
    rw [hr]
    exact .inl rfl
  | relay hr =>
    rw [hq] at hr
    cases hr

/-- Without a way round, a copy can arrive at only one interface of a node. -/
theorem arrives_unique (hac : NoReturn (T.Turn dst) T.Wire (T.InterfaceOf S)) (hS : dst ≠ some S)
    {x : Fin n} (hx : dst ≠ some x) {i j : ℕ} (hi : T.Arrives S dst (x, i))
    (hj : T.Arrives S dst (x, j)) : i = j := by
  have hone : ∀ o o', T.InterfaceOf S o → T.InterfaceOf S o' → o ≠ o' → T.Turn dst o o' := by
    intro o o' ho ho' hne
    have hnode : o.1 = o'.1 := ho.1.trans ho'.1.symm
    refine ⟨hnode, fun hi => hne (Prod.ext hnode hi), ?_, ?_, ?_⟩
    · rw [ho.1]
      exact ho.2
    · rw [ho'.1]
      exact ho'.2
    · rw [ho.1]
      exact hS
  have hlt : ∀ a, T.Arrives S dst a → a.2 < T.ifCnt a.1 := by
    intro a ha
    cases ha with
    | start _ hwire => exact hwire.2.1
    | pass _ hpass =>
      obtain ⟨_, _, hwire⟩ := hpass
      exact hwire.2.1
  by_contra hne
  exact hac.unique (T.turn_joins dst) T.wire_joins hone hi hj
    ⟨rfl, hne, hlt _ hi, hlt _ hj, hx⟩

theorem rrepLoad_relay (hac : NoReturn (T.Turn dst) T.Wire (T.InterfaceOf S))
    (h : ForcedFlood T S dst s) {p p' : Packet n} {r r' : Rrep n} (hr : p.frame.body = .rrep r)
    (hr' : p'.frame.body = .rrep r') (hx : p.dst ≠ S) (hS : dst ≠ some S)
    (hout : (s.row p.dst S).outgoingIf ≠ 0)
    (hnext : ∀ y, T.Owns y (s.row p.dst S).nextHop → p'.dst = y) :
    p'.rrepLoad T S dst s < p.rrepLoad T S dst s := by
  obtain ⟨_, y, hy, hup⟩ := h.row p.dst hx hout
  have hdst := hnext y hy
  unfold Packet.rrepLoad
  rw [hr, hr']
  dsimp only
  rw [if_neg hx, if_neg hS, if_neg hout]
  split_ifs with hS' hout'
  · omega
  · omega
  · rw [hdst] at hS' hout' ⊢
    obtain ⟨k, hk, hpass⟩ := hup.resolve_left hS'
    have hyd : dst ≠ some y := by
      obtain ⟨_, hturn, _⟩ := hpass
      exact hturn.2.2.2.2
    rw [arrives_unique hac hS hyd (h.row y hS' hout').1 hk]
    have hback : ¬ TransGen (Function.swap (T.Pass dst)) (y, k) (y, k) := by
      rw [transGen_swap]
      exact hac _ hk
    have hlt := height_lt (r := Function.swap (T.Pass dst)) hpass hpass.mem.1 hback
    omega

theorem rreqLoad_rrep {p : Packet n} {r : Rrep n} (hr : p.frame.body = .rrep r) :
    p.rreqLoad T dst = 0 := by simp [Packet.rreqLoad, hr]

theorem rrepLoad_pos (T : Topology n) (S : Fin n) (dst : Option (Fin n)) (s : Net n)
    {p : Packet n} {r : Rrep n} (hr : p.frame.body = .rrep r) : 0 < p.rrepLoad T S dst s := by
  unfold Packet.rrepLoad
  rw [hr]
  dsimp only
  split_ifs <;> omega

/-- A RREP for another destination than `S` leaves the rows of `S` alone. -/
theorem row_of_rrep (h : ForcedFlood T S dst s) {p : Packet n} (hp : p ∈ s.inFlight) {r : Rrep n}
    (hr : p.frame.body = .rrep r) (hS : dst ≠ some S) (k : ℕ) (x : Fin n) :
    ((s.drop k).act T p.dst (s.receive T p)).row x S = s.row x S := by
  rw [Net.act_row]
  split_ifs with hx
  · unfold Net.receive onFrame
    rw [hr]
    dsimp only
    rw [onRrep_routingTable, (h.rrep p hp r hr).1, if_neg hS, hx]
    rfl
  · rfl

theorem rrepLoad_deliver (h : ForcedFlood T S dst s) {p : Packet n} (hp : p ∈ s.inFlight)
    {r : Rrep n} (hr : p.frame.body = .rrep r) (k : ℕ) (p' : Packet n) :
    p'.rrepLoad T S dst ((s.drop k).act T p.dst (s.receive T p)) = p'.rrepLoad T S dst s := by
  unfold Packet.rrepLoad
  by_cases hS : dst = some S
  · simp [hS]
  · simp only [row_of_rrep h hp hr hS k]

theorem rrepLoad_copies_lt (hac : NoReturn (T.Turn dst) T.Wire (T.InterfaceOf S))
    (h : ForcedFlood T S dst s) (hw : Wired T s) {p : Packet n} (hp : p ∈ s.inFlight)
    {r : Rrep n} (hr : p.frame.body = .rrep r) (k : ℕ) :
    ((s.copies T p).map
      (Packet.rrepLoad T S dst ((s.drop k).act T p.dst (s.receive T p)))).sum <
        p.rrepLoad T S dst s := by
  have ha : p.frame.body.target = some S := by
    rw [hr, ← (h.rrep p hp r hr).2.1]
    rfl
  have hlen := (copies_relay (s := s) (T := T) ha fun hx ho => by
    obtain ⟨_, y, hy, _⟩ := h.row_deliver hw hp hx ho
    exact ⟨y, hy⟩).1
  have hpos := rrepLoad_pos T S dst s hr
  rcases hc : s.copies T p with _ | ⟨p', _ | ⟨p'', ps⟩⟩
  · simpa using hpos
  · have hmem : p' ∈ s.copies T p := by simp [hc]
    have hcopy := h.copies hw hp hmem
    simp only [List.map_cons, List.map_nil, List.sum_cons, List.sum_nil, Nat.add_zero]
    rw [rrepLoad_deliver h hp hr]
    cases hcopy with
    | flood hq => rw [hr] at hq; cases hq
    | answer hq => rw [hr] at hq; cases hq
    | @relay r' _ hx hr' hout hnext =>
      by_cases hS : dst = some S
      · have hto : p'.dst = S := hnext S (h.owns_self hw hp hr hx hS)
        simp [Packet.rrepLoad, hr, hr', hto, hx, hS]
      · have hrow := row_of_rrep h hp hr hS k p.dst
        rw [Net.act_row, if_pos rfl] at hrow
        rw [hrow] at hout hnext
        exact rrepLoad_relay hac h hr hr' hx hS hout hnext
  · rw [hc] at hlen
    simp at hlen

theorem forcedRank_deliver (hac : NoReturn (T.Turn dst) T.Wire (T.InterfaceOf S))
    (h : ForcedFlood T S dst s) (hw : Wired T s) {k : ℕ} {p : Packet n}
    (hp : s.inFlight[k]? = some p) :
    forcedRank T S dst ((s.drop k).act T p.dst (s.receive T p)) < forcedRank T S dst s := by
  have hmem := List.mem_of_getElem? hp
  unfold forcedRank
  rw [Prod.Lex.toLex_lt_toLex, inFlight_deliver, List.map_append, List.sum_append, List.map_append,
    List.sum_append, sum_eraseIdx hp (Packet.rreqLoad T dst),
    sum_eraseIdx hp (Packet.rrepLoad T S dst s)]
  dsimp only
  cases hb : p.frame.body with
  | rreq q =>
    have hlt := rreqLoad_copies_lt hac h hw hmem hb
    exact .inl (by omega)
  | rrep r =>
    have hlt := rrepLoad_copies_lt hac h hw hmem hb k
    have hzero : ((s.copies T p).map (Packet.rreqLoad T dst)).sum = 0 := by
      apply List.sum_eq_zero
      intro w hw'
      obtain ⟨p', hp', rfl⟩ := List.mem_map.mp hw'
      cases h.copies hw hmem hp' with
      | flood hq => rw [hb] at hq; cases hq
      | answer _ hr => exact rreqLoad_rrep hr
      | relay _ _ hr => exact rreqLoad_rrep hr
    have hrest : Packet.rrepLoad T S dst ((s.drop k).act T p.dst (s.receive T p)) =
        Packet.rrepLoad T S dst s := funext (rrepLoad_deliver h hmem hb k)
    rw [hzero, rreqLoad_rrep hb]
    rw [hrest] at hlt ⊢
    exact .inr ⟨by omega, by omega⟩
  | payload l => exact absurd hb (h.payload p hmem l)

theorem forcedRank_lose (h : ForcedFlood T S dst s) {k : ℕ} {p : Packet n}
    (hp : s.inFlight[k]? = some p) : forcedRank T S dst (s.drop k) < forcedRank T S dst s := by
  have hflight : (s.drop k).inFlight = s.inFlight.eraseIdx k := rfl
  have hsame : Packet.rrepLoad T S dst (s.drop k) = Packet.rrepLoad T S dst s := rfl
  unfold forcedRank
  rw [Prod.Lex.toLex_lt_toLex, hflight, hsame, sum_eraseIdx hp (Packet.rreqLoad T dst),
    sum_eraseIdx hp (Packet.rrepLoad T S dst s)]
  dsimp only
  cases hb : p.frame.body with
  | rreq q =>
    have hpos : 0 < p.rreqLoad T dst := by
      simp only [Packet.rreqLoad, hb]
      exact Nat.pow_pos (Nat.succ_pos _)
    exact .inl (by omega)
  | rrep r =>
    have hpos := rrepLoad_pos T S dst s hb
    rw [rreqLoad_rrep hb]
    exact .inr ⟨by omega, by omega⟩
  | payload l => exact absurd hb (h.payload p (List.mem_of_getElem? hp) l)

/-- One step of the network keeps the flood and lowers its rank. -/
theorem forced_step (hac : NoReturn (T.Turn dst) T.Wire (T.InterfaceOf S)) {t : Net n}
    {a : Action n} (h : Wired T s ∧ ForcedFlood T S dst s) (hok : Drain s a)
    (hs : s.step T a = some t) :
    (Wired T t ∧ ForcedFlood T S dst t) ∧ forcedRank T S dst t < forcedRank T S dst s := by
  obtain ⟨hw, hf⟩ := h
  have hw' := wired_step hw hs
  cases a with
  | app x m => exact absurd hok id
  | duplicate k => exact absurd hok id
  | deliver k =>
    obtain ⟨p, hp, rfl⟩ := Option.map_eq_some_iff.mp hs
    have hdeliver := hf.deliver hw (List.mem_of_getElem? hp) k
    exact ⟨⟨hw', hdeliver⟩, forcedRank_deliver hac hf hw hp⟩
  | lose k =>
    obtain ⟨p, hp, rfl⟩ := Option.map_eq_some_iff.mp hs
    exact ⟨⟨hw', hf.drop k⟩, forcedRank_lose hf hp⟩

end

/-- The state right after a client at `S` issued one forced request for `dst`, with no route
anywhere before it. -/
inductive Forced {n : ℕ} (T : Topology n) (S : Fin n) (dst : Option (Fin n)) : Net n → Prop
  | intro {s₀ s : Net n} {m : LocalMsg n} (hinit : s₀.Initial)
      (hclient : ∀ e, (s₀.node S).portTable.head? = some e →
        e.sunPath ≠ (s₀.node S).reads m.sunPath)
      (hflag : m.flag = 1) (hdst : m.dstAddr = dst) (hs : s₀.step T (.app S m) = some s) :
      Forced T S dst s

theorem Forced.sent {n : ℕ} {T : Topology n} {S : Fin n} {dst : Option (Fin n)} {s : Net n}
    (h : Forced T S dst s) {p : Packet n} (hp : p ∈ s.inFlight) :
    ∃ q, p.frame.body = .rreq q ∧ q.srcAddr = S ∧ q.dstAddr = dst ∧ q.discovery = true ∧
      p.src = S ∧ T.Arrives S dst (p.dst, p.dstIf) := by
  obtain @⟨s₀, s, m, hinit, _, hflag, hdst, hs⟩ := h
  cases hs
  rcases mem_act_cases hp with hp | ⟨hsend, hsrc, hj, hl, hne, _⟩
  · rw [hinit.2] at hp
    cases hp
  · generalize hi : p.srcIf = i at hsend
    generalize hg : p.frame = g at hsend
    cases onLocal_originates hsend with
    | @request q _ hlt hqs hqd _ _ hdisc =>
      rw [hi] at hl hne
      have hwire : T.Wire (S, i) (p.dst, p.dstIf) := ⟨hlt, hj, hl.symm, hne.symm⟩
      refine ⟨q, rfl, hqs, hqd.trans hdst, by simp [hdisc, hflag], hsrc, ?_⟩
      exact .start ⟨rfl, hlt⟩ hwire
    | @payload a l _ hout =>
      have hnone := hinit.1 S a
      omega

theorem Forced.flood {n : ℕ} {T : Topology n} {S : Fin n} {dst : Option (Fin n)} {s : Net n}
    (h : Forced T S dst s) : Wired T s ∧ ForcedFlood T S dst s := by
  have hsent : ∀ p ∈ s.inFlight, _ := fun p hp => h.sent hp
  obtain @⟨s₀, s, m, hinit, _, hflag, hdst, hs⟩ := h
  refine ⟨wired_step (wired_initial T hinit) hs, ?_, ?_, ?_, ?_⟩
  · intro p hp q hq
    obtain ⟨q', hq', hsrc, hdst, hdisc, hfrom, harr⟩ := hsent p hp
    rw [hq] at hq'
    cases hq'
    exact ⟨hsrc, hdst, hdisc, harr, .inl hfrom⟩
  · intro p hp r hr
    obtain ⟨q, hq, _⟩ := hsent p hp
    rw [hr] at hq
    cases hq
  · intro p hp l hl
    obtain ⟨q, hq, _⟩ := hsent p hp
    rw [hl] at hq
    cases hq
  · intro x _ ho
    refine absurd ?_ ho
    cases hs
    rw [Net.act_row, onLocal_routingTable]
    split_ifs
    · exact hinit.1 S S
    · exact hinit.1 x S

/-- A copy of the RREQ numbered `id` is on its way to interface `a`, and no node has stored a
later number. -/
def Carries {n : ℕ} (S : Fin n) (dst : Option (Fin n)) (id : ℕ) (s : Net n) (a : Fin n × ℕ) :
    Prop :=
  (∃ p ∈ s.inFlight, (p.dst, p.dstIf) = a ∧ ∃ q, p.frame.body = .rreq q ∧ q.srcAddr = S ∧
    q.dstAddr = dst ∧ q.discovery = true ∧ q.broadcastId = id) ∧
  ∀ x, (s.row x S).broadcastId ≤ id

theorem onRreq_forced_floods {n : ℕ} (h : Host n) {nd : Node n} {index : ℕ} (mac : Mac)
    {q : Rreq n} (hq : q.discovery = true) (hd : q.dstAddr ≠ some h.node)
    (hid : (nd.routingTable q.srcAddr).broadcastId ≤ q.broadcastId) {i : ℕ} (hi : i < h.ifCnt)
    (hne : i ≠ index) :
    ∃ g, .send i g ∈ (onRreq h nd index mac q).2 ∧ g.dstMac = broadcastMac ∧
      g.body = .rreq { q with hopCnt := q.hopCnt + 1 } := by
  obtain ⟨sent, hs⟩ := onRreq_floods h nd index mac hd (by simp [moreEfficient, hq]) hid hi hne
  refine ⟨_, hs, rfl, ?_⟩
  rcases onRreq_forced hq hs with ⟨_, _, _, hg⟩ | ⟨hd', _⟩
  · exact congrArg Frame.body hg
  · exact absurd hd' hd

theorem Carries.pass {n : ℕ} {T : Topology n} {S : Fin n} {dst : Option (Fin n)} {id : ℕ}
    {s : Net n} {a c : Fin n × ℕ} (h : Carries S dst id s a) (hpass : T.Pass dst a c) :
    ∃ k t, s.step T (.deliver k) = some t ∧ 0 < framesSent T s (.deliver k) ∧
      Carries S dst id t c := by
  obtain ⟨⟨p, hp, rfl, q, hq, hsrc, hdst, hdisc, hid⟩, hstored⟩ := h
  obtain ⟨⟨x, i⟩, ⟨hx, hne, _, hi, hd⟩, hwire⟩ := hpass
  dsimp only at hx hne hi hd
  subst hx
  obtain ⟨k, hk⟩ := List.mem_iff_getElem?.mp hp
  have hold : ((s.node p.dst).routingTable q.srcAddr).broadcastId ≤ q.broadcastId := by
    rw [hid, hsrc]
    exact hstored p.dst
  obtain ⟨g, hg, hmac, hbody⟩ := onRreq_forced_floods (T.host p.dst) p.frame.srcMac hdisc
    (by rw [hdst]; exact hd) hold hi (Ne.symm hne)
  have hsend : .send i g ∈ (s.receive T p).2 := by
    unfold Net.receive onFrame
    rw [hq]
    exact hg
  refine ⟨k, (s.drop k).act T p.dst (s.receive T p), by simp [Net.step, hk], ?_, ⟨?_, ?_⟩⟩
  · simp only [framesSent, hk, Option.map_some, Option.getD_some]
    exact List.countP_pos_iff.mpr ⟨_, hsend, rfl⟩
  · refine ⟨⟨p.dst, i, c.1, c.2, g⟩, ?_, rfl, _, hbody, hsrc, hdst, hdisc, hid⟩
    refine (Net.mem_act _ _ _ _ _).mpr (.inr ⟨_, hsend, T.mem_transmit.mpr ?_⟩)
    exact ⟨rfl, rfl, hwire.2.1, hwire.2.2.1.symm, hwire.2.2.2.symm, .inl hmac⟩
  · intro x
    rw [deliver_broadcastId, hq]
    dsimp only
    split_ifs
    · exact hid.le
    · exact hstored x

/-- From an interface that a copy can come back to, the flood goes on as long as one likes. -/
theorem Carries.endless {n : ℕ} {T : Topology n} {S : Fin n} {dst : Option (Fin n)} {id : ℕ}
    {s : Net n} {a b : Fin n × ℕ} (h : Carries S dst id s a) (hab : ReflTransGen (T.Pass dst) a b)
    (hb : TransGen (T.Pass dst) b b) (N : ℕ) :
    ∃ as t, Run (Net.step T) Drain s as t ∧ as.length = N ∧
      N ≤ totalCost (Net.step T) (framesSent T) s as := by
  induction N generalizing s a with
  | zero => exact ⟨[], s, .nil s, rfl, Nat.zero_le _⟩
  | succ N ih =>
    obtain ⟨c, hac, hcb⟩ : ∃ c, T.Pass dst a c ∧ ReflTransGen (T.Pass dst) c b := by
      rcases ReflTransGen.cases_head hab with rfl | hstep
      · exact TransGen.head'_iff.mp hb
      · exact hstep
    obtain ⟨k, t, hs, hcost, hc⟩ := h.pass hac
    obtain ⟨as, u, hr, hlen, hle⟩ := ih hc hcb
    refine ⟨.deliver k :: as, u, .cons trivial hs hr, by simp [hlen], ?_⟩
    simp only [totalCost, hs, Option.map_some, Option.getD_some]
    omega

def asked {n : ℕ} (T : Topology n) (S : Fin n) (dst : Option (Fin n)) : Net n :=
  (Net.started n).act T S (onLocal (T.host S) ((Net.started n).node S)
    ⟨"temp.a", dst, 5000, "HI", 1⟩)

theorem started_reads {n : ℕ} (x : Fin n) : ((Net.started n).node x).reads "temp.a" = "temp.a" :=
  reads_whole (by decide) (show "temp.a".length + 3 ≤ sockaddrUnSize by decide)

theorem asked_forced {n : ℕ} (T : Topology n) (S : Fin n) (dst : Option (Fin n)) :
    Forced T S dst (asked T S dst) := by
  refine .intro (Net.started_initial n) (m := ⟨"temp.a", dst, 5000, "HI", 1⟩) ?_ rfl rfl rfl
  intro e he
  cases he
  show serverEntry.sunPath ≠ ((Net.started n).node S).reads "temp.a"
  rw [started_reads]
  decide

theorem asked_carries {n : ℕ} {T : Topology n} {S : Fin n} (dst : Option (Fin n))
    {o c : Fin n × ℕ} (ho : T.InterfaceOf S o) (hwire : T.Wire o c) :
    Carries S dst 1 (asked T S dst) c := by
  obtain ⟨x, i⟩ := o
  obtain ⟨hx, hi⟩ := ho
  obtain rfl : x = S := hx
  let q : Rreq n := ⟨x, dst, (T.order x).htonl 6000, 1, 0, false, true⟩
  have hflood : (onLocal (T.host x) ((Net.started n).node x) ⟨"temp.a", dst, 5000, "HI", 1⟩).2 =
      flood (T.host x) none q := by
    have hread := started_reads x
    unfold Node.reads at hread
    unfold onLocal
    dsimp only
    rw [hread]
    cases dst <;> rfl
  have hsend : .send i ⟨broadcastMac, T.mac x i, .rreq q⟩ ∈
      (onLocal (T.host x) ((Net.started n).node x) ⟨"temp.a", dst, 5000, "HI", 1⟩).2 := by
    rw [hflood]
    exact mem_flood.mpr ⟨hi, by simp, rfl⟩
  constructor
  · refine ⟨⟨x, i, c.1, c.2, ⟨broadcastMac, T.mac x i, .rreq q⟩⟩, ?_, rfl, q, rfl, rfl, rfl, rfl, rfl⟩
    refine (Net.mem_act _ _ _ _ _).mpr (.inr ⟨_, hsend, T.mem_transmit.mpr ?_⟩)
    exact ⟨rfl, rfl, hwire.2.1, hwire.2.2.1.symm, hwire.2.2.2.symm, .inl rfl⟩
  · intro y
    have hrow : ((asked T x dst).row y x).broadcastId = 0 := by
      unfold asked
      rw [Net.act_row, onLocal_routingTable]
      split_ifs <;> rfl
    omega

/-- The traffic that follows `s` is bounded, however the network delivers and loses frames. -/
def DiesOut {n : ℕ} (T : Topology n) (s : Net n) : Prop :=
  ∃ N, ∀ as t, Run (Net.step T) Drain s as t →
    as.length ≤ N ∧ totalCost (Net.step T) (framesSent T) s as ≤ N

theorem Forced.diesOut {n : ℕ} {T : Topology n} {S : Fin n} {dst : Option (Fin n)} {s : Net n}
    (h : Forced T S dst s) (hac : NoReturn (T.Turn dst) T.Wire (T.InterfaceOf S)) :
    DiesOut T s := by
  have hacc : Acc (Descends (Net.step T) Drain) s :=
    acc_of_rank (fun s => Wired T s ∧ ForcedFlood T S dst s) (forcedRank T S dst)
      (fun _ _ _ hi hok hs => forced_step hac hi hok hs) h.flood
  exact drain_bounded hacc

theorem asked_endless {n : ℕ} {T : Topology n} {S : Fin n} {dst : Option (Fin n)}
    {a : Fin n × ℕ} (ha : T.Arrives S dst a) (hcycle : TransGen (T.Pass dst) a a) :
    ¬ DiesOut T (asked T S dst) := by
  rintro ⟨N, hN⟩
  obtain ⟨o, c, k, ho, hwire, _, hwalk⟩ := ha.walk
  obtain ⟨as, t, hr, hlen, _⟩ :=
    (asked_carries dst ho hwire).endless hwalk.reflTransGen hcycle (N + 1)
  have hle := (hN as t hr).1
  omega

/-- A forced request of `S` for `dst` dies out, whatever the network does, if and only if no
copy of it can come back to an interface: along LANs from `S`, leaving each node but the
destination by another interface than the one of arrival. -/
theorem forced_discovery_terminates_iff {n : ℕ} (T : Topology n) (S : Fin n)
    (dst : Option (Fin n)) :
    (∀ s, Forced T S dst s → DiesOut T s) ↔ NoReturn (T.Turn dst) T.Wire (T.InterfaceOf S) := by
  constructor
  · intro h a ha hcycle
    exact asked_endless ha hcycle (h _ (asked_forced T S dst))
  · intro hac s hs
    exact hs.diesOut hac

instance {n : ℕ} (T : Topology n) (dst : Option (Fin n)) (a b : Fin n × ℕ) :
    Decidable (T.Turn dst a b) :=
  inferInstanceAs (Decidable (a.1 = b.1 ∧ a.2 ≠ b.2 ∧ a.2 < T.ifCnt a.1 ∧ b.2 < T.ifCnt b.1 ∧
    dst ≠ some a.1))

instance {n : ℕ} (T : Topology n) (a b : Fin n × ℕ) : Decidable (T.Wire a b) :=
  inferInstanceAs (Decidable (a.2 < T.ifCnt a.1 ∧ b.2 < T.ifCnt b.1 ∧
    T.lan a.1 a.2 = T.lan b.1 b.2 ∧ a ≠ b))

theorem line_no_return : NoReturn (line.Turn (some (vm 2))) line.Wire (line.InterfaceOf (vm 0)) := by
  have hpass : ∀ a ∈ line.interfaces, ∀ b ∈ line.interfaces, ∀ c ∈ line.interfaces,
      a.2 = 0 → line.Turn (some (vm 2)) a b → line.Wire b c → c.2 = 0 ∧ a.1 < c.1 := by decide
  have hstart : ∀ o ∈ line.interfaces, ∀ a ∈ line.interfaces,
      o.1 = vm 0 → line.Wire o a → a.2 = 0 := by decide
  have hmem : ∀ a : Fin 3 × ℕ, a.2 < line.ifCnt a.1 → a ∈ line.interfaces :=
    fun a ha => (line.mem_interfaces a.1 a.2).mpr ha
  have hgo : ∀ a c, a.2 = 0 → line.Pass (some (vm 2)) a c → c.2 = 0 ∧ a.1 < c.1 := by
    rintro a c ha ⟨b, hturn, hwire⟩
    exact hpass a (hmem a hturn.2.2.1) b (hmem b hwire.1) c (hmem c hwire.2.1) ha hturn hwire
  have hzero : ∀ a, line.Arrives (vm 0) (some (vm 2)) a → a.2 = 0 := by
    intro a ha
    induction ha with
    | @start o a ho hwire => exact hstart o (hmem o hwire.1) a (hmem a hwire.2.1) ho.1 hwire
    | pass _ h ih => exact (hgo _ _ ih h).1
  intro a ha hcycle
  have hlt : ∀ c, TransGen (line.Pass (some (vm 2))) a c → c.2 = 0 ∧ a.1 < c.1 := by
    intro c hc
    induction hc with
    | single h => exact hgo _ _ (hzero a ha) h
    | tail _ h ih =>
      obtain ⟨hc, hlt⟩ := hgo _ _ ih.1 h
      exact ⟨hc, ih.2.trans hlt⟩
  exact lt_irrefl _ (hlt a hcycle).2

theorem forced_discovery_terminates_line : DiesOut line (asked line (vm 0) (some (vm 2))) :=
  (forced_discovery_terminates_iff line (vm 0) (some (vm 2))).mpr line_no_return _
    (asked_forced _ _ _)

/-- Nodes 0 and 1 share two LANs, and node 2 is behind node 1. -/
def parallel : Topology 3 := .ofLans ![[0, 1], [0, 1, 2], [2]]

theorem parallel_cycle :
    parallel.Arrives (vm 0) (some (vm 2)) (vm 1, 0) ∧
      TransGen (parallel.Pass (some (vm 2))) (vm 1, 0) (vm 1, 0) := by
  have hstart : parallel.Wire (vm 0, 0) (vm 1, 0) := by decide
  have hturn : parallel.Turn (some (vm 2)) (vm 1, 0) (vm 1, 1) := by decide
  have hback : parallel.Wire (vm 1, 1) (vm 0, 1) := by decide
  have hturn' : parallel.Turn (some (vm 2)) (vm 0, 1) (vm 0, 0) := by decide
  constructor
  · exact .start ⟨rfl, by decide⟩ hstart
  · exact .tail (.single ⟨_, hturn, hback⟩) ⟨_, hturn', hstart⟩

/-- One forced request of node 0 for node 2 keeps the network busy for ever. -/
theorem forced_discovery_endless :
    Forced parallel (vm 0) (some (vm 2)) (asked parallel (vm 0) (some (vm 2))) ∧
      ¬ DiesOut parallel (asked parallel (vm 0) (some (vm 2))) :=
  ⟨asked_forced _ _ _, asked_endless parallel_cycle.1 parallel_cycle.2⟩

end NetLab.Odr
