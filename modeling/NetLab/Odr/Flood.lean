import NetLab.Odr.Termination

/-! The flood that one unforced request causes in a network with fresh tables is an
asynchronous breadth-first search: when it is over, every reverse route is shortest. -/
namespace NetLab.Odr
open NetLab.Lib

/-- Cleared tables: no route and no broadcast id stored anywhere. -/
def Net.Fresh {n : ℕ} (s : Net n) : Prop := s.Initial ∧ ∀ x d, (s.row x d).broadcastId = 0

/-- The network delivers frames in any order and does nothing else. -/
def Delivery {n : ℕ} (_ : Net n) : Action n → Prop
  | .deliver _ => True
  | _ => False

/-- The state right after a client at `S` issued one unforced request for `D`, with fresh
tables. A client is a process that ODR does not take for the well-known server, entry 0 of
`port_table`. -/
inductive Requested {n : ℕ} (T : Topology n) (S D : Fin n) : Net n → Prop
  | intro {s₀ s : Net n} {m : LocalMsg n} (hfresh : s₀.Fresh) (hne : D ≠ S)
      (hclient : ∀ e, (s₀.node S).portTable.head? = some e →
        e.sunPath ≠ (s₀.node S).reads m.sunPath)
      (hflag : m.flag ≠ 1) (hdst : m.dstAddr = some D)
      (hs : s₀.step T (.app S m) = some s) : Requested T S D s

/-- Every interface on LAN `l`, those of `S` apart, belongs to a node with a route to `S` of
at most `c + 1` hops, or a RREQ with hop count at most `c` is on its way to it. -/
def Covered {n : ℕ} (T : Topology n) (s : Net n) (S : Fin n) (l c : ℕ) : Prop :=
  ∀ y j, j < T.ifCnt y → T.lan y j = l → y ≠ S →
    ((s.row y S).outgoingIf ≠ 0 ∧ (s.row y S).hopCnt ≤ c + 1) ∨
    ∃ p ∈ s.inFlight, p.dst = y ∧ p.dstIf = j ∧ ∃ q, p.frame.body = .rreq q ∧ q.hopCnt ≤ c

/-- The flood of the RREQ numbered `id` from `S` for `D`. -/
structure Flooding {n : ℕ} (T : Topology n) (S D : Fin n) (id : ℕ) (s : Net n) : Prop where
  origin : ∀ i < T.ifCnt S, Covered T s S (T.lan S i) 0
  relayed : ∀ x, x ≠ D → x ≠ S → (s.row x S).outgoingIf ≠ 0 →
    ∀ i < T.ifCnt x, Covered T s S (T.lan x i) (s.row x S).hopCnt
  arriving : ∀ p ∈ s.inFlight, ∀ q, p.frame.body = .rreq q →
    Covered T s S (T.lan p.dst p.dstIf) q.hopCnt
  rreq : ∀ p ∈ s.inFlight, ∀ q, p.frame.body = .rreq q → q.srcAddr = S ∧ q.dstAddr = some D ∧
    q.broadcastId = id ∧ p.src ≠ D ∧ Walk (Avoiding T.Hop D) q.hopCnt S p.src
  rrep : ∀ p ∈ s.inFlight, ∀ r, p.frame.body = .rrep r → r.srcAddr = some D
  row : ∀ x, x ≠ D → (s.row x S).outgoingIf ≠ 0 →
    Walk (Avoiding T.Hop D) (s.row x S).hopCnt S x
  dest : (s.row D S).outgoingIf ≠ 0 → Walk T.Hop (s.row D S).hopCnt S D
  stored : ∀ x, (s.row x S).broadcastId = 0 ∨ (s.row x S).broadcastId = id

theorem Covered.mono {n : ℕ} {T : Topology n} {s : Net n} {S : Fin n} {l c c' : ℕ}
    (h : Covered T s S l c) (hc : c ≤ c') : Covered T s S l c' := by
  intro y j hj hl hy
  rcases h y j hj hl hy with ⟨ho, hle⟩ | ⟨p, hp, hd, hi, q, hq, hqc⟩
  · exact .inl ⟨ho, by omega⟩
  · exact .inr ⟨p, hp, hd, hi, q, hq, by omega⟩

theorem covered_of_send {n : ℕ} {T : Topology n} {s : Net n} {S x : Fin n}
    {r : Node n × List (Out n)} {i : ℕ} {g : Frame n} {q : Rreq n} (hg : .send i g ∈ r.2)
    (hm : g.dstMac = broadcastMac) (hq : g.body = .rreq q)
    (hx : x = S ∨ ((r.1.routingTable S).outgoingIf ≠ 0 ∧
      (r.1.routingTable S).hopCnt ≤ q.hopCnt + 1)) :
    Covered T (s.act T x r) S (T.lan x i) q.hopCnt := by
  intro y j hj hl hy
  by_cases hxy : y = x
  · subst hxy
    rw [Net.act_row, if_pos rfl]
    exact .inl (hx.resolve_left hy)
  · refine .inr ⟨⟨x, i, y, j, g⟩, ?_, rfl, rfl, q, hq, le_rfl⟩
    refine (Net.mem_act T s x r _).mpr (.inr ⟨_, hg, T.mem_transmit.mpr ?_⟩)
    exact ⟨rfl, rfl, hj, hl, fun h => hxy (congrArg Prod.fst h), .inl hm⟩

theorem mem_drop_of_ne {n : ℕ} {s : Net n} {k : ℕ} {p p' : Packet n}
    (hp : s.inFlight[k]? = some p) (hp' : p' ∈ s.inFlight) (hne : p' ≠ p) :
    p' ∈ (s.drop k).inFlight := by
  obtain ⟨hk, rfl⟩ := List.getElem?_eq_some_iff.mp hp
  have hperm := (List.getElem_cons_eraseIdx_perm hk).symm.mem_iff.mp hp'
  exact (List.mem_cons.mp hperm).resolve_left hne

/-- The node that answers for `D` never floods, and a better reverse route is always flooded. -/
theorem onRreq_floods {n : ℕ} (h : Host n) (nd : Node n) (index : ℕ) (mac : Mac) {q : Rreq n}
    (hd : q.dstAddr ≠ some h.node)
    (he : moreEfficient (nd.routingTable q.srcAddr) q.discovery q.hopCnt index = true)
    (hid : (nd.routingTable q.srcAddr).broadcastId ≤ q.broadcastId) {i : ℕ} (hi : i < h.ifCnt)
    (hne : i ≠ index) :
    ∃ sent, .send i ⟨broadcastMac, h.ifAddr i,
      .rreq { q with rrepSent := sent, hopCnt := q.hopCnt + 1 }⟩ ∈ (onRreq h nd index mac q).2 := by
  rw [onRreq_out, if_neg hd]
  have hfresh : isFresh (learn (nd.routingTable q.srcAddr) q.discovery q.hopCnt index mac) q
      (moreEfficient (nd.routingTable q.srcAddr) q.discovery q.hopCnt index) = true := by
    simp only [isFresh, learn_broadcastId, he, Bool.and_true, Bool.or_eq_true,
      decide_eq_true_eq, beq_iff_eq]
    omega
  have hskip : some i ≠ some index := by simpa using hne
  split
  · refine ⟨true, List.mem_append_right _ ?_⟩
    rw [if_pos he]
    exact mem_flood.mpr ⟨hi, hskip, rfl⟩
  · refine ⟨q.rrepSent, ?_⟩
    rw [if_pos hfresh]
    exact mem_flood.mpr ⟨hi, hskip, rfl⟩

theorem onRreq_sends_rreq {n : ℕ} {h : Host n} {nd : Node n} {index : ℕ} {mac : Mac}
    {q q' : Rreq n} {i : ℕ} {g : Frame n} (hm : .send i g ∈ (onRreq h nd index mac q).2)
    (hg : g.body = .rreq q') : q.dstAddr ≠ some h.node := by
  intro hd
  rw [onRreq_out, if_pos hd] at hm
  obtain ⟨_, _, rfl⟩ := send_eq_reply (mem_answer.mp hm).2.2
  cases hg

theorem Flooding.learns {n : ℕ} {T : Topology n} {S D : Fin n} {id : ℕ} {s : Net n}
    (h : Flooding T S D id s) {p : Packet n} (hp : p ∈ s.inFlight) {q : Rreq n}
    (hq : p.frame.body = .rreq q) :
    ((s.receive T p).1.routingTable S).outgoingIf ≠ 0 ∧
      ((s.receive T p).1.routingTable S).hopCnt ≤ q.hopCnt + 1 := by
  have hadv : p.frame.body.advert = some ⟨S, q.hopCnt, q.discovery⟩ := by
    rw [hq, ← (h.rreq p hp q hq).1]
    rfl
  exact receive_vouches hadv

theorem Flooding.covered {n : ℕ} {T : Topology n} {S D : Fin n} {id : ℕ} {s : Net n}
    (h : Flooding T S D id s) (hw : Wired T s) (hv : Vouched T s) {k : ℕ} {p : Packet n}
    (hp : s.inFlight[k]? = some p) {l c : ℕ} (hc : Covered T s S l c) :
    Covered T ((s.drop k).act T p.dst (s.receive T p)) S l c := by
  have hmem := List.mem_of_getElem? hp
  have hi := (vouched_deliver hw hv hmem k).1
  intro y j hj hl hy
  rcases hc y j hj hl hy with ⟨ho, hle⟩ | ⟨p', hp', hd, hj', q, hq, hqc⟩
  · exact .inl ⟨(hi y S ho).1, (hi y S ho).2.trans hle⟩
  · by_cases hpp : p' = p
    · subst hpp
      obtain ⟨ho, hle⟩ := h.learns hmem hq
      left
      rw [← hd, Net.act_row, if_pos rfl]
      exact ⟨ho, hle.trans (by omega)⟩
    · refine .inr ⟨p', ?_, hd, hj', q, hq, hqc⟩
      exact (Net.mem_act _ _ _ _ _).mpr (.inl (mem_drop_of_ne hp hp' hpp))

/-- What the delivery of `p` does to the row of `S`. -/
theorem Flooding.receive_cases {n : ℕ} {T : Topology n} {S D : Fin n} {id : ℕ} {s : Net n}
    (h : Flooding T S D id s) (hne : D ≠ S) {p : Packet n} (hp : p ∈ s.inFlight) :
    ((s.receive T p).1.routingTable S).route = (s.row p.dst S).route ∨
    ∃ q, p.frame.body = .rreq q ∧
      moreEfficient (s.row p.dst S) q.discovery q.hopCnt p.dstIf = true ∧
      ((s.receive T p).1.routingTable S).route =
        (p.frame.srcMac, p.dstIf + 3, q.hopCnt + 1) := by
  have hr := onFrame_route (T.host p.dst) (s.node p.dst) p.dstIf p.frame S
  unfold learned at hr
  cases hb : p.frame.body with
  | payload l =>
    rw [hb] at hr
    exact .inl hr
  | rrep r =>
    rw [hb, Message.advert, h.rrep p hp r hb] at hr
    simp only [Option.map_some, if_neg (Ne.symm hne)] at hr
    exact .inl hr
  | rreq q =>
    have hsrc := (h.rreq p hp q hb).1
    rw [hb] at hr
    simp only [Message.advert, hsrc, if_true] at hr
    cases he : moreEfficient ((s.node p.dst).routingTable S) q.discovery q.hopCnt p.dstIf with
    | true =>
      rw [learn_of_moreEfficient _ he] at hr
      exact .inr ⟨q, rfl, he, hr⟩
    | false =>
      rw [learn_of_not _ he] at hr
      exact .inl hr

theorem Flooding.row_cases {n : ℕ} {T : Topology n} {S D : Fin n} {id : ℕ} {s : Net n}
    (h : Flooding T S D id s) (hne : D ≠ S) {p : Packet n} (hp : p ∈ s.inFlight) (k : ℕ)
    (x : Fin n) :
    let t := (s.drop k).act T p.dst (s.receive T p)
    ((t.row x S).outgoingIf = (s.row x S).outgoingIf ∧ (t.row x S).hopCnt = (s.row x S).hopCnt) ∨
    (x = p.dst ∧ ∃ q, p.frame.body = .rreq q ∧
      moreEfficient (s.row p.dst S) q.discovery q.hopCnt p.dstIf = true ∧
      (t.row x S).hopCnt = q.hopCnt + 1) := by
  dsimp only
  rw [Net.act_row]
  by_cases hx : x = p.dst
  · subst hx
    rw [if_pos rfl]
    rcases h.receive_cases hne hp with hr | ⟨q, hq, he, hr⟩
    · obtain ⟨_, hro, hrc⟩ := route_eq_iff.mp hr
      exact .inl ⟨hro, hrc⟩
    · simp only [RoutingEntry.route, Prod.mk.injEq] at hr
      exact .inr ⟨rfl, q, hq, he, hr.2.2⟩
  · rw [if_neg hx]
    exact .inl ⟨rfl, rfl⟩

/-- The frames of the flood that a delivery sends: a RREQ passed on, or a RREP for `D`. -/
theorem Flooding.sends {n : ℕ} {T : Topology n} {S D : Fin n} {id : ℕ} {s : Net n}
    (h : Flooding T S D id s) {p : Packet n} (hp : p ∈ s.inFlight) {i : ℕ} {g : Frame n}
    (hs : .send i g ∈ (s.receive T p).2) :
    (∀ q', g.body = .rreq q' → ∃ q, p.frame.body = .rreq q ∧ q'.srcAddr = S ∧
      q'.dstAddr = some D ∧ q'.broadcastId = id ∧ q'.hopCnt = q.hopCnt + 1 ∧ p.dst ≠ D ∧
      g.dstMac = broadcastMac) ∧
    ∀ r, g.body = .rrep r → r.srcAddr = some D := by
  constructor
  · intro q' hq'
    cases onFrame_sends hs with
    | @flood q i sent hf hi hne =>
      cases hq'
      obtain ⟨hsrc, hdst, hid, _⟩ := h.rreq p hp q hf
      refine ⟨q, hf, hsrc, hdst, hid, rfl, ?_, rfl⟩
      unfold Net.receive onFrame at hs
      rw [hf] at hs
      have hnd := onRreq_sends_rreq hs rfl
      rw [hdst] at hnd
      intro hd
      exact hnd (congrArg some hd.symm)
    | answer => cases hq'
    | relay hf => exact absurd hq' (Message.relayed_ne_rreq hf q')
  · intro r hr
    cases onFrame_sends hs with
    | flood => cases hr
    | @answer q r' hf _ _ hsrc _ _ =>
      cases hr
      rw [hsrc]
      exact (h.rreq p hp q hf).2.1
    | relay hf =>
      obtain ⟨r', hb, rfl⟩ := Message.relayed_rrep hr
      exact h.rrep p hp r' hb

theorem Flooding.relayed_improved {n : ℕ} {T : Topology n} {S D : Fin n} {id : ℕ} {s : Net n}
    (h : Flooding T S D id s) (hw : Wired T s) (hv : Vouched T s) {k : ℕ} {p : Packet n}
    (hp : s.inFlight[k]? = some p) {q : Rreq n} (hq : p.frame.body = .rreq q)
    (hd : p.dst ≠ D) (he : moreEfficient (s.row p.dst S) q.discovery q.hopCnt p.dstIf = true)
    {i : ℕ} (hi : i < T.ifCnt p.dst) :
    Covered T ((s.drop k).act T p.dst (s.receive T p)) S (T.lan p.dst i) (q.hopCnt + 1) := by
  have hmem := List.mem_of_getElem? hp
  obtain ⟨hsrc, hdst, hid, _⟩ := h.rreq p hmem q hq
  by_cases hidx : i = p.dstIf
  · subst hidx
    exact (h.covered hw hv hp (h.arriving p hmem q hq)).mono (by omega)
  · have hstored := h.stored p.dst
    have hnd : q.dstAddr ≠ some (T.host p.dst).node := by
      rw [hdst]
      intro hd'
      exact hd (Option.some.inj hd').symm
    obtain ⟨sent, hsend⟩ := onRreq_floods (T.host p.dst) (s.node p.dst) p.dstIf p.frame.srcMac
      hnd (by rw [hsrc]; exact he) (by rw [hsrc, hid]; unfold Net.row at hstored; omega) hi hidx
    have hout : (onRreq (T.host p.dst) (s.node p.dst) p.dstIf p.frame.srcMac q) =
        s.receive T p := by
      unfold Net.receive onFrame
      rw [hq]
    rw [hout] at hsend
    obtain ⟨ho, hle⟩ := h.learns hmem hq
    exact covered_of_send hsend rfl rfl (.inr ⟨ho, hle.trans (by simp)⟩)

theorem Flooding.deliver {n : ℕ} {T : Topology n} {S D : Fin n} {id : ℕ} {s : Net n}
    (h : Flooding T S D id s) (hne : D ≠ S) (hw : Wired T s) (hv : Vouched T s) {k : ℕ}
    {p : Packet n} (hp : s.inFlight[k]? = some p) :
    Flooding T S D id ((s.drop k).act T p.dst (s.receive T p)) := by
  have hmem := List.mem_of_getElem? hp
  have hhop : T.Hop p.src p.dst := T.hop_symm _ _ (hw.hop hmem)
  have hcov := fun {l c} => h.covered hw hv hp (l := l) (c := c)
  constructor
  case origin =>
    exact fun i hi => hcov (h.origin i hi)
  case relayed =>
    intro x hxD hxS ho i hi
    rcases h.row_cases hne hmem k x with ⟨hro, hrc⟩ | ⟨rfl, q, hq, he, hrc⟩
    · rw [hro] at ho
      rw [hrc]
      exact hcov (h.relayed x hxD hxS ho i hi)
    · rw [hrc]
      exact h.relayed_improved hw hv hp hq hxD he hi
  case arriving =>
    intro p' hp' q' hq'
    rcases mem_act_cases hp' with hp' | ⟨hs, hsrc, hj, hl, _, _⟩
    · exact hcov (h.arriving p' (Net.mem_of_mem_drop hp') q' hq')
    · obtain ⟨q, hq, _, _, _, hc, _, hm⟩ := (h.sends hmem hs).1 q' hq'
      obtain ⟨ho, hle⟩ := h.learns hmem hq
      rw [hl]
      exact covered_of_send hs hm hq' (.inr ⟨ho, hle.trans (by omega)⟩)
  case rreq =>
    intro p' hp' q' hq'
    rcases mem_act_cases hp' with hp' | ⟨hs, hsrc, _⟩
    · exact h.rreq p' (Net.mem_of_mem_drop hp') q' hq'
    · obtain ⟨q, hq, hs', hd', hid, hc, hxD, _⟩ := (h.sends hmem hs).1 q' hq'
      obtain ⟨_, _, _, hpD, hwalk⟩ := h.rreq p hmem q hq
      rw [hsrc, hc]
      exact ⟨hs', hd', hid, hxD, hwalk.snoc ⟨hhop, hpD, hxD⟩⟩
  case rrep =>
    intro p' hp' r hr
    rcases mem_act_cases hp' with hp' | ⟨hs, _⟩
    · exact h.rrep p' (Net.mem_of_mem_drop hp') r hr
    · exact (h.sends hmem hs).2 r hr
  case row =>
    intro x hxD ho
    rcases h.row_cases hne hmem k x with ⟨hro, hrc⟩ | ⟨rfl, q, hq, _, hrc⟩
    · rw [hro] at ho
      rw [hrc]
      exact h.row x hxD ho
    · obtain ⟨_, _, _, hpD, hwalk⟩ := h.rreq p hmem q hq
      rw [hrc]
      exact hwalk.snoc ⟨hhop, hpD, hxD⟩
  case dest =>
    intro ho
    rcases h.row_cases hne hmem k D with ⟨hro, hrc⟩ | ⟨hx, q, hq, _, hrc⟩
    · rw [hro] at ho
      rw [hrc]
      exact h.dest ho
    · obtain ⟨_, _, _, _, hwalk⟩ := h.rreq p hmem q hq
      rw [hrc, hx]
      exact hwalk.of_avoiding.snoc hhop
  case stored =>
    intro x
    rw [deliver_broadcastId]
    cases hb : p.frame.body with
    | rreq q =>
      dsimp only
      split_ifs
      · exact .inr (h.rreq p hmem q hb).2.2.1
      · exact h.stored x
    | rrep r => exact h.stored x
    | payload l => exact h.stored x

/-- The request of a client without a route floods a new RREQ on every interface. -/
theorem onLocal_request {n : ℕ} {h : Host n} {nd : Node n} {m : LocalMsg n}
    (hclient : ∀ e, nd.portTable.head? = some e → e.sunPath ≠ nd.reads m.sunPath)
    (hroute : ∀ d, (nd.routingTable d).outgoingIf = 0) :
    ∃ q : Rreq n, (onLocal h nd m).2 = flood h none q ∧ q.srcAddr = h.node ∧
      q.dstAddr = m.dstAddr ∧ q.broadcastId = nd.broadcastId + 1 ∧ q.hopCnt = 0 ∧
      q.rrepSent = false := by
  have hreq : ∀ (nd' : Node n) (e : PortEntry), nd'.routingTable = nd.routingTable →
      nd'.broadcastId = nd.broadcastId → ∃ q : Rreq n, (onRequest h nd' e m).2 = flood h none q ∧
        q.srcAddr = h.node ∧ q.dstAddr = m.dstAddr ∧ q.broadcastId = nd.broadcastId + 1 ∧
        q.hopCnt = 0 ∧ q.rrepSent = false := by
    intro nd' e ht hb
    have hno : routeExist nd'.routingTable m = false := by
      unfold routeExist
      cases m.dstAddr with
      | none => rfl
      | some d => simp [ht, hroute d]
    unfold onRequest
    rw [if_neg (by simp [hno])]
    exact ⟨_, rfl, rfl, rfl, by rw [← hb], rfl, rfl⟩
  unfold onLocal
  dsimp only
  split
  · rename_i hidx
    exfalso
    rw [receiveFrom_portTable] at hidx
    cases hport : nd.portTable with
    | nil => simp [hport] at hidx
    | cons e es =>
      rw [hport, List.findIdx?_cons] at hidx
      split_ifs at hidx with he
      · exact hclient e (by simp [hport]) (by simpa [Node.reads] using he)
      · simp at hidx
  · exact hreq _ _ rfl rfl
  · exact hreq _ _ rfl rfl

/-- The first copies of the RREQ `q` of `S` are in flight and no table holds anything. -/
structure Opening {n : ℕ} (T : Topology n) (S D : Fin n) (q : Rreq n) (s : Net n) : Prop where
  src : q.srcAddr = S
  dst : q.dstAddr = some D
  id : 0 < q.broadcastId
  hop : q.hopCnt = 0
  sent : q.rrepSent = false
  row : ∀ x d, (s.row x d).outgoingIf = 0 ∧ (s.row x d).broadcastId = 0
  pkt : ∀ p ∈ s.inFlight, p.src = S ∧ p.frame = ⟨broadcastMac, T.mac S p.srcIf, .rreq q⟩ ∧
    p.srcIf < T.ifCnt S ∧ T.lan p.dst p.dstIf = T.lan S p.srcIf
  covered : ∀ i < T.ifCnt S, Covered T s S (T.lan S i) 0

theorem Requested.opening {n : ℕ} {T : Topology n} {S D : Fin n} {s : Net n}
    (h : Requested T S D s) : ∃ q, Opening T S D q s := by
  cases h with
  | @intro s₀ s m hfresh hne hclient hflag hdst hs =>
    obtain ⟨q, hout, hsrc, hd, hid, hc, hsent⟩ :=
      onLocal_request (h := T.host S) hclient (fun d => hfresh.1.1 S d)
    cases hs
    refine ⟨q, hsrc, hd.trans hdst, by omega, hc, hsent, ?_, ?_, ?_⟩
    · intro x d
      have hrow : (s₀.act T S (onLocal (T.host S) (s₀.node S) m)).row x d = s₀.row x d := by
        rw [Net.act_row, onLocal_routingTable]
        split_ifs with hx
        · rw [hx]; rfl
        · rfl
      rw [hrow]
      exact ⟨hfresh.1.1 x d, hfresh.2 x d⟩
    · intro p hp
      rcases mem_act_cases hp with hp | ⟨hs, hps, _, hl, _, _⟩
      · rw [hfresh.1.2] at hp
        cases hp
      · rw [hout] at hs
        obtain ⟨hi, _, hg⟩ := mem_flood.mp hs
        exact ⟨hps, hg, hi, hl⟩
    · intro i hi
      rw [← hc]
      refine covered_of_send (g := ⟨broadcastMac, T.mac S i, .rreq q⟩) ?_ rfl rfl (.inl rfl)
      rw [hout]
      exact mem_flood.mpr ⟨hi, by simp, rfl⟩

theorem Opening.flooding {n : ℕ} {T : Topology n} {S D : Fin n} {q : Rreq n} {s : Net n}
    (h : Opening T S D q s) (hne : D ≠ S) : Flooding T S D q.broadcastId s := by
  have hbody : ∀ p ∈ s.inFlight, p.frame.body = .rreq q := by
    intro p hp
    rw [(h.pkt p hp).2.1]
  refine ⟨h.covered, fun x _ _ ho => absurd (h.row x S).1 ho, ?_, ?_, ?_,
    fun x _ ho => absurd (h.row x S).1 ho, fun ho => absurd (h.row D S).1 ho,
    fun x => .inl (h.row x S).2⟩
  · intro p hp q' _
    obtain ⟨_, _, hi, hl⟩ := h.pkt p hp
    rw [hl]
    exact (h.covered _ hi).mono (Nat.zero_le _)
  · intro p hp q' hq'
    rw [hbody p hp] at hq'
    cases hq'
    rw [(h.pkt p hp).1, h.hop]
    exact ⟨h.src, h.dst, rfl, Ne.symm hne, .nil S⟩
  · intro p hp r hr
    rw [hbody p hp] at hr
    cases hr

end NetLab.Odr
