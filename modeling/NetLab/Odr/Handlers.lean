import NetLab.Odr.Network

/-! What one handler call does to the routing table and which frames it can send. The
network proofs use these facts and never unfold a handler. -/
namespace NetLab.Odr
open NetLab.Lib

/-- A RREQ or RREP advertises a route to its `src_addr`. -/
structure Advert (n : ℕ) where
  addr : Fin n
  hopCnt : ℕ
  discovery : Bool

def Message.advert {n : ℕ} : Message n → Option (Advert n)
  | .rreq q => some ⟨q.srcAddr, q.hopCnt, q.discovery⟩
  | .rrep r => r.srcAddr.map fun d => ⟨d, r.hopCnt, r.discovery⟩
  | .payload _ => none

def Message.target {n : ℕ} : Message n → Option (Fin n)
  | .rreq _ => none
  | .rrep r => some r.dstAddr
  | .payload l => l.dstAddr

def Message.relayed {n : ℕ} : Message n → Message n
  | .rrep r => .rrep { r with hopCnt := r.hopCnt + 1 }
  | m => m

/-- A row less the stored broadcast id. -/
def RoutingEntry.route (e : RoutingEntry) : Mac × ℕ × ℕ := (e.nextHop, e.outgoingIf, e.hopCnt)

/-- The row for `d` after the update by frame `f` received on interface `index`. -/
def learned {n : ℕ} (f : Frame n) (index : ℕ) (d : Fin n) (e : RoutingEntry) : RoutingEntry :=
  match f.body.advert with
  | some a => if d = a.addr then learn e a.discovery a.hopCnt index f.srcMac else e
  | none => e

@[simp] theorem Message.relayed_target {n : ℕ} (b : Message n) :
    b.relayed.target = b.target := by
  cases b <;> rfl

theorem Message.relayed_rrep {n : ℕ} {b : Message n} {r : Rrep n} (h : b.relayed = .rrep r) :
    ∃ r', b = .rrep r' ∧ r = { r' with hopCnt := r'.hopCnt + 1 } := by
  cases b with
  | rreq q => cases h
  | rrep r' =>
    cases h
    exact ⟨r', rfl, rfl⟩
  | payload l => cases h

theorem Message.relayed_payload {n : ℕ} {b : Message n} {l : Payload n}
    (h : b.relayed = .payload l) : b = .payload l := by
  cases b with
  | rreq q => cases h
  | rrep r => cases h
  | payload l' => exact h

theorem Message.relayed_ne_rreq {n : ℕ} {b : Message n} {a : Fin n} (h : b.target = some a)
    (q : Rreq n) : b.relayed ≠ .rreq q := by
  cases b with
  | rreq q' => cases h
  | rrep r => simp [relayed]
  | payload l => simp [relayed]

theorem Message.relayed_advert {n : ℕ} {m : Message n} {t : Fin n} {a : Advert n}
    (ht : m.target = some t) (ha : m.relayed.advert = some a) :
    ∃ b, m.advert = some b ∧ b.addr = a.addr ∧ b.hopCnt + 1 = a.hopCnt ∧
      b.discovery = a.discovery := by
  cases m with
  | rreq q => cases ht
  | payload l => cases ha
  | rrep r =>
    simp only [relayed, advert, Option.map_eq_some_iff] at ha
    obtain ⟨d, hd, rfl⟩ := ha
    exact ⟨⟨d, r.hopCnt, r.discovery⟩, by simp [advert, hd], rfl, rfl, rfl⟩

theorem Message.advert_rreq {n : ℕ} {b : Message n} {q : Rreq n} (h : b = .rreq q) :
    b.advert = some ⟨q.srcAddr, q.hopCnt, q.discovery⟩ := by
  rw [h]
  rfl

theorem route_eq_iff {e e' : RoutingEntry} : e.route = e'.route ↔
    e.nextHop = e'.nextHop ∧ e.outgoingIf = e'.outgoingIf ∧ e.hopCnt = e'.hopCnt := by
  simp [RoutingEntry.route]

theorem moreEfficient_of_no_route {e : RoutingEntry} (h : e.outgoingIf = 0)
    (b : Bool) (c i : ℕ) : moreEfficient e b c i = true := by simp [moreEfficient, h]

theorem le_of_moreEfficient {e : RoutingEntry} {c i : ℕ} (h : e.outgoingIf ≠ 0)
    (he : moreEfficient e false c i = true) : c + 1 ≤ e.hopCnt := by
  simp only [moreEfficient, Bool.false_or, Bool.or_eq_true, Bool.and_eq_true, beq_iff_eq,
    decide_eq_true_eq] at he
  rcases he with (he | he) | ⟨he, _⟩
  · exact absurd he h
  · omega
  · omega

theorem learn_of_moreEfficient {e : RoutingEntry} {b : Bool} {c i : ℕ} (m : Mac)
    (h : moreEfficient e b c i = true) :
    learn e b c i m = { e with nextHop := m, outgoingIf := i + 3, hopCnt := c + 1 } := by
  simp [learn, h]

theorem learn_of_not {e : RoutingEntry} {b : Bool} {c i : ℕ} (m : Mac)
    (h : moreEfficient e b c i = false) : learn e b c i m = e := by simp [learn, h]

@[simp] theorem learn_broadcastId (e : RoutingEntry) (b : Bool) (c i : ℕ) (m : Mac) :
    (learn e b c i m).broadcastId = e.broadcastId := by unfold learn; split <;> rfl

/-- After an update the row holds a route, whatever it held before. -/
theorem learn_outgoingIf_ne (e : RoutingEntry) (b : Bool) (c i : ℕ) (m : Mac) :
    (learn e b c i m).outgoingIf ≠ 0 := by
  cases h : moreEfficient e b c i with
  | true => simp [learn_of_moreEfficient m h]
  | false =>
    rw [learn_of_not m h]
    intro h0
    simp [moreEfficient_of_no_route h0] at h

theorem learn_hopCnt_le (e : RoutingEntry) (b : Bool) (c i : ℕ) (m : Mac) :
    (learn e b c i m).hopCnt ≤ c + 1 := by
  cases h : moreEfficient e b c i with
  | true => simp [learn_of_moreEfficient m h]
  | false =>
    rw [learn_of_not m h]
    simp only [moreEfficient, Bool.or_eq_false_iff, decide_eq_false_iff_not] at h
    omega

theorem learn_hopCnt_le_old {e : RoutingEntry} (h : e.outgoingIf ≠ 0) (c i : ℕ) (m : Mac) :
    (learn e false c i m).hopCnt ≤ e.hopCnt := by
  cases he : moreEfficient e false c i with
  | true =>
    rw [learn_of_moreEfficient m he]
    exact le_of_moreEfficient h he
  | false => rw [learn_of_not m he]

/-- A RREQ changes nothing but the row of its source, in all three branches. -/
theorem onRreq_node {n : ℕ} (h : Host n) (nd : Node n) (index : ℕ) (mac : Mac) (q : Rreq n) :
    (onRreq h nd index mac q).1 = { nd with
      routingTable := Function.update nd.routingTable q.srcAddr
        { learn (nd.routingTable q.srcAddr) q.discovery q.hopCnt index mac with
          broadcastId := q.broadcastId } } := by
  unfold onRreq
  dsimp only
  split
  · rfl
  · split <;> rfl

theorem onRreq_routingTable {n : ℕ} (h : Host n) (nd : Node n) (index : ℕ) (mac : Mac)
    (q : Rreq n) :
    (onRreq h nd index mac q).1.routingTable = Function.update nd.routingTable q.srcAddr
      { learn (nd.routingTable q.srcAddr) q.discovery q.hopCnt index mac with
        broadcastId := q.broadcastId } := by
  rw [onRreq_node]

theorem onRrep_routingTable {n : ℕ} (h : Host n) (nd : Node n) (index : ℕ) (mac : Mac)
    (r : Rrep n) (d : Fin n) :
    (onRrep h nd index mac r).1.routingTable d =
      if r.srcAddr = some d then learn (nd.routingTable d) r.discovery r.hopCnt index mac
      else nd.routingTable d := by
  obtain ⟨src, dst, port, hop, disc⟩ := r
  cases src with
  | none => unfold onRrep; dsimp only; split <;> simp
  | some a =>
    by_cases ha : a = d
    · subst ha; unfold onRrep; dsimp only; split <;> simp
    · have hne : d ≠ a := Ne.symm ha
      unfold onRrep; dsimp only; split <;> simp [ha, hne]

theorem onPayload_routingTable {n : ℕ} (h : Host n) (nd : Node n) (l : Payload n) :
    (onPayload h nd l).1.routingTable = nd.routingTable := by
  unfold onPayload; split <;> rfl

/-- A RREQ leaves its id in the row of its source, whatever was there before. -/
theorem onFrame_broadcastId {n : ℕ} (h : Host n) (nd : Node n) (index : ℕ) (f : Frame n)
    (d : Fin n) :
    ((onFrame h nd index f).1.routingTable d).broadcastId =
      match f.body with
      | .rreq q => if d = q.srcAddr then q.broadcastId else (nd.routingTable d).broadcastId
      | _ => (nd.routingTable d).broadcastId := by
  unfold onFrame
  cases f.body with
  | rreq q =>
    dsimp only
    rw [onRreq_routingTable]
    split_ifs with hd
    · subst hd; simp
    · simp [hd]
  | rrep r =>
    dsimp only
    rw [onRrep_routingTable]
    split_ifs <;> simp
  | payload l => rw [onPayload_routingTable]

/-- Every frame changes at most the row of the address it advertises. -/
theorem onFrame_route {n : ℕ} (h : Host n) (nd : Node n) (index : ℕ) (f : Frame n) (d : Fin n) :
    ((onFrame h nd index f).1.routingTable d).route =
      (learned f index d (nd.routingTable d)).route := by
  obtain ⟨dst, src, body⟩ := f
  cases body with
  | rreq q =>
    simp only [onFrame, onRreq_routingTable, learned, Message.advert]
    by_cases hd : d = q.srcAddr
    · subst hd; simp [RoutingEntry.route]
    · simp [hd]
  | rrep r =>
    simp only [onFrame, onRrep_routingTable, learned, Message.advert]
    cases hs : r.srcAddr with
    | none => simp
    | some a =>
      simp only [Option.map_some, Option.some.injEq]
      by_cases ha : a = d
      · subst ha; simp
      · simp [ha, Ne.symm ha]
  | payload l => simp [onFrame, onPayload_routingTable, learned, Message.advert]

theorem onLocal_routingTable {n : ℕ} (h : Host n) (nd : Node n) (m : LocalMsg n) :
    (onLocal h nd m).1.routingTable = nd.routingTable := by
  have hr : ∀ (nd : Node n) (e : PortEntry), (onRequest h nd e m).1.routingTable =
      nd.routingTable := by
    intro nd e
    unfold onRequest
    split <;> rfl
  unfold onLocal
  dsimp only
  split
  · rfl
  · exact hr _ _
  · exact hr _ _

/-- The frames that the delivery of `f` on interface `index` can send, where `t` is the
routing table after the update. -/
inductive Sends {n : ℕ} (h : Host n) (t : Fin n → RoutingEntry) (index : ℕ) (f : Frame n) :
    ℕ → Frame n → Prop
  | flood {q : Rreq n} {i : ℕ} {sent : Bool} (hf : f.body = .rreq q) (hi : i < h.ifCnt)
      (hne : i ≠ index) :
      Sends h t index f i ⟨broadcastMac, h.ifAddr i,
        .rreq { q with rrepSent := sent, hopCnt := q.hopCnt + 1 }⟩
  | answer {q : Rreq n} {r : Rrep n} (hf : f.body = .rreq q) (hsent : q.rrepSent = false)
      (hout : 3 ≤ (t q.srcAddr).outgoingIf) (hsrc : r.srcAddr = q.dstAddr)
      (hdst : r.dstAddr = q.srcAddr)
      (hr : (q.dstAddr = some h.node ∧ r.hopCnt = 0 ∧ r.discovery = q.discovery) ∨
        ∃ d, q.dstAddr = some d ∧ (t d).outgoingIf ≠ 0 ∧ r.hopCnt = (t d).hopCnt ∧
          r.discovery = false) :
      Sends h t index f index
        ⟨f.srcMac, h.ifAddr ((t q.srcAddr).outgoingIf - 3), .rrep r⟩
  | relay {a : Fin n} (hf : f.body.target = some a) (ha : a ≠ h.node)
      (hout : 3 ≤ (t a).outgoingIf) :
      Sends h t index f ((t a).outgoingIf - 3)
        ⟨(t a).nextHop, h.ifAddr ((t a).outgoingIf - 3), f.body.relayed⟩

theorem mem_flood {n : ℕ} {h : Host n} {skip : Option ℕ} {q : Rreq n} {i : ℕ} {g : Frame n} :
    .send i g ∈ flood h skip q ↔
      i < h.ifCnt ∧ some i ≠ skip ∧ g = ⟨broadcastMac, h.ifAddr i, .rreq q⟩ := by
  simp only [flood, List.mem_map, List.mem_filter, List.mem_range, decide_eq_true_eq,
    Out.send.injEq]
  constructor
  · rintro ⟨j, ⟨hj, hs⟩, rfl, rfl⟩
    exact ⟨hj, hs, rfl⟩
  · rintro ⟨hi, hs, rfl⟩
    exact ⟨i, ⟨hi, hs⟩, rfl, rfl⟩

theorem send_eq_reply {n : ℕ} {h : Host n} {e : RoutingEntry} {index i : ℕ} {mac : Mac}
    {r : Rrep n} {g : Frame n} (hm : Out.send i g = reply h e index mac r) :
    3 ≤ e.outgoingIf ∧ i = index ∧ g = ⟨mac, h.ifAddr (e.outgoingIf - 3), .rrep r⟩ := by
  unfold reply at hm
  split_ifs at hm with ho
  cases hm
  exact ⟨by omega, rfl, rfl⟩

theorem send_eq_sendVia {n : ℕ} {h : Host n} {e : RoutingEntry} {i : ℕ}
    {b : Message n} {g : Frame n} (hm : Out.send i g = sendVia h e b) :
    3 ≤ e.outgoingIf ∧ i = e.outgoingIf - 3 ∧
      g = ⟨e.nextHop, h.ifAddr (e.outgoingIf - 3), b⟩ := by
  unfold sendVia at hm
  split_ifs at hm with ho
  cases hm
  exact ⟨by omega, rfl, rfl⟩

theorem knownRoute_eq_some {n : ℕ} {t : Fin n → RoutingEntry} {q : Rreq n} {e : RoutingEntry}
    (hk : knownRoute t q = some e) :
    ∃ d, q.dstAddr = some d ∧ (t d).outgoingIf ≠ 0 ∧ q.discovery = false ∧ t d = e := by
  unfold knownRoute at hk
  cases hd : q.dstAddr with
  | none => simp [hd] at hk
  | some d =>
    rw [hd] at hk
    dsimp only at hk
    split_ifs at hk with hc
    exact ⟨d, rfl, hc.1, hc.2, Option.some.inj hk⟩

theorem mem_answer {n : ℕ} {h : Host n} {e : RoutingEntry} {index : ℕ} {mac : Mac}
    {q : Rreq n} {fresh : Bool} {c : ℕ} {b : Bool} {o : Out n} :
    o ∈ answer h e index mac q fresh c b ↔ q.rrepSent = false ∧ fresh = true ∧
      o = reply h e index mac ⟨q.dstAddr, q.srcAddr, h.order.htonl q.srcPort, c, b⟩ := by
  unfold answer
  split_ifs with hc
  · simp only [Bool.and_eq_true, Bool.not_eq_true'] at hc
    simp [hc.1, hc.2]
  · simp only [Bool.and_eq_true, Bool.not_eq_true', not_and] at hc
    simp only [List.not_mem_nil, false_iff, not_and]
    intro h1 h2
    exact absurd h2 (hc h1)

/-- The outputs of `onRreq`, branch by branch. -/
theorem onRreq_out {n : ℕ} (h : Host n) (nd : Node n) (index : ℕ) (mac : Mac) (q : Rreq n) :
    let old := nd.routingTable q.srcAddr
    let efficient := moreEfficient old q.discovery q.hopCnt index
    let e := learn old q.discovery q.hopCnt index mac
    let fresh := isFresh e q efficient
    (onRreq h nd index mac q).2 =
      if q.dstAddr = some h.node then answer h e index mac q fresh 0 q.discovery
      else match knownRoute (Function.update nd.routingTable q.srcAddr e) q with
        | some route => answer h e index mac q fresh route.hopCnt false ++
            if efficient then
              flood h (some index) { q with rrepSent := true, hopCnt := q.hopCnt + 1 }
            else []
        | none =>
          if fresh then flood h (some index) { q with hopCnt := q.hopCnt + 1 } else [] := by
  unfold onRreq
  dsimp only
  by_cases hd : q.dstAddr = some h.node
  · rw [if_pos hd, if_pos hd]
  · rw [if_neg hd, if_neg hd]
    cases knownRoute (Function.update nd.routingTable q.srcAddr
      (learn (nd.routingTable q.srcAddr) q.discovery q.hopCnt index mac)) q <;> rfl

private theorem onRreq_sends {n : ℕ} {h : Host n} {nd : Node n} {index : ℕ} {dst mac : Mac}
    {q : Rreq n} {i : ℕ} {g : Frame n} (hm : .send i g ∈ (onRreq h nd index mac q).2) :
    Sends h (onRreq h nd index mac q).1.routingTable index ⟨dst, mac, .rreq q⟩ i g := by
  rw [onRreq_routingTable]
  rw [onRreq_out] at hm
  generalize learn (nd.routingTable q.srcAddr) q.discovery q.hopCnt index mac = e at hm ⊢
  have hans : ∀ c b fresh, .send i g ∈ answer h e index mac q fresh c b →
      ((q.dstAddr = some h.node ∧ c = 0 ∧ b = q.discovery) ∨
        ∃ d, q.dstAddr = some d ∧ (Function.update nd.routingTable q.srcAddr e d).outgoingIf ≠ 0 ∧
          c = (Function.update nd.routingTable q.srcAddr e d).hopCnt ∧ b = false) →
      Sends h (Function.update nd.routingTable q.srcAddr { e with broadcastId := q.broadcastId })
        index ⟨dst, mac, .rreq q⟩ i g := by
    intro c b fresh ha hr
    obtain ⟨hs, _, hrep⟩ := mem_answer.mp ha
    obtain ⟨ho, rfl, rfl⟩ := send_eq_reply hrep
    have hrow : ∀ d, (Function.update nd.routingTable q.srcAddr
        { e with broadcastId := q.broadcastId } d).route =
        (Function.update nd.routingTable q.srcAddr e d).route := by
      intro d
      by_cases hd : d = q.srcAddr
      · subst hd; simp [RoutingEntry.route]
      · simp [hd]
    have hsend := @Sends.answer n h
      (Function.update nd.routingTable q.srcAddr { e with broadcastId := q.broadcastId }) i
      ⟨dst, mac, .rreq q⟩ q ⟨q.dstAddr, q.srcAddr, h.order.htonl q.srcPort, c, b⟩ rfl hs
      (by simpa using ho) rfl rfl
    simp only [Function.update_self] at hsend
    apply hsend
    rcases hr with hr | ⟨d, hd, hdo, hdc, hb⟩
    · exact .inl hr
    · obtain ⟨_, hro, hrh⟩ := route_eq_iff.mp (hrow d)
      exact .inr ⟨d, hd, by rwa [hro], by rw [hrh]; exact hdc, hb⟩
  by_cases hd : q.dstAddr = some h.node
  · rw [if_pos hd] at hm
    exact hans _ _ _ hm (.inl ⟨hd, rfl, rfl⟩)
  · rw [if_neg hd] at hm
    cases hk : knownRoute (Function.update nd.routingTable q.srcAddr e) q with
    | some route =>
      rw [hk] at hm
      rcases List.mem_append.mp hm with hm | hm
      · obtain ⟨d, hdd, hdo, _, rfl⟩ := knownRoute_eq_some hk
        exact hans _ _ _ hm (.inr ⟨d, hdd, hdo, rfl, rfl⟩)
      · obtain ⟨hi, hs, rfl⟩ := mem_flood.mp (List.mem_ite_nil_right.mp hm).2
        exact .flood rfl hi (by simpa using hs)
    | none =>
      rw [hk] at hm
      obtain ⟨hi, hs, rfl⟩ := mem_flood.mp (List.mem_ite_nil_right.mp hm).2
      exact .flood rfl hi (by simpa using hs)

/-- Inversion of the frames sent by one delivery. -/
theorem onFrame_sends {n : ℕ} {h : Host n} {nd : Node n} {index : ℕ} {f : Frame n} {i : ℕ}
    {g : Frame n} (hm : .send i g ∈ (onFrame h nd index f).2) :
    Sends h (onFrame h nd index f).1.routingTable index f i g := by
  obtain ⟨dst, mac, body⟩ := f
  cases body with
  | rreq q => exact onRreq_sends hm
  | rrep r =>
    simp only [onFrame, onRrep] at hm ⊢
    split_ifs at hm ⊢ with hd
    · simp at hm
    · obtain ⟨ho, rfl, rfl⟩ := send_eq_sendVia (List.mem_singleton.mp hm)
      exact .relay (f := ⟨dst, mac, .rrep r⟩) rfl hd ho
  | payload l =>
    simp only [onFrame, onPayload] at hm ⊢
    split_ifs at hm ⊢ with hd
    · simp at hm
    · cases ht : l.dstAddr with
      | none => simp [ht, sendTo] at hm
      | some a =>
        simp only [ht, sendTo] at hm
        obtain ⟨ho, rfl, rfl⟩ := send_eq_sendVia (List.mem_singleton.mp hm)
        have hne : a ≠ h.node := by
          intro h'
          exact hd (by rw [ht, h'])
        exact .relay (f := ⟨dst, mac, .payload l⟩) ht hne ho

/-- The three sources of an advertised hop count: the node itself, the frame just received,
or a row of the table. -/
theorem Sends.advert {n : ℕ} {h : Host n} {t : Fin n → RoutingEntry} {index : ℕ}
    {f : Frame n} {i : ℕ} {g : Frame n} (hs : Sends h t index f i g) {a : Advert n}
    (ha : g.body.advert = some a) :
    (a.addr = h.node ∧ a.hopCnt = 0) ∨
    (∃ b, f.body.advert = some b ∧ b.addr = a.addr ∧ b.hopCnt + 1 = a.hopCnt) ∨
    ((t a.addr).outgoingIf ≠ 0 ∧ a.hopCnt = (t a.addr).hopCnt) := by
  cases hs with
  | @flood q i sent hf hi hne =>
    cases ha
    exact .inr (.inl ⟨_, Message.advert_rreq hf, rfl, rfl⟩)
  | answer hf hsent hout hsrc hdst hr =>
    simp only [Message.advert, hsrc] at ha
    rcases hr with ⟨hd, hc, _⟩ | ⟨d, hd, ho, hc, _⟩
    · rw [hd] at ha
      cases ha
      exact .inl ⟨rfl, hc⟩
    · rw [hd] at ha
      cases ha
      exact .inr (.inr ⟨ho, hc⟩)
  | relay hf hne hout =>
    obtain ⟨b, hb, haddr, hc, _⟩ := Message.relayed_advert hf ha
    exact .inr (.inl ⟨b, hb, haddr, hc⟩)

/-- A forced advertisement is sent only in response to a forced one. -/
theorem Sends.discovery {n : ℕ} {h : Host n} {t : Fin n → RoutingEntry} {index : ℕ}
    {f : Frame n} {i : ℕ} {g : Frame n} (hs : Sends h t index f i g) {a : Advert n}
    (ha : g.body.advert = some a) (hd : a.discovery = true) :
    ∃ b, f.body.advert = some b ∧ b.discovery = true := by
  cases hs with
  | @flood q i sent hf hi hne =>
    cases ha
    exact ⟨_, Message.advert_rreq hf, hd⟩
  | @answer q r hf hsent hout hsrc hdst hr =>
    simp only [Message.advert, Option.map_eq_some_iff] at ha
    obtain ⟨d, _, rfl⟩ := ha
    rcases hr with ⟨_, _, hq⟩ | ⟨_, _, _, _, hq⟩
    · exact ⟨_, Message.advert_rreq hf, hq ▸ hd⟩
    · exact absurd (hq ▸ hd) (by simp)
  | relay hf hne hout =>
    obtain ⟨b, hb, _, _, hbd⟩ := Message.relayed_advert hf ha
    exact ⟨b, hb, hbd.trans hd⟩

theorem Sends.named {n : ℕ} {h : Host n} {t : Fin n → RoutingEntry} {index : ℕ}
    {f : Frame n} {i : ℕ} {g : Frame n} (hs : Sends h t index f i g)
    (hf : ∀ r, f.body = .rrep r → r.srcAddr ≠ none) (r : Rrep n) (hr : g.body = .rrep r) :
    r.srcAddr ≠ none := by
  cases hs with
  | flood => cases hr
  | answer _ _ _ hsrc _ hr' =>
    cases hr
    rcases hr' with ⟨hd, _⟩ | ⟨d, hd, _⟩ <;> simp [hsrc, hd]
  | relay ht _ _ =>
    obtain ⟨r', hb, rfl⟩ := Message.relayed_rrep hr
    exact hf r' hb

theorem badIndex_eq_reply {n : ℕ} {h : Host n} {e : RoutingEntry} {index : ℕ} {mac : Mac}
    {r : Rrep n} (hm : Out.badIndex = reply h e index mac r) : e.outgoingIf < 3 := by
  unfold reply at hm
  split_ifs at hm with ho
  exact ho

theorem badIndex_eq_sendVia {n : ℕ} {h : Host n} {e : RoutingEntry} {b : Message n}
    (hm : Out.badIndex = sendVia h e b) : e.outgoingIf < 3 := by
  unfold sendVia at hm
  split_ifs at hm with ho
  exact ho

theorem onRreq_badIndex {n : ℕ} {h : Host n} {nd : Node n} {index : ℕ} {mac : Mac} {q : Rreq n}
    (hm : .badIndex ∈ (onRreq h nd index mac q).2) :
    ((onRreq h nd index mac q).1.routingTable q.srcAddr).outgoingIf < 3 := by
  have hflood : ∀ skip (q' : Rreq n), Out.badIndex ∉ flood h skip q' := by simp [flood]
  rw [onRreq_routingTable, Function.update_self]
  rw [onRreq_out] at hm
  by_cases hd : q.dstAddr = some h.node
  · rw [if_pos hd] at hm
    exact badIndex_eq_reply (mem_answer.mp hm).2.2
  · rw [if_neg hd] at hm
    split at hm
    · rcases List.mem_append.mp hm with hm | hm
      · exact badIndex_eq_reply (mem_answer.mp hm).2.2
      · exact absurd (List.mem_ite_nil_right.mp hm).2 (hflood _ _)
    · exact absurd (List.mem_ite_nil_right.mp hm).2 (hflood _ _)

/-- Where a frame handler can index `if_addr` with a row that holds no route: the answer to a
RREQ, a relay, or a payload without a destination. -/
theorem onFrame_badIndex {n : ℕ} {h : Host n} {nd : Node n} {index : ℕ} {f : Frame n}
    (hm : .badIndex ∈ (onFrame h nd index f).2) :
    (∃ q, f.body = .rreq q ∧
      ((onFrame h nd index f).1.routingTable q.srcAddr).outgoingIf < 3) ∨
    (∃ a, f.body.target = some a ∧ a ≠ h.node ∧
      ((onFrame h nd index f).1.routingTable a).outgoingIf < 3) ∨
    ∃ l, f.body = .payload l ∧ l.dstAddr = none := by
  obtain ⟨dst, mac, body⟩ := f
  cases body with
  | rreq q => exact .inl ⟨q, rfl, onRreq_badIndex hm⟩
  | rrep r =>
    refine .inr (.inl ⟨r.dstAddr, rfl, ?_⟩)
    simp only [onFrame, onRrep] at hm ⊢
    split_ifs at hm ⊢ with hd
    · simp at hm
    · exact ⟨hd, badIndex_eq_sendVia (List.mem_singleton.mp hm)⟩
  | payload l =>
    simp only [onFrame, onPayload] at hm ⊢
    split_ifs at hm ⊢ with hd
    · simp at hm
    · cases ht : l.dstAddr with
      | none => exact .inr (.inr ⟨l, rfl, ht⟩)
      | some a =>
        rw [ht, List.mem_singleton] at hm
        have hne : a ≠ h.node := by
          intro heq
          exact hd (by rw [ht, heq])
        exact .inr (.inl ⟨a, ht, hne, badIndex_eq_sendVia hm⟩)

/-- The frames a local datagram can send: a new RREQ, or a payload along a stored route. -/
inductive Originates {n : ℕ} (h : Host n) (t : Fin n → RoutingEntry) (m : LocalMsg n) :
    ℕ → Frame n → Prop
  | request {q : Rreq n} {i : ℕ} (hi : i < h.ifCnt) (hsrc : q.srcAddr = h.node)
      (hdst : q.dstAddr = m.dstAddr) (hhop : q.hopCnt = 0) (hsent : q.rrepSent = false)
      (hdisc : q.discovery = (m.flag == 1)) :
      Originates h t m i ⟨broadcastMac, h.ifAddr i, .rreq q⟩
  | payload {a : Fin n} {l : Payload n} (hl : l.dstAddr = some a)
      (hout : 3 ≤ (t a).outgoingIf) :
      Originates h t m ((t a).outgoingIf - 3)
        ⟨(t a).nextHop, h.ifAddr ((t a).outgoingIf - 3), .payload l⟩

private theorem sendTo_originates {n : ℕ} {h : Host n} {t : Fin n → RoutingEntry}
    {m : LocalMsg n} {l : Payload n} {i : ℕ} {g : Frame n} (hl : l.dstAddr = m.dstAddr)
    (hs : .send i g = sendTo h t m.dstAddr (.payload l)) : Originates h t m i g := by
  cases ha : m.dstAddr with
  | none => simp [ha, sendTo] at hs
  | some a =>
    simp only [ha, sendTo] at hs
    obtain ⟨ho, rfl, rfl⟩ := send_eq_sendVia hs
    exact .payload (hl.trans ha) ho

private theorem onRequest_originates {n : ℕ} {h : Host n} {nd : Node n} {e : PortEntry}
    {m : LocalMsg n} {i : ℕ} {g : Frame n} (hm : .send i g ∈ (onRequest h nd e m).2) :
    Originates h nd.routingTable m i g := by
  unfold onRequest at hm
  split_ifs at hm
  · exact sendTo_originates rfl (List.mem_singleton.mp hm)
  · obtain ⟨hi, _, rfl⟩ := mem_flood.mp hm
    exact .request hi rfl rfl rfl rfl rfl

theorem onLocal_originates {n : ℕ} {h : Host n} {nd : Node n} {m : LocalMsg n} {i : ℕ}
    {g : Frame n} (hm : .send i g ∈ (onLocal h nd m).2) :
    Originates h nd.routingTable m i g := by
  unfold onLocal at hm
  dsimp only at hm
  split at hm
  · exact sendTo_originates rfl (List.mem_singleton.mp hm)
  · have ho := onRequest_originates hm
    exact ho
  · have ho := onRequest_originates hm
    exact ho

end NetLab.Odr
