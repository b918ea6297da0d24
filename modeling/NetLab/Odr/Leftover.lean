import NetLab.Odr.NodeRun

/-! What a node does with the memory of a routing table that was not initialized. A row without a
route is not read, except for its `broadcast_id`: two runs with different leftovers learn the same
routes, and can part only at the first RREQ of a source. -/
namespace NetLab.Odr
open NetLab.Lib

def RoutingEntry.held (e : RoutingEntry) : Option (Mac × ℕ × ℕ) :=
  if e.outgoingIf = 0 then none else some e.route

/-- Two nodes that differ at most in rows without a route and in the ids of their rows. -/
structure Agree {n : ℕ} (nd nd' : Node n) : Prop where
  broadcastId : nd.broadcastId = nd'.broadcastId
  port : nd.port = nd'.port
  portTable : nd.portTable = nd'.portTable
  localaddr : nd.localaddr = nd'.localaddr
  unLen : nd.unLen = nd'.unLen
  held : ∀ d, (nd.routingTable d).held = (nd'.routingTable d).held

def Node.efficient {n : ℕ} (nd : Node n) (index : ℕ) (q : Rreq n) : Bool :=
  moreEfficient (nd.routingTable q.srcAddr) q.discovery q.hopCnt index

def Node.fresh {n : ℕ} (nd : Node n) (index : ℕ) (q : Rreq n) : Bool :=
  isFresh (nd.routingTable q.srcAddr) q (nd.efficient index q)

/-- The route from which an intermediate node can answer a RREQ. -/
def Node.known {n : ℕ} (nd : Node n) (index : ℕ) (mac : Mac) (q : Rreq n) : Option RoutingEntry :=
  knownRoute (Function.update nd.routingTable q.srcAddr
    (learn (nd.routingTable q.srcAddr) q.discovery q.hopCnt index mac)) q

def Host.floods {n : ℕ} (h : Host n) (index : ℕ) : Bool :=
  (List.range h.ifCnt).any fun i => i != index

/-- Whether the node sends something because a RREQ is fresh: the RREP where it can answer, and the
RREQ where it cannot. -/
def Node.speaks {n : ℕ} (h : Host n) (nd : Node n) (index : ℕ) (mac : Mac) (q : Rreq n) : Bool :=
  if q.dstAddr = some h.node ∨ (nd.known index mac q).isSome then !q.rrepSent else h.floods index

/-- Whether an intermediate node that can answer floods the RREQ on, fresh or not. -/
def Node.passesOn {n : ℕ} (h : Host n) (nd : Node n) (index : ℕ) (mac : Mac) (q : Rreq n) : Bool :=
  decide (q.dstAddr ≠ some h.node) && (nd.known index mac q).isSome && nd.efficient index q &&
    h.floods index

section
variable {e e' : RoutingEntry}

theorem held_eq_iff : e.held = e'.held ↔
    e.outgoingIf = e'.outgoingIf ∧ (e.outgoingIf ≠ 0 → e.route = e'.route) := by
  unfold RoutingEntry.held
  by_cases h : e.outgoingIf = 0
  · by_cases h' : e'.outgoingIf = 0
    · simp [h, h']
    · simp [h, h', Ne.symm h']
  · by_cases h' : e'.outgoingIf = 0
    · simp [h, h']
    · simp only [h, h', if_false, Option.some.injEq, ne_eq, not_false_eq_true, true_imp_iff]
      exact ⟨fun hr => ⟨(route_eq_iff.mp hr).2.1, hr⟩, fun hr => hr.2⟩

theorem moreEfficient_congr (h : e.held = e'.held) (b : Bool) (c i : ℕ) :
    moreEfficient e b c i = moreEfficient e' b c i := by
  obtain ⟨hout, hroute⟩ := held_eq_iff.mp h
  by_cases h0 : e.outgoingIf = 0
  · rw [moreEfficient_of_no_route h0, moreEfficient_of_no_route (hout ▸ h0)]
  · obtain ⟨_, _, hhop⟩ := route_eq_iff.mp (hroute h0)
    simp only [moreEfficient, hout, hhop]

theorem learn_route_congr (h : e.held = e'.held) (b : Bool) (c i : ℕ) (m : Mac) :
    (learn e b c i m).route = (learn e' b c i m).route := by
  have heff := moreEfficient_congr h b c i
  cases hm : moreEfficient e b c i with
  | true =>
    rw [learn_of_moreEfficient m hm, learn_of_moreEfficient m (heff ▸ hm)]
    rfl
  | false =>
    rw [learn_of_not m hm, learn_of_not m (heff ▸ hm)]
    refine (held_eq_iff.mp h).2 ?_
    intro h0
    rw [moreEfficient_of_no_route h0] at hm
    cases hm

theorem held_of_route (h : e.route = e'.route) : e.held = e'.held :=
  held_eq_iff.mpr ⟨(route_eq_iff.mp h).2.1, fun _ => h⟩

theorem sendVia_congr {n : ℕ} (h : Host n) (he : e.held = e'.held) (body : Message n) :
    sendVia h e body = sendVia h e' body := by
  obtain ⟨hout, hroute⟩ := held_eq_iff.mp he
  unfold sendVia
  rw [← hout]
  split_ifs with hlt
  · rfl
  · rw [(route_eq_iff.mp (hroute (by omega))).1]

end

section
variable {n : ℕ} {h : Host n} {nd nd' : Node n}

theorem Agree.learned (ha : Agree nd nd') (f : Frame n) (index : ℕ) (d : Fin n) :
    (learned f index d (nd.routingTable d)).held = (learned f index d (nd'.routingTable d)).held := by
  unfold NetLab.Odr.learned
  cases f.body.advert with
  | none => exact ha.held d
  | some a =>
    dsimp only
    split_ifs
    · exact held_of_route (learn_route_congr (ha.held d) _ _ _ _)
    · exact ha.held d

theorem held_onFrame (index : ℕ) (f : Frame n) (d : Fin n) :
    ((onFrame h nd index f).1.routingTable d).held =
      (learned f index d (nd.routingTable d)).held :=
  held_of_route (onFrame_route h nd index f d)

theorem sendTo_congr {t t' : Fin n → RoutingEntry} (ht : ∀ d, (t d).held = (t' d).held)
    (dst : Option (Fin n)) (body : Message n) : sendTo h t dst body = sendTo h t' dst body := by
  cases dst with
  | none => rfl
  | some d => exact sendVia_congr h (ht d) body

/-- The outputs of `onRreq`, as they depend on the row of the source after the update, on the hop
count of a known route, and on the two tests. -/
def rreqOut (h : Host n) (e : RoutingEntry) (index : ℕ) (mac : Mac) (q : Rreq n) (known : Option ℕ)
    (fresh efficient : Bool) : List (Out n) :=
  if q.dstAddr = some h.node then answer h e index mac q fresh 0 q.discovery
  else match known with
    | some hops => answer h e index mac q fresh hops false ++
        if efficient then flood h (some index) { q with rrepSent := true, hopCnt := q.hopCnt + 1 }
        else []
    | none => if fresh then flood h (some index) { q with hopCnt := q.hopCnt + 1 } else []

theorem onRreq_out_eq (index : ℕ) (mac : Mac) (q : Rreq n) :
    (onRreq h nd index mac q).2 =
      rreqOut h (learn (nd.routingTable q.srcAddr) q.discovery q.hopCnt index mac) index mac q
        ((nd.known index mac q).map RoutingEntry.hopCnt) (nd.fresh index q)
        (nd.efficient index q) := by
  have hfresh : isFresh (learn (nd.routingTable q.srcAddr) q.discovery q.hopCnt index mac) q
      (moreEfficient (nd.routingTable q.srcAddr) q.discovery q.hopCnt index) = nd.fresh index q := by
    simp only [isFresh, learn_broadcastId]
    rfl
  rw [onRreq_out, hfresh]
  unfold rreqOut Node.known Node.efficient
  by_cases hd : q.dstAddr = some h.node
  · rw [if_pos hd, if_pos hd]
  · rw [if_neg hd, if_neg hd]
    cases knownRoute (Function.update nd.routingTable q.srcAddr
      (learn (nd.routingTable q.srcAddr) q.discovery q.hopCnt index mac)) q <;> rfl

theorem answer_congr {e e' : RoutingEntry} (he : e.outgoingIf = e'.outgoingIf) (index : ℕ) (mac : Mac)
    (q : Rreq n) (fresh : Bool) (hops : ℕ) (b : Bool) :
    answer h e index mac q fresh hops b = answer h e' index mac q fresh hops b := by
  unfold answer reply
  rw [he]

theorem rreqOut_congr {e e' : RoutingEntry} (he : e.outgoingIf = e'.outgoingIf) (index : ℕ)
    (mac : Mac) (q : Rreq n) (known : Option ℕ) (fresh efficient : Bool) :
    rreqOut h e index mac q known fresh efficient = rreqOut h e' index mac q known fresh efficient := by
  unfold rreqOut
  simp only [answer_congr he]

theorem flood_eq_nil_iff {index : ℕ} {q : Rreq n} :
    flood h (some index) q = [] ↔ h.floods index = false := by
  simp [flood, Host.floods, List.filter_eq_nil_iff]

theorem answer_eq_nil_iff {e : RoutingEntry} {index : ℕ} {mac : Mac} {q : Rreq n} {fresh : Bool}
    {hops : ℕ} {b : Bool} :
    answer h e index mac q fresh hops b = [] ↔ (fresh && !q.rrepSent) = false := by
  unfold answer
  cases fresh <;> cases q.rrepSent <;> simp

theorem rreqOut_fresh_iff {e : RoutingEntry} {index : ℕ} {mac : Mac} {q : Rreq n}
    {known : Option ℕ} {efficient : Bool} :
    rreqOut h e index mac q known true efficient = rreqOut h e index mac q known false efficient ↔
      (if q.dstAddr = some h.node ∨ known.isSome then !q.rrepSent else h.floods index) = false := by
  have hsilent : ∀ hops b, answer h e index mac q false hops b = [] := fun hops b =>
    answer_eq_nil_iff.mpr rfl
  have hspeak : ∀ hops b, answer h e index mac q true hops b = [] ↔ (!q.rrepSent) = false :=
    fun hops b => answer_eq_nil_iff
  unfold rreqOut
  by_cases hd : q.dstAddr = some h.node
  · simp only [hd, if_true, true_or, hsilent, hspeak]
  · cases known with
    | some hops => simp only [hd, if_false, false_or, Option.isSome_some, if_true, hsilent,
        List.nil_append, List.append_left_eq_self, hspeak]
    | none => simp [hd, flood_eq_nil_iff]

theorem onRreq_ne_nil_iff (index : ℕ) (mac : Mac) (q : Rreq n) :
    (onRreq h nd index mac q).2 ≠ [] ↔
      (nd.fresh index q && nd.speaks h index mac q) || nd.passesOn h index mac q := by
  rw [onRreq_out_eq]
  unfold rreqOut Node.speaks Node.passesOn
  by_cases hd : q.dstAddr = some h.node
  · simp [hd, answer_eq_nil_iff]
  · cases nd.known index mac q with
    | some route =>
      cases nd.efficient index q with
      | false => simp [hd, answer_eq_nil_iff]
      | true =>
        simp only [hd, if_false, Option.map_some, if_true, ne_eq, List.append_eq_nil_iff,
          answer_eq_nil_iff, flood_eq_nil_iff, false_or, Option.isSome_some, not_false_eq_true,
          decide_true, Bool.true_and]
        cases h.floods index <;> cases (nd.fresh index q && !q.rrepSent) <;> simp
    | none => simp [hd, flood_eq_nil_iff]

theorem knownRoute_congr {t t' : Fin n → RoutingEntry} (ht : ∀ d, (t d).held = (t' d).held)
    (q : Rreq n) :
    (knownRoute t q).map RoutingEntry.hopCnt = (knownRoute t' q).map RoutingEntry.hopCnt := by
  unfold knownRoute
  cases q.dstAddr with
  | none => rfl
  | some d =>
    obtain ⟨hout, hroute⟩ := held_eq_iff.mp (ht d)
    dsimp only
    rw [hout]
    split_ifs with hknown
    · exact congrArg some (route_eq_iff.mp (hroute (hout ▸ hknown.1))).2.2
    · rfl

theorem Agree.efficient (ha : Agree nd nd') (index : ℕ) (q : Rreq n) :
    nd.efficient index q = nd'.efficient index q := moreEfficient_congr (ha.held q.srcAddr) _ _ _

theorem Agree.known (ha : Agree nd nd') (index : ℕ) (mac : Mac) (q : Rreq n) :
    (nd.known index mac q).map RoutingEntry.hopCnt =
      (nd'.known index mac q).map RoutingEntry.hopCnt := by
  refine knownRoute_congr (fun d => ?_) q
  by_cases hd : d = q.srcAddr
  · subst hd
    simp only [Function.update_self]
    exact held_of_route (learn_route_congr (ha.held q.srcAddr) _ _ _ _)
  · simp only [Function.update_of_ne hd]
    exact ha.held d

/-- Two nodes that agree send the same on a RREQ if and only if it is fresh to both, or to none, or
that does not show. -/
theorem Agree.onRreq_out (ha : Agree nd nd') (index : ℕ) (mac : Mac) (q : Rreq n) :
    (onRreq h nd index mac q).2 = (onRreq h nd' index mac q).2 ↔
      (nd.speaks h index mac q = true → nd.fresh index q = nd'.fresh index q) := by
  have hout := (route_eq_iff.mp
    (learn_route_congr (ha.held q.srcAddr) q.discovery q.hopCnt index mac)).2.1
  have hspeaks : nd.speaks h index mac q = if q.dstAddr = some h.node ∨
      ((nd.known index mac q).map RoutingEntry.hopCnt).isSome then !q.rrepSent
      else h.floods index := by
    rw [Option.isSome_map]
    rfl
  rw [onRreq_out_eq, onRreq_out_eq, ← ha.efficient, ← ha.known, ← rreqOut_congr hout, hspeaks]
  have hiff := @rreqOut_fresh_iff n h
    (learn (nd.routingTable q.srcAddr) q.discovery q.hopCnt index mac) index mac q
    ((nd.known index mac q).map RoutingEntry.hopCnt) (nd.efficient index q)
  rw [← Bool.not_eq_true] at hiff
  cases nd.fresh index q <;> cases nd'.fresh index q
  · simp
  · rw [eq_comm, hiff]
    simp
  · rw [hiff]
    simp
  · simp

/-- Whether an event is a RREQ that is fresh to one of two nodes only, when that shows. -/
def SameFreshness (h : Host n) (nd nd' : Node n) : NodeEvent n → Prop
  | .frame index f => ∀ q, f.body = .rreq q → nd.speaks h index f.srcMac q = true →
      nd.fresh index q = nd'.fresh index q
  | .app _ => True

theorem Agree.sunPathOf (ha : Agree nd nd') (port : ℕ) :
    NetLab.Odr.sunPathOf nd port = NetLab.Odr.sunPathOf nd' port := by
  unfold NetLab.Odr.sunPathOf Node.sunPath
  rw [ha.portTable, ha.localaddr]

theorem Agree.addressTo (ha : Agree nd nd') (port : ℕ) :
    (nd.addressTo port).localaddr = (nd'.addressTo port).localaddr := by
  unfold Node.addressTo
  rw [ha.portTable, ha.localaddr]

theorem Agree.onFrame (ha : Agree nd nd') (index : ℕ) (f : Frame n) :
    Agree (onFrame h nd index f).1 (onFrame h nd' index f).1 ∧
      ((onFrame h nd index f).2 = (onFrame h nd' index f).2 ↔
        SameFreshness h nd nd' (.frame index f)) := by
  have hheld : ∀ d, ((NetLab.Odr.onFrame h nd index f).1.routingTable d).held =
      ((NetLab.Odr.onFrame h nd' index f).1.routingTable d).held := by
    intro d
    rw [held_onFrame, held_onFrame]
    exact ha.learned f index d
  obtain ⟨dst, mac, body⟩ := f
  cases body with
  | rreq q =>
    have hiff := ha.onRreq_out (h := h) index mac q
    simp only [NetLab.Odr.onFrame] at hheld ⊢
    refine ⟨⟨?_, ?_, ?_, ?_, ?_, hheld⟩, ?_⟩
    · rw [onRreq_node, onRreq_node]
      exact ha.broadcastId
    · rw [onRreq_node, onRreq_node]
      exact ha.port
    · rw [onRreq_node, onRreq_node]
      exact ha.portTable
    · rw [onRreq_node, onRreq_node]
      exact ha.localaddr
    · rw [onRreq_node, onRreq_node]
      exact ha.unLen
    · refine hiff.trans ⟨?_, fun hall => hall q rfl⟩
      rintro hsame _ ⟨⟩
      exact hsame
  | rrep r =>
    have hpath := ha.sunPathOf (h.order.ntohl r.dstPort)
    have hquiet : SameFreshness h nd nd' (.frame index ⟨dst, mac, .rrep r⟩) := by
      rintro _ ⟨⟩
    simp only [NetLab.Odr.onFrame, onRrep] at hheld ⊢
    split_ifs at hheld ⊢
    · exact ⟨⟨ha.broadcastId, ha.port, ha.portTable, ha.addressTo _, ha.unLen, hheld⟩,
        iff_of_true (by rw [hpath]) hquiet⟩
    · exact ⟨⟨ha.broadcastId, ha.port, ha.portTable, ha.localaddr, ha.unLen, hheld⟩,
        iff_of_true (by rw [sendVia_congr h (hheld r.dstAddr)]) hquiet⟩
  | payload l =>
    have hpath := ha.sunPathOf (h.order.ntohl l.dstPort)
    have hquiet : SameFreshness h nd nd' (.frame index ⟨dst, mac, .payload l⟩) := by
      rintro _ ⟨⟩
    simp only [NetLab.Odr.onFrame, onPayload] at hheld ⊢
    split_ifs
    · exact ⟨⟨ha.broadcastId, ha.port, ha.portTable, ha.addressTo _, ha.unLen, ha.held⟩,
        iff_of_true (by rw [hpath]) hquiet⟩
    · exact ⟨ha, iff_of_true (by rw [sendTo_congr ha.held]) hquiet⟩

theorem Agree.onRequest (ha : Agree nd nd') (entry : PortEntry) (m : LocalMsg n) :
    Agree (onRequest h nd entry m).1 (onRequest h nd' entry m).1 ∧
      (onRequest h nd entry m).2 = (onRequest h nd' entry m).2 := by
  have hroute : routeExist nd.routingTable m = routeExist nd'.routingTable m := by
    unfold routeExist
    cases m.dstAddr with
    | none => rfl
    | some d => simp only [(held_eq_iff.mp (ha.held d)).1]
  unfold NetLab.Odr.onRequest
  rw [← hroute, ← ha.broadcastId]
  split_ifs
  · exact ⟨ha, by rw [sendTo_congr ha.held]⟩
  · exact ⟨⟨rfl, ha.port, ha.portTable, ha.localaddr, ha.unLen, ha.held⟩, rfl⟩

theorem Agree.eq (ha : Agree nd nd') : nd' = { nd with routingTable := nd'.routingTable } := by
  obtain ⟨hid, hport, htable, hpath, hlen, _⟩ := ha
  cases nd
  cases nd'
  dsimp only at hid hport htable hpath hlen
  subst hid hport htable hpath hlen
  rfl

theorem Agree.onLocal (ha : Agree nd nd') (m : LocalMsg n) :
    Agree (onLocal h nd m).1 (onLocal h nd' m).1 ∧
      (onLocal h nd m).2 = (onLocal h nd' m).2 := by
  have ht := ha.held
  rw [ha.eq]
  generalize nd'.routingTable = t at ht
  unfold NetLab.Odr.onLocal
  dsimp only
  have hlocal : Agree (nd.receiveFrom m.sunPath)
      (Node.receiveFrom { nd with routingTable := t } m.sunPath) := ⟨rfl, rfl, rfl, rfl, rfl, ht⟩
  rw [← hlocal.portTable]
  have hsame : (Node.receiveFrom { nd with routingTable := t } m.sunPath).sunPath =
      (nd.receiveFrom m.sunPath).sunPath := rfl
  rw [hsame]
  cases (nd.receiveFrom m.sunPath).portTable.findIdx? fun e =>
      e.sunPath == (nd.receiveFrom m.sunPath).sunPath with
  | none =>
    refine Agree.onRequest ?_ _ m
    exact ⟨rfl, rfl, rfl, rfl, rfl, ht⟩
  | some i =>
    cases i with
    | zero => exact ⟨hlocal, by simp only [onReply, sendTo_congr hlocal.held]⟩
    | succ i => exact hlocal.onRequest _ m

/-- Two nodes that agree go on to agree, and send the same on every event but a RREQ that is fresh to
one of them only. -/
theorem Agree.react (ha : Agree nd nd') (e : NodeEvent n) :
    Agree (nd.react h e).1 (nd'.react h e).1 ∧
      ((nd.react h e).2 = (nd'.react h e).2 ↔ SameFreshness h nd nd' e) := by
  cases e with
  | frame index f => exact ha.onFrame index f
  | app m =>
    obtain ⟨hagree, hout⟩ := ha.onLocal (h := h) m
    exact ⟨hagree, iff_of_true hout trivial⟩

theorem Agree.run (ha : Agree nd nd') (es : List (NodeEvent n)) :
    Agree (nd.run h es) (nd'.run h es) := by
  induction es generalizing nd nd' with
  | nil => exact ha
  | cons e es ih => exact ih (ha.react e).1

end

/-- After the events `bs` the frame is the first RREQ from its source. -/
def FirstFrom {n : ℕ} (bs : List (NodeEvent n)) (f : Frame n) (q : Rreq n) : Prop :=
  f.body = .rreq q ∧ idsFrom q.srcAddr bs = []

section
variable {n : ℕ} {h : Host n} {nd : Node n} {t : Fin n → RoutingEntry}

/-- A RREQ is compared with the last id received from its source, and with what was left in the
memory of the row where there is none. -/
theorem fresh_run (bs : List (NodeEvent n)) (index : ℕ) (q : Rreq n) :
    (Node.run h { nd with routingTable := t } bs).fresh index q =
      isFresh { t q.srcAddr with
        broadcastId := (idsFrom q.srcAddr bs).getLastD (t q.srcAddr).broadcastId } q
        ((Node.run h { nd with routingTable := t } bs).efficient index q) := by
  have hid : ((Node.run h { nd with routingTable := t } bs).routingTable q.srcAddr).broadcastId = _ :=
    run_broadcastId bs q.srcAddr
  unfold Node.fresh isFresh
  rw [hid]

theorem FirstFrom.fresh {bs : List (NodeEvent n)} {f : Frame n} {q : Rreq n} (hf : FirstFrom bs f q)
    (index : ℕ) :
    (Node.run h { nd with routingTable := t } bs).fresh index q = isFresh (t q.srcAddr) q
      ((Node.run h { nd with routingTable := t } bs).efficient index q) := by
  rw [fresh_run, hf.2]
  rfl

theorem fresh_of_later {t' : Fin n → RoutingEntry} {bs : List (NodeEvent n)} {q : Rreq n}
    (ha : Agree { nd with routingTable := t } { nd with routingTable := t' })
    (hf : idsFrom q.srcAddr bs ≠ []) (index : ℕ) :
    (Node.run h { nd with routingTable := t } bs).fresh index q =
      (Node.run h { nd with routingTable := t' } bs).fresh index q := by
  have hlast : ∀ a b, (idsFrom q.srcAddr bs).getLastD a = (idsFrom q.srcAddr bs).getLastD b := by
    intro a b
    cases hl : idsFrom q.srcAddr bs with
    | nil => exact absurd hl hf
    | cons id ids => rw [List.getLastD_cons, List.getLastD_cons]
  rw [fresh_run, fresh_run, (ha.run bs).efficient]
  unfold isFresh
  rw [hlast]

end

/-- Two runs from tables without a route, on the same events: they always hold the same routes; they
send the same if and only if, for every source from which a RREQ is received, the two ids left in its
row are on one side of the test in the first one, where it shows; and that RREQ is flooded or
answered if and only if it passes the test, where it shows, or is flooded with the RREP sent. -/
theorem leftover_memory_iff {n : ℕ} (h : Host n) (nd : Node n) (t t' : Fin n → RoutingEntry)
    (ht : ∀ d, (t d).outgoingIf = 0) (ht' : ∀ d, (t' d).outgoingIf = 0) (es : List (NodeEvent n)) :
    let run := Node.run h { nd with routingTable := t }
    let run' := Node.run h { nd with routingTable := t' }
    (∀ d, ((run es).routingTable d).held = ((run' es).routingTable d).held) ∧
    ((∀ bs e cs, es = bs ++ e :: cs → ((run bs).react h e).2 = ((run' bs).react h e).2) ↔
      ∀ bs index f cs q, es = bs ++ .frame index f :: cs → FirstFrom bs f q →
        (run bs).speaks h index f.srcMac q = true →
          isFresh (t q.srcAddr) q ((run bs).efficient index q) =
            isFresh (t' q.srcAddr) q ((run bs).efficient index q)) ∧
    ∀ bs index f q, FirstFrom bs f q → (((run bs).react h (.frame index f)).2 ≠ [] ↔
      (isFresh (t q.srcAddr) q ((run bs).efficient index q) &&
        (run bs).speaks h index f.srcMac q) || (run bs).passesOn h index f.srcMac q) := by
  intro run run'
  have hstart : Agree { nd with routingTable := t } { nd with routingTable := t' } :=
    ⟨rfl, rfl, rfl, rfl, rfl, fun d => held_eq_iff.mpr
      ⟨(ht d).trans (ht' d).symm, fun hne => absurd (ht d) hne⟩⟩
  have ha : ∀ bs, Agree (run bs) (run' bs) := fun bs => hstart.run bs
  refine ⟨fun d => (ha es).held d, ?_, ?_⟩
  · constructor
    · rintro hall bs index f cs q rfl hf hspeaks
      have hsame := ((ha bs).react (.frame index f)).2.mp (hall bs _ cs rfl) q hf.1 hspeaks
      rw [hf.fresh, hf.fresh] at hsame
      rwa [← (ha bs).efficient] at hsame
    · rintro hall bs e cs rfl
      refine ((ha bs).react e).2.mpr ?_
      cases e with
      | app m => trivial
      | frame index f =>
        intro q hq hspeaks
        by_cases hids : idsFrom q.srcAddr bs = []
        · have hf : FirstFrom bs f q := ⟨hq, hids⟩
          have hsame := hall bs index f cs q rfl hf hspeaks
          rw [hf.fresh, hf.fresh]
          rwa [← (ha bs).efficient]
        · exact fresh_of_later hstart hids index
  · intro bs index f q hf
    rw [← hf.fresh, ← onRreq_ne_nil_iff]
    simp only [Node.react, onFrame, hf.1]
    rfl

def leftoverTable (id : ℕ) : Fin 3 → RoutingEntry := fun _ => ⟨100, 0, 9, id⟩

def leftoverNode (id : ℕ) : Node 3 := { freshNode with routingTable := leftoverTable id }

theorem leftover_memory_heard : ((leftoverNode 1).react relayHost (requestCopy 1 0)).2 ≠ [] :=
  ((leftover_memory_iff relayHost freshNode (leftoverTable 1) (leftoverTable 0) (fun _ => rfl)
    (fun _ => rfl) []).2.2 [] 0 _ _ ⟨rfl, rfl⟩).mpr (by decide)

/-- The first RREQ of node 0 is flooded on two interfaces, or not at all. -/
theorem first_rreq_swallowed :
    ((leftoverNode 0).react relayHost (requestCopy 1 0)).2.length = 2 ∧
      ((leftoverNode 7).react relayHost (requestCopy 1 0)).2 = [] ∧
      ¬ ((leftoverNode 0).react relayHost (requestCopy 1 0)).2 =
        ((leftoverNode 7).react relayHost (requestCopy 1 0)).2 := by
  decide

end NetLab.Odr
