import NetLab.Odr.ForwardRoute
import NetLab.Odr.Live

/-! The service behind a discovery. The flood of one request in a fresh network leaves a route in each
direction, and from then on what the two nodes send to each other arrives. -/
namespace NetLab.Odr
open NetLab.Lib

section
variable {n : ℕ} {T : Topology n} {S D : Fin n} {id : ℕ} {s t : Net n} {p : Packet n}

/-- A route to the source was learned from a RREQ of this flood. -/
def RowsNumbered (S : Fin n) (id : ℕ) (s : Net n) : Prop :=
  ∀ x, (s.row x S).outgoingIf ≠ 0 → (s.row x S).broadcastId = id

/-- What a flood answers has improved the route to its source. -/
theorem Flooding.aligned (h : Flooding T S D id s) (hrows : RowsNumbered S id s) (hp : p ∈ s.inFlight) :
    s.aligned T p = true := by
  unfold Net.aligned
  cases hbody : p.frame.body with
  | rrep r => rfl
  | payload l => rfl
  | rreq q =>
    obtain ⟨rfl, _, hid, _⟩ := h.rreq p hp q hbody
    dsimp only
    cases heff : moreEfficient (s.row p.dst q.srcAddr) q.discovery q.hopCnt p.dstIf with
    | true => simp
    | false =>
      have hroute : (s.row p.dst q.srcAddr).outgoingIf ≠ 0 := by
        intro h0
        rw [moreEfficient_of_no_route h0] at heff
        cases heff
      have hstored := hrows p.dst hroute
      change ((s.node p.dst).routingTable q.srcAddr).broadcastId = id at hstored
      change moreEfficient ((s.node p.dst).routingTable q.srcAddr) q.discovery q.hopCnt p.dstIf = false
        at heff
      have hans : answers (T.host p.dst) (s.node p.dst) p.dstIf p.frame.srcMac q = false := by
        simp [answers, isFresh, heff, hstored, hid]
      rw [hans]
      rfl

theorem RowsNumbered.deliver (h : RowsNumbered S id s) (hf : Flooding T S D id s) (hne : D ≠ S)
    (hp : p ∈ s.inFlight) (k : ℕ) :
    RowsNumbered S id ((s.drop k).act T p.dst (s.receive T p)) := by
  intro x hx
  rw [Net.act_row] at hx ⊢
  by_cases hxp : x = p.dst
  · subst hxp
    rw [if_pos rfl] at hx ⊢
    unfold Net.receive onFrame at hx ⊢
    cases hbody : p.frame.body with
    | rreq q =>
      obtain ⟨rfl, _, hid, _⟩ := hf.rreq p hp q hbody
      dsimp only
      rw [onRreq_routingTable, Function.update_self]
      exact hid
    | rrep r =>
      have hsrc := hf.rrep p hp r hbody
      have hother : ¬ r.srcAddr = some S := by
        rw [hsrc]
        exact fun heq => hne (Option.some.inj heq)
      rw [hbody] at hx
      dsimp only at hx ⊢
      rw [onRrep_routingTable, if_neg hother] at hx ⊢
      exact h p.dst hx
    | payload l =>
      rw [hbody] at hx
      have htable : (onPayload (T.host p.dst) (s.node p.dst) l).1.routingTable =
          (s.node p.dst).routingTable := by
        unfold onPayload
        dsimp only
        split_ifs <;> rfl
      dsimp only at hx ⊢
      rw [htable] at hx ⊢
      exact h p.dst hx
  · rw [if_neg hxp] at hx ⊢
    exact h x hx

/-- The discovery of `Requested`: every delivery of it is aligned, and it leaves both routes. -/
theorem Requested.served {as : List (Action n)} (hreq : Requested T S D s)
    (hreach : ∃ k, Walk T.Hop k S D) (hr : Run (Net.step T) Delivery s as t) (hquiet : t.inFlight = []) :
    Settled T t ∧ (t.row S D).outgoingIf ≠ 0 ∧ (t.row D S).outgoingIf ≠ 0 := by
  obtain ⟨q, hopen, hflood⟩ := hreq.floodState
  have hrows : RowsNumbered S q.broadcastId s := fun x hx => absurd (hopen.row x S).1 hx
  have hsettled : Settled T s := by
    cases hreq with
    | @intro s₀ _ m hfresh _ _ hflag _ hs =>
      exact (settled_initial hfresh.1).step (a := .app S m) ⟨hflag, trivial⟩ hs
  have h := hr.invariant
    (fun s => FloodState T S D q.broadcastId s ∧ RowsNumbered S q.broadcastId s ∧ Settled T s) (by
      intro u v a h hok hs
      have hflood' := h.1.step hreq.ne hok hs
      cases a with
      | app x m => exact hok.elim
      | duplicate k => exact hok.elim
      | lose k => exact hok.elim
      | deliver k =>
        obtain ⟨p, hp, rfl⟩ := Option.map_eq_some_iff.mp hs
        have hmem := List.mem_of_getElem? hp
        have hal : Aligned T u (.deliver k) := by
          intro p' hp'
          rw [hp] at hp'
          cases hp'
          exact h.1.flooding.aligned h.2.1 hmem
        exact ⟨hflood', h.2.1.deliver h.1.flooding hreq.ne hmem k,
          h.2.2.step (a := .deliver k) ⟨trivial, hal⟩ hs⟩)
    ⟨hflood, hrows, hsettled⟩
  refine ⟨h.2.2, (forward_route_answered T S D s t as hreq hreach hr hquiet).1, ?_⟩
  exact (reverse_routes_shortest T S D s t as hreq hr hquiet).1.route_iff.mpr hreach

/-- Datagrams of applications at the two nodes for each other, none of which forces a discovery, and
deliveries. -/
def Serving (S D : Fin n) (_ : Net n) : Action n → Prop
  | .app x m => m.flag = 0 ∧ (x = S ∧ m.dstAddr = some D ∨ x = D ∧ m.dstAddr = some S)
  | .deliver _ => True
  | _ => False

def Action.datagram? : Action n → Option (Fin n × LocalMsg n)
  | .app x m => some (x, m)
  | _ => none

def LiveEvent.datagram? : LiveEvent n → Option (Fin n × LocalMsg n)
  | .net a => a.datagram?
  | _ => none

/-- A node with a route sends one payload for a datagram. -/
theorem onLocal_routed (h : Host n) (nd : Node n) {m : LocalMsg n} {d : Fin n} (hd : m.dstAddr = some d)
    (hflag : m.flag = 0) (hroute : 3 ≤ (nd.routingTable d).outgoingIf) :
    ∃ l : Payload n, (onLocal h nd m).2 = [.send ((nd.routingTable d).outgoingIf - 3)
      ⟨(nd.routingTable d).nextHop, h.ifAddr ((nd.routingTable d).outgoingIf - 3), .payload l⟩] := by
  have hsend : ∀ l : Payload n, sendTo h nd.routingTable m.dstAddr (.payload l) =
      .send ((nd.routingTable d).outgoingIf - 3)
        ⟨(nd.routingTable d).nextHop, h.ifAddr ((nd.routingTable d).outgoingIf - 3), .payload l⟩ := by
    intro l
    rw [hd]
    show sendVia h (nd.routingTable d) _ = _
    rw [sendVia, if_neg (Nat.not_lt.mpr hroute)]
  have hrequest : ∀ (nd' : Node n) (e : PortEntry), nd'.routingTable = nd.routingTable →
      ∃ l : Payload n, (onRequest h nd' e m).2 = [sendTo h nd.routingTable m.dstAddr (.payload l)] := by
    intro nd' e htable
    have hexist : routeExist nd'.routingTable m = true := by
      have hne : (nd.routingTable d).outgoingIf ≠ 0 := by omega
      simp [routeExist, hd, htable, hflag, hne]
    rw [onRequest, if_pos hexist, htable]
    exact ⟨_, rfl⟩
  unfold onLocal
  dsimp only
  split
  · exact ⟨_, congrArg (fun o => [o]) (hsend _)⟩
  · obtain ⟨l, hl⟩ := hrequest (nd.receiveFrom m.sunPath) _ rfl
    exact ⟨l, hl.trans (congrArg (fun o => [o]) (hsend l))⟩
  · obtain ⟨l, hl⟩ := hrequest { nd.receiveFrom m.sunPath with
      port := nd.port + 1, portTable := nd.portTable ++ [⟨nd.port, nd.reads m.sunPath⟩] }
      ⟨nd.port, nd.reads m.sunPath⟩ rfl
    exact ⟨l, hl.trans (congrArg (fun o => [o]) (hsend l))⟩

/-- Two nodes with routes to each other, and nothing but payloads on the way. -/
structure Served (T : Topology n) (S D : Fin n) (y : Traffic n) : Prop where
  settled : Settled T y.net
  there : (y.net.row S D).outgoingIf ≠ 0
  back : (y.net.row D S).outgoingIf ≠ 0
  traffic : ∀ p ∈ y.net.inFlight, ∃ l, p.frame.body = .payload l
  balance : ∀ l, (payloads y.net.inFlight).count l + (y.handed.map Prod.snd).count l =
    (y.submitted.map Submission.payload).count l
  submitted : ∀ e ∈ y.submitted, e.payload.dstAddr = e.datagram.dstAddr
  handed : ∀ e ∈ y.handed, e.2.dstAddr = some e.1

variable {y z : Traffic n}

theorem Served.start (h : Settled T t) (hthere : (t.row S D).outgoingIf ≠ 0)
    (hback : (t.row D S).outgoingIf ≠ 0) (hquiet : t.inFlight = []) : Served T S D (.start t) where
  settled := h
  there := hthere
  back := hback
  traffic := by simp [Traffic.start, hquiet]
  balance := by simp [Traffic.start, hquiet]
  submitted := by simp [Traffic.start]
  handed := by simp [Traffic.start]

/-- A datagram of one of the two nodes for the other. -/
theorem Served.app (h : Served T S D y) {x d : Fin n} {m : LocalMsg n} (hne : x ≠ d)
    (hd : m.dstAddr = some d) (hflag : m.flag = 0) (hroute : (y.net.row x d).outgoingIf ≠ 0)
    (hs : y.step T (.app x m) = some z) :
    Served T S D z ∧ ∃ l, z.submitted = y.submitted ++ [⟨x, m, l⟩] := by
  have hok : Unforced y.net (.app x m) := by
    show m.flag ≠ 1
    omega
  have hthree := (h.settled.wired.row_if x d hroute).1
  obtain ⟨l, hout⟩ := onLocal_routed (T.host x) (y.net.node x) hd hflag hthree
  have himproves := (vouched_step h.settled.wired h.settled.vouched hok (Traffic.step_net hs)).1
  have hsettled := h.settled.step (a := .app x m) ⟨hok, trivial⟩ (Traffic.step_net hs)
  rcases Traffic.step_cases hs with ⟨x', m', ha, rfl⟩ | ⟨_, _, ha, _⟩ | ⟨_, _, ha, _⟩ | ⟨_, ha, _⟩
  · cases ha
    have hsubmits : y.net.submits T x m = [⟨x, m, l⟩] := by
      unfold Net.submits
      rw [hout]
      rfl
    have hone : ∀ o ∈ (onLocal (T.host x) (y.net.node x) m).2, o.payload? ≠ none →
        (T.transmit x o).length = 1 := by
      intro o ho _
      rw [hout, List.mem_singleton] at ho
      rw [ho]
      exact transmit_row_one h.settled.vouched h.settled.onLan hroute hne _ _
    refine ⟨⟨hsettled, (himproves S D h.there).1, (himproves D S h.back).1, ?_, ?_, ?_, h.handed⟩, l, ?_⟩
    · intro p hp
      rcases mem_act_cases hp with hp | ⟨hp, _⟩
      · exact h.traffic p hp
      · rw [hout, List.mem_singleton] at hp
        rw [(Out.send.inj hp).2]
        exact ⟨l, rfl⟩
    · intro l'
      have hbal := h.balance l'
      have hcount := count_transmits_eq (l := l') _ hone
      dsimp only
      rw [payloads_act, List.count_append, List.map_append, List.count_append, submits_payloads]
      omega
    · intro e he
      rcases List.mem_append.mp he with he | he
      · exact h.submitted e he
      · obtain ⟨l', hl', rfl⟩ := List.mem_map.mp he
        exact (onLocal_payload hl').2.1
    · dsimp only
      rw [hsubmits]
  · cases ha
  · cases ha
  · cases ha

theorem Served.deliver (h : Served T S D y) {k : ℕ} (hs : y.step T (.deliver k) = some z) :
    Served T S D z ∧ z.submitted = y.submitted := by
  have hbalance := fun l => h.settled.deliver hs l
  have hal : Aligned T y.net (.deliver k) := by
    intro p hp
    obtain ⟨l, hl⟩ := h.traffic p (List.mem_of_getElem? hp)
    unfold Net.aligned
    rw [hl]
  have himproves := (vouched_step h.settled.wired h.settled.vouched (a := .deliver k) trivial
    (Traffic.step_net hs)).1
  have hsettled := h.settled.step (a := .deliver k) ⟨trivial, hal⟩ (Traffic.step_net hs)
  rcases Traffic.step_cases hs with ⟨_, _, ha, _⟩ | ⟨k', p, ha, hp, rfl⟩ | ⟨_, _, ha, _⟩ | ⟨_, ha, _⟩
  · cases ha
  · cases ha
    refine ⟨⟨hsettled, (himproves S D h.there).1, (himproves D S h.back).1, ?_, ?_, h.submitted, ?_⟩, rfl⟩
    · intro p' hp'
      rcases mem_act_cases hp' with hp' | ⟨hsend, _⟩
      · exact h.traffic p' (Net.mem_of_mem_drop hp')
      · obtain ⟨l, hl⟩ := h.traffic p (List.mem_of_getElem? hp)
        unfold Net.receive onFrame onPayload at hsend
        rw [hl] at hsend
        dsimp only at hsend
        split_ifs at hsend
        · simp at hsend
        · rcases sendTo_cases (T.host p.dst) (y.net.node p.dst).routingTable l.dstAddr (.payload l) with
            hbad | ⟨i, f, hout, hbody⟩
          · rw [hbad] at hsend
            simp at hsend
          · rw [hout, List.mem_singleton] at hsend
            cases hsend
            exact ⟨l, hbody⟩
    · intro l
      rw [hbalance l]
      exact h.balance l
    · intro e he
      rcases List.mem_append.mp he with he | he
      · exact h.handed e he
      · exact (mem_hands he).1
  · cases ha
  · cases ha

theorem exists_quiet (h : Acc (Descends (Net.step T) Drain) s) :
    ∃ cs t, Run (Net.step T) Delivery s cs t ∧ t.inFlight = [] := by
  induction h with
  | intro s _ ih =>
    cases hflight : s.inFlight with
    | nil => exact ⟨[], s, .nil s, hflight⟩
    | cons p ps =>
      have hs : s.step T (.deliver 0) = some ((s.drop 0).act T p.dst (s.receive T p)) := by
        show (s.inFlight[0]?.map fun p => (s.drop 0).act T p.dst (s.receive T p)) = _
        rw [hflight]
        rfl
      obtain ⟨cs, t, hr, hquiet⟩ := ih _ ⟨.deliver 0, trivial, hs⟩
      exact ⟨.deliver 0 :: cs, t, .cons trivial hs hr, hquiet⟩

/-- The ledger follows every run of the network. -/
theorem Traffic.follows {ok : Net n → Action n → Prop} {cs : List (Action n)} (hr : Run (Net.step T) ok s cs t)
    {y : Traffic n} (hy : y.net = s) :
    ∃ z, Run (Traffic.step T) (fun y a => ok y.net a) y cs z ∧ z.net = t := by
  induction hr generalizing y with
  | nil s => exact ⟨y, .nil y, hy⟩
  | cons hok hs _ ih =>
    subst hy
    have hstep : ∀ a u, y.net.step T a = some u → ∃ v, y.step T a = some v ∧ v.net = u := by
      intro a u hu
      unfold Traffic.step
      rw [hu]
      cases a <;> exact ⟨_, rfl, rfl⟩
    obtain ⟨v, hv, hnet⟩ := hstep _ _ hs
    obtain ⟨z, hrest, hz⟩ := ih hnet
    exact ⟨z, .cons hok hv hrest, hz⟩

/-- What a step of the service does. -/
theorem Served.step (h : Served T S D y) (hne : D ≠ S) {a : Action n} (hok : Serving S D y.net a)
    (hs : y.step T a = some z) : Served T S D z ∧
      z.submitted.map (fun e => (e.node, e.datagram)) =
        y.submitted.map (fun e => (e.node, e.datagram)) ++ a.datagram?.toList := by
  have hsubmit : ∀ {x d m}, x ≠ d → m.dstAddr = some d → m.flag = 0 → (y.net.row x d).outgoingIf ≠ 0 →
      y.step T (.app x m) = some z → Served T S D z ∧
        z.submitted.map (fun e => (e.node, e.datagram)) =
          y.submitted.map (fun e => (e.node, e.datagram)) ++ [(x, m)] := by
    intro x d m hxd hd hflag hroute hs
    obtain ⟨hz, l, hl⟩ := h.app hxd hd hflag hroute hs
    refine ⟨hz, ?_⟩
    rw [hl, List.map_append]
    rfl
  cases a with
  | app x m =>
    obtain ⟨hflag, ⟨rfl, hd⟩ | ⟨rfl, hd⟩⟩ := hok
    · exact hsubmit (Ne.symm hne) hd hflag h.there hs
    · exact hsubmit hne hd hflag h.back hs
  | deliver k =>
    obtain ⟨hz, hsame⟩ := h.deliver hs
    refine ⟨hz, ?_⟩
    rw [hsame]
    exact (List.append_nil _).symm
  | duplicate k => exact hok.elim
  | lose k => exact hok.elim

theorem Served.run (h : Served T S D y) (hne : D ≠ S) {bs : List (Action n)}
    (hr : Run (Traffic.step T) (fun y a => Serving S D y.net a) y bs z) : Served T S D z ∧
      z.submitted.map (fun e => (e.node, e.datagram)) =
        y.submitted.map (fun e => (e.node, e.datagram)) ++ bs.filterMap Action.datagram? := by
  induction hr with
  | nil y => exact ⟨h, by simp⟩
  | @cons _ _ _ a _ hok hs _ ih =>
    obtain ⟨hu, hfirst⟩ := h.step hne hok hs
    obtain ⟨hz, hrest⟩ := ih hu
    refine ⟨hz, ?_⟩
    rw [hrest, hfirst, List.append_assoc, List.filterMap_cons]
    cases a.datagram? <;> rfl

/-- With nothing on its way, everything has been handed over where it belongs. -/
theorem Served.all_handed (h : Served T S D y) (hquiet : y.net.inFlight = []) (x : Fin n) (l : Payload n) :
    y.handed.count (x, l) =
      if l.dstAddr = some x then (y.submitted.map Submission.payload).count l else 0 := by
  have hbal := h.balance l
  rw [hquiet] at hbal
  split_ifs with hx
  · rw [← hbal]
    have hmap : y.handed.count (x, l) = (y.handed.map Prod.snd).count l := by
      apply count_map_snd
      intro e he hl
      have hd := h.handed e he
      rw [hl, hx] at hd
      exact (Option.some.inj hd).symm
    rw [hmap]
    exact (Nat.zero_add _).symm
  · apply List.count_eq_zero_of_not_mem
    intro he
    exact hx (h.handed _ he)

end

/-- One discovery in a fresh network that loses and repeats nothing, whatever its topology and however
its frames overtake each other: from then on, as long as the arrays have room and no process ends, no
datagram that the two nodes send to each other is dropped, the network always comes to rest, and
when it does each datagram has been handed over once, at the node that it is for. -/
theorem service_complete {n : ℕ} (T : Topology n) (S D : Fin n) (s : Net n) (x y : Live n)
    (es fs : List (LiveEvent n)) (hreq : Requested T S D s) (hreach : ∃ k, Walk T.Hop k S D)
    (hr : Run (Live.step T) (Live.Meets Delivery) (.start s) es x) (hquiet : x.traffic.net.inFlight = [])
    (hserve : Run (Live.step T) (Live.Meets fun s a => Serving S D s a ∧ s.fits T a = true)
      x.restarted fs y) (halive : ∀ v, y.ended v = false) :
    y.traffic.submitted.map (fun e => (e.node, e.datagram)) = fs.filterMap LiveEvent.datagram? ∧
    (∀ e ∈ y.traffic.submitted, e.payload.dstAddr = e.datagram.dstAddr) ∧
    (y.traffic.net.inFlight = [] → ∀ v l, y.traffic.handed.count (v, l) =
      if l.dstAddr = some v then (y.traffic.submitted.map Submission.payload).count l else 0) ∧
    ∃ gs z, Run (Live.step T) (Live.Meets Delivery) y gs z ∧ z.traffic.net.inFlight = [] ∧
      ∀ v, z.ended v = false := by
  obtain ⟨hx, bs, rfl, hserving⟩ := Live.run_of_alive hserve halive
  obtain ⟨_, as, _, hdiscovery⟩ := Live.run_of_alive hr hx
  obtain ⟨hsettled, hthere, hback⟩ := hreq.served hreach (Traffic.run_net _ hdiscovery) hquiet
  obtain ⟨h, hsubmitted⟩ := (Served.start hsettled hthere hback hquiet).run hreq.ne
    (hserving.mono fun _ _ hok => hok.1)
  refine ⟨?_, h.submitted, h.all_handed, ?_⟩
  · rw [hsubmitted, List.filterMap_map]
    rfl
  · obtain ⟨cs, u, hdrain, hu⟩ := exists_quiet (drain_acc h.settled.wired h.settled.vouched)
    obtain ⟨z, hz, hnet⟩ := Traffic.follows hdrain rfl
    exact ⟨cs.map .net, ⟨z, y.ended⟩, Live.of_traffic hz halive, by rw [hnet, hu], halive⟩

instance {n : ℕ} (S D : Fin n) (s : Net n) (a : Action n) : Decidable (Serving S D s a) :=
  match a with
  | .app x m => inferInstanceAs
      (Decidable (m.flag = 0 ∧ (x = S ∧ m.dstAddr = some D ∨ x = D ∧ m.dstAddr = some S)))
  | .deliver _ => .isTrue trivial
  | .duplicate _ => .isFalse id
  | .lose _ => .isFalse id

/-- Node 0 asks node 2 again, whose server answers while a second client asks. -/
def lineService : List (Action 3) :=
  lineRun.take 1 ++ [.deliver 0, .deliver 0, .app (vm 2) ⟨"240411", some (vm 0), 6000, "noon", 0⟩,
    .app (vm 0) ⟨"240411d", some (vm 2), 5000, "hi", 0⟩, .deliver 0, .deliver 1, .deliver 0, .deliver 0]

def lineDiscovered : Live 3 :=
  (exec (Live.step line) (.start lineAsked) ((List.replicate 4 (.deliver 0)).map .net)).getD
    (.start lineAsked)

def lineServiceEnd : Live 3 :=
  (exec (Live.step line) lineDiscovered.restarted (lineService.map .net)).getD lineDiscovered.restarted

theorem service_complete_line : lineServiceEnd.traffic.net.inFlight = [] ∧
    lineServiceEnd.traffic.submitted.map (fun e => (e.node, e.datagram)) =
      lineService.filterMap Action.datagram? := by
  have hreach : ∃ k, Walk line.Hop k 0 2 :=
    ⟨2, .cons (b := 1) ⟨0, by decide, 0, by decide, rfl, by decide⟩
      (.single ⟨1, by decide, 0, by decide, rfl, by decide⟩)⟩
  have hserve : Run (Live.step line)
      (Live.Meets fun s a => Serving 0 2 s a ∧ s.fits line a = true) lineDiscovered.restarted
      (lineService.map .net) lineServiceEnd := .of_runnable (by decide +kernel) lineDiscovered.restarted
  have h := service_complete line 0 2 lineAsked lineDiscovered lineServiceEnd
    ((List.replicate 4 (.deliver 0)).map .net) _ line_requested hreach
    (.of_runnable (by decide +kernel) (Live.start lineAsked)) (by decide +kernel) hserve (by decide +kernel)
  rw [List.filterMap_map] at h
  exact ⟨by decide +kernel, h.1⟩

end NetLab.Odr
