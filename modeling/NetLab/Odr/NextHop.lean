import NetLab.Odr.HopCount

/-! Next hops and the LANs they are on. A RREP leaves on the interface of the RREQ with the
address of the interface of the stored route, and the two need not be the same. -/
namespace NetLab.Odr
open NetLab.Lib

/-- Whether the handler of a RREQ answers it with a RREP. -/
def answers {n : ℕ} (h : Host n) (nd : Node n) (index : ℕ) (recvMac : Mac) (q : Rreq n) : Bool :=
  let old := nd.routingTable q.srcAddr
  let e := learn old q.discovery q.hopCnt index recvMac
  !q.rrepSent && isFresh e q (moreEfficient old q.discovery q.hopCnt index) &&
    (decide (q.dstAddr = some h.node) ||
      (knownRoute (Function.update nd.routingTable q.srcAddr e) q).isSome)

/-- A RREQ that is answered updates the row of its source, or arrives on the interface of
that row. -/
def Net.aligned {n : ℕ} (T : Topology n) (s : Net n) (p : Packet n) : Bool :=
  match p.frame.body with
  | .rreq q => !answers (T.host p.dst) (s.node p.dst) p.dstIf p.frame.srcMac q ||
      moreEfficient (s.row p.dst q.srcAddr) q.discovery q.hopCnt p.dstIf ||
      (s.row p.dst q.srcAddr).outgoingIf == p.dstIf + 3
  | _ => true

def Aligned {n : ℕ} (T : Topology n) (s : Net n) : Action n → Prop
  | .deliver k => ∀ p ∈ s.inFlight[k]?, s.aligned T p = true
  | _ => True

instance {n : ℕ} (T : Topology n) (s : Net n) (a : Action n) : Decidable (Aligned T s a) :=
  match a with
  | .deliver k => inferInstanceAs (Decidable (∀ p ∈ s.inFlight[k]?, s.aligned T p = true))
  | .app _ _ => .isTrue trivial
  | .duplicate _ => .isTrue trivial
  | .lose _ => .isTrue trivial

/-- Every frame carries the address of the interface it was sent on. -/
def OwnMac {n : ℕ} (T : Topology n) (s : Net n) : Prop :=
  ∀ p ∈ s.inFlight, p.frame.srcMac = T.mac p.src p.srcIf

/-- The next hop of every route is an address on the LAN of its interface. -/
def NextHopsOnLan {n : ℕ} (T : Topology n) (s : Net n) : Prop :=
  ∀ x d, (s.row x d).outgoingIf ≠ 0 → ∃ y, ∃ j < T.ifCnt y,
    T.lan y j = T.lan x ((s.row x d).outgoingIf - 3) ∧ (s.row x d).nextHop = T.mac y j

/-- A RREP that the handler of a RREQ sends answers it. -/
theorem mem_onRreq_rrep {n : ℕ} {h : Host n} {nd : Node n} {index : ℕ} {mac : Mac} {q : Rreq n}
    {i : ℕ} {g : Frame n} {r : Rrep n} (hg : g.body = .rrep r)
    (hm : .send i g ∈ (onRreq h nd index mac q).2) :
    answers h nd index mac q = true ∧ r.dstAddr = q.srcAddr ∧
      r.dstPort = h.order.htonl q.srcPort := by
  have hfl : ∀ skip (q' : Rreq n), .send i g ∉ flood h skip q' := by
    intro skip q' hf
    have hbody := (mem_flood.mp hf).2.2
    rw [hbody] at hg
    cases hg
  have hans : ∀ e fresh c b, .send i g ∈ answer h e index mac q fresh c b →
      (q.rrepSent = false ∧ fresh = true) ∧ r.dstAddr = q.srcAddr ∧
        r.dstPort = h.order.htonl q.srcPort := by
    intro e fresh c b ha
    obtain ⟨hsent, hfresh, hreply⟩ := mem_answer.mp ha
    obtain ⟨_, _, rfl⟩ := send_eq_reply hreply
    cases hg
    exact ⟨⟨hsent, hfresh⟩, rfl, rfl⟩
  rw [onRreq_out] at hm
  unfold answers
  dsimp only at hm ⊢
  by_cases hd : q.dstAddr = some h.node
  · rw [if_pos hd] at hm
    obtain ⟨⟨hsent, hfresh⟩, hr⟩ := hans _ _ _ _ hm
    exact ⟨by simp [hsent, hfresh, hd], hr⟩
  · rw [if_neg hd] at hm
    cases hk : knownRoute (Function.update nd.routingTable q.srcAddr
      (learn (nd.routingTable q.srcAddr) q.discovery q.hopCnt index mac)) q with
    | some route =>
      rw [hk] at hm
      rcases List.mem_append.mp hm with hm | hm
      · obtain ⟨⟨hsent, hfresh⟩, hr⟩ := hans _ _ _ _ hm
        exact ⟨by simp [hsent, hfresh], hr⟩
      · exact absurd (List.mem_ite_nil_right.mp hm).2 (hfl _ _)
    | none =>
      rw [hk] at hm
      exact absurd (List.mem_ite_nil_right.mp hm).2 (hfl _ _)

theorem reply_mem_onRreq {n : ℕ} {h : Host n} {nd : Node n} {index : ℕ} {mac : Mac} {q : Rreq n}
    (hans : answers h nd index mac q = true) : ∃ r,
      reply h (learn (nd.routingTable q.srcAddr) q.discovery q.hopCnt index mac) index mac r ∈
        (onRreq h nd index mac q).2 := by
  rw [onRreq_out]
  unfold answers at hans
  simp only [Bool.and_eq_true, Bool.not_eq_true'] at hans
  obtain ⟨⟨hsent, hfresh⟩, hwho⟩ := hans
  have hmem : ∀ c b, ∃ r, reply h (learn (nd.routingTable q.srcAddr) q.discovery q.hopCnt index mac)
      index mac r ∈ answer h (learn (nd.routingTable q.srcAddr) q.discovery q.hopCnt index mac)
        index mac q true c b := fun c b => ⟨_, mem_answer.mpr ⟨hsent, rfl, rfl⟩⟩
  rw [hfresh]
  by_cases hd : q.dstAddr = some h.node
  · rw [if_pos hd]
    exact hmem 0 q.discovery
  · have hroute : (knownRoute (Function.update nd.routingTable q.srcAddr
        (learn (nd.routingTable q.srcAddr) q.discovery q.hopCnt index mac)) q).isSome = true := by
      simpa [hd] using hwho
    obtain ⟨route, hk⟩ := Option.isSome_iff_exists.mp hroute
    rw [if_neg hd, hk]
    obtain ⟨r, hr⟩ := hmem route.hopCnt false
    exact ⟨r, List.mem_append_left _ hr⟩

theorem aligned_row {n : ℕ} {T : Topology n} {s : Net n} {p : Packet n} {q : Rreq n}
    (hq : p.frame.body = .rreq q) :
    ((s.receive T p).1.routingTable q.srcAddr).outgoingIf = p.dstIf + 3 ↔
      moreEfficient (s.row p.dst q.srcAddr) q.discovery q.hopCnt p.dstIf = true ∨
        (s.row p.dst q.srcAddr).outgoingIf = p.dstIf + 3 := by
  have hrow := onFrame_route (T.host p.dst) (s.node p.dst) p.dstIf p.frame q.srcAddr
  have hlearned : learned p.frame p.dstIf q.srcAddr (s.row p.dst q.srcAddr) =
      learn (s.row p.dst q.srcAddr) q.discovery q.hopCnt p.dstIf p.frame.srcMac := by
    simp [learned, Message.advert_rreq hq]
  have hout : ((s.receive T p).1.routingTable q.srcAddr).outgoingIf =
      (learn (s.row p.dst q.srcAddr) q.discovery q.hopCnt p.dstIf p.frame.srcMac).outgoingIf := by
    rw [← hlearned]
    exact (route_eq_iff.mp hrow).2.1
  rw [hout]
  cases he : moreEfficient (s.row p.dst q.srcAddr) q.discovery q.hopCnt p.dstIf with
  | true => simp [learn_of_moreEfficient _ he]
  | false => simp [learn_of_not _ he]

theorem sends_own_mac {n : ℕ} {T : Topology n} {s : Net n} {p : Packet n}
    (hal : s.aligned T p = true) {i : ℕ} {g : Frame n} (hs : .send i g ∈ (s.receive T p).2) :
    g.srcMac = T.mac p.dst i := by
  cases hsend : onFrame_sends hs with
  | flood hf hi hne => rfl
  | @answer q r hf hsent hout hsrc hdst hr =>
    have hans : answers (T.host p.dst) (s.node p.dst) p.dstIf p.frame.srcMac q = true := by
      have hm := hs
      unfold Net.receive onFrame at hm
      rw [hf] at hm
      exact (mem_onRreq_rrep rfl hm).1
    have hcond : moreEfficient (s.row p.dst q.srcAddr) q.discovery q.hopCnt p.dstIf = true ∨
        (s.row p.dst q.srcAddr).outgoingIf = p.dstIf + 3 := by
      simpa [Net.aligned, hf, hans] using hal
    have hrow : ((s.receive T p).1.routingTable q.srcAddr).outgoingIf = p.dstIf + 3 :=
      (aligned_row hf).mpr hcond
    unfold Net.receive at hrow
    change T.mac p.dst _ = _
    rw [hrow, Nat.add_sub_cancel]
  | relay hf ha hout => rfl

theorem originates_own_mac {n : ℕ} {T : Topology n} {s : Net n} {x : Fin n} {m : LocalMsg n}
    {i : ℕ} {g : Frame n} (hs : .send i g ∈ (onLocal (T.host x) (s.node x) m).2) :
    g.srcMac = T.mac x i := by
  cases onLocal_originates hs with
  | request => rfl
  | payload hl hout => rfl

theorem ownMac_act {n : ℕ} {T : Topology n} {s : Net n} {x : Fin n}
    {r : Node n × List (Out n)} (h : OwnMac T s)
    (hsend : ∀ i g, .send i g ∈ r.2 → g.srcMac = T.mac x i) : OwnMac T (s.act T x r) := by
  intro p hp
  rcases mem_act_cases hp with hp | ⟨hs, hsrc, _⟩
  · exact h p hp
  · rw [hsrc]
    exact hsend _ _ hs

theorem ownMac_step {n : ℕ} {T : Topology n} {s t : Net n} {a : Action n} (h : OwnMac T s)
    (hal : Aligned T s a) (hs : s.step T a = some t) : OwnMac T t := by
  rcases Net.step_cases hs with ⟨x, m, _, rfl⟩ | ⟨k, p, rfl, hp, rfl⟩ | ⟨_, _, hf⟩
  · exact ownMac_act h fun i g hg => originates_own_mac hg
  · have hd : OwnMac T (s.drop k) := fun q hq => h q (Net.mem_of_mem_drop hq)
    exact ownMac_act hd fun i g hg => sends_own_mac (hal p (by simp [hp])) hg
  · exact fun p hp => h p (hf p hp)

theorem nextHops_step {n : ℕ} {T : Topology n} {s t : Net n} {a : Action n} (hw : Wired T s)
    (hown : OwnMac T s) (h : NextHopsOnLan T s) (hs : s.step T a = some t) :
    NextHopsOnLan T t := by
  intro x d hd
  rcases Net.step_cases hs with ⟨y, m, _, rfl⟩ | ⟨k, p, _, hp, rfl⟩ | ⟨_, hn, _⟩
  · have hrow : (s.act T y (onLocal (T.host y) (s.node y) m)).row x d = s.row x d := by
      rw [Net.act_row, onLocal_routingTable]
      split_ifs with hxy
      · rw [hxy]
        rfl
      · rfl
    rw [hrow] at hd ⊢
    exact h x d hd
  · rw [Net.act_row] at hd ⊢
    by_cases hx : x = p.dst
    · subst hx
      rw [if_pos rfl] at hd ⊢
      rcases receive_row T s p d with hr | ⟨a, _, _, hr⟩
      · obtain ⟨hnext, hout, _⟩ := route_eq_iff.mp hr
        rw [hnext, hout]
        rw [hout] at hd
        exact h p.dst d hd
      · -- the row was read off the frame: it names the sender's interface on this LAN
        have hmem := List.mem_of_getElem? hp
        obtain ⟨hnext, hout⟩ : ((s.receive T p).1.routingTable d).nextHop = p.frame.srcMac ∧
            ((s.receive T p).1.routingTable d).outgoingIf = p.dstIf + 3 := by
          simp only [RoutingEntry.route, Prod.mk.injEq] at hr
          exact ⟨hr.1, hr.2.1⟩
        obtain ⟨hi, _, hl, _⟩ := hw.pkt_if p hmem
        refine ⟨p.src, p.srcIf, hi, ?_, ?_⟩
        · rw [hout, Nat.add_sub_cancel]
          exact hl.symm
        · rw [hnext]
          exact hown p hmem
    · rw [if_neg hx] at hd ⊢
      exact h x d hd
  · have hrow : t.row x d = s.row x d := by
      unfold Net.row
      rw [hn]
    rw [hrow] at hd ⊢
    exact h x d hd

/-- Next hops are on the LAN of the stored interface, and every frame carries the address of
the interface it was sent on, in every run in which each RREQ that is answered has updated the
row of its source or came in on its interface. -/
theorem next_hops_on_lan {n : ℕ} (T : Topology n) (s₀ s : Net n) (as : List (Action n))
    (h₀ : s₀.Initial) (hr : Run (Net.step T) (Aligned T) s₀ as s) :
    NextHopsOnLan T s ∧ OwnMac T s := by
  have hi : Wired T s₀ ∧ OwnMac T s₀ ∧ NextHopsOnLan T s₀ :=
    ⟨wired_initial T h₀, by simp [OwnMac, h₀.2], fun x d hd => absurd (h₀.1 x d) hd⟩
  have h := hr.invariant (fun s => Wired T s ∧ OwnMac T s ∧ NextHopsOnLan T s)
    (fun s t a h hal hs => ⟨wired_step h.1 hs, ownMac_step h.2.1 hal hs,
      nextHops_step h.1 h.2.1 h.2.2 hs⟩) hi
  exact ⟨h.2.2, h.2.1⟩

theorem aligned_of_own_mac {n : ℕ} {T : Topology n} {s : Net n} {k : ℕ} {p : Packet n}
    (hw : Wired T s) (hown : OwnMac T s) (hp : s.inFlight[k]? = some p)
    (ht : OwnMac T ((s.drop k).act T p.dst (s.receive T p))) : s.aligned T p = true := by
  have hmem := List.mem_of_getElem? hp
  cases hq : p.frame.body with
  | rreq q =>
    cases hans : answers (T.host p.dst) (s.node p.dst) p.dstIf p.frame.srcMac q with
    | true =>
      obtain ⟨r, hr⟩ := reply_mem_onRreq hans
      have hlearn : (learn ((s.node p.dst).routingTable q.srcAddr) q.discovery q.hopCnt p.dstIf
          p.frame.srcMac).outgoingIf = ((s.receive T p).1.routingTable q.srcAddr).outgoingIf := by
        simp [Net.receive, onFrame, hq, onRreq_routingTable]
      have hroute : ((s.receive T p).1.routingTable q.srcAddr).outgoingIf ≠ 0 := by
        rw [← hlearn]
        exact learn_outgoingIf_ne _ _ _ _ _
      obtain ⟨hge, hlt⟩ := receive_row_if hw hmem q.srcAddr hroute
      generalize hout : ((s.receive T p).1.routingTable q.srcAddr).outgoingIf = out
        at hlearn hge hlt
      -- the copy of the reply that the sender of the RREQ receives
      have hsend : .send p.dstIf ⟨p.frame.srcMac, T.mac p.dst (out - 3), .rrep r⟩ ∈
          (s.receive T p).2 := by
        have hreply := hr
        rw [reply, hlearn, if_neg (by omega)] at hreply
        unfold Net.receive onFrame
        rw [hq]
        exact hreply
      obtain ⟨hi, _, hl, hne⟩ := hw.pkt_if p hmem
      have hcopy : (⟨p.dst, p.dstIf, p.src, p.srcIf,
          ⟨p.frame.srcMac, T.mac p.dst (out - 3), .rrep r⟩⟩ : Packet n) ∈
          ((s.drop k).act T p.dst (s.receive T p)).inFlight := by
        refine (Net.mem_act T _ _ _ _).mpr (.inr ⟨_, hsend, T.mem_transmit.mpr ?_⟩)
        exact ⟨rfl, rfl, hi, hl.symm, hne.symm, .inr (hown p hmem)⟩
      have hmac : T.mac p.dst (out - 3) = T.mac p.dst p.dstIf := ht _ hcopy
      have hif := (T.mac_inj _ _ _ _ hlt (hw.pkt_if p hmem).2.1 hmac).2
      have hcond := (aligned_row (T := T) (s := s) hq).mp (by rw [hout]; omega)
      rcases hcond with he | hrow
      · simp [Net.aligned, hq, he]
      · simp [Net.aligned, hq, hrow]
    | false => simp [Net.aligned, hq, hans]
  | rrep r => simp [Net.aligned, hq]
  | payload l => simp [Net.aligned, hq]

/-- Every frame along a run carries the address of its interface if and only if every step is
aligned. -/
theorem own_mac_iff {n : ℕ} (T : Topology n) (s₀ s : Net n) (as : List (Action n))
    (h₀ : s₀.Initial) (hr : Run (Net.step T) (fun _ _ => True) s₀ as s) :
    Along (Net.step T) (OwnMac T) s₀ as ↔
      Run (Net.step T) (fun s a => True ∧ Aligned T s a) s₀ as s := by
  refine hr.along_iff (Wired T) (OwnMac T) (fun s t a h _ hs => wired_step h hs) ?_
    (wired_initial T h₀) (by simp [OwnMac, h₀.2])
  intro s t a hw hown _ hs
  constructor
  · intro ht
    cases a with
    | deliver k =>
      obtain ⟨p, hp, rfl⟩ := Option.map_eq_some_iff.mp hs
      intro p' hp'
      rw [hp] at hp'
      cases hp'
      exact aligned_of_own_mac hw hown hp ht
    | app x m => trivial
    | duplicate k => trivial
    | lose k => trivial
  · intro hal
    exact ownMac_step hown hal hs

theorem next_hops_on_lan_line :
    (lineState.row (vm 2) (vm 0)).outgoingIf ≠ 0 ∧ NextHopsOnLan line lineState :=
  ⟨by decide, (next_hops_on_lan line (.started 3) lineState lineRun (Net.started_initial 3)
    (.of_runnable (by decide) (.started 3))).1⟩

def triangle : Topology 3 := .ofLans ![[0, 1], [0, 2], [1, 2]]

/-- Node 0 asks for node 1 twice. The first RREP and the first RREQ to node 2 are lost; the
second RREQ reaches node 1 by way of node 2 first. -/
def detour : List (Action 3) :=
  [.app (vm 0) ⟨"240411c", some (vm 1), 5000, "hi", 0⟩, .deliver 0, .lose 0, .lose 0,
    .app (vm 0) ⟨"240411c", some (vm 1), 5000, "hi", 0⟩, .deliver 1, .deliver 1, .deliver 1]

def detourEnd : Net 3 := (exec (Net.step triangle) (.started 3) detour).getD (.started 3)

/-- The RREP leaves node 1 on its second interface with the address of the first, and node 2
stores that address as a next hop on a LAN that it is not attached to. -/
theorem next_hop_off_lan :
    Run (Net.step triangle) (fun _ _ => True) (.started 3) detour detourEnd ∧
      (detourEnd.row (vm 2) (vm 1)).outgoingIf = 4 ∧
      (detourEnd.row (vm 2) (vm 1)).nextHop = triangle.mac (vm 1) 0 ∧
      ¬ NextHopsOnLan triangle detourEnd := by
  have hout : (detourEnd.row (vm 2) (vm 1)).outgoingIf = 4 := by decide
  have hnext : (detourEnd.row (vm 2) (vm 1)).nextHop = triangle.mac (vm 1) 0 := by decide
  refine ⟨.of_runnable (by decide) (.started 3), hout, hnext, ?_⟩
  intro h
  obtain ⟨y, j, hj, hl, hm⟩ := h (vm 2) (vm 1) (by rw [hout]; decide)
  rw [hnext] at hm
  obtain ⟨rfl, rfl⟩ := triangle.mac_inj _ _ _ _ (by decide) hj hm
  rw [hout] at hl
  revert hl
  decide

end NetLab.Odr
