import NetLab.Odr.NextHop

/-! Which replies a network can hold. A ledger of the RREQs that nodes broadcast for their clients
stands beside the network; every RREQ on its way is a copy of one of them, and every RREP answers
one. -/
namespace NetLab.Odr
open NetLab.Lib

def Message.rreq? {n : ℕ} : Message n → Option (Rreq n)
  | .rreq q => some q
  | _ => none

def Out.rreq? {n : ℕ} : Out n → Option (Rreq n)
  | .send _ f => f.body.rreq?
  | _ => none

/-- The RREQ as its source sent it: the two fields that relays write are reset. -/
def Rreq.original {n : ℕ} (q : Rreq n) : Rreq n := { q with hopCnt := 0, rrepSent := false }

/-- A RREP that some node made of the RREQ `q`. -/
structure Rrep.Answers {n : ℕ} (T : Topology n) (r : Rrep n) (q : Rreq n) : Prop where
  src : r.srcAddr = q.dstAddr
  dst : r.dstAddr = q.srcAddr
  port : ∃ z, r.dstPort = (T.order z).htonl q.srcPort
  discovery : r.discovery = true → q.discovery = true

structure Inquiry (n : ℕ) where
  net : Net n
  /-- The RREQs that left their source, one entry for each interface. -/
  asked : List (Rreq n)

def Inquiry.start {n : ℕ} (s : Net n) : Inquiry n := ⟨s, []⟩

def Net.asks {n : ℕ} (T : Topology n) (s : Net n) (x : Fin n) (m : LocalMsg n) : List (Rreq n) :=
  (onLocal (T.host x) (s.node x) m).2.filterMap Out.rreq?

def Inquiry.step {n : ℕ} (T : Topology n) (y : Inquiry n) (a : Action n) : Option (Inquiry n) :=
  (y.net.step T a).map fun net => match a with
    | .app x m => ⟨net, y.asked ++ y.net.asks T x m⟩
    | _ => ⟨net, y.asked⟩

section
variable {n : ℕ} {h : Host n} {nd : Node n} {m : LocalMsg n}

/-- A local datagram makes its node flood a RREQ with the next number, or send none. -/
theorem onLocal_asks (h : Host n) (nd : Node n) (m : LocalMsg n) :
    ((onLocal h nd m).2.filterMap Out.rreq? = [] ∧
      (onLocal h nd m).1.broadcastId = nd.broadcastId) ∨
    ∃ q : Rreq n, (onLocal h nd m).2 = flood h none q ∧ q.srcAddr = h.node ∧
      q.broadcastId = nd.broadcastId + 1 ∧ q.original = q ∧
      (onLocal h nd m).1.broadcastId = nd.broadcastId + 1 := by
  have hsend : ∀ (t : Fin n → RoutingEntry) (l : Payload n),
      [sendTo h t m.dstAddr (.payload l)].filterMap Out.rreq? = [] := by
    intro t l
    unfold sendTo sendVia
    cases m.dstAddr with
    | none => rfl
    | some d =>
      dsimp only
      split_ifs
      · rfl
      · rfl
  have hreq : ∀ (nd' : Node n) (e : PortEntry), nd'.broadcastId = nd.broadcastId →
      ((onRequest h nd' e m).2.filterMap Out.rreq? = [] ∧
        (onRequest h nd' e m).1.broadcastId = nd.broadcastId) ∨
      ∃ q : Rreq n, (onRequest h nd' e m).2 = flood h none q ∧ q.srcAddr = h.node ∧
        q.broadcastId = nd.broadcastId + 1 ∧ q.original = q ∧
        (onRequest h nd' e m).1.broadcastId = nd.broadcastId + 1 := by
    intro nd' e hid
    unfold onRequest
    split_ifs
    · exact .inl ⟨hsend _ _, hid⟩
    · exact .inr ⟨_, rfl, rfl, congrArg (· + 1) hid, rfl, congrArg (· + 1) hid⟩
  unfold onLocal
  dsimp only
  split
  · exact .inl ⟨hsend _ _, rfl⟩
  · exact hreq _ _ rfl
  · exact hreq _ _ rfl

theorem mem_flood_rreq {q q' : Rreq n} {skip : Option ℕ}
    (hq : q ∈ (flood h skip q').filterMap Out.rreq?) : q = q' := by
  obtain ⟨o, ho, hrreq⟩ := List.mem_filterMap.mp hq
  obtain ⟨i, _, rfl⟩ := List.mem_map.mp ho
  exact (Option.some.inj hrreq).symm

theorem onLocal_asked {q : Rreq n} (hq : q ∈ (onLocal h nd m).2.filterMap Out.rreq?) :
    q.srcAddr = h.node ∧ q.broadcastId = nd.broadcastId + 1 ∧ q.original = q ∧
      (onLocal h nd m).1.broadcastId = nd.broadcastId + 1 := by
  rcases onLocal_asks h nd m with ⟨hnone, _⟩ | ⟨q', hout, hsrc, hid, horig, hnode⟩
  · rw [hnone] at hq
    cases hq
  · rw [hout] at hq
    obtain rfl := mem_flood_rreq hq
    exact ⟨hsrc, hid, horig, hnode⟩

theorem onLocal_asked_eq {q q' : Rreq n} (hq : q ∈ (onLocal h nd m).2.filterMap Out.rreq?)
    (hq' : q' ∈ (onLocal h nd m).2.filterMap Out.rreq?) : q = q' := by
  rcases onLocal_asks h nd m with ⟨hnone, _⟩ | ⟨q₀, hout, _⟩
  · rw [hnone] at hq
    cases hq
  · rw [hout] at hq hq'
    exact (mem_flood_rreq hq).trans (mem_flood_rreq hq').symm

theorem onLocal_counts (h : Host n) (nd : Node n) (m : LocalMsg n) :
    nd.broadcastId ≤ (onLocal h nd m).1.broadcastId := by
  rcases onLocal_asks h nd m with ⟨_, hid⟩ | ⟨_, _, _, _, _, hid⟩
  · exact hid.ge
  · omega

theorem onFrame_counter (h : Host n) (nd : Node n) (index : ℕ) (f : Frame n) :
    (onFrame h nd index f).1.broadcastId = nd.broadcastId := by
  unfold onFrame
  cases f.body with
  | rreq q =>
    dsimp only
    rw [onRreq_node]
  | rrep r =>
    dsimp only [onRrep]
    split_ifs
    · rfl
    · rfl
  | payload l =>
    dsimp only [onPayload]
    split_ifs
    · rfl
    · rfl

theorem onFrame_rreq {index i : ℕ} {f g : Frame n} {q : Rreq n}
    (hs : .send i g ∈ (onFrame h nd index f).2) (hq : g.body = .rreq q) :
    ∃ q', f.body = .rreq q' ∧ q.original = q'.original := by
  cases onFrame_sends hs with
  | @flood q' _ sent hf =>
    cases hq
    exact ⟨q', hf, rfl⟩
  | answer => cases hq
  | relay hf => exact absurd hq (Message.relayed_ne_rreq hf q)

/-- A RREP that a handler sends answers the RREQ that it received, or is the RREP that it
received. -/
theorem onFrame_rrep {index i : ℕ} {f g : Frame n} {r : Rrep n}
    (hs : .send i g ∈ (onFrame h nd index f).2) (hr : g.body = .rrep r) :
    (∃ q, f.body = .rreq q ∧ r.srcAddr = q.dstAddr ∧ r.dstAddr = q.srcAddr ∧
      r.dstPort = h.order.htonl q.srcPort ∧ (r.discovery = true → q.discovery = true)) ∨
    ∃ r', f.body = .rrep r' ∧ r = { r' with hopCnt := r'.hopCnt + 1 } := by
  have hsend := onFrame_sends hs
  cases hsend with
  | flood => cases hr
  | @answer q r' hf _ _ hsrc hdst hwho =>
    cases hr
    have hport : r.dstPort = h.order.htonl q.srcPort := by
      unfold onFrame at hs
      rw [hf] at hs
      exact (mem_onRreq_rrep rfl hs).2.2
    refine .inl ⟨q, hf, hsrc, hdst, hport, ?_⟩
    intro hdisc
    rcases hwho with ⟨_, _, hd⟩ | ⟨_, _, _, _, hd⟩
    · rw [← hd]
      exact hdisc
    · rw [hd] at hdisc
      cases hdisc
  | relay =>
    exact .inr (Message.relayed_rrep hr)

end

section
variable {n : ℕ} {T : Topology n} {y z : Inquiry n} {a : Action n}

theorem Inquiry.step_cases (h : y.step T a = some z) :
    (∃ x m, z = ⟨y.net.act T x (onLocal (T.host x) (y.net.node x) m),
      y.asked ++ y.net.asks T x m⟩) ∨
    (∃ k p, y.net.inFlight[k]? = some p ∧
      z = ⟨(y.net.drop k).act T p.dst (y.net.receive T p), y.asked⟩) ∨
    (z.asked = y.asked ∧ z.net.node = y.net.node ∧ ∀ p ∈ z.net.inFlight, p ∈ y.net.inFlight) := by
  obtain ⟨net, hnet, rfl⟩ := Option.map_eq_some_iff.mp h
  rcases Net.step_cases hnet with ⟨x, m, rfl, rfl⟩ | ⟨k, p, rfl, hp, rfl⟩ | ⟨happ, hn, hf⟩
  · exact .inl ⟨x, m, rfl⟩
  · exact .inr (.inl ⟨k, p, hp, rfl⟩)
  · cases a with
    | app x m => exact absurd rfl (happ x m)
    | deliver k => exact .inr (.inr ⟨rfl, hn, hf⟩)
    | duplicate k => exact .inr (.inr ⟨rfl, hn, hf⟩)
    | lose k => exact .inr (.inr ⟨rfl, hn, hf⟩)

/-- Every node numbers its RREQs apart, and every RREQ and RREP in flight goes back to one. -/
structure Solicited (T : Topology n) (y : Inquiry n) : Prop where
  counted : ∀ q ∈ y.asked, q.broadcastId ≤ (y.net.node q.srcAddr).broadcastId
  apart : ∀ q ∈ y.asked, ∀ q' ∈ y.asked, q.srcAddr = q'.srcAddr →
    q.broadcastId = q'.broadcastId → q = q'
  rreq : ∀ p ∈ y.net.inFlight, ∀ q, p.frame.body = .rreq q → q.original ∈ y.asked
  rrep : ∀ p ∈ y.net.inFlight, ∀ r, p.frame.body = .rrep r → ∃ q ∈ y.asked, r.Answers T q

theorem solicited_start {s : Net n} (h : s.Initial) : Solicited T (.start s) where
  counted := by simp [Inquiry.start]
  apart := by simp [Inquiry.start]
  rreq := by simp [Inquiry.start, h.2]
  rrep := by simp [Inquiry.start, h.2]

theorem Solicited.app (h : Solicited T y) (x : Fin n) (m : LocalMsg n) :
    Solicited T ⟨y.net.act T x (onLocal (T.host x) (y.net.node x) m),
      y.asked ++ y.net.asks T x m⟩ where
  counted := by
    intro q hq
    have hid : ∀ w, (y.net.node w).broadcastId ≤ ((y.net.act T x
        (onLocal (T.host x) (y.net.node x) m)).node w).broadcastId := by
      intro w
      by_cases hw : w = x
      · rw [hw, Net.act_node_self]
        exact onLocal_counts _ _ _
      · rw [Net.act_node_of_ne T _ hw]
    rcases List.mem_append.mp hq with hq | hq
    · exact (h.counted q hq).trans (hid _)
    · obtain ⟨hsrc, hnum, _, hnode⟩ := onLocal_asked hq
      have hx : q.srcAddr = x := hsrc
      dsimp only
      rw [hx, Net.act_node_self, hnode]
      exact hnum.le
  apart := by
    -- a RREQ asked before carries a smaller number than the one asked now
    have hold : ∀ q ∈ y.asked, ∀ q' ∈ y.net.asks T x m, q.srcAddr = q'.srcAddr →
        q.broadcastId ≠ q'.broadcastId := by
      intro q hq q' hq' hsrc
      obtain ⟨hsrc', hnum, _⟩ := onLocal_asked hq'
      have hcount := h.counted q hq
      have hx : q.srcAddr = x := hsrc.trans hsrc'
      rw [hx] at hcount
      omega
    intro q hq q' hq' hsrc hid
    rcases List.mem_append.mp hq with hq | hq
    · rcases List.mem_append.mp hq' with hq' | hq'
      · exact h.apart q hq q' hq' hsrc hid
      · exact absurd hid (hold q hq q' hq' hsrc)
    · rcases List.mem_append.mp hq' with hq' | hq'
      · exact absurd hid.symm (hold q' hq' q hq hsrc.symm)
      · exact onLocal_asked_eq hq hq'
  rreq := by
    intro p hp q hq
    rcases mem_act_cases hp with hp | ⟨hs, _⟩
    · exact List.mem_append_left _ (h.rreq p hp q hq)
    · have hasked : q ∈ y.net.asks T x m :=
        List.mem_filterMap.mpr ⟨_, hs, by simp [Out.rreq?, hq, Message.rreq?]⟩
      rw [(onLocal_asked hasked).2.2.1]
      exact List.mem_append_right _ hasked
  rrep := by
    intro p hp r hr
    rcases mem_act_cases hp with hp | ⟨hs, _⟩
    · obtain ⟨q, hq, hans⟩ := h.rrep p hp r hr
      exact ⟨q, List.mem_append_left _ hq, hans⟩
    · generalize p.srcIf = i at hs
      generalize p.frame = g at hs hr
      cases onLocal_originates hs with
      | request => cases hr
      | payload => cases hr

theorem Solicited.deliver (h : Solicited T y) {k : ℕ} {p : Packet n}
    (hp : y.net.inFlight[k]? = some p) :
    Solicited T ⟨(y.net.drop k).act T p.dst (y.net.receive T p), y.asked⟩ where
  counted := by
    intro q hq
    have hid : (((y.net.drop k).act T p.dst (y.net.receive T p)).node q.srcAddr).broadcastId =
        (y.net.node q.srcAddr).broadcastId := by
      by_cases hw : q.srcAddr = p.dst
      · rw [hw, Net.act_node_self]
        exact onFrame_counter _ _ _ _
      · rw [Net.act_node_of_ne T _ hw]
        rfl
    dsimp only
    rw [hid]
    exact h.counted q hq
  apart := h.apart
  rreq := by
    intro p' hp' q hq
    rcases mem_act_cases hp' with hp' | ⟨hs, _⟩
    · exact h.rreq p' (Net.mem_of_mem_drop hp') q hq
    · obtain ⟨q', hq', horig⟩ := onFrame_rreq hs hq
      rw [horig]
      exact h.rreq p (List.mem_of_getElem? hp) q' hq'
  rrep := by
    intro p' hp' r hr
    rcases mem_act_cases hp' with hp' | ⟨hs, _⟩
    · exact h.rrep p' (Net.mem_of_mem_drop hp') r hr
    · have hmem := List.mem_of_getElem? hp
      rcases onFrame_rrep hs hr with ⟨q, hq, hsrc, hdst, hport, hdisc⟩ | ⟨r', hr', rfl⟩
      · exact ⟨q.original, h.rreq p hmem q hq, hsrc, hdst, ⟨p.dst, hport⟩, hdisc⟩
      · obtain ⟨q, hq, hans⟩ := h.rrep p hmem r' hr'
        exact ⟨q, hq, hans.src, hans.dst, hans.port, hans.discovery⟩

theorem solicited_step (h : Solicited T y) (hs : y.step T a = some z) : Solicited T z := by
  rcases Inquiry.step_cases hs with ⟨x, m, rfl⟩ | ⟨k, p, hp, rfl⟩ | ⟨hasked, hn, hf⟩
  · exact h.app x m
  · exact h.deliver hp
  · refine ⟨?_, ?_, ?_, ?_⟩
    · rw [hasked, hn]
      exact h.counted
    · rw [hasked]
      exact h.apart
    · rw [hasked]
      exact fun p hp => h.rreq p (hf p hp)
    · rw [hasked]
      exact fun p hp => h.rrep p (hf p hp)

theorem receive_notifies {s : Net n} {p : Packet n} {r : Rrep n} (hr : p.frame.body = .rrep r)
    {path : String} {d : AppData n} (ho : .toLocal path d ∈ (s.receive T p).2) :
    r.dstAddr = p.dst ∧ d.srcAddr = r.srcAddr := by
  unfold Net.receive onFrame at ho
  rw [hr] at ho
  dsimp only [onRrep] at ho
  split_ifs at ho with hd
  · cases List.mem_singleton.mp ho
    exact ⟨hd, rfl⟩
  · unfold sendVia at ho
    split_ifs at ho
    · cases List.mem_singleton.mp ho
    · cases List.mem_singleton.mp ho

/-- Whatever the network loses, repeats and reorders: the source and the broadcast id of a RREQ
determine the request, every RREP answers a RREQ that its addressee broadcast, and a client is
only told of a route to an address that its node asked for. -/
theorem replies_solicited {n : ℕ} (T : Topology n) (s₀ : Net n) (y : Inquiry n)
    (as : List (Action n)) (h₀ : s₀.Initial)
    (hr : Run (Inquiry.step T) (fun _ _ => True) (.start s₀) as y) :
    (∀ p ∈ y.net.inFlight, ∀ p' ∈ y.net.inFlight, ∀ q q', p.frame.body = .rreq q →
      p'.frame.body = .rreq q' → q.srcAddr = q'.srcAddr → q.broadcastId = q'.broadcastId →
      q.original = q'.original) ∧
    ∀ p ∈ y.net.inFlight, ∀ r, p.frame.body = .rrep r → (∃ q ∈ y.asked, r.Answers T q) ∧
      ∀ path d, .toLocal path d ∈ (y.net.receive T p).2 →
        ∃ q ∈ y.asked, q.srcAddr = p.dst ∧ q.dstAddr = d.srcAddr := by
  have h : Solicited T y := hr.invariant (Solicited T)
    (fun _ _ _ h _ hs => solicited_step h hs) (solicited_start h₀)
  constructor
  · intro p hp p' hp' q q' hq hq' hsrc hid
    exact h.apart _ (h.rreq p hp q hq) _ (h.rreq p' hp' q' hq') hsrc hid
  · intro p hp r hr
    obtain ⟨q, hq, hans⟩ := h.rrep p hp r hr
    refine ⟨⟨q, hq, hans⟩, ?_⟩
    intro path d ho
    obtain ⟨hdst, hsrc⟩ := receive_notifies hr ho
    exact ⟨q, hq, by rw [← hans.dst, hdst], by rw [hsrc, hans.src]⟩

def lineInquired : Inquiry 3 :=
  (exec (Inquiry.step line) (.start (.started 3)) lineRun).getD (.start (.started 3))

theorem replies_solicited_line : lineReply ∈ lineInquired.net.inFlight ∧
    ∃ q ∈ lineInquired.asked, (⟨some 2, 0, 6000, 0, false⟩ : Rrep 3).Answers line q := by
  have hmem : lineReply ∈ lineInquired.net.inFlight := by decide
  have hr : Run (Inquiry.step line) (fun _ _ => True) (.start (.started 3)) lineRun lineInquired :=
    .of_runnable (by decide) (.start (.started 3))
  exact ⟨hmem, ((replies_solicited line (.started 3) lineInquired lineRun (Net.started_initial 3)
    hr).2 lineReply hmem _ rfl).1⟩

end

end NetLab.Odr
