import NetLab.Lib.Run
import NetLab.Tour.Process

/-! When the last node of a tour announces its end. One node is fed with source route packets and with
what happens to its process, in any order, and no multicast text reaches it. -/
namespace NetLab.Tour

open Lib

/-- A node, whether it has sent the end of the tour, and how often it has executed `sig_alrm`. -/
structure Visit where
  node : TourNode
  sent : Bool
  executed : ℕ
  deriving DecidableEq, Repr

inductive VisitEvent where
  | route (packet : IpPacket)
  | own (e : OwnEvent)
  deriving DecidableEq, Repr

def TourOut.isEnd : TourOut → Bool
  | .multicast (.tourEnded _) => true
  | _ => false

/-- How often an event executes `sig_alrm`: a new predecessor is pinged at once. -/
def TourNode.executions (s : TourNode) : OwnEvent → ℕ
  | .alarm => 1
  | .interrupted => 1
  | .answered => match s.areq with
    | .waiting srcIp => if s.pings.any fun p => p.addr == srcIp then 0 else 1
    | _ => 0
  | _ => 0

def Visit.after (s : Visit) (executions : ℕ) (r : TourNode × List TourOut) : Visit :=
  ⟨r.1, s.sent || r.2.any TourOut.isEnd, s.executed + executions⟩

def Visit.step (o : ByteOrder) (k : Fin 10) (s : Visit) : VisitEvent → Option Visit
  | .route p =>
    if s.node.listening = true then (onRoute o k s.node p).map (s.after 0) else none
  | .own e =>
    if s.node.running = true then (s.node.own k e).map (s.after (s.node.executions e)) else none

def Visit.start (visited : Bool) : Visit := ⟨{ TourNode.boot with visited := visited }, false, 0⟩

/-- `ping_cnt[0]`, which is static. -/
def TourNode.pingCnt (s : TourNode) : ℕ := (s.pings.head?.map Ping.cnt).getD 0

/-- The node is the last one, and has not sent the end of the tour yet. -/
def Visit.Owes (s : Visit) : Prop := s.node.lastNode = true ∧ s.sent = false

/-- A last node that did not send the end of the tour yet can do so without another packet, and
whatever comes, six further executions of `sig_alrm` do. -/
def Visit.Ends (o : ByteOrder) (k : Fin 10) (s : Visit) : Prop :=
  s.Owes → s.node.pingCnt ≤ 5 ∧
    (∃ (es : List OwnEvent) (t : Visit), Run (Visit.step o k) (fun _ _ => True) s (es.map .own) t ∧
      t.sent = true ∧ t.executed ≤ s.executed + 6) ∧
    ∀ es t, Run (Visit.step o k) (fun _ _ => True) s es t → s.executed + 6 ≤ t.executed → t.sent = true

/-- The packet makes the node that gets it the last one. -/
def EndsTour (o : ByteOrder) (p : IpPacket) : Prop :=
  p.iphdr.id = 0x2404 ∧ (ntop p.iphdr.src).length < 15 ∧
    (slice p.payload 12 4).map o.ofBytes = (slice p.payload 16 4).map o.ofBytes

/-- The address that a relay takes out of the payload. -/
def nextAddr (o : ByteOrder) (payload : List UInt8) : Option InAddr := do
  let offset ← (slice payload 12 4).map o.ofBytes
  let dstIp ← (slice (blit payload 12 (o.bytes (offset + 1))) ((offset + 1) * 15 + 5) 15).bind cText
  pton dstIp

/-- A node that gets the packet exits: it cannot print the source, or cannot read the next address. -/
def Rejected (o : ByteOrder) (p : IpPacket) : Prop :=
  p.iphdr.id = 0x2404 ∧ (15 ≤ (ntop p.iphdr.src).length ∨
    (slice p.payload 12 4).map o.ofBytes ≠ (slice p.payload 16 4).map o.ofBytes ∧
      nextAddr o p.payload = none)

/-- A node becomes the last one before it has pinged its first predecessor more than five times, and
a last node does not exit or wait for ever before it has announced the end, other than in the very
alarm that announces it. -/
def VisitEvent.Spares (o : ByteOrder) (s : Visit) : VisitEvent → Prop
  | .route p => (EndsTour o p → s.node.lastNode = false → s.node.pingCnt ≤ 5) ∧ (Rejected o p → ¬ s.Owes)
  | .own .interrupted => s.Owes → s.node.pingCnt = 5
  | .own .lost => s.Owes → s.node.pingCnt = 5
  | .own .failed => ¬ s.Owes
  | .own _ => True

instance (o : ByteOrder) (p : IpPacket) : Decidable (EndsTour o p) :=
  inferInstanceAs (Decidable (_ ∧ _ ∧ _))

instance (o : ByteOrder) (p : IpPacket) : Decidable (Rejected o p) :=
  inferInstanceAs (Decidable (_ ∧ (_ ∨ (_ ∧ _))))

instance (s : Visit) : Decidable s.Owes := inferInstanceAs (Decidable (_ ∧ _))

instance (o : ByteOrder) (s : Visit) (e : VisitEvent) : Decidable (e.Spares o s) :=
  match e with
  | .route p => inferInstanceAs (Decidable ((EndsTour o p → _ → _) ∧ (Rejected o p → ¬ s.Owes)))
  | .own .alarm => .isTrue trivial
  | .own .answered => .isTrue trivial
  | .own .interrupted => inferInstanceAs (Decidable (s.Owes → _))
  | .own .lost => inferInstanceAs (Decidable (s.Owes → _))
  | .own .failed => inferInstanceAs (Decidable (¬ s.Owes))

/-- What holds of the node as long as no multicast text reaches it. -/
structure Pinging (s : Visit) : Prop where
  option : s.node.option = false
  sent : s.sent = true → s.node.lastNode = true
  pings : s.node.lastNode = true → s.node.areq = .idle → s.node.running = true → s.node.pings ≠ []
  armed : s.node.alarm = true → s.node.pings ≠ []
  alarm : s.node.running = true → s.node.pings ≠ [] → s.sent = false → s.node.alarm = true

/-- What a step can do: it takes a packet or not, it leaves the counters alone, or it executes
`sig_alrm`. -/
inductive Visit.Does (o : ByteOrder) (k : Fin 10) (s : Visit) : VisitEvent → Visit → Prop
  | ignores {p : IpPacket} (ends : ¬ EndsTour o p) (sent : ¬ Rejected o p) : Does o k s (.route p) s
  | rejects {p : IpPacket} {n : TourNode} (rejected : Rejected o p) (ends : ¬ EndsTour o p)
      (option : n.option = s.node.option) (pings : n.pings = s.node.pings)
      (alarm : n.alarm = s.node.alarm) (last : n.lastNode = s.node.lastNode)
      (exited : n.running = false) : Does o k s (.route p) { s with node := n }
  | asks {p : IpPacket} {srcIp : List UInt8} (sent : ¬ Rejected o p) :
      Does o k s (.route p) { s with node := { s.node with
        visited := true, lastNode := s.node.lastNode || decide (EndsTour o p), areq := .waiting srcIp } }
  | knows (pings : s.node.pings ≠ []) :
      Does o k s (.own .answered) { s with node := { s.node with areq := .idle } }
  | loses : Does o k s (.own .lost) { s with node := { s.node with areq := .lost } }
  | fails : Does o k s (.own .failed) { s with node := s.node.exit }
  | executes {e : OwnEvent} {n : TourNode} (option : n.option = s.node.option)
      (cnt : n.pingCnt = s.node.pingCnt) (pings : n.pings ≠ [])
      (last : n.lastNode = s.node.lastNode) (stays : (sigAlrm k n).1.running = true)
      (areq : (sigAlrm k n).1.areq = .lost → s.node.areq = .lost) (calm : e ≠ .lost ∧ e ≠ .failed)
      (caught : s.node.areq = .lost → e = .interrupted) :
      Does o k s (.own e) (s.after 1
        (if e = .interrupted then (sigAlrm k n).1.exit else (sigAlrm k n).1, (sigAlrm k n).2))

section
variable {o : ByteOrder} {k : Fin 10} {s t : TourNode} {out : List TourOut}

@[simp] theorem pingCnt_ping (s : TourNode) (addr : List UInt8) :
    (s.ping addr).pingCnt = s.pingCnt := by
  unfold TourNode.pingCnt TourNode.ping
  cases s.pings <;> rfl

theorem sigAlrm_cases (hoption : s.option = false) :
    (s.pingCnt = 5 ∧ s.lastNode = true ∧ sigAlrm k s = (s, [.multicast (.tourEnded (k + 1))])) ∨
      (¬ (s.pingCnt = 5 ∧ s.lastNode = true) ∧ sigAlrm k s =
        ({ s with pings := s.pings.map fun p => { p with cnt := p.cnt + 1 }, alarm := true }, [])) := by
  unfold sigAlrm
  rw [if_pos hoption]
  by_cases hend : s.pingCnt = 5 ∧ s.lastNode = true
  · exact .inl ⟨hend.1, hend.2, if_pos hend⟩
  · exact .inr ⟨hend, if_neg hend⟩

theorem pingCnt_counted (hpings : s.pings ≠ []) (alarm : Bool) :
    ({ s with pings := s.pings.map fun p => { p with cnt := p.cnt + 1 }, alarm := alarm } :
      TourNode).pingCnt = s.pingCnt + 1 := by
  unfold TourNode.pingCnt
  cases hp : s.pings with
  | nil => exact absurd hp hpings
  | cons p ps => rfl

/-- The relay tells the last node, and nothing else, that it is the last one, and exits if it cannot
read the next address. -/
theorem relay_cases {payload : List UInt8} (h : relay o k s payload = some (t, out)) :
    ((slice payload 12 4).map o.ofBytes = (slice payload 16 4).map o.ofBytes ∧
        t = { s with lastNode := true } ∧ out = []) ∨
      ((slice payload 12 4).map o.ofBytes ≠ (slice payload 16 4).map o.ofBytes ∧
        out.any TourOut.isEnd = false ∧
        ((t = s ∧ nextAddr o payload ≠ none) ∨ (t = s.exit ∧ nextAddr o payload = none))) := by
  unfold relay at h
  unfold nextAddr
  obtain ⟨offset, hoffset, h⟩ := Option.bind_eq_some_iff.mp h
  obtain ⟨total, htotal, h⟩ := Option.bind_eq_some_iff.mp h
  rw [hoffset, htotal]
  by_cases heq : offset = total
  · rw [if_pos heq] at h
    cases h
    exact .inl ⟨congrArg some heq, rfl, rfl⟩
  · rw [if_neg heq] at h
    obtain ⟨dstIp, hdst, h⟩ := Option.bind_eq_some_iff.mp h
    simp only [Option.bind_eq_bind, Option.bind_some, hdst]
    rw [pton_vmAddr] at h
    refine .inr ⟨fun hsome => heq (Option.some.inj hsome), ?_⟩
    cases hpton : pton dstIp with
    | some dst =>
      rw [hpton] at h
      cases h
      exact ⟨rfl, .inl ⟨rfl, Option.some_ne_none dst⟩⟩
    | none =>
      rw [hpton] at h
      cases h
      exact ⟨rfl, .inr ⟨rfl, rfl⟩⟩

theorem own_answered {srcIp : List UInt8} (hareq : s.areq = .waiting srcIp) :
    s.own k .answered = startPing k { s with areq := .idle } srcIp := by
  unfold TourNode.own
  rw [hareq]

theorem startPing_cases {srcIp : List UInt8} (h : startPing k s srcIp = some (t, out)) :
    ((s.pings.any fun p => p.addr == srcIp) = true ∧ t = s ∧ out = []) ∨
      ((s.pings.any fun p => p.addr == srcIp) = false ∧ (t, out) = sigAlrm k (s.ping srcIp)) := by
  unfold startPing at h
  split_ifs at h with hold
  · cases h
    exact .inl ⟨hold, rfl, rfl⟩
  · exact .inr ⟨Bool.eq_false_of_not_eq_true hold, (Option.some.inj h).symm⟩

end

section
variable {o : ByteOrder} {k : Fin 10} {s t : Visit}

theorem Visit.after_quiet {n : TourNode} {out : List TourOut} (h : out.any TourOut.isEnd = false) :
    s.after 0 (n, out) = { s with node := n } := by
  unfold Visit.after
  rw [h, Bool.or_false, Nat.add_zero]

theorem Visit.does_route {p : IpPacket} {n : TourNode} {out : List TourOut}
    (hrun : s.node.running = true) (h : onRoute o k s.node p = some (n, out)) :
    Visit.Does o k s (.route p) (s.after 0 (n, out)) := by
  unfold onRoute at h
  by_cases hid : p.iphdr.id = 0x2404
  · rw [if_neg (not_not.mpr hid)] at h
    dsimp only at h
    by_cases hlen : 15 ≤ (ntop p.iphdr.src).length
    · rw [if_pos hlen] at h
      cases h
      rw [Visit.after_quiet rfl]
      exact .rejects ⟨hid, .inl hlen⟩ (fun hends => absurd hends.2.1 (Nat.not_lt.mpr hlen)) rfl rfl rfl
        rfl rfl
    · rw [if_neg hlen] at h
      obtain ⟨⟨m, out'⟩, hrelay, h⟩ := Option.map_eq_some_iff.mp h
      cases h
      have hasks (hsent : ¬ Rejected o p) : Visit.Does o k s (.route p) { s with node := { s.node with
          visited := true, lastNode := s.node.lastNode || decide (EndsTour o p),
          areq := .waiting (ntop p.iphdr.src) } } := .asks hsent
      rcases relay_cases hrelay with ⟨heq, rfl, rfl⟩ | ⟨hne, hout, hm⟩
      · have hends : EndsTour o p := ⟨hid, Nat.lt_of_not_le hlen, heq⟩
        have hsent : ¬ Rejected o p := by
          rintro ⟨_, hshort | ⟨hne, _⟩⟩
          · exact hlen hshort
          · exact hne heq
        have hlast := hasks hsent
        rw [decide_eq_true hends, Bool.or_true] at hlast
        rw [if_pos hrun, Visit.after_quiet rfl]
        exact hlast
      · have hends : ¬ EndsTour o p := fun hends => hne hends.2.2
        rw [Visit.after_quiet hout]
        rcases hm with ⟨rfl, haddr⟩ | ⟨rfl, haddr⟩
        · have hsent : ¬ Rejected o p := by
            rintro ⟨_, hshort | ⟨_, hnone⟩⟩
            · exact hlen hshort
            · exact haddr hnone
          have hrelayed := hasks hsent
          rw [decide_eq_false hends, Bool.or_false] at hrelayed
          rw [if_pos hrun]
          exact hrelayed
        · have hexit : (TourNode.exit { s.node with visited := true }).running = false := rfl
          rw [if_neg (by rw [hexit]; exact Bool.false_ne_true)]
          exact .rejects ⟨hid, .inr ⟨hne, haddr⟩⟩ hends rfl rfl rfl rfl rfl
  · rw [if_pos hid] at h
    cases h
    rw [Visit.after_quiet rfl]
    exact .ignores (fun hends => hid hends.1) fun hrejected => hid hrejected.1

theorem sigAlrm_keeps {n : TourNode} (hoption : n.option = false) :
    (sigAlrm k n).1.running = n.running ∧ (sigAlrm k n).1.areq = n.areq := by
  rcases sigAlrm_cases (k := k) hoption with ⟨_, _, heq⟩ | ⟨_, heq⟩ <;>
  rw [heq] <;>
  exact ⟨rfl, rfl⟩

theorem Visit.does_own {e : OwnEvent} {r : TourNode × List TourOut} (h : Pinging s)
    (hrun : s.node.running = true) (hown : s.node.own k e = some r) :
    Visit.Does o k s (.own e) (s.after (s.node.executions e) r) := by
  have halarm : s.node.alarm = true → s.node.areq ≠ .lost ∨ e = .interrupted →
      e ≠ .lost ∧ e ≠ .failed → Visit.Does o k s (.own e) (s.after 1
        (if e = .interrupted then (onAlarm k s.node).1.exit else (onAlarm k s.node).1,
          (onAlarm k s.node).2)) := by
    intro hset hcaught hcalm
    obtain ⟨hrunning, hareq⟩ := sigAlrm_keeps (k := k) (n := { s.node with alarm := false }) h.option
    apply Visit.Does.executes (n := { s.node with alarm := false }) rfl rfl (h.armed hset) rfl
    · exact hrunning.trans hrun
    · rw [hareq]
      exact id
    · exact hcalm
    · exact fun hlost => hcaught.resolve_left fun hne => hne hlost
  unfold TourNode.own at hown
  cases e with
  | alarm =>
    obtain ⟨⟨hset, hlost⟩, hr⟩ := Option.ite_none_right_eq_some.mp hown
    obtain rfl := Option.some.inj hr
    exact halarm hset (.inl hlost) (by decide)
  | interrupted =>
    obtain ⟨⟨hset, _⟩, hr⟩ := Option.ite_none_right_eq_some.mp hown
    obtain rfl := Option.some.inj hr
    exact halarm hset (.inr rfl) (by decide)
  | answered =>
    cases hwait : s.node.areq with
    | idle => simp [hwait] at hown
    | lost => simp [hwait] at hown
    | waiting srcIp =>
      obtain ⟨n, out⟩ := r
      simp only [hwait] at hown
      unfold TourNode.executions
      rw [hwait]
      dsimp only
      rcases startPing_cases hown with ⟨hold, rfl, rfl⟩ | ⟨hnew, hr⟩
      · dsimp only at hold
        rw [if_pos hold, Visit.after_quiet rfl]
        apply Visit.Does.knows
        intro hnil
        rw [hnil] at hold
        cases hold
      · dsimp only at hnew
        obtain ⟨hrunning, hareq⟩ := sigAlrm_keeps (k := k)
          (n := TourNode.ping { s.node with areq := .idle } srcIp) h.option
        rw [hnew, hr]
        apply Visit.Does.executes (e := .answered)
          (n := TourNode.ping { s.node with areq := .idle } srcIp) rfl
        · exact pingCnt_ping _ _
        · simp [TourNode.ping]
        · rfl
        · exact hrunning.trans hrun
        · rw [hareq]
          intro hlost
          cases hlost
        · decide
        · rw [hwait]
          intro hlost
          cases hlost
  | lost =>
    cases hwait : s.node.areq with
    | idle => simp [hwait] at hown
    | lost => simp [hwait] at hown
    | waiting srcIp =>
      simp only [hwait, Option.some.injEq] at hown
      obtain rfl := hown
      have hquiet : s.after (s.node.executions .lost) ({ s.node with areq := .lost }, []) =
          { s with node := { s.node with areq := .lost } } := Visit.after_quiet rfl
      rw [hquiet]
      exact .loses
  | failed =>
    obtain ⟨_, hr⟩ := Option.ite_none_right_eq_some.mp hown
    obtain rfl := Option.some.inj hr
    have hquiet : s.after (s.node.executions .failed) (s.node.exit, []) =
        { s with node := s.node.exit } := Visit.after_quiet rfl
    rw [hquiet]
    exact .fails

theorem Visit.step_does {e : VisitEvent} (h : Pinging s) (hs : s.step o k e = some t) :
    Visit.Does o k s e t := by
  cases e with
  | route p =>
    obtain ⟨hlisten, hs⟩ := Option.ite_none_right_eq_some.mp hs
    obtain ⟨⟨n, out⟩, hroute, rfl⟩ := Option.map_eq_some_iff.mp hs
    exact Visit.does_route (Bool.and_eq_true_iff.mp hlisten).1 hroute
  | own e =>
    obtain ⟨hrun, hs⟩ := Option.ite_none_right_eq_some.mp hs
    obtain ⟨r, hown, rfl⟩ := Option.map_eq_some_iff.mp hs
    exact Visit.does_own h hrun hown

theorem pinging_step {e : VisitEvent} (h : Pinging s) (hs : s.step o k e = some t) : Pinging t := by
  cases Visit.step_does h hs with
  | ignores => exact h
  | @rejects _ n _ _ option pings alarm last exited =>
    have hexited : n.running ≠ true := by simp [exited]
    constructor
    case option => exact option.trans h.option
    case sent => exact fun hsent => last.trans (h.sent hsent)
    case pings => exact fun _ _ hrun => absurd hrun hexited
    case armed =>
      dsimp only
      rw [alarm, pings]
      exact h.armed
    case alarm => exact fun hrun => absurd hrun hexited
  | asks =>
    constructor
    case option => exact h.option
    case sent =>
      intro hsent
      simp [h.sent hsent]
    case pings =>
      intro _ hidle
      cases hidle
    case armed => exact h.armed
    case alarm => exact h.alarm
  | knows pings =>
    exact ⟨h.option, h.sent, fun _ _ _ => pings, h.armed, h.alarm⟩
  | loses =>
    constructor
    case option => exact h.option
    case sent => exact h.sent
    case pings =>
      intro _ hidle
      cases hidle
    case armed => exact h.armed
    case alarm => exact h.alarm
  | fails =>
    constructor
    case option => exact h.option
    case sent => exact h.sent
    case pings => exact fun _ _ hrun => absurd hrun Bool.false_ne_true
    case armed => exact h.armed
    case alarm => exact fun hrun => absurd hrun Bool.false_ne_true
  | @executes e n option cnt pings last =>
    have hoption : n.option = false := option.trans h.option
    rcases sigAlrm_cases (k := k) hoption with ⟨_, hlast, heq⟩ | ⟨_, heq⟩
    · rw [heq]
      split_ifs
      · exact ⟨hoption, fun _ => hlast, fun _ _ _ => pings, fun _ => pings,
          fun hrun => absurd hrun Bool.false_ne_true⟩
      · refine ⟨hoption, fun _ => hlast, fun _ _ _ => pings, fun _ => pings, ?_⟩
        intro _ _ hsent
        simp [Visit.after, TourOut.isEnd] at hsent
    · have hpings : (n.pings.map fun p => ({ p with cnt := p.cnt + 1 } : Ping)) ≠ [] := by
        simpa using pings
      have hsent : ∀ m : TourNode, (s.after 1 (m, [])).sent = true → n.lastNode = true := by
        intro m hsent
        rw [last]
        apply h.sent
        simpa [Visit.after] using hsent
      rw [heq]
      split_ifs
      · exact ⟨hoption, hsent _, fun _ _ _ => hpings, fun _ => hpings,
          fun hrun => absurd hrun Bool.false_ne_true⟩
      · exact ⟨hoption, hsent _, fun _ _ _ => hpings, fun _ => hpings, fun _ _ _ => rfl⟩

theorem executed_cases {n : TourNode} (hoption : n.option = false) (hpings : n.pings ≠ [])
    (e : OwnEvent) : (n.pingCnt = 5 ∧ n.lastNode = true ∧ ((sigAlrm k n).2.any TourOut.isEnd) = true) ∨
      (¬ (n.pingCnt = 5 ∧ n.lastNode = true) ∧ ((sigAlrm k n).2.any TourOut.isEnd) = false ∧
        (if e = .interrupted then (sigAlrm k n).1.exit else (sigAlrm k n).1).pingCnt = n.pingCnt + 1 ∧
        (if e = .interrupted then (sigAlrm k n).1.exit else (sigAlrm k n).1).lastNode = n.lastNode) := by
  rcases sigAlrm_cases (k := k) hoption with ⟨hcnt, hlast, heq⟩ | ⟨hnot, heq⟩
  · rw [heq]
    exact .inl ⟨hcnt, hlast, rfl⟩
  · rw [heq]
    refine .inr ⟨hnot, rfl, ?_, ?_⟩
    · split_ifs <;> exact pingCnt_counted hpings true
    · split_ifs <;> rfl

/-- From a last node on, every execution of `sig_alrm` counts until the announcement. -/
structure Counts (s u : Visit) : Prop where
  pinging : Pinging u
  owed : u.sent = false → u.node.lastNode = true ∧ u.node.pingCnt ≤ 5 ∧
    u.node.pingCnt + s.executed = s.node.pingCnt + u.executed

theorem Counts.step {u v : Visit} {e : VisitEvent} (h : Counts s u) (hs : u.step o k e = some v) :
    Counts s v := by
  refine ⟨pinging_step h.pinging hs, ?_⟩
  cases Visit.step_does h.pinging hs with
  | ignores => exact h.owed
  | @rejects _ n _ _ _ pings _ last _ =>
    intro hsent
    have howed := h.owed hsent
    have hcnt : n.pingCnt = u.node.pingCnt := by
      unfold TourNode.pingCnt
      rw [pings]
    dsimp only
    rw [last, hcnt]
    exact howed
  | asks =>
    intro hsent
    obtain ⟨hlast, hrest⟩ := h.owed hsent
    exact ⟨by simp [hlast], hrest⟩
  | knows => exact h.owed
  | loses => exact h.owed
  | fails => exact h.owed
  | @executes e n option cnt pings last =>
    intro hsent
    have hunsent : u.sent = false ∧ (sigAlrm k n).2.any TourOut.isEnd = false := by
      simpa [Visit.after] using hsent
    obtain ⟨hlast, hle, hsum⟩ := h.owed hunsent.1
    rcases executed_cases (k := k) (option.trans h.pinging.option) pings e with
      ⟨_, _, hend⟩ | ⟨hnot, _, hcnt, hlast'⟩
    · rw [hunsent.2] at hend
      cases hend
    · have hne : u.node.pingCnt ≠ 5 := fun hfive => hnot ⟨cnt.trans hfive, last.trans hlast⟩
      dsimp only [Visit.after]
      rw [hcnt, hlast', last, cnt]
      exact ⟨hlast, by omega, by omega⟩

/-- Nothing can make the node announce the end any more. -/
def Visit.Stuck (s : Visit) : Prop :=
  s.sent = false ∧ (s.node.running = false ∨ s.node.areq = .lost ∧ s.node.pingCnt ≠ 5)

theorem Visit.Stuck.step {e : VisitEvent} (h : s.Stuck) (hp : Pinging s) (hs : s.step o k e = some t) :
    t.Stuck := by
  obtain ⟨hsent, hrun | ⟨hlost, hcnt⟩⟩ := h
  · cases e with
    | route p => simp [Visit.step, TourNode.listening, hrun] at hs
    | own e => simp [Visit.step, hrun] at hs
  · cases e with
    | route p => simp [Visit.step, TourNode.listening, hlost] at hs
    | own e =>
      cases e with
      | alarm => simp [Visit.step, TourNode.own, hlost] at hs
      | answered => simp [Visit.step, TourNode.own, hlost] at hs
      | lost => simp [Visit.step, TourNode.own, hlost] at hs
      | interrupted =>
        cases Visit.step_does hp hs with
        | executes option cnt pings =>
          refine ⟨?_, .inl rfl⟩
          rcases executed_cases (k := k) (option.trans hp.option) pings .interrupted with
            ⟨hfive, _⟩ | ⟨_, hend, _⟩
          · exact absurd (cnt.symm.trans hfive) hcnt
          · show (s.sent || _) = false
            rw [hsent, hend]
            rfl
      | failed =>
        cases Visit.step_does hp hs with
        | fails => exact ⟨hsent, .inl rfl⟩
        | executes _ _ _ _ _ _ calm => exact absurd rfl calm.2

/-- What a last node can do that has not announced the end yet. -/
def Visit.Able (s : Visit) : Prop :=
  s.Owes → s.node.running = true ∧ s.node.pingCnt ≤ 5 ∧ (s.node.areq = .lost → s.node.pingCnt = 5)

theorem late_step {e : VisitEvent} (h : Pinging s) (hsent : s.sent = false)
    (hlate : 5 < s.node.pingCnt) (hs : s.step o k e = some t) :
    t.sent = false ∧ 5 < t.node.pingCnt := by
  cases Visit.step_does h hs with
  | @rejects p n _ _ _ pings =>
    refine ⟨hsent, ?_⟩
    unfold TourNode.pingCnt at hlate ⊢
    rw [pings]
    exact hlate
  | @executes e n option cnt pings =>
    rcases executed_cases (k := k) (option.trans h.option) pings e with
      ⟨hfive, _⟩ | ⟨_, hend, hcnt, _⟩
    · omega
    · unfold Visit.after
      dsimp only
      rw [hsent, hend, hcnt]
      exact ⟨rfl, by omega⟩
  | _ => exact ⟨hsent, hlate⟩

theorem step_alarm (hrun : s.node.running = true) (halarm : s.node.alarm = true)
    (hlost : s.node.areq ≠ .lost) : s.step o k (.own .alarm) = some (s.after 1 (onAlarm k s.node)) := by
  have hown : s.node.own k .alarm = some (onAlarm k s.node) := if_pos ⟨halarm, hlost⟩
  unfold Visit.step
  dsimp only
  rw [if_pos hrun, hown]
  rfl

/-- A last node that counts comes to its announcement. -/
theorem exists_alarms {i : ℕ} (h : Pinging s) (howes : s.Owes) (hrun : s.node.running = true)
    (halarm : s.node.alarm = true) (hlost : s.node.areq ≠ .lost) (hcnt : s.node.pingCnt + i = 5) :
    ∃ t, Run (Visit.step o k) (fun _ _ => True) s ((List.replicate (i + 1) OwnEvent.alarm).map .own) t ∧
      t.sent = true ∧ t.executed = s.executed + (i + 1) := by
  induction i generalizing s with
  | zero =>
    have hs := step_alarm (o := o) (k := k) hrun halarm hlost
    refine ⟨_, .cons trivial hs (.nil _), ?_, rfl⟩
    have hend : (onAlarm k s.node).2.any TourOut.isEnd = true := by
      rcases sigAlrm_cases (k := k) (s := { s.node with alarm := false }) h.option with
        ⟨_, _, heq⟩ | ⟨hnot, _⟩
      · unfold onAlarm
        rw [heq]
        rfl
      · exact absurd ⟨hcnt, howes.1⟩ hnot
    simp [Visit.after, hend]
  | succ i ih =>
    have hs := step_alarm (o := o) (k := k) hrun halarm hlost
    have hcount : onAlarm k s.node = ({ s.node with
        pings := s.node.pings.map fun p => { p with cnt := p.cnt + 1 }, alarm := true }, []) := by
      rcases sigAlrm_cases (k := k) (s := { s.node with alarm := false }) h.option with
        ⟨hfive, _, _⟩ | ⟨_, heq⟩
      · change s.node.pingCnt = 5 at hfive
        omega
      · exact heq
    have hstep := pinging_step h hs
    have hcounted := pingCnt_counted (s := s.node) (h.armed halarm) true
    rw [hcount] at hs hstep
    obtain ⟨t, hr, hsent, hexecuted⟩ := ih hstep ⟨howes.1, by simp [Visit.after, howes.2]⟩ hrun rfl hlost
      ((congrArg (· + i) hcounted).trans (by omega))
    refine ⟨t, .cons trivial hs hr, hsent, ?_⟩
    rw [hexecuted]
    simp only [Visit.after]
    omega

/-- The node keeps its promise if and only if it is able to. -/
theorem Pinging.ends_iff (h : Pinging s) : s.Ends o k ↔ s.Able := by
  constructor
  · intro hends howes
    obtain ⟨hcnt, ⟨es, t, hr, hsent, _⟩, _⟩ := hends howes
    have hfree : ¬ s.Stuck := by
      intro hstuck
      have hend := hr.invariant (fun u => Pinging u ∧ u.Stuck)
        (fun u v e hu _ hs => ⟨pinging_step hu.1 hs, hu.2.step hu.1 hs⟩) ⟨h, hstuck⟩
      rw [hend.2.1] at hsent
      cases hsent
    refine ⟨?_, hcnt, ?_⟩
    · by_contra hrun
      exact hfree ⟨howes.2, .inl (Bool.eq_false_of_not_eq_true hrun)⟩
    · intro hlost
      by_contra hne
      exact hfree ⟨howes.2, .inr ⟨hlost, hne⟩⟩
  · intro hable howes
    obtain ⟨hrun, hcnt, hlost⟩ := hable howes
    refine ⟨hcnt, ?_, ?_⟩
    · by_cases hpings : s.node.pings = []
      · -- the first predecessor is pinged when `areq` returns
        have hzero : s.node.pingCnt = 0 := by simp [TourNode.pingCnt, hpings]
        cases hareq : s.node.areq with
        | idle => exact absurd hpings (h.pings howes.1 hareq hrun)
        | lost =>
          have hfive := hlost hareq
          omega
        | waiting srcIp =>
          have hping : startPing k { s.node with areq := .idle } srcIp =
              some ({ s.node with pings := [⟨srcIp, 1⟩], alarm := true, areq := .idle }, []) := by
            simp [startPing, hpings, sigAlrm, h.option, TourNode.ping]
          have hs : s.step o k (.own .answered) = some ⟨{ s.node with
              pings := [⟨srcIp, 1⟩], alarm := true, areq := .idle }, s.sent, s.executed + 1⟩ := by
            unfold Visit.step
            dsimp only
            rw [if_pos hrun, own_answered hareq, hping, Option.map_some]
            simp [Visit.after, TourNode.executions, hareq, hpings]
          obtain ⟨t, hr, hsent, hexecuted⟩ := exists_alarms (o := o) (k := k) (i := 4)
            (pinging_step h hs) howes hrun rfl (by simp) rfl
          refine ⟨.answered :: List.replicate 5 .alarm, t, .cons trivial hs hr, hsent, ?_⟩
          rw [hexecuted]
      · have halarm := h.alarm hrun hpings howes.2
        by_cases hareq : s.node.areq = .lost
        · have hs : s.step o k (.own .interrupted) = some (s.after 1
              ((onAlarm k s.node).1.exit, (onAlarm k s.node).2)) := by
            simp [Visit.step, hrun, TourNode.own, hareq, halarm, TourNode.executions]
          refine ⟨[.interrupted], _, .cons trivial hs (.nil _), ?_, Nat.add_le_add_left (by decide) _⟩
          rcases sigAlrm_cases (k := k) (s := { s.node with alarm := false }) h.option with
            ⟨_, _, heq⟩ | ⟨hnot, _⟩
          · unfold onAlarm
            rw [heq]
            simp [Visit.after, TourOut.isEnd]
          · exact absurd ⟨hlost hareq, howes.1⟩ hnot
        · obtain ⟨t, hr, hsent, hexecuted⟩ := exists_alarms (o := o) (k := k)
            (i := 5 - s.node.pingCnt) h howes hrun halarm hareq (by omega)
          exact ⟨_, t, hr, hsent, by omega⟩
    · intro es t hr hexecuted
      have hcounts := hr.invariant (Counts s) (fun u v e hu _ hs => hu.step hs)
        ⟨h, fun _ => ⟨howes.1, hcnt, rfl⟩⟩
      by_contra hsent
      obtain ⟨_, hle, hsum⟩ := hcounts.owed (Bool.eq_false_of_not_eq_true hsent)
      omega

theorem Pinging.unsent (h : Pinging s) (hlast : s.node.lastNode = false) : s.sent = false := by
  by_contra hsent
  have hlast' := h.sent (Bool.eq_true_of_not_eq_false hsent)
  exact Bool.false_ne_true (hlast.symm.trans hlast')

/-- A step keeps the promise if and only if it spares the node. -/
theorem able_step_iff {e : VisitEvent} (h : Pinging s) (hable : s.Able)
    (hs : s.step o k e = some t) : t.Able ↔ e.Spares o s := by
  have hrun : s.node.running = true := by
    cases e with
    | route p =>
      obtain ⟨hlisten, _⟩ := Option.ite_none_right_eq_some.mp hs
      exact (Bool.and_eq_true_iff.mp hlisten).1
    | own e =>
      obtain ⟨hrun, _⟩ := Option.ite_none_right_eq_some.mp hs
      exact hrun
  cases Visit.step_does h hs with
  | ignores ends sent =>
    exact iff_of_true hable ⟨fun hends => absurd hends ends, fun hrejected => absurd hrejected sent⟩
  | @rejects p n rejected ends _ _ _ last exited =>
    have howes : Visit.Owes { s with node := n } ↔ s.Owes := by
      unfold Visit.Owes
      rw [last]
    unfold Visit.Able
    rw [howes]
    constructor
    · refine fun hable' => ⟨fun hends => absurd hends ends, fun _ how => ?_⟩
      have hrunning := (hable' how).1
      rw [exited] at hrunning
      cases hrunning
    · exact fun hspares how => absurd how (hspares.2 rejected)
  | @asks p srcIp sent =>
    constructor
    · intro hable'
      refine ⟨fun hends hlast => ?_, fun hrejected => absurd hrejected sent⟩
      exact (hable' ⟨by simp [hends], h.unsent hlast⟩).2.1
    · intro hspares how
      have hcnt : s.node.pingCnt ≤ 5 := by
        by_cases hlast : s.node.lastNode = true
        · exact (hable ⟨hlast, how.2⟩).2.1
        · have hends : EndsTour o p := by simpa [hlast] using how.1
          exact hspares.1 hends (Bool.eq_false_of_not_eq_true hlast)
      exact ⟨hrun, hcnt, fun hlost => by cases hlost⟩
  | knows =>
    refine iff_of_true ?_ trivial
    intro how
    exact ⟨hrun, (hable how).2.1, fun hlost => by cases hlost⟩
  | loses =>
    constructor
    · exact fun hable' how => (hable' how).2.2 rfl
    · exact fun hspares how => ⟨hrun, (hable how).2.1, fun _ => hspares how⟩
  | fails =>
    constructor
    · exact fun hable' how => absurd (hable' how).1 Bool.false_ne_true
    · exact fun hspares how => absurd how hspares
  | @executes e n option cnt pings last stays areq calm caught =>
    rcases executed_cases (k := k) (option.trans h.option) pings e with
      ⟨hfive, hlast, hend⟩ | ⟨hnot, hend, hcnt, hlast'⟩
    · have hsent : ∀ m, ¬ (s.after 1 (m, (sigAlrm k n).2)).Owes := by
        intro m how
        have hfalse := how.2
        simp [Visit.after, hend] at hfalse
      refine iff_of_true (fun how => absurd how (hsent _)) ?_
      have hfive' : s.node.pingCnt = 5 := cnt.symm.trans hfive
      cases e with
      | alarm => trivial
      | answered => trivial
      | interrupted => exact fun _ => hfive'
      | lost => exact absurd rfl calm.1
      | failed => exact absurd rfl calm.2
    · have howes : (s.after 1 (if e = .interrupted then (sigAlrm k n).1.exit else (sigAlrm k n).1,
          (sigAlrm k n).2)).Owes ↔ s.Owes := by
        unfold Visit.Owes Visit.after
        dsimp only
        rw [hlast', last, hend, Bool.or_false]
      have hne : s.Owes → s.node.pingCnt ≠ 5 := fun how hfive =>
        hnot ⟨cnt.trans hfive, last.trans how.1⟩
      unfold Visit.Able
      rw [howes]
      by_cases hint : e = .interrupted
      · subst hint
        constructor
        · exact fun hable' how => absurd (hable' how).1 Bool.false_ne_true
        · exact fun hspares how => absurd (hspares how) (hne how)
      · refine iff_of_true ?_ ?_
        · intro how
          have hle := (hable how).2.1
          have hlt := hne how
          unfold Visit.after
          dsimp only
          rw [hcnt, cnt, if_neg hint]
          refine ⟨stays, by omega, ?_⟩
          intro hlost
          exact absurd (caught (areq hlost)) hint
        · cases e with
          | alarm => trivial
          | answered => trivial
          | interrupted => exact absurd rfl hint
          | lost => exact absurd rfl calm.1
          | failed => exact absurd rfl calm.2

end

theorem pinging_start (visited : Bool) : Pinging (Visit.start visited) := by
  constructor <;> simp [Visit.start, TourNode.boot]

/-- The packets that vm2 gets on a tour from vm1 to vm2, vm3 and vm2 once more. -/
def firstVisit : IpPacket :=
  ⟨routeHdr 100 (vmInAddr (vm 1)) (vmInAddr (vm 2)),
    sourcePayload .little (0x5a, 0x20) 2 4 ([vm 1, vm 2, vm 3, vm 2].map vmAddr)⟩

def secondVisit : IpPacket :=
  ⟨routeHdr 100 (vmInAddr (vm 3)) (vmInAddr (vm 2)),
    sourcePayload .little (0x5a, 0x20) 4 4 ([vm 1, vm 2, vm 3, vm 2].map vmAddr)⟩

/-- The alarm goes off `n` times between the two visits, and `areq` is answered in both. -/
def revisit (n : ℕ) : List VisitEvent :=
  [.route firstVisit, .own .answered] ++ List.replicate n (.own .alarm) ++
    [.route secondVisit, .own .answered]

def revisitEnd (n : ℕ) : Visit :=
  (exec (Visit.step .little (vm 2)) (Visit.start false) (revisit n)).getD (Visit.start false)

def lostVisit : List VisitEvent :=
  [.route ⟨routeHdr 70 (vmInAddr (vm 1)) (vmInAddr (vm 2)),
    sourcePayload .little (0x5a, 0x20) 2 2 ([vm 1, vm 2].map vmAddr)⟩, .own .lost]

def lostVisitEnd : Visit :=
  (exec (Visit.step .little (vm 2)) (Visit.start false) lostVisit).getD (Visit.start false)

end NetLab.Tour
