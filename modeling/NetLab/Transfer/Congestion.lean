import NetLab.Transfer.SendBuffer

/-! Congestion avoidance. The counter is compared with `cwnd` by equality, and the two places
that cut `cwnd` do not reset it. -/
namespace NetLab.Transfer
open NetLab.Lib

def Server.control (s : Server) : ℕ × ℕ × ℕ := (s.cwnd, s.ssh, s.congestionAvoidCount)

/-- Some number of ACKs, at most `cwnd`, raises `cwnd` by one. -/
def Server.Grows (s : Server) : Prop :=
  ∃ m, 1 ≤ m ∧ m ≤ s.cwnd ∧ (Server.grow^[m] s).cwnd = s.cwnd + 1

/-- Once slow start is over, `cwnd` grows. -/
def Server.Recovers (s : Server) : Prop := (Server.grow^[s.ssh - s.cwnd] s).Grows

/-- The state after the ACK of an event, if it is one, was counted. -/
def Server.acked (s : Server) : ServerEvent → Server
  | .recv _ _ => if s.pc = .wait then s.grow else s
  | _ => s

/-- Whether a step cuts `cwnd`, after a timeout or in fast recovery. Both transmit the first
unacknowledged datagram. -/
def Server.cut (o : ByteOrder) (s : Server) (e : ServerEvent) : Option Resume :=
  match e with
  | .go _ => none
  | .recv _ _ => match s.pc with
    | .probe k => if s.resends o e = [] then none else some k
    | _ => if s.resends o e = [] then none else some .fast
  | .alarm _ => if s.resends o e = [] then none else some .timeout

/-- `cwnd`, `ssh` and the counter after a cut. -/
def Server.afterCut (s : Server) : Resume → ℕ × ℕ × ℕ
  | .top => s.control
  | .timeout => (1, halved s.cwnd, s.congestionAvoidCount)
  | .fast => (halved s.cwnd, halved s.cwnd, s.congestionAvoidCount)

/-- A cut finds the counter below the `ssh` that it sets. -/
def CutsAbove (o : ByteOrder) (s : Server) (e : ServerEvent) : Prop :=
  s.cut o e ≠ none → (s.acked e).congestionAvoidCount < halved (s.acked e).cwnd

theorem grow_avoid {s : Server} (h : s.ssh ≤ s.cwnd) (hne : s.congestionAvoidCount + 1 ≠ s.cwnd) :
    s.grow = { s with congestionAvoidCount := s.congestionAvoidCount + 1 } := by
  unfold Server.grow
  rw [if_neg (not_lt.mpr h), if_neg hne]

theorem grow_full {s : Server} (h : s.ssh ≤ s.cwnd) (heq : s.congestionAvoidCount + 1 = s.cwnd) :
    s.grow = { s with cwnd := s.cwnd + 1, congestionAvoidCount := 0 } := by
  unfold Server.grow
  rw [if_neg (not_lt.mpr h), if_pos heq]

theorem grow_iterate {s : Server} (h : s.ssh ≤ s.cwnd) (j : ℕ)
    (hj : ∀ i < j, s.congestionAvoidCount + i + 1 ≠ s.cwnd) :
    Server.grow^[j] s = { s with congestionAvoidCount := s.congestionAvoidCount + j } := by
  induction j with
  | zero => rfl
  | succ j ih =>
    rw [Function.iterate_succ_apply', ih fun i hi => hj i (Nat.lt_succ_of_lt hi)]
    exact grow_avoid h (hj j (Nat.lt_succ_self j))

theorem grows_iff {s : Server} (h : s.ssh ≤ s.cwnd) :
    s.Grows ↔ s.congestionAvoidCount < s.cwnd := by
  constructor
  · rintro ⟨m, _, _, hm⟩
    by_contra hge
    rw [grow_iterate h m fun i _ => by omega] at hm
    exact absurd hm (Nat.succ_ne_self s.cwnd).symm
  · intro hlt
    obtain ⟨j, hj⟩ : ∃ j, s.cwnd = s.congestionAvoidCount + j + 1 :=
      ⟨s.cwnd - s.congestionAvoidCount - 1, by omega⟩
    refine ⟨j + 1, by omega, by omega, ?_⟩
    rw [Function.iterate_succ_apply', grow_iterate h j fun i hi => by omega]
    rw [grow_full (s := { s with congestionAvoidCount := s.congestionAvoidCount + j }) h hj.symm]

theorem slowStart_iterate (s : Server) {j : ℕ} (hj : j ≤ s.ssh - s.cwnd) :
    Server.grow^[j] s = { s with cwnd := s.cwnd + j } := by
  induction j with
  | zero => rfl
  | succ j ih =>
    have hlt : s.cwnd + j < s.ssh := by omega
    rw [Function.iterate_succ_apply', ih (by omega)]
    unfold Server.grow
    rw [if_pos hlt, Nat.add_assoc]

theorem recovers_iff (s : Server) :
    s.Recovers ↔ s.congestionAvoidCount < max s.cwnd s.ssh := by
  have hend : s.cwnd + (s.ssh - s.cwnd) = max s.cwnd s.ssh := by omega
  rw [Server.Recovers, slowStart_iterate s le_rfl, hend]
  exact grows_iff (le_max_right s.cwnd s.ssh)

theorem halved_pos (cwnd : ℕ) : 0 < halved cwnd := by
  unfold halved
  split_ifs <;> omega

theorem grow_below {s : Server} (h : s.congestionAvoidCount < max s.cwnd s.ssh) :
    s.grow.congestionAvoidCount < max s.grow.cwnd s.grow.ssh := by
  unfold Server.grow
  split_ifs <;> dsimp only <;> omega

theorem grow_control {s t : Server} (h : s.control = t.control) :
    s.grow.control = t.grow.control := by
  simp only [Server.control, Prod.mk.injEq] at h
  obtain ⟨hc, hs, hn⟩ := h
  unfold Server.grow Server.control
  rw [hc, hs, hn]
  split_ifs
  · rw [← hs, ← hn]
  · rw [← hs]
  · rw [← hs]

theorem resume_control (s : Server) (k : Resume) : (s.resume k).1.control = s.afterCut k := by
  cases k with
  | top => rfl
  | timeout => rfl
  | fast =>
    unfold Server.resume
    dsimp only
    split_ifs <;> rfl

theorem backOff_control (s : Server) (k : Resume) : (s.backOff k).1.control =
    if s.proceeds s.recvWindow then s.afterCut k else s.control := by
  unfold Server.backOff
  dsimp only
  by_cases hgive : (rttTimeout s.rttinfo).2 = true
  · rw [if_pos hgive, if_neg (by simp [Server.proceeds, hgive])]
    rfl
  · rw [if_neg hgive]
    by_cases hw : s.recvWindow = 0
    · rw [if_pos hw, if_neg (by simp [Server.proceeds, hw])]
      rfl
    · rw [if_neg hw, if_pos (by simp [Server.proceeds, hgive, hw]), resume_control]
      cases k <;> rfl

theorem countAck_control (s : Server) (h : Hdr) (tv : Timeval) :
    (s.countAck h tv).control = s.grow.control := rfl

theorem discard_control (s : Server) (seq : ℕ) : (s.discard seq).control = s.control := by
  unfold Server.discard
  split_ifs <;> rfl

theorem loopTest_control (s : Server) : s.loopTest.control = s.control := by
  unfold Server.loopTest
  split_ifs <;> rfl

theorem afterCut_congr {s t : Server} (h : s.control = t.control) (k : Resume) :
    s.afterCut k = t.afterCut k := by
  have h' := h
  simp only [Server.control, Prod.mk.injEq] at h'
  obtain ⟨hc, _, hn⟩ := h'
  cases k with
  | top => exact h
  | timeout => simp only [Server.afterCut, hc, hn]
  | fast => simp only [Server.afterCut, hc, hn]

theorem onAck_control (s : Server) (o : ByteOrder) (h : Hdr) (tv : Timeval) :
    let Q := (s.discard h.seq).sendBuffer
    (s.onAck o h tv).1.control =
      if h.seq ≠ 0 ∧ (Q.base Q.front).ack + 1 = 3 ∧ s.proceeds (o.ntohs h.recvWindow) then
        s.grow.afterCut .fast
      else s.grow.control := by
  obtain ⟨_, hQ, hh, hr⟩ := countAck_keeps s h tv
  have hc := countAck_control s h tv
  unfold Server.onAck
  generalize s.countAck h tv = s₁ at hQ hh hr hc
  dsimp only
  by_cases h0 : h.seq = 0
  · rw [if_pos h0, if_neg (by simp [h0])]
    exact hc
  · rw [if_neg h0]
    have hdQ := (discard_congr hQ hh h.seq).1
    have hr₂ : (s₁.discard h.seq).rttinfo = s.rttinfo := (discard_spec s₁ h.seq).2.2.2.1.trans hr
    have hc₂ : (s₁.discard h.seq).control = s.grow.control := (discard_control s₁ h.seq).trans hc
    rw [← hdQ]
    generalize s₁.discard h.seq = s₂ at hr₂ hc₂
    by_cases ha : (s₂.sendBuffer.base s₂.sendBuffer.front).ack + 1 = 3
    · have hproc : ({ s₂ with recvWindow := o.ntohs h.recvWindow }.setAck 0).proceeds
          (o.ntohs h.recvWindow) = s.proceeds (o.ntohs h.recvWindow) := by
        unfold Server.proceeds
        rw [← hr₂]
        rfl
      have hcut : ({ s₂ with recvWindow := o.ntohs h.recvWindow }.setAck 0).control =
          s.grow.control := hc₂
      rw [if_pos ha, backOff_control]
      simp only [ne_eq, h0, not_false_eq_true, ha, true_and]
      rw [← hproc, hcut, afterCut_congr hcut]
      rfl
    · rw [if_neg ha, if_neg (by simp [ha]), loopTest_control]
      exact hc₂

theorem onWindow_control (s : Server) (o : ByteOrder) (k : Resume) (hd : Hdr) :
    (s.onWindow o k hd).1.control =
      if o.ntohs hd.recvWindow > 0 then s.afterCut k else s.control := by
  unfold Server.onWindow
  dsimp only
  split_ifs with hw
  · rw [resume_control]
    cases k <;> rfl
  · rfl

theorem sendData_control (s : Server) (left : ℕ) (tv : Timeval) :
    (s.sendData left tv).1.control = s.control := by
  unfold Server.sendData
  dsimp only
  split_ifs <;> rfl

/-- What a step does to the congestion window. -/
theorem step_control {o : ByteOrder} {s t : Server} {e : ServerEvent} {out : List Datagram}
    (h : s.step o e = some (t, out)) :
    t.control = ((s.cut o e).map (s.acked e).afterCut).getD (s.acked e).control := by
  cases Server.handles h with
  | lock tv _ _ ht => rw [ht]; rfl
  | openWindow tv _ _ heq => cases heq; rfl
  | dataAlarm tv _ ht => rw [ht]; rfl
  | sendData tv left _ heq =>
    have hc := sendData_control s left tv
    rwa [heq] at hc
  | window hd tv k hpc heq =>
    have hc := onWindow_control s o k hd
    rw [heq] at hc
    simp only [Server.cut, Server.acked, hpc, Server.resends, reduceCtorEq, if_false]
    rw [hc]
    by_cases hw : o.ntohs hd.recvWindow > 0
    · cases k <;> simp [hw, Server.afterCut]
    · simp [hw]
  | ack hd tv hpc heq =>
    have hc := onAck_control s o hd tv
    rw [heq] at hc
    simp only [Server.cut, Server.acked, hpc, Server.resends, if_true]
    dsimp only at hc
    rw [hc]
    split_ifs with hcut hnil hnil
    · cases hnil
    · rfl
    · rfl
    · exact absurd rfl hnil
  | probe _ k hpc ht =>
    rw [ht]
    simp [Server.cut, Server.acked, Server.resends, hpc]
  | timeout back hpc hb heq =>
    have hc : ((s.longjmp back).backOff .timeout).1.control =
        if s.proceeds s.recvWindow then s.afterCut .timeout else s.control :=
      backOff_control (s.longjmp back) .timeout
    rw [heq] at hc
    simp only [Server.cut, Server.acked, hpc, Server.resends, hb, true_and]
    dsimp only at hc
    rw [hc]
    split_ifs with hcut hnil hnil
    · cases hnil
    · rfl
    · rfl
    · exact absurd rfl hnil

theorem cut_ne_top {o : ByteOrder} {s : Server} {e : ServerEvent} : s.cut o e ≠ some .top := by
  unfold Server.cut
  cases e with
  | go tv => simp
  | alarm _ =>
    dsimp only
    split_ifs <;> simp
  | recv hd tv =>
    cases hpc : s.pc with
    | probe k => cases k <;> simp [Server.resends, hpc]
    | _ => simp [Server.resends, hpc]

/-- A step keeps the counter below the window of congestion avoidance if and only if its cut, if it
makes one, finds it below the new one. -/
theorem below_step_iff {o : ByteOrder} {s t : Server} {e : ServerEvent}
    (h : s.congestionAvoidCount < max s.cwnd s.ssh) (hs : s.next o e = some t) :
    t.congestionAvoidCount < max t.cwnd t.ssh ↔ CutsAbove o s e := by
  obtain ⟨⟨t, out⟩, hstep, rfl⟩ := Option.map_eq_some_iff.mp hs
  have hc := step_control hstep
  unfold CutsAbove
  cases hcut : s.cut o e with
  | none =>
    have hacked : (s.acked e).congestionAvoidCount < max (s.acked e).cwnd (s.acked e).ssh := by
      cases e with
      | recv hd tv =>
        unfold Server.acked
        dsimp only
        split_ifs
        · exact grow_below h
        · exact h
      | go tv => exact h
      | alarm _ => exact h
    simp only [hcut, Option.map_none, Option.getD_none, Server.control, Prod.mk.injEq] at hc
    rw [hc.1, hc.2.1, hc.2.2]
    exact iff_of_true hacked (fun hne => absurd rfl hne)
  | some k =>
    have hpos := halved_pos (s.acked e).cwnd
    rw [hcut] at hc
    simp only [Option.map_some, Option.getD_some] at hc
    cases k with
    | top => exact absurd hcut cut_ne_top
    | timeout =>
      simp only [Server.afterCut, Server.control, Prod.mk.injEq] at hc
      rw [hc.1, hc.2.1, hc.2.2, max_eq_right hpos]
      simp
    | fast =>
      simp only [Server.afterCut, Server.control, Prod.mk.injEq] at hc
      rw [hc.1, hc.2.1, hc.2.2, max_self]
      simp

/-- The child, and the ACKs that its ACK loop has taken since some state. -/
structure AckCount where
  server : Server
  acks : ℕ

def AckCount.step (o : ByteOrder) (y : AckCount) (e : ServerEvent) : Option AckCount :=
  (y.server.next o e).map fun t => ⟨t, match e with
    | .recv _ _ => if y.server.pc = .wait then y.acks + 1 else y.acks
    | _ => y.acks⟩

theorem uncut_step {o : ByteOrder} {s : Server} {y z : AckCount} {e : ServerEvent}
    (h : y.server.control = (Server.grow^[y.acks] s).control) (hok : y.server.cut o e = none)
    (hs : y.step o e = some z) : z.server.control = (Server.grow^[z.acks] s).control := by
  obtain ⟨t, hnext, rfl⟩ := Option.map_eq_some_iff.mp hs
  obtain ⟨⟨t, out⟩, hstep, rfl⟩ := Option.map_eq_some_iff.mp hnext
  have hc := step_control hstep
  rw [hok] at hc
  simp only [Option.map_none, Option.getD_none] at hc
  dsimp only
  rw [hc]
  cases e with
  | recv hd tv =>
    unfold Server.acked
    dsimp only
    split_ifs
    · rw [Function.iterate_succ_apply']
      exact grow_control h
    · exact h
  | go tv => exact h
  | alarm _ => exact h

/-- In a state with `ssh ≤ cwnd` at most `cwnd` ACKs raise `cwnd` by one if and only if the counter
is below `cwnd`; it is in every run in which each cut finds it below the `ssh` that it sets. These are
the runs in which `cwnd` grows from every state once its slow start is over. Until the next cut the
window is what the ACKs of the ACK loop make of it. -/
theorem congestion_avoidance_grows_iff (o : ByteOrder) (n recvWindow : ℕ) (content : List UInt8)
    (memory : ℕ → Data) (localcopy : Data) (rttinfo : RttInfo) (tv : Timeval)
    (es : List ServerEvent) (s : Server) :
    (s.ssh ≤ s.cwnd → (s.Grows ↔ s.congestionAvoidCount < s.cwnd)) ∧
    (Run (Server.next o) (CutsAbove o)
      (.start n recvWindow content memory localcopy rttinfo tv) es s → s.ssh ≤ s.cwnd → s.Grows) ∧
    (Run (Server.next o) (fun _ _ => True)
      (.start n recvWindow content memory localcopy rttinfo tv) es s →
      (Along (Server.next o) Server.Recovers
          (.start n recvWindow content memory localcopy rttinfo tv) es ↔
        Run (Server.next o) (fun s e => True ∧ CutsAbove o s e)
          (.start n recvWindow content memory localcopy rttinfo tv) es s)) ∧
    ∀ es' y, Run (AckCount.step o) (fun y e => y.server.cut o e = none) ⟨s, 0⟩ es' y →
      y.server.cwnd = (Server.grow^[y.acks] s).cwnd := by
  have hstart : (Server.start n recvWindow content memory localcopy rttinfo tv).Recovers := by
    rw [recovers_iff]
    simp [Server.start]
  refine ⟨grows_iff, ?_, ?_, ?_⟩
  · intro hcuts hle
    have hrec := hcuts.invariant Server.Recovers ?_ hstart
    · rw [recovers_iff, max_eq_left hle] at hrec
      exact (grows_iff hle).mpr hrec
    · intro s t e h hok hs
      rw [recovers_iff] at h ⊢
      exact (below_step_iff h hs).mpr hok
  · intro hr
    refine hr.along_iff (fun _ => True) Server.Recovers (fun _ _ _ _ _ _ => trivial) ?_ trivial hstart
    intro s t e _ h _ hs
    rw [recovers_iff] at h ⊢
    exact below_step_iff h hs
  · intro es' y hr'
    have hc := hr'.invariant (fun y => y.server.control = (Server.grow^[y.acks] s).control)
      (fun _ _ _ h hok hs => uncut_step h hok hs) rfl
    exact congrArg Prod.fst hc

instance (o : ByteOrder) (s : Server) (e : ServerEvent) : Decidable (CutsAbove o s e) :=
  inferInstanceAs (Decidable (s.cut o e ≠ none →
    (s.acked e).congestionAvoidCount < halved (s.acked e).cwnd))

/-- The first datagram times out and is acknowledged, two more are sent, and one of them is
acknowledged. -/
def slowed : List ServerEvent :=
  [.go ⟨101, 0⟩, .go ⟨101, 0⟩, .go ⟨101, 0⟩, .alarm false, .recv ⟨2, 1000, 2048⟩ ⟨103, 0⟩, .go ⟨103, 0⟩,
    .go ⟨103, 0⟩, .go ⟨103, 0⟩, .go ⟨103, 0⟩, .recv ⟨3, 3000, 2048⟩ ⟨103, 0⟩]

def slowedStart : Server := booted 4 (List.replicate 2000 65)

def slowedEnd : Server := (exec (Server.next .little) slowedStart slowed).getD slowedStart

theorem congestion_avoidance_grows_slowed :
    slowedEnd.control = (2, 1, 1) ∧ slowedEnd.ssh ≤ slowedEnd.cwnd ∧ slowedEnd.Grows := by
  have hcontrol : slowedEnd.control = (2, 1, 1) := by decide +kernel
  have hle : slowedEnd.ssh ≤ slowedEnd.cwnd := by decide +kernel
  exact ⟨hcontrol, hle, (congestion_avoidance_grows_iff .little 4 8 (List.replicate 2000 65) _ _ _ _
    slowed slowedEnd).2.1 (.of_runnable (by decide +kernel) slowedStart) hle⟩

def stalledEnd : Server :=
  (exec (Server.next .little) slowedStart (slowed ++ [.alarm false])).getD slowedStart

/-- The timeout cuts `cwnd` to 1 with the counter at 1: it never meets `cwnd` again. -/
theorem congestion_avoidance_stalled :
    Run (Server.next .little) (fun _ _ => True) slowedStart (slowed ++ [.alarm false]) stalledEnd ∧
      stalledEnd.control = (1, 1, 1) ∧ stalledEnd.ssh ≤ stalledEnd.cwnd ∧ ¬ stalledEnd.Grows ∧
      ∀ m, (Server.grow^[m] stalledEnd).cwnd = 1 := by
  have hcontrol : stalledEnd.control = (1, 1, 1) := by decide +kernel
  simp only [Server.control, Prod.mk.injEq] at hcontrol
  obtain ⟨hc, hs, hn⟩ := hcontrol
  have hle : stalledEnd.ssh ≤ stalledEnd.cwnd := by omega
  refine ⟨.of_runnable (by decide +kernel) slowedStart, by simp [Server.control, hc, hs, hn], hle, ?_, ?_⟩
  · rw [grows_iff hle]
    omega
  · intro m
    rw [grow_iterate hle m fun i _ => by omega]
    dsimp only
    exact hc

end NetLab.Transfer
