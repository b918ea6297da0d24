import NetLab.Transfer.FastRetransmit

/-! The retry limit. `rtt_timeout` counts timeouts and fast retransmits alike, and only the head of
the outer loop sets the count back. -/
namespace NetLab.Transfer
open NetLab.Lib

/-- The child, the timeouts since it last received a datagram, and whether since `rtt_newpack` it has
received one after a call of `rtt_timeout`, or one that made such a call. -/
structure TimeoutLog where
  server : Server
  silent : ℕ
  answered : Bool

def TimeoutLog.timeouts (y : TimeoutLog) : ServerEvent → ℕ
  | .recv _ _ => 0
  | .alarm _ => if y.server.pc = .wait then y.silent + 1 else y.silent
  | .go _ => y.silent

def TimeoutLog.hears (y : TimeoutLog) : ServerEvent → Bool
  | .recv h _ => y.answered || decide (0 < y.server.rttinfo.nrexmt) ||
      (y.server.pc == .wait && y.server.fastRetransmits h)
  | .alarm _ => y.answered
  | .go _ => y.answered && !(y.server.pc == .top && y.server.recvWindow != 0)

def TimeoutLog.step (o : ByteOrder) (y : TimeoutLog) (e : ServerEvent) : Option TimeoutLog :=
  (y.server.next o e).map fun t => ⟨t, y.timeouts e, y.hears e⟩

/-- Past the head of the outer loop the count is the number of timeouts, or it is larger. -/
structure Counts (y : TimeoutLog) : Prop where
  live : y.server.pc ≠ .gaveUp → y.server.rttinfo.nrexmt ≤ rttMaxnrexmt
  spent : y.server.pc = .gaveUp → y.server.rttinfo.nrexmt = rttMaxnrexmt + 1
  unanswered : y.answered = false → y.server.rttinfo.nrexmt ≤ y.silent
  heard : y.answered = true → y.silent < y.server.rttinfo.nrexmt

theorem resume_retry (s : Server) {k : Resume} (hk : k ≠ .top) :
    (s.resume k).1.rttinfo = s.rttinfo ∧ (s.resume k).1.pc ≠ .gaveUp := by
  cases k with
  | top => exact absurd rfl hk
  | timeout => simp [Server.resume, Server.dataAlarmAgain]
  | fast =>
    unfold Server.resume
    dsimp only
    split_ifs <;> simp [Server.dataAlarmAgain]

theorem backOff_retry (s : Server) {k : Resume} (hk : k ≠ .top) :
    let t := (s.backOff k).1
    t.rttinfo.nrexmt = s.rttinfo.nrexmt + 1 ∧
      (t.pc = .gaveUp ↔ rttMaxnrexmt < s.rttinfo.nrexmt + 1) := by
  unfold Server.backOff
  dsimp only
  by_cases hgive : (rttTimeout s.rttinfo).2 = true
  · rw [if_pos hgive]
    exact ⟨rfl, iff_of_true rfl (of_decide_eq_true hgive)⟩
  · have hle : ¬ rttMaxnrexmt < s.rttinfo.nrexmt + 1 := by simpa [rttTimeout] using hgive
    rw [if_neg hgive]
    split_ifs
    · exact ⟨rfl, iff_of_false (by simp [Server.lock]) hle⟩
    · obtain ⟨hr, hpc⟩ := resume_retry { s with rttinfo := (rttTimeout s.rttinfo).1 } hk
      exact ⟨by rw [hr]; rfl, iff_of_false hpc hle⟩

theorem loopTest_retry (s : Server) (hpc : s.pc = .wait) :
    s.loopTest.rttinfo.nrexmt = s.rttinfo.nrexmt ∧ s.loopTest.pc ≠ .gaveUp := by
  unfold Server.loopTest
  split_ifs <;> simp [rttStop, hpc]

theorem sendData_retry (s : Server) (left : ℕ) (tv : Timeval) :
    (s.sendData left tv).1.rttinfo = s.rttinfo ∧ (s.sendData left tv).1.pc ≠ .gaveUp := by
  unfold Server.sendData
  dsimp only
  split_ifs <;> simp [Server.dataAlarmAgain]

theorem onWindow_retry (s : Server) (o : ByteOrder) (hd : Hdr) {k : Resume} (hpc : s.pc = .probe k) :
    let t := (s.onWindow o k hd).1
    t.rttinfo = s.rttinfo ∧ t.pc ≠ .gaveUp ∧ (s.AtTop → t.AtTop) := by
  unfold Server.onWindow
  dsimp only
  split_ifs
  · by_cases hk : k = .top
    · subst hk
      simp [Server.resume, Server.AtTop]
    · obtain ⟨hr, hgave⟩ := resume_retry { s with recvWindow := o.ntohs hd.recvWindow } hk
      exact ⟨hr, hgave, by simp [Server.AtTop, hpc, hk]⟩
  · exact ⟨rfl, by simp [hpc], id⟩

theorem onAck_retry (s : Server) (o : ByteOrder) (hd : Hdr) (tv : Timeval) (hpc : s.pc = .wait) :
    let t := (s.onAck o hd tv).1
    (s.fastRetransmits hd = true ∧ t.rttinfo.nrexmt = s.rttinfo.nrexmt + 1 ∧
      (t.pc = .gaveUp ↔ rttMaxnrexmt < s.rttinfo.nrexmt + 1)) ∨
    (s.fastRetransmits hd = false ∧ t.rttinfo.nrexmt = s.rttinfo.nrexmt ∧ t.pc ≠ .gaveUp) := by
  have hr := afterAck_rttinfo s o hd tv
  have hpc' := (afterAck_pc s o hd tv).trans hpc
  by_cases h0 : hd.seq = 0
  · rw [onAck_end s o tv h0]
    refine .inr ⟨by simp [Server.fastRetransmits, h0], ?_, by simp⟩
    exact congrArg RttInfo.nrexmt (countAck_keeps s hd tv).2.2.2
  · rw [onAck_branch s o hd tv h0]
    generalize s.afterAck o hd tv = s₁ at hr hpc'
    cases hfast : s.fastRetransmits hd with
    | true =>
      obtain ⟨hn, hgave⟩ := backOff_retry (s₁.setAck 0) (k := .fast) (by simp)
      have hr' : (s₁.setAck 0).rttinfo = s.rttinfo := hr
      rw [hr'] at hn hgave
      exact .inl ⟨rfl, hn, hgave⟩
    | false =>
      obtain ⟨hn, hgave⟩ := loopTest_retry (s₁.setAck (s.frontAck hd.seq + 1)) hpc'
      exact .inr ⟨rfl, hn.trans (congrArg RttInfo.nrexmt hr), hgave⟩

/-- What a step does to the retry count: it is set back, it goes up, or it stays. -/
theorem retry_step {o : ByteOrder} {s t : Server} {e : ServerEvent} {out : List Datagram}
    (h : s.step o e = some (t, out)) :
    (∃ tv, e = .go tv ∧ s.pc = .top ∧ s.recvWindow ≠ 0 ∧ t.rttinfo.nrexmt = 0 ∧ t.pc ≠ .gaveUp) ∨
    (((∃ back, e = .alarm back) ∧ s.pc = .wait ∨
        ∃ hd tv, e = .recv hd tv ∧ s.pc = .wait ∧ s.fastRetransmits hd = true) ∧
      t.rttinfo.nrexmt = s.rttinfo.nrexmt + 1 ∧
      (t.pc = .gaveUp ↔ rttMaxnrexmt < s.rttinfo.nrexmt + 1)) ∨
    (t.rttinfo.nrexmt = s.rttinfo.nrexmt ∧ t.pc ≠ .gaveUp ∧ (s.AtTop → t.AtTop) ∧
      (∀ back, e = .alarm back → s.pc ≠ .wait) ∧
      (∀ hd tv, e = .recv hd tv → (s.pc == .wait && s.fastRetransmits hd) = false) ∧
      ∀ tv, e = .go tv → (s.pc == .top && s.recvWindow != 0) = false) := by
  cases Server.handles h with
  | lock tv hpc hw ht =>
    rw [ht]
    exact .inr (.inr ⟨rfl, by simp [Server.lock], fun _ => .inr rfl, by simp, by simp, by simp [hw]⟩)
  | openWindow tv hpc hw heq =>
    cases heq
    exact .inl ⟨tv, rfl, hpc, hw, rfl, by simp⟩
  | dataAlarm tv hpc ht =>
    rw [ht]
    exact .inr (.inr ⟨rfl, by simp [Server.dataAlarmAgain], by simp [Server.AtTop, hpc], by simp,
      by simp, by simp [hpc]⟩)
  | sendData tv left hpc heq =>
    obtain ⟨hr, hgave⟩ := sendData_retry s left tv
    rw [heq] at hr hgave
    exact .inr (.inr ⟨congrArg RttInfo.nrexmt hr, hgave, by simp [Server.AtTop, hpc], by simp, by simp,
      by simp [hpc]⟩)
  | window hd tv k hpc heq =>
    obtain ⟨hr, hgave, htop⟩ := onWindow_retry s o hd hpc
    rw [heq] at hr hgave htop
    exact .inr (.inr ⟨congrArg RttInfo.nrexmt hr, hgave, htop, by simp, by simp [hpc], by simp⟩)
  | ack hd tv hpc heq =>
    rcases onAck_retry s o hd tv hpc with ⟨hfast, hr, hgave⟩ | ⟨hslow, hr, hgave⟩
    · rw [heq] at hr hgave
      exact .inr (.inl ⟨.inr ⟨hd, tv, rfl, hpc, hfast⟩, hr, hgave⟩)
    · rw [heq] at hr hgave
      refine .inr (.inr ⟨hr, hgave, by simp [Server.AtTop, hpc], by simp, ?_, by simp⟩)
      rintro _ _ he
      cases he
      rw [hslow, Bool.and_false]
  | probe _ k hpc ht hout =>
    rw [ht]
    exact .inr (.inr ⟨rfl, by simp [hpc], id, by simp [hpc], by simp, by simp⟩)
  | timeout back hpc hb heq =>
    obtain ⟨hr, hgave⟩ := backOff_retry (s.longjmp back) (k := .timeout) (by simp)
    rw [heq] at hr hgave
    exact .inr (.inl ⟨.inl ⟨⟨back, rfl⟩, hpc⟩, hr, hgave⟩)

theorem step_live {o : ByteOrder} {s t : Server} {e : ServerEvent} {out : List Datagram}
    (h : s.step o e = some (t, out)) : s.pc ≠ .gaveUp := by
  intro hpc
  cases e <;> simp [Server.step, hpc] at h

theorem TimeoutLog.of_quiet {y : TimeoutLog} {e : ServerEvent}
    (halarm : ∀ back, e = .alarm back → y.server.pc ≠ .wait)
    (hack : ∀ hd tv, e = .recv hd tv →
      (y.server.pc == .wait && y.server.fastRetransmits hd) = false)
    (hgo : ∀ tv, e = .go tv → (y.server.pc == .top && y.server.recvWindow != 0) = false) :
    y.timeouts e = y.silent ∧ y.hears e = y.answered ∨
      y.timeouts e = 0 ∧ y.hears e = (y.answered || decide (0 < y.server.rttinfo.nrexmt)) := by
  cases e with
  | go tv =>
    left
    simp only [timeouts, hears, hgo tv rfl, Bool.not_false, Bool.and_true, and_self]
  | recv hd tv =>
    right
    simp only [timeouts, hears, hack hd tv rfl, Bool.or_false, and_self]
  | alarm _ =>
    left
    simp only [timeouts, hears, if_neg (halarm _ rfl), and_self]

theorem Counts.call {y : TimeoutLog} {e : ServerEvent} {t : Server} (h : Counts y)
    (hcall : (∃ back, e = .alarm back) ∧ y.server.pc = .wait ∨
      ∃ hd tv, e = .recv hd tv ∧ y.server.pc = .wait ∧ y.server.fastRetransmits hd = true)
    (hn : t.rttinfo.nrexmt = y.server.rttinfo.nrexmt + 1)
    (hgave : t.pc = .gaveUp ↔ rttMaxnrexmt < y.server.rttinfo.nrexmt + 1) :
    Counts ⟨t, y.timeouts e, y.hears e⟩ := by
  have hpc : y.server.pc = .wait := by
    rcases hcall with ⟨_, hpc⟩ | ⟨_, _, _, hpc, _⟩ <;> exact hpc
  obtain ⟨hlive, _, hunanswered, hheard⟩ := h
  have hle := hlive (by simp [hpc])
  have hspent : t.pc = .gaveUp → t.rttinfo.nrexmt = rttMaxnrexmt + 1 := by
    intro hg
    have hlt := hgave.mp hg
    omega
  have hlive' : t.pc ≠ .gaveUp → t.rttinfo.nrexmt ≤ rttMaxnrexmt := by
    intro hg
    have hlt := mt hgave.mpr hg
    omega
  rcases hcall with ⟨⟨_, rfl⟩, _⟩ | ⟨hd, tv, rfl, _, hfast⟩
  · refine ⟨hlive', hspent, ?_, ?_⟩
    · intro ha
      have hle' := hunanswered ha
      simp only [TimeoutLog.timeouts, hpc, if_true]
      omega
    · intro ha
      have hlt := hheard ha
      simp only [TimeoutLog.timeouts, hpc, if_true]
      omega
  · refine ⟨hlive', hspent, by simp [TimeoutLog.hears, hpc, hfast], ?_⟩
    intro _
    simp only [TimeoutLog.timeouts]
    omega

theorem counts_step {o : ByteOrder} {y z : TimeoutLog} {e : ServerEvent}
    (h : ¬ y.server.AtTop → Counts y) (hs : y.step o e = some z) : ¬ z.server.AtTop → Counts z := by
  obtain ⟨t, hnext, rfl⟩ := Option.map_eq_some_iff.mp hs
  obtain ⟨⟨t, out⟩, hstep, rfl⟩ := Option.map_eq_some_iff.mp hnext
  intro htop
  rcases retry_step hstep with ⟨tv, rfl, hpc, hw, hn, hgave⟩ | ⟨hcall, hn, hgave⟩ |
    ⟨hn, hgave, hkeep, halarm, hack, hgo⟩
  · refine ⟨fun _ => ?_, fun hg => absurd hg hgave, fun _ => ?_, ?_⟩
    · dsimp only
      omega
    · dsimp only
      omega
    · simp [TimeoutLog.hears, hpc, hw]
  · have hpc : y.server.pc = .wait := by
      rcases hcall with ⟨_, hpc⟩ | ⟨_, _, _, hpc, _⟩ <;> exact hpc
    exact (h (by simp [Server.AtTop, hpc])).call hcall hn hgave
  · obtain ⟨hlive, _, hunanswered, hheard⟩ := h (fun hs => htop (hkeep hs))
    have hle := hlive (step_live hstep)
    have hlive' : t.rttinfo.nrexmt ≤ rttMaxnrexmt := hn.trans_le hle
    rcases y.of_quiet halarm hack hgo with ⟨hsilent, hsame⟩ | ⟨hsilent, hheard'⟩
    · rw [hsilent, hsame]
      refine ⟨fun _ => hlive', fun hg => absurd hg hgave, ?_, ?_⟩
      · exact fun ha => hn.trans_le (hunanswered ha)
      · exact fun ha => (hheard ha).trans_eq hn.symm
    · rw [hsilent, hheard']
      refine ⟨fun _ => hlive', fun hg => absurd hg hgave, ?_, ?_⟩
      · intro ha
        simp only [Bool.or_eq_false_iff, decide_eq_false_iff_not] at ha
        dsimp only
        omega
      · intro ha
        simp only [Bool.or_eq_true, decide_eq_true_eq] at ha
        dsimp only
        rcases ha with ha | ha
        · have hlt := hheard ha
          omega
        · omega

/-- When the child gives up, its client was silent for all the timeouts that it counted, if and only
if since `rtt_newpack` no datagram came after a timeout and none made it retransmit. -/
theorem gives_up_on_silence_iff (o : ByteOrder) (n recvWindow : ℕ) (content : List UInt8)
    (memory : ℕ → Data) (localcopy : Data) (rttinfo : RttInfo) (tv : Timeval)
    (es : List ServerEvent) (y : TimeoutLog)
    (hr : Run (TimeoutLog.step o) (fun _ _ => True)
      ⟨.start n recvWindow content memory localcopy rttinfo tv, 0, false⟩ es y)
    (hgave : y.server.pc = .gaveUp) :
    rttMaxnrexmt + 1 ≤ y.silent ↔ y.answered = false := by
  have hcounts : ¬ y.server.AtTop → Counts y :=
    hr.invariant (fun y => ¬ y.server.AtTop → Counts y) (fun _ _ _ h _ hs => counts_step h hs)
      (fun htop => absurd (.inl rfl) htop)
  obtain ⟨_, hspent, hunanswered, hheard⟩ := hcounts (by simp [Server.AtTop, hgave])
  have hn := hspent hgave
  cases ha : y.answered with
  | false =>
    have hle := hunanswered ha
    exact iff_of_true (by omega) rfl
  | true =>
    have hlt := hheard ha
    exact iff_of_false (by omega) (by simp)

def patientStart : TimeoutLog := ⟨booted 8 (List.replicate 3000 65), 0, false⟩

/-- The client is gone, and the first datagram times out thirteen times. -/
def deserted : List ServerEvent :=
  [.go ⟨101, 0⟩, .go ⟨101, 0⟩, .go ⟨101, 0⟩] ++ List.replicate 13 (.alarm false)

def desertedEnd : TimeoutLog := (exec (TimeoutLog.step .little) patientStart deserted).getD patientStart

theorem gives_up_deserted : desertedEnd.server.pc = .gaveUp ∧ rttMaxnrexmt + 1 ≤ desertedEnd.silent := by
  have hgave : desertedEnd.server.pc = .gaveUp := by decide +kernel
  exact ⟨hgave, (gives_up_on_silence_iff .little 8 8 (List.replicate 3000 65) _ _ _ _ deserted
    desertedEnd (.of_runnable (by decide +kernel) patientStart) hgave).mpr (by decide +kernel)⟩

/-- Datagram 1 is acknowledged, 2 is lost, and ACK 2 arrives for 3, twice. Then 2 and 3 are sent
again, with 4 and 5. -/
def headLost : List ServerEvent :=
  [.go ⟨101, 0⟩, .go ⟨101, 0⟩, .go ⟨101, 0⟩, .recv ⟨2, 1000, 2048⟩ ⟨101, 0⟩, .go ⟨101, 0⟩,
    .go ⟨101, 0⟩, .go ⟨101, 0⟩, .go ⟨101, 0⟩, .recv ⟨2, 1000, 2048⟩ ⟨101, 0⟩,
    .recv ⟨2, 1000, 2048⟩ ⟨101, 0⟩, .go ⟨101, 0⟩, .go ⟨101, 0⟩, .go ⟨101, 0⟩, .go ⟨101, 0⟩]

/-- Datagram 2 times out twelve times, and ACK 2 arrives for 4. -/
def lateAnswer : List ServerEvent :=
  headLost ++ List.replicate 12 (.alarm false) ++ [.recv ⟨2, 1000, 2048⟩ ⟨140, 0⟩]

def lateAnswerEnd : TimeoutLog :=
  (exec (TimeoutLog.step .little) patientStart lateAnswer).getD patientStart

/-- The ACK is the third duplicate: the child counts it as one more timeout and gives up. -/
theorem gives_up_on_answer :
    Run (TimeoutLog.step .little) (fun _ _ => True) patientStart lateAnswer lateAnswerEnd ∧
      lateAnswerEnd.server.pc = .gaveUp ∧ lateAnswerEnd.silent = 0 ∧
      ¬ rttMaxnrexmt + 1 ≤ lateAnswerEnd.silent := by
  have hsilent : lateAnswerEnd.silent = 0 := by decide +kernel
  refine ⟨.of_runnable (by decide +kernel) patientStart, by decide +kernel, hsilent, ?_⟩
  rw [hsilent]
  exact Nat.not_succ_le_zero _

end NetLab.Transfer
