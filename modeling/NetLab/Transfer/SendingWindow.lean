import NetLab.Transfer.Congestion
import NetLab.Transfer.FastRetransmit

/-! The window arithmetic of the sender. The ACK loop ends when `received` is equal to
`sending_window`, which three places compute. -/
namespace NetLab.Transfer
open NetLab.Lib

/-- The state in which an event has the ACK loop test `received!=sending_window`, if it does. -/
def Server.atLoopTest (s : Server) (o : ByteOrder) : ServerEvent → Option Server
  | .recv h tv =>
    if s.pc = .wait ∧ h.seq ≠ 0 ∧ s.fastRetransmits h = false then
      some ((s.afterAck o h tv).setAck (s.frontAck h.seq + 1))
    else none
  | _ => none

/-- Past the head of the outer loop there is a sending window, and in the ACK loop fewer ACKs have
been received. -/
structure Windowed (s : Server) : Prop where
  sendWindow : 1 ≤ s.sendWindow
  sendingWindow : ¬ s.AtTop → 1 ≤ s.sendingWindow
  received : s.pc = .wait → s.received < s.sendingWindow

theorem threeMin_pos {a b c : ℕ} (ha : 1 ≤ a) (hb : 1 ≤ b) (hc : 1 ≤ c) : 1 ≤ threeMin a b c := by
  unfold threeMin
  dsimp only
  split_ifs <;> assumption

section
variable {o : ByteOrder} {s t : Server} {e : ServerEvent} {out : List Datagram}

theorem grow_pos (hcwnd : 1 ≤ s.cwnd) (hssh : 1 ≤ s.ssh) : 1 ≤ s.grow.cwnd ∧ 1 ≤ s.grow.ssh := by
  unfold Server.grow
  split_ifs
  · exact ⟨Nat.le_add_left 1 s.cwnd, hssh⟩
  · exact ⟨Nat.le_add_left 1 s.cwnd, hssh⟩
  · exact ⟨hcwnd, hssh⟩

theorem grow_le (s : Server) : s.grow.cwnd ≤ s.cwnd + 1 := by
  unfold Server.grow
  split_ifs
  · exact le_rfl
  · exact le_rfl
  · exact Nat.le_add_right s.cwnd 1

/-- Cuts halve `cwnd` or set it to 1, and only ACKs raise it. -/
theorem cwnd_step (h : s.step o e = some (t, out)) (hcwnd : 1 ≤ s.cwnd) (hssh : 1 ≤ s.ssh) :
    1 ≤ t.cwnd ∧ 1 ≤ t.ssh ∧ t.cwnd ≤ (s.acked e).cwnd := by
  have hacked : 1 ≤ (s.acked e).cwnd ∧ 1 ≤ (s.acked e).ssh := by
    cases e with
    | recv hd tv =>
      unfold Server.acked
      dsimp only
      split_ifs
      · exact grow_pos hcwnd hssh
      · exact ⟨hcwnd, hssh⟩
    | go tv => exact ⟨hcwnd, hssh⟩
    | alarm _ => exact ⟨hcwnd, hssh⟩
  have hpos := halved_pos (s.acked e).cwnd
  have hle : halved (s.acked e).cwnd ≤ (s.acked e).cwnd := by
    unfold halved
    split_ifs <;> omega
  have hc := step_control h
  cases hcut : s.cut o e with
  | none =>
    simp only [hcut, Option.map_none, Option.getD_none, Server.control, Prod.mk.injEq] at hc
    rw [hc.1, hc.2.1]
    exact ⟨hacked.1, hacked.2, le_rfl⟩
  | some k =>
    rw [hcut] at hc
    simp only [Option.map_some, Option.getD_some] at hc
    cases k with
    | top => exact absurd hcut cut_ne_top
    | timeout =>
      simp only [Server.afterCut, Server.control, Prod.mk.injEq] at hc
      rw [hc.1, hc.2.1]
      exact ⟨le_rfl, hpos, hacked.1⟩
    | fast =>
      simp only [Server.afterCut, Server.control, Prod.mk.injEq] at hc
      rw [hc.1, hc.2.1]
      exact ⟨hpos, hpos, hle⟩

theorem resume_windowed {k : Resume} (hs : 1 ≤ s.sendWindow) (hw : 1 ≤ s.recvWindow)
    (hk : k ≠ .top → 1 ≤ s.sendingWindow) : Windowed (s.resume k).1 := by
  cases k with
  | top => exact ⟨hs, fun htop => absurd (.inl rfl) htop, by simp [Server.resume]⟩
  | timeout => exact ⟨hs, fun _ => le_rfl, fun _ => Nat.one_pos⟩
  | fast =>
    have hsend := hk (by simp)
    have hmin := threeMin_pos (halved_pos s.cwnd) hs hw
    unfold Server.resume
    dsimp only
    split_ifs
    · exact ⟨hs, fun _ => hsend, fun _ => hsend⟩
    · refine ⟨hs, fun _ => ?_, by simp⟩
      dsimp only
      omega

theorem backOff_windowed {k : Resume} (hs : 1 ≤ s.sendWindow) (hsend : 1 ≤ s.sendingWindow) :
    Windowed (s.backOff k).1 := by
  unfold Server.backOff
  dsimp only
  split_ifs with hgive hw
  · exact ⟨hs, fun _ => hsend, by simp⟩
  · exact ⟨hs, fun _ => hsend, by simp [Server.lock]⟩
  · exact resume_windowed hs (Nat.one_le_iff_ne_zero.mpr hw) fun _ => hsend

theorem afterAck_windows (s : Server) (o : ByteOrder) (h : Hdr) (tv : Timeval) :
    let t := s.afterAck o h tv
    t.sendWindow = s.sendWindow ∧ t.sendingWindow = s.sendingWindow ∧ t.received = s.received + 1 := by
  obtain ⟨c, a, m, hcount⟩ := countAck_spec s h tv
  obtain ⟨Q, n, hdiscard⟩ := discard_eq (s.countAck h tv) h.seq
  unfold Server.afterAck
  rw [hdiscard, hcount]
  exact ⟨rfl, rfl, rfl⟩

theorem Windowed.atLoopTest {u : Server} (h : Windowed s) (hu : s.atLoopTest o e = some u) :
    u.received ≤ u.sendingWindow ∧ s.step o e = some (u.loopTest, []) := by
  cases e with
  | recv hd tv =>
    simp only [Server.atLoopTest, Option.ite_none_right_eq_some, Option.some.injEq] at hu
    obtain ⟨⟨hpc, h0, hslow⟩, rfl⟩ := hu
    obtain ⟨_, hsend, hrec⟩ := afterAck_windows s o hd tv
    constructor
    · simp only [Server.setAck, hsend, hrec]
      exact h.received hpc
    · simp only [Server.step, hpc]
      rw [onAck_branch s o hd tv h0, hslow]
      rfl
  | go tv => cases hu
  | alarm _ => cases hu

theorem onAck_windowed (h : Windowed s) (hpc : s.pc = .wait) (hd : Hdr) (tv : Timeval) :
    Windowed (s.onAck o hd tv).1 := by
  obtain ⟨hsw, hsend, hrec⟩ := h
  have hlt := hrec hpc
  have hpos := hsend (by simp [Server.AtTop, hpc])
  by_cases h0 : hd.seq = 0
  · obtain ⟨c, a, m, hcount⟩ := countAck_spec s hd tv
    rw [onAck_end s o tv h0, hcount]
    exact ⟨hsw, fun _ => hpos, by simp⟩
  · obtain ⟨hsw', hsend', hrec'⟩ := afterAck_windows s o hd tv
    rw [onAck_branch s o hd tv h0]
    generalize s.afterAck o hd tv = s₁ at hsw' hsend' hrec'
    split_ifs
    · exact backOff_windowed (hsw'.ge.trans' hsw) (hsend'.ge.trans' hpos)
    · unfold Server.loopTest
      dsimp only
      split_ifs with htest
      · -- the loop goes on with another ACK, so the count has not reached the window
        have hne : s₁.received ≠ s₁.sendingWindow := htest.1
        refine ⟨hsw'.ge.trans' hsw, fun _ => hsend'.ge.trans' hpos, fun _ => ?_⟩
        simp only [Server.setAck]
        omega
      · exact ⟨hsw'.ge.trans' hsw, fun htop => absurd (.inl rfl) htop, by simp⟩

theorem windowed_step (h : Windowed s) (hcwnd : 1 ≤ s.cwnd) (hs : s.step o e = some (t, out)) :
    Windowed t := by
  obtain ⟨hsw, hsend, hrec⟩ := h
  cases Server.handles hs with
  | lock tv hpc hw ht =>
    rw [ht]
    exact ⟨hsw, fun htop => absurd (.inr rfl) htop, by simp [Server.lock]⟩
  | openWindow tv hpc hw heq =>
    cases heq
    exact ⟨hsw, fun _ => threeMin_pos hcwnd hsw (Nat.one_le_iff_ne_zero.mpr hw), by simp⟩
  | dataAlarm tv hpc ht =>
    rw [ht]
    have hpos := hsend (by simp [Server.AtTop, hpc])
    exact ⟨hsw, fun _ => hpos, fun _ => hpos⟩
  | sendData tv left hpc heq =>
    have hpos := hsend (by simp [Server.AtTop, hpc])
    unfold Server.sendData at heq
    dsimp only at heq
    split_ifs at heq <;> cases heq
    · exact ⟨hsw, fun _ => hpos, fun _ => hpos⟩
    · exact ⟨hsw, fun _ => hpos, by simp⟩
  | window hd tv k hpc heq =>
    have hpos : k ≠ .top → 1 ≤ s.sendingWindow := fun hk => hsend (by simp [Server.AtTop, hpc, hk])
    unfold Server.onWindow at heq
    dsimp only at heq
    split_ifs at heq with hw
    · have hres := resume_windowed (s := { s with recvWindow := o.ntohs hd.recvWindow }) hsw hw hpos
      rwa [heq] at hres
    · cases heq
      exact ⟨hsw, hsend, hrec⟩
  | ack hd tv hpc heq =>
    have hack := onAck_windowed (o := o) ⟨hsw, hsend, hrec⟩ hpc hd tv
    rwa [heq] at hack
  | probe _ k hpc ht =>
    rw [ht]
    exact ⟨hsw, hsend, hrec⟩
  | timeout back hpc hb heq =>
    have hback := backOff_windowed (s := s.longjmp back) (k := .timeout) hsw
      (hsend (by simp [Server.AtTop, hpc]))
    rwa [heq] at hback

end

/-- The windows of the sender stay positive, an ACK raises `cwnd` by one at most and nothing else
does, and the ACK loop never passes its exit test. -/
theorem sending_window_positive (o : ByteOrder) (n recvWindow : ℕ) (content : List UInt8)
    (memory : ℕ → Data) (localcopy : Data) (rttinfo : RttInfo) (tv : Timeval) (hn : 1 ≤ n)
    (es : List ServerEvent) (s : Server)
    (hr : Run (Server.next o) (fun _ _ => True)
      (.start n recvWindow content memory localcopy rttinfo tv) es s) :
    1 ≤ s.cwnd ∧ 1 ≤ s.ssh ∧ (s.pc = .wait → 1 ≤ s.sendingWindow) ∧
    (∀ h tv t, s.pc = .wait → s.next o (.recv h tv) = some t → t.cwnd ≤ s.cwnd + 1) ∧
    (∀ e t, s.next o e = some t → (s.pc = .wait → ∀ h tv, e ≠ .recv h tv) → t.cwnd ≤ s.cwnd) ∧
    ∀ e u, s.atLoopTest o e = some u →
      u.received ≤ u.sendingWindow ∧ s.step o e = some (u.loopTest, []) := by
  have hinv : Windowed s ∧ 1 ≤ s.cwnd ∧ 1 ≤ s.ssh := by
    refine hr.invariant (fun s => Windowed s ∧ 1 ≤ s.cwnd ∧ 1 ≤ s.ssh) ?_ ?_
    · intro s t e h _ hs
      obtain ⟨⟨t, out⟩, hstep, rfl⟩ := Option.map_eq_some_iff.mp hs
      obtain ⟨hwin, hcwnd, hssh⟩ := h
      obtain ⟨hcwnd', hssh', _⟩ := cwnd_step hstep hcwnd hssh
      exact ⟨windowed_step hwin hcwnd hstep, hcwnd', hssh'⟩
    · exact ⟨⟨hn, fun htop => absurd (.inl rfl) htop, by simp [Server.start]⟩, le_rfl,
        by simp [Server.start]⟩
  obtain ⟨hwin, hcwnd, hssh⟩ := hinv
  refine ⟨hcwnd, hssh, fun hpc => hwin.sendingWindow (by simp [Server.AtTop, hpc]), ?_, ?_,
    fun e u hu => hwin.atLoopTest hu⟩
  · intro h tv t hpc hs
    obtain ⟨⟨t, out⟩, hstep, rfl⟩ := Option.map_eq_some_iff.mp hs
    have hle := (cwnd_step hstep hcwnd hssh).2.2
    simp only [Server.acked, hpc, if_true] at hle
    exact hle.trans (grow_le s)
  · intro e t hs hack
    obtain ⟨⟨t, out⟩, hstep, rfl⟩ := Option.map_eq_some_iff.mp hs
    have hsame : s.acked e = s := by
      cases e with
      | recv h tv => exact if_neg fun hpc => hack hpc h tv rfl
      | go tv => rfl
      | alarm _ => rfl
    have hle := (cwnd_step hstep hcwnd hssh).2.2
    rwa [hsame] at hle

theorem sending_window_positive_slowed : slowedEnd.pc = .wait ∧ 1 ≤ slowedEnd.sendingWindow := by
  have hpc : slowedEnd.pc = .wait := by decide +kernel
  have hpos := sending_window_positive .little 4 8 (List.replicate 2000 65) (fun _ => ⟨0, 0, [], 0⟩)
    ⟨0, 0, [], 0⟩ ⟨0, 0, 0, 0, 0, 0⟩ ⟨100, 0⟩ (by decide) slowed slowedEnd
    (.of_runnable (by decide +kernel) slowedStart)
  exact ⟨hpc, hpos.2.2.1 hpc⟩

end NetLab.Transfer
