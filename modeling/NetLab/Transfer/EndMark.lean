import NetLab.Transfer.Eof
import NetLab.Transfer.FastRetransmit
import NetLab.Transfer.FlowControl

/-! The end-of-file mark. Fast recovery sends new data only before the end of the file; the loop for
new data at the head of the outer loop does not look, and runs again with every window it is
left. -/
namespace NetLab.Transfer
open NetLab.Lib

/-- The child and what it has sent. -/
structure Sender where
  server : Server
  sent : List Datagram

def Sender.step (o : ByteOrder) (y : Sender) (e : ServerEvent) : Option Sender :=
  (y.server.step o e).map fun r => ⟨r.1, y.sent ++ r.2⟩

/-- `rtt_ts` does not return 0 for a datagram. -/
def StampRuns (y : Sender) (e : ServerEvent) : Prop :=
  ∀ tv, e = .go tv → y.server.readsFull = true → rttTs y.server.rttinfo tv ≠ 0

/-- The datagram ends the file: it is the last one made, and the file was read to its end. -/
def Server.EndsFile (s : Server) (d : Datagram) : Prop :=
  s.file.eof = true ∧ d.seq = s.sequenceNumber

/-- No mark but that of the datagram that ends the file, and no new datagram due behind it. -/
structure OneMark (y : Sender) : Prop where
  marked : ∀ d ∈ y.sent, d.ts = 0 → d.seq ≠ 0 → y.server.EndsFile d
  last : y.server.file.eof = true → y.server.creates = false

/-- Once the file was read to its end the window at the head of the outer loop is no wider than the
queue is long, and what is sent again from memory that was never written carries no mark. -/
structure Marks (o : ByteOrder) (y : Sender) (e : ServerEvent) : Prop where
  window : y.server.pc = .top → y.server.recvWindow ≠ 0 → y.server.file.eof = true →
    (threeMin y.server.cwnd y.server.sendWindow y.server.recvWindow : ℤ) ≤
      cirQueueLength y.server.sendBuffer
  resent : ∀ i ∈ y.server.resends o e, ¬ y.server.Written i → (y.server.resend i).ts = 0 →
    (y.server.resend i).seq ≠ 0 → y.server.EndsFile (y.server.resend i)

instance (y : Sender) (e : ServerEvent) : Decidable (StampRuns y e) :=
  match e with
  | .go tv => decidable_of_iff (y.server.readsFull = true → rttTs y.server.rttinfo tv ≠ 0)
      ⟨fun h _ he => (by cases he; exact h), fun h => h tv rfl⟩
  | .recv _ _ => .isTrue fun _ he => (by cases he)
  | .alarm _ => .isTrue fun _ he => (by cases he)

instance (s : Server) (d : Datagram) : Decidable (s.EndsFile d) := inferInstanceAs (Decidable (_ ∧ _))

instance (o : ByteOrder) (y : Sender) (e : ServerEvent) : Decidable (Marks o y e) :=
  decidable_of_iff ((y.server.pc = .top → y.server.recvWindow ≠ 0 → y.server.file.eof = true →
      (threeMin y.server.cwnd y.server.sendWindow y.server.recvWindow : ℤ) ≤
        cirQueueLength y.server.sendBuffer) ∧
    ∀ i ∈ y.server.resends o e, ¬ y.server.Written i → (y.server.resend i).ts = 0 →
      (y.server.resend i).seq ≠ 0 → y.server.EndsFile (y.server.resend i))
    ⟨fun h => ⟨h.1, h.2⟩, fun h => ⟨h.window, h.resent⟩⟩

/-- Every entry that was written was sent, and so was a mark once the file was read to its end. -/
structure SentMarks (content : List UInt8) (y : Sender) : Prop where
  stocked : Stocked content y.server
  written : ∀ i, y.server.Written i → y.server.resend i ∈ y.sent
  ended : y.server.file.eof = true → ∃ d ∈ y.sent, d.ts = 0 ∧ d.seq ≠ 0

section
variable {o : ByteOrder} {s t : Server} {e : ServerEvent} {out : List Datagram}

theorem resume_creates {k : Resume} (heof : s.file.eof = true) : (s.resume k).1.creates = false := by
  cases k with
  | top => rfl
  | timeout => rfl
  | fast => simp [Server.resume, heof, Server.dataAlarmAgain, Server.creates]

theorem backOff_creates {k : Resume} (heof : s.file.eof = true) :
    (s.backOff k).1.creates = false := by
  unfold Server.backOff
  dsimp only
  split_ifs
  · rfl
  · rfl
  · exact resume_creates heof

theorem loopTest_creates (hpc : s.pc = .wait) : s.loopTest.creates = false := by
  unfold Server.loopTest Server.creates
  split_ifs <;> simp [hpc]

theorem onAck_creates {hd : Hdr} {tv : Timeval} (hpc : s.pc = .wait) (heof : s.file.eof = true) :
    (s.onAck o hd tv).1.creates = false := by
  by_cases h0 : hd.seq = 0
  · rw [onAck_end s o tv h0]
    rfl
  · have hpc' := (afterAck_pc s o hd tv).trans hpc
    have heof' : (s.afterAck o hd tv).file.eof = true := by rw [(afterAck_keeps s o hd tv).file, heof]
    rw [onAck_branch s o hd tv h0]
    split_ifs
    · exact backOff_creates heof'
    · exact loopTest_creates hpc'

theorem onWindow_creates {hd : Hdr} {k : Resume} (hpc : s.pc = .probe k) (heof : s.file.eof = true) :
    (s.onWindow o k hd).1.creates = false := by
  unfold Server.onWindow
  dsimp only
  split_ifs
  · exact resume_creates heof
  · simp [Server.creates, hpc]

theorem openWindow_creates : s.openWindow.1.creates = true ↔
    cirQueueLength s.sendBuffer < threeMin s.cwnd s.sendWindow s.recvWindow := by
  have hleft : cirQueueLength s.sendBuffer < threeMin s.cwnd s.sendWindow s.recvWindow ↔
      0 < ((threeMin s.cwnd s.sendWindow s.recvWindow : ℤ) -
        cirQueueLength s.sendBuffer).toNat := by omega
  rw [hleft]
  unfold Server.openWindow Server.creates
  dsimp only
  generalize ((threeMin s.cwnd s.sendWindow s.recvWindow : ℤ) -
    cirQueueLength s.sendBuffer).toNat = left
  cases left <;> simp

/-- After the end of the file only the head of the outer loop leads to new data. -/
theorem creates_of_step (h : s.step o e = some (t, out)) (heof : s.file.eof = true)
    (hcr : s.creates = false) : t.creates = true ↔ s.pc = .top ∧ s.recvWindow ≠ 0 ∧
      cirQueueLength s.sendBuffer < threeMin s.cwnd s.sendWindow s.recvWindow := by
  cases Server.handles h with
  | lock tv hpc hw ht _ => simp [ht, Server.lock, Server.creates, hw]
  | openWindow tv hpc hw heq =>
    have hopen := openWindow_creates (s := s)
    rw [heq] at hopen
    simpa [hpc, hw] using hopen
  | dataAlarm tv hpc ht _ => simp [ht, Server.dataAlarmAgain, Server.creates, hpc]
  | sendData tv left hpc _ => simp [Server.creates, hpc] at hcr
  | window hd tv k hpc heq =>
    have hno : (s.onWindow o k hd).1.creates = false := onWindow_creates hpc heof
    rw [heq] at hno
    simp [hno, hpc]
  | ack hd tv hpc heq =>
    have hno : (s.onAck o hd tv).1.creates = false := onAck_creates hpc heof
    rw [heq] at hno
    simp [hno, hpc]
  | probe _ k hpc ht _ => simp [ht, hcr, hpc]
  | timeout back hpc _ heq =>
    have hno := backOff_creates (s := s.longjmp back) (k := .timeout) heof
    rw [heq] at hno
    simp [hno, hpc]

theorem sendData_creates (s : Server) (left : ℕ) (tv : Timeval)
    (heof : (s.sendData left tv).1.file.eof = true) : (s.sendData left tv).1.creates = false := by
  unfold Server.sendData at heof ⊢
  dsimp only at heof ⊢
  split_ifs at heof ⊢ with h
  · rfl
  · exact absurd heof h

theorem ts_newData_eq_zero {content : List UInt8} {y : Sender} {left : ℕ} {tv : Timeval}
    (h : Stocked content y.server) (hpc : y.server.pc = .sendNew (left + 1))
    (hstamp : StampRuns y (.go tv)) :
    (y.server.newData tv).1.ts = 0 ↔ (y.server.newData tv).2.eof = true := by
  have hts : (y.server.newData tv).1.ts =
      if (y.server.newData tv).2.eof then 0 else rttTs y.server.rttinfo tv := rfl
  rw [hts]
  split_ifs with heof
  · exact iff_of_true rfl heof
  · refine iff_of_false (hstamp tv rfl ?_) heof
    rw [(h.reads.newData tv).2.2.2, decide_eq_true_eq, not_lt] at heof
    simp only [Server.readsFull, hpc, decide_eq_true_eq, h.source, h.read]
    unfold packetCapacity at heof ⊢
    omega

theorem SentMarks.step {content : List UInt8} {y z : Sender} (h : SentMarks content y)
    (hstamp : StampRuns y e) (hs : y.step o e = some z) : SentMarks content z := by
  obtain ⟨⟨t, out⟩, hstep, rfl⟩ := Option.map_eq_some_iff.mp hs
  have hstocked := h.stocked.step hstep
  rcases Server.step_cases hstep with ⟨left, tv, hpc, rfl, heq⟩ | hno
  · obtain ⟨_, _, _, _, hf, _, hout, hseq⟩ := sendData_spec y.server left tv
    have hwritten := @Stocked.written_sendData content y.server h.stocked left tv
    rw [heq] at hf hout hwritten
    dsimp only at hf hout hwritten
    rw [hout]
    refine ⟨hstocked, ?_, ?_⟩
    · intro i hi
      rw [List.mem_append, List.mem_singleton]
      exact ((hwritten hi).imp id fun hold => hold.2 ▸ h.written i hold.1).symm
    · intro heof
      dsimp only at heof
      rw [hf] at heof
      refine ⟨(y.server.newData tv).1.datagram, by simp, ?_, ?_⟩
      · exact (ts_newData_eq_zero h.stocked hpc hstamp).mpr heof
      · simp [Data.datagram, hseq]
  · refine ⟨hstocked, ?_, ?_⟩
    · intro i hi
      have hold : y.server.Written i :=
        ⟨by rw [← hno.keeps.maxQsize]; exact hi.1, by rw [← hno.keeps.sequenceNumber]; exact hi.2⟩
      rw [hno.keeps.resend]
      exact List.mem_append_left _ (h.written i hold)
    · intro heof
      dsimp only at heof
      rw [hno.keeps.file] at heof
      obtain ⟨d, hd, hmark⟩ := h.ended heof
      exact ⟨d, List.mem_append_left _ hd, hmark⟩

theorem OneMark.make_iff {content : List UInt8} {y : Sender} {left : ℕ} {tv : Timeval}
    (hI : SentMarks content y) (h : OneMark y) (hpc : y.server.pc = .sendNew (left + 1))
    (hstamp : StampRuns y (.go tv)) :
    OneMark ⟨(y.server.sendData left tv).1, y.sent ++ (y.server.sendData left tv).2⟩ ↔
      Marks o y (.go tv) := by
  obtain ⟨_, _, hn, _, hf, _, hout, hseq⟩ := sendData_spec y.server left tv
  refine iff_of_true ⟨?_, sendData_creates y.server left tv⟩
    ⟨by simp [hpc], by simp [Server.resends, hpc]⟩
  -- a datagram is due, so the end of the file is ahead and nothing was marked
  have hopen : y.server.file.eof ≠ true := by
    intro heof
    have hno := h.last heof
    simp [Server.creates, hpc] at hno
  intro d hd hts h0
  dsimp only at hd ⊢
  rw [hout, List.mem_append, List.mem_singleton] at hd
  rcases hd with hd | rfl
  · exact absurd (h.marked d hd hts h0).1 hopen
  · unfold Server.EndsFile
    rw [hf, hn]
    exact ⟨(ts_newData_eq_zero hI.stocked hpc hstamp).mp hts, hseq⟩

theorem OneMark.quiet_iff {content : List UInt8} {y : Sender} (hI : SentMarks content y)
    (h : OneMark y) (hs : y.server.step o e = some (t, out))
    (hno : ∀ left tv, y.server.pc = .sendNew (left + 1) → e ≠ .go tv) :
    OneMark ⟨t, y.sent ++ out⟩ ↔ Marks o y e := by
  have hkeep := (noNewData_of_step hs hno).keeps
  have hfile := hkeep.file
  have hends : ∀ d, t.EndsFile d ↔ y.server.EndsFile d := by
    intro d
    unfold Server.EndsFile
    rw [hkeep.file, hkeep.sequenceNumber]
  have hout := resends_of_step hs hno
  constructor
  · intro hz
    refine ⟨?_, ?_⟩
    · intro hpc hw heof
      have hcr := creates_of_step hs heof (h.last heof)
      rw [hz.last (hfile ▸ heof)] at hcr
      by_contra hlt
      exact absurd (hcr.mpr ⟨hpc, hw, not_le.mp hlt⟩) (by simp)
    · intro i hi _ hts h0
      have hmem : y.server.resend i ∈ out := by
        rcases hout with rfl | ⟨_, hnil⟩
        · exact List.mem_map_of_mem hi
        · rw [hnil] at hi
          cases hi
      exact (hends _).mp (hz.marked _ (List.mem_append_right _ hmem) hts h0)
  · intro hK
    refine ⟨?_, ?_⟩
    · intro d hd hts h0
      refine (hends d).mpr ?_
      rcases List.mem_append.mp hd with hd | hd
      · exact h.marked d hd hts h0
      · rcases hout with rfl | ⟨rfl, _⟩
        · obtain ⟨i, hi, rfl⟩ := List.mem_map.mp hd
          by_cases hw : y.server.Written i
          · exact h.marked _ (hI.written i hw) hts h0
          · exact hK.resent i hi hw hts h0
        · rw [List.mem_singleton.mp hd] at h0
          exact absurd rfl h0
    · intro heof
      dsimp only at heof ⊢
      rw [hfile] at heof
      rw [← Bool.not_eq_true, creates_of_step hs heof (h.last heof)]
      intro ⟨hpc, hw, hlt⟩
      exact absurd (hK.window hpc hw heof) (not_le.mpr hlt)

theorem OneMark.step_iff {content : List UInt8} {y z : Sender} (hI : SentMarks content y)
    (h : OneMark y) (hstamp : StampRuns y e) (hs : y.step o e = some z) :
    OneMark z ↔ Marks o y e := by
  obtain ⟨⟨t, out⟩, hstep, rfl⟩ := Option.map_eq_some_iff.mp hs
  rcases Server.sendData_or hstep with ⟨left, tv, hpc, rfl, heq⟩ | hno
  · have hiff := h.make_iff (o := o) hI hpc hstamp
    rwa [heq] at hiff
  · exact h.quiet_iff hI hstep hno

end

/-- Along a run in which the clock runs there is one end-of-file mark, and nothing new behind it, if
and only if every step meets `Marks`. The end of the file was marked once it was read. -/
theorem one_mark_iff (o : ByteOrder) (n recvWindow : ℕ) (content : List UInt8)
    (memory : ℕ → Data) (localcopy : Data) (rttinfo : RttInfo) (tv : Timeval) (hn : 0 < n)
    (es : List ServerEvent) (y : Sender)
    (hr : Run (Sender.step o) StampRuns
      ⟨.start n recvWindow content memory localcopy rttinfo tv, []⟩ es y) :
    (Along (Sender.step o) OneMark
        ⟨.start n recvWindow content memory localcopy rttinfo tv, []⟩ es ↔
      Run (Sender.step o) (fun y e => StampRuns y e ∧ Marks o y e)
        ⟨.start n recvWindow content memory localcopy rttinfo tv, []⟩ es y) ∧
    (y.server.file.eof = true → ∃ d ∈ y.sent, d.ts = 0 ∧ d.seq ≠ 0) := by
  have h₀ : SentMarks content ⟨.start n recvWindow content memory localcopy rttinfo tv, []⟩ :=
    ⟨stocked_start hn recvWindow content memory localcopy rttinfo tv,
      fun i hi => absurd hi.2 (Nat.not_lt_zero i), fun h => by cases h⟩
  have hone : OneMark ⟨.start n recvWindow content memory localcopy rttinfo tv, []⟩ :=
    ⟨fun d hd => by simp at hd, fun _ => rfl⟩
  refine ⟨?_, ?_⟩
  · exact hr.along_iff (SentMarks content) OneMark (fun _ _ _ h hok hs => h.step hok hs)
      (fun _ _ _ hI h hok hs => h.step_iff hI hok hs) h₀ hone
  · exact (hr.invariant _ (fun _ _ _ h hok hs => SentMarks.step h hok hs) h₀).ended

def markStart : Sender := ⟨booted 8 (List.replicate 1200 65), []⟩

/-- The file takes three datagrams; the last two are sent together. -/
def wholeFile : List ServerEvent :=
  [.go ⟨101, 0⟩, .go ⟨101, 0⟩, .go ⟨101, 0⟩, .recv ⟨2, 1000, 2048⟩ ⟨102, 0⟩, .go ⟨102, 0⟩,
    .go ⟨102, 0⟩, .go ⟨102, 0⟩]

def wholeFileEnd : Sender := (exec (Sender.step .little) markStart wholeFile).getD markStart

theorem one_mark_whole_file : OneMark wholeFileEnd ∧ ∃ d ∈ wholeFileEnd.sent, d.ts = 0 ∧ d.seq ≠ 0 := by
  obtain ⟨hiff, hended⟩ := one_mark_iff .little 8 8 (List.replicate 1200 65) (fun _ => ⟨0, 0, [], 0⟩)
    ⟨0, 0, [], 0⟩ ⟨0, 0, 0, 0, 0, 0⟩ ⟨100, 0⟩ (by decide) wholeFile wholeFileEnd
    (.of_runnable (by decide +kernel) markStart)
  have hr : Run (Sender.step .little) (fun y e => StampRuns y e ∧ Marks .little y e) markStart
      wholeFile wholeFileEnd := .of_runnable (by decide +kernel) markStart
  exact ⟨(hiff.mpr hr).last hr, hended (by decide +kernel)⟩

/-- The second datagram is lost, and it times out when the client has the third. The ACK of all three
leaves the queue empty. -/
def extraMark : List ServerEvent :=
  wholeFile ++ [.alarm false, .recv ⟨4, 2000, 2048⟩ ⟨105, 0⟩, .go ⟨105, 0⟩, .go ⟨105, 0⟩]

def extraMarkEnd : Sender := (exec (Sender.step .little) markStart extraMark).getD markStart

/-- A fourth datagram is made, empty and marked like the third. -/
theorem second_end_mark :
    Run (Sender.step .little) StampRuns markStart extraMark extraMarkEnd ∧
      ((extraMarkEnd.sent.filter fun d => d.ts = 0 ∧ d.seq ≠ 0).map Datagram.seq = [3, 4]) ∧
      ¬ Along (Sender.step .little) OneMark markStart extraMark := by
  have hmarks : (extraMarkEnd.sent.filter fun d => d.ts = 0 ∧ d.seq ≠ 0).map Datagram.seq = [3, 4] := by
    decide +kernel
  have hr : Run (Sender.step .little) StampRuns markStart extraMark extraMarkEnd :=
    .of_runnable (by decide +kernel) markStart
  refine ⟨hr, hmarks, ?_⟩
  intro h
  have hone : OneMark extraMarkEnd := h.last hr
  have hall : ∀ k ∈ (extraMarkEnd.sent.filter fun d => d.ts = 0 ∧ d.seq ≠ 0).map Datagram.seq,
      k = extraMarkEnd.server.sequenceNumber := by
    intro k hk
    obtain ⟨d, hd, rfl⟩ := List.mem_map.mp hk
    obtain ⟨hd, hmark⟩ := List.mem_filter.mp hd
    have hmark := of_decide_eq_true hmark
    exact (hone.marked d hd hmark.1 hmark.2).2
  rw [hmarks] at hall
  have h3 := hall 3 (by simp)
  have h4 := hall 4 (by simp)
  omega

end NetLab.Transfer
