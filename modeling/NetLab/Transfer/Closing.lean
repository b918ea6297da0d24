import NetLab.Transfer.Signals
import NetLab.Transfer.FlowControl

/-! The end of a transfer. The client leaves its receive loop on `data_flag` alone, and the
server child looks for the end ACK in only one of the four places where it receives. -/
namespace NetLab.Transfer
open NetLab.Lib

/-- The client and the headers that it has sent. -/
structure ClientLog where
  client : Client
  acks : List Hdr

def ClientLog.start : ClientLog := ⟨.start, []⟩

def ClientLog.step (o : ByteOrder) (W : ℕ) (y : ClientLog) (e : ClientEvent) :
    Option ClientLog :=
  (y.client.step o W e).map fun r => ⟨r.1, y.acks ++ r.2⟩

/-- Once the receive loop was left by its `break`, an end ACK has been sent. -/
def Confirmed (y : ClientLog) : Prop := y.client.receiving = false → ∃ a ∈ y.acks, a.seq = 0

/-- After `data_flag` was set, a datagram that is not lost and whose ACK is not lost either
ends the file again. -/
def Reconfirms (y : ClientLog) (e : ClientEvent) : Prop :=
  ∀ d, e = .datagram d false false → d.seq ≠ 0 → y.client.dataFlag = true →
    (y.client.insert d).complete d = true

/-- As long as the client receives it has not sent an end ACK. -/
def StillOpen (y : ClientLog) : Prop := y.client.receiving = true → ∀ a ∈ y.acks, a.seq ≠ 0

theorem Client.ackSeq_eq_zero_iff (c : Client) (d : Datagram) :
    (if c.complete d = true then 0 else nextAck c.list c.printed) = 0 ↔ c.complete d = true := by
  have hne := Nat.ne_zero_of_lt (lt_nextAck c.list c.printed)
  split_ifs with hc
  · simp [hc]
  · exact iff_of_false hne hc

/-- A step of the client: it still receives and sends no end ACK, or it sends the one ACK
after which the loop is left, or it does neither. -/
theorem ClientLog.step_cases {o : ByteOrder} {W : ℕ} {y z : ClientLog} {e : ClientEvent}
    (h : y.step o W e = some z) :
    (z.client.receiving = y.client.receiving ∧
      (∃ hs, z.acks = y.acks ++ hs ∧ ∀ a ∈ hs, a.seq ≠ 0) ∧
      ∀ d, e = .datagram d false false → d.seq ≠ 0 → y.client.dataFlag = false) ∨
    (y.client.receiving = true ∧ z.client.receiving = false ∧
      ∃ d a, e = .datagram d false false ∧ d.seq ≠ 0 ∧ z.acks = y.acks ++ [a] ∧
        (y.client.dataFlag = true ∨ (y.client.insert d).complete d = true) ∧
        (a.seq = 0 ↔ (y.client.insert d).complete d = true)) := by
  obtain ⟨⟨c, hs⟩, hstep, rfl⟩ := Option.map_eq_some_iff.mp h
  cases Client.handles hstep with
  | request _ h0 hacks =>
    refine .inl ⟨rfl, ⟨hs, rfl, ?_⟩, ?_⟩
    · intro a ha
      rcases hacks with rfl | rfl
      · cases ha
      · rw [List.mem_singleton.mp ha]
        exact Nat.one_ne_zero
    · intro d' he hne
      cases he
      exact absurd h0 hne
  | lost => exact .inl ⟨rfl, ⟨[], rfl, by simp⟩, by simp⟩
  | kept => exact .inl ⟨y.client.insert_receiving _, ⟨[], rfl, by simp⟩, by simp⟩
  | @answered d seq hrec h0 hseq =>
    have hend : seq = 0 ↔ (y.client.insert d).complete d = true := by
      rw [hseq]
      exact (y.client.insert d).ackSeq_eq_zero_iff d
    have hkeep := y.client.keep_dataFlag d
    cases hflag : (y.client.keep d).dataFlag with
    | true =>
      rw [hflag] at hkeep
      refine .inr ⟨hrec, rfl, d, _, rfl, h0, rfl, ?_, hend⟩
      exact Bool.or_eq_true_iff.mp hkeep.symm
    | false =>
      rw [hflag] at hkeep
      obtain ⟨hold, hopen⟩ := Bool.or_eq_false_iff.mp hkeep.symm
      refine .inl ⟨hrec.symm, ⟨_, rfl, ?_⟩, fun _ _ _ => hold⟩
      intro a ha
      rw [List.mem_singleton.mp ha]
      intro hzero
      rw [hend.mp hzero] at hopen
      cases hopen
  | drain => exact .inl ⟨rfl, ⟨[], rfl, by simp⟩, by simp⟩
  | testFlag => exact .inl ⟨rfl, ⟨[], rfl, by simp⟩, by simp⟩

theorem stillOpen_step {o : ByteOrder} {W : ℕ} {y z : ClientLog} {e : ClientEvent}
    (h : StillOpen y) (hs : y.step o W e = some z) : StillOpen z := by
  intro hrec a ha
  rcases ClientLog.step_cases hs with ⟨hsame, ⟨hs', hacks, hne⟩, _⟩ | ⟨_, hoff, _⟩
  · rw [hacks] at ha
    rcases List.mem_append.mp ha with ha | ha
    · exact h (hsame ▸ hrec) a ha
    · exact hne a ha
  · simp [hoff] at hrec

theorem confirmed_step_iff {o : ByteOrder} {W : ℕ} {y z : ClientLog} {e : ClientEvent}
    (hopen : StillOpen y) (h : Confirmed y) (hs : y.step o W e = some z) :
    Confirmed z ↔ Reconfirms y e := by
  rcases ClientLog.step_cases hs with ⟨hsame, ⟨hs', hacks, _⟩, hfresh⟩ |
    ⟨hrec, hoff, d, a, rfl, h0, hacks, hflag, hseq⟩
  · refine iff_of_true ?_ ?_
    · intro hz
      obtain ⟨a, ha, ha0⟩ := h (hsame ▸ hz)
      exact ⟨a, by rw [hacks]; exact List.mem_append_left _ ha, ha0⟩
    · intro d he h0 hflag
      rw [hfresh d he h0] at hflag
      cases hflag
  · constructor
    · intro hz d' he _ _
      cases he
      obtain ⟨b, hb, hb0⟩ := hz hoff
      rw [hacks] at hb
      rcases List.mem_append.mp hb with hb | hb
      · exact absurd hb0 (hopen hrec b hb)
      · rw [List.mem_singleton.mp hb] at hb0
        exact hseq.mp hb0
    · intro hrc _
      refine ⟨a, by simp [hacks], hseq.mpr ?_⟩
      rcases hflag with hflag | hc
      · exact hrc d rfl h0 hflag
      · exact hc

/-- Along a run the client leaves its receive loop only after an end ACK was sent, if and only
if every datagram that it answers with `data_flag` already set ends the file again. -/
theorem leaves_confirmed_iff (o : ByteOrder) (W : ℕ) (es : List ClientEvent) (y : ClientLog)
    (hr : Run (ClientLog.step o W) (fun _ _ => True) .start es y) :
    Along (ClientLog.step o W) Confirmed .start es ↔
      Run (ClientLog.step o W) (fun y e => True ∧ Reconfirms y e) .start es y :=
  hr.along_iff StillOpen Confirmed (fun _ _ _ h _ hs => stillOpen_step h hs)
    (fun _ _ _ hopen h _ hs => confirmed_step_iff hopen h hs) (by simp [StillOpen, ClientLog.start])
    (by simp [Confirmed, ClientLog.start, Client.start])

instance (y : ClientLog) (e : ClientEvent) : Decidable (Reconfirms y e) :=
  match e with
  | .datagram d false false =>
    decidable_of_iff (d.seq ≠ 0 → y.client.dataFlag = true → (y.client.insert d).complete d = true)
      ⟨fun h d' he => by cases he; exact h, fun h => h d rfl⟩
  | .datagram _ true _ => .isTrue fun _ he => by cases he
  | .datagram _ false true => .isTrue fun _ he => by cases he
  | .drain => .isTrue fun _ he => by cases he
  | .testFlag => .isTrue fun _ he => by cases he

def plainEnd : List ClientEvent :=
  [.datagram ⟨1, 7, [65]⟩ false false, .datagram ⟨2, 0, [66]⟩ false false]

def plainEndLog : ClientLog := (exec (ClientLog.step .little 8) .start plainEnd).getD .start

theorem leaves_confirmed_plain :
    plainEndLog.client.receiving = false ∧ Along (ClientLog.step .little 8) Confirmed .start plainEnd :=
  ⟨by decide +kernel, (leaves_confirmed_iff .little 8 plainEnd plainEndLog
    (.of_runnable (by decide +kernel) .start)).mpr (.of_runnable (by decide +kernel) .start)⟩

/-- The end ACK is lost, and the first datagram is transmitted again before the second. -/
def lostEndAck : List ClientEvent :=
  [.datagram ⟨1, 7, [65]⟩ false false, .datagram ⟨2, 0, [66]⟩ false true,
    .datagram ⟨1, 7, [65]⟩ false false]

def lostEndAckLog : ClientLog := (exec (ClientLog.step .little 8) .start lostEndAck).getD .start

/-- The client leaves its loop after ACK 3, and the server never hears that it is done. -/
theorem leaves_without_end_ack :
    Run (ClientLog.step .little 8) (fun _ _ => True) .start lostEndAck lostEndAckLog ∧
      lostEndAckLog.client.receiving = false ∧ lostEndAckLog.acks.map Hdr.seq = [2, 3] ∧
      ¬ Along (ClientLog.step .little 8) Confirmed .start lostEndAck := by
  have hacks : lostEndAckLog.acks.map Hdr.seq = [2, 3] := by decide +kernel
  refine ⟨.of_runnable (by decide +kernel) .start, by decide +kernel, hacks, ?_⟩
  intro h
  obtain ⟨a, ha, h0⟩ := h lostEndAck [] lostEndAckLog (by simp) (by rfl) (by decide +kernel)
  have hmem : a.seq ∈ lostEndAckLog.acks.map Hdr.seq := List.mem_map.mpr ⟨a, ha, rfl⟩
  rw [hacks, h0] at hmem
  revert hmem
  decide

/-- An end ACK that the child receives ends the transfer. -/
def EndAckHonoured (o : ByteOrder) (s : Server) (e : ServerEvent) : Prop :=
  ∀ h tv, e = .recv h tv → h.seq = 0 → ∃ t, s.next o e = some t ∧ t.pc = .done

/-- An end ACK is received in the ACK loop. -/
def InAckLoop (s : Server) (e : ServerEvent) : Prop :=
  ∀ h tv, e = .recv h tv → h.seq = 0 → s.pc = .wait

theorem resume_not_done (s : Server) (k : Resume) : (s.resume k).1.pc ≠ .done := by
  cases k with
  | top => simp [Server.resume]
  | timeout => simp [Server.resume, Server.dataAlarmAgain]
  | fast =>
    unfold Server.resume
    dsimp only
    split_ifs <;> simp [Server.dataAlarmAgain]

theorem onWindow_not_done (s : Server) (o : ByteOrder) {k : Resume} (h : Hdr)
    (hpc : s.pc = .probe k) : (s.onWindow o k h).1.pc ≠ .done := by
  unfold Server.onWindow
  dsimp only
  split_ifs
  · exact resume_not_done _ k
  · simp [hpc]

theorem endAckHonoured_iff (o : ByteOrder) (s : Server) (e : ServerEvent) :
    EndAckHonoured o s e ↔ InAckLoop s e := by
  constructor
  · intro hon h tv he h0
    obtain ⟨t, ht, hdone⟩ := hon h tv he h0
    subst he
    cases hpc : s.pc with
    | wait => rfl
    | probe k =>
      simp only [Server.next, Server.step, hpc, Option.map_some, Option.some.injEq] at ht
      rw [← ht] at hdone
      exact absurd hdone (onWindow_not_done s o h hpc)
    | _ => simp [Server.next, Server.step, hpc] at ht
  · rintro hin h tv rfl h0
    have hpc := hin h tv rfl h0
    refine ⟨(s.onAck o h tv).1, by simp only [Server.next, Server.step, hpc, Option.map_some], ?_⟩
    simp [Server.onAck, h0]

instance (s : Server) (e : ServerEvent) : Decidable (InAckLoop s e) :=
  match e with
  | .recv h tv => decidable_of_iff (h.seq = 0 → s.pc = .wait)
      ⟨fun hw h' tv' he => by cases he; exact hw, fun hw => hw h tv rfl⟩
  | .go _ => .isTrue fun _ _ he => by cases he
  | .alarm _ => .isTrue fun _ _ he => by cases he

def tightServer : Server :=
  .start 3 1 (List.replicate 501 65) (fun _ => ⟨0, 0, [], 0⟩) ⟨0, 0, [], 0⟩ ⟨0, 0, 0, 0, 0, 0⟩
    ⟨100, 0⟩

/-- The window closes after the first datagram, a probe reply opens it, and the second
datagram is sent. -/
def reopened : List ServerEvent :=
  [.go ⟨101, 0⟩, .go ⟨101, 0⟩, .go ⟨101, 0⟩, .alarm false, .recv ⟨2, 1000, 0⟩ ⟨101, 0⟩, .go ⟨101, 0⟩,
    .alarm false, .recv ⟨1, 0, 256⟩ ⟨101, 0⟩, .go ⟨102, 0⟩, .go ⟨102, 0⟩]

def endAckInTime : List ServerEvent := reopened ++ [.recv ⟨0, 0, 0⟩ ⟨102, 0⟩]

def endAckInTimeEnd : Server :=
  (exec (Server.next .little) tightServer endAckInTime).getD tightServer

def closedAgain : List ServerEvent :=
  reopened ++ [.recv ⟨2, 1000, 0⟩ ⟨102, 0⟩, .go ⟨102, 0⟩]

def endAckLate : List ServerEvent := closedAgain ++ [.recv ⟨0, 0, 0⟩ ⟨102, 0⟩]

def endAckLateEnd : Server := (exec (Server.next .little) tightServer endAckLate).getD tightServer

/-- The same run with the client: it answers the retransmitted first datagram again, and
stops after its end ACK. -/
def endAckLateRun : List SystemEvent :=
  [.go ⟨101, 0⟩, .go ⟨101, 0⟩, .go ⟨101, 0⟩, .alarm false, .data 0 false false, .data 1 false false,
    .ack 0 ⟨101, 0⟩, .go ⟨101, 0⟩, .drain, .alarm false, .data 2 false false, .ack 2 ⟨101, 0⟩,
    .go ⟨102, 0⟩, .go ⟨102, 0⟩, .data 3 false false, .ack 1 ⟨102, 0⟩, .go ⟨102, 0⟩, .ack 3 ⟨102, 0⟩]

def tightStart : System := .start tightServer

def endAckLateSystem : System :=
  (exec (System.step tightWindow) tightStart endAckLateRun).getD tightStart

end NetLab.Transfer
