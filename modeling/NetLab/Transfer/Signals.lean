import NetLab.Transfer.Unacked

/-! The signal mask and the `SIGALRM` handler of the server child, changed only by the calls
that the source makes. Nothing unblocks `SIGALRM` after a zero-window loop. -/
namespace NetLab.Transfer
open NetLab.Lib

/-- Whether `SIGALRM` is blocked, its handler, and the mask that `sigsetjmp` saved in
`jmpbuf_2`. -/
structure Signals where
  blocked : Bool
  handler : AlarmHandler
  saved : Bool
  deriving DecidableEq, Repr

/-- `sigprocmask(SIG_BLOCK, ..)`, `signal(SIGALRM, ..)`, `sigsetjmp(jmpbuf_2, 1)` and the
`siglongjmp` in `file_data_alrm`. -/
inductive SignalCall where
  | block
  | signal (h : AlarmHandler)
  | sigsetjmp
  | siglongjmp
  deriving DecidableEq, Repr

def Signals.call (σ : Signals) : SignalCall → Signals
  | .block => { σ with blocked := true }
  | .signal h => { σ with handler := h }
  | .sigsetjmp => { σ with saved := σ.blocked }
  | .siglongjmp => { σ with blocked := σ.saved }

def lockCalls : List SignalCall := [.block, .signal .buffer]

def dataAlarmCalls : List SignalCall := [.signal .fileData, .sigsetjmp]

def Server.resumeCalls (s : Server) : Resume → List SignalCall
  | .top => []
  | .timeout => dataAlarmCalls
  | .fast => if s.file.eof then dataAlarmCalls else []

def Server.backOffCalls (s : Server) (k : Resume) : List SignalCall :=
  if (rttTimeout s.rttinfo).2 then []
  else if s.recvWindow = 0 then lockCalls
  else s.resumeCalls k

/-- The calls of one iteration of the ACK loop. -/
def Server.ackCalls (s : Server) (o : ByteOrder) (h : Hdr) (tv : Timeval) : List SignalCall :=
  let s := s.countAck h tv
  if h.seq = 0 then []
  else
    let s : Server := { s.discard h.seq with recvWindow := o.ntohs h.recvWindow }
    if (s.sendBuffer.base s.sendBuffer.front).ack + 1 = 3 then (s.setAck 0).backOffCalls .fast
    else []

/-- The calls that the child makes in one step. `pselect` waits with an empty mask and puts
the old one back, so the signals it lets through leave the mask as it was. -/
def Server.signalCalls (o : ByteOrder) (s : Server) : ServerEvent → List SignalCall
  | .go tv => match s.pc with
    | .top => if s.recvWindow = 0 then lockCalls else []
    | .sendNew 0 => dataAlarmCalls
    | .sendNew (_ + 1) => if (s.newData tv).2.eof then dataAlarmCalls else []
    | _ => []
  | .recv h tv => match s.pc with
    | .probe k => if o.ntohs h.recvWindow > 0 then s.resumeCalls k else []
    | .wait => s.ackCalls o h tv
    | _ => []
  | .alarm _ => match s.pc with
    | .wait => .siglongjmp :: s.backOffCalls .timeout
    | _ => []

/-- The server child with its signal state. -/
structure Timed where
  server : Server
  signals : Signals

def Timed.start (s : Server) : Timed := ⟨s, false, .handshakeData, false⟩

def Timed.step (o : ByteOrder) (y : Timed) (e : ServerEvent) : Option Timed :=
  (y.server.step o e).map fun r => ⟨r.1, (y.server.signalCalls o e).foldl Signals.call y.signals⟩

def Pc.isProbe : Pc → Bool
  | .probe _ => true
  | _ => false

/-- What a piece of the child's code does with the signal state, by the calls it makes. -/
inductive SignalStep (s t : Server) : List SignalCall → Prop
  | quiet (hb : t.alarmBlocked = s.alarmBlocked) (hh : t.handler = s.handler)
      (hw : t.pc = .wait → s.pc = .wait) (hp : t.pc.isProbe = true → s.pc.isProbe = true) :
      SignalStep s t []
  | lock (hb : t.alarmBlocked = true) (hh : t.handler = .buffer) (hp : t.pc.isProbe = true) :
      SignalStep s t lockCalls
  | rearm (hb : t.alarmBlocked = s.alarmBlocked) (hh : t.handler = .fileData)
      (hw : t.pc = .wait) : SignalStep s t dataAlarmCalls

theorem SignalStep.of_same {s s' t : Server} {cs : List SignalCall} (h : SignalStep s' t cs)
    (hb : s'.alarmBlocked = s.alarmBlocked) (hh : s'.handler = s.handler) (hp : s'.pc = s.pc) :
    SignalStep s t cs := by
  cases h with
  | quiet hb' hh' hw hp' =>
    rw [hp] at hw hp'
    exact .quiet (hb'.trans hb) (hh'.trans hh) hw hp'
  | lock hb' hh' hp' => exact .lock hb' hh' hp'
  | rearm hb' hh' hw => exact .rearm (hb'.trans hb) hh' hw

theorem resume_signals (s : Server) (k : Resume) :
    SignalStep s (s.resume k).1 (s.resumeCalls k) := by
  cases k with
  | top => exact .quiet rfl rfl (by simp [Server.resume]) (by simp [Server.resume, Pc.isProbe])
  | timeout => exact .rearm rfl rfl rfl
  | fast =>
    unfold Server.resume Server.resumeCalls
    cases s.file.eof with
    | true => exact .rearm rfl rfl rfl
    | false => exact .quiet rfl rfl (by simp) (by simp [Pc.isProbe])

theorem backOff_signals (s : Server) (k : Resume) :
    SignalStep s (s.backOff k).1 (s.backOffCalls k) := by
  unfold Server.backOff Server.backOffCalls
  dsimp only
  by_cases hgive : (rttTimeout s.rttinfo).2 = true
  · rw [if_pos hgive, if_pos hgive]
    exact .quiet rfl rfl (by simp) (by simp [Pc.isProbe])
  · rw [if_neg hgive, if_neg hgive]
    by_cases hw : s.recvWindow = 0
    · rw [if_pos hw, if_pos hw]
      exact .lock rfl rfl rfl
    · rw [if_neg hw, if_neg hw]
      exact (resume_signals { s with rttinfo := (rttTimeout s.rttinfo).1 } k).of_same rfl rfl rfl

theorem countAck_signals (s : Server) (h : Hdr) (tv : Timeval) (seq w : ℕ) (a : ℤ) :
    let t := ({ (s.countAck h tv).discard seq with recvWindow := w } : Server).setAck a
    t.alarmBlocked = s.alarmBlocked ∧ t.handler = s.handler ∧ t.pc = s.pc := by
  obtain ⟨c, b, m, hcount⟩ := countAck_spec s h tv
  obtain ⟨Q, n, hdiscard⟩ := discard_eq (s.countAck h tv) seq
  rw [hdiscard, hcount]
  exact ⟨rfl, rfl, rfl⟩

theorem onAck_signals (s : Server) (o : ByteOrder) (h : Hdr) (tv : Timeval) (hpc : s.pc = .wait) :
    SignalStep s (s.onAck o h tv).1 (s.ackCalls o h tv) := by
  have hsame := countAck_signals s h tv h.seq (o.ntohs h.recvWindow)
  unfold Server.onAck Server.ackCalls
  dsimp only at hsame ⊢
  by_cases h0 : h.seq = 0
  · rw [if_pos h0, if_pos h0]
    obtain ⟨hb, hh, _⟩ := countAck_signals s h tv 0 0 0
    rw [Server.discard, if_neg (Nat.not_lt_zero _)] at hb hh
    exact .quiet hb hh (by simp) (by simp [Pc.isProbe])
  · rw [if_neg h0, if_neg h0]
    generalize (s.countAck h tv).discard h.seq = s₁ at hsame
    split_ifs with ha
    · obtain ⟨hb, hh, hp⟩ := hsame 0
      exact (backOff_signals _ .fast).of_same hb hh hp
    · obtain ⟨hb, hh, hp⟩ := hsame ((s₁.sendBuffer.base s₁.sendBuffer.front).ack + 1)
      unfold Server.loopTest
      split_ifs
      · exact .quiet hb hh (fun _ => hpc) (by rw [hp]; exact id)
      · exact .quiet hb hh (by simp) (by simp [Pc.isProbe])

/-- The calls of a step. A timeout first restores the mask that `sigsetjmp` saved. -/
theorem step_signals {o : ByteOrder} {s t : Server} {e : ServerEvent} {out : List Datagram}
    (h : s.step o e = some (t, out)) :
    SignalStep s t (s.signalCalls o e) ∨
    (s.pc = .wait ∧ ∃ cs, s.signalCalls o e = .siglongjmp :: cs ∧ SignalStep s t cs) := by
  cases Server.handles h with
  | lock tv hpc hw ht =>
    simp only [Server.signalCalls, hpc, if_pos hw, ht]
    exact .inl (.lock rfl rfl rfl)
  | openWindow tv hpc hw heq =>
    simp only [Server.signalCalls, hpc, if_neg hw]
    cases heq
    exact .inl (.quiet rfl rfl (by simp) (by simp [Pc.isProbe]))
  | dataAlarm tv hpc ht =>
    simp only [Server.signalCalls, hpc, ht]
    exact .inl (.rearm rfl rfl rfl)
  | sendData tv left hpc heq =>
    simp only [Server.signalCalls, hpc]
    simp only [Server.sendData] at heq
    left
    split_ifs at heq ⊢ with heof
    · cases heq
      exact .rearm rfl rfl rfl
    · cases heq
      exact .quiet rfl rfl (by simp) (by simp [Pc.isProbe])
  | window hd tv k hpc heq =>
    simp only [Server.signalCalls, hpc]
    unfold Server.onWindow at heq
    dsimp only at heq
    left
    split_ifs at heq ⊢ with hw
    · have hr := resume_signals { s with recvWindow := o.ntohs hd.recvWindow } k
      rw [heq] at hr
      exact hr.of_same rfl rfl rfl
    · cases heq
      exact .quiet rfl rfl id id
  | ack hd tv hpc heq =>
    simp only [Server.signalCalls, hpc]
    have hr := onAck_signals s o hd tv hpc
    rw [heq] at hr
    exact .inl hr
  | probe _ k hpc ht =>
    simp only [Server.signalCalls, hpc, ht]
    exact .inl (.quiet rfl rfl id id)
  | timeout back hpc hb heq =>
    have hr : SignalStep s ((s.longjmp back).backOff .timeout).1 (s.backOffCalls .timeout) :=
      (backOff_signals (s.longjmp back) .timeout).of_same rfl rfl rfl
    rw [heq] at hr
    exact .inr ⟨hpc, _, by simp only [Server.signalCalls, hpc], hr⟩

/-- The signal state agrees with the two fields that the model of the child keeps itself. -/
structure Tracks (y : Timed) : Prop where
  blocked : y.signals.blocked = y.server.alarmBlocked
  handler : y.signals.handler = y.server.handler
  saved : y.server.pc = .wait → y.signals.saved = y.signals.blocked
  waiting : y.server.pc = .wait → y.signals.handler = .fileData
  probing : y.server.pc.isProbe = true → y.signals.blocked = true

theorem SignalStep.foldl {s t : Server} {cs : List SignalCall} (h : SignalStep s t cs)
    {σ : Signals} (hb : σ.blocked = s.alarmBlocked) (hh : σ.handler = s.handler)
    (hs : s.pc = .wait → σ.saved = σ.blocked ∧ σ.handler = .fileData)
    (hp : s.pc.isProbe = true → σ.blocked = true) : Tracks ⟨t, cs.foldl Signals.call σ⟩ := by
  cases h with
  | quiet hb' hh' hw hp' =>
    exact ⟨hb.trans hb'.symm, hh.trans hh'.symm, fun h => (hs (hw h)).1, fun h => (hs (hw h)).2,
      fun h => hp (hp' h)⟩
  | lock hb' hh' hp' =>
    have hne : t.pc ≠ .wait := by
      intro h
      rw [h] at hp'
      cases hp'
    exact ⟨hb'.symm, hh'.symm, fun h => absurd h hne, fun h => absurd h hne, fun _ => rfl⟩
  | rearm hb' hh' hw =>
    have hne : t.pc.isProbe ≠ true := by simp [hw, Pc.isProbe]
    exact ⟨hb.trans hb'.symm, hh'.symm, fun _ => rfl, fun _ => rfl, fun h => absurd h hne⟩

theorem tracks_step {o : ByteOrder} {y z : Timed} {e : ServerEvent} (h : Tracks y)
    (hs : y.step o e = some z) : Tracks z := by
  obtain ⟨⟨t, out⟩, hstep, rfl⟩ := Option.map_eq_some_iff.mp hs
  have hwait : y.server.pc = .wait → y.signals.saved = y.signals.blocked ∧
      y.signals.handler = .fileData := fun hw => ⟨h.saved hw, h.waiting hw⟩
  rcases step_signals hstep with hc | ⟨hpc, cs, hcs, hc⟩
  · exact hc.foldl h.blocked h.handler hwait h.probing
  · -- `siglongjmp` puts back the mask that is in force already
    have hnp : y.server.pc.isProbe ≠ true := by simp [hpc, Pc.isProbe]
    rw [hcs, List.foldl_cons]
    refine hc.foldl ?_ h.handler (fun hw => ⟨rfl, h.waiting hw⟩) fun hp => absurd hp hnp
    exact (h.saved hpc).trans h.blocked

theorem SignalStep.mask {s t : Server} {cs : List SignalCall} (h : SignalStep s t cs) :
    t.alarmBlocked = s.alarmBlocked ∨ (t.alarmBlocked = true ∧ t.pc.isProbe = true) := by
  cases h with
  | quiet hb => exact .inl hb
  | lock hb _ hp => exact .inr ⟨hb, hp⟩
  | rearm hb => exact .inl hb

theorem mask_step {o : ByteOrder} {y z : Timed} {e : ServerEvent} (h : Tracks y)
    (hs : y.step o e = some z) : z.signals.blocked = y.signals.blocked ∨
      (z.signals.blocked = true ∧ z.server.pc.isProbe = true) := by
  have hz := tracks_step h hs
  obtain ⟨⟨t, out⟩, hstep, rfl⟩ := Option.map_eq_some_iff.mp hs
  rw [hz.blocked, h.blocked]
  rcases step_signals hstep with hc | ⟨_, cs, _, hc⟩
  · exact hc.mask
  · exact hc.mask

theorem blocked_step {o : ByteOrder} {y z : Timed} {e : ServerEvent} (h : Tracks y)
    (hb : y.signals.blocked = true) (hs : y.step o e = some z) : z.signals.blocked = true := by
  rcases mask_step h hs with heq | ⟨hz, _⟩
  · exact heq.trans hb
  · exact hz

/-- Before each of these steps the child is in none of the three zero-window loops. -/
def NoProbe (y : Timed) (_ : ServerEvent) : Prop := y.server.pc.isProbe = false

theorem noProbe_of_unblocked {o : ByteOrder} {y z : Timed} {es : List ServerEvent}
    (h : Tracks y) (hr : Run (Timed.step o) (fun _ _ => True) y es z)
    (hb : z.signals.blocked = false) : Run (Timed.step o) NoProbe y es z := by
  have htrap := hr.of_trap (K := NoProbe) Tracks (fun y => y.signals.blocked = true)
    (fun _ _ _ hy _ hs => tracks_step hy hs) (fun _ _ _ hy hb _ hs => blocked_step hy hb hs)
    ?_ h (by simp [hb])
  · exact htrap.mono fun _ _ hok => hok.2
  · intro y z e hy hprobe _ hs
    -- a zero-window loop has blocked `SIGALRM`
    have hblocked := hy.probing (by simpa [NoProbe] using hprobe)
    exact blocked_step hy hblocked hs

theorem tracks_start (s : Server) (hpc : s.pc = .top) (hb : s.alarmBlocked = false)
    (hh : s.handler = .handshakeData) : Tracks (.start s) where
  blocked := hb.symm
  handler := hh.symm
  saved := fun h => by simp [Timed.start, hpc] at h
  waiting := fun h => by simp [Timed.start, hpc] at h
  probing := fun h => by simp [Timed.start, hpc, Pc.isProbe] at h

/-- While the child waits for ACKs its timer can fire if and only if it never was in a
zero-window loop. -/
theorem timer_can_fire_iff (o : ByteOrder) (n recvWindow : ℕ) (content : List UInt8)
    (memory : ℕ → Data) (localcopy : Data) (rttinfo : RttInfo) (tv : Timeval)
    (es : List ServerEvent) (y : Timed)
    (hr : Run (Timed.step o) (fun _ _ => True)
      (.start (.start n recvWindow content memory localcopy rttinfo tv)) es y)
    (hwait : y.server.pc = .wait) :
    (y.signals.blocked = false ∧ y.signals.handler = .fileData) ↔
      Run (Timed.step o) NoProbe
        (.start (.start n recvWindow content memory localcopy rttinfo tv)) es y := by
  have h₀ : Tracks (.start (.start n recvWindow content memory localcopy rttinfo tv)) :=
    tracks_start _ rfl rfl rfl
  have hy := hr.invariant Tracks (fun _ _ _ h _ hs => tracks_step h hs) h₀
  refine ⟨fun h => noProbe_of_unblocked h₀ hr h.1, ?_⟩
  intro hno
  refine ⟨?_, hy.waiting hwait⟩
  have hinv := hno.invariant
    (fun y => Tracks y ∧ (y.signals.blocked = true → y.server.pc.isProbe = true)) ?_
    ⟨h₀, by simp [Timed.start]⟩
  · by_contra hb
    have hp := hinv.2 (by simpa using hb)
    simp [hwait, Pc.isProbe] at hp
  · rintro y z e ⟨hty, hyb⟩ hok hs
    refine ⟨tracks_step hty hs, ?_⟩
    intro hzb
    rcases mask_step hty hs with heq | ⟨_, hp⟩
    · have hp := hyb (heq ▸ hzb)
      simp [NoProbe, hp] at hok
    · exact hp

instance (y : Timed) (e : ServerEvent) : Decidable (NoProbe y e) :=
  inferInstanceAs (Decidable (_ = false))

def timedStart : Timed := .start (booted 3 [65])

def timedEnd : Timed := (exec (Timed.step .little) timedStart firstSend).getD timedStart

theorem timer_can_fire_first :
    timedEnd.server.pc = .wait ∧ timedEnd.signals.blocked = false := by
  have h := timer_can_fire_iff .little 3 8 [65] _ _ _ _ firstSend timedEnd
    (.of_runnable (by decide +kernel) timedStart) (by decide +kernel)
  exact ⟨by decide +kernel, (h.mpr (.of_runnable (by decide +kernel) timedStart)).1⟩

/-- The window closes after the first datagram, a probe reply opens it, and the second
datagram is sent. -/
def afterProbe : List ServerEvent :=
  [.go ⟨101, 0⟩, .go ⟨101, 0⟩, .go ⟨101, 0⟩, .recv ⟨2, 1000, 0⟩ ⟨101, 0⟩, .go ⟨101, 0⟩,
    .recv ⟨1, 0, 256⟩ ⟨102, 0⟩, .go ⟨102, 0⟩, .go ⟨102, 0⟩]

def longStart : Timed := .start (booted 3 (List.replicate 501 65))

def afterProbeEnd : Timed := (exec (Timed.step .little) longStart afterProbe).getD longStart

/-- If the ACK of the second datagram is lost, no `SIGALRM` ends the wait for it. -/
theorem timer_blocked_after_probe :
    Run (Timed.step .little) (fun _ _ => True) longStart afterProbe afterProbeEnd ∧
      afterProbeEnd.server.pc = .wait ∧ afterProbeEnd.server.unacked = 1 ∧
      (afterProbeEnd.step .little (.alarm false)).isNone = true ∧
      ¬ (afterProbeEnd.signals.blocked = false ∧ afterProbeEnd.signals.handler = .fileData) :=
  ⟨.of_runnable (by decide +kernel) longStart, by decide +kernel, by decide +kernel,
    by decide +kernel, by decide +kernel⟩

end NetLab.Transfer
