import NetLab.Transfer.Server

/-! What one step of the server child can do to its send buffer and its counters, and which
datagrams it sends. -/
namespace NetLab.Transfer
open NetLab.Lib

/-- Whether `rtt_timeout` lets the child go on and its window is open. -/
def Server.proceeds (s : Server) (recvWindow : ℕ) : Bool :=
  !(rttTimeout s.rttinfo).2 && recvWindow != 0

/-- The entries of the memory at `base` that a step transmits again. -/
def Server.resends (o : ByteOrder) (s : Server) : ServerEvent → List ℕ
  | .go _ =>
    if s.pc = .top ∧ s.recvWindow ≠ 0 then
      (List.range (s.resendCount (threeMin s.cwnd s.sendWindow s.recvWindow))).map
        (s.sendBuffer.front + ·)
    else []
  | .recv h _ => match s.pc with
    | .probe k => if o.ntohs h.recvWindow > 0 ∧ k ≠ .top then [s.sendBuffer.front] else []
    | .wait =>
      let Q := (s.discard h.seq).sendBuffer
      if h.seq ≠ 0 ∧ (Q.base Q.front).ack + 1 = 3 ∧ s.proceeds (o.ntohs h.recvWindow) then
        [Q.front]
      else []
    | _ => []
  | .alarm _ =>
    if s.pc = .wait ∧ s.alarmBlocked = false ∧ s.proceeds s.recvWindow then [s.sendBuffer.front]
    else []

/-- Nothing was created and no datagram stored in the buffer was changed. -/
structure Keeps (s t : Server) : Prop where
  sendWindow : t.sendWindow = s.sendWindow
  maxQsize : t.sendBuffer.maxQsize = s.sendBuffer.maxQsize
  rear : t.sendBuffer.rear = s.sendBuffer.rear
  sequenceNumber : t.sequenceNumber = s.sequenceNumber
  file : t.file = s.file
  clock : t.rttinfo.base = s.rttinfo.base
  base : ∀ i, (t.sendBuffer.base i).datagram = (s.sendBuffer.base i).datagram

/-- The first unacknowledged datagram and its place in the buffer stay the same. -/
def SameFront (s t : Server) : Prop :=
  t.sendBuffer.front = s.sendBuffer.front ∧ t.head = s.head

def Server.core (s : Server) : ℕ × CirQueue × ℕ × ℕ × File × ℕ :=
  (s.sendWindow, s.sendBuffer, s.sequenceNumber, s.head, s.file, s.rttinfo.base)

theorem Keeps.of_core {s t : Server} (h : t.core = s.core) : Keeps s t := by
  simp only [Server.core, Prod.mk.injEq] at h
  obtain ⟨hw, hQ, hn, _, hf, hc⟩ := h
  exact ⟨hw, by rw [hQ], by rw [hQ], hn, hf, hc, fun i => by rw [hQ]⟩

theorem SameFront.of_core {s t : Server} (h : t.core = s.core) : SameFront s t := by
  simp only [Server.core, Prod.mk.injEq] at h
  obtain ⟨_, hQ, _, hh, _⟩ := h
  exact ⟨by rw [hQ], hh⟩

theorem Keeps.refl (s : Server) : Keeps s s := .of_core rfl

theorem Keeps.trans {s t u : Server} (h : Keeps s t) (h' : Keeps t u) : Keeps s u :=
  ⟨h'.sendWindow.trans h.sendWindow, h'.maxQsize.trans h.maxQsize, h'.rear.trans h.rear,
    h'.sequenceNumber.trans h.sequenceNumber, h'.file.trans h.file, h'.clock.trans h.clock,
    fun i => (h'.base i).trans (h.base i)⟩

theorem Keeps.symm {s t : Server} (h : Keeps s t) : Keeps t s :=
  ⟨h.sendWindow.symm, h.maxQsize.symm, h.rear.symm, h.sequenceNumber.symm, h.file.symm,
    h.clock.symm, fun i => (h.base i).symm⟩

theorem SameFront.trans {s t u : Server} (h : SameFront s t) (h' : SameFront t u) :
    SameFront s u := ⟨h'.1.trans h.1, h'.2.trans h.2⟩

theorem Keeps.resend {s t : Server} (h : Keeps s t) (i : ℕ) : t.resend i = s.resend i := h.base i

theorem resume_keeps (s : Server) (k : Resume) :
    Keeps s (s.resume k).1 ∧ SameFront s (s.resume k).1 ∧
      (s.resume k).2 = if k = .top then [] else [s.resend s.sendBuffer.front] := by
  cases k with
  | top => exact ⟨.of_core rfl, .of_core rfl, rfl⟩
  | timeout => exact ⟨.of_core rfl, .of_core rfl, rfl⟩
  | fast =>
    unfold Server.resume
    cases s.file.eof with
    | true => exact ⟨.of_core rfl, .of_core rfl, rfl⟩
    | false => exact ⟨.of_core rfl, .of_core rfl, rfl⟩

theorem backOff_keeps (s : Server) {k : Resume} (hk : k ≠ .top) :
    Keeps s (s.backOff k).1 ∧ SameFront s (s.backOff k).1 ∧
      (s.backOff k).2 =
        if s.proceeds s.recvWindow then [s.resend s.sendBuffer.front] else [] := by
  have h₀ : Keeps s { s with rttinfo := (rttTimeout s.rttinfo).1 } := .of_core rfl
  unfold Server.backOff
  dsimp only
  by_cases hgive : (rttTimeout s.rttinfo).2 = true
  · rw [if_pos hgive, if_neg (by simp [Server.proceeds, hgive])]
    exact ⟨.of_core rfl, .of_core rfl, rfl⟩
  · rw [if_neg hgive]
    by_cases hw : s.recvWindow = 0
    · rw [if_pos hw, if_neg (by simp [Server.proceeds, hw])]
      exact ⟨.of_core rfl, .of_core rfl, rfl⟩
    · rw [if_neg hw, if_pos (by simp [Server.proceeds, hgive, hw])]
      obtain ⟨hkeep, hsame, hout⟩ := resume_keeps { s with rttinfo := (rttTimeout s.rttinfo).1 } k
      rw [if_neg hk] at hout
      exact ⟨h₀.trans hkeep, hsame, hout⟩

/-- `sigsetjmp` was not called since, or saw what `head` is now. -/
def SameLoop (s t : Server) : Prop := t.loopHead = s.loopHead ∨ t.loopHead = t.head

theorem resume_loop (s : Server) (k : Resume) : SameLoop s (s.resume k).1 := by
  cases k with
  | top => exact .inl rfl
  | timeout => exact .inr rfl
  | fast =>
    unfold Server.resume
    cases s.file.eof with
    | true => exact .inr rfl
    | false => exact .inl rfl

theorem backOff_loop (s : Server) (k : Resume) : SameLoop s (s.backOff k).1 := by
  unfold Server.backOff
  dsimp only
  split_ifs
  · exact .inl rfl
  · exact .inl rfl
  · exact resume_loop _ k

def Server.AtTop (s : Server) : Prop := s.pc = .top ∨ s.pc = .probe .top

/-- What a cut of `cwnd` does not touch besides. -/
def Server.held (s : Server) : ℕ × CirQueue × Data × ℕ × ℕ :=
  (s.recvWindow, s.sendBuffer, s.localcopy, s.head, s.sequenceNumber)

theorem resume_held (s : Server) (k : Resume) : (s.resume k).1.held = s.held := by
  cases k with
  | top => rfl
  | timeout => rfl
  | fast =>
    unfold Server.resume
    dsimp only
    split_ifs <;> rfl

theorem backOff_held (s : Server) (k : Resume) : (s.backOff k).1.held = s.held := by
  unfold Server.backOff
  dsimp only
  split_ifs
  · rfl
  · rfl
  · exact resume_held _ k

theorem setAck_keeps (s : Server) (a : ℤ) : Keeps s (s.setAck a) ∧ SameFront s (s.setAck a) := by
  refine ⟨⟨rfl, rfl, rfl, rfl, rfl, rfl, ?_⟩, ⟨rfl, rfl⟩⟩
  intro i
  unfold Server.setAck
  by_cases hi : i = s.sendBuffer.front
  · subst hi
    simp [Data.datagram]
  · simp [hi]

theorem countAck_spec (s : Server) (h : Hdr) (tv : Timeval) :
    ∃ c a m, s.countAck h tv = { s with
      cwnd := c, congestionAvoidCount := a, measureRtt := m, received := s.received + 1 } := by
  unfold Server.countAck Server.grow
  split_ifs
  · exact ⟨_, _, _, rfl⟩
  · exact ⟨_, _, _, rfl⟩
  · exact ⟨_, _, _, rfl⟩

theorem discard_eq (s : Server) (seq : ℕ) :
    ∃ Q n, s.discard seq = { s with sendBuffer := Q, head := n } := by
  unfold Server.discard
  split_ifs
  · exact ⟨_, _, rfl⟩
  · exact ⟨_, _, rfl⟩

theorem countAck_keeps (s : Server) (h : Hdr) (tv : Timeval) :
    Keeps s (s.countAck h tv) ∧ (s.countAck h tv).sendBuffer = s.sendBuffer ∧
      (s.countAck h tv).head = s.head ∧ (s.countAck h tv).rttinfo = s.rttinfo := by
  obtain ⟨c, a, m, heq⟩ := countAck_spec s h tv
  rw [heq]
  exact ⟨.of_core rfl, rfl, rfl, rfl⟩

theorem loopTest_keeps (s : Server) : Keeps s s.loopTest ∧ SameFront s s.loopTest := by
  unfold Server.loopTest
  split_ifs
  · exact ⟨.of_core rfl, .of_core rfl⟩
  · exact ⟨.of_core rfl, .of_core rfl⟩

theorem discard_keeps (s : Server) (seq : ℕ) : Keeps s (s.discard seq) := by
  unfold Server.discard
  split_ifs
  · obtain ⟨hb, hr, hm, _⟩ := deCirQueue_iterate s.sendBuffer (seq - s.head)
    exact ⟨rfl, hm, hr, rfl, rfl, rfl, fun i => by simp [hb]⟩
  · exact .refl s

theorem discard_spec (s : Server) (seq : ℕ) :
    let t := s.discard seq
    t.sendBuffer.base = s.sendBuffer.base ∧ t.sendBuffer.maxQsize = s.sendBuffer.maxQsize ∧
      t.localcopy = s.localcopy ∧ t.rttinfo = s.rttinfo ∧ t.sequenceNumber = s.sequenceNumber ∧
      t.head = max s.head seq := by
  unfold Server.discard
  dsimp only
  split_ifs with hgt
  · obtain ⟨hb, _, hm, _⟩ := deCirQueue_iterate s.sendBuffer (seq - s.head)
    exact ⟨hb, hm, rfl, rfl, rfl, (max_eq_right hgt.le).symm⟩
  · exact ⟨rfl, rfl, rfl, rfl, rfl, (max_eq_left (not_lt.mp hgt)).symm⟩

theorem discard_congr {s t : Server} (hQ : t.sendBuffer = s.sendBuffer) (hh : t.head = s.head)
    (seq : ℕ) : (t.discard seq).sendBuffer = (s.discard seq).sendBuffer ∧
      (t.discard seq).head = (s.discard seq).head := by
  unfold Server.discard
  rw [hh]
  split_ifs
  · simp [hQ]
  · exact ⟨hQ, hh⟩

/-- One iteration of the ACK loop: end, or discard up to `h.seq` and at most one resend. -/
theorem onAck_keeps (s : Server) (o : ByteOrder) (h : Hdr) (tv : Timeval) :
    let t := (s.onAck o h tv).1
    let Q := (s.discard h.seq).sendBuffer
    Keeps s t ∧
    (if h.seq = 0 then SameFront s t ∧ (s.onAck o h tv).2 = []
      else SameFront (s.discard h.seq) t ∧
        (s.onAck o h tv).2 =
          if (Q.base Q.front).ack + 1 = 3 ∧ s.proceeds (o.ntohs h.recvWindow) then
            [s.resend Q.front]
          else []) := by
  obtain ⟨h₁, hQ, hh, hr⟩ := countAck_keeps s h tv
  unfold Server.onAck
  generalize s.countAck h tv = s₁ at h₁ hQ hh hr
  dsimp only
  by_cases h0 : h.seq = 0
  · rw [if_pos h0, if_pos h0]
    exact ⟨h₁.trans (.of_core rfl), ⟨congrArg CirQueue.front hQ, hh⟩, rfl⟩
  · rw [if_neg h0, if_neg h0]
    obtain ⟨hdQ, hdh⟩ := discard_congr hQ hh h.seq
    have h₂ : Keeps s { s₁.discard h.seq with recvWindow := o.ntohs h.recvWindow } :=
      (h₁.trans (discard_keeps s₁ h.seq)).trans (.of_core rfl)
    have hf₂ : SameFront (s.discard h.seq)
        { s₁.discard h.seq with recvWindow := o.ntohs h.recvWindow } :=
      ⟨congrArg CirQueue.front hdQ, hdh⟩
    have hr₂ : (s₁.discard h.seq).rttinfo = s.rttinfo := (discard_spec s₁ h.seq).2.2.2.1.trans hr
    rw [← hdQ]
    generalize s₁.discard h.seq = s₂ at h₂ hf₂ hr₂
    by_cases ha : (s₂.sendBuffer.base s₂.sendBuffer.front).ack + 1 = 3
    · rw [if_pos ha]
      obtain ⟨hka, hfa⟩ := setAck_keeps { s₂ with recvWindow := o.ntohs h.recvWindow } 0
      obtain ⟨hkb, hfb, hout⟩ := backOff_keeps
        ({ s₂ with recvWindow := o.ntohs h.recvWindow }.setAck 0) (k := .fast) (by decide)
      refine ⟨(h₂.trans hka).trans hkb, (hf₂.trans hfa).trans hfb, ?_⟩
      have hproc : ({ s₂ with recvWindow := o.ntohs h.recvWindow }.setAck 0).proceeds
          (o.ntohs h.recvWindow) = s.proceeds (o.ntohs h.recvWindow) := by
        unfold Server.proceeds
        rw [← hr₂]
        rfl
      rw [hout]
      simp only [ha, true_and]
      rw [← hproc, ← (h₂.trans hka).resend]
      rfl
    · rw [if_neg ha, if_neg (by simp [ha])]
      obtain ⟨hka, hfa⟩ := setAck_keeps { s₂ with recvWindow := o.ntohs h.recvWindow }
        ((s₂.sendBuffer.base s₂.sendBuffer.front).ack + 1)
      obtain ⟨hkb, hfb⟩ := loopTest_keeps ({ s₂ with recvWindow := o.ntohs h.recvWindow }.setAck
        ((s₂.sendBuffer.base s₂.sendBuffer.front).ack + 1))
      exact ⟨(h₂.trans hka).trans hkb, (hf₂.trans hfa).trans hfb, rfl⟩

theorem onAck_loop (s : Server) (o : ByteOrder) (h : Hdr) (tv : Timeval) :
    SameLoop s (s.onAck o h tv).1 := by
  obtain ⟨c, a, m, heq⟩ := countAck_spec s h tv
  obtain ⟨Q, n, hdiscard⟩ := discard_eq (s.countAck h tv) h.seq
  unfold Server.onAck
  dsimp only
  rw [hdiscard, heq]
  split_ifs
  · exact .inl rfl
  · exact backOff_loop _ .fast
  · unfold Server.loopTest
    split_ifs
    · exact .inl rfl
    · exact .inl rfl

theorem sendData_loop (s : Server) (left : ℕ) (tv : Timeval) : SameLoop s (s.sendData left tv).1 := by
  unfold Server.sendData
  dsimp only
  split_ifs
  · exact .inr rfl
  · exact .inl rfl

theorem openWindow_keeps (s : Server) :
    Keeps s s.openWindow.1 ∧ SameFront s s.openWindow.1 ∧ s.openWindow.2 =
      (List.range (s.resendCount (threeMin s.cwnd s.sendWindow s.recvWindow))).map
        fun j => s.resend (s.sendBuffer.front + j) :=
  ⟨.of_core rfl, .of_core rfl, rfl⟩

/-- The handlers of the child, each at the control point where it runs. -/
inductive Server.Handles (o : ByteOrder) (s t : Server) (out : List Datagram) : ServerEvent → Prop
  | lock (tv : Timeval) (hpc : s.pc = .top) (hw : s.recvWindow = 0) (ht : t = s.lock .top)
      (hout : out = []) : Handles o s t out (.go tv)
  | openWindow (tv : Timeval) (hpc : s.pc = .top) (hw : s.recvWindow ≠ 0)
      (h : s.openWindow = (t, out)) : Handles o s t out (.go tv)
  | dataAlarm (tv : Timeval) (hpc : s.pc = .sendNew 0) (ht : t = s.dataAlarmAgain)
      (hout : out = []) : Handles o s t out (.go tv)
  | sendData (tv : Timeval) (left : ℕ) (hpc : s.pc = .sendNew (left + 1))
      (h : s.sendData left tv = (t, out)) : Handles o s t out (.go tv)
  | window (hd : Hdr) (tv : Timeval) (k : Resume) (hpc : s.pc = .probe k)
      (h : s.onWindow o k hd = (t, out)) : Handles o s t out (.recv hd tv)
  | ack (hd : Hdr) (tv : Timeval) (hpc : s.pc = .wait) (h : s.onAck o hd tv = (t, out)) :
      Handles o s t out (.recv hd tv)
  | probe (back : Bool) (k : Resume) (hpc : s.pc = .probe k) (ht : t = s)
      (hout : out = [windowRequest]) : Handles o s t out (.alarm back)
  | timeout (back : Bool) (hpc : s.pc = .wait) (hb : s.alarmBlocked = false)
      (h : (s.longjmp back).backOff .timeout = (t, out)) : Handles o s t out (.alarm back)

/-- The state in which an event is handled: in the ACK loop the handler of `SIGALRM` jumps. -/
def Server.atJump (s : Server) : ServerEvent → Server
  | .alarm back => if s.pc = .wait then s.longjmp back else s
  | _ => s

theorem longjmp_keeps (s : Server) (back : Bool) : Keeps s (s.longjmp back) :=
  ⟨rfl, rfl, rfl, rfl, rfl, rfl, fun _ => rfl⟩

theorem atJump_cases (s : Server) (e : ServerEvent) :
    s.atJump e = s ∨ ∃ back, e = .alarm back ∧ s.pc = .wait ∧ s.atJump e = s.longjmp back := by
  unfold Server.atJump
  split
  · split_ifs with hpc
    · exact .inr ⟨_, rfl, hpc, rfl⟩
    · exact .inl rfl
  · exact .inl rfl

theorem atJump_of_loop {s : Server} (h : s.pc = .wait → s.loopHead = s.head) (e : ServerEvent) :
    s.atJump e = s := by
  rcases atJump_cases s e with heq | ⟨back, _, hpc, heq⟩
  · exact heq
  · rw [heq]
    have hhead : (if back then s.loopHead else s.head) = s.head := by rw [h hpc, ite_self]
    exact congrArg (fun n => { s with head := n }) hhead

theorem atJump_keeps (s : Server) (e : ServerEvent) : Keeps s (s.atJump e) := by
  rcases atJump_cases s e with heq | ⟨back, _, _, heq⟩
  · rw [heq]
    exact .refl s
  · rw [heq]
    exact longjmp_keeps s back

/-- A step that creates nothing: the buffer moves at most as an ACK in the ACK loop says, and
only window requests and resent entries are sent. -/
structure NoNewData (o : ByteOrder) (s : Server) (e : ServerEvent) (t : Server)
    (out : List Datagram) : Prop where
  keeps : Keeps s t
  out : ∀ d ∈ out, d = windowRequest ∨ ∃ i ∈ s.resends o e, d = s.resend i
  front : ∃ seq, SameFront ((s.atJump e).discard seq) t ∧
    (seq = 0 ∨ ∃ h tv, e = .recv h tv ∧ s.pc = .wait ∧ seq = h.seq)

section
variable {o : ByteOrder} {s t : Server} {e : ServerEvent} {out : List Datagram}

theorem Server.handles (h : s.step o e = some (t, out)) : s.Handles o t out e := by
  cases e with
  | go tv =>
    cases hpc : s.pc with
    | top =>
      simp only [step, hpc, Option.some.injEq] at h
      by_cases hw : s.recvWindow = 0
      · rw [if_pos hw] at h
        obtain ⟨ht, hout⟩ := Prod.mk.inj h
        exact .lock tv hpc hw ht.symm hout.symm
      · rw [if_neg hw] at h
        exact .openWindow tv hpc hw h
    | sendNew left =>
      simp only [step, hpc] at h
      cases left with
      | zero =>
        obtain ⟨ht, hout⟩ := Prod.mk.inj (Option.some.inj h)
        exact .dataAlarm tv hpc ht.symm hout.symm
      | succ left => exact .sendData tv left hpc (Option.some.inj h)
    | _ => simp [step, hpc] at h
  | recv hd tv =>
    cases hpc : s.pc with
    | probe k =>
      simp only [step, hpc, Option.some.injEq] at h
      exact .window hd tv k hpc h
    | wait =>
      simp only [step, hpc, Option.some.injEq] at h
      exact .ack hd tv hpc h
    | _ => simp [step, hpc] at h
  | alarm back =>
    cases hpc : s.pc with
    | probe k =>
      simp only [step, hpc, Option.some.injEq] at h
      obtain ⟨ht, hout⟩ := Prod.mk.inj h
      exact .probe back k hpc ht.symm hout.symm
    | wait =>
      simp only [step, hpc, Option.ite_none_left_eq_some, Option.some.injEq] at h
      exact .timeout back hpc (Bool.eq_false_iff.mpr h.1) h.2
    | _ => simp [step, hpc] at h

/-- A step that creates nothing sends again all of `resends`, or one window request. -/
theorem resends_of_step (h : s.step o e = some (t, out))
    (hno : ∀ left tv, s.pc = .sendNew (left + 1) → e ≠ .go tv) :
    out = (s.resends o e).map s.resend ∨ out = [windowRequest] ∧ s.resends o e = [] := by
  cases Server.handles h with
  | lock tv hpc hw _ hout => exact .inl (by simp [Server.resends, hw, hout])
  | openWindow tv hpc hw heq =>
    have hout := (openWindow_keeps s).2.2
    rw [heq] at hout
    refine .inl ?_
    rw [Server.resends, if_pos ⟨hpc, hw⟩, List.map_map]
    exact hout
  | dataAlarm tv hpc _ hout => exact .inl (by simp [Server.resends, hpc, hout])
  | sendData tv left hpc _ => exact absurd rfl (hno left tv hpc)
  | window hd tv k hpc heq =>
    have hout := (resume_keeps { s with recvWindow := o.ntohs hd.recvWindow } k).2.2
    unfold Server.onWindow at heq
    dsimp only at heq
    split_ifs at heq with hw
    · rw [heq] at hout
      refine .inl (hout.trans ?_)
      by_cases hk : k = .top
      · simp [Server.resends, hpc, hk]
      · simp only [Server.resends, hpc, if_neg hk, if_pos (And.intro hw hk)]
        rfl
    · cases heq
      exact .inl (by simp [Server.resends, hpc, hw])
  | ack hd tv hpc heq =>
    have hout := (onAck_keeps s o hd tv).2
    rw [heq] at hout
    refine .inl ?_
    by_cases h0 : hd.seq = 0
    · rw [if_pos h0] at hout
      have hnil : out = [] := hout.2
      simp [Server.resends, hpc, h0, hnil]
    · rw [if_neg h0] at hout
      refine hout.2.trans ?_
      simp only [Server.resends, hpc, ne_eq, h0, not_false_eq_true, true_and]
      split_ifs <;> rfl
  | probe back k hpc _ hout => exact .inr ⟨hout, by simp [Server.resends, hpc]⟩
  | timeout back hpc hb heq =>
    have hout := (backOff_keeps (s.longjmp back) (k := .timeout) (by decide)).2.2
    have hproc : (s.longjmp back).proceeds (s.longjmp back).recvWindow =
        s.proceeds s.recvWindow := rfl
    rw [heq, hproc] at hout
    refine .inl (hout.trans ?_)
    simp only [Server.resends, hpc, hb, true_and]
    split_ifs <;> rfl

/-- A step that creates nothing keeps what is stored, and moves the front as an ACK says. -/
theorem front_of_step (h : s.step o e = some (t, out))
    (hno : ∀ left tv, s.pc = .sendNew (left + 1) → e ≠ .go tv) :
    Keeps s t ∧ ∃ seq, SameFront ((s.atJump e).discard seq) t ∧
      (seq = 0 ∨ ∃ h tv, e = .recv h tv ∧ s.pc = .wait ∧ seq = h.seq) := by
  have hstay : ∀ {u : Server}, SameFront (s.atJump e) u →
      ∃ seq, SameFront ((s.atJump e).discard seq) u ∧
        (seq = 0 ∨ ∃ h tv, e = .recv h tv ∧ s.pc = .wait ∧ seq = h.seq) := by
    intro u hf
    have hzero : (s.atJump e).discard 0 = s.atJump e := by simp [Server.discard]
    exact ⟨0, by rwa [hzero], .inl rfl⟩
  cases Server.handles h with
  | lock tv hpc hw ht _ =>
    rw [ht]
    exact ⟨.of_core rfl, hstay (.of_core rfl)⟩
  | openWindow tv hpc hw heq =>
    obtain ⟨hk, hf, _⟩ := openWindow_keeps s
    rw [heq] at hk hf
    exact ⟨hk, hstay hf⟩
  | dataAlarm tv hpc ht _ =>
    rw [ht]
    exact ⟨.of_core rfl, hstay (.of_core rfl)⟩
  | sendData tv left hpc _ => exact absurd rfl (hno left tv hpc)
  | window hd tv k hpc heq =>
    have h₀ : Keeps s { s with recvWindow := o.ntohs hd.recvWindow } := .of_core rfl
    obtain ⟨hk, hf, _⟩ := resume_keeps { s with recvWindow := o.ntohs hd.recvWindow } k
    unfold Server.onWindow at heq
    dsimp only at heq
    split_ifs at heq
    · rw [heq] at hk hf
      exact ⟨h₀.trans hk, hstay hf⟩
    · cases heq
      exact ⟨h₀, hstay (.of_core rfl)⟩
  | ack hd tv hpc heq =>
    obtain ⟨hk, hfront⟩ := onAck_keeps s o hd tv
    rw [heq] at hk hfront
    refine ⟨hk, ?_⟩
    by_cases h0 : hd.seq = 0
    · rw [if_pos h0] at hfront
      exact hstay hfront.1
    · rw [if_neg h0] at hfront
      exact ⟨hd.seq, hfront.1, .inr ⟨hd, tv, rfl, hpc, rfl⟩⟩
  | probe back k hpc ht _ =>
    have hjump : s.atJump (.alarm back) = s := by simp [Server.atJump, hpc]
    rw [ht]
    exact ⟨.of_core rfl, hstay (by rw [hjump]; exact .of_core rfl)⟩
  | timeout back hpc hb heq =>
    have hjump : s.atJump (.alarm back) = s.longjmp back := by simp [Server.atJump, hpc]
    obtain ⟨hk, hf, _⟩ := backOff_keeps (s.longjmp back) (k := .timeout) (by decide)
    rw [heq] at hk hf
    exact ⟨(longjmp_keeps s back).trans hk, hstay (by rw [hjump]; exact hf)⟩

theorem noNewData_of_step (h : s.step o e = some (t, out))
    (hno : ∀ left tv, s.pc = .sendNew (left + 1) → e ≠ .go tv) : NoNewData o s e t out := by
  obtain ⟨hk, hfront⟩ := front_of_step h hno
  refine ⟨hk, ?_, hfront⟩
  intro d hd
  rcases resends_of_step h hno with hout | ⟨hout, _⟩
  · rw [hout] at hd
    obtain ⟨i, hi, rfl⟩ := List.mem_map.mp hd
    exact .inr ⟨i, hi, rfl⟩
  · rw [hout] at hd
    exact .inl (List.mem_singleton.mp hd)

theorem loop_of_step (h : s.step o e = some (t, out)) : SameLoop s t := by
  cases Server.handles h with
  | lock _ _ _ ht _ => exact .inl (by rw [ht]; rfl)
  | openWindow _ _ _ heq => exact .inl (by rw [← (Prod.mk.inj heq).1])
  | dataAlarm _ _ ht _ => exact .inr (by rw [ht]; rfl)
  | sendData tv left _ heq =>
    have ht := sendData_loop s left tv
    rwa [heq] at ht
  | window hd _ k _ heq =>
    unfold Server.onWindow at heq
    dsimp only at heq
    split_ifs at heq
    · have ht := resume_loop { s with recvWindow := o.ntohs hd.recvWindow } k
      rwa [heq] at ht
    · cases heq
      exact .inl rfl
  | ack hd tv _ heq =>
    have ht := onAck_loop s o hd tv
    rwa [heq] at ht
  | probe _ _ _ ht _ => exact .inl (by rw [ht])
  | timeout back _ _ heq =>
    have ht := backOff_loop (s.longjmp back) .timeout
    rwa [heq] at ht

theorem SameLoop.atJump (h : SameLoop s t) : SameLoop (s.atJump e) t := by
  rcases atJump_cases s e with heq | ⟨back, _, _, heq⟩
  · rwa [heq]
  · rw [heq]
    exact h

theorem Server.sendData_or (h : s.step o e = some (t, out)) :
    (∃ left tv, s.pc = .sendNew (left + 1) ∧ e = .go tv ∧ s.sendData left tv = (t, out)) ∨
      ∀ left tv, s.pc = .sendNew (left + 1) → e ≠ .go tv := by
  by_cases hsend : ∃ left tv, s.pc = .sendNew (left + 1) ∧ e = .go tv
  · obtain ⟨left, tv, hpc, rfl⟩ := hsend
    simp only [step, hpc, Option.some.injEq] at h
    exact .inl ⟨left, tv, hpc, rfl, h⟩
  · exact .inr fun left tv hpc he => hsend ⟨left, tv, hpc, he⟩

/-- Inversion of a step: one new datagram, or none. -/
theorem Server.step_cases (h : s.step o e = some (t, out)) :
    (∃ left tv, s.pc = .sendNew (left + 1) ∧ e = .go tv ∧ s.sendData left tv = (t, out)) ∨
      NoNewData o s e t out :=
  (sendData_or h).imp_right (noNewData_of_step h)

end

end NetLab.Transfer
