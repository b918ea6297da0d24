import NetLab.Transfer.SendBuffer

/-! The send buffer holds exactly the unacknowledged datagrams as long as a free entry
remains after every new one and no timeout puts `head` back, and no longer. -/
namespace NetLab.Transfer
open NetLab.Lib

def Server.unacked (s : Server) : ℕ := s.sequenceNumber + 1 - s.head

/-- The send buffer holds exactly the unacknowledged datagrams, in order. -/
structure BufferExact (content : List UInt8) (s : Server) : Prop where
  head_le : s.head ≤ s.sequenceNumber + 1
  length : cirQueueLength s.sendBuffer = s.unacked
  slots : ∀ i < s.unacked, (s.resend (s.sendBuffer.slot i)).seq = s.head + i ∧
    chunk content (s.head + i) <+: (s.resend (s.sendBuffer.slot i)).payload
  empty : isEmptyCirQueue s.sendBuffer = true → s.unacked = 0

/-- An honest client acknowledges datagrams that were created. -/
def Honest (s : Server) (e : ServerEvent) : Prop :=
  ∀ h tv, e = .recv h tv → h.seq ≤ s.sequenceNumber + 1

/-- A step that creates a datagram leaves an entry of the ring free. -/
def HasRoom (s : Server) (e : ServerEvent) : Prop :=
  ∀ left tv, s.pc = .sendNew (left + 1) → e = .go tv → s.unacked + 1 < s.sendWindow

/-- The jump out of the ACK loop leaves `head` what it is: it is in memory, or no new ACK has come
since `sigsetjmp`. -/
def HeadStays (s : Server) (e : ServerEvent) : Prop :=
  s.pc = .wait → e = .alarm true → s.loopHead = s.head

theorem HeadStays.atJump {s : Server} {e : ServerEvent} (h : HeadStays s e) : s.atJump e = s := by
  rcases atJump_cases s e with heq | ⟨back, rfl, hpc, heq⟩
  · exact heq
  · rw [heq]
    cases back with
    | false => rfl
    | true => exact congrArg (fun n => { s with head := n }) (h hpc rfl)

instance (s : Server) (e : ServerEvent) : Decidable (HasRoom s e) :=
  match hpc : s.pc, e with
  | .sendNew (_ + 1), .go _ => decidable_of_iff (s.unacked + 1 < s.sendWindow)
      ⟨fun h _ _ _ _ => h, fun h => h _ _ hpc rfl⟩
  | .sendNew 0, .go _ => .isTrue fun _ _ h _ => by rw [hpc] at h; cases h
  | .top, .go _ => .isTrue fun _ _ h _ => by rw [hpc] at h; cases h
  | .probe _, .go _ => .isTrue fun _ _ h _ => by rw [hpc] at h; cases h
  | .wait, .go _ => .isTrue fun _ _ h _ => by rw [hpc] at h; cases h
  | .done, .go _ => .isTrue fun _ _ h _ => by rw [hpc] at h; cases h
  | .gaveUp, .go _ => .isTrue fun _ _ h _ => by rw [hpc] at h; cases h
  | _, .recv _ _ => .isTrue fun _ _ _ he => by cases he
  | _, .alarm _ => .isTrue fun _ _ _ he => by cases he

instance (s : Server) (e : ServerEvent) : Decidable (HeadStays s e) :=
  inferInstanceAs (Decidable (s.pc = .wait → e = .alarm true → s.loopHead = s.head))

/-- The ring from `front` on. -/
structure Queued (content : List UInt8) (s : Server) : Prop where
  head_le : s.head ≤ s.sequenceNumber + 1
  spans : s.sendBuffer.Spans s.unacked
  slots : ∀ i < s.unacked, (s.resend (s.sendBuffer.slot i)).seq = s.head + i ∧
    chunk content (s.head + i) <+: (s.resend (s.sendBuffer.slot i)).payload

theorem Queued.exact {content : List UInt8} {s : Server} (h : Queued content s) :
    BufferExact content s := ⟨h.head_le, h.spans.length, h.slots, h.spans.isEmpty.mp⟩

theorem queued_start {n : ℕ} (hn : 0 < n) (recvWindow : ℕ) (content : List UInt8)
    (memory : ℕ → Data) (localcopy : Data) (rttinfo : RttInfo) (tv : Timeval) :
    Queued content (.start n recvWindow content memory localcopy rttinfo tv) where
  head_le := le_rfl
  spans := ⟨hn, by simp [Server.start, initCirQueue, CirQueue.slot, Server.unacked], hn⟩
  slots := by
    intro i hi
    simp [Server.unacked, Server.start] at hi

theorem unacked_sendData {s : Server} (hle : s.head ≤ s.sequenceNumber + 1) (left : ℕ)
    (tv : Timeval) : (s.sendData left tv).1.unacked = s.unacked + 1 := by
  obtain ⟨_, hh, hn, _⟩ := sendData_spec s left tv
  unfold Server.unacked
  rw [hh, hn]
  omega

theorem Queued.sendData {content : List UInt8} {s : Server} (hs : Stocked content s)
    (h : Queued content s) (hroom : s.unacked + 1 < s.sendWindow) (left : ℕ) (tv : Timeval) :
    Queued content (s.sendData left tv).1 := by
  obtain ⟨_, hh, hn, hQ, _, _, _, hd⟩ := sendData_spec s left tv
  have hu := unacked_sendData h.head_le left tv
  have hcar : chunk content (s.sequenceNumber + 1) <+: (s.newData tv).1.sendline :=
    (hs.genuine_new tv).carries
  rw [← hs.size] at hroom
  have hhead := h.head_le
  generalize (s.sendData left tv).1 = t at *
  generalize (s.newData tv).1 = d at *
  have hslot : ∀ i, t.sendBuffer.slot i = s.sendBuffer.slot i := by
    intro i
    rw [hQ]
    rfl
  refine ⟨by omega, by rw [hQ, hu]; exact h.spans.en hroom d, ?_⟩
  intro i hi
  rw [hu] at hi
  unfold Server.resend
  rw [hslot, hQ, hh]
  by_cases hiu : i < s.unacked
  · rw [h.spans.en_base d hiu]
    exact h.slots i hiu
  · have hieq : i = s.unacked := by omega
    have hnum : s.head + i = s.sequenceNumber + 1 := by
      unfold Server.unacked at hieq
      omega
    rw [hieq, h.spans.en_last d, ← hieq, hnum]
    exact ⟨hd, hcar⟩

theorem Queued.discard {content : List UInt8} {s : Server} (h : Queued content s) {seq : ℕ}
    (hseq : seq ≤ s.sequenceNumber + 1) : Queued content (s.discard seq) := by
  unfold Server.discard
  split_ifs with hgt
  · obtain ⟨hb, _, _, hslot, hspan⟩ := deCirQueue_iterate s.sendBuffer (seq - s.head)
    have hu : s.unacked = seq - s.head + (s.sequenceNumber + 1 - seq) := by
      unfold Server.unacked
      omega
    have hspans := h.spans
    rw [hu] at hspans
    refine ⟨hseq, hspan _ hspans, ?_⟩
    intro i hi
    have hi' : seq - s.head + i < s.unacked := by
      rw [hu]
      exact Nat.add_lt_add_left hi _
    have hold := h.slots _ hi'
    unfold Server.resend at hold ⊢
    dsimp only
    rw [hslot, hb]
    rwa [show s.head + (seq - s.head + i) = seq + i by omega] at hold
  · exact h

theorem Queued.keeps {content : List UInt8} {s t : Server} (h : Queued content s)
    (hk : Keeps s t) (hf : SameFront s t) : Queued content t := by
  have hu : t.unacked = s.unacked := by
    unfold Server.unacked
    rw [hk.sequenceNumber, hf.2]
  have hslot : ∀ i, t.sendBuffer.slot i = s.sendBuffer.slot i := by
    intro i
    unfold CirQueue.slot
    rw [hf.1, hk.maxQsize]
  refine ⟨by rw [hf.2, hk.sequenceNumber]; exact h.head_le, ?_, ?_⟩
  · rw [hu]
    exact ⟨by rw [hf.1, hk.maxQsize]; exact h.spans.front, by rw [hslot, hk.rear]; exact h.spans.rear,
      by rw [hk.maxQsize]; exact h.spans.room⟩
  · intro i hi
    rw [hu] at hi
    rw [hslot, hk.resend, hf.2]
    exact h.slots i hi

theorem discard_honest {s : Server} {e : ServerEvent} {seq : ℕ} (hok : Honest s e)
    (hseq : seq = 0 ∨ ∃ h tv, e = .recv h tv ∧ s.pc = .wait ∧ seq = h.seq) :
    seq ≤ s.sequenceNumber + 1 := by
  rcases hseq with rfl | ⟨h, tv, he, _, rfl⟩
  · exact Nat.zero_le _
  · exact hok h tv he

theorem queued_step {content : List UInt8} {o : ByteOrder} {s t : Server} {e : ServerEvent}
    (hs : Stocked content s) (h : Queued content s) (hok : Honest s e) (hroom : HasRoom s e)
    (hstay : HeadStays s e) (ht : s.next o e = some t) : Queued content t := by
  obtain ⟨⟨t, out⟩, hstep, rfl⟩ := Option.map_eq_some_iff.mp ht
  rcases Server.step_cases hstep with ⟨left, tv, hpc, he, heq⟩ | ⟨hk, _, seq, hf, hseq⟩
  · have htd : (s.sendData left tv).1 = t := by rw [heq]
    rw [← htd]
    exact h.sendData hs (hroom left tv hpc he) left tv
  · rw [hstay.atJump] at hf
    exact (h.discard (discard_honest hok hseq)).keeps ((discard_keeps s seq).symm.trans hk) hf

theorem stocked_next {content : List UInt8} {o : ByteOrder} {s t : Server} {e : ServerEvent}
    (hs : Stocked content s) (ht : s.next o e = some t) : Stocked content t := by
  obtain ⟨⟨t, out⟩, hstep, rfl⟩ := Option.map_eq_some_iff.mp ht
  exact hs.step hstep

/-- Without room the ring wraps onto unacknowledged data: its length stays below its size. -/
theorem not_exact_of_full {content : List UInt8} {o : ByteOrder} {s t : Server}
    {e : ServerEvent} (hs : Stocked content s) (h : BufferExact content s)
    (hfull : ¬ HasRoom s e) (ht : s.next o e = some t) : ¬ BufferExact content t := by
  intro hexact
  unfold HasRoom at hfull
  push Not at hfull
  obtain ⟨left, tv, hpc, rfl, hge⟩ := hfull
  have hst := stocked_next hs ht
  have hstep : t = (s.sendData left tv).1 := by
    simpa [Server.next, Server.step, hpc] using ht.symm
  have hu := unacked_sendData h.head_le left tv
  rw [← hstep] at hu
  have hwin : t.sendWindow = s.sendWindow := by
    rw [hstep]
    exact (sendData_spec s left tv).1
  have hlt := cirQueueLength_lt t.sendBuffer (by rw [hst.size]; exact hst.window)
  rw [hexact.length, hst.size, hwin, hu] at hlt
  omega

/-- When `head` goes back, more counts as unacknowledged than is in the ring. -/
theorem not_exact_of_put_back {content : List UInt8} {o : ByteOrder} {s t : Server}
    {e : ServerEvent} (h : BufferExact content s) (hback : ¬ HeadStays s e)
    (ht : s.next o e = some t) : ¬ BufferExact content t := by
  intro hexact
  unfold HeadStays at hback
  push Not at hback
  obtain ⟨hpc, rfl, hne⟩ := hback
  obtain ⟨⟨t', out⟩, hstep, heq⟩ := Option.map_eq_some_iff.mp ht
  obtain rfl : t' = t := heq
  have hno : ∀ left tv, s.pc = .sendNew (left + 1) → ServerEvent.alarm true ≠ .go tv := by simp
  obtain ⟨hk, seq, hf, hseq⟩ := front_of_step hstep hno
  obtain rfl : seq = 0 := hseq.resolve_right (by simp)
  have hjump : (s.atJump (.alarm true)).discard 0 = s.longjmp true := by
    simp [Server.atJump, hpc, Server.discard]
  rw [hjump] at hf
  have hlen : cirQueueLength t'.sendBuffer = cirQueueLength s.sendBuffer := by
    unfold cirQueueLength
    rw [hk.rear, hf.1, hk.maxQsize]
    rfl
  have hhead : t'.head = s.loopHead := hf.2
  have hle := h.head_le
  have hle' := hexact.head_le
  have hn := hk.sequenceNumber
  have hu : (t'.unacked : ℤ) = s.unacked := by rw [← hexact.length, hlen, h.length]
  unfold Server.unacked at hu
  omega

/-- Every state along the run has an exact buffer. -/
def ExactAlong (content : List UInt8) (o : ByteOrder) (s : Server) (es : List ServerEvent) :
    Prop :=
  ∀ bs cs u, es = bs ++ cs → exec (Server.next o) s bs = some u → BufferExact content u

theorem roomy_of_exact {content : List UInt8} {o : ByteOrder} {s t : Server}
    {es : List ServerEvent} (hs : Stocked content s) (hr : Run (Server.next o) Honest s es t)
    (h : ExactAlong content o s es) :
    Run (Server.next o) (fun s e => Honest s e ∧ HasRoom s e ∧ HeadStays s e) s es t := by
  induction hr with
  | nil s => exact .nil s
  | @cons s u v e es hok hstep _ ih =>
    have htail : ExactAlong content o u es := by
      intro bs cs w hes hw
      refine h (e :: bs) cs w (by rw [hes]; rfl) ?_
      simp [exec, hstep, hw]
    have hroom : HasRoom s e := by
      by_contra hfull
      exact not_exact_of_full hs (h [] _ s rfl rfl) hfull hstep (htail [] _ u rfl rfl)
    have hstay : HeadStays s e := by
      by_contra hback
      exact not_exact_of_put_back (h [] _ s rfl rfl) hback hstep (htail [] _ u rfl rfl)
    exact .cons ⟨hok, hroom, hstay⟩ hstep (ih (stocked_next hs hstep) htail)

def firstSend : List ServerEvent := [.go ⟨101, 0⟩, .go ⟨101, 0⟩]

def firstSent (n : ℕ) : Server := (exec (Server.next .little) (booted n [65]) firstSend).getD (booted n [65])

theorem first_send_run (n : ℕ) (hn : exec (Server.next .little) (booted n [65]) firstSend =
    some (firstSent n)) : Run (Server.next .little) Honest (booted n [65]) firstSend (firstSent n) :=
  .of_exec (by simp [firstSend, Honest]) hn

end NetLab.Transfer
