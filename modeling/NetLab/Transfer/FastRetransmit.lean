import NetLab.Transfer.SendBuffer

/-! Fast retransmit. The counter of duplicate ACKs is a field of the entry at `front`: it starts as
whatever `localcopy.ack` holds, and every ACK that the ACK loop takes is counted there. -/
namespace NetLab.Transfer
open NetLab.Lib

/-- The counter that an ACK finds, once the datagrams it acknowledges are discarded. -/
def Server.frontAck (s : Server) (seq : ℕ) : ℤ :=
  let Q := (s.discard seq).sendBuffer
  (Q.base Q.front).ack

/-- An ACK enters the branch for fast retransmit. -/
def Server.fastRetransmits (s : Server) (h : Hdr) : Bool :=
  h.seq != 0 && s.frontAck h.seq + 1 == 3

/-- The child, and the ACKs numbered exactly `head` that its ACK loop has taken since `head` last
advanced or since the last fast retransmit. -/
structure DupCount where
  server : Server
  dups : ℕ

def DupCount.count (y : DupCount) : ServerEvent → ℕ
  | .recv h _ =>
    if y.server.pc ≠ .wait ∨ h.seq = 0 then y.dups
    else if y.server.fastRetransmits h then 0
    else if h.seq > y.server.head then 0
    else if h.seq = y.server.head then y.dups + 1
    else y.dups
  | _ => y.dups

def DupCount.step (o : ByteOrder) (y : DupCount) (e : ServerEvent) : Option DupCount :=
  (y.server.next o e).map fun t => ⟨t, y.count e⟩

/-- The branch is entered exactly on the third ACK numbered `head`. -/
def OnThirdDuplicate (y : DupCount) (e : ServerEvent) : Prop :=
  ∀ h tv, e = .recv h tv → y.server.pc = .wait →
    (y.server.fastRetransmits h = true ↔ h.seq = y.server.head ∧ y.dups = 2)

/-- The counter holds 2 for an ACK numbered `head` if and only if it is the third one, and it does
not hold 2 for a fresh or a stale ACK. -/
def CountsDuplicates (y : DupCount) (e : ServerEvent) : Prop :=
  ∀ h tv, e = .recv h tv → y.server.pc = .wait → h.seq ≠ 0 →
    if h.seq = y.server.head then y.server.frontAck h.seq = 2 ↔ y.dups = 2
    else y.server.frontAck h.seq ≠ 2

/-- The counter of the entry at `front` is the number of duplicates as long as something is
outstanding, and at most `MAX_QSIZE` datagrams are. -/
structure Lockstep (y : DupCount) : Prop where
  sent : y.server.head ≤ y.server.sequenceNumber + 1
  fits : y.server.sequenceNumber < y.server.head + y.server.sendBuffer.maxQsize
  idle : y.server.head = y.server.sequenceNumber + 1 → y.dups = 0
  counted : y.server.head ≤ y.server.sequenceNumber →
    (y.server.sendBuffer.base y.server.sendBuffer.front).ack = y.dups

/-- A new datagram is sent only with fewer than `MAX_QSIZE` outstanding. An ACK is a duplicate with
something outstanding, or it is none, leaves nothing outstanding and finds no 2 in the entry behind. -/
def InStep (y : DupCount) : ServerEvent → Prop
  | .go _ => ∀ left, y.server.pc = .sendNew (left + 1) →
    y.server.sequenceNumber + 1 < y.server.head + y.server.sendBuffer.maxQsize
  | .recv h _ => y.server.pc = .wait → h.seq ≠ 0 →
    (h.seq = y.server.head ∧ y.server.head ≤ y.server.sequenceNumber) ∨
    (h.seq ≠ y.server.head ∧ (y.server.discard h.seq).head = y.server.sequenceNumber + 1 ∧
      y.server.frontAck h.seq ≠ 2)
  | .alarm _ => True

theorem onThirdDuplicate_iff {y : DupCount} {e : ServerEvent} (hhead : 0 < y.server.head) :
    OnThirdDuplicate y e ↔ CountsDuplicates y e := by
  constructor
  · intro h hd tv he hpc h0
    have hiff := h hd tv he hpc
    simp only [Server.fastRetransmits, Bool.and_eq_true, bne_iff_ne, ne_eq, h0, not_false_eq_true,
      true_and, beq_iff_eq] at hiff
    split_ifs with heq
    · simp only [heq, true_and] at hiff ⊢
      rw [← hiff]
      omega
    · simp only [heq, false_and, iff_false] at hiff
      omega
  · intro h hd tv he hpc
    by_cases h0 : hd.seq = 0
    · simp only [Server.fastRetransmits, h0, bne_self_eq_false, Bool.false_and, Bool.false_eq_true,
        false_iff, not_and]
      omega
    · have hcount := h hd tv he hpc h0
      simp only [Server.fastRetransmits, Bool.and_eq_true, bne_iff_ne, ne_eq, h0, not_false_eq_true,
        true_and, beq_iff_eq]
      split_ifs at hcount with heq
      · simp only [heq, true_and] at hcount ⊢
        rw [← hcount]
        omega
      · simp only [heq, false_and, iff_false]
        omega

def Server.afterAck (s : Server) (o : ByteOrder) (h : Hdr) (tv : Timeval) : Server :=
  { (s.countAck h tv).discard h.seq with recvWindow := o.ntohs h.recvWindow }

theorem afterAck_sendBuffer (s : Server) (o : ByteOrder) (h : Hdr) (tv : Timeval) :
    (s.afterAck o h tv).sendBuffer = (s.discard h.seq).sendBuffer := by
  obtain ⟨_, hQ, hh, _⟩ := countAck_keeps s h tv
  exact (discard_congr hQ hh h.seq).1

theorem afterAck_rttinfo (s : Server) (o : ByteOrder) (h : Hdr) (tv : Timeval) :
    (s.afterAck o h tv).rttinfo = s.rttinfo :=
  (discard_spec (s.countAck h tv) h.seq).2.2.2.1.trans (countAck_keeps s h tv).2.2.2

theorem afterAck_pc (s : Server) (o : ByteOrder) (h : Hdr) (tv : Timeval) :
    (s.afterAck o h tv).pc = s.pc := by
  obtain ⟨c, a, m, hcount⟩ := countAck_spec s h tv
  obtain ⟨Q, n, hdiscard⟩ := discard_eq (s.countAck h tv) h.seq
  unfold Server.afterAck
  rw [hdiscard, hcount]

theorem afterAck_keeps (s : Server) (o : ByteOrder) (h : Hdr) (tv : Timeval) :
    Keeps s (s.afterAck o h tv) :=
  ((countAck_keeps s h tv).1.trans (discard_keeps _ h.seq)).trans (.of_core rfl)

theorem onAck_end (s : Server) (o : ByteOrder) {h : Hdr} (tv : Timeval) (h0 : h.seq = 0) :
    s.onAck o h tv = ({ s.countAck h tv with pc := .done }, []) := if_pos h0

theorem onAck_branch (s : Server) (o : ByteOrder) (h : Hdr) (tv : Timeval) (h0 : h.seq ≠ 0) :
    s.onAck o h tv = if s.fastRetransmits h then ((s.afterAck o h tv).setAck 0).backOff .fast
      else (((s.afterAck o h tv).setAck (s.frontAck h.seq + 1)).loopTest, []) := by
  have hQ := afterAck_sendBuffer s o h tv
  unfold Server.onAck Server.fastRetransmits Server.frontAck
  rw [if_neg h0, ← hQ]
  simp [h0, Server.afterAck]

/-- The ring, the record from which new entries are copied, and the numbers of the datagrams. -/
def Server.store (s : Server) : CirQueue × Data × ℕ × ℕ :=
  (s.sendBuffer, s.localcopy, s.head, s.sequenceNumber)

theorem backOff_store (s : Server) (k : Resume) : (s.backOff k).1.store = s.store :=
  congrArg Prod.snd (backOff_held s k)

theorem loopTest_store (s : Server) : s.loopTest.store = s.store := by
  unfold Server.loopTest
  split_ifs <;> rfl

theorem countAck_store (s : Server) (h : Hdr) (tv : Timeval) :
    (s.countAck h tv).store = s.store := by
  obtain ⟨c, a, m, heq⟩ := countAck_spec s h tv
  rw [heq]
  rfl

theorem discard_store {s t : Server} (h : t.store = s.store) (seq : ℕ) :
    (t.discard seq).store = (s.discard seq).store := by
  simp only [Server.store, Prod.mk.injEq] at h
  obtain ⟨hQ, hlocal, hhead, hn⟩ := h
  unfold Server.discard
  rw [hhead]
  split_ifs <;> simp [Server.store, hQ, hlocal, hhead, hn]

theorem setAck_store {s t : Server} (h : t.store = s.store) (a : ℤ) :
    (t.setAck a).store = (s.setAck a).store := by
  simp only [Server.store, Prod.mk.injEq] at h
  obtain ⟨hQ, hlocal, hhead, hn⟩ := h
  simp [Server.store, Server.setAck, hQ, hlocal, hhead, hn]

/-- The counter after an ACK. -/
def Server.nextCount (s : Server) (h : Hdr) : ℤ :=
  if s.fastRetransmits h then 0 else s.frontAck h.seq + 1

theorem onAck_store (s : Server) (o : ByteOrder) (h : Hdr) (tv : Timeval) :
    (s.onAck o h tv).1.store =
      if h.seq = 0 then s.store else ((s.discard h.seq).setAck (s.nextCount h)).store := by
  split_ifs with h0
  · rw [onAck_end s o tv h0]
    exact countAck_store s h tv
  · have hafter : (s.afterAck o h tv).store = (s.discard h.seq).store :=
      discard_store (countAck_store s h tv) h.seq
    rw [onAck_branch s o h tv h0, Server.nextCount]
    generalize s.afterAck o h tv = s₁ at hafter
    split_ifs
    · rw [backOff_store]
      exact setAck_store hafter 0
    · rw [loopTest_store]
      exact setAck_store hafter _

/-- An event that neither sends a new datagram nor is counted. -/
def Server.Quiet (s : Server) (e : ServerEvent) : Prop :=
  (∀ tv left, e = .go tv → s.pc ≠ .sendNew (left + 1)) ∧
    ∀ hd tv, e = .recv hd tv → s.pc = .wait → hd.seq = 0

/-- A step writes a new entry, counts an ACK at `front`, or leaves the ring alone. -/
theorem store_step {o : ByteOrder} {s t : Server} {e : ServerEvent} {out : List Datagram}
    (h : s.step o e = some (t, out)) :
    (∃ left tv, s.pc = .sendNew (left + 1) ∧ e = .go tv ∧ s.sendData left tv = (t, out)) ∨
    (∃ hd tv, e = .recv hd tv ∧ s.pc = .wait ∧ hd.seq ≠ 0 ∧
      t.store = ((s.discard hd.seq).setAck (s.nextCount hd)).store) ∨
    (t.store = (s.atJump e).store ∧ s.Quiet e) := by
  cases Server.handles h with
  | sendData tv left hpc heq => exact .inl ⟨left, tv, hpc, rfl, heq⟩
  | lock tv hpc _ ht => exact .inr (.inr ⟨by rw [ht]; rfl, by simp [Server.Quiet, hpc]⟩)
  | openWindow tv hpc _ heq => exact .inr (.inr ⟨by cases heq; rfl, by simp [Server.Quiet, hpc]⟩)
  | dataAlarm tv hpc ht => exact .inr (.inr ⟨by rw [ht]; rfl, by simp [Server.Quiet, hpc]⟩)
  | probe back k hpc ht =>
    have hjump : s.atJump (.alarm back) = s := by simp [Server.atJump, hpc]
    exact .inr (.inr ⟨by rw [ht, hjump], by simp [Server.Quiet]⟩)
  | timeout back hpc _ heq =>
    have hjump : s.atJump (.alarm back) = s.longjmp back := by simp [Server.atJump, hpc]
    have hst := backOff_store (s.longjmp back) .timeout
    rw [heq] at hst
    exact .inr (.inr ⟨by rw [hjump]; exact hst, by simp [Server.Quiet]⟩)
  | window hd tv k hpc heq =>
    unfold Server.onWindow at heq
    dsimp only at heq
    refine .inr (.inr ⟨?_, by simp [Server.Quiet, hpc]⟩)
    split_ifs at heq
    · have hst := congrArg Prod.snd (resume_held { s with recvWindow := o.ntohs hd.recvWindow } k)
      rw [heq] at hst
      exact hst
    · cases heq
      rfl
  | ack hd tv hpc heq =>
    have hst := onAck_store s o hd tv
    rw [heq] at hst
    by_cases h0 : hd.seq = 0
    · rw [if_pos h0] at hst
      refine .inr (.inr ⟨hst, by simp, ?_⟩)
      rintro _ _ he _
      cases he
      exact h0
    · rw [if_neg h0] at hst
      exact .inr (.inl ⟨hd, tv, rfl, hpc, h0, hst⟩)

/-- The indices of the ring go with the numbers of the datagrams. -/
structure Placed (s : Server) : Prop where
  head : 0 < s.head
  front : s.sendBuffer.front = (s.head - 1) % s.sendBuffer.maxQsize
  rear : s.sendBuffer.rear = s.sequenceNumber % s.sendBuffer.maxQsize

theorem Placed.discard {s : Server} (h : Placed s) (seq : ℕ) : Placed (s.discard seq) := by
  obtain ⟨hhead, hfront, hrear⟩ := h
  unfold Server.discard
  split_ifs with hgt
  · obtain ⟨_, hr, hm, _⟩ := deCirQueue_iterate s.sendBuffer (seq - s.head)
    have hf := deCirQueue_iterate_front (Q := s.sendBuffer) (by rw [hfront, Nat.mod_mod])
      (seq - s.head)
    refine ⟨Nat.lt_of_le_of_lt (Nat.zero_le _) hgt, ?_, ?_⟩
    · dsimp only
      rw [hf, hm, CirQueue.slot, hfront, Nat.mod_add_mod]
      congr 1
      omega
    · dsimp only
      rw [hr, hm]
      exact hrear
  · exact ⟨hhead, hfront, hrear⟩

/-- The record has a cleared counter, and so have the entries behind `front`. -/
structure Cleared (s : Server) : Prop where
  placed : Placed s
  record : s.localcopy.ack = 0
  behind : ∀ k, s.head < k → k ≤ s.sequenceNumber →
    (s.sendBuffer.base ((k - 1) % s.sendBuffer.maxQsize)).ack = 0

theorem entry_ne {n j k : ℕ} (hj : 0 < j) (hjk : j < k) (hk : k < j + n) :
    (k - 1) % n ≠ (j - 1) % n := by
  intro heq
  have hd := (Nat.modEq_iff_dvd' (by omega)).mp (Eq.symm heq : j - 1 ≡ k - 1 [MOD n])
  have hle := Nat.le_of_dvd (by omega) hd
  omega

theorem Cleared.of_store {s t : Server} (h : Cleared s) (hst : t.store = s.store) : Cleared t := by
  simp only [Server.store, Prod.mk.injEq] at hst
  obtain ⟨hQ, hlocal, hhead, hn⟩ := hst
  obtain ⟨⟨hpos, hfront, hrear⟩, hrecord, hbehind⟩ := h
  rw [← hQ, ← hhead] at hfront
  rw [← hQ, ← hn] at hrear
  rw [← hlocal] at hrecord
  rw [← hQ, ← hhead, ← hn] at hbehind
  exact ⟨⟨by rwa [hhead], hfront, hrear⟩, hrecord, hbehind⟩

theorem lockstep_congr {s t : Server} (hst : t.store = s.store) (n : ℕ) :
    Lockstep ⟨t, n⟩ ↔ Lockstep ⟨s, n⟩ := by
  have hmp : ∀ {s t : Server}, t.store = s.store → Lockstep ⟨s, n⟩ → Lockstep ⟨t, n⟩ := by
    intro s t hst h
    simp only [Server.store, Prod.mk.injEq] at hst
    obtain ⟨hQ, _, hhead, hn⟩ := hst
    obtain ⟨hsent, hfits, hidle, hcounted⟩ := h
    dsimp only at hsent hfits hidle hcounted
    refine ⟨?_, ?_, ?_, ?_⟩ <;> dsimp only <;> rw [hhead, hn]
    · exact hsent
    · rw [hQ]
      exact hfits
    · exact hidle
    · rw [hQ]
      exact hcounted
  exact ⟨hmp hst.symm, hmp hst⟩

theorem sendData_ack (s : Server) (left : ℕ) (tv : Timeval) :
    (s.newData tv).1.ack = s.localcopy.ack ∧
      (s.sendData left tv).1.localcopy.ack = s.localcopy.ack := by
  unfold Server.sendData
  dsimp only
  split_ifs <;> exact ⟨rfl, rfl⟩

/-- What is outstanding fits, so the new entry replaces none that is behind `front`. -/
theorem Cleared.sendData {s : Server} (h : Cleared s)
    (hfits : s.sequenceNumber < s.head + s.sendBuffer.maxQsize) (left : ℕ) (tv : Timeval) :
    Cleared (s.sendData left tv).1 := by
  obtain ⟨_, hhead, hn, hQ, _⟩ := sendData_spec s left tv
  obtain ⟨hack, hlocal⟩ := sendData_ack s left tv
  obtain ⟨⟨hpos, hfront, hrear⟩, hrecord, hbehind⟩ := h
  refine ⟨⟨by rwa [hhead], ?_, ?_⟩, by rw [hlocal, hrecord], ?_⟩
  · rw [hQ, hhead]
    exact hfront
  · rw [hQ, hn]
    simp only [enCirQueue, hrear, Nat.mod_add_mod]
  · intro k hk hkn
    rw [hhead] at hk
    rw [hn] at hkn
    rw [hQ]
    simp only [enCirQueue, hrear]
    rcases Nat.lt_or_eq_of_le hkn with hlt | rfl
    · have hne := entry_ne (n := s.sendBuffer.maxQsize) (by omega) hlt (by omega)
      rw [Nat.add_sub_cancel] at hne
      rw [Function.update_of_ne hne.symm]
      exact hbehind k hk (by omega)
    · rw [Nat.add_sub_cancel, Function.update_self, hack, hrecord]

theorem Cleared.ack {s : Server} (h : Cleared s)
    (hfits : s.sequenceNumber < s.head + s.sendBuffer.maxQsize) (seq : ℕ) (a : ℤ) :
    Cleared ((s.discard seq).setAck a) := by
  obtain ⟨hb, hm, hlocal, _, hn, hhead⟩ := discard_spec s seq
  obtain ⟨hpos, hfront, hrear⟩ := h.placed.discard seq
  refine ⟨⟨hpos, hfront, hrear⟩, (congrArg Data.ack hlocal).trans h.record, ?_⟩
  intro k hk hkn
  simp only [Server.setAck] at hk hkn ⊢
  rw [hn] at hkn
  have hne := entry_ne (n := (s.discard seq).sendBuffer.maxQsize) hpos hk (by rw [hm]; omega)
  rw [Function.update_of_ne (by rwa [hfront]), hb, hm]
  exact h.behind k (by omega) hkn

theorem frontAck_of_le {s : Server} {seq : ℕ} (hle : seq ≤ s.head) :
    s.frontAck seq = (s.sendBuffer.base s.sendBuffer.front).ack := by
  simp [Server.frontAck, Server.discard, not_lt.mpr hle]

/-- An ACK that advances `head`, but not over all that is outstanding, finds a cleared counter. -/
theorem Cleared.frontAck {s : Server} (h : Cleared s) {seq : ℕ} (hgt : s.head < seq)
    (hle : seq ≤ s.sequenceNumber) : s.frontAck seq = 0 := by
  obtain ⟨hb, hm, _, _, _, hhead⟩ := discard_spec s seq
  have hfront := (h.placed.discard seq).front
  rw [hhead, max_eq_right hgt.le, hm] at hfront
  unfold Server.frontAck
  dsimp only
  rw [hb, hfront]
  exact h.behind seq hgt hle

/-- No ACK has advanced `head` since `sigsetjmp`, so a jump leaves it alone. -/
def Server.Rested (s : Server) : Prop := s.pc = .wait → s.loopHead = s.head

theorem resume_rested (s : Server) (k : Resume) (hpc : s.pc ≠ .wait ∨ k ≠ .top) :
    (s.resume k).1.Rested := by
  cases k with
  | top => exact fun h => by cases h
  | timeout => exact fun _ => rfl
  | fast =>
    unfold Server.resume
    cases s.file.eof with
    | true => exact fun _ => rfl
    | false => exact fun h => by cases h

theorem backOff_rested (s : Server) {k : Resume} (hk : k ≠ .top) : (s.backOff k).1.Rested := by
  unfold Server.backOff
  dsimp only
  split_ifs
  · exact fun h => by cases h
  · exact fun h => by cases h
  · exact resume_rested _ k (.inr hk)

theorem rested_of_step {o : ByteOrder} {s t : Server} {e : ServerEvent} {out : List Datagram}
    (h : s.step o e = some (t, out)) : t.Rested ∨
      s.pc = .wait ∧ t.loopHead = s.loopHead ∧ isEmptyCirQueue t.sendBuffer = false ∧
        ∃ hd tv, e = .recv hd tv ∧ hd.seq ≠ 0 ∧ s.fastRetransmits hd = false := by
  cases Server.handles h with
  | lock _ _ _ ht => exact .inl (by rw [ht]; exact fun h => by cases h)
  | openWindow _ _ _ heq => exact .inl (by rw [← (Prod.mk.inj heq).1]; exact fun h => by cases h)
  | dataAlarm _ _ ht => exact .inl (by rw [ht]; exact fun _ => rfl)
  | sendData tv left _ heq =>
    have ht : (s.sendData left tv).1 = t := by rw [heq]
    rw [← ht]
    unfold Server.sendData
    dsimp only
    split_ifs
    · exact .inl fun _ => rfl
    · exact .inl fun h => by cases h
  | window hd tv k hpc heq =>
    unfold Server.onWindow at heq
    dsimp only at heq
    split_ifs at heq
    · have ht := resume_rested { s with recvWindow := o.ntohs hd.recvWindow } k (.inl (by simp [hpc]))
      rw [heq] at ht
      exact .inl ht
    · cases heq
      exact .inl fun h => by simp [hpc] at h
  | ack hd tv hpc heq =>
    by_cases h0 : hd.seq = 0
    · rw [onAck_end s o tv h0] at heq
      exact .inl (by rw [← (Prod.mk.inj heq).1]; exact fun h => by cases h)
    · rw [onAck_branch s o hd tv h0] at heq
      split_ifs at heq with hfast
      · have ht := backOff_rested ((s.afterAck o hd tv).setAck 0) (k := .fast) (by decide)
        rw [heq] at ht
        exact .inl ht
      · obtain ⟨c, a, m, hcount⟩ := countAck_spec s hd tv
        obtain ⟨Q, n, hdiscard⟩ := discard_eq (s.countAck hd tv) hd.seq
        have hloop : (s.afterAck o hd tv).loopHead = s.loopHead := by
          unfold Server.afterAck
          rw [hdiscard, hcount]
        rw [← (Prod.mk.inj heq).1]
        unfold Server.loopTest
        split_ifs with htest
        · exact .inr ⟨hpc, hloop, htest.2, hd, tv, rfl, h0, Bool.eq_false_of_not_eq_true hfast⟩
        · exact .inl fun h => by cases h
  | probe _ k hpc ht => exact .inl fun h => by simp [ht, hpc] at h
  | timeout back _ _ heq =>
    have ht := backOff_rested (s.longjmp back) (k := .timeout) (by decide)
    rw [heq] at ht
    exact .inl ht

theorem cleared_step {o : ByteOrder} {y z : DupCount} {e : ServerEvent} (h : Cleared y.server)
    (hrest : y.server.Rested) (hl : Lockstep y) (hs : y.step o e = some z) : Cleared z.server := by
  obtain ⟨t, hnext, rfl⟩ := Option.map_eq_some_iff.mp hs
  obtain ⟨⟨t, out⟩, hstep, rfl⟩ := Option.map_eq_some_iff.mp hnext
  rcases store_step hstep with ⟨left, tv, _, _, heq⟩ | ⟨hd, tv, _, _, _, hst⟩ | ⟨hst, _⟩
  · have hnew := h.sendData hl.fits left tv
    rwa [heq] at hnew
  · exact (h.ack hl.fits hd.seq _).of_store hst
  · rw [atJump_of_loop hrest] at hst
    exact h.of_store hst

/-- In lockstep, an ACK that advances `head` leaves nothing in the ring and ends the loop. -/
theorem rested_step {o : ByteOrder} {y z : DupCount} {e : ServerEvent} (h : Cleared y.server)
    (hrest : y.server.Rested) (hl : Lockstep y) (hs : y.step o e = some z) (hz : Lockstep z) :
    z.server.Rested := by
  have hplaced := (cleared_step h hrest hl hs).placed
  obtain ⟨t, hnext, rfl⟩ := Option.map_eq_some_iff.mp hs
  obtain ⟨⟨t', out⟩, hstep, heq⟩ := Option.map_eq_some_iff.mp hnext
  obtain rfl : t' = t := heq
  rcases rested_of_step hstep with ht | ⟨hpc, hloop, hleft, hd, tv, rfl, h0, hfast⟩
  · exact ht
  · intro _
    obtain ⟨left, _, hsend, _⟩ | ⟨_, _, he, _, _, hst⟩ | ⟨_, _, hquiet⟩ := store_step hstep
    · rw [hpc] at hsend
      cases hsend
    · cases he
      simp only [Server.store, Prod.mk.injEq] at hst
      obtain ⟨hQ, _, hhead, hn⟩ := hst
      have hhead' : t'.head = max y.server.head hd.seq :=
        hhead.trans (discard_spec y.server hd.seq).2.2.2.2.2
      rcases Nat.lt_or_ge y.server.head hd.seq with hgt | hle
      · rw [max_eq_right hgt.le] at hhead'
        exfalso
        have hsent := hz.sent
        have hcounted := hz.counted
        dsimp only at hsent hcounted
        rcases Nat.lt_or_eq_of_le hsent with hlt | hend
        · have hfront := hcounted (by omega)
          rw [hQ] at hfront
          have hseq : hd.seq ≤ y.server.sequenceNumber := by
            have hn' : t'.sequenceNumber = y.server.sequenceNumber :=
              hn.trans (discard_spec y.server hd.seq).2.2.2.2.1
            omega
          simp only [Server.setAck, Function.update_self, Server.nextCount, hfast,
            h.frontAck hgt hseq, DupCount.count, hpc, h0, hgt] at hfront
          simp at hfront
        · have hempty : t'.sendBuffer.front = t'.sendBuffer.rear := by
            rw [hplaced.front, hplaced.rear, hend, Nat.add_sub_cancel]
          simp [isEmptyCirQueue, hempty] at hleft
      · rw [max_eq_left hle] at hhead'
        dsimp only
        rw [hloop, hhead', hrest hpc]
    · exact absurd (hquiet hd tv rfl hpc) h0

/-- A new datagram keeps the counter in lockstep if and only if the ring has room for it. -/
theorem Lockstep.sendData_iff {y : DupCount} (h : Lockstep y) (hc : Cleared y.server) (left : ℕ)
    (tv : Timeval) : Lockstep ⟨(y.server.sendData left tv).1, y.dups⟩ ↔
      y.server.sequenceNumber + 1 < y.server.head + y.server.sendBuffer.maxQsize := by
  obtain ⟨_, hhead, hn, hQ, _⟩ := sendData_spec y.server left tv
  have hack := (sendData_ack y.server left tv).1
  have hsent := h.sent
  constructor
  · intro hz
    have hfits := hz.fits
    dsimp only at hfits
    rw [hn, hhead, hQ] at hfits
    exact hfits
  · intro hroom
    refine ⟨?_, ?_, ?_, ?_⟩ <;> dsimp only <;> rw [hn, hhead]
    · omega
    · rw [hQ]
      exact hroom
    · omega
    · intro _
      rw [hQ]
      simp only [enCirQueue, hc.placed.rear, hc.placed.front]
      rcases Nat.lt_or_eq_of_le hsent with hlt | heq
      · have hne := entry_ne (n := y.server.sendBuffer.maxQsize) hc.placed.head hlt hroom
        rw [Nat.add_sub_cancel] at hne
        rw [Function.update_of_ne hne.symm, ← hc.placed.front]
        exact h.counted (by omega)
      · -- the new entry is the first one, with the counter of the record
        rw [heq, Nat.add_sub_cancel, Function.update_self, hack, hc.record, h.idle heq]
        rfl

theorem lockstep_setAck (s : Server) (a : ℤ) (n : ℕ) : Lockstep ⟨s.setAck a, n⟩ ↔
    s.head ≤ s.sequenceNumber + 1 ∧ s.sequenceNumber < s.head + s.sendBuffer.maxQsize ∧
      (s.head = s.sequenceNumber + 1 → n = 0) ∧ (s.head ≤ s.sequenceNumber → a = n) := by
  constructor
  · intro ⟨hsent, hfits, hidle, hcounted⟩
    simp only [Server.setAck, Function.update_self] at hsent hfits hidle hcounted
    exact ⟨hsent, hfits, hidle, hcounted⟩
  · intro ⟨hsent, hfits, hidle, hcounted⟩
    refine ⟨hsent, hfits, hidle, ?_⟩
    simpa only [Server.setAck, Function.update_self] using hcounted

theorem fastRetransmits_iff (s : Server) {h : Hdr} (h0 : h.seq ≠ 0) :
    s.fastRetransmits h = true ↔ s.frontAck h.seq = 2 := by
  simp only [Server.fastRetransmits, Bool.and_eq_true, bne_iff_ne, ne_eq, h0, not_false_eq_true,
    true_and, beq_iff_eq]
  omega

/-- An ACK is counted as a duplicate if and only if it is one, and it meets the third one. -/
theorem Lockstep.ack_iff {y : DupCount} {hd : Hdr} {tv : Timeval} (h : Lockstep y)
    (hc : Cleared y.server) (hpc : y.server.pc = .wait) (h0 : hd.seq ≠ 0) :
    InStep y (.recv hd tv) ↔ OnThirdDuplicate y (.recv hd tv) ∧
      Lockstep ⟨(y.server.discard hd.seq).setAck (y.server.nextCount hd),
        y.count (.recv hd tv)⟩ := by
  have hin : InStep y (.recv hd tv) ↔ (hd.seq = y.server.head ∧
      y.server.head ≤ y.server.sequenceNumber) ∨ (hd.seq ≠ y.server.head ∧
      (y.server.discard hd.seq).head = y.server.sequenceNumber + 1 ∧
      y.server.frontAck hd.seq ≠ 2) := ⟨fun hin => hin hpc h0, fun hin _ _ => hin⟩
  have hthird : OnThirdDuplicate y (.recv hd tv) ↔
      (y.server.frontAck hd.seq = 2 ↔ hd.seq = y.server.head ∧ y.dups = 2) := by
    rw [← fastRetransmits_iff y.server h0]
    exact ⟨fun hon => hon hd tv rfl hpc, fun hon h' tv' he _ => by cases he; exact hon⟩
  obtain ⟨_, hm, _, _, hn, hhead⟩ := discard_spec y.server hd.seq
  rw [hin, hthird, lockstep_setAck, hm, hn, hhead]
  simp only [DupCount.count, hpc, ne_eq, not_true_eq_false, h0, or_self, if_false,
    Server.nextCount, fastRetransmits_iff y.server h0]
  have hsent := h.sent
  have hfits := h.fits
  have hidle := h.idle
  rcases lt_trichotomy hd.seq y.server.head with hlt | heq | hgt
  · -- a stale ACK is harmless with nothing outstanding only
    have hold : y.server.head ≤ y.server.sequenceNumber → y.server.frontAck hd.seq = y.dups := by
      intro hle
      rw [frontAck_of_le hlt.le]
      exact h.counted hle
    rw [max_eq_left hlt.le]
    split_ifs <;> omega
  · rw [max_eq_left heq.le]
    by_cases hle : y.server.head ≤ y.server.sequenceNumber
    · have hold : y.server.frontAck hd.seq = y.dups :=
        (frontAck_of_le heq.le).trans (h.counted hle)
      refine iff_of_true (.inl ⟨heq, hle⟩) ⟨by omega, hsent, hfits, by omega, ?_⟩
      intro _
      split_ifs <;> omega
    · -- with nothing outstanding the entry that counts a duplicate is written again
      have hnone := hidle (by omega)
      refine iff_of_false (by omega) ?_
      intro ⟨hthree, _, _, hzero, _⟩
      have hcount := hzero (by omega)
      split_ifs at hcount <;> omega
  · -- the ACK is counted in the entry that comes to `front`
    have hzero : hd.seq ≤ y.server.sequenceNumber → y.server.frontAck hd.seq = 0 := hc.frontAck hgt
    rw [max_eq_right hgt.le]
    split_ifs <;> omega

/-- A step meets `InStep` if and only if it does not fire wrongly and stays in lockstep. -/
theorem Lockstep.step_iff {o : ByteOrder} {y z : DupCount} {e : ServerEvent} (h : Lockstep y)
    (hc : Cleared y.server) (hrest : y.server.Rested) (hs : y.step o e = some z) :
    InStep y e ↔ OnThirdDuplicate y e ∧ Lockstep z := by
  obtain ⟨t, hnext, rfl⟩ := Option.map_eq_some_iff.mp hs
  obtain ⟨⟨t, out⟩, hstep, rfl⟩ := Option.map_eq_some_iff.mp hnext
  rcases store_step hstep with ⟨left, tv, hpc, rfl, heq⟩ | ⟨hd, tv, rfl, hpc, h0, hst⟩ |
    ⟨hst, hsend, hend⟩
  · have hiff := h.sendData_iff hc left tv
    rw [heq] at hiff
    constructor
    · intro hin
      exact ⟨fun _ _ he => (by cases he), hiff.mpr (hin left hpc)⟩
    · intro ⟨_, hz⟩ _ _
      exact hiff.mp hz
  · rw [lockstep_congr hst]
    exact h.ack_iff hc hpc h0
  · have hdups : y.count e = y.dups := by
      cases e with
      | recv hd tv =>
        unfold DupCount.count
        dsimp only
        rw [if_pos]
        by_cases hpc : y.server.pc = .wait
        · exact .inr (hend hd tv rfl hpc)
        · exact .inl hpc
      | go tv => rfl
      | alarm _ => rfl
    have hin : InStep y e := by
      cases e with
      | go tv => exact fun left hpc => absurd hpc (hsend tv left rfl)
      | recv hd tv => exact fun hpc h0 => absurd (hend hd tv rfl hpc) h0
      | alarm _ => trivial
    have hthird : OnThirdDuplicate y e := by
      rintro hd tv rfl hpc
      have h0 := hend hd tv rfl hpc
      have hpos := hc.placed.head
      simp only [Server.fastRetransmits, h0, bne_self_eq_false, Bool.false_and, Bool.false_eq_true,
        false_iff, not_and]
      omega
    rw [atJump_of_loop hrest] at hst
    rw [lockstep_congr hst, hdups]
    exact ⟨fun _ => ⟨hthird, h⟩, fun _ => hin⟩

theorem head_pos_step {o : ByteOrder} {s t : Server} {e : ServerEvent} {out : List Datagram}
    (hpos : 0 < s.head ∧ 0 < s.loopHead) (h : s.step o e = some (t, out)) :
    0 < t.head ∧ 0 < t.loopHead := by
  have hhead : 0 < t.head := by
    rcases Server.step_cases h with ⟨left, tv, _, _, heq⟩ | ⟨_, _, seq, hf, _⟩
    · have hh := (sendData_spec s left tv).2.1
      rw [heq] at hh
      exact hpos.1.trans_eq hh.symm
    · have hjump : 0 < (s.atJump e).head := by
        rcases atJump_cases s e with heq | ⟨back, _, _, heq⟩
        · rw [heq]
          exact hpos.1
        · rw [heq]
          cases back with
          | false => exact hpos.1
          | true => exact hpos.2
      rw [hf.2, (discard_spec (s.atJump e) seq).2.2.2.2.2]
      exact hjump.trans_le (le_max_left _ seq)
  rcases loop_of_step h with hl | hl
  · exact ⟨hhead, hpos.2.trans_eq hl.symm⟩
  · exact ⟨hhead, hhead.trans_eq hl.symm⟩

theorem head_pos_exec {o : ByteOrder} {y u : DupCount} {es : List ServerEvent}
    (h : 0 < y.server.head ∧ 0 < y.server.loopHead) (hu : exec (DupCount.step o) y es = some u) :
    0 < u.server.head := by
  have hrun : Run (DupCount.step o) (fun _ _ => True) y es u := .of_exec (fun _ _ _ => trivial) hu
  refine (hrun.invariant (fun y => 0 < y.server.head ∧ 0 < y.server.loopHead) ?_ h).1
  intro y z e h _ hs
  obtain ⟨t, hnext, rfl⟩ := Option.map_eq_some_iff.mp hs
  obtain ⟨⟨t, out⟩, hstep, rfl⟩ := Option.map_eq_some_iff.mp hnext
  exact head_pos_step h hstep

section
variable (n recvWindow : ℕ) (content : List UInt8) (memory : ℕ → Data) {localcopy : Data}
  (rttinfo : RttInfo) (tv : Timeval)

theorem cleared_start (hack : localcopy.ack = 0) :
    Cleared (.start n recvWindow content memory localcopy rttinfo tv) := by
  constructor
  case placed =>
    constructor
    · exact Nat.one_pos
    · simp [Server.start, initCirQueue]
    · simp [Server.start, initCirQueue]
  case record =>
    exact hack
  case behind =>
    intro k hk hkn
    simp only [Server.start] at hk hkn
    omega

theorem lockstep_start :
    Lockstep ⟨.start n recvWindow content memory localcopy rttinfo tv, 0⟩ := by
  constructor
  case sent =>
    exact le_rfl
  case fits =>
    simp only [Server.start, initCirQueue]
    omega
  case idle =>
    exact fun _ => rfl
  case counted =>
    intro hle
    simp only [Server.start] at hle
    omega

end

instance (y : DupCount) (e : ServerEvent) : Decidable (InStep y e) :=
  match e with
  | .go _ => match h : y.server.pc with
    | .sendNew (_ + 1) => decidable_of_iff
        (y.server.sequenceNumber + 1 < y.server.head + y.server.sendBuffer.maxQsize)
        ⟨fun hroom _ _ => hroom, fun hroom => hroom _ h⟩
    | .sendNew 0 => .isTrue fun _ he => by rw [h] at he; cases he
    | .top => .isTrue fun _ he => by rw [h] at he; cases he
    | .probe _ => .isTrue fun _ he => by rw [h] at he; cases he
    | .wait => .isTrue fun _ he => by rw [h] at he; cases he
    | .done => .isTrue fun _ he => by rw [h] at he; cases he
    | .gaveUp => .isTrue fun _ he => by rw [h] at he; cases he
  | .recv h _ => inferInstanceAs (Decidable (y.server.pc = .wait → h.seq ≠ 0 →
      (h.seq = y.server.head ∧ y.server.head ≤ y.server.sequenceNumber) ∨
      (h.seq ≠ y.server.head ∧ (y.server.discard h.seq).head = y.server.sequenceNumber + 1 ∧
        y.server.frontAck h.seq ≠ 2)))
  | .alarm _ => .isTrue trivial

def dupStart : DupCount := ⟨booted 4 (List.replicate 3000 65), 0⟩

/-- The first datagram is lost, and ACK 1 arrives three times. -/
def tripled : List ServerEvent :=
  [.go ⟨101, 0⟩, .go ⟨101, 0⟩, .go ⟨101, 0⟩, .recv ⟨1, 1000, 2048⟩ ⟨101, 0⟩, .go ⟨101, 0⟩,
    .go ⟨101, 0⟩, .go ⟨101, 0⟩, .recv ⟨1, 1000, 2048⟩ ⟨101, 0⟩, .recv ⟨1, 1000, 2048⟩ ⟨101, 0⟩]

def tripledEnd : DupCount := (exec (DupCount.step .little) dupStart tripled).getD dupStart

/-- Datagram 1 is acknowledged, then datagram 2 by ACK 3, which arrives once more before datagram 4
is sent. -/
def repeated : List ServerEvent :=
  [.go ⟨101, 0⟩, .go ⟨101, 0⟩, .go ⟨101, 0⟩, .recv ⟨2, 1000, 2048⟩ ⟨101, 0⟩, .go ⟨101, 0⟩,
    .go ⟨101, 0⟩, .go ⟨101, 0⟩, .go ⟨101, 0⟩, .recv ⟨3, 1000, 512⟩ ⟨101, 0⟩,
    .recv ⟨3, 1000, 512⟩ ⟨101, 0⟩, .go ⟨101, 0⟩, .go ⟨101, 0⟩, .go ⟨101, 0⟩]

def repeatedEnd : DupCount := (exec (DupCount.step .little) dupStart repeated).getD dupStart

def secondDuplicate : Hdr := ⟨3, 1000, 512⟩

end NetLab.Transfer
