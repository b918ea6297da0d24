import NetLab.Transfer.System
import NetLab.Transfer.Unacked

/-! Cumulative ACKs are safe as long as the server child transmits only datagrams that it
created, never fills its ring and does not count datagrams twice that were acknowledged. -/
namespace NetLab.Transfer
open NetLab.Lib

/-- The invariant over both processes and everything sent, for a property `P` of the
datagrams created so far. -/
structure Synced (P : ℕ → Datagram → Prop) (content : List UInt8) (y : System) : Prop where
  stocked : Stocked content y.server
  stored : Stored P y.server
  buffered : Buffered y.delivered y.client.list y.client.printed
  sent : ∀ d ∈ y.sent, d = windowRequest ∨ P y.server.sequenceNumber d
  delivered : ∀ d ∈ y.delivered, d ∈ y.sent ∧ d.seq ≠ 0
  acks : ∀ h ∈ y.acks, h.seq ≤ y.nextAck
  head : y.server.head ≤ y.nextAck

theorem synced_start {P : ℕ → Datagram → Prop} {content : List UInt8} {s : Server}
    (hs : Stocked content s) (hn : s.sequenceNumber = 0) (hh : s.head = 1) :
    Synced P content (.start s) where
  stocked := hs
  stored := fun i hi => absurd hi.2 (by simp [System.start, hn])
  buffered := buffered_nil
  sent := by simp [System.start]
  delivered := by simp [System.start]
  acks := by simp [System.start]
  head := hh.le

theorem Synced.received {P : ℕ → Datagram → Prop} {content : List UInt8} {y : System}
    (h : Synced P content y) {d : Datagram} (hd : d ∈ y.delivered) :
    P y.server.sequenceNumber d := by
  obtain ⟨hsent, h0⟩ := h.delivered d hd
  rcases h.sent d hsent with rfl | hP
  · exact absurd rfl h0
  · exact hP

theorem head_of_step {o : ByteOrder} {s t : Server} {e : ServerEvent} {out : List Datagram}
    (hstep : s.step o e = some (t, out)) :
    t.head = s.head ∨ ((∃ back, e = .alarm back) ∧ t.head = s.loopHead) ∨
      ∃ h tv, e = .recv h tv ∧ t.head = h.seq := by
  rcases Server.step_cases hstep with ⟨left, tv, _, _, heq⟩ | ⟨_, _, seq, hf, hseq⟩
  · have hh := (sendData_spec s left tv).2.1
    rw [heq] at hh
    exact .inl hh
  · have hhead := hf.2
    rw [(discard_spec (s.atJump e) seq).2.2.2.2.2] at hhead
    rcases hseq with rfl | ⟨h, tv, rfl, _, rfl⟩
    · rw [max_eq_left (Nat.zero_le _)] at hhead
      rcases atJump_cases s e with heq | ⟨back, he, _, heq⟩
      · exact .inl (hhead.trans (congrArg Server.head heq))
      · rw [heq] at hhead
        cases back with
        | false => exact .inl hhead
        | true => exact .inr (.inl ⟨⟨true, he⟩, hhead⟩)
    · rcases max_choice s.head h.seq with hmax | hmax
      · exact .inl (hhead.trans hmax)
      · exact .inr (.inr ⟨h, tv, rfl, hhead.trans hmax⟩)

theorem Synced.serve {P : ℕ → Datagram → Prop} {content : List UInt8} {u : Setup} {y : System}
    {e : SystemEvent} {e' : ServerEvent} {t : Server} {out : List Datagram}
    (h : Synced P content y) (hmono : ∀ m d, P m d → P (m + 1) d)
    (hnew : ∀ left tv, y.server.pc = .sendNew (left + 1) → e' = .go tv →
      P (y.server.sequenceNumber + 1) (y.server.newData tv).1.datagram)
    (hok : ResendsWritten u y e) (he : y.serverEvent u e = some e')
    (hstep : y.server.step u.serverOrder e' = some (t, out)) :
    Synced P content { y with server := t, sent := y.sent ++ out } := by
  obtain ⟨hstored, hkeep, hout⟩ := stored_step hmono h.stocked h.stored hnew (hok e' he) hstep
  refine ⟨h.stocked.step hstep, hstored, h.buffered, ?_, ?_, h.acks, ?_⟩
  · intro d hd
    rcases List.mem_append.mp hd with hd | hd
    · exact (h.sent d hd).imp_right (hkeep d)
    · exact hout d hd
  · intro d hd
    exact ⟨List.mem_append_left _ (h.delivered d hd).1, (h.delivered d hd).2⟩
  · rcases head_of_step hstep with hh | ⟨_, hh⟩ | ⟨hd, tv, rfl, hh⟩
    · exact hh.le.trans h.head
    · exact hh.le.trans (h.stocked.loop.2.trans h.head)
    · -- the header it saw is that of an ACK sent, its window word apart
      rcases System.serverEvent_cases he with ⟨_, _, h'⟩ | ⟨_, _, h'⟩ | ⟨k, _, a, ha, _, h'⟩
      · cases h'
      · cases h'
      · cases h'
        exact hh.le.trans (h.acks a (List.mem_of_getElem? ha))

theorem Synced.hear {P : ℕ → Datagram → Prop} {content : List UInt8} {u : Setup} {y : System}
    {e : SystemEvent} {e' : ClientEvent} {c : Client} {hs : List Hdr} (h : Synced P content y)
    (he : y.clientEvent e = some e')
    (hstep : y.client.step u.clientOrder u.W e' = some (c, hs)) :
    Synced P content { y with client := c, acks := y.acks ++ hs,
                              delivered := y.delivered ++ e'.received.toList } := by
  have hb : Buffered (y.delivered ++ e'.received.toList) c.list c.printed :=
    buffered_next (o := u.clientOrder) (W := u.W) (by simp [Client.next, hstep]) h.buffered
  have hmono := h.buffered.nextAck_mono hb fun d hd => List.mem_append_left _ hd
  refine ⟨h.stocked, h.stored, hb, h.sent, ?_, ?_, h.head.trans hmono⟩
  · intro d hd
    rcases List.mem_append.mp hd with hd | hd
    · exact h.delivered d hd
    · exact clientEvent_received he d (by simpa using hd)
  · intro a ha
    rcases List.mem_append.mp ha with ha | ha
    · exact (h.acks a ha).trans hmono
    · have hpos := hb.nextAck_spec.1
      rcases (Client.step_acks hstep).1 a ha with h1 | h1
      · exact h1.trans hpos
      · exact h1.le

theorem Synced.step {P : ℕ → Datagram → Prop} {content : List UInt8} {u : Setup} {y z : System}
    {e : SystemEvent} (h : Synced P content y) (hmono : ∀ m d, P m d → P (m + 1) d)
    (hnew : ∀ left tv, y.server.pc = .sendNew (left + 1) → e = .go tv →
      P (y.server.sequenceNumber + 1) (y.server.newData tv).1.datagram)
    (hok : ResendsWritten u y e) (hs : y.step u e = some z) : Synced P content z := by
  rcases System.step_cases hs with ⟨e', t, out, he, hstep, rfl⟩ | ⟨e', c, hs', he, hstep, rfl⟩
  · refine h.serve hmono ?_ hok he hstep
    rintro left tv hpc rfl
    refine hnew left tv hpc ?_
    rcases System.serverEvent_cases he with ⟨tv', rfl, h'⟩ | ⟨_, _, h'⟩ | ⟨_, _, _, _, _, h'⟩
    · cases h'
      rfl
    · cases h'
    · cases h'
  · exact h.hear he hstep

/-- The child keeps an entry of its ring free, and no timeout puts `head` back. -/
def KeepsRing (u : Setup) (y : System) (e : SystemEvent) : Prop :=
  ∀ e', y.serverEvent u e = some e' → HasRoom y.server e' ∧ HeadStays y.server e'

instance (u : Setup) (y : System) (e : SystemEvent) : Decidable (KeepsRing u y e) :=
  match h : y.serverEvent u e with
  | none => .isTrue fun e' he => by rw [h] at he; cases he
  | some e' => decidable_of_iff (HasRoom y.server e' ∧ HeadStays y.server e')
      ⟨fun hk e₁ he => by rw [h] at he; cases he; exact hk, fun hk => hk e' h⟩

theorem discard_front {s : Server} (hf : s.sendBuffer.front < s.sendBuffer.maxQsize) (seq : ℕ) :
    (s.discard seq).sendBuffer.front = s.sendBuffer.slot ((s.discard seq).head - s.head) := by
  have hmod := Nat.mod_eq_of_lt hf
  unfold Server.discard
  split_ifs
  · exact deCirQueue_iterate_front hmod _
  · simp [CirQueue.slot, hmod]

/-- An ACK makes `DeCirQueue` pass the entries from `front` up to the new `head`. -/
theorem Queued.passes {content : List UInt8} {o : ByteOrder} {s t : Server} {h : Hdr} {tv : Timeval}
    {out : List Datagram} (hq : Queued content s) (hstep : s.step o (.recv h tv) = some (t, out))
    (hle : h.seq ≤ s.sequenceNumber + 1) :
    t.head ≤ s.sequenceNumber + 1 ∧
    t.sendBuffer.front = s.sendBuffer.slot (t.head - s.head) ∧
    ∀ i < t.head - s.head, (s.resend (s.sendBuffer.slot i)).seq = s.head + i := by
  have hno : ∀ left tv', s.pc = .sendNew (left + 1) → ServerEvent.recv h tv ≠ .go tv' := by simp
  obtain ⟨_, seq, ⟨hfront, hhead⟩, hseq⟩ := front_of_step hstep hno
  have hjump : s.atJump (.recv h tv) = s := rfl
  rw [hjump] at hfront hhead
  have hseq' : seq ≤ s.sequenceNumber + 1 := by
    rcases hseq with rfl | ⟨_, _, he, _, rfl⟩
    · exact Nat.zero_le _
    · cases he
      exact hle
  have hlast : t.head ≤ s.sequenceNumber + 1 := by
    rw [hhead, (discard_spec s seq).2.2.2.2.2]
    exact max_le hq.head_le hseq'
  refine ⟨hlast, ?_, ?_⟩
  · rw [hfront, hhead]
    exact discard_front hq.spans.front seq
  · intro i hi
    refine (hq.slots i ?_).1
    unfold Server.unacked
    omega

theorem Synced.nextAck_le {content : List UInt8} {y : System} (h : Synced (Genuine content) content y) :
    y.nextAck ≤ y.server.sequenceNumber + 1 := by
  obtain ⟨hpos, hall, _⟩ := h.buffered.nextAck_spec
  by_contra hgt
  obtain ⟨d, hd, hk⟩ := hall (y.nextAck - 1) (by omega) (by unfold System.nextAck; omega)
  have := (h.received hd).le
  omega

theorem Synced.heard {P : ℕ → Datagram → Prop} {content : List UInt8} {u : Setup} {y : System}
    {e : SystemEvent} {a : Hdr} {tv : Timeval} (h : Synced P content y)
    (he : y.serverEvent u e = some (.recv a tv)) : a.seq ≤ y.nextAck := by
  rcases System.serverEvent_cases he with ⟨_, _, h'⟩ | ⟨_, _, h'⟩ | ⟨k, _, a, ha, _, h'⟩
  · cases h'
  · cases h'
  · cases h'
    exact h.acks a (List.mem_of_getElem? ha)

theorem Synced.queued_step {content : List UInt8} {u : Setup} {y z : System} {e : SystemEvent}
    (h : Synced (Genuine content) content y) (hq : Queued content y.server) (hring : KeepsRing u y e)
    (hs : y.step u e = some z) : Queued content z.server := by
  rcases System.step_cases hs with ⟨e', t, out, he, hstep, rfl⟩ | ⟨e', c, hs', he, _, rfl⟩
  · have hhonest : Honest y.server e' := by
      rintro a tv rfl
      exact (h.heard he).trans h.nextAck_le
    have hnext : y.server.next u.serverOrder e' = some t := by simp [Server.next, hstep]
    exact NetLab.Transfer.queued_step h.stocked hq hhonest (hring e' he).1 (hring e' he).2 hnext
  · exact hq

/-- The datagrams that an ACK discards are the first ones unacknowledged, and were received. -/
theorem Synced.discards {content : List UInt8} {u : Setup} {y z : System} {k : ℕ} {tv : Timeval}
    (h : Synced (Genuine content) content y) (hq : Queued content y.server)
    (hz : y.step u (.ack k tv) = some z) :
    z.server.head ≤ y.server.sequenceNumber + 1 ∧
    z.server.sendBuffer.front = y.server.sendBuffer.slot (z.server.head - y.server.head) ∧
    ∀ i < z.server.head - y.server.head,
      (y.server.resend (y.server.sendBuffer.slot i)).seq = y.server.head + i ∧
      ∃ d ∈ y.delivered, d.seq = y.server.head + i := by
  rcases System.step_cases hz with ⟨e', t, out, he, hstep, rfl⟩ | ⟨e', c, hs', he, _, _⟩
  · obtain ⟨a, tv', rfl⟩ : ∃ a tv, e' = .recv a tv := by
      rcases System.serverEvent_cases he with ⟨_, h', _⟩ | ⟨_, h', _⟩ | ⟨_, _, _, _, _, rfl⟩
      · cases h'
      · cases h'
      · exact ⟨_, _, rfl⟩
    have hle := h.heard he
    obtain ⟨hlast, hfront, hpass⟩ := hq.passes hstep (hle.trans h.nextAck_le)
    refine ⟨hlast, hfront, ?_⟩
    intro i (hi : i < t.head - y.server.head)
    have hnext : t.head ≤ y.nextAck := by
      rcases head_of_step hstep with hh | ⟨⟨_, h'⟩, _⟩ | ⟨_, _, h', hh⟩
      · omega
      · cases h'
      · cases h'
        exact hh.le.trans hle
    have hpos := h.stocked.head
    exact ⟨hpass i hi, h.buffered.nextAck_spec.2.1 (y.server.head + i) (by omega)
      (by unfold System.nextAck at hnext; omega)⟩
  · cases he

def littleEnds : Setup := ⟨.little, .little, 8⟩

def oneRound : List SystemEvent :=
  [.go ⟨101, 0⟩, .go ⟨101, 0⟩, .go ⟨101, 0⟩, .data 0 false false, .ack 0 ⟨101, 0⟩]

def oneRoundStart : System := .start (booted 3 (List.replicate 500 65))

def oneRoundEnd : System := (exec (System.step littleEnds) oneRoundStart oneRound).getD oneRoundStart

def oneRoundHeard : System :=
  (exec (System.step littleEnds) oneRoundStart (oneRound.take 4)).getD oneRoundStart

/-- `malloc` returned memory in which the second entry looks like a datagram numbered 2 that
was acknowledged twice. -/
def dirtyStart : System :=
  .start (.start 3 8 (List.replicate 500 65) (fun i => if i = 1 then ⟨2, 7, [66, 0], 2⟩ else ⟨0, 0, [], 0⟩)
    ⟨0, 0, [], 0⟩ ⟨0, 0, 0, 0, 0, 0⟩ ⟨100, 0⟩)

def dirtyEnd : System :=
  (exec (System.step littleEnds) dirtyStart (oneRound ++ [.data 1 false false])).getD dirtyStart

end NetLab.Transfer
