import NetLab.Transfer.Ack

/-! Flow control. The client stores whatever it is sent, so its buffer stays within the
receive window only if the server child creates no datagram beyond the window it was offered,
and takes no offer that is older than what it has seen acknowledged. -/
namespace NetLab.Transfer
open NetLab.Lib

/-- The window word in the memory of the client, as the server child reads it. -/
def Setup.readWindow (u : Setup) (w : ℕ) : ℕ :=
  u.serverOrder.ntohs (u.clientOrder.view u.serverOrder w)

/-- The window that the handshake leaves: the client sends `htons(recv_window)`. -/
def Setup.firstWindow (u : Setup) : ℕ := u.readWindow (u.clientOrder.htons u.W)

/-- An iteration of a loop that sends new data is due. -/
def Server.creates (s : Server) : Bool :=
  match s.pc with
  | .sendNew (_ + 1) => true
  | _ => false

/-- When the client sent the datagram at position `k` of `acks`, it had already acknowledged
everything below `m`. -/
def Acknowledged (acks : List Hdr) (k m : ℕ) : Prop :=
  m = 1 ∨ ∃ a ∈ acks.take (k + 1), m ≤ a.seq

/-- The child creates a datagram only when fewer than `recv_window` are unacknowledged, and
takes a window only from a datagram sent after everything below `head` was acknowledged. -/
def WithinOffer (y : System) : SystemEvent → Prop
  | .go _ => y.server.creates = true →
    y.server.sequenceNumber + 1 < y.server.head + y.server.recvWindow
  | .ack k _ => Acknowledged y.acks k y.server.head
  | _ => True

instance (acks : List Hdr) (k m : ℕ) : Decidable (Acknowledged acks k m) :=
  inferInstanceAs (Decidable (_ ∨ _))

instance (y : System) (e : SystemEvent) : Decidable (WithinOffer y e) :=
  match e with
  | .go _ => inferInstanceAs (Decidable (y.server.creates = true →
      y.server.sequenceNumber + 1 < y.server.head + y.server.recvWindow))
  | .ack k _ => inferInstanceAs (Decidable (Acknowledged y.acks k y.server.head))
  | .alarm _ => .isTrue trivial
  | .data _ _ _ => .isTrue trivial
  | .drain => .isTrue trivial
  | .testFlag => .isTrue trivial

/-- The right edge of the window, as the child sees it and as every datagram of the client
offers it, lies within what was printed and the receive window. -/
structure Fitted (u : Setup) (y : System) : Prop where
  created : y.server.sequenceNumber ≤ y.client.printed + u.W
  edge : y.server.head + y.server.recvWindow ≤ y.client.printed + u.W + 1
  offers : ∀ k a m, y.acks[k]? = some a → Acknowledged y.acks k m →
    m + u.readWindow a.recvWindow ≤ y.client.printed + u.W + 1

theorem Ascending.length_le {l : List LinkNode} (h : Ascending l) {a b : ℕ}
    (hl : ∀ x ∈ l, a < x.seq ∧ x.seq ≤ b) : l.length ≤ b - a := by
  induction l generalizing a with
  | nil => exact Nat.zero_le _
  | cons x xs ih =>
    obtain ⟨hlt, hxs⟩ := List.pairwise_cons.mp h
    have hx := hl x (by simp)
    have hlen := ih hxs fun y hy => ⟨hlt y hy, (hl y (by simp [hy])).2⟩
    rw [List.length_cons]
    omega

theorem Synced.stored_le {content : List UInt8} {y : System}
    (h : Synced (Genuine content) content y) :
    linkListLength y.client.list ≤ y.server.sequenceNumber - y.client.printed := by
  apply h.buffered.ascending.length_le
  intro x hx
  have hgt := h.buffered.above x hx
  obtain ⟨d, hd, hseq⟩ := (h.buffered.mem x.seq hgt).mp ⟨x, hx, rfl⟩
  exact ⟨hgt, hseq ▸ (h.received hd).le⟩

theorem Fitted.stored {content : List UInt8} {u : Setup} {y : System} (h : Fitted u y)
    (hy : Synced (Genuine content) content y) : linkListLength y.client.list ≤ u.W := by
  have hle := hy.stored_le
  have hc := h.created
  omega

theorem nextAck_le_length (l : List LinkNode) (start : ℕ) :
    nextAck l start ≤ start + linkListLength l + 1 := by
  induction l generalizing start with
  | nil => exact le_rfl
  | cons x xs ih =>
    have hlen : linkListLength (x :: xs) = linkListLength xs + 1 := rfl
    unfold nextAck
    split_ifs with heq
    · have hxs := ih x.seq
      omega
    · omega

theorem readWindow_window {u : Setup} {c : Client} (hW : u.W < 256)
    (hc : linkListLength c.list ≤ u.W) :
    u.readWindow (c.window u.clientOrder u.W) ≤ u.W - linkListLength c.list := by
  have hfree : u.W - linkListLength c.list < 256 := (Nat.sub_le _ _).trans_lt hW
  have hword : c.window u.clientOrder u.W =
      u.clientOrder.htons (u.W - linkListLength c.list) := by
    unfold Client.window
    rw [u.clientOrder.htons_sub hc hW, u.clientOrder.htons_byte hfree]
    cases u.clientOrder <;> dsimp only <;> omega
  rw [hword]
  exact u.clientOrder.ntohs_view_htons_le u.serverOrder hfree

/-- The window field decodes to the room in the buffer where it is zero, and otherwise only between
hosts of one byte order on which the subtraction borrows nothing from the high byte. The first
advertisement has nothing to subtract. -/
theorem window_decoded_iff (u : Setup) (c : Client) (hpos : 1 ≤ u.W) (hW : u.W < 65536)
    (hc : linkListLength c.list ≤ u.W) :
    (u.readWindow (c.window u.clientOrder u.W) = u.W - linkListLength c.list ↔
      linkListLength c.list = u.W ∨ u.clientOrder = u.serverOrder ∧
        (u.clientOrder = .big ∨ linkListLength c.list % 256 ≤ u.W % 256)) ∧
      (u.firstWindow = u.W ↔ u.clientOrder = u.serverOrder) := by
  refine ⟨u.clientOrder.ntohs_view_sub_iff u.serverOrder hc hW, ?_⟩
  have hfirst := u.clientOrder.ntohs_view_sub_iff u.serverOrder (Nat.zero_le u.W) hW
  have hzero : u.clientOrder.htons 0 = 0 := by cases u.clientOrder <;> rfl
  have hword : (((u.clientOrder.htons u.W : ℤ) - (0 : ℕ)) % 4294967296).toNat =
      u.clientOrder.htons u.W :=
    (sub_word (u.clientOrder.htons_lt u.W) (by decide)).trans (if_pos (Nat.zero_le _))
  rw [hzero, hword] at hfirst
  refine hfirst.trans ?_
  have hne : 0 ≠ u.W := by omega
  simp [hne]

def oneStored : Client := { Client.start with list := [⟨2, []⟩] }

theorem window_decoded_short :
    (Setup.readWindow ⟨.little, .little, 8⟩ (oneStored.window .little 8) = 8 - 1 ↔
      1 = 8 ∨ ByteOrder.little = .little ∧ (ByteOrder.little = .big ∨ 1 % 256 ≤ 8 % 256)) ∧
      (Setup.firstWindow ⟨.little, .little, 8⟩ = 8 ↔ ByteOrder.little = .little) :=
  window_decoded_iff ⟨.little, .little, 8⟩ oneStored (by decide) (by decide) (by decide)

/-- One datagram in a window of 256 borrows across the byte lanes, and a host of the other order
reads the half of the word that holds nothing. -/
theorem window_misread :
    Setup.readWindow ⟨.little, .little, 256⟩ (oneStored.window .little 256) = 511 ∧
      ¬ Setup.readWindow ⟨.little, .little, 256⟩ (oneStored.window .little 256) =
        256 - linkListLength oneStored.list ∧
      ¬ Setup.readWindow ⟨.little, .big, 8⟩ (oneStored.window .big 8) =
        8 - linkListLength oneStored.list ∧
      ¬ Setup.firstWindow ⟨.little, .big, 8⟩ = 8 := by
  decide

theorem onAck_recvWindow (s : Server) (o : ByteOrder) (h : Hdr) (tv : Timeval) :
    (s.onAck o h tv).1.recvWindow = if h.seq = 0 then s.recvWindow else o.ntohs h.recvWindow := by
  unfold Server.onAck
  dsimp only
  split_ifs
  · obtain ⟨c, a, m, hcount⟩ := countAck_spec s h tv
    rw [hcount]
  · exact congrArg Prod.fst (backOff_held _ .fast)
  · unfold Server.loopTest
    split_ifs <;> rfl

theorem sendData_recvWindow (s : Server) (left : ℕ) (tv : Timeval) :
    (s.sendData left tv).1.recvWindow = s.recvWindow := by
  unfold Server.sendData
  dsimp only
  split_ifs <;> rfl

section
variable {o : ByteOrder} {s t : Server} {out : List Datagram}

theorem onWindow_recvWindow {k : Resume} {hd : Hdr} (h : s.onWindow o k hd = (t, out)) :
    t.recvWindow = o.ntohs hd.recvWindow := by
  unfold Server.onWindow at h
  dsimp only at h
  split_ifs at h
  · have hw := congrArg Prod.fst (resume_held { s with recvWindow := o.ntohs hd.recvWindow } k)
    rwa [h] at hw
  · cases h
    rfl

/-- Only a datagram of the client changes the window, and only one that does moves `head` on. The end
ACK leaves the loop before the window is read. -/
theorem recvWindow_of_step {e : ServerEvent} (h : s.step o e = some (t, out)) :
    (t.recvWindow = s.recvWindow ∧ (t.head = s.head ∨ t.head = s.loopHead)) ∨
      ∃ hd tv, e = .recv hd tv ∧ t.recvWindow = o.ntohs hd.recvWindow ∧
        (t.head = s.head ∨ t.head = hd.seq) := by
  have hhead := head_of_step h
  have hquiet : (∀ hd tv, e ≠ .recv hd tv) → t.head = s.head ∨ t.head = s.loopHead := by
    intro hne
    rcases hhead with hh | ⟨_, hh⟩ | ⟨hd, tv, he, _⟩
    · exact .inl hh
    · exact .inr hh
    · exact absurd he (hne hd tv)
  cases Server.handles h with
  | lock tv _ _ ht => exact .inl ⟨by rw [ht]; rfl, hquiet (by simp)⟩
  | openWindow tv _ _ heq => exact .inl ⟨by cases heq; rfl, hquiet (by simp)⟩
  | dataAlarm tv _ ht => exact .inl ⟨by rw [ht]; rfl, hquiet (by simp)⟩
  | sendData tv left _ heq =>
    have hw := sendData_recvWindow s left tv
    rw [heq] at hw
    exact .inl ⟨hw, hquiet (by simp)⟩
  | probe _ k _ ht => exact .inl ⟨by rw [ht], hquiet (by simp)⟩
  | timeout back _ _ heq =>
    have hw := congrArg Prod.fst (backOff_held (s.longjmp back) .timeout)
    rw [heq] at hw
    exact .inl ⟨hw, hquiet (by simp)⟩
  | window hd tv k _ heq =>
    refine .inr ⟨hd, tv, rfl, onWindow_recvWindow heq, ?_⟩
    rcases hhead with hh | ⟨⟨_, he⟩, _⟩ | ⟨_, _, he, hh⟩
    · exact .inl hh
    · cases he
    · cases he
      exact .inr hh
  | ack hd tv _ heq =>
    have hw := onAck_recvWindow s o hd tv
    have hkeep := (onAck_keeps s o hd tv).2
    rw [heq] at hw hkeep
    by_cases h0 : hd.seq = 0
    · rw [if_pos h0] at hw hkeep
      exact .inl ⟨hw, .inl hkeep.1.2⟩
    · rw [if_neg h0] at hw
      refine .inr ⟨hd, tv, rfl, hw, ?_⟩
      rcases hhead with hh | ⟨⟨_, he⟩, _⟩ | ⟨_, _, he, hh⟩
      · exact .inl hh
      · cases he
      · cases he
        exact .inr hh

end

theorem Client.step_window {o : ByteOrder} {W : ℕ} {c c' : Client} {e : ClientEvent}
    {hs : List Hdr} (h : c.step o W e = some (c', hs)) :
    c.printed ≤ c'.printed ∧ (hs = [] ∨ ∃ a, hs = [a] ∧ a.recvWindow = c'.window o W) := by
  cases Client.handles h with
  | request _ _ hacks => exact ⟨le_rfl, hacks.imp_right fun heq => ⟨_, heq, rfl⟩⟩
  | lost => exact ⟨le_rfl, .inl rfl⟩
  | kept => exact ⟨(c.insert_printed _).ge, .inl rfl⟩
  | answered => exact ⟨(c.insert_printed _).ge, .inr ⟨_, rfl, rfl⟩⟩
  | drain =>
    have hdrain := drain_printed c.list c.printed c.output
    have hlt := lt_nextAck c.list c.printed
    exact ⟨by dsimp only [onDrain]; omega, .inl rfl⟩
  | testFlag => exact ⟨le_rfl, .inl rfl⟩

theorem Acknowledged.of_append {acks hs : List Hdr} {k m : ℕ} (hk : k < acks.length)
    (h : Acknowledged (acks ++ hs) k m) : Acknowledged acks k m := by
  unfold Acknowledged at h ⊢
  rwa [List.take_append_of_le_length (Nat.succ_le_of_lt hk)] at h

/-- A step of the child: a new datagram is below the edge, and a window it takes offers no
more than the edge allows. -/
theorem Fitted.serve {u : Setup} {y : System} {e : SystemEvent} {e' : ServerEvent} {t : Server}
    {out : List Datagram} (h : Fitted u y) (hloop : y.server.loopHead ≤ y.server.head)
    (hok : WithinOffer y e) (he : y.serverEvent u e = some e')
    (hstep : y.server.step u.serverOrder e' = some (t, out)) :
    Fitted u { y with server := t, sent := y.sent ++ out } := by
  have hedge := h.edge
  refine ⟨?_, ?_, h.offers⟩
  · rcases Server.step_cases hstep with ⟨left, tv, hpc, rfl, heq⟩ | hno
    · have hn : t.sequenceNumber = y.server.sequenceNumber + 1 := by
        have hspec := (sendData_spec y.server left tv).2.2.1
        rwa [heq] at hspec
      -- the event of the system is the `go` that the child saw
      rcases System.serverEvent_cases he with ⟨_, rfl, h'⟩ | ⟨_, _, h'⟩ | ⟨_, _, _, _, _, h'⟩
      · cases h'
        have hlt := hok (by simp [Server.creates, hpc])
        dsimp only
        omega
      · cases h'
      · cases h'
    · simp only [hno.keeps.sequenceNumber]
      exact h.created
  · rcases recvWindow_of_step hstep with ⟨hw, hh⟩ | ⟨hd, tv, rfl, hw, hh⟩
    · dsimp only
      omega
    · rcases System.serverEvent_cases he with ⟨_, _, h'⟩ | ⟨_, _, h'⟩ | ⟨k, _, a, ha, rfl, h'⟩
      · cases h'
      · cases h'
      · cases h'
        have hself : Acknowledged y.acks k a.seq := by
          refine .inr ⟨a, List.mem_of_getElem? (i := k) ?_, le_rfl⟩
          rw [List.getElem?_take_of_lt (Nat.lt_succ_self k)]
          exact ha
        simp only [hw]
        rcases hh with hh | hh
        · rw [hh]
          exact h.offers k a _ ha hok
        · rw [hh]
          exact h.offers k a _ ha hself

/-- A step of the client: what it offers is the room it has beyond what it acknowledges. -/
theorem Fitted.hear {content : List UInt8} {u : Setup} {y : System} {e' : ClientEvent} {c : Client}
    {hs : List Hdr} (hW : u.W < 256) (h : Fitted u y)
    (hstep : y.client.step u.clientOrder u.W e' = some (c, hs))
    (hz : Synced (Genuine content) content { y with
      client := c, acks := y.acks ++ hs, delivered := y.delivered ++ e'.received.toList }) :
    Fitted u { y with
      client := c, acks := y.acks ++ hs, delivered := y.delivered ++ e'.received.toList } := by
  obtain ⟨hp, hhs⟩ := Client.step_window hstep
  have hcreated : y.server.sequenceNumber ≤ c.printed + u.W :=
    h.created.trans (Nat.add_le_add_right hp _)
  have hlen : linkListLength c.list ≤ u.W := by
    have hle := hz.stored_le
    dsimp only at hle
    omega
  refine ⟨hcreated, ?_, ?_⟩
  · have hedge := h.edge
    dsimp only
    omega
  · intro k a m hk hm
    dsimp only at hk hm ⊢
    by_cases hold : k < y.acks.length
    · rw [List.getElem?_append_left hold] at hk
      have hoff := h.offers k a m hk (hm.of_append hold)
      omega
    · -- a new datagram: nothing above `nextAck` was acknowledged before it
      have hle : m ≤ nextAck c.list c.printed := by
        rcases hm with rfl | ⟨b, hb, hm⟩
        · exact hz.buffered.nextAck_spec.1
        · exact hm.trans (hz.acks b (List.mem_of_mem_take hb))
      have hmem : a ∈ hs := by
        rw [List.getElem?_append_right (not_lt.mp hold)] at hk
        exact List.mem_of_getElem? hk
      have hword : a.recvWindow = c.window u.clientOrder u.W := by
        rcases hhs with rfl | ⟨b, rfl, hb⟩
        · cases hmem
        · rwa [List.mem_singleton.mp hmem]
      have hroom := readWindow_window hW hlen
      have hnext := nextAck_le_length c.list c.printed
      rw [hword]
      omega

theorem fitted_start {u : Setup} (hW : u.W < 256) {s : Server} (hn : s.sequenceNumber = 0)
    (hh : s.head = 1) (hw : s.recvWindow = u.firstWindow) : Fitted u (.start s) where
  created := by simp [System.start, hn]
  edge := by
    have hle : u.firstWindow ≤ u.W := u.clientOrder.ntohs_view_htons_le u.serverOrder hW
    simp only [System.start, hh, hw, Client.start]
    omega
  offers := by simp [System.start]

def overrunStart : System :=
  .start (.start 3 1 (List.replicate 1500 65) (fun _ => ⟨0, 0, [], 0⟩) ⟨0, 0, [], 0⟩
    ⟨0, 0, 0, 0, 0, 0⟩ ⟨100, 0⟩)

/-- The first datagram is sent three times. Once it is printed, the two copies are
acknowledged with window 1; one of these ACKs is delayed until the buffer is full again. No
datagram is delivered twice. -/
def overrun : List SystemEvent :=
  [.go ⟨101, 0⟩, .go ⟨101, 0⟩, .go ⟨101, 0⟩, .alarm false, .alarm false, .data 0 false false, .drain, .testFlag,
    .data 1 false false, .data 2 false false, .ack 1 ⟨101, 0⟩, .go ⟨101, 0⟩, .go ⟨101, 0⟩,
    .go ⟨101, 0⟩, .data 3 false false, .ack 3 ⟨101, 0⟩, .go ⟨101, 0⟩, .ack 2 ⟨102, 0⟩, .go ⟨102, 0⟩,
    .go ⟨102, 0⟩, .data 4 false false]

def tightWindow : Setup := ⟨.little, .little, 1⟩

def overrunEnd : System := (exec (System.step tightWindow) overrunStart overrun).getD overrunStart

end NetLab.Transfer
