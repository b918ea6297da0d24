import NetLab.Transfer.Receiver
import NetLab.Transfer.SendBuffer

/-! The server child and the client over a network that loses, duplicates, delays and reorders
datagrams in both directions: every datagram ever sent can arrive at any time and any number
of times. Header and payload of a data datagram arrive together. -/
namespace NetLab.Transfer
open NetLab.Lib

/-- `sent` and `acks` are the datagrams sent so far in either direction, `delivered` those
that the receive loop of the client took. -/
structure System where
  server : Server
  client : Client
  sent : List Datagram
  acks : List Hdr
  delivered : List Datagram

/-- Steps of the server child without a datagram, deliveries by position, and steps of
`print_out`. -/
inductive SystemEvent where
  | go (tv : Timeval)
  | alarm (back : Bool)
  | ack (k : ℕ) (tv : Timeval)
  | data (k : ℕ) (lostIn lostOut : Bool)
  | drain
  | testFlag
  deriving DecidableEq, Repr

/-- Byte orders of server and client, and the receive window of the client. -/
structure Setup where
  serverOrder : ByteOrder
  clientOrder : ByteOrder
  W : ℕ
  deriving DecidableEq, Repr

def System.start (s : Server) : System := ⟨s, .start, [], [], []⟩

/-- The event that the server child sees. The window is the one header word that the client
does not convert from its memory. -/
def System.serverEvent (u : Setup) (y : System) : SystemEvent → Option ServerEvent
  | .go tv => some (.go tv)
  | .alarm back => some (.alarm back)
  | .ack k tv => y.acks[k]?.map fun h =>
    .recv { h with recvWindow := u.clientOrder.view u.serverOrder h.recvWindow } tv
  | _ => none

def System.clientEvent (y : System) : SystemEvent → Option ClientEvent
  | .data k lostIn lostOut => y.sent[k]?.map fun d => .datagram d lostIn lostOut
  | .drain => some .drain
  | .testFlag => some .testFlag
  | _ => none

def System.serve (u : Setup) (y : System) (e : ServerEvent) : Option System :=
  (y.server.step u.serverOrder e).map fun r => { y with server := r.1, sent := y.sent ++ r.2 }

def System.hear (u : Setup) (y : System) (e : ClientEvent) : Option System :=
  (y.client.step u.clientOrder u.W e).map fun r =>
    { y with client := r.1, acks := y.acks ++ r.2, delivered := y.delivered ++ e.received.toList }

def System.step (u : Setup) (y : System) (e : SystemEvent) : Option System :=
  match y.serverEvent u e with
  | some e => y.serve u e
  | none => (y.clientEvent e).bind (y.hear u)

def System.nextAck (y : System) : ℕ := Transfer.nextAck y.client.list y.client.printed

/-- Every entry that the step transmits again belongs to the ring and was written. -/
def ResendsWritten (u : Setup) (y : System) (e : SystemEvent) : Prop :=
  ∀ e', y.serverEvent u e = some e' → ∀ i ∈ y.server.resends u.serverOrder e',
    y.server.Written i

instance (s : Server) (i : ℕ) : Decidable (s.Written i) :=
  inferInstanceAs (Decidable (_ ∧ _))

instance (u : Setup) (y : System) (e : SystemEvent) : Decidable (ResendsWritten u y e) :=
  match h : y.serverEvent u e with
  | none => .isTrue fun e' he => by rw [h] at he; cases he
  | some e' => decidable_of_iff (∀ i ∈ y.server.resends u.serverOrder e', y.server.Written i)
      ⟨fun hi e₁ he => by rw [h] at he; cases he; exact hi, fun hi => hi e' h⟩

theorem System.step_cases {u : Setup} {y z : System} {e : SystemEvent}
    (h : y.step u e = some z) :
    (∃ e' t out, y.serverEvent u e = some e' ∧ y.server.step u.serverOrder e' = some (t, out) ∧
      z = { y with server := t, sent := y.sent ++ out }) ∨
    (∃ e' c hs, y.clientEvent e = some e' ∧ y.client.step u.clientOrder u.W e' = some (c, hs) ∧
      z = { y with client := c, acks := y.acks ++ hs,
                   delivered := y.delivered ++ e'.received.toList }) := by
  unfold step at h
  split at h
  · rename_i e' he
    obtain ⟨⟨t, out⟩, hs, rfl⟩ := Option.map_eq_some_iff.mp h
    exact .inl ⟨e', t, out, he, hs, rfl⟩
  · obtain ⟨e', he, hhear⟩ := Option.bind_eq_some_iff.mp h
    obtain ⟨⟨c, hs⟩, hstep, rfl⟩ := Option.map_eq_some_iff.mp hhear
    exact .inr ⟨e', c, hs, he, hstep, rfl⟩

/-- The server child sees its own steps, and the datagrams of the client with the window read
in its own byte order. -/
theorem System.serverEvent_cases {u : Setup} {y : System} {e : SystemEvent} {e' : ServerEvent}
    (he : y.serverEvent u e = some e') :
    (∃ tv, e = .go tv ∧ e' = .go tv) ∨ (∃ back, e = .alarm back ∧ e' = .alarm back) ∨
    ∃ k tv a, y.acks[k]? = some a ∧ e = .ack k tv ∧
      e' = .recv { a with recvWindow := u.clientOrder.view u.serverOrder a.recvWindow } tv := by
  cases e with
  | go tv =>
    cases he
    exact .inl ⟨tv, rfl, rfl⟩
  | alarm back =>
    cases he
    exact .inr (.inl ⟨back, rfl, rfl⟩)
  | ack k tv =>
    obtain ⟨a, ha, rfl⟩ := Option.map_eq_some_iff.mp he
    exact .inr (.inr ⟨k, tv, a, ha, rfl, rfl⟩)
  | _ => cases he

theorem clientEvent_received {y : System} {e : SystemEvent} {e' : ClientEvent}
    (he : y.clientEvent e = some e') (d : Datagram) (hd : e'.received = some d) :
    d ∈ y.sent ∧ d.seq ≠ 0 := by
  cases e with
  | data k lostIn lostOut =>
    obtain ⟨d', hd', rfl⟩ := Option.map_eq_some_iff.mp he
    simp only [ClientEvent.received, Option.ite_none_right_eq_some, Option.some.injEq] at hd
    obtain ⟨⟨h0, _⟩, rfl⟩ := hd
    exact ⟨List.mem_of_getElem? hd', h0⟩
  | drain => cases he; cases hd
  | testFlag => cases he; cases hd
  | _ => cases he

/-- The number acknowledged is the first one that was not received. -/
theorem Buffered.nextAck_spec {received : List Datagram} {l : List LinkNode} {printed : ℕ}
    (h : Buffered received l printed) :
    0 < nextAck l printed ∧
    (∀ k, 0 < k → k < nextAck l printed → ∃ d ∈ received, d.seq = k) ∧
    ∀ d ∈ received, d.seq ≠ nextAck l printed := by
  obtain ⟨hlt, hall, hnot⟩ := NetLab.Transfer.nextAck_spec h.ascending h.above
  refine ⟨by omega, ?_, ?_⟩
  · intro k h1 h2
    by_cases hk : k ≤ printed
    · exact h.below k h1 hk
    · exact (h.mem k (by omega)).mp (hall k (by omega) h2)
  · intro d hd heq
    obtain ⟨x, hx, hxn⟩ := (h.mem _ hlt).mpr ⟨d, hd, heq⟩
    exact hnot x hx hxn

theorem Buffered.nextAck_mono {received received' : List Datagram} {l l' : List LinkNode}
    {printed printed' : ℕ} (h : Buffered received l printed)
    (h' : Buffered received' l' printed') (hsub : ∀ d ∈ received, d ∈ received') :
    nextAck l printed ≤ nextAck l' printed' := by
  obtain ⟨hpos, _, hnot⟩ := h'.nextAck_spec
  by_contra hlt
  obtain ⟨d, hd, hk⟩ := h.nextAck_spec.2.1 _ hpos (by omega)
  exact hnot d (hsub d hd) hk

theorem Client.ends_of_keep {c : Client} {d : Datagram} (hset : (c.keep d).dataFlag = true) :
    c.dataFlag = true ∨
      (d.ts = 0 ∧ nextAck (c.keep d).list (c.keep d).printed = d.seq + 1) := by
  rw [keep_dataFlag] at hset
  rcases Bool.or_eq_true_iff.mp hset with hold | hcomplete
  · exact .inl hold
  · obtain ⟨hts, hnext⟩ := Bool.and_eq_true_iff.mp hcomplete
    exact .inr ⟨eq_of_beq hts, eq_of_beq hnext⟩

/-- The ACK that a step of the client sends, and when it sets `data_flag`. -/
theorem Client.step_acks {o : ByteOrder} {W : ℕ} {c c' : Client} {e : ClientEvent}
    {hs : List Hdr} (h : c.step o W e = some (c', hs)) :
    (∀ h ∈ hs, h.seq ≤ 1 ∨ h.seq = nextAck c'.list c'.printed) ∧
    (c'.dataFlag = true → c.dataFlag = true ∨ ∃ d, e.received = some d ∧ d.ts = 0 ∧
      nextAck c'.list c'.printed = d.seq + 1) := by
  have hset : ∀ (d : Datagram) lostOut, d.seq ≠ 0 → (c.keep d).dataFlag = true →
      c.dataFlag = true ∨ ∃ d', ClientEvent.received (.datagram d false lostOut) = some d' ∧
        d'.ts = 0 ∧ nextAck (c.keep d).list (c.keep d).printed = d'.seq + 1 := by
    intro d lostOut h0 hflag
    have hrec : ClientEvent.received (.datagram d false lostOut) = some d := by
      simp [ClientEvent.received, h0]
    exact (ends_of_keep hflag).imp_right fun hend => ⟨d, hrec, hend⟩
  cases Client.handles h with
  | request _ _ hacks =>
    refine ⟨?_, .inl⟩
    intro a ha
    rcases hacks with rfl | rfl
    · cases ha
    · rw [List.mem_singleton.mp ha]
      exact .inl le_rfl
  | lost => exact ⟨by simp, .inl⟩
  | kept _ h0 => exact ⟨by simp, hset _ _ h0⟩
  | answered _ h0 hseq =>
    refine ⟨?_, hset _ _ h0⟩
    intro a ha
    rw [List.mem_singleton.mp ha, hseq]
    dsimp only
    split_ifs
    · exact .inl (Nat.zero_le _)
    · exact .inr rfl
  | drain => exact ⟨by simp, .inl⟩
  | testFlag => exact ⟨by simp, .inl⟩

end NetLab.Transfer
