import NetLab.Transfer.System

/-! The numbers that the client acknowledges are a function of what it received. Drain passes
move datagrams from the list to `printed`, and `NextAck` sees no difference. -/
namespace NetLab.Transfer
open NetLab.Lib

/-- `NextAck(header, printed)` as the receive loop computes it, after the insertion. -/
def Client.ackNumber (c : Client) (e : ClientEvent) : Option ℕ :=
  e.received.map fun d => nextAck (c.insert d).list (c.insert d).printed

/-- The client, the data datagrams it received and the ACK number computed for each. -/
structure AckLog where
  client : Client
  received : List Datagram
  computed : List ℕ

def AckLog.start : AckLog := ⟨.start, [], []⟩

def AckLog.step (o : ByteOrder) (W : ℕ) (y : AckLog) (e : ClientEvent) : Option AckLog :=
  (y.client.next o W e).map fun c =>
    ⟨c, y.received ++ e.received.toList, y.computed ++ (y.client.ackNumber e).toList⟩

/-- One more than the largest `k` such that all of `1..k` have been received. -/
def CumulativeAck (received : List Datagram) (a : ℕ) : Prop :=
  ∃ k, a = 1 + k ∧ IsGreatest {k | ∀ j, 0 < j → j ≤ k → ∃ d ∈ received, d.seq = j} k

theorem CumulativeAck.unique {received : List Datagram} {a b : ℕ} (ha : CumulativeAck received a)
    (hb : CumulativeAck received b) : a = b := by
  obtain ⟨k, rfl, hk⟩ := ha
  obtain ⟨l, rfl, hl⟩ := hb
  rw [hk.unique hl]

/-- `NextAck` is exact for every list that holds what was received and not printed. -/
theorem Buffered.cumulativeAck {received : List Datagram} {l : List LinkNode} {printed : ℕ}
    (h : Buffered received l printed) : CumulativeAck received (nextAck l printed) := by
  obtain ⟨hpos, hall, hnot⟩ := h.nextAck_spec
  refine ⟨nextAck l printed - 1, by omega, ?_, ?_⟩
  · intro j h1 h2
    exact hall j h1 (by omega)
  · intro k hk
    by_contra hlt
    obtain ⟨d, hd, hseq⟩ := hk (nextAck l printed) hpos (by omega)
    exact hnot d hd hseq

theorem CumulativeAck.le {received : List Datagram} {a n : ℕ} (ha : CumulativeAck received a)
    (hn : ∀ d ∈ received, d.seq ≤ n) : a ≤ n + 1 := by
  obtain ⟨k, rfl, hk, _⟩ := ha
  rcases Nat.eq_zero_or_pos k with rfl | hpos
  · omega
  · obtain ⟨d, hd, rfl⟩ := hk k hpos le_rfl
    have := hn d hd
    omega

/-- The list is in step with what was received, and every ACK number was exact. -/
structure Acked (y : AckLog) : Prop where
  buffered : Buffered y.received y.client.list y.client.printed
  length : y.computed.length = y.received.length
  exact : ∀ i a, y.computed[i]? = some a → CumulativeAck (y.received.take (i + 1)) a

theorem acked_start : Acked .start := ⟨buffered_nil, rfl, by simp [AckLog.start]⟩

theorem acked_step {o : ByteOrder} {W : ℕ} {y z : AckLog} {e : ClientEvent} (h : Acked y)
    (hs : y.step o W e = some z) : Acked z := by
  obtain ⟨c, hnext, rfl⟩ := Option.map_eq_some_iff.mp hs
  have hb := buffered_next hnext h.buffered
  cases he : e.received with
  | none =>
    rw [he] at hb
    simp only [Client.ackNumber, he, Option.map_none, Option.toList_none, List.append_nil] at hb ⊢
    exact ⟨hb, h.length, h.exact⟩
  | some d =>
    have hins : Buffered (y.received ++ [d]) (y.client.insert d).list (y.client.insert d).printed := by
      unfold Client.insert
      split_ifs with hgt
      · exact h.buffered.insert hgt
      · exact h.buffered.skip (by omega)
    rw [he] at hb
    simp only [Client.ackNumber, he, Option.map_some, Option.toList_some] at hb ⊢
    refine ⟨hb, by simp [h.length], ?_⟩
    intro i a hi
    dsimp only at hi ⊢
    by_cases hlt : i < y.computed.length
    · rw [List.getElem?_append_left hlt] at hi
      rw [List.take_append_of_le_length (by rw [← h.length]; exact hlt)]
      exact h.exact i a hi
    · -- the number computed in this step, for everything received so far
      rw [List.getElem?_append_right (not_lt.mp hlt)] at hi
      have hi0 : i - y.computed.length = 0 := by
        have hlen := (List.getElem?_eq_some_iff.mp hi).1
        simpa using hlen
      rw [hi0] at hi
      have ha : nextAck (y.client.insert d).list (y.client.insert d).printed = a := by
        simpa using hi
      rw [List.take_of_length_le (by have := h.length; simp; omega), ← ha]
      exact hins.cumulativeAck

theorem received_run {o : ByteOrder} {W : ℕ} {y z : AckLog} {es : List ClientEvent}
    (hr : Run (AckLog.step o W) (fun _ _ => True) y es z) :
    z.received = y.received ++ receivedIn es := by
  induction hr with
  | nil y => simp [receivedIn]
  | cons _ hs _ ih =>
    obtain ⟨c, _, rfl⟩ := Option.map_eq_some_iff.mp hs
    rw [ih]
    simp [receivedIn]

/-- Equal datagrams give equal ACK numbers. -/
theorem Acked.computed_eq {y z : AckLog} (hy : Acked y) (hz : Acked z)
    (h : z.received = y.received) : z.computed = y.computed := by
  apply List.ext_getElem?
  intro i
  by_cases hi : i < y.received.length
  · have hyi : i < y.computed.length := by rwa [hy.length]
    have hzi : i < z.computed.length := by rwa [hz.length, h]
    have hya := hy.exact i _ (List.getElem?_eq_getElem hyi)
    have hza := hz.exact i _ (List.getElem?_eq_getElem hzi)
    rw [h] at hza
    rw [List.getElem?_eq_getElem hyi, List.getElem?_eq_getElem hzi, hza.unique hya]
  · have hyi : y.computed.length ≤ i := by rw [hy.length]; omega
    have hzi : z.computed.length ≤ i := by rw [hz.length, h]; omega
    rw [List.getElem?_eq_none hyi, List.getElem?_eq_none hzi]

def drainedLate : List ClientEvent :=
  [.datagram ⟨2, 9, [66, 0]⟩ false false, .drain, .testFlag, .datagram ⟨1, 9, [65, 0]⟩ false true,
    .datagram ⟨4, 9, [68, 0]⟩ false false, .datagram ⟨1, 9, [65, 0]⟩ false false, .drain]

def shuffledLog : AckLog := (exec (AckLog.step .little 8) .start shuffled).getD .start

def drainedLateLog : AckLog := (exec (AckLog.step .little 8) .start drainedLate).getD .start

end NetLab.Transfer
