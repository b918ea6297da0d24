import NetLab.Lib.Run
import NetLab.Transfer.Client

/-! The receiver delivers in order and exactly once, however datagrams arrive and drain
passes are placed. -/
namespace NetLab.Transfer
open NetLab.Lib

/-- The list holds exactly the sequence numbers above `printed` that were received, and
everything up to `printed` was. -/
structure Buffered (received : List Datagram) (l : List LinkNode) (printed : ℕ) : Prop where
  ascending : Ascending l
  above : ∀ x ∈ l, printed < x.seq
  mem : ∀ k, printed < k → ((∃ x ∈ l, x.seq = k) ↔ ∃ d ∈ received, d.seq = k)
  below : ∀ k, 0 < k → k ≤ printed → ∃ d ∈ received, d.seq = k

/-- The text printed, and every line stored, where `lines k` is the text of datagram `k`. -/
structure Texted (lines : ℕ → List UInt8) (l : List LinkNode) (printed : ℕ)
    (output : List UInt8) : Prop where
  output : output = (List.range printed).flatMap fun i => lines (i + 1)
  stored : ∀ x ∈ l, x.recvline = lines x.seq

theorem buffered_nil : Buffered [] [] 0 where
  ascending := .nil
  above := by simp
  mem := by simp
  below := fun k h1 h2 => by omega

theorem Buffered.insert {received : List Datagram} {l : List LinkNode} {printed : ℕ}
    (h : Buffered received l printed) {d : Datagram} (hd : printed < d.seq) :
    Buffered (received ++ [d]) (insertLinkList d.seq d.payload l) printed := by
  refine ⟨insertLinkList_ascending h.ascending, ?_, ?_, ?_⟩
  · intro x hx
    rcases (mem_insertLinkList h.ascending x).mp hx with hx | ⟨rfl, _⟩
    · exact h.above x hx
    · exact hd
  · intro k hk
    have hold := h.mem k hk
    simp only [mem_insertLinkList h.ascending, List.mem_append, List.mem_singleton]
    constructor
    · rintro ⟨x, hx | ⟨rfl, _⟩, rfl⟩
      · obtain ⟨e, he, hek⟩ := hold.mp ⟨x, hx, rfl⟩
        exact ⟨e, .inl he, hek⟩
      · exact ⟨d, .inr rfl, rfl⟩
    · rintro ⟨e, he | rfl, hek⟩
      · obtain ⟨x, hx, hxk⟩ := hold.mpr ⟨e, he, hek⟩
        exact ⟨x, .inl hx, hxk⟩
      · by_cases hin : ∃ x ∈ l, x.seq = k
        · obtain ⟨x, hx, hxk⟩ := hin
          exact ⟨x, .inl hx, hxk⟩
        · push Not at hin
          exact ⟨_, .inr ⟨rfl, by rw [hek]; exact hin⟩, hek⟩
  · intro k h1 h2
    obtain ⟨e, he, hek⟩ := h.below k h1 h2
    exact ⟨e, by simp [he], hek⟩

/-- A late duplicate of a datagram that was printed already changes nothing. -/
theorem Buffered.skip {received : List Datagram} {l : List LinkNode} {printed : ℕ}
    (h : Buffered received l printed) {d : Datagram} (hd : d.seq ≤ printed) :
    Buffered (received ++ [d]) l printed := by
  refine ⟨h.ascending, h.above, ?_, ?_⟩
  · intro k hk
    rw [h.mem k hk]
    constructor
    · rintro ⟨e, he, hek⟩
      exact ⟨e, by simp [he], hek⟩
    · rintro ⟨e, he, hek⟩
      rcases List.mem_append.mp he with he | he
      · exact ⟨e, he, hek⟩
      · rw [List.mem_singleton.mp he] at hek
        omega
  · intro k h1 h2
    obtain ⟨e, he, hek⟩ := h.below k h1 h2
    exact ⟨e, by simp [he], hek⟩

/-- The first node goes to the output when it is the next one due. -/
theorem Buffered.tail {received : List Datagram} {x : LinkNode} {xs : List LinkNode}
    {printed : ℕ} (h : Buffered received (x :: xs) printed) (hx : x.seq = printed + 1) :
    Buffered received xs (printed + 1) := by
  obtain ⟨hlt, hxs⟩ := List.pairwise_cons.mp h.ascending
  refine ⟨hxs, ?_, ?_, ?_⟩
  · intro y hy
    have := hlt y hy
    omega
  · intro k hk
    rw [← h.mem k (by omega)]
    constructor
    · rintro ⟨y, hy, hyk⟩
      exact ⟨y, by simp [hy], hyk⟩
    · rintro ⟨y, hy, hyk⟩
      rcases List.mem_cons.mp hy with rfl | hy
      · omega
      · exact ⟨y, hy, hyk⟩
  · intro k h1 h2
    by_cases hk : k ≤ printed
    · exact h.below k h1 hk
    · exact (h.mem k (by omega)).mp ⟨x, by simp, by omega⟩

theorem drain_buffered {received : List Datagram} {l : List LinkNode} {printed : ℕ}
    (output : List UInt8) (h : Buffered received l printed) :
    Buffered received (drain l printed output).1 (drain l printed output).2.1 := by
  induction l generalizing printed output with
  | nil => exact h
  | cons x xs ih =>
    unfold drain
    split_ifs with hx
    · exact ih _ (h.tail hx)
    · exact h

theorem drain_texted {lines : ℕ → List UInt8} {l : List LinkNode} {printed : ℕ}
    {output : List UInt8} (h : Texted lines l printed output) :
    Texted lines (drain l printed output).1 (drain l printed output).2.1
      (drain l printed output).2.2 := by
  induction l generalizing printed output with
  | nil => exact h
  | cons x xs ih =>
    unfold drain
    split_ifs with hx
    · refine ih ⟨?_, fun y hy => h.stored y (by simp [hy])⟩
      rw [List.range_succ, List.flatMap_append, ← h.output, h.stored x (by simp), hx]
      simp
    · exact h

/-- What one event does to the list, the counter and the text. -/
theorem Client.next_cases {o : ByteOrder} {W : ℕ} {c c' : Client} {e : ClientEvent}
    (h : c.next o W e = some c') :
    (e.received = none ∧ c'.list = c.list ∧ c'.printed = c.printed ∧ c'.output = c.output) ∨
    (∃ d, e.received = some d ∧ c'.list = (c.insert d).list ∧ c'.printed = c.printed ∧
      c'.output = c.output) ∨
    (e.received = none ∧ (c'.list, c'.printed, c'.output) = drain c.list c.printed c.output) := by
  obtain ⟨⟨c₁, hs⟩, hstep, rfl⟩ := Option.map_eq_some_iff.mp h
  have hkept : ∀ (d : Datagram) lostOut, d.seq ≠ 0 →
      (ClientEvent.datagram d false lostOut).received = some d := by
    intro d lostOut h0
    simp [ClientEvent.received, h0]
  cases Client.handles hstep with
  | request _ h0 => exact .inl ⟨by simp [ClientEvent.received, h0], rfl, rfl, rfl⟩
  | lost => exact .inl ⟨by simp [ClientEvent.received], rfl, rfl, rfl⟩
  | kept _ h0 =>
    exact .inr (.inl ⟨_, hkept _ _ h0, rfl, c.insert_printed _, c.insert_output _⟩)
  | answered _ h0 =>
    exact .inr (.inl ⟨_, hkept _ _ h0, rfl, c.insert_printed _, c.insert_output _⟩)
  | drain => exact .inr (.inr ⟨rfl, rfl⟩)
  | testFlag => exact .inl ⟨rfl, rfl, rfl, rfl⟩

theorem buffered_next {o : ByteOrder} {W : ℕ} {c c' : Client} {e : ClientEvent}
    {received : List Datagram} (h : c.next o W e = some c')
    (hb : Buffered received c.list c.printed) :
    Buffered (received ++ e.received.toList) c'.list c'.printed := by
  rcases Client.next_cases h with ⟨he, hl, hp, _⟩ | ⟨d, he, hl, hp, _⟩ | ⟨he, hd⟩
  · rw [he, hl, hp]
    simpa using hb
  · rw [he, hl, hp]
    unfold Client.insert
    split_ifs with hgt
    · exact hb.insert hgt
    · exact hb.skip (by omega)
  · have hdrain := drain_buffered c.output hb
    rw [← hd] at hdrain
    rw [he]
    simpa using hdrain

theorem texted_next {o : ByteOrder} {W : ℕ} {c c' : Client} {e : ClientEvent}
    {received : List Datagram} {lines : ℕ → List UInt8} (h : c.next o W e = some c')
    (hb : Buffered received c.list c.printed) (ht : Texted lines c.list c.printed c.output)
    (he : ∀ d, e.received = some d → cString d.payload = lines d.seq) :
    Texted lines c'.list c'.printed c'.output := by
  rcases Client.next_cases h with ⟨_, hl, hp, ho⟩ | ⟨d, hd, hl, hp, ho⟩ | ⟨_, hd⟩
  · rwa [hl, hp, ho]
  · rw [hl, hp, ho]
    refine ⟨ht.output, ?_⟩
    intro x hx
    unfold Client.insert at hx
    split_ifs at hx
    · rcases (mem_insertLinkList hb.ascending x).mp hx with hx | ⟨rfl, _⟩
      · exact ht.stored x hx
      · exact he d hd
    · exact ht.stored x hx
  · have hdrain := drain_texted ht
    rwa [← hd] at hdrain

def receivedIn (es : List ClientEvent) : List Datagram := es.flatMap fun e => e.received.toList

theorem client_run {o : ByteOrder} {W : ℕ} {c c' : Client} {es : List ClientEvent}
    {received : List Datagram} {lines : ℕ → List UInt8}
    (hr : Run (Client.next o W) (fun _ _ => True) c es c')
    (hlines : ∀ d ∈ receivedIn es, cString d.payload = lines d.seq)
    (hb : Buffered received c.list c.printed) (ht : Texted lines c.list c.printed c.output) :
    Buffered (received ++ receivedIn es) c'.list c'.printed ∧
      Texted lines c'.list c'.printed c'.output := by
  induction hr generalizing received with
  | nil c => exact ⟨by simpa [receivedIn] using hb, ht⟩
  | @cons c₁ c₂ c₃ e es _ hs _ ih =>
    have hsplit : receivedIn (e :: es) = e.received.toList ++ receivedIn es := by
      simp [receivedIn]
    rw [hsplit] at hlines ⊢
    rw [← List.append_assoc]
    refine ih (fun d hd => hlines d (List.mem_append_right _ hd)) (buffered_next hs hb)
      (texted_next hs hb ht ?_)
    intro d hd
    exact hlines d (List.mem_append_left _ (by simp [hd]))

/-- The receiver delivers in order and exactly once. `lines k` is the text of every datagram
received with sequence number `k`. -/
theorem receiver_in_order (o : ByteOrder) (W : ℕ) (es : List ClientEvent) (c : Client)
    (lines : ℕ → List UInt8) (hr : Run (Client.next o W) (fun _ _ => True) .start es c)
    (hlines : ∀ d ∈ receivedIn es, cString d.payload = lines d.seq) :
    c.output = (List.range c.printed).flatMap (fun i => lines (i + 1)) ∧
    c.list.Pairwise (fun x y => x.seq < y.seq) ∧
    (∀ x ∈ c.list, c.printed < x.seq) ∧
    (∀ x, x ∈ c.list ↔ c.printed < x.seq ∧ x.recvline = lines x.seq ∧
      ∃ d ∈ receivedIn es, d.seq = x.seq) ∧
    ∀ k, 0 < k → k ≤ c.printed → ∃ d ∈ receivedIn es, d.seq = k := by
  obtain ⟨hb, ht⟩ := client_run hr hlines buffered_nil ⟨rfl, by simp [Client.start]⟩
  rw [List.nil_append] at hb
  refine ⟨ht.output, hb.ascending, hb.above, ?_, hb.below⟩
  intro x
  constructor
  · intro hx
    exact ⟨hb.above x hx, ht.stored x hx, (hb.mem x.seq (hb.above x hx)).mp ⟨x, hx, rfl⟩⟩
  · rintro ⟨hgt, hline, hd⟩
    obtain ⟨y, hy, hyx⟩ := (hb.mem x.seq hgt).mpr hd
    have hxy : x = y := by
      obtain ⟨xs, xl⟩ := x
      obtain ⟨ys, yl⟩ := y
      simp only at hyx
      subst hyx
      simp only [LinkNode.mk.injEq, true_and]
      exact hline.trans (ht.stored _ hy).symm
    rwa [hxy]

/-- Datagrams 2, 1 and 4 arrive, then a drain pass, then 1 again. -/
def shuffled : List ClientEvent :=
  [.datagram ⟨2, 9, [66, 0]⟩ false false, .datagram ⟨1, 9, [65, 0]⟩ false true,
    .datagram ⟨4, 9, [68, 0]⟩ false false, .drain, .datagram ⟨1, 9, [65, 0]⟩ false false]

def shuffledEnd : Client := (exec (Client.next .little 8) .start shuffled).getD .start

theorem receiver_in_order_shuffled :
    shuffledEnd.output = [65, 66] ∧ shuffledEnd.printed = 2 ∧
      (⟨4, [68]⟩ : LinkNode) ∈ shuffledEnd.list := by
  have h := receiver_in_order .little 8 shuffled shuffledEnd
    (fun k => if k = 1 then [65] else if k = 2 then [66] else [68])
    (.of_exec (fun _ _ _ => trivial) rfl) (by decide)
  exact ⟨h.1, rfl, (h.2.2.2.1 ⟨4, [68]⟩).mpr (by decide)⟩

end NetLab.Transfer
