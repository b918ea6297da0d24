import NetLab.Lib.Run
import NetLab.Lib.Stream

/-! One session of the echo service: `echo_cli`, the thread of the server that runs `str_echo`, and
the connection between them. What a call of `Write` has not handed to the kernel stays in `buf`,
and the caller waits. -/
namespace NetLab.Echo

open Lib

def maxLine : ℕ := 4096

/-- What `echo_cli` tells the parent process on the pipe. -/
inductive Status where
  | echoedBack
  | forwarded
  | noMoreInput
  | terminated
  | terminatedPrematurely
  deriving DecidableEq, Repr

structure EchoCli where
  /-- What `read` on the standard input will still return, before it returns 0. -/
  input : List UInt8
  output : List UInt8
  echoFlag : Bool
  buf : List UInt8
  status : List Status
  running : Bool

structure EchoServ where
  buf : List UInt8
  running : Bool

structure Session where
  cli : EchoCli
  forth : Stream UInt8
  serv : EchoServ
  back : Stream UInt8

inductive SessionEvent where
  /-- `select` returns. Input is ready if the user has typed something, or has ended the input, and
  `read` returns at most `k` bytes of it. -/
  | select (input : Option ℕ)
  | cliWrite (k : ℕ)
  | forthArrive (k : ℕ)
  | servRead
  | servWrite (k : ℕ)
  | backArrive (k : ℕ)
  deriving DecidableEq, Repr

def Session.start (input : List UInt8) (forth back : ℕ) : Session :=
  ⟨⟨input, [], false, [], [], true⟩, .empty forth, ⟨[], true⟩, .empty back⟩

def Session.readSocket (s : Session) : Session :=
  if s.back.Readable then
    if s.back.AtEnd then
      { s with cli := { s.cli with
          status := s.cli.status ++
            [if s.cli.echoFlag = true then .terminated else .terminatedPrematurely]
          running := false } }
    else
      { s with
        cli := { s.cli with
          output := s.cli.output ++ s.back.arrived.take maxLine
          status := s.cli.status ++ [.echoedBack] }
        back := s.back.read maxLine }
  else s

/-- User input, of which `read` returns `k` bytes at most. -/
def Session.readInput (s : Session) (k : ℕ) : Session :=
  if s.cli.input = [] then
    { s with
      cli := { s.cli with echoFlag := true, status := s.cli.status ++ [.noMoreInput] }
      forth := s.forth.shut }
  else
    { s with cli := { s.cli with
        buf := s.cli.input.take (min k maxLine)
        input := s.cli.input.drop (min k maxLine) } }

/-- The rest of an iteration, which is left out when the end of the echo was found. -/
def Session.onInput (s : Session) : Option ℕ → Session
  | some k => if s.cli.running = true then s.readInput k else s
  | none => s

def Session.cliWrite (s : Session) (k : ℕ) : Session :=
  let rest := s.cli.buf.drop (s.forth.takes k s.cli.buf)
  { s with
    cli := { s.cli with
      buf := rest
      status := if rest = [] then s.cli.status ++ [.forwarded] else s.cli.status }
    forth := s.forth.write k s.cli.buf }

/-- `read` of the server, which returns 0 at the end of the stream. -/
def Session.servRead (s : Session) : Session :=
  if s.forth.AtEnd then { s with serv := ⟨[], false⟩, back := s.back.shut }
  else { s with serv := ⟨s.forth.arrived.take maxLine, true⟩, forth := s.forth.read maxLine }

def Session.servWrite (s : Session) (k : ℕ) : Session :=
  { s with
    serv := { s.serv with buf := s.serv.buf.drop (s.back.takes k s.serv.buf) }
    back := s.back.write k s.serv.buf }

/-- Whether the event can happen: a process does not wait in another call, and `select`, `read` or
`write` need not wait either. -/
def Session.enabled (s : Session) : SessionEvent → Bool
  | .select input => s.cli.running && s.cli.buf.isEmpty && (decide s.back.Readable || input.isSome) &&
      input.all fun k => decide (0 < k) && !s.cli.echoFlag
  | .cliWrite k => !s.cli.buf.isEmpty && decide (0 < k) && decide (0 < s.forth.room)
  | .forthArrive k => !s.forth.transit.isEmpty && decide (0 < k)
  | .servRead => s.serv.running && s.serv.buf.isEmpty && decide s.forth.Readable
  | .servWrite k => !s.serv.buf.isEmpty && decide (0 < k) && decide (0 < s.back.room)
  | .backArrive k => !s.back.transit.isEmpty && decide (0 < k)

def Session.act (s : Session) : SessionEvent → Session
  | .select input => s.readSocket.onInput input
  | .cliWrite k => s.cliWrite k
  | .forthArrive k => { s with forth := s.forth.arrive k }
  | .servRead => s.servRead
  | .servWrite k => s.servWrite k
  | .backArrive k => { s with back := s.back.arrive k }

def Session.step (s : Session) (e : SessionEvent) : Option Session :=
  if s.enabled e = true then some (s.act e) else none

def Session.bytes (s : Session) : List UInt8 :=
  s.cli.output ++ (s.back.held ++ (s.serv.buf ++ (s.forth.held ++ (s.cli.buf ++ s.cli.input))))

/-- How far the bytes and the two processes still have to go. -/
def Session.rank (s : Session) : ℕ :=
  7 * s.cli.input.length + 6 * s.cli.buf.length + 5 * s.forth.transit.length +
    4 * s.forth.arrived.length + 3 * s.serv.buf.length + 2 * s.back.transit.length +
    s.back.arrived.length + (!s.cli.echoFlag).toNat + s.serv.running.toNat + s.cli.running.toNat

/-- What holds in every state of a session. -/
structure Sound (input : List UInt8) (forth back : ℕ) (s : Session) : Prop where
  bytes : s.bytes = input
  forthCap : s.forth.cap = forth
  backCap : s.back.cap = back
  flag : s.forth.closed = s.cli.echoFlag
  ended : s.cli.echoFlag = true → s.cli.buf = [] ∧ s.cli.input = []
  served : s.serv.running = false → s.forth.AtEnd ∧ s.serv.buf = []
  closed : s.back.closed = true ↔ s.serv.running = false
  left : s.cli.running = false → s.back.AtEnd ∧ s.cli.status.getLast? = some .terminated
  inTime : .terminatedPrematurely ∉ s.cli.status

section
variable {input : List UInt8} {forth back : ℕ} {s t : Session} {e : SessionEvent}

theorem sound_start (input : List UInt8) (forth back : ℕ) :
    Sound input forth back (.start input forth back) := by
  constructor <;> simp [Session.start, Session.bytes, Stream.empty, Stream.held]

/-- The server closes the connection when it has read to the end, so the client has ended it. -/
theorem Sound.flag_of_closed (h : Sound input forth back s) (hclosed : s.back.closed = true) :
    s.cli.echoFlag = true := by
  obtain ⟨⟨hforth, _⟩, _⟩ := h.served (h.closed.mp hclosed)
  rw [← h.flag]
  exact hforth

theorem Sound.readSocket (h : Sound input forth back s) (hrun : s.cli.running = true) :
    Sound input forth back s.readSocket := by
  unfold Session.readSocket
  split_ifs with hread hend hflag
  · constructor
    case bytes => exact h.bytes
    case forthCap => exact h.forthCap
    case backCap => exact h.backCap
    case flag => exact h.flag
    case ended => exact h.ended
    case served => exact h.served
    case closed => exact h.closed
    case left => exact fun _ => ⟨hend, by simp⟩
    case inTime =>
      rw [List.mem_append, List.mem_singleton]
      rintro (hold | hnew)
      · exact h.inTime hold
      · cases hnew
  · exact absurd (h.flag_of_closed hend.1) hflag
  · constructor
    case bytes =>
      rw [← h.bytes]
      unfold Session.bytes
      dsimp only
      rw [List.append_assoc, ← List.append_assoc (s.back.arrived.take maxLine), Stream.read_held]
    case forthCap => exact h.forthCap
    case backCap => exact h.backCap
    case flag => exact h.flag
    case ended => exact h.ended
    case served => exact h.served
    case closed => exact h.closed
    case left => exact fun hleft => absurd (hrun.symm.trans hleft) (by simp)
    case inTime =>
      rw [List.mem_append, List.mem_singleton]
      rintro (hold | hnew)
      · exact h.inTime hold
      · cases hnew
  · exact h

theorem readSocket_buf (s : Session) : s.readSocket.cli.buf = s.cli.buf := by
  unfold Session.readSocket
  split_ifs <;> rfl

theorem readSocket_echoFlag (s : Session) : s.readSocket.cli.echoFlag = s.cli.echoFlag := by
  unfold Session.readSocket
  split_ifs <;> rfl

theorem Sound.readInput (h : Sound input forth back s) (hrun : s.cli.running = true)
    (hbuf : s.cli.buf = []) (hflag : s.cli.echoFlag = false) (k : ℕ) :
    Sound input forth back (s.readInput k) := by
  have hserved : s.serv.running = true := by
    by_contra hstop
    obtain ⟨⟨hclosed, _⟩, _⟩ := h.served (Bool.eq_false_of_not_eq_true hstop)
    rw [h.flag, hflag] at hclosed
    cases hclosed
  unfold Session.readInput
  split_ifs with hinput
  · constructor
    case bytes => exact h.bytes
    case forthCap => exact h.forthCap
    case backCap => exact h.backCap
    case flag => rfl
    case ended => exact fun _ => ⟨hbuf, hinput⟩
    case served => exact fun hstop => absurd (hserved.symm.trans hstop) (by simp)
    case closed => exact h.closed
    case left => exact fun hleft => absurd (hrun.symm.trans hleft) (by simp)
    case inTime =>
      rw [List.mem_append, List.mem_singleton]
      rintro (hold | hnew)
      · exact h.inTime hold
      · cases hnew
  · constructor
    case bytes =>
      rw [← h.bytes]
      unfold Session.bytes
      dsimp only
      rw [List.take_append_drop, hbuf, List.nil_append]
    case forthCap => exact h.forthCap
    case backCap => exact h.backCap
    case flag => exact h.flag
    case ended => exact fun htrue => absurd (hflag.symm.trans htrue) (by simp)
    case served => exact h.served
    case closed => exact h.closed
    case left => exact fun hleft => absurd (hrun.symm.trans hleft) (by simp)
    case inTime => exact h.inTime

theorem Sound.select (h : Sound input forth back s) {k : Option ℕ}
    (he : s.enabled (.select k) = true) : Sound input forth back (s.act (.select k)) := by
  simp only [Session.enabled, Bool.and_eq_true, List.isEmpty_iff] at he
  obtain ⟨⟨⟨hrun, hbuf⟩, _⟩, hk⟩ := he
  have hsocket := h.readSocket hrun
  show Sound input forth back (s.readSocket.onInput k)
  cases k with
  | none => exact hsocket
  | some k =>
    simp only [Option.all_some, Bool.and_eq_true, Bool.not_eq_true'] at hk
    unfold Session.onInput
    dsimp only
    split_ifs with hrun'
    · apply hsocket.readInput hrun'
      · rw [readSocket_buf, hbuf]
      · rw [readSocket_echoFlag, hk.2]
    · exact hsocket

theorem Sound.cliWrite (h : Sound input forth back s) (hbuf : s.cli.buf ≠ []) (k : ℕ) :
    Sound input forth back (s.cliWrite k) := by
  have hflag : s.cli.echoFlag = false := by
    by_contra hflag
    exact hbuf (h.ended (Bool.eq_true_of_not_eq_false hflag)).1
  have hopen : s.forth.closed = false := by rw [h.flag, hflag]
  have hserved : s.serv.running = true := by
    by_contra hstop
    obtain ⟨⟨hclosed, _⟩, _⟩ := h.served (Bool.eq_false_of_not_eq_true hstop)
    rw [hopen] at hclosed
    cases hclosed
  constructor
  case bytes =>
    rw [← h.bytes]
    unfold Session.bytes Session.cliWrite
    dsimp only
    rw [Stream.write_held, List.append_assoc s.forth.held, ← List.append_assoc (s.cli.buf.take _),
      List.take_append_drop]
  case forthCap => exact h.forthCap
  case backCap => exact h.backCap
  case flag => exact h.flag
  case ended => exact fun htrue => absurd (hflag.symm.trans htrue) (by simp)
  case served => exact fun hstop => absurd (hserved.symm.trans hstop) (by simp)
  case closed => exact h.closed
  case left =>
    intro hleft
    obtain ⟨⟨hclosed, _⟩, _⟩ := h.left hleft
    have htrue := h.flag_of_closed hclosed
    rw [hflag] at htrue
    cases htrue
  case inTime =>
    show Status.terminatedPrematurely ∉ if _ then _ else _
    split_ifs
    · rw [List.mem_append, List.mem_singleton]
      rintro (hold | hnew)
      · exact h.inTime hold
      · cases hnew
    · exact h.inTime

theorem Sound.servRead (h : Sound input forth back s) (hrun : s.serv.running = true)
    (hbuf : s.serv.buf = []) : Sound input forth back s.servRead := by
  have hopen : s.back.closed ≠ true := by
    intro hclosed
    have hstop := h.closed.mp hclosed
    rw [hrun] at hstop
    cases hstop
  unfold Session.servRead
  split_ifs with hend
  · constructor
    case bytes =>
      rw [← h.bytes]
      unfold Session.bytes
      dsimp only
      rw [hbuf, Stream.shut_held]
    case forthCap => exact h.forthCap
    case backCap => exact h.backCap
    case flag => exact h.flag
    case ended => exact h.ended
    case served => exact fun _ => ⟨hend, rfl⟩
    case closed => exact iff_of_true rfl rfl
    case left => exact fun hleft => absurd (h.left hleft).1.1 hopen
    case inTime => exact h.inTime
  · constructor
    case bytes =>
      rw [← h.bytes]
      unfold Session.bytes
      dsimp only
      rw [hbuf, List.nil_append, ← List.append_assoc (s.forth.arrived.take maxLine),
        Stream.read_held]
    case forthCap => exact h.forthCap
    case backCap => exact h.backCap
    case flag => exact h.flag
    case ended => exact h.ended
    case served => exact fun hstop => absurd hstop (by simp)
    case closed => exact iff_of_false hopen (by simp)
    case left => exact h.left
    case inTime => exact h.inTime

theorem Sound.servWrite (h : Sound input forth back s) (hbuf : s.serv.buf ≠ []) (k : ℕ) :
    Sound input forth back (s.servWrite k) := by
  constructor
  case bytes =>
    rw [← h.bytes]
    unfold Session.bytes Session.servWrite
    dsimp only
    rw [Stream.write_held, List.append_assoc s.back.held, ← List.append_assoc (s.serv.buf.take _),
      List.take_append_drop]
  case forthCap => exact h.forthCap
  case backCap => exact h.backCap
  case flag => exact h.flag
  case ended => exact h.ended
  case served => exact fun hstop => absurd (h.served hstop).2 hbuf
  case closed => exact h.closed
  case left =>
    intro hleft
    have hstop := h.closed.mp (h.left hleft).1.1
    exact absurd (h.served hstop).2 hbuf
  case inTime => exact h.inTime

theorem Sound.forthArrive (h : Sound input forth back s) (k : ℕ) :
    Sound input forth back { s with forth := s.forth.arrive k } := by
  constructor
  case bytes =>
    rw [← h.bytes]
    unfold Session.bytes
    rw [Stream.arrive_held]
  case forthCap => exact h.forthCap
  case backCap => exact h.backCap
  case flag => exact h.flag
  case ended => exact h.ended
  case served =>
    intro hstop
    obtain ⟨⟨hclosed, hheld⟩, hbuf⟩ := h.served hstop
    exact ⟨⟨hclosed, (Stream.arrive_held _ _).trans hheld⟩, hbuf⟩
  case closed => exact h.closed
  case left => exact h.left
  case inTime => exact h.inTime

theorem Sound.backArrive (h : Sound input forth back s) (k : ℕ) :
    Sound input forth back { s with back := s.back.arrive k } := by
  constructor
  case bytes =>
    rw [← h.bytes]
    unfold Session.bytes
    rw [Stream.arrive_held]
  case forthCap => exact h.forthCap
  case backCap => exact h.backCap
  case flag => exact h.flag
  case ended => exact h.ended
  case served => exact h.served
  case closed => exact h.closed
  case left =>
    intro hleft
    obtain ⟨⟨hclosed, hheld⟩, hlast⟩ := h.left hleft
    exact ⟨⟨hclosed, (Stream.arrive_held _ _).trans hheld⟩, hlast⟩
  case inTime => exact h.inTime

/-- Every event keeps the bytes in order, and the ends of the two streams. -/
theorem sound_step (h : Sound input forth back s) (hs : s.step e = some t) :
    Sound input forth back t := by
  obtain ⟨he, hs⟩ := Option.ite_none_right_eq_some.mp hs
  cases hs
  cases e with
  | select k => exact h.select he
  | cliWrite k =>
    simp only [Session.enabled, Bool.and_eq_true, Bool.not_eq_true', List.isEmpty_eq_false_iff] at he
    exact h.cliWrite he.1.1 k
  | forthArrive k => exact h.forthArrive k
  | servRead =>
    simp only [Session.enabled, Bool.and_eq_true, List.isEmpty_iff] at he
    exact h.servRead he.1.1 he.1.2
  | servWrite k =>
    simp only [Session.enabled, Bool.and_eq_true, Bool.not_eq_true', List.isEmpty_eq_false_iff] at he
    exact h.servWrite he.1.1 k
  | backArrive k => exact h.backArrive k

theorem readSocket_rank (s : Session) : s.readSocket.rank ≤ s.rank ∧
    (s.cli.running = true → s.back.Readable → s.readSocket.rank < s.rank) := by
  unfold Session.readSocket
  by_cases hread : s.back.Readable
  · rw [if_pos hread]
    by_cases hend : s.back.AtEnd
    · rw [if_pos hend]
      refine ⟨?_, ?_⟩
      · cases hrun : s.cli.running <;> simp [Session.rank, hrun]
      · intro hrun _
        simp [Session.rank, hrun]
    · rw [if_neg hend]
      have harrived : 0 < s.back.arrived.length :=
        List.length_pos_of_ne_nil (hread.resolve_right hend)
      have hlt : (s.back.read maxLine).arrived.length < s.back.arrived.length := by
        show (s.back.arrived.drop maxLine).length < _
        rw [List.length_drop]
        unfold maxLine
        omega
      have htransit : (s.back.read maxLine).transit = s.back.transit := rfl
      unfold Session.rank
      dsimp only
      rw [htransit]
      refine ⟨?_, fun _ _ => ?_⟩ <;> omega
  · rw [if_neg hread]
    exact ⟨le_rfl, fun _ hr => absurd hr hread⟩

theorem readInput_rank {k : ℕ} (hk : 0 < k) (hbuf : s.cli.buf = [])
    (hflag : s.cli.echoFlag = false) : (s.readInput k).rank < s.rank := by
  unfold Session.readInput
  split_ifs with hinput
  · have hshut : s.forth.shut.transit = s.forth.transit ∧
        s.forth.shut.arrived = s.forth.arrived := ⟨rfl, rfl⟩
    simp [Session.rank, hflag, hshut]
  · have hlen := List.length_pos_of_ne_nil hinput
    unfold Session.rank
    dsimp only
    rw [hbuf, List.length_take, List.length_drop, List.length_nil]
    unfold maxLine
    omega

/-- Every event brings the session nearer to its end. -/
theorem rank_step (hs : s.step e = some t) : t.rank < s.rank := by
  obtain ⟨he, hs⟩ := Option.ite_none_right_eq_some.mp hs
  cases hs
  cases e with
  | select k =>
    simp only [Session.enabled, Bool.and_eq_true, List.isEmpty_iff, Bool.or_eq_true,
      decide_eq_true_eq] at he
    obtain ⟨⟨⟨hrun, hbuf⟩, hready⟩, hk⟩ := he
    obtain ⟨hle, hlt⟩ := readSocket_rank s
    show (s.readSocket.onInput k).rank < s.rank
    cases k with
    | none =>
      have hread := hready.resolve_right (by simp)
      exact hlt hrun hread
    | some k =>
      simp only [Option.all_some, Bool.and_eq_true, decide_eq_true_eq, Bool.not_eq_true'] at hk
      unfold Session.onInput
      dsimp only
      split_ifs with hrun'
      · have hinput := readInput_rank (s := s.readSocket) hk.1
          ((readSocket_buf s).trans hbuf) ((readSocket_echoFlag s).trans hk.2)
        omega
      · -- the end of the echo was found
        apply hlt hrun
        by_contra hread
        have hsame : s.readSocket = s := if_neg hread
        rw [hsame] at hrun'
        exact hrun' hrun
  | cliWrite k =>
    simp only [Session.enabled, Bool.and_eq_true, Bool.not_eq_true', List.isEmpty_eq_false_iff,
      decide_eq_true_eq] at he
    have hpos := s.forth.takes_pos he.1.2 he.1.1 he.2
    have hle := s.forth.takes_le k s.cli.buf
    show (s.cliWrite k).rank < s.rank
    unfold Session.rank Session.cliWrite Stream.write
    dsimp only
    rw [List.length_drop, List.length_append, List.length_take]
    omega
  | forthArrive k =>
    simp only [Session.enabled, Bool.and_eq_true, Bool.not_eq_true', List.isEmpty_eq_false_iff,
      decide_eq_true_eq] at he
    have hlen := List.length_pos_of_ne_nil he.1
    unfold Session.rank Session.act Stream.arrive
    dsimp only
    rw [List.length_drop, List.length_append, List.length_take]
    omega
  | servRead =>
    simp only [Session.enabled, Bool.and_eq_true, List.isEmpty_iff, decide_eq_true_eq] at he
    obtain ⟨⟨hrun, hbuf⟩, hread⟩ := he
    show s.servRead.rank < s.rank
    unfold Session.servRead
    split_ifs with hend
    · have hshut : s.back.shut.transit = s.back.transit ∧
          s.back.shut.arrived = s.back.arrived := ⟨rfl, rfl⟩
      simp [Session.rank, hrun, hbuf, hshut]
    · have hlen := List.length_pos_of_ne_nil (hread.resolve_right hend)
      unfold Session.rank Stream.read
      dsimp only
      rw [hbuf, hrun, List.length_take, List.length_drop, List.length_nil]
      unfold maxLine
      omega
  | servWrite k =>
    simp only [Session.enabled, Bool.and_eq_true, Bool.not_eq_true', List.isEmpty_eq_false_iff,
      decide_eq_true_eq] at he
    have hpos := s.back.takes_pos he.1.2 he.1.1 he.2
    have hle := s.back.takes_le k s.serv.buf
    show (s.servWrite k).rank < s.rank
    unfold Session.rank Session.servWrite Stream.write
    dsimp only
    rw [List.length_drop, List.length_append, List.length_take]
    omega
  | backArrive k =>
    simp only [Session.enabled, Bool.and_eq_true, Bool.not_eq_true', List.isEmpty_eq_false_iff,
      decide_eq_true_eq] at he
    have hlen := List.length_pos_of_ne_nil he.1
    unfold Session.rank Session.act Stream.arrive
    dsimp only
    rw [List.length_drop, List.length_append, List.length_take]
    omega

theorem Sound.output_of_left (h : Sound input forth back s) (hleft : s.cli.running = false) :
    s.cli.output = input := by
  obtain ⟨⟨hclosed, hback⟩, _⟩ := h.left hleft
  obtain ⟨⟨_, hforth⟩, hserv⟩ := h.served (h.closed.mp hclosed)
  obtain ⟨hbuf, hinput⟩ := h.ended (h.flag_of_closed hclosed)
  rw [← h.bytes]
  simp [Session.bytes, hback, hserv, hforth, hbuf, hinput]

end

/-- However the bytes of a session are split and delayed: the client shows a beginning of what the
user typed, it leaves only when it has shown everything, never reports that the server ended too
early, and the session is over after a bounded number of events. -/
theorem echo_in_order (input : List UInt8) (forth back : ℕ) (es : List SessionEvent) (s : Session)
    (hr : Run Session.step (fun _ _ => True) (.start input forth back) es s) :
    s.cli.output <+: input ∧ .terminatedPrematurely ∉ s.cli.status ∧
      (s.cli.running = false →
        s.cli.output = input ∧ s.cli.status.getLast? = some .terminated) ∧
      es.length ≤ 7 * input.length + 3 := by
  have h : Sound input forth back s :=
    hr.invariant (Sound input forth back) (fun _ _ _ h _ hs => sound_step h hs)
      (sound_start input forth back)
  have hlen := hr.length_add_rank_le Session.rank fun _ _ _ => rank_step
  have hstart : (Session.start input forth back).rank = 7 * input.length + 3 := by
    simp [Session.rank, Session.start, Stream.empty]
  refine ⟨⟨_, h.bytes⟩, h.inTime, ?_, by omega⟩
  intro hleft
  exact ⟨h.output_of_left hleft, (h.left hleft).2⟩

def shortSessionEvents : List SessionEvent :=
  [.select (some 2), .cliWrite 2, .select (some 1), .forthArrive 2, .servRead, .servWrite 2,
    .servRead, .backArrive 2, .select none, .select none]

def shortSessionEnd : Session :=
  (exec Session.step (.start [104, 105] 8 8) shortSessionEvents).getD (.start [104, 105] 8 8)

theorem echo_in_order_short : shortSessionEnd.cli.running = false ∧
    shortSessionEnd.cli.output = [104, 105] := by
  have hr : Run Session.step (fun _ _ => True) (.start [104, 105] 8 8) shortSessionEvents
      shortSessionEnd := .of_runnable (by decide) (.start [104, 105] 8 8)
  have hleft : shortSessionEnd.cli.running = false := by decide
  exact ⟨hleft, ((echo_in_order [104, 105] 8 8 shortSessionEvents shortSessionEnd hr).2.2.1
    hleft).1⟩

end NetLab.Echo
