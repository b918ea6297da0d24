import NetLab.Echo.Session

/-! When a session can get stuck. `echo_cli` waits in `Write` without reading, and `str_echo` waits
in `Write` too; both wait for ever once the bytes on their way fill the connection in both
directions. -/
namespace NetLab.Echo

open Lib

/-- Nothing can happen any more. -/
def Stuck (s : Session) : Prop := ∀ e, s.step e = none

/-- Both processes wait in `Write`, and both directions are full. -/
structure Blocked (forth back : ℕ) (s : Session) : Prop where
  cli : s.cli.buf ≠ []
  serv : s.serv.buf ≠ []
  forth : s.forth.held.length = forth
  back : s.back.held.length = back

section
variable {input : List UInt8} {forth back : ℕ} {s t : Session}

theorem Stuck.disabled (h : Stuck s) (e : SessionEvent) : s.enabled e = false := by
  by_contra he
  have hstep : s.step e = some (s.act e) := if_pos (Bool.eq_true_of_not_eq_false he)
  rw [h e] at hstep
  cases hstep

theorem Stuck.forth_arrived (h : Stuck s) : s.forth.transit = [] := by
  by_contra hne
  have hdisabled := h.disabled (.forthArrive 1)
  simp [Session.enabled, hne] at hdisabled

theorem Stuck.back_arrived (h : Stuck s) : s.back.transit = [] := by
  by_contra hne
  have hdisabled := h.disabled (.backArrive 1)
  simp [Session.enabled, hne] at hdisabled

theorem Stuck.forth_full (h : Stuck s) (hbuf : s.cli.buf ≠ []) : s.forth.room = 0 := by
  by_contra hroom
  have hdisabled := h.disabled (.cliWrite 1)
  simp [Session.enabled, hbuf, Nat.pos_of_ne_zero hroom] at hdisabled

theorem Stuck.back_full (h : Stuck s) (hbuf : s.serv.buf ≠ []) : s.back.room = 0 := by
  by_contra hroom
  have hdisabled := h.disabled (.servWrite 1)
  simp [Session.enabled, hbuf, Nat.pos_of_ne_zero hroom] at hdisabled

theorem Stuck.serv_waits (h : Stuck s) (hrun : s.serv.running = true) (hbuf : s.serv.buf = []) :
    ¬ s.forth.Readable := by
  intro hread
  have hdisabled := h.disabled .servRead
  simp [Session.enabled, hrun, hbuf, hread] at hdisabled

theorem held_of_arrived {α : Type*} {c : Stream α} (ht : c.transit = []) : c.held = c.arrived := by
  rw [Stream.held, ht, List.append_nil]

theorem full_of_room {α : Type*} {c : Stream α} (h : c.room = 0) : c.held.length = c.cap := by
  have hle := c.held_length_le
  unfold Stream.room at h
  omega

theorem Sound.select_not_stuck (h : Sound input forth back s) (hstuck : Stuck s)
    (hrun : s.cli.running = true) (hback : 0 < back) : s.cli.buf ≠ [] := by
  intro hbuf
  have hunread : ¬ s.back.Readable := by
    intro hread
    have hdisabled := hstuck.disabled (.select none)
    simp [Session.enabled, hrun, hbuf, hread] at hdisabled
  have hflag : s.cli.echoFlag = true := by
    by_contra hflag
    have hdisabled := hstuck.disabled (.select (some 1))
    simp [Session.enabled, hrun, hbuf, hflag] at hdisabled
  have hempty : s.back.held = [] := by
    rw [held_of_arrived hstuck.back_arrived]
    by_contra hne
    exact hunread (.inl hne)
  have hserved : s.serv.running = true := by
    by_contra hstop
    have hclosed := h.closed.mpr (Bool.eq_false_of_not_eq_true hstop)
    exact hunread (.inr ⟨hclosed, hempty⟩)
  by_cases hserv : s.serv.buf = []
  · apply hstuck.serv_waits hserved hserv
    by_cases hforth : s.forth.arrived = []
    · right
      refine ⟨h.flag.trans hflag, ?_⟩
      rw [held_of_arrived hstuck.forth_arrived]
      exact hforth
    · exact .inl hforth
  · have hfull := full_of_room (hstuck.back_full hserv)
    rw [hempty, h.backCap, List.length_nil] at hfull
    omega

/-- A session that is stuck before its end is blocked in both directions. -/
theorem Sound.blocked (h : Sound input forth back s) (hstuck : Stuck s)
    (hrun : s.cli.running = true) (hforth : 0 < forth) (hback : 0 < back) :
    Blocked forth back s := by
  have hbuf := h.select_not_stuck hstuck hrun hback
  have hfull := full_of_room (hstuck.forth_full hbuf)
  rw [h.forthCap] at hfull
  have harrived : s.forth.arrived ≠ [] := by
    intro hnil
    rw [held_of_arrived hstuck.forth_arrived, hnil, List.length_nil] at hfull
    omega
  have hserved : s.serv.running = true := by
    by_contra hstop
    obtain ⟨⟨_, hheld⟩, _⟩ := h.served (Bool.eq_false_of_not_eq_true hstop)
    rw [hheld, List.length_nil] at hfull
    omega
  have hserv : s.serv.buf ≠ [] := fun hnil => hstuck.serv_waits hserved hnil (.inl harrived)
  constructor
  case cli => exact hbuf
  case serv => exact hserv
  case forth => exact hfull
  case back =>
    rw [full_of_room (hstuck.back_full hserv), h.backCap]

theorem Sound.length_of_blocked (h : Sound input forth back s) (hb : Blocked forth back s) :
    forth + back + 2 ≤ input.length := by
  have hcli := List.length_pos_of_ne_nil hb.cli
  have hserv := List.length_pos_of_ne_nil hb.serv
  have hforth := hb.forth
  have hback := hb.back
  have hlen := congrArg List.length h.bytes
  simp only [Session.bytes, List.length_append] at hlen
  omega

/-- The bytes of a session that nobody has read yet on the way back: `nb` in that direction, `ns`
at the server, `nf` on the way to it. -/
structure Filling (input : List UInt8) (forth back nb ns nf : ℕ) (s : Session) : Prop where
  running : s.cli.running = true
  flag : s.cli.echoFlag = false
  buf : s.cli.buf = []
  input : s.cli.input.length + (nb + ns + nf) = input.length
  served : s.serv.running = true
  serv : s.serv.buf.length = ns
  forthCap : s.forth.cap = forth
  forthTransit : s.forth.transit.length = nf
  forthArrived : s.forth.arrived = []
  backCap : s.back.cap = back
  backTransit : s.back.transit.length = nb
  backArrived : s.back.arrived = []
  opened : s.back.closed = false

variable {nb ns nf : ℕ}

theorem filling_start (input : List UInt8) (forth back : ℕ) :
    Filling input forth back 0 0 0 (.start input forth back) := by
  constructor <;> simp [Session.start, Stream.empty]

theorem Filling.not_readable (h : Filling input forth back nb ns nf s) : ¬ s.back.Readable := by
  rintro (hne | ⟨hclosed, _⟩)
  · exact hne h.backArrived
  · rw [h.opened] at hclosed
    cases hclosed

theorem Filling.reads (h : Filling input forth back nb ns nf s)
    (hmore : nb + ns + nf < input.length) :
    s.step (.select (some 1)) = some { s with cli := { s.cli with
      buf := s.cli.input.take 1, input := s.cli.input.drop 1 } } := by
  have hunread := h.not_readable
  have hinput : s.cli.input ≠ [] := by
    intro hnil
    have hlen := h.input
    rw [hnil, List.length_nil] at hlen
    omega
  have henabled : s.enabled (.select (some 1)) = true := by
    simp [Session.enabled, h.running, h.buf, h.flag]
  have hact : s.act (.select (some 1)) = { s with cli := { s.cli with
      buf := s.cli.input.take 1, input := s.cli.input.drop 1 } } := by
    have hone : min 1 maxLine = 1 := rfl
    show s.readSocket.onInput (some 1) = _
    have hsame : s.readSocket = s := if_neg hunread
    rw [hsame]
    simp only [Session.onInput, h.running, if_true, Session.readInput, if_neg hinput, hone]
  unfold Session.step
  rw [if_pos henabled, hact]

theorem Filling.types (h : Filling input forth back nb ns nf s)
    (hmore : nb + ns + nf < input.length) (hroom : nf < forth) :
    ∃ es t, Run Session.step (fun _ _ => True) s es t ∧
      Filling input forth back nb ns (nf + 1) t := by
  have hread := h.reads hmore
  have hlen : (s.cli.input.take 1).length = 1 := by
    have hinput := h.input
    rw [List.length_take]
    omega
  generalize hs₁ : ({ s with cli := { s.cli with
    buf := s.cli.input.take 1, input := s.cli.input.drop 1 } } : Session) = s₁ at hread
  have hbuf : s₁.cli.buf = s.cli.input.take 1 := by rw [← hs₁]
  have hforth : s₁.forth = s.forth := by rw [← hs₁]
  have hspace : s.forth.room = forth - nf := by
    unfold Stream.room Stream.held
    rw [h.forthArrived, h.forthCap, List.nil_append, h.forthTransit]
  have htakes : s₁.forth.takes 1 s₁.cli.buf = 1 := by
    unfold Stream.takes
    rw [hforth, hbuf, hspace, hlen]
    omega
  have hwrite : s₁.step (.cliWrite 1) = some (s₁.cliWrite 1) := by
    apply if_pos
    have hne : s₁.cli.buf ≠ [] := by
      rw [hbuf]
      apply List.ne_nil_of_length_pos
      omega
    have hpos : 0 < s₁.forth.room := by
      rw [hforth, hspace]
      omega
    simp [Session.enabled, hne, hpos]
  have hrest : s₁.cli.buf.drop 1 = [] := by
    rw [hbuf]
    apply List.drop_eq_nil_of_le
    omega
  refine ⟨_, _, .cons trivial hread (.cons trivial hwrite (.nil _)), ?_⟩
  unfold Session.cliWrite
  rw [htakes, hrest]
  constructor
  case running =>
    rw [← hs₁]
    exact h.running
  case flag =>
    rw [← hs₁]
    exact h.flag
  case buf => rfl
  case input =>
    have hinput := h.input
    rw [← hs₁]
    dsimp only
    rw [List.length_drop]
    omega
  case served =>
    rw [← hs₁]
    exact h.served
  case serv =>
    rw [← hs₁]
    exact h.serv
  case forthCap =>
    rw [← hs₁]
    exact h.forthCap
  case forthTransit =>
    show (s₁.forth.transit ++ s₁.cli.buf.take (s₁.forth.takes 1 s₁.cli.buf)).length = nf + 1
    rw [htakes, hforth, hbuf, List.length_append, h.forthTransit, List.length_take, hlen]
    rfl
  case forthArrived =>
    rw [← hs₁]
    exact h.forthArrived
  case backCap =>
    rw [← hs₁]
    exact h.backCap
  case backTransit =>
    rw [← hs₁]
    exact h.backTransit
  case backArrived =>
    rw [← hs₁]
    exact h.backArrived
  case opened =>
    rw [← hs₁]
    exact h.opened

theorem Filling.serves (h : Filling input forth back nb 0 1 s) :
    ∃ es t, Run Session.step (fun _ _ => True) s es t ∧ Filling input forth back nb 1 0 t := by
  have hne : s.forth.transit ≠ [] := by
    intro hnil
    have hlen := h.forthTransit
    rw [hnil] at hlen
    cases hlen
  have hserv : s.serv.buf = [] := List.length_eq_zero_iff.mp h.serv
  have harrive : s.step (.forthArrive 1) = some { s with forth := s.forth.arrive 1 } := by
    apply if_pos
    simp [Session.enabled, hne]
  have harrived : (s.forth.arrive 1).arrived = s.forth.transit := by
    show s.forth.arrived ++ s.forth.transit.take 1 = _
    rw [h.forthArrived, List.nil_append, ← h.forthTransit, List.take_length]
  have hnotEnd : ¬ (s.forth.arrive 1).AtEnd := by
    rintro ⟨_, hheld⟩
    rw [Stream.held, harrived] at hheld
    exact hne (List.append_eq_nil_iff.mp hheld).1
  have hread : ({ s with forth := s.forth.arrive 1 } : Session).step .servRead =
      some (Session.servRead { s with forth := s.forth.arrive 1 }) := by
    have hreadable : (s.forth.arrive 1).Readable := by
      left
      rw [harrived]
      exact hne
    apply if_pos
    simp [Session.enabled, h.served, hserv, hreadable]
  refine ⟨_, _, .cons trivial harrive (.cons trivial hread (.nil _)), ?_⟩
  unfold Session.servRead
  rw [if_neg hnotEnd]
  constructor
  case running => exact h.running
  case flag => exact h.flag
  case buf => exact h.buf
  case input => exact h.input
  case served => rfl
  case serv =>
    show ((s.forth.arrive 1).arrived.take maxLine).length = 1
    rw [harrived, List.length_take, h.forthTransit]
    rfl
  case forthCap => exact h.forthCap
  case forthTransit =>
    show (s.forth.transit.drop 1).length = 0
    rw [List.length_drop, h.forthTransit]
  case forthArrived =>
    show (s.forth.arrive 1).arrived.drop maxLine = []
    apply List.drop_eq_nil_of_le
    rw [harrived, h.forthTransit]
    exact Nat.le_of_lt (by decide)
  case backCap => exact h.backCap
  case backTransit => exact h.backTransit
  case backArrived => exact h.backArrived
  case opened => exact h.opened

theorem Filling.replies (h : Filling input forth back nb 1 0 s) (hroom : nb < back) :
    ∃ es t, Run Session.step (fun _ _ => True) s es t ∧
      Filling input forth back (nb + 1) 0 0 t := by
  have hne : s.serv.buf ≠ [] := by
    intro hnil
    have hlen := h.serv
    rw [hnil] at hlen
    cases hlen
  have hspace : s.back.room = back - nb := by
    unfold Stream.room Stream.held
    rw [h.backArrived, h.backCap, List.nil_append, h.backTransit]
  have htakes : s.back.takes 1 s.serv.buf = 1 := by
    unfold Stream.takes
    rw [hspace, h.serv]
    omega
  have hwrite : s.step (.servWrite 1) = some (s.servWrite 1) := by
    apply if_pos
    have hpos : 0 < s.back.room := by
      rw [hspace]
      omega
    simp [Session.enabled, hne, hpos]
  refine ⟨_, _, .cons trivial hwrite (.nil _), ?_⟩
  constructor
  case running => exact h.running
  case flag => exact h.flag
  case buf => exact h.buf
  case input => exact h.input
  case served => exact h.served
  case serv =>
    show (s.serv.buf.drop (s.back.takes 1 s.serv.buf)).length = 0
    rw [htakes, List.length_drop, h.serv]
  case forthCap => exact h.forthCap
  case forthTransit => exact h.forthTransit
  case forthArrived => exact h.forthArrived
  case backCap => exact h.backCap
  case backTransit =>
    show (s.back.transit ++ s.serv.buf.take (s.back.takes 1 s.serv.buf)).length = nb + 1
    rw [htakes, List.length_append, h.backTransit, List.length_take, h.serv]
    rfl
  case backArrived => exact h.backArrived
  case opened => exact h.opened

theorem fills_back (hforth : 0 < forth) (hlen : forth + back + 2 ≤ input.length) {n : ℕ}
    (hn : n ≤ back) : ∃ es s, Run Session.step (fun _ _ => True) (.start input forth back) es s ∧
      Filling input forth back n 0 0 s := by
  induction n with
  | zero => exact ⟨[], _, .nil _, filling_start input forth back⟩
  | succ n ih =>
    obtain ⟨es, s, hr, h⟩ := ih (by omega)
    obtain ⟨es₁, s₁, hr₁, h₁⟩ := h.types (by omega) hforth
    obtain ⟨es₂, s₂, hr₂, h₂⟩ := h₁.serves
    obtain ⟨es₃, s₃, hr₃, h₃⟩ := h₂.replies (by omega)
    exact ⟨_, s₃, hr.append (hr₁.append (hr₂.append hr₃)), h₃⟩

theorem fills_forth (hforth : 0 < forth) (hlen : forth + back + 2 ≤ input.length) {n : ℕ}
    (hn : n ≤ forth) : ∃ es s, Run Session.step (fun _ _ => True) (.start input forth back) es s ∧
      Filling input forth back back 1 n s := by
  induction n with
  | zero =>
    obtain ⟨es, s, hr, h⟩ := fills_back (n := back) hforth hlen le_rfl
    obtain ⟨es₁, s₁, hr₁, h₁⟩ := h.types (by omega) hforth
    obtain ⟨es₂, s₂, hr₂, h₂⟩ := h₁.serves
    exact ⟨_, s₂, hr.append (hr₁.append hr₂), h₂⟩
  | succ n ih =>
    obtain ⟨es, s, hr, h⟩ := ih (by omega)
    obtain ⟨es₁, s₁, hr₁, h₁⟩ := h.types (by omega) (by omega)
    exact ⟨_, s₁, hr.append hr₁, h₁⟩

theorem Filling.blocks (h : Filling input forth back back 1 forth s)
    (hlen : forth + back + 2 ≤ input.length) (hforth : 0 < forth) (hback : 0 < back) :
    ∃ es t, Run Session.step (fun _ _ => True) s es t ∧ Stuck t ∧ t.cli.running = true := by
  have hread := h.reads (by omega)
  generalize hs₁ : ({ s with cli := { s.cli with
    buf := s.cli.input.take 1, input := s.cli.input.drop 1 } } : Session) = s₁ at hread
  have hbuf : s₁.cli.buf ≠ [] := by
    have hinput := h.input
    rw [← hs₁]
    apply List.ne_nil_of_length_pos
    dsimp only
    rw [List.length_take]
    omega
  have hforth₁ : s₁.forth = s.forth := by rw [← hs₁]
  have hback₁ : s₁.back = s.back := by rw [← hs₁]
  have hserv₁ : s₁.serv = s.serv := by rw [← hs₁]
  have hforthNe : s₁.forth.transit ≠ [] := by
    apply List.ne_nil_of_length_pos
    rw [hforth₁, h.forthTransit]
    exact hforth
  have hbackNe : s₁.back.transit ≠ [] := by
    apply List.ne_nil_of_length_pos
    rw [hback₁, h.backTransit]
    exact hback
  have hs₂ : s₁.step (.forthArrive forth) =
      some { s₁ with forth := s₁.forth.arrive forth } := by
    apply if_pos
    simp [Session.enabled, hforthNe, hforth]
  have hs₃ : ({ s₁ with forth := s₁.forth.arrive forth } : Session).step (.backArrive back) =
      some { s₁ with forth := s₁.forth.arrive forth, back := s₁.back.arrive back } := by
    apply if_pos
    simp [Session.enabled, hbackNe, hback]
  refine ⟨_, _, .cons trivial hread (.cons trivial hs₂ (.cons trivial hs₃ (.nil _))), ?_, ?_⟩
  · have hserv : s₁.serv.buf ≠ [] := by
      apply List.ne_nil_of_length_pos
      rw [hserv₁, h.serv]
      exact Nat.one_pos
    have hforthRoom : (s₁.forth.arrive forth).room = 0 := by
      unfold Stream.room
      rw [Stream.arrive_held, hforth₁, Stream.held, h.forthArrived, List.nil_append, h.forthTransit]
      show s.forth.cap - forth = 0
      rw [h.forthCap]
      omega
    have hbackRoom : (s₁.back.arrive back).room = 0 := by
      unfold Stream.room
      rw [Stream.arrive_held, hback₁, Stream.held, h.backArrived, List.nil_append, h.backTransit]
      show s.back.cap - back = 0
      rw [h.backCap]
      omega
    have hforthEmpty : (s₁.forth.arrive forth).transit = [] := by
      apply List.drop_eq_nil_of_le
      rw [hforth₁, h.forthTransit]
    have hbackEmpty : (s₁.back.arrive back).transit = [] := by
      apply List.drop_eq_nil_of_le
      rw [hback₁, h.backTransit]
    intro e
    apply if_neg
    cases e with
    | select k => simp [Session.enabled, hbuf]
    | cliWrite k => simp [Session.enabled, hforthRoom]
    | forthArrive k => simp [Session.enabled, hforthEmpty]
    | servRead => simp [Session.enabled, hserv]
    | servWrite k => simp [Session.enabled, hbackRoom]
    | backArrive k => simp [Session.enabled, hbackEmpty]
  · show s₁.cli.running = true
    rw [← hs₁]
    exact h.running

end

/-- A session can get stuck before its end if and only if its input has at least two bytes more than
fit into the connection. Both processes wait in `Write` then, and the connection is full. -/
theorem echo_stuck_iff (input : List UInt8) (forth back : ℕ) (hforth : 0 < forth)
    (hback : 0 < back) :
    ((∃ es s, Run Session.step (fun _ _ => True) (.start input forth back) es s ∧ Stuck s ∧
      s.cli.running = true) ↔ forth + back + 2 ≤ input.length) ∧
    ∀ es s, Run Session.step (fun _ _ => True) (.start input forth back) es s → Stuck s →
      s.cli.running = true → Blocked forth back s := by
  have hsound : ∀ es s, Run Session.step (fun _ _ => True) (.start input forth back) es s →
      Sound input forth back s := fun es s hr =>
    hr.invariant (Sound input forth back) (fun _ _ _ h _ hs => sound_step h hs)
      (sound_start input forth back)
  constructor
  · constructor
    · rintro ⟨es, s, hr, hstuck, hrun⟩
      have h := hsound es s hr
      exact h.length_of_blocked (h.blocked hstuck hrun hforth hback)
    · intro hlen
      obtain ⟨es, s, hr, h⟩ := fills_forth hforth hlen le_rfl
      obtain ⟨es', t, hr', hstuck, hrun⟩ := h.blocks hlen hforth hback
      exact ⟨es ++ es', t, hr.append hr', hstuck, hrun⟩
  · intro es s hr hstuck hrun
    exact (hsound es s hr).blocked hstuck hrun hforth hback

/-- Four bytes get stuck in a connection that holds one in each direction. -/
theorem echo_stuck_four : ∃ es s,
    Run Session.step (fun _ _ => True) (.start [1, 2, 3, 4] 1 1) es s ∧ Stuck s ∧
      Blocked 1 1 s := by
  obtain ⟨hiff, hblocked⟩ := echo_stuck_iff [1, 2, 3, 4] 1 1 Nat.one_pos Nat.one_pos
  obtain ⟨es, s, hr, hstuck, hrun⟩ := hiff.mpr le_rfl
  exact ⟨es, s, hr, hstuck, hblocked es s hr hstuck hrun⟩

end NetLab.Echo
