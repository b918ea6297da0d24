import NetLab.Odr.PortTable
import NetLab.Odr.Traffic

/-! The network of processes that can end. `sendto` on the UNIX domain socket fails when nobody is
bound to the path, and any failing call ends the process; what the network still delivers to its
node is lost. As long as a process runs, it does what it does in the network of `Net.step`. -/
namespace NetLab.Odr
open NetLab.Lib

/-- The network with its ledger, and the nodes whose process has ended. -/
structure Live (n : ℕ) where
  traffic : Traffic n
  ended : Fin n → Bool

def Live.start {n : ℕ} (s : Net n) : Live n := ⟨.start s, fun _ => false⟩

def Live.restarted {n : ℕ} (y : Live n) : Live n := { y with traffic := .start y.traffic.net }

/-- A step of the network, a delivery whose datagram for a local socket cannot be sent, or the end of
a process for another reason. -/
inductive LiveEvent (n : ℕ) where
  | net (a : Action n)
  | refused (k : ℕ)
  | exits (x : Fin n)
  deriving DecidableEq, Repr

def Out.isLocal {n : ℕ} : Out n → Bool
  | .toLocal _ _ => true
  | _ => false

/-- Only a running process takes a datagram or a frame. -/
def Live.enabled {n : ℕ} (T : Topology n) (y : Live n) : LiveEvent n → Bool
  | .net (.app x _) => !y.ended x
  | .net (.deliver k) => y.traffic.net.inFlight[k]?.any fun p => !y.ended p.dst
  | .net _ => true
  | .refused k => y.traffic.net.inFlight[k]?.any fun p =>
      !y.ended p.dst && (y.traffic.net.receive T p).2.any Out.isLocal
  | .exits x => !y.ended x

/-- A handler that writes to a local socket does nothing else, so a refused delivery sends nothing. -/
def Live.step {n : ℕ} (T : Topology n) (y : Live n) (e : LiveEvent n) : Option (Live n) :=
  if y.enabled T e then
    match e with
    | .net a => (y.traffic.step T a).map fun w => { y with traffic := w }
    | .refused k => y.traffic.net.inFlight[k]?.map fun p =>
        ⟨{ y.traffic with net := y.traffic.net.drop k }, Function.update y.ended p.dst true⟩
    | .exits x => some { y with ended := Function.update y.ended x true }
  else none

def Live.Meets {n : ℕ} (ok : Net n → Action n → Prop) (y : Live n) : LiveEvent n → Prop
  | .net a => ok y.traffic.net a
  | _ => True

def Net.outs {n : ℕ} (T : Topology n) (s : Net n) : Action n → List (Out n)
  | .app x m => (onLocal (T.host x) (s.node x) m).2
  | .deliver k => s.inFlight[k]?.toList.flatMap fun p => (s.receive T p).2
  | _ => []

/-- The port table has room for a local datagram, and `payload.message` for its text if it is sent
as a payload. -/
def Net.fits {n : ℕ} (T : Topology n) (s : Net n) : Action n → Bool
  | .app x m => (s.node x).fitsTable m &&
      (s.submits T x m).all fun e => decide (e.payload.message.length < payloadTextSize)
  | _ => true

/-- No handler leaves its arrays. -/
def InBounds {n : ℕ} (T : Topology n) (s : Net n) (a : Action n) : Prop :=
  s.fits T a = true ∧ Out.badIndex ∉ s.outs T a

instance {n : ℕ} (T : Topology n) (s : Net n) (a : Action n) : Decidable (InBounds T s a) :=
  inferInstanceAs (Decidable (_ ∧ _))

instance {n : ℕ} (ok : Net n → Action n → Prop) [∀ s a, Decidable (ok s a)] (y : Live n)
    (e : LiveEvent n) : Decidable (Live.Meets ok y e) :=
  match e with
  | .net a => inferInstanceAs (Decidable (ok y.traffic.net a))
  | .refused _ => .isTrue trivial
  | .exits _ => .isTrue trivial

section
variable {n : ℕ} {T : Topology n} {ok : Net n → Action n → Prop} {y z : Live n} {e : LiveEvent n}

theorem Live.step_cases (h : y.step T e = some z) :
    (∃ a w, e = .net a ∧ y.traffic.step T a = some w ∧ z = { y with traffic := w }) ∨
    (∃ k p, e = .refused k ∧ y.traffic.step T (.lose k) = some z.traffic ∧
      z.ended = Function.update y.ended p true) ∨
    ∃ x, e = .exits x ∧ z = { y with ended := Function.update y.ended x true } := by
  obtain ⟨_, h⟩ := Option.ite_none_right_eq_some.mp h
  cases e with
  | net a =>
    obtain ⟨w, hw, rfl⟩ := Option.map_eq_some_iff.mp h
    exact .inl ⟨a, w, rfl, hw, rfl⟩
  | refused k =>
    obtain ⟨p, hp, rfl⟩ := Option.map_eq_some_iff.mp h
    refine .inr (.inl ⟨k, p.dst, rfl, ?_, rfl⟩)
    simp [Traffic.step, Net.step, hp]
  | exits x => exact .inr (.inr ⟨x, rfl, (Option.some.inj h).symm⟩)

theorem Live.ended_mono {x : Fin n} (h : y.step T e = some z) (hx : y.ended x = true) :
    z.ended x = true := by
  rcases Live.step_cases h with ⟨_, _, _, _, rfl⟩ | ⟨_, w, _, _, hend⟩ | ⟨w, _, rfl⟩
  · exact hx
  · rw [hend, Function.update_apply]
    split_ifs
    · rfl
    · exact hx
  · dsimp only
    rw [Function.update_apply]
    split_ifs
    · rfl
    · exact hx

variable {es : List (LiveEvent n)}

/-- Behind the ends of processes the network does what it does without them, with losses. -/
theorem Live.tracks (hr : Run (Live.step T) (Live.Meets ok) y es z) :
    ∃ as, Run (Traffic.step T) (fun _ _ => True) y.traffic as z.traffic := by
  have h : ∃ as t, Run (Traffic.step T) (fun _ _ => True) y.traffic as t ∧ z.traffic = t := by
    refine hr.refines (fun y t => y.traffic = t) ?_ rfl
    rintro y z _ e rfl _ hs
    rcases Live.step_cases hs with ⟨a, w, _, hw, rfl⟩ | ⟨k, _, _, hw, _⟩ | ⟨x, _, rfl⟩
    · exact ⟨[a], w, .cons trivial hw (.nil w), rfl⟩
    · exact ⟨[.lose k], z.traffic, .cons trivial hw (.nil _), rfl⟩
    · exact ⟨[], y.traffic, .nil _, rfl⟩
  obtain ⟨as, t, hrun, rfl⟩ := h
  exact ⟨as, hrun⟩

/-- If every process still runs at the end, only the network has taken steps. -/
theorem Live.run_of_alive (hr : Run (Live.step T) (Live.Meets ok) y es z)
    (halive : ∀ x, z.ended x = false) : (∀ x, y.ended x = false) ∧ ∃ as, es = as.map .net ∧
      Run (Traffic.step T) (fun w a => ok w.net a) y.traffic as z.traffic := by
  induction hr with
  | nil y => exact ⟨halive, [], rfl, .nil _⟩
  | @cons y u z e es hok hs hr ih =>
    obtain ⟨hu, as, rfl, hrun⟩ := ih halive
    have hy : ∀ x, y.ended x = false := by
      intro x
      by_contra hx
      have hend := Live.ended_mono (x := x) hs (by simpa using hx)
      rw [hu x] at hend
      cases hend
    refine ⟨hy, ?_⟩
    rcases Live.step_cases hs with ⟨a, w, rfl, hw, rfl⟩ | ⟨_, p, _, _, hend⟩ | ⟨x, _, rfl⟩
    · exact ⟨a :: as, rfl, .cons hok hw hrun⟩
    · have hp := hu p
      rw [hend, Function.update_self] at hp
      cases hp
    · have hx := hu x
      dsimp only at hx
      rw [Function.update_self] at hx
      cases hx

theorem Live.of_traffic {w v : Traffic n} {as : List (Action n)} {ended : Fin n → Bool}
    (hr : Run (Traffic.step T) (fun w a => ok w.net a) w as v) (halive : ∀ x, ended x = false) :
    Run (Live.step T) (Live.Meets ok) ⟨w, ended⟩ (as.map .net) ⟨v, ended⟩ := by
  induction hr with
  | nil w => exact .nil _
  | @cons w u v a as hok hs _ ih =>
    refine .cons hok ?_ ih
    have henabled : (Live.mk w ended).enabled T (.net a) = true := by
      cases a with
      | app x m => simp [Live.enabled, halive x]
      | deliver k =>
        obtain ⟨_, hnet, _⟩ := Option.map_eq_some_iff.mp hs
        obtain ⟨p, hp, _⟩ := Option.map_eq_some_iff.mp hnet
        simp [Live.enabled, hp, halive p.dst]
      | duplicate k => rfl
      | lose k => rfl
    simp [Live.step, henabled, hs]

variable (ok) in
theorem Traffic.run_net {w v : Traffic n} {as : List (Action n)}
    (hr : Run (Traffic.step T) (fun w a => ok w.net a) w as v) : Run (Net.step T) ok w.net as v.net := by
  induction hr with
  | nil w => exact .nil _
  | cons hok hs _ ih => exact .cons hok (Traffic.step_net hs) ih

end

/-- However frames are delayed, reordered, lost and duplicated, whether or not discoveries are forced,
and whichever processes end: a payload reaches an application no more often than local datagrams
and the network put it on the way, at the node it is addressed to, with the text and the destination
of a datagram of its source. -/
theorem payload_at_most_once {n : ℕ} (T : Topology n) (s₀ : Net n) (y : Live n)
    (es : List (LiveEvent n)) (h₀ : s₀.Initial)
    (hr : Run (Live.step T) (Live.Meets (InBounds T)) (.start s₀) es y) :
    (∀ l, (payloads y.traffic.net.inFlight).count l + (y.traffic.handed.map Prod.snd).count l ≤
      (y.traffic.submitted.map Submission.payload).count l + y.traffic.copied.count l) ∧
    ∀ e ∈ y.traffic.handed, e.2.dstAddr = some e.1 ∧ ∃ e' ∈ y.traffic.submitted, e'.payload = e.2 ∧
      e'.node = e.2.srcAddr ∧ e'.datagram.dstAddr = some e.1 ∧
      e'.datagram.message = e.2.message := by
  obtain ⟨as, htraffic⟩ := Live.tracks hr
  exact Traffic.at_most_once T s₀ y.traffic as h₀ htraffic

def lineRequest : List (Action 3) := lineRun ++ [.deliver 0, .deliver 0] ++ lineRun.take 1

def lineAnswer : List (Action 3) :=
  [.deliver 0, .deliver 0, .app (vm 2) ⟨"240411", some (vm 0), 6000, "noon", 0⟩, .deliver 0]

/-- The answer cannot be written, because the client is gone: the process of node 0 ends. -/
def lineRefused : List (LiveEvent 3) := (lineRequest ++ lineAnswer).map .net ++ [.refused 0]

def lineServed : Live 3 :=
  (exec (Live.step line) (.start (.started 3)) lineRefused).getD (.start (.started 3))

theorem payload_at_most_once_line : lineServed.ended 0 = true ∧ ∃ e ∈ lineServed.traffic.handed,
    e.2.dstAddr = some e.1 ∧ ∃ e' ∈ lineServed.traffic.submitted, e'.payload = e.2 ∧
      e'.datagram.message = "hi" := by
  have h := (payload_at_most_once line (.started 3) lineServed lineRefused (Net.started_initial 3)
    (.of_runnable (by decide +kernel) (Live.start (.started 3)))).2
  have hmem : (2, (⟨0, some 2, 1880555520, 2282946560, 0, 4096, "hi"⟩ : Payload 3)) ∈
      lineServed.traffic.handed := by decide +kernel
  obtain ⟨hd, e', he', hl, _, _, htext⟩ := h _ hmem
  exact ⟨by decide +kernel, _, hmem, hd, e', he', hl, htext⟩

/-- Once a network without forced discovery has delivered every frame and no process has ended, each
payload that was on its way has been handed over at its destination, as often as it was on its way. -/
theorem quiet_network_delivered {n : ℕ} (T : Topology n) (s₀ : Net n) (y z : Live n)
    (es fs : List (LiveEvent n)) (h₀ : s₀.Initial)
    (hr : Run (Live.step T) (Live.Meets fun s a => (Unforced s a ∧ Aligned T s a) ∧ InBounds T s a)
      (.start s₀) es y)
    (hd : Run (Live.step T) (Live.Meets fun s a => Delivery s a ∧ Aligned T s a) y.restarted fs z)
    (halive : ∀ x, z.ended x = false) (hquiet : z.traffic.net.inFlight = []) (x : Fin n)
    (l : Payload n) : z.traffic.handed.count (x, l) =
      if l.dstAddr = some x then (payloads y.traffic.net.inFlight).count l else 0 := by
  obtain ⟨hy, bs, _, hdeliver⟩ := Live.run_of_alive hd halive
  obtain ⟨_, as, _, hbefore⟩ := Live.run_of_alive hr hy
  have hbounded := Traffic.run_net (fun s a => (Unforced s a ∧ Aligned T s a) ∧ InBounds T s a) hbefore
  have hnet : Run (Net.step T) (fun s a => Unforced s a ∧ Aligned T s a) s₀ as y.traffic.net :=
    hbounded.mono fun _ _ h => h.1
  exact Traffic.delivered T s₀ y.traffic.net z.traffic as bs h₀ hnet hdeliver hquiet x l

def lineRequested : Live 3 :=
  (exec (Live.step line) (.start (.started 3)) (lineRequest.map .net)).getD (.start (.started 3))

def lineDelivered : Live 3 :=
  (exec (Live.step line) lineRequested.restarted [.net (.deliver 0), .net (.deliver 0)]).getD
    lineRequested.restarted

theorem quiet_network_delivered_line :
    lineDelivered.traffic.handed.count (2, ⟨0, some 2, 1880555520, 2282946560, 0, 4096, "hi"⟩) = 1 := by
  have hd : Run (Live.step line) (Live.Meets fun s a => Delivery s a ∧ Aligned line s a)
      lineRequested.restarted [.net (.deliver 0), .net (.deliver 0)] lineDelivered :=
    .of_runnable (by decide +kernel) lineRequested.restarted
  rw [quiet_network_delivered line (.started 3) lineRequested lineDelivered (lineRequest.map .net) _
    (Net.started_initial 3) (.of_runnable (by decide +kernel) (.start (.started 3))) hd
    (by decide +kernel) (by decide +kernel)]
  decide +kernel

end NetLab.Odr
