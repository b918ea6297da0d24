import NetLab.Odr.Apps
import NetLab.Odr.LoopFree

/-! Routes for the replies of servers. A payload installs no route back to its source, so the
node of a server holds none unless it heard of the client by a RREQ or RREP. -/
namespace NetLab.Odr
open NetLab.Lib

/-- The step delivers a RREQ or RREP of node `c` at node `x`. -/
def World.hears {n : ℕ} (y : World n) (x c : Fin n) : WorldEvent n → Bool
  | .deliver k => y.inFlight[k]?.any fun po =>
      po.1.dst == x && po.1.frame.body.advert.any fun a => a.addr == c
  | _ => false

/-- In the run with these events, a RREQ or RREP of node `c` is delivered at node `x`. -/
def heard {n : ℕ} (T : Topology n) (x c : Fin n) (y : World n) : List (WorldEvent n) → Bool
  | [] => false
  | e :: es => y.hears x c e || ((y.step T e).map fun z => heard T x c z es).getD false

theorem local_row {n : ℕ} (T : Topology n) (s : Net n) (x : Fin n) (m : LocalMsg n)
    (x' c : Fin n) :
    (s.act T x (onLocal (T.host x) (s.node x) m)).row x' c = s.row x' c := by
  rw [Net.act_row, onLocal_routingTable]
  split_ifs with hx
  · rw [hx]
    rfl
  · rfl

/-- A delivery sets the row of the node that the frame advertises, and no other. -/
theorem receive_route_iff {n : ℕ} (T : Topology n) (s : Net n) (p : Packet n) (c : Fin n) :
    ((s.receive T p).1.routingTable c).outgoingIf ≠ 0 ↔
      (s.row p.dst c).outgoingIf ≠ 0 ∨ (p.frame.body.advert.any fun a => a.addr == c) = true := by
  cases ha : p.frame.body.advert with
  | none =>
    rcases receive_row T s p c with hr | ⟨a, ha', _⟩
    · simp [(route_eq_iff.mp hr).2.1]
    · rw [ha] at ha'
      cases ha'
  | some a =>
    by_cases hc : a.addr = c
    · have hset := (receive_vouches (T := T) (s := s) ha).1
      rw [hc] at hset
      simp [hset, hc]
    · rcases receive_row T s p c with hr | ⟨b, hb, hcb, _⟩
      · simp [(route_eq_iff.mp hr).2.1, hc]
      · rw [ha] at hb
        cases hb
        exact absurd hcb.symm hc

theorem row_step {n : ℕ} {T : Topology n} {y z : World n} {e : WorldEvent n}
    (hs : y.step T e = some z) (x c : Fin n) :
    (z.net.row x c).outgoingIf ≠ 0 ↔
      (y.net.row x c).outgoingIf ≠ 0 ∨ y.hears x c e = true := by
  cases e with
  | client x' m =>
    simp only [World.step, Option.ite_none_right_eq_some, Option.some.injEq] at hs
    have hrow : z.net.row x c = y.net.row x c := by
      rw [← hs.2, World.act_net]
      exact local_row T y.net x' m x c
    simp [hrow, World.hears]
  | server x' tail message =>
    cases hmail : y.mail x' with
    | nil => simp [World.step, hmail] at hs
    | cons ml rest =>
      simp only [World.step, hmail, Option.ite_none_right_eq_some] at hs
      obtain ⟨m, _, rfl⟩ := Option.map_eq_some_iff.mp hs.2
      rw [World.act_net]
      have hrow := local_row T y.net x' m x c
      simp only [World.hears, Bool.false_eq_true, or_false]
      exact Iff.of_eq (congrArg (fun r => r.outgoingIf ≠ 0) hrow)
  | deliver k =>
    obtain ⟨⟨p, o⟩, hp, rfl⟩ := Option.map_eq_some_iff.mp hs
    rw [World.act_net, Net.act_row, World.drop_net]
    simp only [World.hears, hp, Option.any_some, Bool.and_eq_true, beq_iff_eq]
    split_ifs with hx
    · subst hx
      simpa using receive_route_iff T y.net p c
    · have hne : p.dst ≠ x := Ne.symm hx
      simp only [hne, false_and, or_false]
      rfl
  | duplicate k =>
    obtain ⟨po, _, rfl⟩ := Option.map_eq_some_iff.mp hs
    simp only [World.hears, Bool.false_eq_true, or_false]
    rfl
  | lose k =>
    obtain ⟨po, _, rfl⟩ := Option.map_eq_some_iff.mp hs
    simp only [World.hears, Bool.false_eq_true, or_false]
    rfl

/-- A row holds a route if and only if it held one at the start, or its node heard of the
destination since. -/
theorem row_run {n : ℕ} {T : Topology n} {ok : World n → WorldEvent n → Prop} {y z : World n}
    {es : List (WorldEvent n)} (hr : Run (World.step T) ok y es z) (x c : Fin n) :
    (z.net.row x c).outgoingIf ≠ 0 ↔
      (y.net.row x c).outgoingIf ≠ 0 ∨ heard T x c y es = true := by
  induction hr with
  | nil y => simp [heard]
  | @cons y u z e es _ hs _ ih =>
    rw [ih, row_step hs]
    simp [heard, hs, or_assoc]

theorem wired_world {n : ℕ} {T : Topology n} {ok : World n → WorldEvent n → Prop}
    {y z : World n} {es : List (WorldEvent n)} (h : Wired T y.net)
    (hr : Run (World.step T) ok y es z) : Wired T z.net := by
  refine hr.invariant (fun y => Wired T y.net) ?_ h
  intro y z e hy _ hs
  obtain ⟨a, ha⟩ := World.step_net hs
  exact wired_step hy ha

/-- The server of node `x` has a route for its reply to a datagram of node `c`, and ODR does
not index outside its tables, if and only if a RREQ or RREP of `c` was delivered at `x`
before. -/
theorem reply_has_route_iff {n : ℕ} (T : Topology n) (y₀ y : World n)
    (es : List (WorldEvent n)) (h₀ : y₀.Initial)
    (hr : Run (World.step T) (fun _ _ => True) y₀ es y) (x c : Fin n) :
    ∀ ml ∈ y.mail x, ml.data.srcAddr = some c →
      (((y.net.row x c).outgoingIf ≠ 0 ∧ ∀ tail message m, ml.reply tail message = some m →
        Out.badIndex ∉ (onLocal (T.host x) (y.node x) m).2) ↔ heard T x c y₀ es = true) := by
  intro ml _ hc
  have hw := wired_world (wired_initial T h₀.net) hr
  have hnone : ¬ (y₀.net.row x c).outgoingIf ≠ 0 := by
    rw [not_not]
    exact h₀.net.1 x c
  have hrow : (y.net.row x c).outgoingIf ≠ 0 ↔ heard T x c y₀ es = true := by
    rw [row_run hr x c]
    simp [hnone]
  rw [← hrow]
  constructor
  · exact fun h => h.1
  · intro hroute
    refine ⟨hroute, ?_⟩
    intro tail message m hm hbad
    obtain ⟨port, _, rfl⟩ := Option.map_eq_some_iff.mp hm
    have hlt : (y.net.row x c).outgoingIf < 3 := (onLocal_out hbad).2 rfl c hc
    have hge := (hw.row_if x c hroute).1
    omega

def pair : Topology 2 := .ofLans ![[0], [0]]

/-- Node 0 asks for node 1, and asks again once it has a route. -/
def pairRun : List (WorldEvent 2) :=
  [.client (vm 0) ⟨"temp.a", some (vm 1), 5000, "HI", 0⟩, .deliver 0, .deliver 0,
    .client (vm 0) ⟨"temp.a", some (vm 1), 5000, "HI", 0⟩, .deliver 0]

def pairEnd : World 2 := (exec (World.step pair) (.started 2) pairRun).getD (.started 2)

def pairMail : Mail 2 := ⟨⟨"HI", some (vm 0), 1880555520⟩, ⟨vm 0, "temp.a", "temp.a", none⟩⟩

theorem reply_has_route_pair :
    pairMail ∈ pairEnd.mail (vm 1) ∧ (pairEnd.net.row (vm 1) (vm 0)).outgoingIf ≠ 0 := by
  have hmem : pairMail ∈ pairEnd.mail (vm 1) := by decide
  have hroute := (reply_has_route_iff pair (.started 2) pairEnd pairRun (World.started_initial 2)
    (.of_runnable (by decide) (.started 2)) (vm 1) (vm 0) pairMail hmem rfl).mpr (by decide)
  exact ⟨hmem, hroute.1⟩

def trio : Topology 3 := .ofLans ![[0], [0], [0]]

/-- Node 0 learns a route to node 2 from the RREQ of node 2 for node 1, and sends a request
along it. -/
def oneWay : List (WorldEvent 3) :=
  [.client (vm 2) ⟨"temp.a", some (vm 1), 5000, "HI", 0⟩, .deliver 0,
    .client (vm 0) ⟨"temp.b", some (vm 2), 5000, "HI", 0⟩, .deliver 1]

def oneWayEnd : World 3 := (exec (World.step trio) (.started 3) oneWay).getD (.started 3)

def oneWayMail : Mail 3 := ⟨⟨"HI", some (vm 0), 1880555520⟩, ⟨vm 0, "temp.b", "temp.b", none⟩⟩

def oneWayReply : LocalMsg 3 := ⟨"240411", some (vm 0), 1880555520, "Mon", 0⟩

/-- No RREQ of node 0 ever came to node 2: the reply of its server indexes the interfaces
with -3. -/
theorem reply_without_route :
    Run (World.step trio) (fun _ e => ∀ x m, e = .client x m → m.flag ≠ 1) (.started 3) oneWay
        oneWayEnd ∧
      oneWayMail ∈ oneWayEnd.mail (vm 2) ∧ oneWayMail.origin.answeredBy = none ∧
      oneWayMail.reply [] "Mon" = some oneWayReply ∧
      (oneWayEnd.net.row (vm 2) (vm 0)).outgoingIf = 0 ∧
      (onLocal (trio.host (vm 2)) (oneWayEnd.node (vm 2)) oneWayReply).2 = [.badIndex] := by
  refine ⟨.of_exec ?_ rfl, by decide, rfl, by decide, by decide, by decide⟩
  simp [oneWay]

end NetLab.Odr
