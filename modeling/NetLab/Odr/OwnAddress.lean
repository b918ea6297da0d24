import NetLab.Odr.HopCount

/-! The row that a node has for itself. No handler looks whether the source of a RREQ, or of a RREP,
is the node itself, so the row holds no route only as long as no such frame comes back. -/
namespace NetLab.Odr
open NetLab.Lib

/-- No node has a route to itself. -/
def OwnRowsEmpty {n : ℕ} (s : Net n) : Prop := ∀ x, (s.row x x).outgoingIf = 0

/-- The delivery of its own RREQ makes a node send nothing. -/
def IgnoresOwn {n : ℕ} (T : Topology n) (s : Net n) : Action n → Prop
  | .deliver k => ∀ p ∈ s.inFlight[k]?, ∀ q, p.frame.body = .rreq q → q.srcAddr = p.dst →
      (s.receive T p).2 = []
  | _ => True

/-- No RREQ of the receiver and no RREP about it is delivered. -/
def NotItsOwn {n : ℕ} (s : Net n) : Action n → Prop
  | .deliver k => ∀ p ∈ s.inFlight[k]?, ∀ a ∈ p.frame.body.advert, a.addr ≠ p.dst
  | _ => True

instance {n : ℕ} (s : Net n) (a : Action n) : Decidable (NotItsOwn s a) :=
  match a with
  | .deliver k => inferInstanceAs
      (Decidable (∀ p ∈ s.inFlight[k]?, ∀ a ∈ p.frame.body.advert, a.addr ≠ p.dst))
  | .app _ _ => .isTrue trivial
  | .duplicate _ => .isTrue trivial
  | .lose _ => .isTrue trivial

section
variable {n : ℕ} {T : Topology n} {s t : Net n}

theorem ownRowsEmpty_app (x : Fin n) (m : LocalMsg n) :
    OwnRowsEmpty (s.act T x (onLocal (T.host x) (s.node x) m)) ↔ OwnRowsEmpty s := by
  unfold OwnRowsEmpty
  refine forall_congr' fun y => ?_
  rw [Net.act_row]
  split_ifs with hy
  · rw [onLocal_routingTable, hy]
    rfl
  · rfl

theorem ownRowsEmpty_deliver (h : OwnRowsEmpty s) (k : ℕ) (p : Packet n) :
    OwnRowsEmpty ((s.drop k).act T p.dst (s.receive T p)) ↔
      ∀ a ∈ p.frame.body.advert, a.addr ≠ p.dst := by
  have hroute := (route_eq_iff.mp
    (onFrame_route (T.host p.dst) (s.node p.dst) p.dstIf p.frame p.dst)).2.1
  constructor
  · intro ht a ha haddr
    have hrow := ht p.dst
    rw [Net.act_row, if_pos rfl, Net.receive, hroute, learned, ha] at hrow
    simp only [haddr, if_true] at hrow
    exact learn_outgoingIf_ne _ _ _ _ _ hrow
  · intro hno y
    rw [Net.act_row]
    split_ifs with hy
    · rw [hy, Net.receive, hroute, learned]
      cases ha : p.frame.body.advert with
      | none => exact h p.dst
      | some a =>
        dsimp only
        rw [if_neg (Ne.symm (hno a ha))]
        exact h p.dst
    · exact h y

end

/-- Along a run from cleared tables the nodes ignore their own RREQs, and none has a route to itself,
if and only if no RREQ and no RREP comes back to the node that it advertises. -/
theorem own_rreqs_ignored_iff {n : ℕ} (T : Topology n) (s₀ s : Net n) (as : List (Action n))
    (h₀ : s₀.Initial) (hr : Run (Net.step T) (fun _ _ => True) s₀ as s) :
    AtSteps (Net.step T) (IgnoresOwn T) s₀ as ∧ Along (Net.step T) OwnRowsEmpty s₀ as ↔
      Run (Net.step T) (fun s a => True ∧ NotItsOwn s a) s₀ as s := by
  refine hr.along_atSteps_iff (fun _ => True) OwnRowsEmpty (fun _ _ _ _ _ _ _ => trivial) ?_ trivial
    (fun x => h₀.1 x x)
  intro s t a _ h _ hs
  cases a with
  | app x m =>
    cases hs
    exact ⟨fun _ => ⟨trivial, (ownRowsEmpty_app x m).mpr h⟩, fun _ => trivial⟩
  | deliver k =>
    obtain ⟨p, hp, rfl⟩ := Option.map_eq_some_iff.mp hs
    simp only [NotItsOwn, IgnoresOwn, hp, Option.mem_some_iff, forall_eq', ownRowsEmpty_deliver h]
    constructor
    · intro hno
      refine ⟨?_, hno⟩
      intro q hq hsrc
      exact absurd hsrc (hno _ (Message.advert_rreq hq))
    · exact fun hboth => hboth.2
  | duplicate k =>
    obtain ⟨p, _, rfl⟩ := Option.map_eq_some_iff.mp hs
    exact ⟨fun _ => ⟨trivial, h⟩, fun _ => trivial⟩
  | lose k =>
    obtain ⟨p, _, rfl⟩ := Option.map_eq_some_iff.mp hs
    exact ⟨fun _ => ⟨trivial, h⟩, fun _ => trivial⟩

theorem own_rreqs_ignored_line : OwnRowsEmpty lineState := by
  have hr : Run (Net.step line) (fun s a => True ∧ NotItsOwn s a) (.started 3) lineRun lineState :=
    .of_runnable (by decide) (.started 3)
  exact ((own_rreqs_ignored_iff line (.started 3) lineState lineRun (Net.started_initial 3)
    (line_run fun _ _ _ => trivial)).mpr hr).2.last hr

def ring : Topology 4 := .ofLans ![[0, 1], [0, 2], [1, 2], []]

/-- Node 0 asks for the node that is down, and its RREQ comes back around the ring. -/
def aroundRing : List (Action 4) :=
  [.app (vm 0) ⟨"240411c", some (vm 3), 5000, "hi", 0⟩, .deliver 0, .deliver 1, .deliver 1]

def aroundRingEnd : Net 4 := (exec (Net.step ring) (.started 4) aroundRing).getD (.started 4)

def ringReturn : Net 4 :=
  (exec (Net.step ring) (.started 4) (aroundRing.take 3)).getD (.started 4)

/-- Node 0 takes a route to itself from its own RREQ and floods it again. -/
theorem own_rreq_reflooded :
    Run (Net.step ring) (fun _ _ => True) (.started 4) aroundRing aroundRingEnd ∧
      (aroundRingEnd.row (vm 0) (vm 0)).outgoingIf = 4 ∧
      ¬ Along (Net.step ring) OwnRowsEmpty (.started 4) aroundRing ∧
      ¬ AtSteps (Net.step ring) (IgnoresOwn ring) (.started 4) aroundRing := by
  have hr : Run (Net.step ring) (fun _ _ => True) (.started 4) aroundRing aroundRingEnd :=
    .of_runnable (by decide) (.started 4)
  have hrow : (aroundRingEnd.row (vm 0) (vm 0)).outgoingIf = 4 := by decide
  refine ⟨hr, hrow, ?_, ?_⟩
  · intro h
    have hempty := h.last hr (vm 0)
    rw [hrow] at hempty
    cases hempty
  · intro h
    have hign := h (aroundRing.take 3) (.deliver 1) [] ringReturn rfl (by rfl)
    have hnil := hign _ (by rfl) _ rfl (by decide)
    revert hnil
    decide

end NetLab.Odr
