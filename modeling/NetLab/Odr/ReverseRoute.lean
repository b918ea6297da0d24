import NetLab.Odr.Flood

/-! The reverse routes that a flood leaves behind are shortest. -/
namespace NetLab.Odr
open NetLab.Lib

theorem Requested.ne {n : ℕ} {T : Topology n} {S D : Fin n} {s : Net n}
    (h : Requested T S D s) : D ≠ S := by
  cases h with
  | intro _ hne => exact hne

theorem Requested.vouched {n : ℕ} {T : Topology n} {S D : Fin n} {s : Net n}
    (h : Requested T S D s) : Wired T s ∧ Vouched T s := by
  cases h with
  | @intro s₀ s m hfresh _ _ hflag _ hs =>
    have hok : Unforced s₀ (.app S m) := hflag
    exact reachable_vouched hfresh.1 (.cons hok hs (.nil s))

/-- The invariants of the network while the flood goes on. -/
structure FloodState {n : ℕ} (T : Topology n) (S D : Fin n) (id : ℕ) (s : Net n) : Prop where
  wired : Wired T s
  vouched : Vouched T s
  flooding : Flooding T S D id s

theorem FloodState.step {n : ℕ} {T : Topology n} {S D : Fin n} {id : ℕ} {s t : Net n}
    {a : Action n} (h : FloodState T S D id s) (hne : D ≠ S) (hok : Delivery s a)
    (hs : s.step T a = some t) : FloodState T S D id t := by
  cases a with
  | app x m => exact absurd hok not_false
  | duplicate k => exact absurd hok not_false
  | lose k => exact absurd hok not_false
  | deliver k =>
    refine ⟨wired_step h.wired hs, (vouched_step h.wired h.vouched (a := .deliver k) trivial hs).2,
      ?_⟩
    obtain ⟨p, hp, rfl⟩ := Option.map_eq_some_iff.mp hs
    exact h.flooding.deliver hne h.wired h.vouched hp

theorem FloodState.run {n : ℕ} {T : Topology n} {S D : Fin n} {id : ℕ} {s t : Net n}
    {as : List (Action n)} (h : FloodState T S D id s) (hne : D ≠ S)
    (hr : Run (Net.step T) Delivery s as t) : FloodState T S D id t :=
  hr.invariant (FloodState T S D id) (fun _ _ _ h hok hs => h.step hne hok hs) h

theorem Requested.floodState {n : ℕ} {T : Topology n} {S D : Fin n} {s : Net n}
    (h : Requested T S D s) : ∃ q, Opening T S D q s ∧ FloodState T S D q.broadcastId s := by
  obtain ⟨q, hq⟩ := h.opening
  exact ⟨q, hq, h.vouched.1, h.vouched.2, hq.flooding h.ne⟩

/-- Node `x` is `S`, or has a route to `S` of at most `c` hops. -/
def Reached {n : ℕ} (s : Net n) (S x : Fin n) (c : ℕ) : Prop :=
  x = S ∨ ((s.row x S).outgoingIf ≠ 0 ∧ (s.row x S).hopCnt ≤ c)

/-- With nothing in flight, a covered LAN passes the route on to its next node. -/
theorem Flooding.reached_hop {n : ℕ} {T : Topology n} {S D : Fin n} {id : ℕ} {s : Net n}
    (h : Flooding T S D id s) (hq : s.inFlight = []) {x y : Fin n} {c : ℕ}
    (hx : Reached s S x c) (hxD : x ≠ D) (hhop : T.Hop x y) : Reached s S y (c + 1) := by
  obtain ⟨i, hi, j, hj, hl, _⟩ := hhop
  have hcov : x ≠ S → ∃ c' ≤ c, Covered T s S (T.lan x i) c' := by
    intro hxS
    obtain ⟨ho, hle⟩ := hx.resolve_left hxS
    exact ⟨_, hle, h.relayed x hxD hxS ho i hi⟩
  have hcov : ∃ c' ≤ c, Covered T s S (T.lan x i) c' := by
    by_cases hxS : x = S
    · subst hxS
      exact ⟨0, Nat.zero_le c, h.origin i hi⟩
    · exact hcov hxS
  obtain ⟨c', hc', hcov⟩ := hcov
  by_cases hyS : y = S
  · exact .inl hyS
  · rcases hcov y j hj hl.symm hyS with ⟨ho, hle⟩ | ⟨p, hp, _⟩
    · exact .inr ⟨ho, by omega⟩
    · rw [hq] at hp
      cases hp

theorem Flooding.reached_walk {n : ℕ} {T : Topology n} {S D : Fin n} {id : ℕ} {s : Net n}
    (h : Flooding T S D id s) (hq : s.inFlight = []) {x y : Fin n} {k c : ℕ}
    (w : Walk (Avoiding T.Hop D) k x y) (hx : Reached s S x c) : Reached s S y (c + k) := by
  induction w generalizing c with
  | nil x => exact hx
  | @cons k x y z hhop _ ih =>
    have hy := ih (h.reached_hop hq hx hhop.2.1 hhop.1)
    rwa [show c + (k + 1) = c + 1 + k by omega]

/-- The row of `x` for `a` holds a shortest walk along `r`, or no route if there is no walk. -/
structure ShortestRoute {n : ℕ} (r : Fin n → Fin n → Prop) (s : Net n) (x a : Fin n) : Prop where
  route_iff : (s.row x a).outgoingIf ≠ 0 ↔ ∃ k, Walk r k a x
  shortest : (s.row x a).outgoingIf ≠ 0 → Shortest r a x (s.row x a).hopCnt

theorem shortestRoute_of_bound {n : ℕ} {r : Fin n → Fin n → Prop} {s : Net n} {x a : Fin n}
    (hwalk : (s.row x a).outgoingIf ≠ 0 → Walk r (s.row x a).hopCnt a x)
    (hle : ∀ k, Walk r k a x → (s.row x a).outgoingIf ≠ 0 ∧ (s.row x a).hopCnt ≤ k) :
    ShortestRoute r s x a where
  route_iff := ⟨fun ho => ⟨_, hwalk ho⟩, fun ⟨k, hk⟩ => (hle k hk).1⟩
  shortest := fun ho => ⟨hwalk ho, fun k hk => (hle k hk).2⟩

theorem Flooding.dest_bound {n : ℕ} {T : Topology n} {S D : Fin n} {id : ℕ} {s : Net n}
    (h : Flooding T S D id s) (hne : D ≠ S) (hq : s.inFlight = []) {k : ℕ}
    (hk : Walk T.Hop k S D) : (s.row D S).outgoingIf ≠ 0 ∧ (s.row D S).hopCnt ≤ k := by
  obtain ⟨j, y, hj, hw, hyD, hhop⟩ := hk.first_visit (Ne.symm hne)
  have hy := h.reached_walk hq hw (c := 0) (.inl rfl)
  obtain ⟨ho, hle⟩ := (h.reached_hop hq hy hyD hhop).resolve_left hne
  exact ⟨ho, by omega⟩

/-- Flooding computes shortest reverse routes: to `D` among all walks from `S`, and to any
other node among those that avoid `D`, which does not flood. -/
theorem reverse_routes_shortest {n : ℕ} (T : Topology n) (S D : Fin n) (s t : Net n)
    (as : List (Action n)) (hreq : Requested T S D s) (hr : Run (Net.step T) Delivery s as t)
    (hquiet : t.inFlight = []) :
    ShortestRoute T.Hop t D S ∧
    ∀ x, x ≠ S → x ≠ D → ShortestRoute (Avoiding T.Hop D) t x S := by
  obtain ⟨q, _, hf⟩ := hreq.floodState
  have h := (hf.run hreq.ne hr).flooding
  refine ⟨shortestRoute_of_bound h.dest fun k hk => h.dest_bound hreq.ne hquiet hk, ?_⟩
  intro x hxS hxD
  refine shortestRoute_of_bound (h.row x hxD) ?_
  intro k hk
  have hx := (h.reached_walk hquiet hk (c := 0) (.inl rfl)).resolve_left hxS
  exact ⟨hx.1, by omega⟩

def lineAsked : Net 3 := (exec (Net.step line) (.started 3) (lineRun.take 1)).getD (.started 3)

def lineQuiet : Net 3 :=
  (exec (Net.step line) lineAsked (List.replicate 4 (.deliver 0))).getD (.started 3)

theorem line_requested : Requested line 0 2 lineAsked :=
  @Requested.intro 3 line 0 2 (.started 3) lineAsked ⟨"240411c", some 2, 5000, "hi", 0⟩
    ⟨Net.started_initial 3, fun _ _ => rfl⟩ (by decide)
    (fun e he => by cases he; decide) (by decide) rfl rfl

theorem line_quiet_run :
    Run (Net.step line) Delivery lineAsked (List.replicate 4 (.deliver 0)) lineQuiet :=
  .of_exec (by simp [Delivery]) rfl

theorem reverse_routes_shortest_line :
    (lineQuiet.row 2 0).hopCnt = 2 ∧ Shortest line.Hop 0 2 2 ∧
      Shortest (Avoiding line.Hop 2) 0 1 1 := by
  have h := reverse_routes_shortest line 0 2 lineAsked lineQuiet _ line_requested
    line_quiet_run rfl
  exact ⟨rfl, h.1.shortest (by decide), (h.2 1 (by decide) (by decide)).shortest (by decide)⟩

end NetLab.Odr
