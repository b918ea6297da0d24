import NetLab.Lib.Run
import NetLab.Lib.Scan
import NetLab.Transfer.Rtt

/-! The RTT estimator over any sequence of samples and timeouts: the quotients are truncated, and a
timer can be armed for less than the smoothed RTT. -/
namespace NetLab.Transfer
open NetLab.Lib

inductive RttCall where
  | stop (ms : ℕ)
  | timeout
  deriving DecidableEq, Repr

def RttCall.InRange : RttCall → Prop
  | .stop ms => ms < 536870912
  | .timeout => True

def RttInfo.call (r : RttInfo) : RttCall → Option RttInfo
  | .stop ms => some (rttStop r ms)
  | .timeout => some (rttTimeout r).1

/-- The values of type `int` that a call computes. -/
def RttInfo.ints (r : RttInfo) : RttCall → List ℤ
  | .stop ms =>
    let t := rttStop r ms
    [t.rtt, t.rtt - r.srtt, t.srtt, t.rttvar, 4 * t.rttvar, t.srtt + 4 * t.rttvar,
      rttRtocalc t.srtt t.rttvar]
  | .timeout => [r.rto * 2, r.nrexmt + 1]

/-- The `uint32_t` product of a sample, and every `int`, is exact. -/
def RttInfo.NoOverflow (r : RttInfo) (c : RttCall) : Prop :=
  (∀ ms, c = .stop ms → ms * 8 < 4294967296) ∧ ∀ z ∈ r.ints c, IsInt z

/-- `rtt_rto` is in seconds, `rtt_srtt` in eighths of a second. -/
structure RttInfo.Sound (r : RttInfo) : Prop where
  srtt : 0 ≤ r.srtt
  rttvar : 0 ≤ r.rttvar
  rto : min r.srtt (8 * rttRxtmax) ≤ 8 * r.rto

/-- A sample so close to a small `rtt_srtt`, with so small an `rtt_rttvar`, that the deviation no
longer makes up for the part of a second that `RTT_RTOCALC` drops. -/
def RttInfo.Late (r : RttInfo) (ms : ℕ) : Prop :=
  let rtt : ℤ := (ms * 8 / 1000 : ℕ)
  let srtt := if r.srtt ≤ rtt then r.srtt else r.srtt - 1
  let dev := 3 * r.rttvar + (rtt - r.srtt).natAbs
  8 < srtt ∧ srtt < 24 ∧ (dev < 4 ∧ srtt % 8 ≠ 0 ∨ dev < 8 ∧ 1 ≤ srtt % 8 ∧ srtt % 8 ≤ 3)

/-- The condition on a call: a sample that is not late, a timeout that can still be counted. -/
def RttInfo.Timely (r : RttInfo) : RttCall → Prop
  | .stop ms => ¬ r.Late ms
  | .timeout => r.nrexmt < 2147483647

instance (c : RttCall) : Decidable c.InRange :=
  match c with
  | .stop ms => inferInstanceAs (Decidable (ms < 536870912))
  | .timeout => inferInstanceAs (Decidable True)

instance (r : RttInfo) (ms : ℕ) : Decidable (r.Late ms) :=
  inferInstanceAs (Decidable (_ ∧ _ ∧ (_ ∨ _)))

instance (r : RttInfo) (c : RttCall) : Decidable (r.Timely c) :=
  match c with
  | .stop ms => inferInstanceAs (Decidable (¬ r.Late ms))
  | .timeout => inferInstanceAs (Decidable (r.nrexmt < 2147483647))

/-- The ranges of the estimators after any calls. -/
structure RttInfo.Bounded (r : RttInfo) : Prop where
  srtt : 0 ≤ r.srtt ∧ r.srtt ≤ 4294967
  rttvar : 0 ≤ r.rttvar ∧ r.rttvar ≤ 4294967
  rto : rttRxtmin ≤ r.rto ∧ r.rto ≤ rttRxtmax

theorem rttMinmax_bounds (rto : ℤ) :
    rttRxtmin ≤ rttMinmax rto ∧ rttMinmax rto ≤ rttRxtmax := by
  unfold rttMinmax rttRxtmin rttRxtmax
  split_ifs <;> omega

section
variable {r : RttInfo} {ms : ℕ}

theorem rttStop_rtt (hms : ms < 536870912) : (rttStop r ms).rtt = (ms * 8 / 1000 : ℕ) := by
  have hmod : ms * 8 % 4294967296 = ms * 8 := Nat.mod_eq_of_lt (by omega)
  unfold rttStop
  rw [hmod]

theorem rttStop_rtt_bounds (hms : ms < 536870912) :
    0 ≤ (rttStop r ms).rtt ∧ (rttStop r ms).rtt ≤ 4294967 := by
  rw [rttStop_rtt hms]
  omega

theorem rttStop_srtt (hrtt : 0 ≤ (rttStop r ms).rtt) (hsrtt : 0 ≤ r.srtt) :
    (rttStop r ms).srtt = (7 * r.srtt + (rttStop r ms).rtt) / 8 := by
  have hsum : 8 * r.srtt + ((rttStop r ms).rtt - r.srtt) = 7 * r.srtt + (rttStop r ms).rtt := by
    omega
  have hpos : 0 ≤ 7 * r.srtt + (rttStop r ms).rtt := by omega
  calc (rttStop r ms).srtt = (8 * r.srtt + ((rttStop r ms).rtt - r.srtt)).tdiv 8 := rfl
    _ = (7 * r.srtt + (rttStop r ms).rtt).tdiv 8 := by rw [hsum]
    _ = (7 * r.srtt + (rttStop r ms).rtt) / 8 := Int.tdiv_eq_ediv_of_nonneg hpos

theorem rttStop_rttvar (hrttvar : 0 ≤ r.rttvar) :
    (rttStop r ms).rttvar = (3 * r.rttvar + ((rttStop r ms).rtt - r.srtt).natAbs) / 4 := by
  have habs : ∀ z : ℤ, (if z < 0 then -z else z) = z.natAbs := by
    intro z
    split_ifs <;> omega
  have hsum : ∀ d : ℤ, 4 * r.rttvar + (d - r.rttvar) = 3 * r.rttvar + d := by
    intro d
    omega
  have hpos : 0 ≤ 3 * r.rttvar + ((rttStop r ms).rtt - r.srtt).natAbs := by omega
  rw [← Int.tdiv_eq_ediv_of_nonneg hpos, ← hsum, ← habs]
  rfl

/-- A timer that is shorter than the smoothed RTT was rounded down by more than the deviation. -/
theorem rto_covers_iff {srtt rttvar : ℤ} (hsrtt : 0 ≤ srtt) (hrttvar : 0 ≤ rttvar) :
    min srtt (8 * rttRxtmax) ≤ 8 * rttMinmax (rttRtocalc srtt rttvar) ↔
      ¬ (8 < srtt ∧ srtt < 24 ∧
        (rttvar = 0 ∧ srtt % 8 ≠ 0 ∨ rttvar ≤ 1 ∧ 1 ≤ srtt % 8 ∧ srtt % 8 ≤ 3)) := by
  have hpos : 0 ≤ srtt + 4 * rttvar := by omega
  have hcalc : rttRtocalc srtt rttvar = (srtt + 4 * rttvar) / 8 := Int.tdiv_eq_ediv_of_nonneg hpos
  rw [hcalc]
  unfold rttMinmax rttRxtmin rttRxtmax
  split_ifs <;> omega

/-- A sample that leaves a small deviation is close to the smoothed RTT, which it leaves alone, or
lowers by one if it is smaller. -/
theorem rttStop_srtt_near (hrtt : 0 ≤ (rttStop r ms).rtt) (hsrtt : 0 ≤ r.srtt)
    (hnear : ((rttStop r ms).rtt - r.srtt).natAbs < 8) :
    (rttStop r ms).srtt = if r.srtt ≤ (rttStop r ms).rtt then r.srtt else r.srtt - 1 := by
  rw [rttStop_srtt hrtt hsrtt]
  split_ifs with hle
  · omega
  · omega

/-- What the estimators are after a sample says whether it was late. -/
theorem late_iff (hms : ms < 536870912) (hsrtt : 0 ≤ r.srtt) (hrttvar : 0 ≤ r.rttvar) :
    r.Late ms ↔ 8 < (rttStop r ms).srtt ∧ (rttStop r ms).srtt < 24 ∧
      ((rttStop r ms).rttvar = 0 ∧ (rttStop r ms).srtt % 8 ≠ 0 ∨
        (rttStop r ms).rttvar ≤ 1 ∧ 1 ≤ (rttStop r ms).srtt % 8 ∧
          (rttStop r ms).srtt % 8 ≤ 3) := by
  have hrtt := (rttStop_rtt_bounds (r := r) hms).1
  have hvar : (rttStop r ms).rttvar = _ := rttStop_rttvar hrttvar
  have hnear := rttStop_srtt_near hrtt hsrtt
  have hzero : (rttStop r ms).rttvar = 0 ↔
      3 * r.rttvar + ((rttStop r ms).rtt - r.srtt).natAbs < 4 := by omega
  have hone : (rttStop r ms).rttvar ≤ 1 ↔
      3 * r.rttvar + ((rttStop r ms).rtt - r.srtt).natAbs < 8 := by omega
  unfold RttInfo.Late
  rw [← rttStop_rtt (r := r) hms, hzero, hone]
  by_cases hdev : 3 * r.rttvar + ((rttStop r ms).rtt - r.srtt).natAbs < 8
  · rw [hnear (by omega)]
  · have hdev' : ¬ 3 * r.rttvar + ((rttStop r ms).rtt - r.srtt).natAbs < 4 := by omega
    refine iff_of_false ?_ ?_
    · exact fun h => h.2.2.elim (fun h => hdev' h.1) (fun h => hdev h.1)
    · exact fun h => h.2.2.elim (fun h => hdev' h.1) (fun h => hdev h.1)

theorem stop_bounded (h : r.Bounded) (hms : ms < 536870912) : (rttStop r ms).Bounded := by
  have ⟨hlow, hhigh⟩ := rttStop_rtt_bounds (r := r) hms
  have ⟨hsrtt, hsrtt'⟩ := h.srtt
  have ⟨hvar, hvar'⟩ := h.rttvar
  constructor
  · rw [rttStop_srtt hlow hsrtt]
    omega
  · rw [rttStop_rttvar hvar]
    omega
  · exact rttMinmax_bounds _

theorem timeout_bounded (h : r.Bounded) : (rttTimeout r).1.Bounded :=
  ⟨h.srtt, h.rttvar, rttMinmax_bounds _⟩

theorem stop_noOverflow (h : r.Bounded) (hms : ms < 536870912) : r.NoOverflow (.stop ms) := by
  have ⟨hlow, hhigh⟩ := rttStop_rtt_bounds (r := r) hms
  have ⟨hsrtt, hsrtt'⟩ := h.srtt
  have ⟨hs, hs'⟩ := (stop_bounded h hms).srtt
  have ⟨hv, hv'⟩ := (stop_bounded h hms).rttvar
  have hpos : 0 ≤ (rttStop r ms).srtt + 4 * (rttStop r ms).rttvar := by omega
  constructor
  · intro ms' heq
    cases heq
    omega
  · intro z hz
    simp only [RttInfo.ints, List.mem_cons, List.not_mem_nil, or_false] at hz
    unfold IsInt
    rcases hz with rfl | rfl | rfl | rfl | rfl | rfl | rfl
    · omega
    · omega
    · omega
    · omega
    · omega
    · omega
    · unfold rttRtocalc
      rw [Int.tdiv_eq_ediv_of_nonneg hpos]
      omega

theorem timeout_noOverflow_iff (h : r.Bounded) :
    r.NoOverflow .timeout ↔ r.nrexmt < 2147483647 := by
  have ⟨hrto, hrto'⟩ := h.rto
  unfold rttRxtmin at hrto
  unfold rttRxtmax at hrto'
  constructor
  · intro hno
    have hcount : IsInt (r.nrexmt + 1) := hno.2 _ (by simp [RttInfo.ints])
    unfold IsInt at hcount
    omega
  · intro hcount
    refine ⟨fun ms heq => (by cases heq), ?_⟩
    intro z hz
    simp only [RttInfo.ints, List.mem_cons, List.not_mem_nil, or_false] at hz
    unfold IsInt
    rcases hz with rfl | rfl
    · omega
    · omega

theorem stop_sound_iff (h : r.Bounded) (hms : ms < 536870912) :
    (rttStop r ms).Sound ↔ ¬ r.Late ms := by
  have hs := (stop_bounded h hms).srtt.1
  have hv := (stop_bounded h hms).rttvar.1
  rw [late_iff hms h.srtt.1 h.rttvar.1, ← rto_covers_iff hs hv]
  exact ⟨fun hsound => hsound.rto, fun hrto => ⟨hs, hv, hrto⟩⟩

theorem timeout_sound (h : r.Bounded) (hsound : r.Sound) : (rttTimeout r).1.Sound := by
  have ⟨hrto, hrto'⟩ := h.rto
  have hgrows : r.rto ≤ (rttTimeout r).1.rto := by
    change r.rto ≤ rttMinmax (r.rto * 2)
    unfold rttRxtmin at hrto
    unfold rttRxtmax at hrto'
    unfold rttMinmax rttRxtmin rttRxtmax
    split_ifs <;> omega
  constructor
  case srtt =>
    exact hsound.srtt
  case rttvar =>
    exact hsound.rttvar
  case rto =>
    calc min r.srtt (8 * rttRxtmax) ≤ 8 * r.rto := hsound.rto
      _ ≤ 8 * (rttTimeout r).1.rto := by omega

end

theorem bounded_init (r : RttInfo) (tv : Timeval) : (rttInit r tv).Bounded := by
  have hsrtt : (rttInit r tv).srtt = 0 := rfl
  have hrttvar : (rttInit r tv).rttvar = 6 := rfl
  constructor
  · rw [hsrtt]
    decide
  · rw [hrttvar]
    decide
  · exact rttMinmax_bounds (rttRtocalc 0 6)

theorem sound_init (r : RttInfo) (tv : Timeval) : (rttInit r tv).Sound := by
  have hrto : (rttInit r tv).rto = 3 := by
    change rttMinmax (rttRtocalc 0 6) = 3
    decide
  constructor
  · exact (bounded_init r tv).srtt.1
  · exact (bounded_init r tv).rttvar.1
  · rw [hrto]
    exact min_le_right _ _

theorem call_bounded {r t : RttInfo} {c : RttCall} (h : r.Bounded) (hok : c.InRange)
    (hs : r.call c = some t) : t.Bounded := by
  cases c with
  | stop ms =>
    cases hs
    exact stop_bounded h hok
  | timeout =>
    cases hs
    exact timeout_bounded h

theorem timely_iff {r t : RttInfo} {c : RttCall} (h : r.Bounded) (hsound : r.Sound)
    (hok : c.InRange) (hs : r.call c = some t) : r.Timely c ↔ r.NoOverflow c ∧ t.Sound := by
  cases c with
  | stop ms =>
    cases hs
    rw [and_iff_right (stop_noOverflow h hok), stop_sound_iff h hok]
    rfl
  | timeout =>
    cases hs
    rw [timeout_noOverflow_iff h, and_iff_left (timeout_sound h hsound)]
    rfl

/-- The estimators are not negative, nothing overflows and the timer is not shorter than the
smoothed RTT, after any calls, if and only if no sample is late and no timeout is one too many. -/
theorem timer_covers_srtt_iff (r : RttInfo) (tv : Timeval) {calls : List RttCall} {t : RttInfo}
    (hr : Run RttInfo.call (fun _ c => c.InRange) (rttInit r tv) calls t) :
    AtSteps RttInfo.call RttInfo.NoOverflow (rttInit r tv) calls ∧
        Along RttInfo.call RttInfo.Sound (rttInit r tv) calls ↔
      Run RttInfo.call (fun r c => c.InRange ∧ r.Timely c) (rttInit r tv) calls t := by
  refine hr.along_atSteps_iff RttInfo.Bounded RttInfo.Sound ?_ ?_ (bounded_init r tv)
    (sound_init r tv)
  · intro s t c h _ hok hs
    exact call_bounded h hok hs
  · intro s t c h hsound hok hs
    exact timely_iff h hsound hok hs

/-- Two samples of one second and the timeout between them. -/
theorem timer_covers_srtt_timeout :
    AtSteps RttInfo.call RttInfo.NoOverflow (rttInit ⟨0, 0, 0, 0, 0, 0⟩ ⟨1412000000, 0⟩)
        [.stop 1000, .timeout, .stop 1000] ∧
      Along RttInfo.call RttInfo.Sound (rttInit ⟨0, 0, 0, 0, 0, 0⟩ ⟨1412000000, 0⟩)
        [.stop 1000, .timeout, .stop 1000] :=
  (timer_covers_srtt_iff ⟨0, 0, 0, 0, 0, 0⟩ ⟨1412000000, 0⟩
    (Run.of_runnable (by decide +kernel) ⟨0, 0, 0, 0, 0, 0⟩)).mpr
    (Run.of_runnable (by decide +kernel) ⟨0, 0, 0, 0, 0, 0⟩)

/-- After one long round trip every other one takes 1.25 seconds: the smoothed RTT comes down to
that and stays there, and the timer is armed for one second. -/
theorem timer_shorter_than_srtt :
    ∃ t, Run RttInfo.call (fun _ c => c.InRange) (rttInit ⟨0, 0, 0, 0, 0, 0⟩ ⟨1412000000, 0⟩)
        (.stop 10000 :: List.replicate 8 (.stop 1250)) t ∧
      t.srtt = 10 ∧ rttStart t = 1 ∧ ¬ t.Sound := by
  refine ⟨⟨10, 10, 1, 1, 0, 1412000000⟩, ?_, rfl, rfl, ?_⟩
  · exact Run.of_runnable (by decide +kernel) ⟨0, 0, 0, 0, 0, 0⟩
  · intro hsound
    have hcover : min (10 : ℤ) (8 * rttRxtmax) ≤ 8 * 1 := hsound.rto
    exact absurd hcover (by decide)

end NetLab.Transfer
