import Mathlib.Data.Set.Finite.Lattice
import Mathlib.Order.WellFounded

/-! Runs of a labelled step function under a step condition: invariants, and the
bound a well-founded rank gives when only finitely many actions are enabled. -/
namespace NetLab.Lib

/-- A run executes enabled actions, each of which meets `ok` in the state it starts from. -/
inductive Run {σ α : Type*} (step : σ → α → Option σ) (ok : σ → α → Prop) :
    σ → List α → σ → Prop
  | nil (s : σ) : Run step ok s [] s
  | cons {s t u : σ} {a : α} {as : List α} (hok : ok s a) (hs : step s a = some t)
      (hr : Run step ok t as u) : Run step ok s (a :: as) u

theorem Run.invariant {σ α : Type*} {step : σ → α → Option σ} {ok : σ → α → Prop}
    (I : σ → Prop) (hI : ∀ s t a, I s → ok s a → step s a = some t → I t)
    {s t : σ} {as : List α} (h : Run step ok s as t) (h0 : I s) : I t := by
  induction h with
  | nil s => exact h0
  | cons hok hs _ ih => exact ih (hI _ _ _ h0 hok hs)

theorem Run.append {σ α : Type*} {step : σ → α → Option σ} {ok : σ → α → Prop} {s t u : σ}
    {as bs : List α} (h : Run step ok s as t) (h' : Run step ok t bs u) :
    Run step ok s (as ++ bs) u := by
  induction h with
  | nil s => exact h'
  | cons hok hs _ ih => exact .cons hok hs (ih h')

theorem Run.length_add_rank_le {σ α : Type*} {step : σ → α → Option σ} {ok : σ → α → Prop}
    (rank : σ → ℕ) (hrank : ∀ s t a, step s a = some t → rank t < rank s) {s t : σ} {as : List α}
    (h : Run step ok s as t) : as.length + rank t ≤ rank s := by
  induction h with
  | nil s => simp
  | cons _ hs _ ih =>
    have hlt := hrank _ _ _ hs
    rw [List.length_cons]
    omega

/-- A total function on other states that keeps a relation to the states of a run, step by step,
keeps it over the run. -/
theorem Run.simulate {σ τ α : Type*} {step : σ → α → Option σ} {ok : σ → α → Prop}
    (act : τ → α → τ) (R : σ → τ → Prop)
    (hR : ∀ s s' t a, R s t → ok s a → step s a = some s' → R s' (act t a)) {s s' : σ}
    {as : List α} (h : Run step ok s as s') {t : τ} (h₀ : R s t) : R s' (as.foldl act t) := by
  induction h generalizing t with
  | nil s => exact h₀
  | cons hok hs _ ih => exact ih (hR _ _ _ _ h₀ hok hs)

/-- A system that another one follows, with no, one or several steps for each of its own: the other
one follows every run. -/
theorem Run.refines {σ τ α β : Type*} {step : σ → α → Option σ} {ok : σ → α → Prop}
    {step' : τ → β → Option τ} {ok' : τ → β → Prop} (R : σ → τ → Prop)
    (hR : ∀ s s' t a, R s t → ok s a → step s a = some s' →
      ∃ bs t', Run step' ok' t bs t' ∧ R s' t')
    {s s' : σ} {as : List α} (h : Run step ok s as s') {t : τ} (h₀ : R s t) :
    ∃ bs t', Run step' ok' t bs t' ∧ R s' t' := by
  induction h generalizing t with
  | nil s => exact ⟨[], t, .nil t, h₀⟩
  | cons hok hs _ ih =>
    obtain ⟨bs, u, hfirst, hu⟩ := hR _ _ _ _ h₀ hok hs
    obtain ⟨cs, v, hrest, hv⟩ := ih hu
    exact ⟨bs ++ cs, v, hfirst.append hrest, hv⟩

/-- Two systems whose steps are enabled in related states alike and keep them related: each of them
follows every run of the other. -/
theorem Run.bisimulates {σ τ α β : Type*} {step : σ → α → Option σ} {step' : τ → β → Option τ}
    {f : α → β} {R : σ → τ → Prop}
    (hR : ∀ s t a, R s t → Option.Rel R (step s a) (step' t (f a))) {s : σ} {t : τ} (h₀ : R s t)
    (as : List α) :
    (∀ s', Run step (fun _ _ => True) s as s' →
      ∃ t', Run step' (fun _ _ => True) t (as.map f) t' ∧ R s' t') ∧
    ∀ t', Run step' (fun _ _ => True) t (as.map f) t' →
      ∃ s', Run step (fun _ _ => True) s as s' ∧ R s' t' := by
  induction as generalizing s t with
  | nil =>
    constructor
    · intro s' hr
      cases hr
      exact ⟨t, .nil t, h₀⟩
    · intro t' hr
      cases hr
      exact ⟨s, .nil s, h₀⟩
  | cons a as ih =>
    have hstep := hR s t a h₀
    constructor
    · intro s' hr
      cases hr with
      | cons _ hs hr =>
        rw [hs] at hstep
        cases ht : step' t (f a) with
        | none =>
          rw [ht] at hstep
          cases hstep
        | some u =>
          rw [ht] at hstep
          cases hstep with
          | some hu =>
            obtain ⟨t', hrest, hend⟩ := (ih hu).1 s' hr
            exact ⟨t', .cons trivial ht hrest, hend⟩
    · intro t' hr
      rw [List.map_cons] at hr
      cases hr with
      | cons _ ht hr =>
        rw [ht] at hstep
        cases hs : step s a with
        | none =>
          rw [hs] at hstep
          cases hstep
        | some u =>
          rw [hs] at hstep
          cases hstep with
          | some hu =>
            obtain ⟨s', hrest, hend⟩ := (ih hu).2 t' hr
            exact ⟨s', .cons trivial hs hrest, hend⟩

/-- Execution of a list of actions, `none` if one of them is disabled. -/
def exec {σ α : Type*} (step : σ → α → Option σ) (s : σ) : List α → Option σ
  | [] => some s
  | a :: as => (step s a).bind fun t => exec step t as

theorem Run.of_exec {σ α : Type*} {step : σ → α → Option σ} {ok : σ → α → Prop}
    {s t : σ} {as : List α} (hok : ∀ a ∈ as, ∀ u, ok u a) (h : exec step s as = some t) :
    Run step ok s as t := by
  induction as generalizing s with
  | nil => cases h; exact .nil _
  | cons a as ih =>
    obtain ⟨u, hu, hr⟩ := Option.bind_eq_some_iff.mp h
    exact .cons (hok a (by simp) s) hu (ih (fun b hb => hok b (by simp [hb])) hr)

/-- Whether a list of actions can be executed with every step under the condition `ok`. -/
def runnable {σ α : Type*} (step : σ → α → Option σ) (ok : σ → α → Prop)
    [∀ s a, Decidable (ok s a)] (s : σ) : List α → Bool
  | [] => true
  | a :: as => decide (ok s a) && ((step s a).map fun t => runnable step ok t as).getD false

theorem Run.of_runnable {σ α : Type*} {step : σ → α → Option σ} {ok : σ → α → Prop}
    [∀ s a, Decidable (ok s a)] {s : σ} {as : List α} (h : runnable step ok s as = true) (d : σ) :
    Run step ok s as ((exec step s as).getD d) := by
  induction as generalizing s with
  | nil => exact .nil s
  | cons a as ih =>
    obtain ⟨hok, hr⟩ := Bool.and_eq_true_iff.mp h
    cases hs : step s a with
    | none => simp [hs] at hr
    | some t =>
      simp only [hs, Option.map_some, Option.getD_some] at hr
      simp only [exec, hs, Option.bind_some]
      exact .cons (of_decide_eq_true hok) hs (ih hr)

theorem Run.mono {σ α : Type*} {step : σ → α → Option σ} {ok ok' : σ → α → Prop}
    (hm : ∀ s a, ok s a → ok' s a) {s t : σ} {as : List α} (h : Run step ok s as t) :
    Run step ok' s as t := by
  induction h with
  | nil s => exact .nil s
  | cons hok hs _ ih => exact .cons (hm _ _ hok) hs ih

/-- No step leaves the trap `B`, and every step that does not meet `K` falls into it: a run that
ends outside `B` meets `K` at every step. -/
theorem Run.of_trap {σ α : Type*} {step : σ → α → Option σ} {ok K : σ → α → Prop} (I B : σ → Prop)
    (hI : ∀ s t a, I s → ok s a → step s a = some t → I t)
    (hB : ∀ s t a, I s → B s → ok s a → step s a = some t → B t)
    (hK : ∀ s t a, I s → ¬ K s a → ok s a → step s a = some t → B t) {s t : σ} {as : List α}
    (hr : Run step ok s as t) (h₀ : I s) (ht : ¬ B t) :
    Run step (fun s a => ok s a ∧ K s a) s as t := by
  induction hr with
  | nil s => exact .nil s
  | @cons s u t a as hok hs hr ih =>
    have hu : I u := hI s u a h₀ hok hs
    have htrap : ¬ B u := by
      intro hb
      refine ht (hr.invariant (fun s => I s ∧ B s) ?_ ⟨hu, hb⟩).2
      intro s t a h hok hs
      exact ⟨hI s t a h.1 hok hs, hB s t a h.1 h.2 hok hs⟩
    have hKs : K s a := by
      by_contra hn
      exact htrap (hK s u a h₀ hn hok hs)
    exact .cons ⟨hok, hKs⟩ hs (ih hu ht)

/-- The part of a run that executes a prefix of its actions. -/
theorem Run.take {σ α : Type*} {step : σ → α → Option σ} {ok : σ → α → Prop}
    {s t u : σ} {as bs : List α} (h : Run step ok s (as ++ bs) t) (hu : exec step s as = some u) :
    Run step ok s as u := by
  induction as generalizing s with
  | nil => cases hu; exact .nil _
  | cons a as ih =>
    cases h with
    | @cons _ v _ _ _ hok hs hr =>
      obtain ⟨w, hw, hex⟩ := Option.bind_eq_some_iff.mp hu
      rw [hs] at hw
      cases hw
      exact .cons hok hs (ih hr hex)

/-- `K` holds at every step of a run, each in the state it starts from. -/
def AtSteps {σ α : Type*} (step : σ → α → Option σ) (K : σ → α → Prop) (s : σ) (as : List α) :
    Prop := ∀ bs a cs u, as = bs ++ a :: cs → exec step s bs = some u → K u a

/-- `Q` holds in every state along a run. -/
def Along {σ α : Type*} (step : σ → α → Option σ) (Q : σ → Prop) (s : σ) (as : List α) : Prop :=
  ∀ bs cs u, as = bs ++ cs → exec step s bs = some u → Q u

theorem Run.exec_eq {σ α : Type*} {step : σ → α → Option σ} {ok : σ → α → Prop} {s t : σ}
    {as : List α} (h : Run step ok s as t) : exec step s as = some t := by
  induction h with
  | nil s => rfl
  | cons _ hs _ ih => rw [exec, hs, Option.bind_some, ih]

theorem Along.last {σ α : Type*} {step : σ → α → Option σ} {ok : σ → α → Prop} {Q : σ → Prop}
    {s t : σ} {as : List α} (h : Along step Q s as) (hr : Run step ok s as t) : Q t :=
  h as [] t (List.append_nil as).symm hr.exec_eq

theorem AtSteps.tail {σ α : Type*} {step : σ → α → Option σ} {K : σ → α → Prop} {s t : σ} {a : α}
    {as : List α} (h : AtSteps step K s (a :: as)) (hs : step s a = some t) :
    AtSteps step K t as := by
  intro bs b cs u has hu
  exact h (a :: bs) b cs u (by rw [has]; rfl) (by simp [exec, hs, hu])

theorem Along.tail {σ α : Type*} {step : σ → α → Option σ} {Q : σ → Prop} {s t : σ} {a : α}
    {as : List α} (h : Along step Q s (a :: as)) (hs : step s a = some t) :
    Along step Q t as := by
  intro bs cs u has hu
  exact h (a :: bs) cs u (by rw [has]; rfl) (by simp [exec, hs, hu])

theorem AtSteps.cons {σ α : Type*} {step : σ → α → Option σ} {K : σ → α → Prop} {s t : σ} {a : α}
    {as : List α} (hK : K s a) (hs : step s a = some t) (h : AtSteps step K t as) :
    AtSteps step K s (a :: as) := by
  intro bs b cs v has hv
  cases bs with
  | nil =>
    cases hv
    cases has
    exact hK
  | cons c bs =>
    cases has
    rw [exec, hs, Option.bind_some] at hv
    exact h bs b cs v rfl hv

theorem Along.cons {σ α : Type*} {step : σ → α → Option σ} {Q : σ → Prop} {s t : σ} {a : α}
    {as : List α} (hQ : Q s) (hs : step s a = some t) (h : Along step Q t as) :
    Along step Q s (a :: as) := by
  intro bs cs v has hv
  cases bs with
  | nil =>
    cases hv
    exact hQ
  | cons c bs =>
    cases has
    rw [exec, hs, Option.bind_some] at hv
    exact h bs cs v rfl hv

theorem Run.atSteps_iff {σ α : Type*} {step : σ → α → Option σ} {ok K : σ → α → Prop} {s t : σ}
    {as : List α} (hr : Run step ok s as t) :
    AtSteps step K s as ↔ Run step (fun s a => ok s a ∧ K s a) s as t := by
  induction hr with
  | nil s => exact ⟨fun _ => .nil s, fun _ bs a cs u h => by simp at h⟩
  | @cons s u t a as hok hs _ ih =>
    refine ⟨fun h => .cons ⟨hok, h [] a as s rfl rfl⟩ hs (ih.mp (h.tail hs)), ?_⟩
    intro h
    cases h with
    | cons hK hs' hr' =>
      rw [hs] at hs'
      cases hs'
      exact .cons hK.2 hs (ih.mpr hr')

/-- A step from a state with `Q` meets `K` if and only if it does what `L` says and keeps `Q`: so
does every step of a run. -/
theorem Run.along_atSteps_iff {σ α : Type*} {step : σ → α → Option σ} {ok K L : σ → α → Prop}
    (I Q : σ → Prop) (hI : ∀ s t a, I s → Q s → ok s a → step s a = some t → I t)
    (hQ : ∀ s t a, I s → Q s → ok s a → step s a = some t → (K s a ↔ L s a ∧ Q t)) {s t : σ}
    {as : List α} (hr : Run step ok s as t) (h₀ : I s) (h₁ : Q s) :
    AtSteps step L s as ∧ Along step Q s as ↔ Run step (fun s a => ok s a ∧ K s a) s as t := by
  induction hr with
  | nil s =>
    refine ⟨fun _ => .nil s, fun _ => ⟨fun bs a cs u h => by simp at h, ?_⟩⟩
    intro bs cs u h hu
    obtain ⟨rfl, rfl⟩ : bs = [] ∧ cs = [] := by simpa using h.symm
    cases hu
    exact h₁
  | @cons s u t a as hok hs hr ih =>
    have hstep := hQ s u a h₀ h₁ hok hs
    have hu : I u := hI s u a h₀ h₁ hok hs
    constructor
    · intro ⟨hat, halong⟩
      have hL : L s a := hat [] a as s rfl rfl
      have hQu : Q u := halong [a] as u rfl (by simp [exec, hs])
      exact .cons ⟨hok, hstep.mpr ⟨hL, hQu⟩⟩ hs ((ih hu hQu).mp ⟨hat.tail hs, halong.tail hs⟩)
    · intro h
      cases h with
      | cons hK hs' hr' =>
        rw [hs] at hs'
        cases hs'
        obtain ⟨hL, hQu⟩ := hstep.mp hK.2
        obtain ⟨hat, halong⟩ := (ih hu hQu).mpr hr'
        exact ⟨hat.cons hL hs, halong.cons h₁ hs⟩

/-- A property that a step keeps if and only if it meets `K`: it holds along a run if and only
if every step does. -/
theorem Run.along_iff {σ α : Type*} {step : σ → α → Option σ} {ok K : σ → α → Prop}
    (I Q : σ → Prop) (hI : ∀ s t a, I s → ok s a → step s a = some t → I t)
    (hQ : ∀ s t a, I s → Q s → ok s a → step s a = some t → (Q t ↔ K s a)) {s t : σ}
    {as : List α} (hr : Run step ok s as t) (h₀ : I s) (h₁ : Q s) :
    Along step Q s as ↔ Run step (fun s a => ok s a ∧ K s a) s as t := by
  rw [← hr.along_atSteps_iff (L := fun _ _ => True) I Q (fun s t a h _ => hI s t a h)
    (fun s t a h hq hok hs => by rw [hQ s t a h hq hok hs, true_and]) h₀ h₁]
  exact ⟨fun h => ⟨fun _ _ _ _ _ _ => trivial, h⟩, fun h => h.2⟩

end NetLab.Lib
