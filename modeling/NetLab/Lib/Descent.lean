import Mathlib.Data.DFinsupp.WellFounded
import Mathlib.Data.Fintype.Lattice
import Mathlib.Data.Prod.Lex
import Mathlib.Logic.Relation
import NetLab.Lib.Run

/-! Finite descent: lexicographic comparison of finite families, heights in a relation without
cycles, and the bound on the total cost of all runs from an accessible state. -/
namespace NetLab.Lib

theorem toLex_lt_of_le {ι α : Type*} [LinearOrder ι] [Finite ι] [PartialOrder α] {x y : ι → α}
    (i : ι) (hle : ∀ j < i, x j ≤ y j) (hlt : x i < y i) : toLex x < toLex y := by
  induction i using WellFoundedLT.induction with
  | ind i ih =>
    by_cases hj : ∃ j < i, x j ≠ y j
    · obtain ⟨j, hji, hne⟩ := hj
      exact ih j hji (fun k hk => hle k (hk.trans hji)) (lt_of_le_of_ne (hle j hji) hne)
    · push Not at hj
      exact ⟨i, hj, hlt⟩

open Classical in
/-- The number of points of `s` that can be reached from `a`. -/
noncomputable def height {α : Type*} (r : α → α → Prop) (s : Finset α) (a : α) : ℕ :=
  (s.filter (Relation.TransGen r a)).card

theorem height_lt {α : Type*} {r : α → α → Prop} {s : Finset α} {a b : α} (h : r a b)
    (hb : b ∈ s) (hacyc : ¬ Relation.TransGen r b b) : height r s b < height r s a := by
  refine Finset.card_lt_card (Finset.ssubset_iff_of_subset ?_ |>.mpr ⟨b, ?_, ?_⟩)
  · intro c hc
    simp only [Finset.mem_filter] at hc ⊢
    exact ⟨hc.1, .head h hc.2⟩
  · simp only [Finset.mem_filter]
    exact ⟨hb, .single h⟩
  · simp [hacyc]

/-- The cost of the actions of a run, each charged in the state it starts from. -/
def totalCost {σ α : Type*} (step : σ → α → Option σ) (cost : σ → α → ℕ) (s : σ) :
    List α → ℕ
  | [] => 0
  | a :: as => cost s a + ((step s a).map fun t => totalCost step cost t as).getD 0

/-- One step under the condition `ok`, read backwards as a descent relation. -/
def Descends {σ α : Type*} (step : σ → α → Option σ) (ok : σ → α → Prop) (t s : σ) : Prop :=
  ∃ a, ok s a ∧ step s a = some t

theorem acc_of_rank {σ α β : Type*} [Preorder β] [WellFoundedLT β] {step : σ → α → Option σ}
    {ok : σ → α → Prop} (I : σ → Prop) (rank : σ → β)
    (hstep : ∀ s t a, I s → ok s a → step s a = some t → I t ∧ rank t < rank s) {s : σ}
    (h : I s) : Acc (Descends step ok) s := by
  induction hr : rank s using WellFoundedLT.induction generalizing s with
  | ind r ih =>
    constructor
    rintro t ⟨a, hok, hs⟩
    obtain ⟨ht, hlt⟩ := hstep s t a h hok hs
    exact ih (rank t) (hr ▸ hlt) ht rfl

/-- If finitely many actions are enabled in each state and no run from `s` is infinite, then
all runs from `s` share one bound on their cost. -/
theorem bounded_totalCost {σ α : Type*} {step : σ → α → Option σ} {ok : σ → α → Prop}
    (cost : σ → α → ℕ) (hfin : ∀ s, {a | ok s a ∧ ∃ t, step s a = some t}.Finite) {s : σ}
    (h : Acc (Descends step ok) s) :
    ∃ b, ∀ as t, Run step ok s as t → totalCost step cost s as ≤ b := by
  induction h with
  | intro s _ ih =>
    have hb : ∀ a, ∃ b, ok s a → ∀ t, step s a = some t →
        ∀ as u, Run step ok t as u → totalCost step cost t as ≤ b := by
      intro a
      by_cases ha : ok s a ∧ ∃ t, step s a = some t
      · obtain ⟨hok, t, ht⟩ := ha
        obtain ⟨b, hb⟩ := ih t ⟨a, hok, ht⟩
        refine ⟨b, ?_⟩
        intro _ t' ht' as u hr
        rw [ht] at ht'
        cases ht'
        exact hb as u hr
      · exact ⟨0, fun hok t ht => absurd ⟨hok, t, ht⟩ ha⟩
    choose b hb using hb
    refine ⟨(hfin s).toFinset.sup fun a => cost s a + b a, ?_⟩
    intro as t hr
    cases hr with
    | nil => exact Nat.zero_le _
    | @cons _ u _ a as hok hs hr =>
      have hmem : a ∈ (hfin s).toFinset := by simpa using ⟨hok, u, hs⟩
      have hle := Finset.le_sup (f := fun a => cost s a + b a) hmem
      have hrest := hb a hok u hs as t hr
      simp only [totalCost, hs, Option.map_some, Option.getD_some]
      omega

theorem totalCost_one {σ α : Type*} {step : σ → α → Option σ} {ok : σ → α → Prop} {s t : σ}
    {as : List α} (hr : Run step ok s as t) : totalCost step (fun _ _ => 1) s as = as.length := by
  induction hr with
  | nil => rfl
  | cons _ hs _ ih =>
    simp only [totalCost, hs, Option.map_some, Option.getD_some, ih, List.length_cons]
    omega

end NetLab.Lib
