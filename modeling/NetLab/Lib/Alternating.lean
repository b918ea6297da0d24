import Mathlib.Logic.Relation
import NetLab.Lib.Walk

/-! Walks that alternate between two relations, each of which joins the distinct points of one
class. Without cycles they reach at most one point of each class of the first relation. -/
namespace NetLab.Lib
open Relation

/-- `r` relates exactly the distinct points of one class, on the points that are in a class. -/
structure Joins {α : Type*} (r : α → α → Prop) : Prop where
  irrefl : ∀ a, ¬ r a a
  symm : ∀ a b, r a b → r b a
  trans : ∀ a b c, r a b → r b c → a ≠ c → r a c

/-- The points where a walk can arrive that leaves a point of `origin` by `hop` and goes on
with `turn` and `hop` alternately. -/
inductive Reached {α : Type*} (turn hop : α → α → Prop) (origin : α → Prop) : α → Prop
  | start {o a : α} (ho : origin o) (h : hop o a) : Reached turn hop origin a
  | pass {a c : α} (ha : Reached turn hop origin a) (h : Comp turn hop a c) :
      Reached turn hop origin c

/-- No walk from `origin` comes round. -/
def NoReturn {α : Type*} (turn hop : α → α → Prop) (origin : α → Prop) : Prop :=
  ∀ a, Reached turn hop origin a → ¬ TransGen (Comp turn hop) a a

theorem Walk.unsnoc {α : Type*} {r : α → α → Prop} {k : ℕ} {a c : α} (w : Walk r (k + 1) a c) :
    ∃ b, Walk r k a b ∧ r b c := by
  induction k generalizing a with
  | zero =>
    cases w with
    | cons h w =>
      cases w
      exact ⟨a, .nil a, h⟩
  | succ k ih =>
    cases w with
    | cons h w =>
      obtain ⟨b, hb, hr⟩ := ih w
      exact ⟨b, .cons h hb, hr⟩

theorem Walk.reflTransGen {α : Type*} {r : α → α → Prop} {k : ℕ} {a b : α} (w : Walk r k a b) :
    ReflTransGen r a b := by
  induction w with
  | nil a => exact .refl
  | cons h _ ih => exact .head h ih

section
variable {α : Type*} {turn hop : α → α → Prop} {origin : α → Prop}

theorem Reached.walk {a : α} (h : Reached turn hop origin a) :
    ∃ o c k, origin o ∧ hop o c ∧ Reached turn hop origin c ∧ Walk (Comp turn hop) k c a := by
  induction h with
  | @start o a ho h => exact ⟨o, a, 0, ho, h, .start ho h, .nil a⟩
  | pass _ h ih =>
    obtain ⟨o, c, k, ho, hc, hr, w⟩ := ih
    exact ⟨o, c, k + 1, ho, hc, hr, w.snoc h⟩

/-- A walk that leaves `o` does not arrive at `o`. If it did by the last point that it left,
it would have left that point's class by it, and a shorter walk would do the same. -/
theorem NoReturn.not_back (ht : Joins turn) (hh : Joins hop) (h : NoReturn turn hop origin) {k : ℕ}
    {o a : α} (ha : Reached turn hop origin a) (ho : hop o a) : ¬ Walk (Comp turn hop) k a o := by
  induction k using Nat.strong_induction_on generalizing o a with
  | _ k ih =>
    intro w
    cases k with
    | zero =>
      cases w
      exact hh.irrefl _ ho
    | succ k =>
      obtain ⟨u, hw, v, huv, hvo⟩ := w.unsnoc
      by_cases hva : v = a
      · subst hva
        cases k with
        | zero =>
          cases hw
          exact ht.irrefl _ huv
        | succ k =>
          cases hw with
          | @cons _ _ b _ hab hw =>
            obtain ⟨l, hl, hlb⟩ := hab
            have hb : Reached turn hop origin b := .pass ha ⟨l, hl, hlb⟩
            by_cases hlu : u = l
            · subst hlu
              exact ih k (by omega) hb hlb hw
            · have hub : Comp turn hop u b := ⟨l, ht.trans _ _ _ huv hl hlu, hlb⟩
              exact h b hb (.tail' hw.reflTransGen hub)
      · have hua : Comp turn hop u a := ⟨v, huv, hh.trans _ _ _ hvo ho hva⟩
        exact h a ha (.tail' hw.reflTransGen hua)

theorem NoReturn.not_origin (ht : Joins turn) (hh : Joins hop) (h : NoReturn turn hop origin)
    (hone : ∀ o o', origin o → origin o' → o ≠ o' → turn o o') {o : α} (ho : origin o) :
    ¬ Reached turn hop origin o := by
  intro hr
  obtain ⟨o', a, k, ho', ha, har, w⟩ := hr.walk
  by_cases hoo : o = o'
  · subst hoo
    exact h.not_back ht hh har ha w
  · have hoa : Comp turn hop o a := ⟨o', hone o o' ho ho' hoo, ha⟩
    exact h o hr (.head' hoa w.reflTransGen)

/-- Two walks do not arrive at different points of a class: one of them could go back along
the other to the origins. -/
theorem NoReturn.unique (ht : Joins turn) (hh : Joins hop) (h : NoReturn turn hop origin)
    (hone : ∀ o o', origin o → origin o' → o ≠ o' → turn o o') {a b : α}
    (ha : Reached turn hop origin a) (hb : Reached turn hop origin b) : ¬ turn a b := by
  induction hb generalizing a with
  | @start o b ho hob =>
    intro hab
    have hao : Comp turn hop a o := ⟨b, hab, hh.symm _ _ hob⟩
    exact h.not_origin ht hh hone ho (.pass ha hao)
  | @pass c b _ hcb ih =>
    obtain ⟨l, hcl, hlb⟩ := hcb
    intro hab
    have hal : Comp turn hop a l := ⟨b, hab, hh.symm _ _ hlb⟩
    exact ih (.pass ha hal) (ht.symm _ _ hcl)

end

end NetLab.Lib
