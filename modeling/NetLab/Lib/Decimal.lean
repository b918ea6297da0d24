import Mathlib.Data.Int.Notation
import Mathlib.Data.Nat.Notation
import Mathlib.Tactic.SplitIfs

/-! Decimal text of C integers: `%d` of `sprintf` and of `sscanf`. A number that is read from a
buffer without terminator goes on through the digits that happen to follow. -/
namespace NetLab.Lib

/-- The `int` with these 32 bits. -/
def signed32 (w : ℕ) : ℤ := if w < 2147483648 then w else w - 4294967296

/-- The 32 bits of an `int`. -/
def bits32 (z : ℤ) : ℕ := (z % 4294967296).toNat

def printInt (z : ℤ) : List Char :=
  if z < 0 then '-' :: Nat.toDigits 10 z.natAbs else Nat.toDigits 10 z.natAbs

/-- The C classification, which has two characters more than `Char.isWhitespace`. -/
def isSpace (c : Char) : Bool := c.isWhitespace || c == '\x0b' || c == '\x0c'

def scanDigits (negative : Bool) (cs : List Char) : Option ℤ :=
  let ds := cs.takeWhile Char.isDigit
  let v : ℤ := Nat.ofDigitChars 10 ds 0
  let z := if negative then -v else v
  if ds = [] then none else if -2147483648 ≤ z ∧ z ≤ 2147483647 then some z else none

/-- No value if there is no number, or if it is not in the range of `int`, where `sscanf` is
undefined. -/
def scanInt (cs : List Char) : Option ℤ :=
  match cs.dropWhile isSpace with
  | '-' :: cs => scanDigits true cs
  | '+' :: cs => scanDigits false cs
  | cs => scanDigits false cs

theorem digitChar_of_isDigit {c : Char} (h : c.isDigit = true) :
    c.toNat - 48 < 10 ∧ c = Nat.digitChar (c.toNat - 48) := by
  have hle : 48 ≤ c.toNat ∧ c.toNat ≤ 57 := by
    simpa [Char.isDigit, UInt32.le_iff_toNat_le] using h
  have hlt : c.toNat - 48 < 10 := by omega
  refine ⟨hlt, Char.toNat_inj.mp ?_⟩
  rw [Nat.toNat_digitChar_of_lt_ten hlt]
  omega

theorem toDigits_append {m : ℕ} (hm : 0 < m) {ds : List Char} (hds : ∀ c ∈ ds, c.isDigit = true) :
    Nat.toDigits 10 m ++ ds = Nat.toDigits 10 (Nat.ofDigitChars 10 ds m) := by
  induction ds generalizing m with
  | nil => simp
  | cons c ds ih =>
    obtain ⟨hlt, hc⟩ := digitChar_of_isDigit (hds c (by simp))
    have hone : Nat.toDigits 10 m ++ [c] = Nat.toDigits 10 (10 * m + (c.toNat - 48)) := by
      rw [← Nat.toDigits_append_toDigits (by decide) hm hlt, Nat.toDigits_of_lt_base hlt, ← hc]
    have hpos : 0 < 10 * m + (c.toNat - 48) := by omega
    rw [List.append_cons, hone, ih hpos fun c' hc' => hds c' (by simp [hc']), Nat.ofDigitChars_cons]
    rfl

theorem toDigits_inj {m n : ℕ} (h : Nat.toDigits 10 m = Nat.toDigits 10 n) : m = n := by
  have hval := congrArg (fun cs => Nat.ofDigitChars 10 cs 0) h
  simpa using hval

theorem isDigit_of_mem_toDigits {n : ℕ} {c : Char} (h : c ∈ Nat.toDigits 10 n) :
    c.isDigit = true := Nat.isDigit_of_mem_toDigits (by decide) (by decide) h

theorem isSpace_of_isDigit {c : Char} (h : c.isDigit = true) : isSpace c = false := by
  obtain ⟨hlt, hc⟩ := digitChar_of_isDigit h
  rw [hc]
  generalize c.toNat - 48 = d at hlt
  match d with
  | 0 | 1 | 2 | 3 | 4 | 5 | 6 | 7 | 8 | 9 => rfl
  | d + 10 => omega

theorem scanInt_digit {c : Char} (h : c.isDigit = true) (cs : List Char) :
    scanInt (c :: cs) = scanDigits false (c :: cs) := by
  unfold scanInt
  rw [List.dropWhile_cons_of_neg (by simp [isSpace_of_isDigit h])]
  split
  · rename_i heq
    cases heq
    exact absurd h (by decide)
  · rename_i heq
    cases heq
    exact absurd h (by decide)
  · rfl

/-- The number whose text is that of `z` with these digits behind it. -/
def extended (z : ℤ) (ds : List Char) : ℤ :=
  if z < 0 then -(Nat.ofDigitChars 10 ds z.natAbs : ℤ) else Nat.ofDigitChars 10 ds z.natAbs

theorem le_ofDigitChars (ds : List Char) (k : ℕ) : k ≤ Nat.ofDigitChars 10 ds k := by
  have hpow : 0 < 10 ^ ds.length := Nat.pow_pos (by decide)
  have hmul := Nat.le_mul_of_pos_left k hpow
  rw [Nat.ofDigitChars_eq_ofDigitChars_zero]
  omega

theorem scanDigits_toDigits (negative : Bool) (k : ℕ) (tail : List Char) :
    scanDigits negative (Nat.toDigits 10 k ++ tail) =
      (let v : ℤ := Nat.ofDigitChars 10 (tail.takeWhile Char.isDigit) k
      let z := if negative then -v else v
      if -2147483648 ≤ z ∧ z ≤ 2147483647 then some z else none) := by
  have htake : (Nat.toDigits 10 k ++ tail).takeWhile Char.isDigit =
      Nat.toDigits 10 k ++ tail.takeWhile Char.isDigit :=
    List.takeWhile_append_of_pos fun c hc => isDigit_of_mem_toDigits hc
  have hval : Nat.ofDigitChars 10 (Nat.toDigits 10 k ++ tail.takeWhile Char.isDigit) 0 =
      Nat.ofDigitChars 10 (tail.takeWhile Char.isDigit) k := by
    rw [Nat.ofDigitChars_append, Nat.ofDigitChars_ten_toDigits]
  unfold scanDigits
  simp only [htake, hval, List.append_eq_nil_iff, Nat.toDigits_ne_nil, false_and, if_false]

theorem toDigits_eq_cons (k : ℕ) : ∃ c cs, Nat.toDigits 10 k = c :: cs ∧ c.isDigit = true := by
  obtain ⟨c, cs, hcs⟩ := List.exists_cons_of_ne_nil (Nat.toDigits_ne_nil (n := k) (b := 10))
  refine ⟨c, cs, hcs, ?_⟩
  apply isDigit_of_mem_toDigits (n := k)
  rw [hcs]
  exact List.mem_cons_self

theorem scanInt_printInt (z : ℤ) (tail : List Char) :
    scanInt (printInt z ++ tail) =
      (let v := extended z (tail.takeWhile Char.isDigit)
      if -2147483648 ≤ v ∧ v ≤ 2147483647 then some v else none) := by
  unfold printInt extended
  split_ifs with hneg
  · have hminus : scanInt ('-' :: Nat.toDigits 10 z.natAbs ++ tail) =
        scanDigits true (Nat.toDigits 10 z.natAbs ++ tail) := rfl
    rw [hminus, scanDigits_toDigits]
    rfl
  · have hfirst : scanInt (Nat.toDigits 10 z.natAbs ++ tail) =
        scanDigits false (Nat.toDigits 10 z.natAbs ++ tail) := by
      obtain ⟨c, cs, hcs, hc⟩ := toDigits_eq_cons z.natAbs
      rw [hcs]
      exact scanInt_digit hc (cs ++ tail)
    rw [hfirst, scanDigits_toDigits]
    rfl

/-- Where a number is followed by `tail`, `sscanf` reads `p` if and only if the number and the
digits at the start of `tail` are together the decimal text of `p`. -/
theorem scanInt_printInt_append {z : ℤ} (hz : z ≠ 0) (tail : List Char) {p : ℕ}
    (hp : p ≤ 2147483647) :
    scanInt (printInt z ++ tail) = some (p : ℤ) ↔
      printInt z ++ tail.takeWhile Char.isDigit = printInt p := by
  have hprint : printInt p = Nat.toDigits 10 p := by simp [printInt]
  have hk : 0 < z.natAbs := by omega
  have hle := le_ofDigitChars (tail.takeWhile Char.isDigit) z.natAbs
  have hdigits : ∀ c ∈ tail.takeWhile Char.isDigit, c.isDigit = true :=
    fun c hc => List.all_eq_true.mp List.all_takeWhile c hc
  rw [hprint, scanInt_printInt]
  unfold printInt extended
  simp only [Option.ite_none_right_eq_some, Option.some.injEq]
  split_ifs with hneg
  · -- a minus sign is read as such, and is not the start of a text of `p`
    constructor
    · intro h
      omega
    · intro h
      have hmem : '-' ∈ Nat.toDigits 10 p := by
        rw [← h]
        simp
      exact absurd (isDigit_of_mem_toDigits hmem) (by decide)
  · rw [toDigits_append hk hdigits]
    constructor
    · intro h
      rw [Int.ofNat_inj.mp h.2]
    · intro h
      have hvp := toDigits_inj h
      omega

theorem eq_zero_of_digitChar_zero {c : Char} (h : c.isDigit = true) (hc : c.toNat - 48 = 0) :
    c = '0' := by
  obtain ⟨_, heq⟩ := digitChar_of_isDigit h
  rw [heq, hc]
  rfl

/-- Digits change the number in front of them, except zeros behind zero. -/
theorem ofDigitChars_eq_iff {ds : List Char} (hds : ∀ c ∈ ds, c.isDigit = true) (k : ℕ) :
    Nat.ofDigitChars 10 ds k = k ↔ ∀ c ∈ ds, k = 0 ∧ c = '0' := by
  induction ds with
  | nil => simp
  | cons c ds ih =>
    have hd : c.isDigit = true := hds c List.mem_cons_self
    have htail : ∀ c' ∈ ds, c'.isDigit = true := fun c' hc' => hds c' (List.mem_cons_of_mem _ hc')
    have hle := le_ofDigitChars ds (10 * k + (c.toNat - 48))
    rw [Nat.ofDigitChars_cons, List.forall_mem_cons]
    constructor
    · intro h
      have hzero : k = 0 ∧ c.toNat - 48 = 0 := by
        have hle' : 10 * k + (c.toNat - 48) ≤ k := le_of_le_of_eq hle h
        omega
      obtain ⟨rfl, hc⟩ := hzero
      refine ⟨⟨rfl, eq_zero_of_digitChar_zero hd hc⟩, (ih htail).mp ?_⟩
      simpa [hc] using h
    · rintro ⟨⟨rfl, rfl⟩, hrest⟩
      exact (ih htail).mpr hrest

theorem extended_eq_iff {ds : List Char} (hds : ∀ c ∈ ds, c.isDigit = true) (z : ℤ) :
    extended z ds = z ↔ ∀ c ∈ ds, z = 0 ∧ c = '0' := by
  have hiff := ofDigitChars_eq_iff hds z.natAbs
  rw [Int.natAbs_eq_zero] at hiff
  rw [← hiff]
  unfold extended
  split_ifs <;> omega

/-- Two lists of digits make the same number behind `z`: they are equal, zeros behind a 0 apart. -/
def SameDigits (z : ℤ) (ds ds' : List Char) : Prop :=
  if z = 0 then ds.dropWhile (· == '0') = ds'.dropWhile (· == '0') else ds = ds'

instance (z : ℤ) (ds ds' : List Char) : Decidable (SameDigits z ds ds') :=
  inferInstanceAs (Decidable (ite _ _ _))

theorem ofDigitChars_inj {k : ℕ} (hk : 0 < k) {ds ds' : List Char}
    (hds : ∀ c ∈ ds, c.isDigit = true) (hds' : ∀ c ∈ ds', c.isDigit = true) :
    Nat.ofDigitChars 10 ds k = Nat.ofDigitChars 10 ds' k ↔ ds = ds' := by
  constructor
  · intro h
    have happend := congrArg (Nat.toDigits 10) h
    rw [← toDigits_append hk hds, ← toDigits_append hk hds'] at happend
    exact List.append_cancel_left happend
  · rintro rfl
    rfl

/-- Zeros in front of a number do not count, and behind them its digits are determined. -/
theorem toDigits_ofDigitChars_zero {ds : List Char} (hds : ∀ c ∈ ds, c.isDigit = true) :
    (if Nat.ofDigitChars 10 ds 0 = 0 then [] else Nat.toDigits 10 (Nat.ofDigitChars 10 ds 0)) =
      ds.dropWhile (· == '0') := by
  induction ds with
  | nil => rfl
  | cons c ds ih =>
    have htail : ∀ c' ∈ ds, c'.isDigit = true := fun c' hc' => hds c' (List.mem_cons_of_mem _ hc')
    obtain ⟨hlt, hc⟩ := digitChar_of_isDigit (hds c List.mem_cons_self)
    by_cases hzero : c = '0'
    · subst hzero
      exact ih htail
    · have hpos : 0 < c.toNat - 48 := by
        rcases Nat.eq_zero_or_pos (c.toNat - 48) with hc0 | hpos
        · exact absurd (eq_zero_of_digitChar_zero (hds c List.mem_cons_self) hc0) hzero
        · exact hpos
      have hvalue : Nat.ofDigitChars 10 (c :: ds) 0 = Nat.ofDigitChars 10 ds (c.toNat - 48) := by
        rw [Nat.ofDigitChars_cons, Nat.mul_zero, Nat.zero_add]
        rfl
      have hle := le_ofDigitChars ds (c.toNat - 48)
      have hne : Nat.ofDigitChars 10 ds (c.toNat - 48) ≠ 0 := by omega
      rw [hvalue, if_neg hne, ← toDigits_append hpos htail, Nat.toDigits_of_lt_base hlt, ← hc,
        List.dropWhile_cons_of_neg (by simpa using hzero)]
      rfl

theorem extended_eq_extended_iff {ds ds' : List Char} (hds : ∀ c ∈ ds, c.isDigit = true)
    (hds' : ∀ c ∈ ds', c.isDigit = true) (z : ℤ) :
    extended z ds = extended z ds' ↔ SameDigits z ds ds' := by
  have hvalue : extended z ds = extended z ds' ↔
      Nat.ofDigitChars 10 ds z.natAbs = Nat.ofDigitChars 10 ds' z.natAbs := by
    unfold extended
    split_ifs <;> omega
  rw [hvalue]
  unfold SameDigits
  split_ifs with hz
  · subst hz
    rw [← toDigits_ofDigitChars_zero hds, ← toDigits_ofDigitChars_zero hds']
    constructor
    · intro h
      rw [show Nat.ofDigitChars 10 ds 0 = Nat.ofDigitChars 10 ds' 0 from h]
    · intro h
      split_ifs at h with h0 h0' h0'
      · exact h0.trans h0'.symm
      · exact absurd h.symm (Nat.toDigits_ne_nil)
      · exact absurd h (Nat.toDigits_ne_nil)
      · exact toDigits_inj h
  · exact ofDigitChars_inj (by omega) hds hds'

theorem scanDigits_range {negative : Bool} {cs : List Char} {z : ℤ}
    (h : scanDigits negative cs = some z) : -2147483648 ≤ z ∧ z ≤ 2147483647 := by
  unfold scanDigits at h
  simp only [Option.ite_none_left_eq_some, Option.ite_none_right_eq_some, Option.some.injEq] at h
  obtain ⟨_, hrange, rfl⟩ := h
  exact hrange

theorem scanInt_range {cs : List Char} {z : ℤ} (h : scanInt cs = some z) :
    -2147483648 ≤ z ∧ z ≤ 2147483647 := by
  unfold scanInt at h
  split at h <;> exact scanDigits_range h

theorem bits32_lt (z : ℤ) : bits32 z < 4294967296 := by
  unfold bits32
  omega

theorem signed32_ne_zero {w : ℕ} (hw : w ≠ 0) (hlt : w < 4294967296) : signed32 w ≠ 0 := by
  unfold signed32
  split_ifs <;> omega

theorem bits32_eq_iff {z : ℤ} (hz : -2147483648 ≤ z ∧ z ≤ 2147483647) {p : ℕ}
    (hp : p ≤ 2147483647) : bits32 z = p ↔ z = p := by
  unfold bits32
  omega

end NetLab.Lib
