import Mathlib.Data.List.Forall2
import Mathlib.Data.List.TakeWhile
import NetLab.Lib.Decimal

/-! `sprintf` and `sscanf` with a format of words and decimal numbers that has one blank between
its conversions, and which texts of `sprintf` are read back by `sscanf`. -/
namespace NetLab.Lib

/-- The string at an address: the memory up to the first NUL. -/
def cString (memory : List Char) : List Char := memory.takeWhile (· != '\x00')

/-- `%s` with an array of `size` bytes, or `%d`. -/
inductive Conv where
  | str (size : ℕ)
  | int
  deriving DecidableEq, Repr

inductive Value where
  | str (word : List Char)
  | int (z : ℤ)
  deriving DecidableEq, Repr

def Value.print : Value → List Char
  | .str w => w
  | .int z => printInt z

def Value.word? : Value → Option (List Char)
  | .str w => some w
  | .int _ => none

def Value.number? : Value → Option ℤ
  | .str _ => none
  | .int z => some z

def sprintf : List Value → List Char
  | [] => []
  | [v] => v.print
  | v :: vs => v.print ++ ' ' :: sprintf vs

/-- The text behind white space and one sign. -/
def skipSign (cs : List Char) : List Char :=
  match cs.dropWhile isSpace with
  | '-' :: cs => cs
  | '+' :: cs => cs
  | cs => cs

/-- What a conversion does: it does not match, or it reads a value and leaves the text behind.
No result stands for undefined behaviour. -/
abbrev Scanned := Option (Option (Value × List Char))

/-- Undefined where the array cannot hold the word. -/
def scanStr (size : ℕ) (cs : List Char) : Scanned :=
  let w := (cs.dropWhile isSpace).takeWhile fun c => !isSpace c
  let rest := (cs.dropWhile isSpace).dropWhile fun c => !isSpace c
  if w = [] then some none else if w.length < size then some (some (.str w, rest)) else none

/-- Undefined where the number is not in the range of `int`. -/
def scanNumber (cs : List Char) : Scanned :=
  let ds := (skipSign cs).takeWhile Char.isDigit
  let rest := (skipSign cs).dropWhile Char.isDigit
  if ds = [] then some none else (scanInt cs).map fun z => some (.int z, rest)

def Conv.scan : Conv → List Char → Scanned
  | .str size => scanStr size
  | .int => scanNumber

/-- The values that `sscanf` assigns: those before the first conversion without a match. The
blanks of the format skip white space, as the conversions behind them do anyway. -/
def sscanf : List Conv → List Char → Option (List Value)
  | [], _ => some []
  | c :: cs, text => (c.scan text).bind fun
    | none => some []
    | some (v, rest) => (sscanf cs rest).map (v :: ·)

/-- What `%s` reads. -/
def IsWord (w : List Char) : Prop := w ≠ [] ∧ ∀ c ∈ w, isSpace c = false

def IsInt (z : ℤ) : Prop := -2147483648 ≤ z ∧ z ≤ 2147483647

/-- The values that a conversion reads back. -/
def Conv.Fits : Conv → Value → Prop
  | .str size, .str w => IsWord w ∧ w.length < size
  | .int, .int z => IsInt z
  | _, _ => False

/-- The memory behind a text that ends with `z` does not go on with a digit that changes `z`. -/
def Unextended (z : ℤ) (tail : List Char) : Prop :=
  ∀ c ∈ tail.takeWhile Char.isDigit, z = 0 ∧ c = '0'

/-- What memory holds behind two copies of a text that ends with `z` makes the same `int` of it. -/
def SameNumber (z : ℤ) (tail tail' : List Char) : Prop :=
  SameDigits z (tail.takeWhile Char.isDigit) (tail'.takeWhile Char.isDigit) ∧
    IsInt (extended z (tail.takeWhile Char.isDigit))

-- over the list, and not over all characters
instance (w : List Char) : Decidable (IsWord w) :=
  @instDecidableAnd _ _ _ (List.decidableBAll _ w)

instance (z : ℤ) : Decidable (IsInt z) := inferInstanceAs (Decidable (_ ∧ _))

instance (z : ℤ) (tail : List Char) : Decidable (Unextended z tail) :=
  List.decidableBAll _ (tail.takeWhile Char.isDigit)

instance (z : ℤ) (tail tail' : List Char) : Decidable (SameNumber z tail tail') :=
  inferInstanceAs (Decidable (_ ∧ _))

theorem cString_append {text : List Char} (h : '\x00' ∉ text) (tail : List Char) :
    cString (text ++ tail) = text ++ cString tail := by
  apply List.takeWhile_append_of_pos
  intro c hc
  have hne : c ≠ '\x00' := fun he => h (he ▸ hc)
  simpa using hne

theorem takeWhile_isDigit_cString (tail : List Char) :
    (cString tail).takeWhile Char.isDigit = tail.takeWhile Char.isDigit := by
  unfold cString
  rw [List.takeWhile_takeWhile]
  congr 1
  funext c
  by_cases hc : c = '\x00'
  · rw [hc]
    decide
  · simp [hc]

@[simp] theorem unextended_cString {z : ℤ} {tail : List Char} :
    Unextended z (cString tail) ↔ Unextended z tail := by
  unfold Unextended
  rw [takeWhile_isDigit_cString]

@[simp] theorem sameNumber_cString {z : ℤ} {tail tail' : List Char} :
    SameNumber z (cString tail) (cString tail') ↔ SameNumber z tail tail' := by
  unfold SameNumber
  rw [takeWhile_isDigit_cString, takeWhile_isDigit_cString]

theorem sprintf_cons {v v' : Value} {vs : List Value} :
    sprintf (v :: v' :: vs) = v.print ++ ' ' :: sprintf (v' :: vs) := rfl

theorem mem_sprintf {v : Value} {vs : List Value} {c : Char} (hv : v ∈ vs) (hc : c ∈ v.print) :
    c ∈ sprintf vs := by
  induction vs with
  | nil => exact absurd hv List.not_mem_nil
  | cons u us ih =>
    cases us with
    | nil =>
      rw [List.mem_singleton.mp hv] at hc
      exact hc
    | cons u' us =>
      rw [sprintf_cons, List.mem_append, List.mem_cons]
      rcases List.mem_cons.mp hv with rfl | hv
      · exact .inl hc
      · exact .inr (.inr (ih hv))

theorem exists_not_isSpace_printInt (z : ℤ) : ∃ c ∈ printInt z, isSpace c = false := by
  obtain ⟨c, cs, hcs, hc⟩ := toDigits_eq_cons z.natAbs
  refine ⟨c, ?_, isSpace_of_isDigit hc⟩
  unfold printInt
  rw [hcs]
  split_ifs <;> simp

theorem nul_not_mem_printInt (z : ℤ) : '\x00' ∉ printInt z := by
  have hdigits : '\x00' ∉ Nat.toDigits 10 z.natAbs := by
    intro h
    exact absurd (isDigit_of_mem_toDigits h) (by decide)
  unfold printInt
  split_ifs
  · simpa using hdigits
  · exact hdigits

theorem nul_not_mem_sprintf {vs : List Value} (h : ∀ w, .str w ∈ vs → '\x00' ∉ w) :
    '\x00' ∉ sprintf vs := by
  have hprint : ∀ v ∈ vs, '\x00' ∉ v.print := by
    intro v hv
    cases v with
    | str w => exact h w hv
    | int z => exact nul_not_mem_printInt z
  clear h
  induction vs with
  | nil => exact List.not_mem_nil
  | cons v vs ih =>
    have hv : '\x00' ∉ v.print := hprint v List.mem_cons_self
    have hvs := ih fun v' hv' => hprint v' (List.mem_cons_of_mem v hv')
    cases vs with
    | nil => exact hv
    | cons v' vs =>
      rw [sprintf_cons, List.mem_append, List.mem_cons]
      rintro (hmem | hmem | hmem)
      · exact hv hmem
      · exact absurd hmem (by decide)
      · exact hvs hmem

theorem skipSign_digit {c : Char} (h : c.isDigit = true) (cs : List Char) :
    skipSign (c :: cs) = c :: cs := by
  unfold skipSign
  rw [List.dropWhile_cons_of_neg (by simp [isSpace_of_isDigit h])]
  split
  · rename_i heq
    cases heq
    exact absurd h (by decide)
  · rename_i heq
    cases heq
    exact absurd h (by decide)
  · rfl

theorem skipSign_printInt (z : ℤ) (tail : List Char) :
    skipSign (printInt z ++ tail) = Nat.toDigits 10 z.natAbs ++ tail := by
  unfold printInt
  split_ifs with hneg
  · rfl
  · obtain ⟨c, cs, hcs, hc⟩ := toDigits_eq_cons z.natAbs
    rw [hcs]
    exact skipSign_digit hc (cs ++ tail)

theorem scanNumber_printInt (z : ℤ) (tail : List Char) :
    scanNumber (printInt z ++ tail) =
      (let v := extended z (tail.takeWhile Char.isDigit)
      if IsInt v then some (some (.int v, tail.dropWhile Char.isDigit)) else none) := by
  have hdigits : ∀ c ∈ Nat.toDigits 10 z.natAbs, c.isDigit = true :=
    fun c hc => isDigit_of_mem_toDigits hc
  have hmatch : (Nat.toDigits 10 z.natAbs ++ tail).takeWhile Char.isDigit ≠ [] := by
    rw [List.takeWhile_append_of_pos hdigits]
    simp
  unfold scanNumber
  rw [skipSign_printInt, List.dropWhile_append_of_pos hdigits, scanInt_printInt]
  dsimp only
  rw [if_neg hmatch]
  by_cases hv : IsInt (extended z (tail.takeWhile Char.isDigit))
  · rw [if_pos hv]
    exact congrArg (Option.map _) (if_pos hv)
  · rw [if_neg hv]
    exact congrArg (Option.map _) (if_neg hv)

theorem scanStr_word {w : List Char} (hw : IsWord w) (size : ℕ) (tail : List Char) :
    scanStr size (w ++ ' ' :: tail) =
      if w.length < size then some (some (.str w, ' ' :: tail)) else none := by
  have hstart : (w ++ ' ' :: tail).dropWhile isSpace = w ++ ' ' :: tail := by
    obtain ⟨c, cs, rfl⟩ := List.exists_cons_of_ne_nil hw.1
    have hc := hw.2 c List.mem_cons_self
    exact List.dropWhile_cons_of_neg (by simp [hc])
  have hall : ∀ c ∈ w, (!isSpace c) = true := fun c hc => by simp [hw.2 c hc]
  have htake : (w ++ ' ' :: tail).takeWhile (fun c => !isSpace c) = w := by
    rw [List.takeWhile_append_of_pos hall, List.takeWhile_cons_of_neg (by decide), List.append_nil]
  have hdrop : (w ++ ' ' :: tail).dropWhile (fun c => !isSpace c) = ' ' :: tail := by
    rw [List.dropWhile_append_of_pos hall, List.dropWhile_cons_of_neg (by decide)]
  unfold scanStr
  simp only [hstart, htake, hdrop, if_neg hw.1]

/-- White space in front of a conversion is skipped. -/
@[simp] theorem Conv.scan_blank (c : Conv) (text : List Char) :
    c.scan (' ' :: text) = c.scan text := by
  cases c <;> rfl

theorem sscanf_cons (c : Conv) (cs : List Conv) (text : List Char) :
    sscanf (c :: cs) text = (c.scan text).bind fun
      | none => some []
      | some (v, rest) => (sscanf cs rest).map (v :: ·) := rfl

theorem sscanf_blank (cs : List Conv) {text : List Char} (hcs : cs ≠ []) :
    sscanf cs (' ' :: text) = sscanf cs text := by
  cases cs with
  | nil => exact absurd rfl hcs
  | cons c cs =>
    rw [sscanf_cons, Conv.scan_blank, sscanf_cons]

theorem Conv.scan_print {c : Conv} {v : Value} (h : c.Fits v) (tail : List Char) :
    c.scan (v.print ++ ' ' :: tail) = some (some (v, ' ' :: tail)) := by
  cases c with
  | str size =>
    cases v with
    | str w => exact (scanStr_word h.1 size tail).trans (if_pos h.2)
    | int z => exact absurd h id
  | int =>
    cases v with
    | str w => exact absurd h id
    | int z =>
      have hdigits : (' ' :: tail).takeWhile Char.isDigit = [] :=
        List.takeWhile_cons_of_neg (by decide)
      have hvalue : extended z [] = z := (extended_eq_iff (by simp) z).mpr (by simp)
      have hrest : (' ' :: tail).dropWhile Char.isDigit = ' ' :: tail :=
        List.dropWhile_cons_of_neg (by decide)
      refine (scanNumber_printInt z (' ' :: tail)).trans ?_
      rw [hdigits, hvalue, hrest]
      exact if_pos h

theorem sscanf_sprintf_append {cs cs' : List Conv} {vs : List Value}
    (h : List.Forall₂ Conv.Fits cs vs) (hcs' : cs' ≠ []) {v : Value} {vs' : List Value} (tail : List Char) :
    sscanf (cs ++ cs') (sprintf (vs ++ v :: vs') ++ tail) =
      (sscanf cs' (sprintf (v :: vs') ++ tail)).map (vs ++ ·) := by
  induction h with
  | nil => simp
  | @cons c u cs us hc _ ih =>
    have hne : cs ++ cs' ≠ [] := by simp [hcs']
    have hprint : sprintf (u :: (us ++ v :: vs')) = u.print ++ ' ' :: sprintf (us ++ v :: vs') := by
      cases us <;> rfl
    rw [List.cons_append, List.cons_append, hprint, List.append_assoc, List.cons_append,
      sscanf_cons, Conv.scan_print hc, Option.bind_some]
    dsimp only
    rw [sscanf_blank _ hne, ih, Option.map_map]
    rfl

theorem scanStr_isWord {size : ℕ} {text rest : List Char} {v : Value}
    (h : scanStr size text = some (some (v, rest))) : ∃ w, v = .str w ∧ IsWord w := by
  unfold scanStr at h
  dsimp only at h
  split_ifs at h with hnil hlen
  · cases h
  · cases h
    refine ⟨_, rfl, hnil, ?_⟩
    intro c hc
    simpa using List.mem_takeWhile_imp hc

theorem sscanf_str {size : ℕ} {cs : List Conv} {text : List Char} {vs : List Value}
    (h : sscanf (.str size :: cs) text = some vs) (hc : ∃ c ∈ text, isSpace c = false) :
    ∃ w ws, vs = .str w :: ws ∧ IsWord w := by
  have hmatch : (text.dropWhile isSpace).takeWhile (fun c => !isSpace c) ≠ [] := by
    intro hnil
    obtain ⟨c, hmem, hspace⟩ := hc
    have hdrop : text.dropWhile isSpace ≠ [] := by
      intro hall
      rw [List.dropWhile_eq_nil_iff] at hall
      exact absurd (hall c hmem) (by simp [hspace])
    have hhead := List.head_dropWhile_not isSpace hdrop
    obtain ⟨d, ds, hds⟩ := List.exists_cons_of_ne_nil hdrop
    simp only [hds, List.head_cons] at hhead
    rw [hds, List.takeWhile_cons_of_pos (by simp [hhead])] at hnil
    exact List.cons_ne_nil _ _ hnil
  rw [sscanf_cons] at h
  obtain ⟨r, hr, h⟩ := Option.bind_eq_some_iff.mp h
  cases r with
  | none =>
    simp only [Conv.scan, scanStr, if_neg hmatch] at hr
    split_ifs at hr
    cases hr
  | some p =>
    obtain ⟨v, rest⟩ := p
    obtain ⟨ws, _, rfl⟩ := Option.map_eq_some_iff.mp h
    obtain ⟨w, rfl, hw⟩ := scanStr_isWord hr
    exact ⟨w, ws, rfl, hw⟩

theorem extended_takeWhile_eq_iff (z : ℤ) (tail : List Char) :
    extended z (tail.takeWhile Char.isDigit) = z ↔ Unextended z tail :=
  extended_eq_iff (fun _ hc => List.mem_takeWhile_imp hc) z

theorem sscanf_last {cs : List Conv} {vs : List Value} (h : List.Forall₂ Conv.Fits cs vs) (z : ℤ)
    (tail : List Char) :
    sscanf (cs ++ [Conv.int]) (sprintf (vs ++ [Value.int z]) ++ tail) =
      (let v := extended z (tail.takeWhile Char.isDigit)
      if IsInt v then some (vs ++ [Value.int v]) else none) := by
  have hlast : sscanf [.int] (sprintf [.int z] ++ tail) =
      (let v := extended z (tail.takeWhile Char.isDigit)
      if IsInt v then some [.int v] else none) := by
    have hscan : Conv.int.scan = scanNumber := rfl
    have hprint : sprintf [.int z] = printInt z := rfl
    rw [sscanf_cons, hscan, hprint, scanNumber_printInt]
    dsimp only
    split_ifs <;> rfl
  rw [sscanf_sprintf_append h (by simp), hlast]
  dsimp only
  split_ifs <;> rfl

theorem sscanf_last_eq {cs : List Conv} {vs us : List Value} (h : List.Forall₂ Conv.Fits cs vs)
    {z : ℤ} {tail : List Char}
    (hread : sscanf (cs ++ [Conv.int]) (sprintf (vs ++ [Value.int z]) ++ tail) = some us) :
    us = vs ++ [Value.int (extended z (tail.takeWhile Char.isDigit))] := by
  rw [sscanf_last h] at hread
  exact (Option.some.inj (Option.ite_none_right_eq_some.mp hread).2).symm

/-- The round trip of a text that ends with a number: every other field fits its conversion, and
the memory behind the text does not go on with the number. -/
theorem sscanf_sprintf_iff {cs : List Conv} {vs : List Value} (h : List.Forall₂ Conv.Fits cs vs)
    {z : ℤ} (hz : IsInt z) (tail : List Char) :
    sscanf (cs ++ [Conv.int]) (sprintf (vs ++ [Value.int z]) ++ tail) = some (vs ++ [Value.int z]) ↔
      Unextended z tail := by
  rw [sscanf_last h, ← extended_takeWhile_eq_iff]
  dsimp only
  constructor
  · intro hread
    simpa using (Option.ite_none_right_eq_some.mp hread).2
  · intro hkeep
    rw [hkeep]
    exact if_pos hz

/-- Two copies of a text that ends with a number are read with the same result, where the reader
makes of the values something that depends on the last one. -/
theorem sscanf_same_iff {α : Type*} {cs : List Conv} {vs : List Value}
    (h : List.Forall₂ Conv.Fits cs vs) {assign assign' : List Value → α}
    (hassign : ∀ v v', assign (vs ++ [Value.int v]) = assign' (vs ++ [Value.int v']) ↔ v = v')
    (z : ℤ) (tail tail' : List Char) :
    (∃ r, (sscanf (cs ++ [Conv.int]) (sprintf (vs ++ [Value.int z]) ++ tail)).map assign = some r ∧
        (sscanf (cs ++ [Conv.int]) (sprintf (vs ++ [Value.int z]) ++ tail')).map assign' = some r) ↔
      SameNumber z tail tail' := by
  have hdigits : ∀ text : List Char, ∀ c ∈ text.takeWhile Char.isDigit, c.isDigit = true :=
    fun _ _ hc => List.mem_takeWhile_imp hc
  unfold SameNumber
  rw [← extended_eq_extended_iff (hdigits tail) (hdigits tail')]
  constructor
  · rintro ⟨r, hread, hread'⟩
    obtain ⟨us, hus, hr⟩ := Option.map_eq_some_iff.mp hread
    obtain ⟨us', hus', hr'⟩ := Option.map_eq_some_iff.mp hread'
    have heq := hr.trans hr'.symm
    rw [sscanf_last_eq h hus, sscanf_last_eq h hus', hassign] at heq
    rw [sscanf_last h] at hus
    exact ⟨heq, (Option.ite_none_right_eq_some.mp hus).1⟩
  · rintro ⟨heq, hrange⟩
    have hread : ∀ text : List Char,
        extended z (tail.takeWhile Char.isDigit) = extended z (text.takeWhile Char.isDigit) →
        sscanf (cs ++ [Conv.int]) (sprintf (vs ++ [Value.int z]) ++ text) =
          some (vs ++ [Value.int (extended z (tail.takeWhile Char.isDigit))]) := by
      intro text htext
      rw [sscanf_last h, ← htext]
      exact if_pos hrange
    refine ⟨assign (vs ++ [Value.int (extended z (tail.takeWhile Char.isDigit))]), ?_, ?_⟩
    · rw [hread tail rfl]
      rfl
    · rw [hread tail' heq]
      exact congrArg some ((hassign _ _).mpr rfl).symm

end NetLab.Lib
