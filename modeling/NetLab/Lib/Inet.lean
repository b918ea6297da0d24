import Mathlib.Data.Nat.Notation
import Mathlib.Tactic.Common

/-! Internet addresses and their dotted decimal text: `inet_ntop` and `inet_pton`. -/
namespace NetLab.Lib

structure InAddr where
  a : UInt8
  b : UInt8
  c : UInt8
  d : UInt8
  deriving DecidableEq, Repr

/-- The ASCII text of a byte, without leading zeros. -/
def octetText (x : UInt8) : List UInt8 :=
  if x < 10 then [48 + x]
  else if x < 100 then [48 + x / 10, 48 + x % 10]
  else [48 + x / 100, 48 + x / 10 % 10, 48 + x % 10]

def ntop (x : InAddr) : List UInt8 :=
  [46].intercalate [octetText x.a, octetText x.b, octetText x.c, octetText x.d]

def octetValue (ds : List UInt8) : ℕ := ds.foldl (fun v d => 10 * v + (d.toNat - 48)) 0

/-- One number of the text: digits only, no leading zero, at most 255. -/
def readOctet (ds : List UInt8) : Option UInt8 :=
  if ds ≠ [] ∧ (ds.all fun d => 48 ≤ d && d ≤ 57) ∧ (ds.head? = some 48 → ds.length = 1) ∧
      octetValue ds ≤ 255 then
    some (.ofNat (octetValue ds))
  else none

/-- Four numbers with a dot between each two, and nothing else. -/
def pton (text : List UInt8) : Option InAddr :=
  match text.splitOn 46 with
  | [a, b, c, d] => do
    let a ← readOctet a
    let b ← readOctet b
    let c ← readOctet c
    let d ← readOctet d
    return ⟨a, b, c, d⟩
  | _ => none

-- `all`, because the quantifier over the text would be decided over all bytes
private theorem octet_spec : ∀ n < 256, readOctet (octetText (.ofNat n)) = some (.ofNat n) ∧
    ((octetText (.ofNat n)).all fun x => x != 46 && x != 0) = true := by
  decide +kernel

theorem octetText_spec (x : UInt8) : readOctet (octetText x) = some x ∧
    ∀ y ∈ octetText x, y ≠ 46 ∧ y ≠ 0 := by
  have h := octet_spec x.toNat x.toNat_lt
  rw [UInt8.ofNat_toNat] at h
  refine ⟨h.1, ?_⟩
  intro y hy
  have hboth := List.all_eq_true.mp h.2 y hy
  simpa using hboth

theorem pton_ntop (x : InAddr) : pton (ntop x) = some x := by
  have hsplit : (ntop x).splitOn 46 = [octetText x.a, octetText x.b, octetText x.c, octetText x.d] := by
    refine List.splitOn_intercalate 46 ?_ (by simp)
    intro ds hds hdot
    simp only [List.mem_cons, List.not_mem_nil, or_false] at hds
    rcases hds with rfl | rfl | rfl | rfl <;> exact ((octetText_spec _).2 46 hdot).1 rfl
  unfold pton
  simp only [hsplit, (octetText_spec _).1, Option.pure_def, Option.bind_eq_bind, Option.bind_some]

theorem ntop_inj {x y : InAddr} (h : ntop x = ntop y) : x = y := by
  have hx := pton_ntop x
  rw [h, pton_ntop y] at hx
  exact (Option.some.inj hx).symm

theorem ne_zero_of_mem_ntop {x : InAddr} {y : UInt8} (h : y ∈ ntop x) : y ≠ 0 := by
  rcases List.mem_flatten.mp h with ⟨ds, hds, hy⟩
  simp only [List.intersperse_cons_cons, List.intersperse_singleton, List.mem_cons, List.not_mem_nil,
    or_false] at hds
  rcases hds with rfl | rfl | rfl | rfl | rfl | rfl | rfl
  all_goals first
    | exact ((octetText_spec _).2 y hy).2
    | (rw [List.mem_singleton.mp hy]; decide)

end NetLab.Lib
