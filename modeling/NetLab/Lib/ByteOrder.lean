import Mathlib.Data.Int.Notation
import Mathlib.Data.Nat.Notation
import Mathlib.Tactic.Common

/-! Conversion of 16- and 32-bit words between host and network byte order, and the bytes of a
word in network order. -/
namespace NetLab.Lib

inductive ByteOrder where
  | big
  | little
  deriving DecidableEq, Repr

def swap16 (w : ℕ) : ℕ := w % 256 * 256 + w / 256 % 256

def swap32 (w : ℕ) : ℕ :=
  w % 256 * 16777216 + w / 256 % 256 * 65536 + w / 65536 % 256 * 256 + w / 16777216 % 256

/-- Network order is big endian, so only a little-endian host swaps. -/
def ByteOrder.htons (o : ByteOrder) (w : ℕ) : ℕ :=
  match o with
  | .big => w % 65536
  | .little => swap16 w

def ByteOrder.htonl (o : ByteOrder) (w : ℕ) : ℕ :=
  match o with
  | .big => w % 4294967296
  | .little => swap32 w

def ByteOrder.ntohs (o : ByteOrder) (w : ℕ) : ℕ := o.htons w

def ByteOrder.ntohl (o : ByteOrder) (w : ℕ) : ℕ := o.htonl w

/-- A 32-bit word in the memory of the sender, as the receiver reads it. -/
def ByteOrder.view (sender receiver : ByteOrder) (w : ℕ) : ℕ :=
  if sender = receiver then w else swap32 w

theorem swap16_bytes {a b : ℕ} (ha : a < 256) (hb : b < 256) : swap16 (a * 256 + b) = b * 256 + a := by
  unfold swap16
  omega

theorem swap16_mod (w : ℕ) : swap16 (w % 65536) = swap16 w := by
  unfold swap16
  omega

theorem swap16_swap16 (w : ℕ) : swap16 (swap16 w) = w % 65536 := by
  have hswap := swap16_bytes (Nat.mod_lt w (by decide)) (Nat.mod_lt (w / 256) (by decide))
  have hbytes : w / 256 % 256 * 256 + w % 256 = w % 65536 := by omega
  exact hswap.trans hbytes

theorem swap32_lt (w : ℕ) : swap32 w < 4294967296 := by
  unfold swap32
  omega

theorem swap32_bytes {a b c d : ℕ} (ha : a < 256) (hb : b < 256) (hc : c < 256) (hd : d < 256) :
    swap32 (a * 16777216 + b * 65536 + c * 256 + d) =
      d * 16777216 + c * 65536 + b * 256 + a := by
  unfold swap32
  omega

theorem swap32_swap32 (w : ℕ) : swap32 (swap32 w) = w % 4294967296 := by
  have hswap := swap32_bytes (Nat.mod_lt w (by decide)) (Nat.mod_lt (w / 256) (by decide))
    (Nat.mod_lt (w / 65536) (by decide)) (Nat.mod_lt (w / 16777216) (by decide))
  have hbytes : w / 16777216 % 256 * 16777216 + w / 65536 % 256 * 65536 + w / 256 % 256 * 256 +
      w % 256 = w % 4294967296 := by omega
  exact hswap.trans hbytes

theorem ByteOrder.ntohl_htonl (o : ByteOrder) (w : ℕ) : o.ntohl (o.htonl w) = w % 4294967296 := by
  cases o with
  | big => exact Nat.mod_mod _ _
  | little => exact swap32_swap32 w

theorem ByteOrder.htonl_lt (o : ByteOrder) (w : ℕ) : o.htonl w < 4294967296 := by
  cases o with
  | big => exact Nat.mod_lt _ (by decide)
  | little => exact swap32_lt w

theorem ByteOrder.htons_lt (o : ByteOrder) (w : ℕ) : o.htons w < 65536 := by
  cases o with
  | big => exact Nat.mod_lt _ (by decide)
  | little =>
    simp only [htons, swap16]
    omega

theorem ByteOrder.htonl_ne_zero (o : ByteOrder) {w : ℕ} (hw : w ≠ 0) (hlt : w < 4294967296) :
    o.htonl w ≠ 0 := by
  intro hzero
  have hback := o.ntohl_htonl w
  have hread : o.ntohl 0 = 0 := by cases o <;> rfl
  rw [hzero, hread] at hback
  omega

theorem ByteOrder.htons_byte (o : ByteOrder) {w : ℕ} (hw : w < 256) :
    o.htons w = match o with
      | .big => w
      | .little => w * 256 := by
  cases o with
  | big => exact Nat.mod_eq_of_lt (by omega)
  | little =>
    simp only [htons, swap16, Nat.mod_eq_of_lt hw, Nat.div_eq_of_lt hw]
    omega

theorem ByteOrder.htons_sub (o : ByteOrder) {v w : ℕ} (hvw : v ≤ w) (hw : w < 256) :
    (o.htons w : ℤ) - o.htons v = o.htons (w - v) := by
  have hv : v < 256 := Nat.lt_of_le_of_lt hvw hw
  have hsub : w - v < 256 := Nat.lt_of_le_of_lt (Nat.sub_le w v) hw
  rw [o.htons_byte hw, o.htons_byte hv, o.htons_byte hsub]
  cases o with
  | big => exact (Int.ofNat_sub hvw).symm
  | little =>
    dsimp only
    omega

/-- A 16-bit number read from a 32-bit word is the low half of the word, or the high half between
hosts of different orders. -/
theorem ByteOrder.ntohs_view (o o' : ByteOrder) (x : ℕ) :
    o'.ntohs (o.view o' x) = o.ntohs (if o = o' then x else x / 65536) := by
  have hhigh : swap32 x % 65536 = swap16 (x / 65536) := by
    have hdiv : x / 16777216 = x / 65536 / 256 := (Nat.div_div_eq_div_mul x 65536 256).symm
    unfold swap32 swap16
    rw [hdiv]
    omega
  have hback : swap16 (swap32 x) = x / 65536 % 65536 := by
    rw [← swap16_mod, hhigh, swap16_swap16]
  cases o with
  | big =>
    cases o' with
    | big => rfl
    | little =>
      simpa only [view, reduceCtorEq, if_false, ntohs, htons] using hback
  | little =>
    cases o' with
    | big =>
      simpa only [view, reduceCtorEq, if_false, ntohs, htons] using hhigh
    | little => rfl

theorem ByteOrder.ntohs_view_htons_le (o o' : ByteOrder) {w : ℕ} (hw : w < 256) :
    o'.ntohs (o.view o' (o.htons w)) ≤ w := by
  rw [o.ntohs_view o', o.htons_byte hw]
  cases o with
  | big =>
    simp only [ntohs, htons]
    split_ifs <;> omega
  | little =>
    simp only [ntohs, htons, swap16]
    split_ifs <;> omega

theorem sub_word {a b : ℕ} (ha : a < 65536) (hb : b < 65536) :
    (((a : ℤ) - b) % 4294967296).toNat = if b ≤ a then a - b else 4294967296 + a - b := by
  split_ifs <;> omega

theorem swap16_sub_iff {a b c d : ℕ} (ha : a < 256) (hb : b < 256) (hc : c < 256) (hd : d < 256)
    (hle : c * 256 + d ≤ a * 256 + b) :
    swap16 (if d * 256 + c ≤ b * 256 + a then b * 256 + a - (d * 256 + c)
      else 4294967296 + (b * 256 + a) - (d * 256 + c)) = a * 256 + b - (c * 256 + d) ↔ d ≤ b := by
  have hca : c ≤ a := by omega
  by_cases hdb : d ≤ b
  · have hge : d * 256 + c ≤ b * 256 + a := Nat.add_le_add (Nat.mul_le_mul_right 256 hdb) hca
    have hword : b * 256 + a - (d * 256 + c) = (b - d) * 256 + (a - c) := by omega
    rw [if_pos hge, hword, swap16_bytes (by omega) (by omega)]
    exact iff_of_true (by omega) hdb
  · have hword : (4294967296 + (b * 256 + a) - (d * 256 + c)) % 65536 =
        (256 + b - d) * 256 + (a - c) := by omega
    have hlt : ¬ d * 256 + c ≤ b * 256 + a := by omega
    rw [if_neg hlt, ← swap16_mod, hword, swap16_bytes (by omega) (by omega)]
    exact iff_of_false (by omega) hdb

/-- A difference of two converted numbers, sent in a 32-bit word and read back as a number: hosts
of different orders read the wrong half, and equal little-endian hosts lose a borrow. -/
theorem ByteOrder.ntohs_view_sub_iff (o o' : ByteOrder) {v w : ℕ} (hvw : v ≤ w) (hw : w < 65536) :
    o'.ntohs (o.view o' (((o.htons w : ℤ) - o.htons v) % 4294967296).toNat) = w - v ↔
      v = w ∨ o = o' ∧ (o = .big ∨ v % 256 ≤ w % 256) := by
  rw [o.ntohs_view o', sub_word (o.htons_lt w) (o.htons_lt v)]
  by_cases ho : o = o'
  · subst ho
    rw [if_pos rfl]
    cases o with
    | big =>
      have hw' : ByteOrder.big.htons w = w := Nat.mod_eq_of_lt hw
      have hv' : ByteOrder.big.htons v = v := Nat.mod_eq_of_lt (Nat.lt_of_le_of_lt hvw hw)
      rw [hw', hv', if_pos hvw]
      exact iff_of_true (Nat.mod_eq_of_lt (by omega)) (.inr ⟨rfl, .inl rfl⟩)
    | little =>
      simp only [reduceCtorEq, false_or, true_and]
      obtain ⟨a, b, ha, hb, rfl⟩ : ∃ a b, a < 256 ∧ b < 256 ∧ w = a * 256 + b :=
        ⟨w / 256, w % 256, by omega, by omega, by omega⟩
      obtain ⟨c, d, hc, hd, rfl⟩ : ∃ c d, c < 256 ∧ d < 256 ∧ v = c * 256 + d :=
        ⟨v / 256, v % 256, by omega, by omega, by omega⟩
      have hw' : ByteOrder.little.htons (a * 256 + b) = b * 256 + a := swap16_bytes ha hb
      have hv' : ByteOrder.little.htons (c * 256 + d) = d * 256 + c := swap16_bytes hc hd
      have hmod : ∀ x y, y < 256 → (x * 256 + y) % 256 = y := fun x y hy => by omega
      rw [hw', hv', hmod a b hb, hmod c d hd]
      refine (swap16_sub_iff ha hb hc hd hvw).trans ?_
      omega
  · -- the high half of the word is the sign of the difference
    rw [if_neg ho]
    have hlt := o.htons_lt w
    have hlt' := o.htons_lt v
    have hzero : o.ntohs 0 = 0 := by cases o <;> rfl
    have hones : o.ntohs 65535 = 65535 := by cases o <;> rfl
    have hmax : w = 65535 → o.htons w = 65535 := by
      rintro rfl
      exact hones
    simp only [ho, false_and, or_false]
    split_ifs with hle
    · rw [Nat.div_eq_of_lt (by omega), hzero]
      omega
    · have hne : v ≠ w := by
        rintro rfl
        exact hle (Nat.le_refl _)
      have hdiv : (4294967296 + o.htons w - o.htons v) / 65536 = 65535 := by omega
      rw [hdiv, hones]
      omega

/-- The bytes of a 32-bit word in network order. -/
def be32 (w : ℕ) : List UInt8 :=
  [.ofNat (w / 16777216), .ofNat (w / 65536), .ofNat (w / 256), .ofNat w]

/-- The word that starts at the first of these bytes. -/
def ofBe32 : List UInt8 → ℕ
  | a :: b :: c :: d :: _ => a.toNat * 16777216 + b.toNat * 65536 + c.toNat * 256 + d.toNat
  | _ => 0

theorem ofBe32_be32 (w : ℕ) (bs : List UInt8) : ofBe32 (be32 w ++ bs) = w % 4294967296 := by
  simp only [be32, List.cons_append, ofBe32, UInt8.toNat_ofNat']
  omega

/-- The bytes of a 32-bit word in the memory of a host. -/
def ByteOrder.bytes (o : ByteOrder) (w : ℕ) : List UInt8 :=
  match o with
  | .big => be32 w
  | .little => (be32 w).reverse

/-- The word in four bytes of memory. -/
def ByteOrder.ofBytes (o : ByteOrder) (bs : List UInt8) : ℕ :=
  match o with
  | .big => ofBe32 bs
  | .little => ofBe32 bs.reverse

@[simp] theorem ByteOrder.length_bytes (o : ByteOrder) (w : ℕ) : (o.bytes w).length = 4 := by
  cases o <;> rfl

theorem ByteOrder.ofBytes_bytes (o : ByteOrder) (w : ℕ) : o.ofBytes (o.bytes w) = w % 4294967296 := by
  cases o with
  | big => simpa [bytes, ofBytes] using ofBe32_be32 w []
  | little => simpa [bytes, ofBytes] using ofBe32_be32 w []

end NetLab.Lib
