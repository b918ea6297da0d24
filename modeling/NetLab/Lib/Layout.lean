import Mathlib.Algebra.Group.Nat.Defs
import Mathlib.Data.List.Pairwise
import NetLab.Lib.Buffer
import NetLab.Lib.ByteOrder

/-! Records in memory: words and texts that are written at offsets which do not overlap, into a
block that may hold anything. -/
namespace NetLab.Lib

section
variable {α : Type*}

/-- The block after values were written at their offsets. -/
def pokes (block : List α) (fields : List (ℕ × List α)) : List α :=
  fields.foldl (fun block f => blit block f.1 f.2) block

/-- The fields lie in a block of `size` elements, each behind the one before. -/
structure Laid (size : ℕ) (fields : List (ℕ × List α)) : Prop where
  inside : ∀ f ∈ fields, f.1 + f.2.length ≤ size
  apart : fields.Pairwise fun f g => f.1 + f.2.length ≤ g.1

theorem length_blit {xs ys : List α} {pos : ℕ} (h : pos + ys.length ≤ xs.length) :
    (blit xs pos ys).length = xs.length := by
  unfold blit
  rw [List.length_append, List.length_append, List.length_take, List.length_drop]
  omega

theorem slice_blit {xs ys : List α} {pos : ℕ} (h : pos + ys.length ≤ xs.length) :
    slice (blit xs pos ys) pos ys.length = some ys := by
  unfold blit
  rw [List.append_assoc]
  apply slice_append _ rfl
  rw [List.length_take]
  omega

theorem slice_blit_of_le {xs ys : List α} {pos p len : ℕ} (h : pos + ys.length ≤ xs.length)
    (hle : p + len ≤ pos) : slice (blit xs pos ys) p len = slice xs p len := by
  have hlen := length_blit h
  have hparts : ((blit xs pos ys).drop p).take len = (xs.drop p).take len := by
    have htake : (xs.take pos).length = pos := by
      rw [List.length_take]
      omega
    unfold blit
    rw [List.append_assoc, List.drop_append_of_le_length (by omega),
      List.take_append_of_le_length (by rw [List.length_drop]; omega), List.drop_take, List.take_take]
    congr 1
    omega
  unfold slice
  rw [hlen, hparts]

theorem slice_blit_of_ge {xs ys : List α} {pos p len : ℕ} (h : pos + ys.length ≤ xs.length)
    (hge : pos + ys.length ≤ p) : slice (blit xs pos ys) p len = slice xs p len := by
  have hlen := length_blit h
  have hparts : (blit xs pos ys).drop p = xs.drop p := by
    have hfront : (xs.take pos ++ ys).length = pos + ys.length := by
      rw [List.length_append, List.length_take]
      omega
    unfold blit
    rw [List.drop_append, hfront, List.drop_eq_nil_of_le (by omega), List.nil_append, List.drop_drop]
    congr 1
    omega
  unfold slice
  rw [hlen, hparts]

theorem length_pokes {block : List α} {fields : List (ℕ × List α)}
    (h : ∀ f ∈ fields, f.1 + f.2.length ≤ block.length) :
    (pokes block fields).length = block.length := by
  induction fields generalizing block with
  | nil => rfl
  | cons f fields ih =>
    have hlen := length_blit (h f (by simp))
    show (pokes (blit block f.1 f.2) fields).length = _
    rw [ih, hlen]
    intro g hg
    rw [hlen]
    exact h g (List.mem_cons_of_mem _ hg)

theorem slice_pokes_of_le {block : List α} {fields : List (ℕ × List α)} {p len : ℕ}
    (h : ∀ f ∈ fields, f.1 + f.2.length ≤ block.length) (hle : ∀ f ∈ fields, p + len ≤ f.1) :
    slice (pokes block fields) p len = slice block p len := by
  induction fields generalizing block with
  | nil => rfl
  | cons f fields ih =>
    have hin := h f (by simp)
    show slice (pokes (blit block f.1 f.2) fields) p len = _
    rw [ih, slice_blit_of_le hin (hle f (by simp))]
    · intro g hg
      rw [length_blit hin]
      exact h g (List.mem_cons_of_mem _ hg)
    · intro g hg
      exact hle g (List.mem_cons_of_mem _ hg)

/-- Every field reads back. -/
theorem Laid.slice_pokes {size : ℕ} {fields : List (ℕ × List α)} (h : Laid size fields)
    {block : List α} (hblock : block.length = size) {pos len : ℕ} {value : List α}
    (hmem : (pos, value) ∈ fields) (hlen : value.length = len) :
    slice (pokes block fields) pos len = some value := by
  subst hlen hblock
  obtain ⟨hinside, hapart⟩ := h
  induction fields generalizing block with
  | nil => cases hmem
  | cons f fields ih =>
    have hin := hinside f (by simp)
    have hrest : ∀ g ∈ fields, g.1 + g.2.length ≤ (blit block f.1 f.2).length := by
      intro g hg
      rw [length_blit hin]
      exact hinside g (List.mem_cons_of_mem _ hg)
    obtain ⟨hfirst, hapart⟩ := List.pairwise_cons.mp hapart
    show slice (pokes (blit block f.1 f.2) fields) pos value.length = _
    rcases List.mem_cons.mp hmem with rfl | hmem
    · rw [slice_pokes_of_le hrest hfirst]
      exact slice_blit hin
    · exact ih hmem hrest hapart

theorem Laid.length_pokes {size : ℕ} {fields : List (ℕ × List α)} (h : Laid size fields)
    {block : List α} (hblock : block.length = size) : (pokes block fields).length = size := by
  rw [Lib.length_pokes (hblock ▸ h.inside), hblock]

/-- The values stand at their offsets. -/
def Holds (block : List α) (fields : List (ℕ × List α)) : Prop :=
  ∀ f ∈ fields, slice block f.1 f.2.length = some f.2

theorem Laid.holds_pokes {size : ℕ} {fields : List (ℕ × List α)} (h : Laid size fields)
    {block : List α} (hblock : block.length = size) : Holds (pokes block fields) fields :=
  fun _ hf => h.slice_pokes hblock hf rfl

theorem Laid.disjoint {size : ℕ} {fields : List (ℕ × List α)} (h : Laid size fields)
    {f g : ℕ × List α} (hf : f ∈ fields) (hg : g ∈ fields) (hne : f ≠ g) :
    f.1 + f.2.length ≤ g.1 ∨ g.1 + g.2.length ≤ f.1 := by
  have hapart : fields.Pairwise fun f g => f.1 + f.2.length ≤ g.1 ∨ g.1 + g.2.length ≤ f.1 :=
    h.apart.imp fun hfg => .inl hfg
  have : Std.Symm fun f g : ℕ × List α => f.1 + f.2.length ≤ g.1 ∨ g.1 + g.2.length ≤ f.1 :=
    ⟨fun _ _ hfg => hfg.symm⟩
  exact hapart.forall hf hg hne

/-- A field that is overwritten by a value of its length has that value, and the others have theirs
still. -/
theorem Holds.blit {block : List α} {fields : List (ℕ × List α)} (h : Holds block fields)
    (hlaid : Laid block.length fields) {pos : ℕ} {old new : List α} (hmem : (pos, old) ∈ fields)
    (hlen : new.length = old.length) :
    Holds (blit block pos new) (fields.map fun f => if f.1 = pos then (pos, new) else f) := by
  have hin : pos + new.length ≤ block.length := by
    rw [hlen]
    exact hlaid.inside _ hmem
  intro g hg
  obtain ⟨f, hf, rfl⟩ := List.mem_map.mp hg
  by_cases hpos : f.1 = pos
  · rw [if_pos hpos]
    exact slice_blit hin
  · rw [if_neg hpos]
    have hne : f ≠ (pos, old) := fun heq => hpos (by rw [heq])
    rcases hlaid.disjoint hf hmem hne with hbefore | hbehind
    · rw [slice_blit_of_le hin hbefore]
      exact h f hf
    · rw [slice_blit_of_ge hin (by rw [hlen]; exact hbehind)]
      exact h f hf

/-- What `malloc` returns for `size` bytes, in a memory that holds anything. -/
def malloced (memory : ℕ → α) (size : ℕ) : List α := (List.range size).map memory

@[simp] theorem length_malloced (memory : ℕ → α) (size : ℕ) : (malloced memory size).length = size := by
  simp [malloced]

/-- The memory holds the list from a position on. -/
def InMemory (memory : ℕ → α) (pos : ℕ) (xs : List α) : Prop :=
  ∀ i x, xs[i]? = some x → memory (pos + i) = x

theorem InMemory.left {memory : ℕ → α} {pos : ℕ} {xs ys : List α} (h : InMemory memory pos (xs ++ ys)) :
    InMemory memory pos xs := by
  intro i x hx
  apply h
  rw [List.getElem?_append_left (List.getElem?_eq_some_iff.mp hx).1]
  exact hx

theorem InMemory.right {memory : ℕ → α} {pos : ℕ} {xs ys : List α} (h : InMemory memory pos (xs ++ ys)) :
    InMemory memory (pos + xs.length) ys := by
  intro i x hx
  rw [Nat.add_assoc]
  apply h
  rw [List.getElem?_append_right (Nat.le_add_right _ _), Nat.add_sub_cancel_left]
  exact hx

theorem InMemory.malloced_eq {memory : ℕ → α} {pos : ℕ} {xs : List α} (h : InMemory memory pos xs) :
    malloced (fun i => memory (pos + i)) xs.length = xs := by
  apply List.ext_getElem?
  intro i
  unfold malloced
  rw [List.getElem?_map]
  by_cases hi : i < xs.length
  · rw [List.getElem?_range hi, List.getElem?_eq_getElem hi, Option.map_some,
      h i _ (List.getElem?_eq_getElem hi)]
  · rw [List.getElem?_eq_none (by simpa using hi), List.getElem?_eq_none (by simpa using hi), Option.map_none]

end

/-- A text that fits into an array of `size` bytes, with its NUL. -/
structure CText (size : ℕ) where
  bytes : List UInt8
  noNul : ∀ b ∈ bytes, b ≠ 0
  fits : bytes.length < size
  deriving DecidableEq

/-- What `strcpy` writes. -/
def CText.stored {size : ℕ} (t : CText size) : List UInt8 := t.bytes ++ [0]

theorem CText.length_stored_le {size : ℕ} (t : CText size) : t.stored.length ≤ size := by
  have hfits := t.fits
  rw [stored, List.length_append, List.length_singleton]
  omega

/-- The text, if it fits into an array of `size` bytes. -/
def CText.of (size : ℕ) (bs : List UInt8) : Option (CText size) :=
  -- `all`, because the quantifier over the text would be decided over all bytes
  if h : bs.all (· != 0) = true ∧ bs.length < size then
    some ⟨bs, fun b hb => bne_iff_ne.mp (List.all_eq_true.mp h.1 b hb), h.2⟩
  else none

theorem CText.of_bytes {size : ℕ} {bs : List UInt8} {t : CText size} (h : CText.of size bs = some t) :
    t.bytes = bs := by
  obtain ⟨_, ht⟩ := Option.dite_none_right_eq_some.mp h
  rw [← Option.some.inj ht]

/-- The string that starts at an offset of a block. -/
def textAt (block : List UInt8) (pos : ℕ) : List UInt8 := (block.drop pos).takeWhile (· != 0)

theorem textAt_of_slice {size pos len : ℕ} {block : List UInt8} {t : CText size}
    (h : slice block pos len = some t.stored) : textAt block pos = t.bytes := by
  obtain ⟨_, htake⟩ := Option.ite_none_right_eq_some.mp h
  have hsplit : block.drop pos = t.bytes ++ ([0] ++ (block.drop pos).drop len) := by
    rw [← List.append_assoc, ← CText.stored, ← Option.some.inj htake, List.take_append_drop]
  unfold textAt
  rw [hsplit, List.takeWhile_append_of_pos fun b hb => bne_iff_ne.mpr (t.noNul b hb)]
  simp

/-- The last `n` bytes of a number, the most significant first. -/
def beBytes : ℕ → ℕ → List UInt8
  | 0, _ => []
  | n + 1, v => beBytes n (v / 256) ++ [.ofNat v]

def ofBeBytes (bs : List UInt8) : ℕ := bs.foldl (fun v b => v * 256 + b.toNat) 0

@[simp] theorem length_beBytes (n v : ℕ) : (beBytes n v).length = n := by
  induction n generalizing v with
  | zero => rfl
  | succ n ih => simp [beBytes, ih]

theorem ofBeBytes_beBytes (n v : ℕ) : ofBeBytes (beBytes n v) = v % 256 ^ n := by
  induction n generalizing v with
  | zero => simp [beBytes, ofBeBytes, Nat.mod_one]
  | succ n ih =>
    have hhigh := ih (v / 256)
    unfold ofBeBytes at hhigh ⊢
    rw [beBytes, List.foldl_append, hhigh, pow_succ', Nat.mod_mul]
    simp only [List.foldl_cons, List.foldl_nil, UInt8.toNat_ofNat']
    omega

/-- The bytes of a 16-bit word in the memory of a host. -/
def ByteOrder.bytes16 (o : ByteOrder) (w : ℕ) : List UInt8 :=
  match o with
  | .big => beBytes 2 w
  | .little => (beBytes 2 w).reverse

/-- The 16-bit word in two bytes of memory. -/
def ByteOrder.ofBytes16 (o : ByteOrder) (bs : List UInt8) : ℕ :=
  match o with
  | .big => ofBeBytes bs
  | .little => ofBeBytes bs.reverse

@[simp] theorem ByteOrder.length_bytes16 (o : ByteOrder) (w : ℕ) : (o.bytes16 w).length = 2 := by
  cases o <;> simp [bytes16]

/-- A word that was written with `htons` has the same bytes on every host. -/
theorem ByteOrder.bytes16_htons (o : ByteOrder) (v : ℕ) : o.bytes16 (o.htons v) = beBytes 2 v := by
  cases o with
  | big =>
    simp only [bytes16, htons, beBytes, List.nil_append, List.cons_append, List.cons.injEq, and_true,
      ← UInt8.toNat_inj, UInt8.toNat_ofNat']
    omega
  | little =>
    have hlow : swap16 v % 256 = v / 256 % 256 := by
      unfold swap16
      omega
    have hhigh : swap16 v / 256 % 256 = v % 256 := by
      have hdiv : swap16 v / 256 = v % 256 := by
        unfold swap16
        omega
      rw [hdiv, Nat.mod_mod]
    simp only [bytes16, htons, beBytes, List.nil_append, List.cons_append, List.reverse_cons,
      List.reverse_nil, List.cons.injEq, and_true, ← UInt8.toNat_inj, UInt8.toNat_ofNat']
    exact ⟨hlow, hhigh⟩

theorem ByteOrder.ofBytes16_bytes16 (o : ByteOrder) (v : ℕ) : o.ofBytes16 (o.bytes16 v) = v % 65536 := by
  have hpow : 256 ^ 2 = 65536 := by decide
  cases o with
  | big => simp only [ofBytes16, bytes16, ofBeBytes_beBytes, hpow]
  | little => simp only [ofBytes16, bytes16, List.reverse_reverse, ofBeBytes_beBytes, hpow]

theorem ByteOrder.ntohs_ofBytes16 (o o' : ByteOrder) {v : ℕ} (hv : v < 65536) :
    o'.ntohs (o'.ofBytes16 (o.bytes16 (o.htons v))) = v := by
  rw [o.bytes16_htons, ← o'.bytes16_htons, o'.ofBytes16_bytes16, Nat.mod_eq_of_lt (o'.htons_lt v)]
  cases o' with
  | big =>
    simp only [ntohs, htons, Nat.mod_eq_of_lt hv]
  | little => exact (swap16_swap16 v).trans (Nat.mod_eq_of_lt hv)

/-- A word in the memory of one host, read on another. -/
theorem ByteOrder.ofBytes_view (o o' : ByteOrder) {w : ℕ} (hw : w < 4294967296) :
    o'.ofBytes (o.bytes w) = o.view o' w := by
  by_cases ho : o = o'
  · subst ho
    rw [o.ofBytes_bytes, view, if_pos rfl, Nat.mod_eq_of_lt hw]
  · have hswap : ofBe32 (be32 w).reverse = swap32 w := by
      simp only [be32, List.reverse_cons, List.reverse_nil, List.nil_append, List.cons_append, ofBe32,
        UInt8.toNat_ofNat', swap32]
    rw [view, if_neg ho]
    cases o with
    | big =>
      cases o' with
      | big => exact absurd rfl ho
      | little => exact hswap
    | little =>
      cases o' with
      | big => exact hswap
      | little => exact absurd rfl ho

/-- Every host reads a number below 2^32 back from a word that any host converted. -/
theorem ByteOrder.ntohl_ofBytes (o o' : ByteOrder) {v : ℕ} (hv : v < 4294967296) :
    o'.ntohl (o'.ofBytes (o.bytes (o.htonl v))) = v := by
  have hswap := swap32_swap32 v
  rw [Nat.mod_eq_of_lt hv] at hswap
  rw [o.ofBytes_view o' (o.htonl_lt v)]
  cases o with
  | big =>
    have hid : ByteOrder.big.htonl v = v := Nat.mod_eq_of_lt hv
    cases o' with
    | big => simp [view, ntohl, hid]
    | little =>
      rw [hid, view, if_neg (by simp)]
      exact hswap
  | little =>
    cases o' with
    | big =>
      simp only [view, ntohl, htonl, reduceCtorEq, if_false, hswap]
      exact Nat.mod_eq_of_lt hv
    | little =>
      rw [view, if_pos rfl]
      exact hswap

end NetLab.Lib
