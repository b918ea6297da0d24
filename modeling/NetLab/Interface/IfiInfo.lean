import NetLab.Interface.HwAddrs
import NetLab.Transfer.Interfaces

/-! `get_ifi_info_plus`: the loop is that of `get_hw_addrs`, but the walk over the bytes of the answer
takes every record for one of 32 bytes. -/
namespace NetLab.Interface
open NetLab.Lib

/-- `struct ifi_info`. Its index and its hardware address stay 0 where interfaces have no record of
family `AF_LINK`. The MTU and the flags are short. -/
structure IfiInfo where
  ifiName : List UInt8
  ifiMtu : BitVec 16
  ifiFlags : BitVec 16
  /-- `IFI_ALIAS` in `ifi_myflags`. -/
  ifiAlias : Bool
  ifiAddr : InAddr
  ifiBrdaddr : Option InAddr
  ifiDstaddr : Option InAddr
  ifiNtmaddr : InAddr
  deriving DecidableEq, Repr

def afInet : ℕ := 2

def afInet6 : ℕ := 10

def iffUp (flags : ℕ) : Bool := flags.testBit 0

def iffBroadcast (flags : ℕ) : Bool := flags.testBit 1

def iffPointopoint (flags : ℕ) : Bool := flags.testBit 4

def sockaddrSize (family : ℕ) : ℕ := if family = afInet6 then 28 else 16

/-- A record in the answer of a host on which it has `ifreqSize` bytes: the name, then family, port and
address, and zeros. -/
def Ifreq.bytes (o : ByteOrder) (ifreqSize : ℕ) (item : Ifreq) : List UInt8 :=
  item.name.bytes ++ (List.replicate (ifName - item.name.bytes.length) 0 ++
    (o.bytes16 afInet ++ ([0, 0, item.addr.a, item.addr.b, item.addr.c, item.addr.d] ++
      List.replicate (ifreqSize - 24) 0)))

/-- The buffer of the last answer. `memory` is what it held before. -/
def answered (o : ByteOrder) (ifreqSize : ℕ) (items : List Ifreq) (memory : ℕ → UInt8) : ℕ → UInt8 :=
  fun i => (items.flatMap (Ifreq.bytes o ifreqSize)).getD i (memory i)

def cString (buf : ℕ → UInt8) (pos size : ℕ) : List UInt8 :=
  (malloced (fun i => buf (pos + i)) size).takeWhile (· != 0)

section
variable (o : ByteOrder) (k : Kernel) (doaliases : Bool) (buf : ℕ → UInt8) (ifcLen : ℕ)

def saFamily (ptr : ℕ) : ℕ := o.ofBytes16 [buf (ptr + 16), buf (ptr + 17)]

/-- What is filled in for the record at `ptr`. The name keeps the colon of an alias. -/
def ifiAt (ptr : ℕ) (myflags : Bool) : IfiInfo :=
  let name := cString buf ptr ifName
  let flags := k.flags name
  { ifiName := cString buf ptr (ifName - 1)
    ifiMtu := .ofNat 16 (k.mtu name)
    ifiFlags := .ofNat 16 flags
    ifiAlias := myflags
    ifiAddr := ⟨buf (ptr + 20), buf (ptr + 21), buf (ptr + 22), buf (ptr + 23)⟩
    ifiBrdaddr := if iffBroadcast flags then some (k.brdaddr name) else none
    ifiDstaddr := if iffPointopoint flags then some (k.dstaddr name) else none
    ifiNtmaddr := k.netmask name }

/-- The loop over the answer, from `ptr` on. -/
def walkIfreqs (ptr : ℕ) (lastname : List UInt8) : List IfiInfo :=
  if ptr < ifcLen then
    let next := ptr + 16 + sockaddrSize (saFamily o buf ptr)
    let name := cString buf ptr ifName
    if saFamily o buf ptr ≠ afInet then walkIfreqs next lastname
    else if lastname = name ∧ doaliases = false then walkIfreqs next lastname
    else if iffUp (k.flags name) then ifiAt k buf ptr (lastname == name) :: walkIfreqs next name
    else walkIfreqs next name
  else []
  termination_by ifcLen - ptr

end

/-- `get_ifi_info_plus`, an error if it ends the program, none without fuel. -/
def getIfiInfoPlus (o : ByteOrder) (ifreqSize : ℕ) (k : Kernel) (doaliases : Bool) (memory : ℕ → UInt8)
    (fuel : ℕ) : Option (Except ℕ (List IfiInfo)) :=
  (confLoop ifreqSize k.ifconf fuel (100 * ifreqSize) 0).map fun r => r.map fun items =>
    walkIfreqs o k doaliases (answered o ifreqSize items memory)
      (totalSize (fun _ => ifreqSize) items) 0 []

/-- The array that the client and the server fill, addresses and netmasks in host byte order; none
where the entries overrun it. -/
def socketInfos (o : ByteOrder) (ifis : List IfiInfo) : Option (List Transfer.SocketInfo) :=
  let host (x : InAddr) : BitVec 32 := .ofNat 32 (o.ntohl (o.ofBytes [x.a, x.b, x.c, x.d]))
  if ifis.length ≤ Transfer.maximumSocket then
    some (ifis.map fun ifi => ⟨host ifi.ifiAddr, host ifi.ifiNtmaddr⟩)
  else none

/-- The records that the walk comes to: where they have 40 bytes, each fourth. -/
def everyFourth {α : Type*} : List α → List α
  | x :: _ :: _ :: _ :: xs => x :: everyFourth xs
  | x :: _ => [x]
  | [] => []

def Ifreq.ifi (k : Kernel) (item : Ifreq) (myflags : Bool) : IfiInfo :=
  let name := item.name.bytes
  let flags := k.flags name
  { ifiName := name
    ifiMtu := .ofNat 16 (k.mtu name)
    ifiFlags := .ofNat 16 flags
    ifiAlias := myflags
    ifiAddr := item.addr
    ifiBrdaddr := if iffBroadcast flags then some (k.brdaddr name) else none
    ifiDstaddr := if iffPointopoint flags then some (k.dstaddr name) else none
    ifiNtmaddr := k.netmask name }

@[simp] theorem Ifreq.ifiAlias_ifi (k : Kernel) (item : Ifreq) (myflags : Bool) :
    (item.ifi k myflags).ifiAlias = myflags := rfl

@[simp] theorem Ifreq.ifiName_ifi (k : Kernel) (item : Ifreq) (myflags : Bool) :
    (item.ifi k myflags).ifiName = item.name.bytes := rfl

def listed (k : Kernel) (doaliases : Bool) (lastname : List UInt8) : List Ifreq → List IfiInfo
  | [] => []
  | item :: items =>
    let name := item.name.bytes
    if lastname = name ∧ doaliases = false then listed k doaliases lastname items
    else if iffUp (k.flags name) then item.ifi k (lastname == name) :: listed k doaliases name items
    else listed k doaliases name items

section
variable {o : ByteOrder} {k : Kernel} {doaliases : Bool} {buf : ℕ → UInt8} {ifcLen ifreqSize ptr : ℕ}
  {item : Ifreq} {items : List Ifreq} {lastname : List UInt8}

theorem Ifreq.length_bytes (o : ByteOrder) (hsize : 24 ≤ ifreqSize) (item : Ifreq) :
    (item.bytes o ifreqSize).length = ifreqSize := by
  have hfits := item.name.fits
  unfold ifName at hfits
  simp only [bytes, List.length_append, List.length_replicate, o.length_bytes16, List.length_cons,
    List.length_nil, ifName]
  omega

theorem takeWhile_name (t : CText ifName) (n : ℕ) :
    (t.bytes ++ List.replicate n 0).takeWhile (· != 0) = t.bytes := by
  rw [List.takeWhile_append_of_pos fun b hb => bne_iff_ne.mpr (t.noNul b hb)]
  cases n <;> simp

theorem cString_name (h : InMemory buf ptr (item.bytes o ifreqSize)) :
    cString buf ptr ifName = item.name.bytes := by
  have hfits := item.name.fits
  unfold Ifreq.bytes at h
  rw [← List.append_assoc] at h
  have hname := h.left.malloced_eq
  have hlen : (item.name.bytes ++ List.replicate (ifName - item.name.bytes.length) (0 : UInt8)).length =
      ifName := by
    rw [List.length_append, List.length_replicate]
    omega
  rw [hlen] at hname
  rw [cString, hname, takeWhile_name]

theorem cString_ifiName (h : InMemory buf ptr (item.bytes o ifreqSize)) :
    cString buf ptr (ifName - 1) = item.name.bytes := by
  have hfits := item.name.fits
  have hpad : ifName - item.name.bytes.length = (ifName - 1 - item.name.bytes.length) + 1 := by omega
  unfold Ifreq.bytes at h
  rw [hpad, List.replicate_add, List.append_assoc, ← List.append_assoc] at h
  have hname := h.left.malloced_eq
  have hlen : (item.name.bytes ++ List.replicate (ifName - 1 - item.name.bytes.length) (0 : UInt8)).length =
      ifName - 1 := by
    rw [List.length_append, List.length_replicate]
    omega
  rw [hlen] at hname
  rw [cString, hname, takeWhile_name]

theorem inMemory_sockaddr (h : InMemory buf ptr (item.bytes o ifreqSize)) :
    InMemory buf (ptr + 16) (o.bytes16 afInet ++
      [0, 0, item.addr.a, item.addr.b, item.addr.c, item.addr.d]) := by
  have hfits := item.name.fits
  have hpos : ptr + item.name.bytes.length + (ifName - item.name.bytes.length) = ptr + 16 := by
    unfold ifName at hfits ⊢
    omega
  have htail := h.right.right
  rw [List.length_replicate, hpos, ← List.append_assoc] at htail
  exact htail.left

theorem saFamily_record (h : InMemory buf ptr (item.bytes o ifreqSize)) : saFamily o buf ptr = afInet := by
  have hfamily := (inMemory_sockaddr h).left.malloced_eq
  rw [o.length_bytes16] at hfamily
  have hbytes : [buf (ptr + 16), buf (ptr + 17)] = malloced (fun i => buf (ptr + 16 + i)) 2 := rfl
  rw [saFamily, hbytes, hfamily, o.ofBytes16_bytes16]
  rfl

theorem addr_record (h : InMemory buf ptr (item.bytes o ifreqSize)) :
    (⟨buf (ptr + 20), buf (ptr + 21), buf (ptr + 22), buf (ptr + 23)⟩ : InAddr) = item.addr := by
  have haddr := (inMemory_sockaddr h).right.malloced_eq
  rw [o.length_bytes16] at haddr
  have hbytes : malloced (fun i => buf (ptr + 16 + 2 + i)) 6 =
      [buf (ptr + 18), buf (ptr + 19), buf (ptr + 20), buf (ptr + 21), buf (ptr + 22), buf (ptr + 23)] := rfl
  simp only [List.length_cons, List.length_nil, hbytes, List.cons.injEq] at haddr
  obtain ⟨_, _, ha, hb, hc, hd, _⟩ := haddr
  rw [ha, hb, hc, hd]

theorem walkIfreqs_record (hlt : ptr < ifcLen) (h : InMemory buf ptr (item.bytes o ifreqSize))
    (hrest : ∀ last, walkIfreqs o k doaliases buf ifcLen (ptr + 32) last = listed k doaliases last items) :
    walkIfreqs o k doaliases buf ifcLen ptr lastname = listed k doaliases lastname (item :: items) := by
  have hnext : ptr + 16 + sockaddrSize (saFamily o buf ptr) = ptr + 32 := by
    rw [saFamily_record h]
    rfl
  rw [walkIfreqs, if_pos hlt]
  dsimp only
  rw [hnext, if_neg (by rw [saFamily_record h]; simp), ifiAt, cString_name h, cString_ifiName h, addr_record h,
    hrest, hrest]
  rfl

/-- A byte that is in no family of the switch. -/
def Calm (b : UInt8) : Prop := b ≠ 2 ∧ b ≠ 10

theorem Calm.toNat {b : UInt8} (h : Calm b) : b.toNat ≠ 2 ∧ b.toNat ≠ 10 := by
  constructor
  · intro heq
    exact h.1 (UInt8.toNat_inj.mp heq)
  · intro heq
    exact h.2 (UInt8.toNat_inj.mp heq)

theorem calm_zero : Calm 0 := by
  constructor <;> decide

theorem saFamily_calm (h : Calm (buf (ptr + 16))) (h' : Calm (buf (ptr + 17))) :
    saFamily o buf ptr ≠ afInet ∧ saFamily o buf ptr ≠ afInet6 := by
  have hlt := (buf (ptr + 16)).toNat_lt
  have hlt' := (buf (ptr + 17)).toNat_lt
  obtain ⟨htwo, hten⟩ := h.toNat
  obtain ⟨htwo', hten'⟩ := h'.toNat
  have hword : ∀ a b : ℕ, a < 256 → b < 256 → (a ≠ 2 ∧ a ≠ 10) → (b ≠ 2 ∧ b ≠ 10) →
      a * 256 + b ≠ 2 ∧ a * 256 + b ≠ 10 := by omega
  unfold saFamily afInet afInet6
  cases o with
  | big =>
    simpa [ByteOrder.ofBytes16, ofBeBytes] using hword _ _ hlt hlt' ⟨htwo, hten⟩ ⟨htwo', hten'⟩
  | little =>
    simpa [ByteOrder.ofBytes16, ofBeBytes] using hword _ _ hlt' hlt ⟨htwo', hten'⟩ ⟨htwo, hten⟩

theorem walkIfreqs_calm (h : Calm (buf (ptr + 16))) (h' : Calm (buf (ptr + 17))) :
    walkIfreqs o k doaliases buf ifcLen ptr lastname =
      walkIfreqs o k doaliases buf ifcLen (ptr + 32) lastname := by
  obtain ⟨hinet, hinet6⟩ := saFamily_calm (o := o) h h'
  by_cases hlt : ptr < ifcLen
  · rw [walkIfreqs, if_pos hlt]
    dsimp only
    rw [if_pos hinet, sockaddrSize, if_neg hinet6]
  · rw [walkIfreqs, if_neg hlt, walkIfreqs, if_neg (by omega)]

theorem walkIfreqs_each (h : InMemory buf ptr (items.flatMap (Ifreq.bytes o 32)))
    (hlen : ifcLen - ptr = 32 * items.length) :
    walkIfreqs o k doaliases buf ifcLen ptr lastname = listed k doaliases lastname items := by
  induction items generalizing ptr lastname with
  | nil =>
    rw [List.length_nil] at hlen
    rw [walkIfreqs, if_neg (by omega)]
    rfl
  | cons item items ih =>
    rw [List.length_cons] at hlen
    rw [List.flatMap_cons] at h
    have hrest := h.right
    rw [item.length_bytes o (by decide)] at hrest
    apply walkIfreqs_record (by omega) h.left
    intro last
    exact ih hrest (by omega)

theorem calm_record (hname : ∀ b ∈ item.name.bytes, Calm b) {s : ℕ} (hs : s < 16 ∨ 24 ≤ s) {b : UInt8}
    (hb : (item.bytes o ifreqSize)[s]? = some b) : Calm b := by
  have hfits := item.name.fits
  have hzero : ∀ {n : ℕ}, b ∈ List.replicate n (0 : UInt8) → Calm b := by
    intro n hmem
    rw [(List.mem_replicate.mp hmem).2]
    exact calm_zero
  have hlen : (item.name.bytes ++ List.replicate (ifName - item.name.bytes.length) (0 : UInt8)).length =
      16 := by
    unfold ifName at hfits ⊢
    rw [List.length_append, List.length_replicate]
    omega
  unfold Ifreq.bytes at hb
  rw [← List.append_assoc] at hb
  by_cases hlt : s < 16
  · rw [List.getElem?_append_left (by omega)] at hb
    rcases List.mem_append.mp (List.mem_of_getElem? hb) with hmem | hmem
    · exact hname b hmem
    · exact hzero hmem
  · have hlen' : (o.bytes16 afInet ++ [0, 0, item.addr.a, item.addr.b, item.addr.c, item.addr.d]).length =
        8 := by simp
    rw [List.getElem?_append_right (by omega), ← List.append_assoc,
      List.getElem?_append_right (by omega)] at hb
    exact hzero (List.mem_of_getElem? hb)

theorem calm_beside (hname : ∀ item ∈ items, ∀ b ∈ item.name.bytes, Calm b)
    (h : InMemory buf ptr (items.flatMap (Ifreq.bytes o 40))) (hbehind : ∀ i, ifcLen ≤ i → buf i = 0)
    (hlen : ifcLen ≤ ptr + 40 * items.length) (q : ℕ) {s : ℕ} (hs : s < 16 ∨ 24 ≤ s ∧ s < 40) :
    Calm (buf (ptr + (40 * q + s))) := by
  induction items generalizing ptr q with
  | nil =>
    rw [List.length_nil] at hlen
    rw [hbehind _ (by omega)]
    exact calm_zero
  | cons item items ih =>
    rw [List.length_cons] at hlen
    rw [List.flatMap_cons] at h
    have hbytes := item.length_bytes o (by decide : 24 ≤ 40)
    cases q with
    | zero =>
      have hb : (item.bytes o 40)[s]? = some ((item.bytes o 40)[s]) :=
        List.getElem?_eq_getElem (by omega)
      rw [Nat.mul_zero, Nat.zero_add, h.left s _ hb]
      exact calm_record (hname item List.mem_cons_self) (by omega) hb
    | succ q =>
      have hrest := h.right
      rw [hbytes] at hrest
      have hpos : ptr + (40 * (q + 1) + s) = ptr + 40 + (40 * q + s) := by omega
      rw [hpos]
      exact ih (fun x hx => hname x (List.mem_cons_of_mem _ hx)) hrest (by omega) q

theorem walkIfreqs_skip (k : Kernel) (doaliases : Bool) (last : List UInt8)
    (hname : ∀ item ∈ items, ∀ b ∈ item.name.bytes, Calm b)
    (h : InMemory buf ptr (items.flatMap (Ifreq.bytes o 40))) (hbehind : ∀ i, ifcLen ≤ i → buf i = 0)
    (hlen : ifcLen ≤ ptr + 40 * items.length) :
    walkIfreqs o k doaliases buf ifcLen (ptr + 32) last =
      walkIfreqs o k doaliases buf ifcLen (ptr + 160) last := by
  have hcalm := fun q {s : ℕ} hs => calm_beside hname h hbehind hlen q (s := s) hs
  rw [walkIfreqs_calm (hcalm 1 (s := 8) (by omega)) (hcalm 1 (s := 9) (by omega)),
    walkIfreqs_calm (hcalm 2 (s := 0) (by omega)) (hcalm 2 (s := 1) (by omega)),
    walkIfreqs_calm (hcalm 2 (s := 32) (by omega)) (hcalm 2 (s := 33) (by omega)),
    walkIfreqs_calm (hcalm 3 (s := 24) (by omega)) (hcalm 3 (s := 25) (by omega))]

theorem walkIfreqs_everyFourth (hname : ∀ item ∈ items, ∀ b ∈ item.name.bytes, Calm b)
    (h : InMemory buf ptr (items.flatMap (Ifreq.bytes o 40))) (hbehind : ∀ i, ifcLen ≤ i → buf i = 0)
    (hlen : ifcLen - ptr = 40 * items.length) :
    walkIfreqs o k doaliases buf ifcLen ptr lastname = listed k doaliases lastname (everyFourth items) := by
  induction items using everyFourth.induct generalizing ptr lastname with
  | case1 item a b c rest ih =>
    have hskip := fun last => walkIfreqs_skip k doaliases last hname h hbehind (by omega)
    have hbytes := fun x : Ifreq => x.length_bytes o (by decide : 24 ≤ 40)
    simp only [List.length_cons] at hlen
    simp only [List.flatMap_cons] at h
    have hrest := h.right.right.right.right
    simp only [hbytes] at hrest
    apply walkIfreqs_record (by omega) h.left
    intro last
    rw [hskip last]
    apply ih (fun x hx => hname x (by simp [hx])) hrest
    omega
  | case2 item rest hshort =>
    have hskip := fun last => walkIfreqs_skip k doaliases last hname h hbehind (by omega)
    have hrest : rest.length ≤ 2 := by
      rcases rest with _ | ⟨a, _ | ⟨b, _ | ⟨c, xs⟩⟩⟩
      · simp
      · simp
      · simp
      · exact absurd rfl (hshort a b c xs)
    rw [List.length_cons] at hlen
    rw [List.flatMap_cons] at h
    rw [everyFourth.eq_2 item rest hshort]
    apply walkIfreqs_record (by omega) h.left
    intro last
    rw [hskip last, walkIfreqs, if_neg (by omega)]
    rfl
  | case3 =>
    rw [List.length_nil] at hlen
    rw [walkIfreqs, if_neg (by omega)]
    rfl

end

def walked (ifreqSize : ℕ) (all : List Ifreq) : List Ifreq :=
  if ifreqSize = 40 then everyFourth all else all

theorem everyFourth_sublist {α : Type*} (xs : List α) : List.Sublist (everyFourth xs) xs := by
  induction xs using everyFourth.induct with
  | case1 x a b c xs ih =>
    rw [everyFourth]
    exact (((ih.cons c).cons b).cons a).cons_cons x
  | case2 x xs hshort =>
    rw [everyFourth.eq_2 x xs hshort]
    exact (List.nil_sublist xs).cons_cons x
  | case3 => exact .slnil

theorem walked_sublist (ifreqSize : ℕ) (all : List Ifreq) : List.Sublist (walked ifreqSize all) all := by
  unfold walked
  split_ifs
  · exact everyFourth_sublist all
  · exact .refl all

section
variable {o : ByteOrder} {k : Kernel} {doaliases : Bool} {items : List Ifreq}

theorem inMemory_answered (ifreqSize : ℕ) (items : List Ifreq) (memory : ℕ → UInt8) :
    InMemory (answered o ifreqSize items memory) 0 (items.flatMap (Ifreq.bytes o ifreqSize)) := by
  intro i x hx
  unfold answered
  rw [Nat.zero_add, List.getD_eq_getElem?_getD, hx, Option.getD_some]

theorem totalSize_records (ifreqSize : ℕ) (items : List Ifreq) :
    totalSize (fun _ => ifreqSize) items = ifreqSize * items.length := by
  induction items with
  | nil => rfl
  | cons item items ih => rw [totalSize_cons, ih, List.length_cons, Nat.mul_succ, Nat.add_comm]

theorem answered_behind {ifreqSize : ℕ} {memory : ℕ → UInt8} (hsize : 24 ≤ ifreqSize)
    (hzero : ∀ i, memory i = 0) {i : ℕ} (hi : totalSize (fun _ => ifreqSize) items ≤ i) :
    answered o ifreqSize items memory i = 0 := by
  have hlen : (items.flatMap (Ifreq.bytes o ifreqSize)).length = ifreqSize * items.length := by
    induction items with
    | nil => rfl
    | cons item items ih =>
      rw [List.flatMap_cons, List.length_append, item.length_bytes o hsize, ih, List.length_cons,
        Nat.mul_succ, Nat.add_comm]
      rw [totalSize_cons] at hi
      omega
  rw [totalSize_records] at hi
  unfold answered
  rw [List.getD_eq_getElem?_getD, List.getElem?_eq_none (by omega), Option.getD_none, hzero]

theorem listed_noAlias {lastname : List UInt8} {ifi : IfiInfo} (h : ifi ∈ listed k false lastname items) :
    ifi.ifiAlias = false := by
  induction items generalizing lastname with
  | nil => cases h
  | cons item items ih =>
    unfold listed at h
    dsimp only at h
    split_ifs at h with hsame hup
    · exact ih h
    · rcases List.mem_cons.mp h with rfl | h
      · have hne : lastname ≠ item.name.bytes := fun heq => hsame ⟨heq, rfl⟩
        simpa using hne
      · exact ih h
    · exact ih h

theorem listed_distinct {lastname : List UInt8} {ifi : IfiInfo}
    (h : (lastname :: items.map fun item => item.name.bytes).Nodup)
    (hifi : ifi ∈ listed k doaliases lastname items) : ifi.ifiAlias = false := by
  induction items generalizing lastname with
  | nil => cases hifi
  | cons item items ih =>
    rw [List.map_cons] at h
    obtain ⟨hlast, hitems⟩ := List.nodup_cons.mp h
    have hne : lastname ≠ item.name.bytes := fun heq => hlast (heq ▸ List.mem_cons_self)
    unfold listed at hifi
    dsimp only at hifi
    rw [if_neg fun hsame => hne hsame.1] at hifi
    split_ifs at hifi with hup
    · rcases List.mem_cons.mp hifi with rfl | hifi
      · simpa using hne
      · exact ih hitems hifi
    · exact ih hitems hifi

theorem listed_aliases (lastname : List UInt8) (items : List Ifreq) :
    (listed k true lastname items).map (fun ifi => (ifi.ifiName, ifi.ifiAddr, ifi.ifiNtmaddr)) =
      (items.filter fun item => iffUp (k.flags item.name.bytes)).map
        fun item => (item.name.bytes, item.addr, k.netmask item.name.bytes) := by
  induction items generalizing lastname with
  | nil => rfl
  | cons item items ih =>
    unfold listed
    dsimp only
    rw [if_neg (by simp), List.filter_cons]
    split_ifs with hup
    · rw [List.map_cons, List.map_cons, ih]
      rfl
    · exact ih _

theorem listed_primary (doaliases : Bool) (lastname : List UInt8) (items : List Ifreq) :
    ((items.map fun item => item.name.bytes).destutter' (· ≠ ·) lastname).filter
        (fun name => iffUp (k.flags name)) =
      (if iffUp (k.flags lastname) then [lastname] else []) ++
        ((listed k doaliases lastname items).filter fun ifi => !ifi.ifiAlias).map IfiInfo.ifiName := by
  induction items generalizing lastname with
  | nil => simp [listed, List.filter_cons]
  | cons item items ih =>
    unfold listed
    dsimp only
    rw [List.map_cons]
    by_cases hsame : lastname = item.name.bytes
    · rw [List.destutter'_cons_neg _ (by simpa using hsame), ih, ← hsame]
      cases doaliases with
      | false => simp
      | true => split_ifs <;> simp_all
    · have hkeep : ¬ (lastname = item.name.bytes ∧ doaliases = false) := fun h => hsame h.1
      have halias : (lastname == item.name.bytes) = false := by simpa using hsame
      rw [List.destutter'_cons_pos _ hsame, List.filter_cons, ih, if_neg hkeep, halias]
      cases iffUp (k.flags item.name.bytes) with
      | false => cases iffUp (k.flags lastname) <;> simp
      | true => cases iffUp (k.flags lastname) <;> simp

theorem primary_names (doaliases : Bool) (items : List Ifreq) :
    ((listed k doaliases [] items).filter fun ifi => !ifi.ifiAlias).map IfiInfo.ifiName =
      ((items.map fun item => item.name.bytes).destutter (· ≠ ·)).filter
        (fun name => iffUp (k.flags name)) := by
  cases items with
  | nil => rfl
  | cons first rest =>
    have hfirst : [] ≠ first.name.bytes := by
      intro heq
      apply first.named
      rw [← heq]
      rfl
    have hprimary := listed_primary (k := k) doaliases [] (first :: rest)
    rw [List.map_cons, List.destutter'_cons_pos _ hfirst, List.filter_cons] at hprimary
    rw [List.map_cons, List.destutter_cons']
    split_ifs at hprimary
    · exact (List.cons.inj hprimary).2.symm
    · exact hprimary.symm

end

theorem ntohl_ofBytes_addr (o : ByteOrder) (a b c d : UInt8) :
    o.ntohl (o.ofBytes [a, b, c, d]) = ofBe32 [a, b, c, d] := by
  have ha := a.toNat_lt
  have hb := b.toNat_lt
  have hc := c.toNat_lt
  have hd := d.toNat_lt
  cases o with
  | big =>
    apply Nat.mod_eq_of_lt
    show a.toNat * 16777216 + b.toNat * 65536 + c.toNat * 256 + d.toNat < 4294967296
    omega
  | little => exact swap32_bytes hd hc hb ha

def hostAddr (x : InAddr) : BitVec 32 := .ofNat 32 (ofBe32 [x.a, x.b, x.c, x.d])

theorem getIfiInfoPlus_eq (o : ByteOrder) (ifreqSize : ℕ) (k : Kernel) (all : List Ifreq)
    (h : Answers ifreqSize all k.ifconf) (memory : ℕ → UInt8)
    (hsize : ifreqSize = 32 ∨ ifreqSize = 40 ∧ (∀ i, memory i = 0) ∧
      ∀ item ∈ all, ∀ b ∈ item.name.bytes, Calm b) (doaliases : Bool) {fuel : ℕ}
    (hfuel : totalSize (fun _ => ifreqSize) all + 1 < fuel) :
    getIfiInfoPlus o ifreqSize k doaliases memory fuel =
      some (.ok (listed k doaliases [] (walked ifreqSize all))) := by
  have hmemory := inMemory_answered (o := o) ifreqSize all memory
  have hlen := totalSize_records ifreqSize all
  unfold getIfiInfoPlus
  rw [h.confLoop_eq (by omega) hfuel]
  show some (Except.ok (walkIfreqs o k doaliases _ _ 0 [])) = _
  rcases hsize with rfl | ⟨rfl, hzero, hname⟩
  · rw [walkIfreqs_each hmemory (by omega)]
    rfl
  · rw [walkIfreqs_everyFourth hname hmemory (fun i => answered_behind (by decide) hzero) (by omega)]
    rfl

/-- The array of the client and of the server has the addresses of the interfaces that are up, aliases
too, each with the netmask of its interface, and is overrun by more than ten. What is no alias to the
code are the first records of each name; a name differs from that of an alias, so that where all names
differ nothing is one. But a host on which a record has 40 bytes lists each fourth address only. -/
theorem ifi_info_listed (o : ByteOrder) (ifreqSize : ℕ) (k : Kernel) (all : List Ifreq)
    (h : Answers ifreqSize all k.ifconf) (memory : ℕ → UInt8)
    (hsize : ifreqSize = 32 ∨ ifreqSize = 40 ∧ (∀ i, memory i = 0) ∧
      ∀ item ∈ all, ∀ b ∈ item.name.bytes, Calm b) (doaliases : Bool) :
    ∃ ifis fuel, (∀ more, getIfiInfoPlus o ifreqSize k doaliases memory (fuel + more) = some (.ok ifis)) ∧
      (doaliases = true →
        let up := (walked ifreqSize all).filter fun item => iffUp (k.flags item.name.bytes)
        socketInfos o ifis = if up.length ≤ Transfer.maximumSocket then
            some (up.map fun item => ⟨hostAddr item.addr, hostAddr (k.netmask item.name.bytes)⟩)
          else none) ∧
      (ifis.filter fun ifi => !ifi.ifiAlias).map IfiInfo.ifiName =
        (((walked ifreqSize all).map fun item => item.name.bytes).destutter (· ≠ ·)).filter
          (fun name => iffUp (k.flags name)) ∧
      (doaliases = false ∨ (all.map fun item => item.name.bytes).Nodup →
        ∀ ifi ∈ ifis, ifi.ifiAlias = false) := by
  refine ⟨listed k doaliases [] (walked ifreqSize all), totalSize (fun _ => ifreqSize) all + 2, ?_, ?_,
    primary_names doaliases _, ?_⟩
  · intro more
    exact getIfiInfoPlus_eq o ifreqSize k all h memory hsize doaliases (by omega)
  · rintro rfl
    have hlisted := listed_aliases (k := k) [] (walked ifreqSize all)
    have hlength := congrArg List.length hlisted
    have hentries := congrArg (List.map fun e : List UInt8 × InAddr × InAddr =>
      (⟨hostAddr e.2.1, hostAddr e.2.2⟩ : Transfer.SocketInfo)) hlisted
    rw [List.length_map, List.length_map] at hlength
    rw [List.map_map, List.map_map] at hentries
    unfold socketInfos
    simp only [ntohl_ofBytes_addr]
    rw [hlength]
    split_ifs
    · exact congrArg some hentries
    · rfl
  · rintro (rfl | hnodup) ifi hifi
    · exact listed_noAlias hifi
    · apply listed_distinct _ hifi
      have hwalked : ((walked ifreqSize all).map fun item => item.name.bytes).Nodup :=
        hnodup.sublist ((walked_sublist ifreqSize all).map _)
      refine List.nodup_cons.mpr ⟨?_, hwalked⟩
      intro hmem
      obtain ⟨item, _, hnil⟩ := List.mem_map.mp hmem
      apply item.named
      rw [hnil]
      rfl

/-- A host of the lab with the sizes of a 64-bit system: of its four addresses one is left. -/
theorem ifi_info_listed_lab : ∃ ifis fuel,
    (∀ more, getIfiInfoPlus .little 40 labHost true (fun _ => 0) (fuel + more) = some (.ok ifis)) ∧
    socketInfos .little ifis = some [⟨hostAddr ⟨127, 0, 0, 1⟩, hostAddr ⟨255, 0, 0, 0⟩⟩] := by
  have hplain : ∀ item ∈ labAddrs, ∀ b ∈ item.name.bytes, Calm b := by
    simp [labAddrs, loName, ethName, Calm]
  obtain ⟨ifis, fuel, hget, hsockets, _⟩ := ifi_info_listed .little 40 labHost labAddrs
    (.fills fun _ => rfl) (fun _ => 0) (.inr ⟨rfl, fun _ => rfl, hplain⟩) true
  refine ⟨ifis, fuel, hget, ?_⟩
  rw [hsockets rfl]
  rfl

end NetLab.Interface
