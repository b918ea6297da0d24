import Mathlib.Data.List.Destutter
import NetLab.Lib.Fitting
import NetLab.Lib.Inet
import NetLab.Lib.Layout

/-! `get_hw_addrs`: the loop around `SIOCGIFCONF`, which the programs cannot ask how many addresses
the host has, and the list that is made of its last answer. -/
namespace NetLab.Interface
open NetLab.Lib

/-- `IFNAMSIZ`, the size of `ifr_name` and of `if_name`. -/
def ifName : ℕ := 16

/-- The name less what follows the colon of an alias. -/
def baseName (name : List UInt8) : List UInt8 := name.takeWhile (· != 58)

/-- `struct ifreq`, an address of the host with the name of its interface. -/
structure Ifreq where
  name : CText ifName
  addr : InAddr
  named : baseName name.bytes ≠ []
  deriving DecidableEq

def Ifreq.interface (item : Ifreq) : List UInt8 := baseName item.name.bytes

theorem Ifreq.interface_ne_nil (item : Ifreq) : item.interface ≠ [] := item.named

/-- `struct hwa_info` -/
structure HwaInfo where
  ifName : List UInt8
  ifHaddr : ℕ
  ifIndex : ℕ
  ipAlias : Bool
  ipAddr : InAddr
  deriving DecidableEq, Repr

def einval : ℕ := 22

/-- The system under the programs: what `ioctl` puts into a buffer of some bytes for
`SIOCGIFCONF`, or its `errno`, and what it knows about an interface. -/
structure Kernel where
  ifconf : ℕ → Except ℕ (List Ifreq)
  hwaddr : List UInt8 → ℕ
  index : List UInt8 → ℕ
  flags : List UInt8 → ℕ
  mtu : List UInt8 → ℕ
  netmask : List UInt8 → InAddr
  brdaddr : List UInt8 → InAddr
  dstaddr : List UInt8 → InAddr

section
variable (ifreqSize : ℕ)

/-- The loop from a buffer of `len` bytes on. It ends if the length is that of the answer before; any
error but `EINVAL` ends the program, and so does that one behind an answer. -/
def confLoop (ifconf : ℕ → Except ℕ (List Ifreq)) : ℕ → ℕ → ℕ → Option (Except ℕ (List Ifreq))
  | 0, _, _ => none
  | fuel + 1, len, lastlen =>
    match ifconf len with
    | .error errno =>
      if errno ≠ einval ∨ lastlen ≠ 0 then some (.error errno)
      else confLoop ifconf fuel (len + 10 * ifreqSize) lastlen
    | .ok ifreqs =>
      if totalSize (fun _ => ifreqSize) ifreqs = lastlen then some (.ok ifreqs)
      else confLoop ifconf fuel (len + 10 * ifreqSize) (totalSize (fun _ => ifreqSize) ifreqs)

def scanIfreqs (k : Kernel) : List UInt8 → List Ifreq → List HwaInfo
  | _, [] => []
  | lastname, item :: items =>
    ⟨item.name.bytes, k.hwaddr item.interface, k.index item.interface,
      lastname == item.interface, item.addr⟩ :: scanIfreqs k item.interface items

/-- `get_hw_addrs`, an error if it ends the program, none without fuel. -/
def getHwAddrs (k : Kernel) (fuel : ℕ) : Option (Except ℕ (List HwaInfo)) :=
  (confLoop ifreqSize k.ifconf fuel (100 * ifreqSize) 0).map fun r => r.map (scanIfreqs k [])

/-- How systems answer `SIOCGIFCONF` on a host with these addresses: with as many as the buffer
takes, or with `EINVAL` where it does not take all. -/
inductive Answers (all : List Ifreq) (ifconf : ℕ → Except ℕ (List Ifreq)) : Prop
  | fills (h : ∀ len, ifconf len = .ok (fitting (fun _ => ifreqSize) len all))
  | refuses (h : ∀ len, ifconf len =
      if totalSize (fun _ => ifreqSize) all ≤ len then .ok all else .error einval)

end

section
variable {ifreqSize : ℕ} {all : List Ifreq} {ifconf : ℕ → Except ℕ (List Ifreq)}

theorem confLoop_fills (hsize : 0 < ifreqSize)
    (h : ∀ len, ifconf len = .ok (fitting (fun _ => ifreqSize) len all)) {fuel len prev : ℕ}
    (hlen : prev + 10 * ifreqSize ≤ len)
    (hfuel : totalSize (fun _ => ifreqSize) all -
      totalSize (fun _ => ifreqSize) (fitting (fun _ => ifreqSize) prev all) < fuel) :
    confLoop ifreqSize ifconf fuel len
      (totalSize (fun _ => ifreqSize) (fitting (fun _ => ifreqSize) prev all)) = some (.ok all) := by
  have hrecord : ∀ x ∈ all, 0 < ifreqSize ∧ ifreqSize ≤ 10 * ifreqSize := fun _ _ => ⟨hsize, by omega⟩
  induction fuel generalizing len prev with
  | zero => omega
  | succ fuel ih =>
    rw [confLoop, h len]
    dsimp only
    split_ifs with heq
    · rw [fitting_eq_of_totalSize_eq hrecord hlen heq]
    · have hcut : fitting (fun _ => ifreqSize) prev all ≠ all := by
        intro hwhole
        have hle := totalSize_fitting_le (fun _ : Ifreq => ifreqSize) prev all
        rw [hwhole] at hle heq
        rw [fitting_of_le _ (by omega)] at heq
        exact heq rfl
      have hlt := totalSize_fitting_lt hrecord hlen hcut
      have hle := totalSize_fitting_le_totalSize (fun _ : Ifreq => ifreqSize) len all
      apply ih (Nat.le_refl _)
      omega

theorem confLoop_refuses (hsize : 0 < ifreqSize)
    (h : ∀ len, ifconf len = if totalSize (fun _ => ifreqSize) all ≤ len then .ok all
      else .error einval) {fuel len : ℕ}
    (hfuel : totalSize (fun _ => ifreqSize) all - len + 1 < fuel) :
    confLoop ifreqSize ifconf fuel len 0 = some (.ok all) := by
  induction fuel generalizing len with
  | zero => omega
  | succ fuel ih =>
    rw [confLoop, h len]
    by_cases hle : totalSize (fun _ => ifreqSize) all ≤ len
    · rw [if_pos hle]
      dsimp only
      split_ifs with heq
      · rfl
      · obtain ⟨fuel, rfl⟩ : ∃ f, fuel = f + 1 := ⟨fuel - 1, by omega⟩
        rw [confLoop, h, if_pos (by omega)]
        dsimp only
        rw [if_pos rfl]
    · rw [if_neg hle]
      dsimp only
      rw [if_neg (by simp)]
      exact ih (by omega)

theorem Answers.confLoop_eq (h : Answers ifreqSize all ifconf) (hsize : 0 < ifreqSize) {fuel : ℕ}
    (hfuel : totalSize (fun _ => ifreqSize) all + 1 < fuel) :
    confLoop ifreqSize ifconf fuel (100 * ifreqSize) 0 = some (.ok all) := by
  cases h with
  | fills h =>
    have hnone : fitting (fun _ => ifreqSize) 0 all = [] := by
      cases all with
      | nil => rfl
      | cons x xs => rw [fitting, if_neg (by omega)]
    have hroom : 0 + 10 * ifreqSize ≤ 100 * ifreqSize := by omega
    have hloop := confLoop_fills hsize h hroom (Nat.lt_of_le_of_lt (Nat.sub_le _ _) (Nat.lt_of_succ_lt hfuel))
    rwa [hnone, totalSize_nil] at hloop
  | refuses h => exact confLoop_refuses hsize h (by omega)

theorem confLoop_more {fuel len lastlen : ℕ} {r : Except ℕ (List Ifreq)}
    (h : confLoop ifreqSize ifconf fuel len lastlen = some r) (more : ℕ) :
    confLoop ifreqSize ifconf (fuel + more) len lastlen = some r := by
  induction fuel generalizing len lastlen with
  | zero => cases h
  | succ fuel ih =>
    rw [Nat.succ_add]
    unfold confLoop at h ⊢
    split at h
    · split_ifs at h ⊢
      · exact h
      · exact ih h
    · split_ifs at h ⊢
      · exact h
      · exact ih h

theorem getHwAddrs_eq {k : Kernel} (hsize : 0 < ifreqSize) (h : Answers ifreqSize all k.ifconf)
    {fuel : ℕ} {hwas : List HwaInfo} (hget : getHwAddrs ifreqSize k fuel = some (.ok hwas)) :
    hwas = scanIfreqs k [] all := by
  obtain ⟨r, hr, heq⟩ := Option.map_eq_some_iff.mp hget
  have hmore := confLoop_more hr (totalSize (fun _ => ifreqSize) all + 2)
  rw [h.confLoop_eq hsize (by omega)] at hmore
  cases hmore
  cases heq
  rfl

variable (k : Kernel)

theorem scanIfreqs_entries (lastname : List UInt8) (items : List Ifreq) :
    (scanIfreqs k lastname items).map (fun hwa => (hwa.ifName, hwa.ipAddr)) =
      items.map (fun item => (item.name.bytes, item.addr)) := by
  induction items generalizing lastname with
  | nil => rfl
  | cons item items ih => simp only [scanIfreqs, List.map_cons, ih]

theorem scanIfreqs_hw {lastname : List UInt8} {items : List Ifreq} {hwa : HwaInfo}
    (h : hwa ∈ scanIfreqs k lastname items) :
    hwa.ifHaddr = k.hwaddr (baseName hwa.ifName) ∧ hwa.ifIndex = k.index (baseName hwa.ifName) := by
  induction items generalizing lastname with
  | nil => cases h
  | cons item items ih =>
    rcases List.mem_cons.mp h with rfl | h
    · exact ⟨rfl, rfl⟩
    · exact ih h

theorem scanIfreqs_primary (lastname : List UInt8) (items : List Ifreq) :
    lastname :: ((scanIfreqs k lastname items).filter fun hwa => !hwa.ipAlias).map
      (fun hwa => baseName hwa.ifName) =
      (items.map fun item => item.interface).destutter' (· ≠ ·) lastname := by
  induction items generalizing lastname with
  | nil => rfl
  | cons item items ih =>
    rw [scanIfreqs, List.map_cons]
    by_cases hsame : lastname = item.interface
    · rw [List.destutter'_cons_neg _ (by simpa using hsame), ← hsame, ← ih lastname]
      simp
    · rw [List.destutter'_cons_pos _ hsame, ← ih item.interface]
      have hname : baseName item.name.bytes = item.interface := rfl
      simp [hsame, hname]

end

/-- The interfaces of the addresses, each as often as its addresses stand together. -/
def interfaces (all : List Ifreq) : List (List UInt8) :=
  (all.map fun item => item.interface).destutter (· ≠ ·)

theorem mem_interfaces {all : List Ifreq} {item : Ifreq} (h : item ∈ all) :
    item.interface ∈ interfaces all := by
  have hmem : ∀ (last : List UInt8) (names : List (List UInt8)), ∀ name ∈ last :: names,
      name ∈ names.destutter' (· ≠ ·) last := by
    intro last names
    induction names generalizing last with
    | nil =>
      intro name hname
      exact hname
    | cons next names ih =>
      intro name hname
      by_cases heq : last = next
      · subst heq
        rw [List.destutter'_cons_neg _ (by simp)]
        apply ih
        simpa using hname
      · rw [List.destutter'_cons_pos _ heq]
        rcases List.mem_cons.mp hname with rfl | hname
        · exact List.mem_cons_self
        · exact List.mem_cons_of_mem _ (ih next name hname)
  cases all with
  | nil => cases h
  | cons first rest =>
    unfold interfaces
    rw [List.map_cons, List.destutter_cons']
    apply hmem
    have hname : item.interface ∈ (first :: rest).map fun item => item.interface :=
      List.mem_map_of_mem h
    exact hname

theorem primary_interfaces (k : Kernel) (all : List Ifreq) :
    ((scanIfreqs k [] all).filter fun hwa => !hwa.ipAlias).map (fun hwa => baseName hwa.ifName) =
      interfaces all := by
  have hprimary := scanIfreqs_primary k [] all
  cases all with
  | nil => rfl
  | cons first rest =>
    rw [List.map_cons, List.destutter'_cons_pos _ first.interface_ne_nil.symm] at hprimary
    exact (List.cons.inj hprimary).2

/-- However the system answers, and however many addresses the host has: the loop ends, and the list
has every address once, in the order of the system, with the hardware address and the index of its
interface. If the addresses of each interface stand together, one entry of each is no alias. -/
theorem hw_addrs_listed (ifreqSize : ℕ) (hsize : 0 < ifreqSize) (k : Kernel) (all : List Ifreq)
    (h : Answers ifreqSize all k.ifconf) :
    ∃ hwas fuel, (∀ more, getHwAddrs ifreqSize k (fuel + more) = some (.ok hwas)) ∧
      hwas.map (fun hwa => (hwa.ifName, hwa.ipAddr)) = all.map (fun item => (item.name.bytes, item.addr)) ∧
      (∀ hwa ∈ hwas, hwa.ifHaddr = k.hwaddr (baseName hwa.ifName) ∧
        hwa.ifIndex = k.index (baseName hwa.ifName)) ∧
      ((interfaces all).Nodup → ∀ item ∈ all,
        ((hwas.filter fun hwa => !hwa.ipAlias).map fun hwa => baseName hwa.ifName).count
          item.interface = 1) := by
  refine ⟨scanIfreqs k [] all, totalSize (fun _ => ifreqSize) all + 2, ?_, scanIfreqs_entries k [] all,
    fun hwa => scanIfreqs_hw k, ?_⟩
  · intro more
    unfold getHwAddrs
    rw [h.confLoop_eq hsize (by omega)]
    rfl
  · intro hgrouped item hitem
    rw [primary_interfaces]
    exact List.count_eq_one_of_mem hgrouped (mem_interfaces hitem)

def loName : List UInt8 := [108, 111]

def ethName (n : UInt8) : List UInt8 := [101, 116, 104, 48 + n]

/-- A host of the lab: the loopback, eth0, and eth1 with a second address. -/
def labAddrs : List Ifreq :=
  [⟨⟨loName, by simp [loName], by decide⟩, ⟨127, 0, 0, 1⟩, by decide⟩,
    ⟨⟨ethName 0, by simp [ethName], by decide⟩, ⟨130, 245, 156, 21⟩, by decide⟩,
    ⟨⟨ethName 1, by simp [ethName], by decide⟩, ⟨192, 168, 1, 101⟩, by decide⟩,
    ⟨⟨ethName 1 ++ [58, 49], by simp [ethName], by decide⟩, ⟨192, 168, 1, 102⟩, by decide⟩]

def labHost : Kernel where
  ifconf len := .ok (fitting (fun _ => 40) len labAddrs)
  hwaddr name := if name = loName then 0 else if name = ethName 0 then 0x000c29493f5b
    else 0x000c29493f65
  index name := if name = loName then 1 else if name = ethName 0 then 2 else 3
  flags name := if name = loName then 0x49 else 0x1043
  mtu name := if name = loName then 16436 else 1500
  netmask name := if name = loName then ⟨255, 0, 0, 0⟩ else ⟨255, 255, 255, 0⟩
  brdaddr name := if name = ethName 0 then ⟨130, 245, 156, 255⟩ else ⟨192, 168, 1, 255⟩
  dstaddr _ := ⟨0, 0, 0, 0⟩

theorem hw_addrs_listed_lab : ∃ hwas fuel,
    (∀ more, getHwAddrs 40 labHost (fuel + more) = some (.ok hwas)) ∧
    hwas.map (fun hwa => (hwa.ifName, hwa.ipAddr)) =
      labAddrs.map (fun item => (item.name.bytes, item.addr)) ∧
    ((hwas.filter fun hwa => !hwa.ipAlias).map fun hwa => baseName hwa.ifName).count (ethName 1) = 1 := by
  obtain ⟨hwas, fuel, hget, hentries, _, hprimary⟩ :=
    hw_addrs_listed 40 (by decide) labHost labAddrs (.fills fun _ => rfl)
  refine ⟨hwas, fuel, hget, hentries, ?_⟩
  have hgrouped : (interfaces labAddrs).Nodup := by decide
  exact hprimary hgrouped ⟨⟨ethName 1, by simp [ethName], by decide⟩, ⟨192, 168, 1, 101⟩, by decide⟩
    (by simp [labAddrs])

end NetLab.Interface
