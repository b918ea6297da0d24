import NetLab.Lib.Inet

/-! The table `vm_addr`, which the ARP and the Tour process share, and the loops that search it. -/
namespace NetLab.Tour

open Lib

def ascii (s : String) : List UInt8 := s.toList.map fun c => .ofNat c.toNat

def vmAddr (k : Fin 10) : List UInt8 :=
  ascii ([
    "130.245.156.21",
    "130.245.156.22",
    "130.245.156.23",
    "130.245.156.24",
    "130.245.156.25",
    "130.245.156.26",
    "130.245.156.27",
    "130.245.156.28",
    "130.245.156.29",
    "130.245.156.20"].get k)

def vm (number : ℕ) : Fin 10 := ⟨(number - 1) % 10, Nat.mod_lt _ (Nat.succ_pos 9)⟩

/-- The position of a text, none where the loop ends with `index == 10`. -/
def vmIndex (ip : List UInt8) : Option (Fin 10) := (List.finRange 10).find? fun k => ip == vmAddr k

/-- The address that the text stands for. -/
def vmInAddr (k : Fin 10) : InAddr :=
  ⟨130, 245, 156, [21, 22, 23, 24, 25, 26, 27, 28, 29, 20].get k⟩

theorem vmAddr_eq_ntop (k : Fin 10) : vmAddr k = ntop (vmInAddr k) := by
  revert k
  decide +kernel

theorem vmInAddr_inj {j k : Fin 10} (h : vmInAddr j = vmInAddr k) : j = k := by
  revert j k
  decide +kernel

theorem vmAddr_inj {j k : Fin 10} (h : vmAddr j = vmAddr k) : j = k := by
  rw [vmAddr_eq_ntop, vmAddr_eq_ntop] at h
  exact vmInAddr_inj (ntop_inj h)

theorem vmAddr_ne_nil (k : Fin 10) : vmAddr k ≠ [] := by
  revert k
  decide +kernel

@[simp] theorem vmIndex_eq_some {ip : List UInt8} {k : Fin 10} :
    vmIndex ip = some k ↔ ip = vmAddr k := by
  constructor
  · intro h
    simpa using List.find?_some h
  · rintro rfl
    have hfind : ∀ k : Fin 10, vmIndex (vmAddr k) = some k := by decide +kernel
    exact hfind k

end NetLab.Tour
