import Mathlib.Data.Int.Notation
import Mathlib.Data.Nat.Notation

/-! The integer RTT estimator of the library. Divisions that the source writes on doubles are
exact there and truncated when the result is stored in an `int`. -/
namespace NetLab.Transfer

structure Timeval where
  sec : ℕ
  usec : ℕ
  deriving DecidableEq, Repr

structure RttInfo where
  rtt : ℤ
  srtt : ℤ
  rttvar : ℤ
  rto : ℤ
  nrexmt : ℕ
  base : ℕ
  deriving DecidableEq, Repr

def rttRxtmin : ℤ := 1

def rttRxtmax : ℤ := 3

def rttMaxnrexmt : ℕ := 12

def rttMinmax (rto : ℤ) : ℤ :=
  if rto < rttRxtmin then rttRxtmin else if rto > rttRxtmax then rttRxtmax else rto

def rttRtocalc (srtt rttvar : ℤ) : ℤ := (srtt + 4 * rttvar).tdiv 8

/-- `rtt_init` leaves `rtt_nrexmt` alone. -/
def rttInit (r : RttInfo) (tv : Timeval) : RttInfo :=
  { r with base := tv.sec % 4294967296, rtt := 0, srtt := 0, rttvar := 6,
           rto := rttMinmax (rttRtocalc 0 6) }

/-- Milliseconds since `rtt_init`, as a 32-bit word. -/
def rttTs (r : RttInfo) (tv : Timeval) : ℕ :=
  ((((tv.sec : ℤ) - r.base) * 1000 + (tv.usec / 1000 : ℕ)) % 4294967296).toNat

def rttNewpack (r : RttInfo) : RttInfo := { r with nrexmt := 0 }

def rttStart (r : RttInfo) : ℤ := r.rto

def rttStop (r : RttInfo) (ms : ℕ) : RttInfo :=
  let rtt : ℤ := (ms * 8 % 4294967296 / 1000 : ℕ)
  let delta := rtt - r.srtt
  let srtt := (8 * r.srtt + delta).tdiv 8
  let delta := if delta < 0 then -delta else delta
  let rttvar := (4 * r.rttvar + (delta - r.rttvar)).tdiv 4
  { r with rtt := rtt, srtt := srtt, rttvar := rttvar, rto := rttMinmax (rttRtocalc srtt rttvar) }

/-- The flag is set when it is time to give up. -/
def rttTimeout (r : RttInfo) : RttInfo × Bool :=
  ({ r with rto := rttMinmax (r.rto * 2), nrexmt := r.nrexmt + 1 },
    decide (r.nrexmt + 1 > rttMaxnrexmt))

end NetLab.Transfer
