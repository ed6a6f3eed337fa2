import Mathlib.Algebra.Group.Nat.Defs

namespace Niuchacz.Timer

/-!
# Timestamps (`algorithms/timer/timer.c`)

`struct timespec` with 64-bit fields.  The arithmetic is that of the machine: the product in
`timerTimespecToNs` is taken in 64-bit two's complement, for deadlines of any content.
-/

/-- `struct timespec`. -/
structure Timespec where
  tv_sec : Int64
  tv_nsec : Int64
  deriving DecidableEq

/-- `timerTimespecToNs`. -/
def timerTimespecToNs (ts : Timespec) : UInt64 := (ts.tv_sec * 1000000000 + ts.tv_nsec).toUInt64

/-- `timerCmp`. -/
def timerCmp (ts1 ts2 : Timespec) : Int :=
  let ullpts1 := timerTimespecToNs ts1
  let ullpts2 := timerTimespecToNs ts2
  if ullpts1 = ullpts2 then 0 else if ullpts1 < ullpts2 then -1 else 1

/-- `timerIsNull`, for a pointer that is not `NULL`. -/
def timerIsNull (ts : Timespec) : Bool := ts.tv_sec = 0 && ts.tv_nsec = 0

/-- `ts->tv_sec += seconds`. -/
def Timespec.addSeconds (ts : Timespec) (seconds : Int32) : Timespec :=
  { ts with tv_sec := ts.tv_sec + seconds.toInt64 }

end Niuchacz.Timer
