import Mathlib.Init

/-!
# Time

An instant (`time.Time`) is an `Int`, the nanoseconds after Go's zero time, so that `t.IsZero()` is
`t = 0`, `t.After(u)` is `u < t` and `t.Add(d)` is `t + d`; a `time.Duration` is an `Int` of
nanoseconds. A reading of the system clock is always after the zero time, which lies in the year 1.
-/

namespace InfraBox

/-- `time.Second`. -/
def second : Int := 1000000000

/-- `time.Minute`. -/
def minute : Int := 60 * second

/-- `time.Hour`. -/
def hour : Int := 60 * minute

end InfraBox
