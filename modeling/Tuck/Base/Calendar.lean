/-
  The Gregorian calendar, and times as texts of digits.

  Years and months are counted off (`countOff`): the days that are left after as many whole years,
  and then months, as there is room for.
-/
import Tuck.Base.Bytes

namespace Tuck.Base

/-! ## Counting off -/

/-- Take whole units of the lengths `len k`, `len (k + 1)` and so on off `d`: the first unit that is
    not whole, and what is left. -/
def countOff (len : Nat → Nat) : Nat → Nat → Nat → Nat × Nat
  | 0, k, d => (k, d)
  | fuel + 1, k, d => if d < len k then (k, d) else countOff len fuel (k + 1) (d - len k)

/-! ## Dates -/

def isLeap (y : Nat) : Bool := y % 4 = 0 ∧ (y % 100 ≠ 0 ∨ y % 400 = 0)

def yearLen (y : Nat) : Nat := if isLeap y then 366 else 365

def monthLen (y : Nat) : Nat → Nat
  | 2 => if isLeap y then 29 else 28
  | 4 | 6 | 9 | 11 => 30
  | _ => 31

/-- The year, month and day of a day since 1 January 1970. The calendar repeats after 400 years,
    which are 146097 days; day -719528 is the first of the year 0. -/
def date (day : Int) : Int × Nat × Nat :=
  let z := day + 719528
  let r := (z % 146097).toNat
  let yr := countOff yearLen r 0 r
  let md := countOff (monthLen yr.1) yr.2 1 yr.2
  (400 * (z / 146097) + yr.1, md.1, md.2 + 1)

/-! ## Texts -/

/-- The last `w` decimal digits. -/
def pad : Nat → Nat → Bytes
  | 0, _ => []
  | w + 1, n => pad w (n / 10) ++ [UInt8.ofNat (48 + n % 10)]

/-- `appendInt` with a width of four. -/
def yearText (y : Int) : Bytes :=
  let digits := if y.natAbs < 10000 then pad 4 y.natAbs else decimal y.natAbs
  if y < 0 then 0x2D :: digits else digits

def dateText (d : Int × Nat × Nat) : Bytes := yearText d.1 ++ (pad 2 d.2.1 ++ pad 2 d.2.2)

/-- The time of a second of the day. -/
def timeText (r : Nat) : Bytes := pad 2 (r / 3600) ++ (pad 2 (r / 60 % 60) ++ pad 2 (r % 60))

/-- A time in seconds, in UTC, in the layout "20060102T150405". -/
def stamp (sec : Int) : Bytes :=
  dateText (date (sec / 86400)) ++ (0x54 :: timeText (sec % 86400).toNat)

example : stamp 1704164645 = ascii "20240102T030405" := by decide +kernel

end Tuck.Base
