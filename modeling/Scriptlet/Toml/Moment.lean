/-
  Scriptlet.Toml.Moment — dates and times of day.

  A moment is written as a date, a time or both, and in the last case an offset from
  universal time may follow. Seconds can be left out, and can have a fraction, of which nine
  digits count. What is left out of a date is the first day of the year 0, and of a time
  midnight.
-/

import Scriptlet.Text

namespace Scriptlet.Toml

inductive Zone where
  | offset (minutes : Int)
  | localDatetime
  | localDate
  | localTime
  deriving DecidableEq, Repr, Inhabited

structure Moment where
  year : Nat := 0
  month : Nat := 1
  day : Nat := 1
  hour : Nat := 0
  minute : Nat := 0
  second : Nat := 0
  nanosecond : Nat := 0
  zone : Zone
  deriving DecidableEq, Repr, Inhabited

namespace Zone

def minutes : Zone → Int
  | .offset n => n
  | _ => 0

def offsetText (z : Zone) : Text :=
  let n := z.minutes.natAbs
  let two (n : Nat) : Text := Text.padLeft 2 '0' (Text.ofNat n)
  (if z.minutes < 0 then "-" else "+") ++ two (n / 60) ++ two (n % 60)

def name (z : Zone) : Text :=
  match z with
  | .offset n => if n = 0 then "UTC" else z.offsetText
  | .localDatetime => "datetime-local"
  | .localDate => "date-local"
  | .localTime => "time-local"

end Zone

namespace Moment

/-- The fraction of a second without trailing zeros, and without a point if there is none. -/
def fractionText (nanosecond : Nat) : Text :=
  let digits := Text.padLeft 9 '0' (Text.ofNat nanosecond)
  let short := (digits.reverse.dropWhile (· == '0'.toUInt8)).reverse
  if short.isEmpty then [] else "." ++ short

def render (m : Moment) : Text :=
  let two (n : Nat) : Text := Text.padLeft 2 '0' (Text.ofNat n)
  Text.padLeft 4 '0' (Text.ofNat m.year) ++ "-" ++ two m.month ++ "-" ++ two m.day ++ " " ++ two m.hour ++ ":"
    ++ two m.minute ++ ":" ++ two m.second ++ fractionText m.nanosecond ++ " " ++ m.zone.offsetText ++ " "
    ++ m.zone.name

/-! ## Reading -/

def digits? (n : Nat) (t : Text) : Option (Nat × Text) :=
  let d := t.take n
  if d.length = n && d.all Text.isDigit then some (Text.digitsValue d, t.drop n) else none

def expect? (c : Char) : Text → Option Text
  | [] => none
  | b :: r => if b = c.toUInt8 then some r else none

def isLeap (year : Nat) : Bool := year % 4 = 0 && (year % 100 ≠ 0 || year % 400 = 0)

def daysIn (year month : Nat) : Nat :=
  if month = 2 then (if isLeap year then 29 else 28)
  else if month = 4 || month = 6 || month = 9 || month = 11 then 30
  else 31

def date? (m : Moment) (t : Text) : Option (Moment × Text) := do
  let (year, t) ← digits? 4 t
  let (month, t) ← digits? 2 (← expect? '-' t)
  let (day, t) ← digits? 2 (← expect? '-' t)
  if month < 1 || 12 < month || day < 1 || daysIn year month < day then none
  else some ({ m with year := year, month := month, day := day }, t)

/-- The digits behind a point, as nanoseconds; those beyond the ninth are dropped. -/
def fraction (t : Text) : Nat × Text :=
  match expect? '.' t with
  | some r =>
    let d := r.takeWhile Text.isDigit
    if d.isEmpty then (0, t) else (Text.digitsValue ((d ++ List.replicate 9 '0'.toUInt8).take 9), r.dropWhile Text.isDigit)
  | none => (0, t)

def time? (m : Moment) (t : Text) : Option (Moment × Text) := do
  let (hour, t) ← digits? 2 t
  let (minute, t) ← digits? 2 (← expect? ':' t)
  if 24 ≤ hour || 60 ≤ minute then none
  else
    let m := { m with hour := hour, minute := minute }
    match expect? ':' t with
    | none => some (m, t)
    | some t => do
      let (second, t) ← digits? 2 t
      let (nanosecond, t) := fraction t
      if 60 ≤ second then none else some ({ m with second := second, nanosecond := nanosecond }, t)

def offset? (t : Text) : Option Int :=
  let signed (t : Text) : Option Int := do
    let (hours, t) ← digits? 2 t
    let (minutes, t) ← digits? 2 (← expect? ':' t)
    if t.isEmpty && hours ≤ 24 && minutes ≤ 60 then some (60 * hours + minutes) else none
  match t with
  | [] => none
  | b :: r =>
    if b = 'Z'.toUInt8 then (if r.isEmpty then some 0 else none)
    else if b = '+'.toUInt8 then signed r
    else if b = '-'.toUInt8 then (signed r).map fun n => -n
    else none

/-- A date that may be followed by a time, which may be followed by an offset. -/
def dated? (t : Text) : Option Moment := do
  let (m, t) ← date? ⟨0, 1, 1, 0, 0, 0, 0, .localDate⟩ t
  if t.isEmpty then return m
  else
    let (m, t) ← time? m (← expect? 'T' t)
    if t.isEmpty then return { m with zone := .localDatetime } else return { m with zone := .offset (← offset? t) }

def undated? (t : Text) : Option Moment := do
  let (m, t) ← time? ⟨0, 1, 1, 0, 0, 0, 0, .localTime⟩ t
  if t.isEmpty then some m else none

/-- The moment that a text denotes. Date and time may be separated by a blank, and letters may
    be small. -/
def read? (t : Text) : Option Moment :=
  let t := t.map fun b =>
    if b = 't'.toUInt8 || b = ' '.toUInt8 then 'T'.toUInt8 else if b = 'z'.toUInt8 then 'Z'.toUInt8 else b
  dated? t <|> undated? t

end Moment

end Scriptlet.Toml
