import DocPath.Number.Numeral

/-! Dates and times of day, with or without an offset from universal time. -/

namespace DocPath

structure Date where
  year : Nat
  month : Nat
  day : Nat
  deriving DecidableEq

/-- A date with a time of day; the offset is in seconds. -/
structure DateTime where
  date : Date
  hour : Nat
  minute : Nat
  second : Nat
  microsecond : Nat
  offset : Option Int
  deriving DecidableEq

/-- The first field of a date or time that is out of its range. -/
inductive TimeFault where
  | year (value : Nat)
  | month
  | day
  | hour
  | minute
  | second
  /-- An offset of a day or more, in seconds. -/
  | offset (seconds : Int)
  deriving DecidableEq

namespace Date

def isLeap (year : Nat) : Bool := year % 4 == 0 && (year % 100 != 0 || year % 400 == 0)

def daysIn (year month : Nat) : Nat :=
  if month = 2 then if isLeap year then 29 else 28
  else if month = 4 ∨ month = 6 ∨ month = 9 ∨ month = 11 then 30
  else 31

/-- A date from year 1 on; the fields are checked from the largest to the smallest. -/
def make (year month day : Nat) : Except TimeFault Date :=
  if year < 1 ∨ 9999 < year then .error (.year year)
  else if month < 1 ∨ 12 < month then .error .month
  else if day < 1 ∨ daysIn year month < day then .error .day
  else .ok ⟨year, month, day⟩

/-- Year, month and day with dashes. -/
def text (d : Date) : Text :=
  Text.ofNatPadded 4 d.year ++ "-" ++ Text.ofNatPadded 2 d.month ++ "-" ++ Text.ofNatPadded 2 d.day

/-- The call that builds a date. -/
def shown (d : Date) : Text :=
  "datetime.date(" ++ Text.join ", " ([d.year, d.month, d.day].map Text.ofNat) ++ ")"

end Date

/-- A signed span of seconds, shown with its days counted downwards for negative spans. -/
def spanShown (seconds : Int) : Text :=
  let days := seconds.fdiv 86400
  let rest := seconds.fmod 86400
  let fields : List Text :=
    (if days = 0 then [] else ["days=" ++ Text.ofInt days]) ++
      (if rest = 0 then [] else ["seconds=" ++ Text.ofInt rest])
  .concat ["datetime.timedelta(", if fields.isEmpty then "0" else Text.join ", " fields, ")"]

def TimeFault.message : TimeFault → Text
  | year value => .concat ["year ", .ofNat value, " is out of range"]
  | month => "month must be in 1..12"
  | day => "day is out of range for month"
  | hour => "hour must be in 0..23"
  | minute => "minute must be in 0..59"
  | second => "second must be in 0..59"
  | offset seconds =>
    .concat ["offset must be a timedelta strictly between -timedelta(hours=24) and ",
      "timedelta(hours=24), not ", spanShown seconds, "."]

namespace DateTime

/-- A date and time; after the date the time of day is checked field by field. -/
def make (year month day hour minute second microsecond : Nat) (offset : Option Int) :
    Except TimeFault DateTime := do
  match offset with
  | some s => if s ≤ -86400 ∨ 86400 ≤ s then throw (.offset s)
  | none => pure ()
  let date ← Date.make year month day
  if 23 < hour then throw .hour
  if 59 < minute then throw .minute
  if 59 < second then throw .second
  pure ⟨date, hour, minute, second, microsecond, offset⟩

/-- An offset as sign, hours and minutes, and seconds if there are any. -/
def offsetText (offset : Int) : Text :=
  let n := offset.natAbs
  .concat [if offset < 0 then "-" else "+", Text.ofNatPadded 2 (n / 3600), ":",
    Text.ofNatPadded 2 (n / 60 % 60), if n % 60 = 0 then "" else ":" ++ Text.ofNatPadded 2 (n % 60)]

/-- Date and time of day with a given separator; microseconds only if there are any. -/
def text (separator : Text) (d : DateTime) : Text :=
  .concat [d.date.text, separator, Text.ofNatPadded 2 d.hour, ":", Text.ofNatPadded 2 d.minute,
    ":", Text.ofNatPadded 2 d.second,
    if d.microsecond = 0 then "" else "." ++ Text.ofNatPadded 6 d.microsecond,
    match d.offset with
    | none => ""
    | some s => offsetText s]

/-- The call that builds a date and time; trailing zeros below the minute are left out. -/
def shown (d : DateTime) : Text :=
  let seconds :=
    if d.microsecond ≠ 0 then [d.second, d.microsecond] else if d.second ≠ 0 then [d.second] else []
  let fields := [d.date.year, d.date.month, d.date.day, d.hour, d.minute] ++ seconds
  .concat ["datetime.datetime(", Text.join ", " (fields.map Text.ofNat),
    match d.offset with
    | none => ""
    | some s =>
      if s = 0 then ", tzinfo=datetime.timezone.utc"
      else .concat [", tzinfo=datetime.timezone(", spanShown s, ")"],
    ")"]

end DateTime

end DocPath
