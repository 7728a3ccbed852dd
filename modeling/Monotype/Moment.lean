/-!
# Dates and times

A date, or a date with a time of day, perhaps with its distance from universal time.  `Moment.text`
writes one the usual way, and `Moment.shown` is the form in which messages show it, field by field.
-/

namespace Monotype

/-- A date, or a date with a time of day. -/
inductive Moment where
  | date (year month day : Nat)
  -- A time on a day, to the microsecond; the distance from universal time is in minutes.
  | time (year month day hour minute second micro : Nat) (offset : Option Int)
  deriving DecidableEq, Repr

namespace Moment

def isLeap (year : Nat) : Bool := year % 4 = 0 && (year % 100 ≠ 0 || year % 400 = 0)

def daysIn (year month : Nat) : Nat :=
  if month = 2 then if isLeap year then 29 else 28
  else if [4, 6, 9, 11].contains month then 30
  else 31

def padded (width n : Nat) : String :=
  let digits := toString n
  String.ofList (List.replicate (width - digits.length) '0') ++ digits

def dayText (year month day : Nat) : String :=
  padded 4 year ++ "-" ++ padded 2 month ++ "-" ++ padded 2 day

def offsetText (minutes : Int) : String :=
  (if minutes < 0 then "-" else "+") ++ padded 2 (minutes.natAbs / 60) ++ ":" ++
    padded 2 (minutes.natAbs % 60)

def text : Moment → String
  | .date y m d => dayText y m d
  | .time y m d h n s u offset =>
      dayText y m d ++ " " ++ padded 2 h ++ ":" ++ padded 2 n ++ ":" ++ padded 2 s ++
        (if u = 0 then "" else "." ++ padded 6 u) ++
        (match offset with
          | some minutes => offsetText minutes
          | none => "")

/-- The form in which messages show a span of minutes: whole days, which may be negative, and then
seconds. -/
def spanShown (minutes : Int) : String :=
  let days := minutes.fdiv 1440
  let seconds := minutes.fmod 1440 * 60
  let parts := (if days = 0 then [] else ["days=" ++ toString days]) ++
    (if seconds = 0 then [] else ["seconds=" ++ toString seconds])
  "datetime.timedelta(" ++ (if parts.isEmpty then "0" else ", ".intercalate parts) ++ ")"

def offsetShown (minutes : Int) : String :=
  if minutes = 0 then "datetime.timezone.utc"
  else "datetime.timezone(" ++ spanShown minutes ++ ")"

/-- The form in which messages show a moment.  Seconds and their fractions are left out when nothing
but zeros would follow. -/
def shown : Moment → String
  | .date y m d => "datetime.date(" ++ ", ".intercalate ([y, m, d].map toString) ++ ")"
  | .time y m d h n s u offset =>
      let fraction := if u = 0 then [] else [u]
      let seconds := if s = 0 ∧ u = 0 then [] else s :: fraction
      let zone :=
        match offset with
        | some minutes => ["tzinfo=" ++ offsetShown minutes]
        | none => []
      "datetime.datetime(" ++
        ", ".intercalate (([y, m, d, h, n] ++ seconds).map toString ++ zone) ++ ")"

end Moment

end Monotype
