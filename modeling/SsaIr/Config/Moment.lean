/-!
# Dates and times

A date, a time of day, or both, as they are written in a document. The numbers have the right count
of digits, and nothing more is known about them: `Moment.problem?` says whether there is such a
moment.
-/

namespace SsaIr

structure Date where
  year : Nat
  month : Nat
  day : Nat
deriving DecidableEq, Repr, Inhabited

structure TimeOfDay where
  hour : Nat
  minute : Nat
  second : Nat
deriving DecidableEq, Repr, Inhabited

/-- A distance from universal time in hours and minutes, in either direction. -/
structure Offset where
  hours : Nat
  minutes : Nat
  text : String
deriving DecidableEq, Repr, Inhabited

namespace Date

def isLeapYear (year : Nat) : Bool := year % 4 = 0 && (year % 100 ≠ 0 || year % 400 = 0)

def daysIn (year month : Nat) : Nat :=
  if month = 2 then if isLeapYear year then 29 else 28
  else if [4, 6, 9, 11].contains month then 30
  else 31

def hasDay (d : Date) : Bool := 1 ≤ d.day && d.day ≤ daysIn d.year d.month

end Date

inductive MomentProblem where
  | month
  | day
  | hour
  | minute
  | second
  | leftover (text : String)
deriving DecidableEq, Repr, Inhabited

def MomentProblem.message : MomentProblem → String
  | month => "month out of range"
  | day => "day out of range"
  | hour => "hour out of range"
  | minute => "minute out of range"
  | second => "second out of range"
  | leftover text => s!"extra text: \"{text}\""

def TimeOfDay.problem? (t : TimeOfDay) : Option MomentProblem :=
  if 24 ≤ t.hour then some .hour
  else if 60 ≤ t.minute then some .minute
  else if 60 ≤ t.second then some .second
  else none

def Date.monthProblem? (d : Date) : Option MomentProblem :=
  if d.month = 0 || 12 < d.month then some .month else none

/-- The offset is in range, where a full day and a full hour are allowed. -/
def Offset.isValid (o : Offset) : Bool := o.hours ≤ 24 && o.minutes ≤ 60

inductive Moment where
  | date (d : Date)
  | time (t : TimeOfDay)
  | both (d : Date) (t : TimeOfDay) (offset : Option Offset)
deriving DecidableEq, Repr, Inhabited

namespace Moment

/-- What is wrong with a moment, if anything. The day is looked at after everything else, because it
takes the whole date to judge it, and together with the offset. -/
def problem? : Moment → Option MomentProblem
  | date d => d.monthProblem?.or (if d.hasDay then none else some .day)
  | time t => t.problem?
  | both d t offset =>
    (d.monthProblem?.or t.problem?).or
      (match offset with
      | none => if d.hasDay then none else some .day
      | some o => if d.hasDay && o.isValid then none else some (.leftover o.text))

end Moment

end SsaIr
