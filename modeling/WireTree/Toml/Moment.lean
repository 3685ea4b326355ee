/-
**Dates and times of TOML.**

A date, a time of day, or both with a letter T or a space between them; a date and a time may be
followed by their distance from universal time.  The day must be one of its month, and a second
may be the 61st of its minute.

Main definitions:

* `WireTree.Toml.Date`, `WireTree.Toml.Time`, `WireTree.Toml.Moment`;
* `WireTree.Toml.readMoment`.
-/

import WireTree.Toml.Lexeme

set_option relaxedAutoImplicit false
set_option autoImplicit false

namespace WireTree.Toml

/-- A day of the calendar. -/
structure Date where
  /-- The year, of four digits. -/
  year : Nat
  /-- The month, from 1 on. -/
  month : Nat
  /-- The day of the month, from 1 on. -/
  day : Nat
deriving DecidableEq

/-- A time of day. -/
structure Time where
  /-- The hour, up to 23. -/
  hour : Nat
  /-- The minute, up to 59. -/
  minute : Nat
  /-- The second, up to 60. -/
  second : Nat
  /-- The decimal digits of the fraction of a second. -/
  fraction : List Nat
deriving DecidableEq

/-- A date, a time, or both. -/
inductive Moment where
  /-- A day. -/
  | date (date : Date)
  /-- A time of any day. -/
  | time (time : Time)
  /-- A time of a day; `offset` is its distance from universal time in minutes, if it is told. -/
  | dateTime (date : Date) (time : Time) (offset : Option Int)
deriving DecidableEq

/-- Whether a year has a 29th of February. -/
def isLeapYear (year : Nat) : Bool := year % 4 == 0 && (year % 100 != 0 || year % 400 == 0)

/-- The number of days of a month. -/
def daysInMonth (year month : Nat) : Nat :=
  if month = 2 then if isLeapYear year then 29 else 28
  else if month = 4 ∨ month = 6 ∨ month = 9 ∨ month = 11 then 30
  else 31

/-- A date. -/
def readDate : Reader Date := fun cs =>
  match fixedDigits 4 0 cs with
  | some (year, '-' :: cs) =>
    match fixedDigits 2 0 cs with
    | some (month, '-' :: cs) =>
      match fixedDigits 2 0 cs with
      | some (day, cs) =>
        if 1 ≤ month ∧ month ≤ 12 ∧ 1 ≤ day ∧ day ≤ daysInMonth year month then
          some (⟨year, month, day⟩, cs)
        else none
      | none => none
    | _ => none
  | _ => none

/-- The decimal digits in front. -/
def plainDigits : List Char → List Nat × List Char
  | [] => ([], [])
  | c :: rest =>
    match decimalValue c with
    | none => ([], c :: rest)
    | some d =>
      match plainDigits rest with
      | (ds, rest) => (d :: ds, rest)

/-- The fraction of a second; a point that no digit follows is left alone. -/
def readSecondFraction : List Char → List Nat × List Char
  | '.' :: rest =>
    match plainDigits rest with
    | ([], _) => ([], '.' :: rest)
    | (ds, rest) => (ds, rest)
  | cs => ([], cs)

/-- A time of day. -/
def readTime : Reader Time := fun cs =>
  match fixedDigits 2 0 cs with
  | some (hour, ':' :: cs) =>
    match fixedDigits 2 0 cs with
    | some (minute, ':' :: cs) =>
      match fixedDigits 2 0 cs with
      | some (second, cs) =>
        if hour ≤ 23 ∧ minute ≤ 59 ∧ second ≤ 60 then
          match readSecondFraction cs with
          | (fraction, cs) => some (⟨hour, minute, second, fraction⟩, cs)
        else none
      | none => none
    | _ => none
  | _ => none

/-- Hours and minutes, as minutes. -/
def readHourMinute : Reader Nat := fun cs =>
  match fixedDigits 2 0 cs with
  | some (hour, ':' :: cs) =>
    match fixedDigits 2 0 cs with
    | some (minute, cs) => if hour ≤ 23 ∧ minute ≤ 59 then some (60 * hour + minute, cs) else none
    | none => none
  | _ => none

/-- The distance from universal time in minutes, if one stands in front. -/
def readOffset : List Char → Option Int × List Char
  | [] => (none, [])
  | c :: rest =>
    if c == 'Z' || c == 'z' then (some 0, rest)
    else if c == '+' || c == '-' then
      match readHourMinute rest with
      | none => (none, c :: rest)
      | some (n, rest) => (some (if c == '-' then -(n : Int) else n), rest)
    else (none, c :: rest)

/-- A date, a time, or both. -/
def readMoment : Reader Moment := fun cs =>
  match readDate cs with
  | none =>
    match readTime cs with
    | none => none
    | some (time, cs) => some (.time time, cs)
  | some (date, []) => some (.date date, [])
  | some (date, c :: rest) =>
    if c == 'T' || c == 't' || c == ' ' then
      match readTime rest with
      | none => some (.date date, c :: rest)
      | some (time, rest) =>
        match readOffset rest with
        | (offset, rest) => some (.dateTime date time offset, rest)
    else some (.date date, c :: rest)

end WireTree.Toml
