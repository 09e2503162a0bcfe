import Guatiao.Value.Time

/-!
# The text of dates and times

Each type is written as RFC 3339 text and read from it. A timestamp is read with any offset, and what
is read is the instant the text names. A refusal names the byte it stopped at and what it expected.
-/

namespace Guatiao.Civil

open Lib Gregorian

/-- An instant: seconds from the epoch, and nanoseconds counted forward. -/
structure Timestamp where
  seconds : ℤ
  nanoseconds : ℕ
  deriving DecidableEq, Repr

/-- The instant so many seconds after the epoch and so many nanoseconds, where it is writable. -/
def Timestamp.fromUnix (seconds : ℤ) (nanoseconds : ℕ) : Option Timestamp :=
  if nanosPerSecond ≤ nanoseconds ||
      !(firstDay * daySeconds ≤ seconds && seconds < (lastDay + 1) * daySeconds) then none
  else some ⟨seconds, nanoseconds⟩

/-- The date and time of day in UTC. -/
def Timestamp.utc (t : Timestamp) : Except Overflow DateTime := do
  let date ← Date.fromDays (t.seconds / daySeconds)
  pure ⟨date, Time.fromSecondsOfDay (t.seconds % daySeconds) t.nanoseconds⟩

/-- A signed number behind the zeros that fill a width. -/
def paddedInt (width : ℕ) (x : ℤ) : List UInt8 :=
  if x < 0 then ascii '-' :: padded (width - 1) x.natAbs else padded width x.toNat

/-- `YYYY-MM-DD`. -/
def Date.display (d : Date) : List UInt8 :=
  paddedInt 4 d.year ++ ascii '-' :: padded 2 d.month ++ ascii '-' :: padded 2 d.day

/-- `HH:MM:SS`, and the fraction when there is one. -/
def Time.display (t : Time) : List UInt8 :=
  padded 2 t.hour ++ ascii ':' :: padded 2 t.minute ++ ascii ':' :: padded 2 t.second ++
    writeFraction t.nanosecond

/-- The date, `T`, the time. -/
def DateTime.display (dt : DateTime) : List UInt8 := dt.date.display ++ ascii 'T' :: dt.time.display

/-- The instant in UTC: the date, `T`, the time, `Z`. -/
def Timestamp.display (t : Timestamp) : Except Overflow (List UInt8) := do
  let utc ← t.utc
  pure (utc.display ++ [ascii 'Z'])

/-- Exactly so many digits, as a number. -/
def digits (n : ℕ) (expected : String) (c : Cursor UInt8) : Except ValueError (ℕ × Cursor UInt8) :=
  if c.rest.length < n then refuse c expected
  else if (c.rest.take n).all asciiDigit then .ok (valueOf (c.rest.take n), skip c n)
  else refuse c expected

/-- Two digits from `min` to `max`. -/
def field (min max : ℕ) (expected : String) (c : Cursor UInt8) :
    Except ValueError (ℕ × Cursor UInt8) := do
  let (v, c') ← digits 2 expected c
  if v < min ∨ max < v then refuse c expected else pure (v, c')

/-- One of some bytes. -/
def byte (anyOf : List UInt8) (expected : String) (c : Cursor UInt8) :
    Except ValueError (UInt8 × Cursor UInt8) :=
  match c.rest with
  | b :: _ => if b ∈ anyOf then .ok (b, skip c 1) else refuse c expected
  | [] => refuse c expected

/-- Nothing more. -/
def atEnd (expected : String) (c : Cursor UInt8) : Except ValueError Unit :=
  if c.rest = [] then .ok () else refuse c expected

/-- `YYYY-MM-DD`, a day the month has. -/
def readDate (c : Cursor UInt8) : Except ValueError (Date × Cursor UInt8) := do
  let (y, c) ← digits 4 "a four-digit year" c
  let (_, c) ← byte [ascii '-'] "'-' after the year" c
  let (m, c) ← field 1 12 "a month from 01 to 12" c
  let (_, c) ← byte [ascii '-'] "'-' after the month" c
  let (d, c') ← field 1 31 "a day of the month" c
  if daysInMonth y m < d then refuse c "a day of the month" else pure (⟨y, m, d⟩, c')

/-- `.` and one to nine digits, as nanoseconds, or nothing. -/
def readFraction (c : Cursor UInt8) : Except ValueError (ℕ × Cursor UInt8) :=
  if c.rest.head? = some (ascii '.') then
    let start := skip c 1
    let run := start.rest.takeWhile asciiDigit
    if run.length = 0 ∨ 9 < run.length then
      refuse start "one to nine digits of a second, no finer than a nanosecond"
    else .ok (valueOf run * 10 ^ (9 - run.length), skip start run.length)
  else .ok (0, c)

/-- `HH:MM:SS` and an optional `.` with one to nine digits. -/
def readTime (c : Cursor UInt8) : Except ValueError (Time × Cursor UInt8) := do
  let (hh, c) ← field 0 23 "an hour from 00 to 23" c
  let (_, c) ← byte [ascii ':'] "':' after the hour" c
  let (mm, c) ← field 0 59 "a minute from 00 to 59" c
  let (_, c) ← byte [ascii ':'] "':' after the minute" c
  let (ss, c) ← field 0 59 "a second from 00 to 59" c
  let (nanos, c) ← readFraction c
  pure (⟨hh, mm, ss, nanos⟩, c)

/-- A date, `T` or `t`, and a time. -/
def readDateTime (c : Cursor UInt8) : Except ValueError (DateTime × Cursor UInt8) := do
  let (date, c) ← readDate c
  let (_, c) ← byte [ascii 'T', ascii 't'] "'T' between the date and the time" c
  let (time, c) ← readTime c
  pure (⟨date, time⟩, c)

/-- `Z`, `z`, or `+HH:MM` / `-HH:MM`, as seconds east of UTC. -/
def readOffset (c : Cursor UInt8) : Except ValueError (ℤ × Cursor UInt8) := do
  let (sign, c) ← byte [ascii 'Z', ascii 'z', ascii '+', ascii '-'] "'Z' or an offset such as +05:30" c
  if sign = ascii 'Z' ∨ sign = ascii 'z' then pure (0, c)
  else
    let (oh, c) ← field 0 23 "an offset hour from 00 to 23" c
    let (_, c) ← byte [ascii ':'] "':' in the offset" c
    let (om, c) ← field 0 59 "an offset minute from 00 to 59" c
    let o : ℤ := oh * 3600 + om * 60
    pure (if sign = ascii '-' then -o else o, c)

def Date.parse (text : List UInt8) : Except ValueError Date := do
  let (date, c) ← readDate (.start text)
  atEnd "nothing after the date" c
  pure date

def Time.parse (text : List UInt8) : Except ValueError Time := do
  let (time, c) ← readTime (.start text)
  atEnd "nothing after the time: a time of day has no offset" c
  pure time

def DateTime.parse (text : List UInt8) : Except ValueError DateTime := do
  let (dt, c) ← readDateTime (.start text)
  atEnd "nothing after the time: a civil date and time has no offset" c
  pure dt

/-- The local date-time and the offset of a timestamp's text, and where the offset stands. -/
def readStamp (text : List UInt8) : Except ValueError (DateTime × ℤ × ℕ) := do
  let (dt, c) ← readDateTime (.start text)
  let (offset, c') ← readOffset c
  atEnd "nothing after the offset" c'
  pure (dt, offset, c.pos)

/-- The instant an RFC 3339 `date-time` names. -/
def Timestamp.parse (text : List UInt8) : Except Overflow (Except ValueError Timestamp) :=
  match readStamp text with
  | .error e => pure (.error e)
  | .ok (dt, offset, offsetAt) => do
    let local_ ← i64 ((← i64 ((← dt.date.days) * daySeconds)) + (← dt.time.secondsOfDay))
    let seconds ← i64 (local_ - offset)
    match fromUnix seconds dt.time.nanosecond with
    | some t => pure (.ok t)
    | none => pure (.error (.unparsed offsetAt
        "an offset that keeps the instant within the years 0000 to 9999"))

end Guatiao.Civil
