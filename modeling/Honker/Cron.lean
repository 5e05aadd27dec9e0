import Honker.Schedule
import Honker.Library.Calendar

namespace Honker.Cron

open Calendar Numeric

/-- The first second of the least year that a `NaiveDate` can hold. -/
def minSecs : ℤ := 86400 * yearStart (-262143)

/-- The last second of the greatest year that a `NaiveDate` can hold. -/
def maxSecs : ℤ := 86400 * yearStart 262143 - 1

/-- A whole-second `NaiveDateTime`: the seconds from 1970-01-01T00:00:00 on the wall clock. -/
structure NaiveDateTime where
  secs : ℤ
  ge : minSecs ≤ secs
  le : secs ≤ maxSecs
deriving DecidableEq

namespace NaiveDateTime

variable (dt : NaiveDateTime)

def date : ℤ := dt.secs / 86400

def year : ℤ := yearOf dt.date

def month : ℕ := (monthOf dt.date).toNat

def day : ℕ := (dayOf dt.date).toNat

def hour : ℕ := (dt.secs / 3600 % 24).toNat

def minute : ℕ := (dt.secs / 60 % 60).toNat

def second : ℕ := (dt.secs % 60).toNat

/-- The weekday as cron counts it, from Sunday. -/
def cronDow : ℕ := (weekdayOf dt.date).toNat

def ofSecs (secs : ℤ) (text : String) : Except Fault NaiveDateTime :=
  if h : minSecs ≤ secs ∧ secs ≤ maxSecs then .ok ⟨secs, h.1, h.2⟩ else .error (.panic text)

/-- `dt + Duration::seconds(n)`. -/
def plus (n : ℤ) : Except Fault NaiveDateTime :=
  ofSecs (dt.secs + n) "`NaiveDateTime + TimeDelta` overflowed"

def pad (width n : ℕ) : String :=
  let digits := Nat.toDigits 10 n
  String.ofList (List.replicate (width - digits.length) '0' ++ digits)

/-- The `Debug` format of a `NaiveDateTime`. -/
def debug : String :=
  let sign := if dt.year < 0 then "-" else if 9999 < dt.year then "+" else ""
  let date := s!"{sign}{pad 4 dt.year.natAbs}-{pad 2 dt.month}-{pad 2 dt.day}"
  s!"{date}T{pad 2 dt.hour}:{pad 2 dt.minute}:{pad 2 dt.second}"

end NaiveDateTime

section Search

variable (sched : CronSchedule)

def CronSchedule.matches_ (dt : NaiveDateTime) : Bool :=
  dt.second ∈ sched.seconds && dt.minute ∈ sched.minutes && dt.hour ∈ sched.hours &&
    dt.day ∈ sched.days && dt.month ∈ sched.months && dt.cronDow ∈ sched.dows

def cronDayMatches (dt : NaiveDateTime) : Bool :=
  dt.day ∈ sched.days && dt.cronDow ∈ sched.dows

def makeDt (year : ℤ) (month day hour minute second : ℕ) : Except Fault NaiveDateTime :=
  let text := "constructed invalid local datetime"
  match ofYmd year month day with
  | some n =>
    if hour < 24 ∧ minute < 60 ∧ second < 60 then
      NaiveDateTime.ofSecs (86400 * n + 3600 * hour + 60 * minute + second) text
    else .error (.panic text)
  | none => .error (.panic text)

def nextOrFirst (set : Finset ℕ) (current : ℕ) : Except Fault (ℕ × Bool) :=
  match ((set.filter (current ≤ ·)).min : Option ℕ) with
  | some v => .ok (v, false)
  | none =>
    match (set.min : Option ℕ) with
    | some v => .ok (v, true)
    | none => .error (.panic "schedule field set is empty")

/-- The first second of the next month that the schedule admits. -/
def advanceMonth (cand : NaiveDateTime) : Except Fault NaiveDateTime := do
  let (nextMonth, wrapped) ← nextOrFirst sched.months cand.month
  makeDt (if wrapped then cand.year + 1 else cand.year) nextMonth 1 0 0 0

def advanceDay (cand : NaiveDateTime) : Except Fault NaiveDateTime := do
  let midnight ← makeDt cand.year cand.month cand.day 0 0 0
  midnight.plus 86400

def advanceHour (cand : NaiveDateTime) : Except Fault NaiveDateTime := do
  let (nextHour, wrapped) ← nextOrFirst sched.hours cand.hour
  if wrapped then
    let next ← advanceDay cand
    makeDt next.year next.month next.day nextHour 0 0
  else makeDt cand.year cand.month cand.day nextHour 0 0

def advanceMinute (cand : NaiveDateTime) : Except Fault NaiveDateTime := do
  let (nextMinute, wrapped) ← nextOrFirst sched.minutes cand.minute
  if wrapped then
    let hour ← makeDt cand.year cand.month cand.day cand.hour 0 0
    let next ← hour.plus 3600
    makeDt next.year next.month next.day next.hour nextMinute 0
  else makeDt cand.year cand.month cand.day cand.hour nextMinute 0

def advanceSecond (cand : NaiveDateTime) : Except Fault NaiveDateTime := do
  let (nextSecond, wrapped) ← nextOrFirst sched.seconds cand.second
  if wrapped then
    let minute ← makeDt cand.year cand.month cand.day cand.hour cand.minute 0
    let next ← minute.plus 60
    makeDt next.year next.month next.day next.hour next.minute nextSecond
  else makeDt cand.year cand.month cand.day cand.hour cand.minute nextSecond

/-- One round of the search of `cron_next_after_naive`. -/
def searchStep (start : NaiveDateTime) (capYear : ℤ) (cand : NaiveDateTime) :
    Except Fault (NaiveDateTime ⊕ NaiveDateTime) :=
  if capYear < cand.year then
    .error (.err s!"no schedule match found within 100 years after local datetime {start.debug}")
  else if cand.month ∉ sched.months then (advanceMonth sched cand).map .inl
  else if ¬ cronDayMatches sched cand then (advanceDay cand).map .inl
  else if cand.hour ∉ sched.hours then (advanceHour sched cand).map .inl
  else if cand.minute ∉ sched.minutes then (advanceMinute sched cand).map .inl
  else if cand.second ∉ sched.seconds then (advanceSecond sched cand).map .inl
  else if sched.matches_ cand then .ok (.inr cand)
  else (cand.plus 1).map .inl

def cronNextAfterNaive (start : NaiveDateTime) : Except Fault NaiveDateTime := do
  let cand ← start.plus 1
  (Loop.run (searchStep sched start (cand.year + 100)) ((maxSecs - cand.secs).toNat + 1) cand).getD
    (.error .diverges)

end Search

section Zones

/-- The answer of `from_local_datetime`. -/
inductive LocalResult
  | none
  | single (t : ℤ)
  | ambiguous (earlier later : ℤ)
deriving DecidableEq

/-- The instant `u`, which a `DateTime` can hold, has the local time `l`. -/
def Shows (offset : ℤ → ℤ) (l u : ℤ) : Prop := minSecs ≤ u ∧ u ≤ maxSecs ∧ u + offset u = l

/-- `None` for a local time that no instant has, `Ambiguous` with the earliest and the latest
instant for one that several have. -/
def Answers (shows : ℤ → Prop) : LocalResult → Prop
  | .none => ∀ u, ¬ shows u
  | .single t => shows t ∧ ∀ u, shows u → u = t
  | .ambiguous earlier later =>
    shows earlier ∧ shows later ∧ earlier < later ∧ ∀ u, shows u → earlier ≤ u ∧ u ≤ later

/-- A time zone: the offset from UTC at each instant, and how local times map back. -/
structure Zone where
  offset : ℤ → ℤ
  bounded : ∀ u, -86400 < offset u ∧ offset u < 86400
  fromLocal : ℤ → LocalResult
  answers : ∀ l, Answers (Shows offset l) (fromLocal l)

namespace Zone

variable (tz : Zone)

def localTime (u : ℤ) : ℤ := u + tz.offset u

/-- `naive_local()` of the answer of `timestamp_opt`. -/
def naiveLocal (u : ℤ) : Except Fault NaiveDateTime :=
  if minSecs ≤ u ∧ u ≤ maxSecs then
    NaiveDateTime.ofSecs (tz.localTime u) "Local time out of range for `NaiveDateTime`"
  else .error (.err s!"invalid timestamp: {u}")

end Zone

/-- One round of the loop that leaves a gap. -/
def gapStep (tz : Zone) (expr : String) (fromUnix capYear : ℤ) (cand : NaiveDateTime) :
    Except Fault (NaiveDateTime ⊕ ℤ) :=
  if capYear < cand.year then
    let form := "no valid local schedule match found within 100 years after unix_ts="
    .error (.err s!"{form}{fromUnix}: {debug expr.toList}")
  else
    match tz.fromLocal cand.secs with
    | .single t => .ok (.inr t)
    | .ambiguous t _ => .ok (.inr t)
    | .none => (cand.plus 1).map .inl

def nextAfterUnixInTz (expr : String) (fromUnix : ℤ) (tz : Zone) : Except Fault ℤ := do
  match ← ScheduleExpr.parse expr with
  | .every intervalS =>
    if InRange (fromUnix + intervalS) then return fromUnix + intervalS
    else throw (.err s!"next interval overflows unix timestamp for {debug expr.toList}")
  | .cron sched =>
    let start ← tz.naiveLocal fromUnix
    let cand ← cronNextAfterNaive sched start
    (Loop.run (gapStep tz expr fromUnix (cand.year + 100)) ((maxSecs - cand.secs).toNat + 1) cand).getD
      (.error .diverges)

/-- `next_after_unix` on a host in the zone `tz`, as a caller sees it. -/
def nextAfterUnix (tz : Zone) (expr : String) (fromUnix : ℤ) : Except String ℤ :=
  (nextAfterUnixInTz expr fromUnix tz).mapError Fault.text

end Zones

end Honker.Cron
