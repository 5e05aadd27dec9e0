import Honker.Library.Fallible
import Honker.Library.Loop
import Honker.Library.Numeric
import Mathlib.Data.Finset.Max
import Mathlib.Data.List.DropRight

namespace Honker.Cron

open Numeric Fallible

/-- Why a schedule function does not return `Ok`: it returns the text of an `Err`, it panics, or a
loop of it does not end. -/
inductive Fault
  | err (text : String)
  | panic (text : String)
  | diverges
deriving DecidableEq

def Fault.text : Fault → String
  | .err text => text
  | .panic text => text
  | .diverges => ""

section Returns

variable {α β : Type}

/-- A computation that returns `Ok` or `Err`. -/
def Returns (x : Except Fault α) : Prop := ∀ e, x = .error e → ∃ text, e = .err text

theorem returns_ok (a : α) : Returns (.ok a) := by simp [Returns]

theorem returns_err (text : String) : Returns (.error (.err text) : Except Fault α) := by
  simp [Returns]

theorem not_returns_panic (text : String) : ¬ Returns (.error (.panic text) : Except Fault α) := by
  simp [Returns]

theorem Returns.bind {x : Except Fault α} {f : α → Except Fault β} (hx : Returns x)
    (hf : ∀ a, x = .ok a → Returns (f a)) : Returns (x >>= f) := by
  intro e h
  rcases bind_error.mp h with he | ⟨a, ha, he⟩
  · exact hx e he
  · exact hf a ha e he

theorem returns_foldlM {f : β → α → Except Fault β} (hf : ∀ b a, Returns (f b a)) (l : List α)
    (b : β) : Returns (l.foldlM f b) := by
  induction l generalizing b with
  | nil => exact returns_ok b
  | cons a l ih =>
    rw [List.foldlM_cons]
    exact (hf b a).bind fun b' _ ↦ ih b'

end Returns

section Text

/-- The characters past ASCII that the `Debug` format of a `str` escapes: the blocks of controls,
separators, format characters, combining marks, variation selectors, private use and noncharacters that
no script interrupts. The rest of its tables goes by the Unicode version of the compiler. -/
def escapedBlocks : List (ℕ × ℕ) :=
  [(0x80, 0xA0), (0xAD, 0xAD), (0x300, 0x36F), (0x483, 0x489), (0x591, 0x5BD), (0x600, 0x605),
    (0x610, 0x61A), (0x61C, 0x61C), (0x64B, 0x65F), (0x1680, 0x1680), (0x180B, 0x180F), (0x1AB0, 0x1ACE),
    (0x1DC0, 0x1DFF), (0x2000, 0x200F), (0x2028, 0x202F), (0x205F, 0x206F), (0x20D0, 0x20F0),
    (0x302A, 0x302F), (0x3000, 0x3000), (0x3099, 0x309A), (0xE000, 0xF8FF), (0xFDD0, 0xFDEF),
    (0xFE00, 0xFE0F), (0xFE20, 0xFE2F), (0xFEFF, 0xFEFF), (0xFFF0, 0xFFFB), (0xFFFE, 0xFFFF),
    (0xE0000, 0x10FFFF)]

/-- A character as the `Debug` format of a `str` prints it. -/
def debugChar (c : Char) : String :=
  if c.toNat = 0 then "\\0"
  else if c = '\t' then "\\t"
  else if c = '\r' then "\\r"
  else if c = '\n' then "\\n"
  else if c.toNat = 34 then "\\\""
  else if c.toNat = 92 then "\\\\"
  else if c.toNat < 32 ∨ c.toNat = 127 ∨ escapedBlocks.any fun b ↦ b.1 ≤ c.toNat ∧ c.toNat ≤ b.2 then
    "\\u\x7b" ++ String.ofList (Nat.toDigits 16 c.toNat) ++ "\x7d"
  else String.ofList [c]

def debug (text : List Char) : String := "\"" ++ String.join (text.map debugChar) ++ "\""

/-- `char::is_whitespace`. -/
def isWhitespace (c : Char) : Bool :=
  let n := c.toNat
  (9 ≤ n && n ≤ 13) || n = 0x20 || n = 0x85 || n = 0xA0 || n = 0x1680 ||
    (0x2000 ≤ n && n ≤ 0x200A) || n = 0x2028 || n = 0x2029 || n = 0x202F || n = 0x205F || n = 0x3000

def trim (text : List Char) : List Char :=
  (text.dropWhile isWhitespace).rdropWhile isWhitespace

def splitWhitespace (text : List Char) : List (List Char) :=
  (text.splitOnP isWhitespace).filter (· ≠ [])

/-- `str::split_once`. -/
def splitOnce (c : Char) (text : List Char) : Option (List Char × List Char) :=
  match text.span (· ≠ c) with
  | (before, _ :: after) => some (before, after)
  | (_, []) => none

def decimal (digits : List Char) : ℕ := digits.foldl (fun n c ↦ 10 * n + (c.toNat - 48)) 0

/-- `u32::from_str`. -/
def parseU32 (text : List Char) : Option ℕ :=
  let digits := match text with
    | '+' :: c :: rest => c :: rest
    | _ => text
  if digits ≠ [] ∧ digits.all Char.isDigit ∧ decimal digits < 2 ^ 32 then some (decimal digits)
  else none

end Text

/-- A parsed cron expression: the values that each field admits. -/
structure CronSchedule where
  seconds : Finset ℕ
  minutes : Finset ℕ
  hours : Finset ℕ
  days : Finset ℕ
  months : Finset ℕ
  dows : Finset ℕ
deriving DecidableEq

inductive ScheduleExpr
  | every (intervalS : ℤ)
  | cron (sched : CronSchedule)
deriving DecidableEq

section Parse

def unitSeconds (unit : List Char) : Except Fault ℤ :=
  if unit = ['s'] then .ok 1
  else if unit = ['m'] then .ok 60
  else if unit = ['h'] then .ok (60 * 60)
  else if unit = ['d'] then .ok (60 * 60 * 24)
  else .error (.err s!"unsupported interval unit {debug unit}; expected one of s, m, h, d")

def parseEveryInterval (body : List Char) : Except Fault ℤ :=
  let digits := body.takeWhile Char.isDigit
  let unit := body.dropWhile Char.isDigit
  let n : ℤ := decimal digits
  if body = [] then .error (.err "interval expression must be '@every <n><unit>'")
  else if digits = [] ∨ unit = [] then
    .error (.err s!"interval expression must be '@every <n><unit>'; got {debug body}")
  else if ¬ InRange n then .error (.err s!"interval count must be an integer: {debug body}")
  else if n ≤ 0 then .error (.err s!"interval count must be positive: {debug body}")
  else do
    let mult ← unitSeconds unit
    if InRange (n * mult) then return n * mult
    else throw (.err s!"interval is too large: {debug body}")

/-- `cron field {:?} not an integer`. -/
def fieldInt (part text : List Char) : Except Fault ℕ :=
  match parseU32 text with
  | some v => .ok v
  | none => .error (.err s!"cron field {debug part} not an integer")

def parseStep (part : List Char) : Except Fault (List Char × ℕ) :=
  match splitOnce '/' part with
  | some (r, s) =>
    match parseU32 s with
    | some step =>
      if step = 0 then .error (.err s!"cron step must be positive: {debug part}") else .ok (r, step)
    | none => .error (.err s!"cron step must be a positive integer: {debug part}")
  | none => .ok (part, 1)

def parseRange (part rangePart : List Char) (lo hi : ℕ) : Except Fault (ℕ × ℕ) :=
  if rangePart = ['*'] then .ok (lo, hi)
  else match splitOnce '-' rangePart with
    | some (a, b) => do
      let a ← fieldInt part a
      let b ← fieldInt part b
      return (a, b)
    | none => do
      let v ← fieldInt part rangePart
      return (v, v)

/-- The range and the step that one element of a field names. -/
def parsePart (part : List Char) (lo hi : ℕ) : Except Fault (ℕ × ℕ × ℕ) := do
  let (rangePart, step) ← parseStep part
  let (start, end_) ← parseRange part rangePart lo hi
  if start < lo ∨ hi < end_ ∨ end_ < start then
    throw (.err s!"cron field {debug part} out of range [{lo},{hi}] or inverted")
  return (start, end_, step)

/-- One round of the loop that inserts `v`, `v + step`, ... up to `end_`. -/
def insertStep (step end_ : ℕ) : ℕ × Finset ℕ → Except Fault ((ℕ × Finset ℕ) ⊕ Finset ℕ)
  | (v, out) =>
    if v ≤ end_ then
      if step = 0 then .ok (.inr (insert v out))
      else .ok (.inl (min (v + step) (2 ^ 32 - 1), insert v out))
    else .ok (.inr out)

def insertRange (start end_ step : ℕ) (out : Finset ℕ) : Except Fault (Finset ℕ) :=
  (Loop.run (insertStep step end_) (end_ + 2 - start) (start, out)).getD (.error .diverges)

def parseField (field : List Char) (lo hi : ℕ) : Except Fault (Finset ℕ) :=
  (field.splitOn ',').foldlM
    (fun out part ↦ do
      let (start, end_, step) ← parsePart part lo hi
      insertRange start end_ step out) ∅

def CronSchedule.parse (expr : List Char) : Except Fault CronSchedule := do
  match splitWhitespace expr with
  | [minute, hour, dom, month, dow] =>
    let minutes ← parseField minute 0 59
    let hours ← parseField hour 0 23
    let days ← parseField dom 1 31
    let months ← parseField month 1 12
    let dows ← parseField dow 0 6
    return ⟨{0}, minutes, hours, days, months, dows⟩
  | [second, minute, hour, dom, month, dow] =>
    let seconds ← parseField second 0 59
    let minutes ← parseField minute 0 59
    let hours ← parseField hour 0 23
    let days ← parseField dom 1 31
    let months ← parseField month 1 12
    let dows ← parseField dow 0 6
    return ⟨seconds, minutes, hours, days, months, dows⟩
  | parts =>
    let form := "schedule expression requires 5 or 6 cron fields, or '@every <n><unit>'; got "
    throw (.err s!"{form}{parts.length}: {debug expr}")

def ScheduleExpr.parse (expr : String) : Except Fault ScheduleExpr := do
  let expr := trim expr.toList
  match expr.dropPrefix? "@every".toList with
  | some rest =>
    let interval ← parseEveryInterval (trim rest)
    return .every interval
  | none =>
    let sched ← CronSchedule.parse expr
    return .cron sched

end Parse

section Accepted

/-- The values of a field are some numbers between its bounds. -/
def Within (lo hi : ℕ) (set : Finset ℕ) : Prop := set.Nonempty ∧ ∀ v ∈ set, lo ≤ v ∧ v ≤ hi

structure CronSchedule.Valid (sched : CronSchedule) : Prop where
  seconds : Within 0 59 sched.seconds
  minutes : Within 0 59 sched.minutes
  hours : Within 0 23 sched.hours
  days : Within 1 31 sched.days
  months : Within 1 12 sched.months
  dows : Within 0 6 sched.dows

variable {lo hi a b step : ℕ} {out : Finset ℕ}

theorem parseStep_pos {part text : List Char} (h : parseStep part = .ok (text, step)) : 1 ≤ step := by
  unfold parseStep at h
  split at h
  · split at h
    · split_ifs at h
      cases h
      omega
    · cases h
  · cases h
    exact le_rfl

theorem parsePart_ok {part : List Char} (h : parsePart part lo hi = .ok (a, b, step)) :
    lo ≤ a ∧ a ≤ b ∧ b ≤ hi ∧ 1 ≤ step := by
  obtain ⟨⟨rangePart, step'⟩, hstep, h⟩ := bind_ok.mp h
  obtain ⟨⟨start, end_⟩, -, h⟩ := bind_ok.mp h
  have hpos := parseStep_pos hstep
  dsimp only at h
  split_ifs at h with hbad
  · cases h
  · cases h
    omega

/-- The values `start`, `start + step`, ... up to `last`. -/
structure Progression where
  start : ℕ
  last : ℕ
  step : ℕ

def Progression.Has (p : Progression) (v : ℕ) : Prop := ∃ k, v = p.start + k * p.step ∧ v ≤ p.last

/-- The first `k` values of a progression have been inserted into `out`, and the next one is `x.1`. -/
def Inserted (a b step : ℕ) (out : Finset ℕ) (x : ℕ × Finset ℕ) : Prop :=
  ∃ k, (x.1 ≤ b → x.1 = a + k * step) ∧ (b < x.1 → b < a + k * step) ∧
    ∀ v, v ∈ x.2 ↔ v ∈ out ∨ ∃ j < k, v = a + j * step ∧ v ≤ b

theorem Inserted.next {x x' : ℕ × Finset ℕ} (h : Inserted a b step out x) (hpos : 1 ≤ step)
    (hmax : b < 2 ^ 32 - 1) (hbody : insertStep step b x = .ok (.inl x')) :
    Inserted a b step out x' ∧ b + 1 - x'.1 < b + 1 - x.1 := by
  obtain ⟨cur, set⟩ := x
  obtain ⟨k, hcur, -, hset⟩ := h
  unfold insertStep at hbody
  dsimp only at hcur hset hbody ⊢
  rw [if_neg (show ¬ step = 0 by omega)] at hbody
  by_cases hin : cur ≤ b
  · rw [if_pos hin] at hbody
    cases hbody
    have hcur := hcur hin
    have hnext : a + (k + 1) * step = cur + step := by
      rw [hcur]
      ring
    refine ⟨⟨k + 1, by dsimp only; omega, by dsimp only; omega, fun v ↦ ?_⟩, by dsimp only; omega⟩
    rw [Finset.mem_insert, hset]
    constructor
    · rintro (rfl | hout | ⟨j, hj, hv⟩)
      · exact Or.inr ⟨k, by omega, hcur, hin⟩
      · exact Or.inl hout
      · exact Or.inr ⟨j, by omega, hv⟩
    · rintro (hout | ⟨j, hj, hv, hvb⟩)
      · exact Or.inr (Or.inl hout)
      · rcases Nat.lt_succ_iff_lt_or_eq.mp hj with hj | rfl
        · exact Or.inr (Or.inr ⟨j, hj, hv, hvb⟩)
        · exact Or.inl (hv.trans hcur.symm)
  · rw [if_neg hin] at hbody
    cases hbody

/-- The loop of a field inserts exactly the values of its progression. -/
theorem insertRange_total (hpos : 1 ≤ step) (hmax : b < 2 ^ 32 - 1) (hle : a ≤ b) (out : Finset ℕ) :
    ∃ out', insertRange a b step out = .ok out' ∧
      ∀ v, v ∈ out' ↔ v ∈ out ∨ Progression.Has ⟨a, b, step⟩ v := by
  obtain ⟨r, hrun, ⟨cur, set⟩, ⟨k, -, hover, hset⟩, hbody⟩ := Loop.run_total
    (Inserted a b step out) (fun x ↦ b + 1 - x.1) (fun x x' hx hbody ↦ hx.next hpos hmax hbody)
    (b + 2 - a) (a, out) ⟨0, by simp, by dsimp only; omega, by simp⟩ (by dsimp only; omega)
  rw [insertRange, hrun, Option.getD_some]
  have hstep : insertStep step b (cur, set) = if cur ≤ b then
      .ok (.inl (min (cur + step) (2 ^ 32 - 1), insert cur set)) else .ok (.inr set) := by
    rw [insertStep, if_neg (show ¬ step = 0 by omega)]
  by_cases hin : cur ≤ b
  · rw [hstep, if_pos hin] at hbody
    cases r <;> cases hbody
  · rw [hstep, if_neg hin] at hbody
    cases r with
    | error e => cases hbody
    | ok set' =>
      cases hbody
      refine ⟨set, rfl, fun v ↦ ?_⟩
      rw [hset]
      have hend := hover (not_le.mp hin)
      constructor
      · rintro (hout | ⟨j, -, hv⟩)
        · exact Or.inl hout
        · exact Or.inr ⟨j, hv⟩
      · rintro (hout | ⟨j, hv, hvb⟩)
        · exact Or.inl hout
        · refine Or.inr ⟨j, ?_, hv, hvb⟩
          by_contra hj
          have hmul := Nat.mul_le_mul_right step (not_lt.mp hj)
          dsimp only at hv hvb
          omega

theorem parseField_within {field : List Char} {set : Finset ℕ} (hmax : hi < 2 ^ 32 - 1)
    (h : parseField field lo hi = .ok set) : Within lo hi set := by
  have hstep (out out' : Finset ℕ) (part : List Char) (hout : ∀ v ∈ out, lo ≤ v ∧ v ≤ hi)
      (hpart : (do
        let (start, end_, step) ← parsePart part lo hi
        insertRange start end_ step out) = .ok out') : Within lo hi out' := by
    obtain ⟨⟨a, b, step⟩, hrange, hinsert⟩ := bind_ok.mp hpart
    obtain ⟨hlo, hle, hhi, hpos⟩ := parsePart_ok hrange
    obtain ⟨set, hset, hmem⟩ := insertRange_total hpos (by omega) hle out
    cases hset.symm.trans hinsert
    refine ⟨⟨a, (hmem a).mpr (Or.inr ⟨0, by simp, hle⟩)⟩, fun v hv ↦ ?_⟩
    rcases (hmem v).mp hv with hv | ⟨k, hk, hv⟩
    · exact hout v hv
    · dsimp only at hk hv
      exact ⟨by omega, by omega⟩
  cases hparts : field.splitOn ',' with
  | nil => exact absurd hparts (List.splitOn_ne_nil _ _)
  | cons part parts =>
    rw [parseField, hparts, List.foldlM_cons] at h
    obtain ⟨out, hfirst, hrest⟩ := bind_ok.mp h
    refine foldlM_inv (fun b a b' hb hf ↦ ?_) (hstep ∅ out part (by simp) hfirst) hrest
    exact hstep b b' a hb.2 hf

theorem CronSchedule.parse_valid {expr : List Char} {sched : CronSchedule}
    (h : CronSchedule.parse expr = .ok sched) : sched.Valid := by
  unfold CronSchedule.parse at h
  split at h
  · obtain ⟨minutes, hmin, h⟩ := bind_ok.mp h
    obtain ⟨hours, hhour, h⟩ := bind_ok.mp h
    obtain ⟨days, hday, h⟩ := bind_ok.mp h
    obtain ⟨months, hmonth, h⟩ := bind_ok.mp h
    obtain ⟨dows, hdow, h⟩ := bind_ok.mp h
    cases h
    exact ⟨⟨Finset.singleton_nonempty 0, by simp⟩, parseField_within (by omega) hmin,
      parseField_within (by omega) hhour, parseField_within (by omega) hday,
      parseField_within (by omega) hmonth, parseField_within (by omega) hdow⟩
  · obtain ⟨seconds, hsec, h⟩ := bind_ok.mp h
    obtain ⟨minutes, hmin, h⟩ := bind_ok.mp h
    obtain ⟨hours, hhour, h⟩ := bind_ok.mp h
    obtain ⟨days, hday, h⟩ := bind_ok.mp h
    obtain ⟨months, hmonth, h⟩ := bind_ok.mp h
    obtain ⟨dows, hdow, h⟩ := bind_ok.mp h
    cases h
    exact ⟨parseField_within (by omega) hsec, parseField_within (by omega) hmin,
      parseField_within (by omega) hhour, parseField_within (by omega) hday,
      parseField_within (by omega) hmonth, parseField_within (by omega) hdow⟩
  · cases h

theorem unitSeconds_pos {unit : List Char} {mult : ℤ} (h : unitSeconds unit = .ok mult) :
    0 < mult := by
  unfold unitSeconds at h
  split_ifs at h <;> cases h <;> omega

theorem parseEveryInterval_pos {body : List Char} {n : ℤ} (h : parseEveryInterval body = .ok n) :
    0 < n := by
  unfold parseEveryInterval at h
  dsimp only at h
  split_ifs at h with _ _ _ hpos
  obtain ⟨mult, hmult, h⟩ := bind_ok.mp h
  split_ifs at h
  cases h
  exact mul_pos (not_le.mp hpos) (unitSeconds_pos hmult)

theorem ScheduleExpr.parse_ok {expr : String} {parsed : ScheduleExpr}
    (h : ScheduleExpr.parse expr = .ok parsed) :
    (∃ n, parsed = .every n ∧ 0 < n) ∨ ∃ sched, parsed = .cron sched ∧ sched.Valid := by
  unfold ScheduleExpr.parse at h
  dsimp only at h
  split at h
  · obtain ⟨n, hn, h⟩ := bind_ok.mp h
    cases h
    exact Or.inl ⟨n, rfl, parseEveryInterval_pos hn⟩
  · obtain ⟨sched, hsched, h⟩ := bind_ok.mp h
    cases h
    exact Or.inr ⟨sched, rfl, CronSchedule.parse_valid hsched⟩

end Accepted

section Termination

theorem fieldInt_returns (part text : List Char) : Returns (fieldInt part text) := by
  unfold fieldInt
  split
  · exact returns_ok _
  · exact returns_err _

theorem parsePart_returns (part : List Char) (lo hi : ℕ) : Returns (parsePart part lo hi) := by
  refine Returns.bind ?_ fun x _ ↦ Returns.bind ?_ fun y _ ↦ ?_
  · unfold parseStep
    split
    · split
      · split_ifs
        · exact returns_err _
        · exact returns_ok _
      · exact returns_err _
    · exact returns_ok _
  · unfold parseRange
    split_ifs
    · exact returns_ok _
    · split
      · exact (fieldInt_returns _ _).bind fun _ _ ↦ (fieldInt_returns _ _).bind fun _ _ ↦ returns_ok _
      · exact (fieldInt_returns _ _).bind fun _ _ ↦ returns_ok _
  · dsimp only
    split_ifs
    · exact returns_err _
    · exact returns_ok _

theorem parseField_returns {lo hi : ℕ} (hmax : hi < 2 ^ 32 - 1) (field : List Char) :
    Returns (parseField field lo hi) := by
  refine returns_foldlM (fun out part ↦ (parsePart_returns part lo hi).bind fun x hx ↦ ?_) _ _
  obtain ⟨-, hle, hhi, hpos⟩ := parsePart_ok hx
  obtain ⟨set, hset, -⟩ := insertRange_total hpos (by omega) hle out
  change Returns (insertRange x.1 x.2.1 x.2.2 out)
  rw [hset]
  exact returns_ok set

theorem unitSeconds_returns (unit : List Char) : Returns (unitSeconds unit) := by
  unfold unitSeconds
  split_ifs
  · exact returns_ok _
  · exact returns_ok _
  · exact returns_ok _
  · exact returns_ok _
  · exact returns_err _

theorem parseEveryInterval_returns (body : List Char) : Returns (parseEveryInterval body) := by
  unfold parseEveryInterval
  dsimp only
  split_ifs
  · exact returns_err _
  · exact returns_err _
  · exact returns_err _
  · refine (unitSeconds_returns _).bind fun _ _ ↦ ?_
    split_ifs
    · exact returns_ok _
    · exact returns_err _
  · exact returns_err _

theorem CronSchedule.parse_returns (expr : List Char) : Returns (CronSchedule.parse expr) := by
  have hfield (hi : ℕ) (hmax : hi ≤ 59) (field : List Char) (lo : ℕ) : Returns (parseField field lo hi) :=
    parseField_returns (by omega) field
  unfold CronSchedule.parse
  split
  · exact (hfield 59 (by omega) _ _).bind fun _ _ ↦ (hfield 23 (by omega) _ _).bind fun _ _ ↦
      (hfield 31 (by omega) _ _).bind fun _ _ ↦ (hfield 12 (by omega) _ _).bind fun _ _ ↦
        (hfield 6 (by omega) _ _).bind fun _ _ ↦ returns_ok _
  · exact (hfield 59 (by omega) _ _).bind fun _ _ ↦ (hfield 59 (by omega) _ _).bind fun _ _ ↦
      (hfield 23 (by omega) _ _).bind fun _ _ ↦ (hfield 31 (by omega) _ _).bind fun _ _ ↦
        (hfield 12 (by omega) _ _).bind fun _ _ ↦ (hfield 6 (by omega) _ _).bind fun _ _ ↦ returns_ok _
  · exact returns_err _

theorem ScheduleExpr.parse_returns (expr : String) : Returns (ScheduleExpr.parse expr) := by
  unfold ScheduleExpr.parse
  dsimp only
  split
  · exact (parseEveryInterval_returns _).bind fun _ _ ↦ returns_ok _
  · exact (CronSchedule.parse_returns _).bind fun _ _ ↦ returns_ok _

end Termination

end Honker.Cron
