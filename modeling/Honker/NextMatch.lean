import Honker.Cron

namespace Honker.Cron

open Calendar Numeric Fallible

section Fields

variable {set : Finset ℕ} {current v : ℕ} {wrapped : Bool}

/-- `next_or_first` finds the least value from `current` on, else the least value. -/
theorem nextOrFirst_ok (h : nextOrFirst set current = .ok (v, wrapped)) :
    v ∈ set ∧ ((wrapped = false ∧ current ≤ v ∧ ∀ w ∈ set, current ≤ w → v ≤ w) ∨
      (wrapped = true ∧ ∀ w ∈ set, w < current ∧ v ≤ w)) := by
  unfold nextOrFirst at h
  split at h
  · rename_i x hx
    cases h
    have hmem := Finset.mem_filter.mp (Finset.mem_of_min hx)
    refine ⟨hmem.1, Or.inl ⟨rfl, hmem.2, fun w hw hle ↦ ?_⟩⟩
    exact Finset.min_le_of_eq (Finset.mem_filter.mpr ⟨hw, hle⟩) hx
  · rename_i hnone
    have hempty : set.filter (current ≤ ·) = ∅ := Finset.min_eq_top.mp hnone
    split at h
    · rename_i x hx
      cases h
      refine ⟨Finset.mem_of_min hx, Or.inr ⟨rfl, fun w hw ↦ ⟨?_, Finset.min_le_of_eq hw hx⟩⟩⟩
      by_contra hle
      have hw' : w ∈ set.filter (current ≤ ·) := Finset.mem_filter.mpr ⟨hw, by omega⟩
      simp [hempty] at hw'
    · cases h

/-- The `expect` of `next_or_first` is met by a field that has a value. -/
theorem nextOrFirst_total (h : set.Nonempty) (current : ℕ) :
    ∃ v wrapped, nextOrFirst set current = .ok (v, wrapped) := by
  unfold nextOrFirst
  split
  · rename_i v _
    exact ⟨v, false, rfl⟩
  · obtain ⟨v, hv⟩ := Finset.min_of_nonempty h
    exact ⟨v, true, by rw [hv]⟩

variable {M b q y : ℤ}

theorem emod_of_between {a : ℤ} (hle : M * a ≤ y) (hlt : y < M * a + M) : y % M = y - M * a := by
  have hcong : (y - M * a) % M = y % M := Int.sub_mul_emod_self_left y M a
  rw [← hcong]
  exact Int.emod_eq_of_lt (by omega) (by omega)

/-- The position at which a field that cycles through `M` values, from `b` on, next has the value
`v`. -/
def nextPosition (M b q v : ℤ) (wrapped : Bool) : ℤ :=
  M * (q / M) + (v - b) + if wrapped then M else 0

theorem not_mem_between (hM : 0 < M) (hb : 0 ≤ b) (hset : ∀ w ∈ set, b ≤ (w : ℤ) ∧ (w : ℤ) < M + b)
    (h : nextOrFirst set (q % M + b).toNat = .ok (v, wrapped)) (hle : q ≤ y)
    (hlt : y < nextPosition M b q v wrapped) : (y % M + b).toNat ∉ set := by
  intro hmem
  obtain ⟨hv, hcase⟩ := nextOrFirst_ok h
  have hvb := hset v hv
  have hq : M * (q / M) + q % M = q := Int.mul_ediv_add_emod q M
  have hr := Int.emod_nonneg q hM.ne'
  have hr' := Int.emod_lt_of_pos q hM
  rcases hcase with ⟨rfl, hcur, hleast⟩ | ⟨rfl, hleast⟩
  · simp only [nextPosition, Bool.false_eq_true, if_false, add_zero] at hlt
    have hy : y % M = y - M * (q / M) := emod_of_between (by omega) (by omega)
    have hvle := hleast _ hmem (by omega)
    omega
  · simp only [nextPosition, if_true] at hlt
    have hw := hleast _ hmem
    by_cases hnext : y < M * (q / M) + M
    · have hy : y % M = y - M * (q / M) := emod_of_between (by omega) hnext
      omega
    · have hstep : M * (q / M + 1) = M * (q / M) + M := by ring
      have hy : y % M = y - M * (q / M + 1) := emod_of_between (by omega) (by omega)
      omega

theorem lt_nextPosition (hM : 0 < M)
    (hset : ∀ w ∈ set, b ≤ (w : ℤ) ∧ (w : ℤ) < M + b)
    (h : nextOrFirst set (q % M + b).toNat = .ok (v, wrapped)) (hnot : (q % M + b).toNat ∉ set) :
    q < nextPosition M b q v wrapped := by
  obtain ⟨hv, hcase⟩ := nextOrFirst_ok h
  have hvb := hset v hv
  have hq : M * (q / M) + q % M = q := Int.mul_ediv_add_emod q M
  have hr := Int.emod_nonneg q hM.ne'
  have hr' := Int.emod_lt_of_pos q hM
  rcases hcase with ⟨rfl, hcur, -⟩ | ⟨rfl, -⟩
  · simp only [nextPosition, Bool.false_eq_true, if_false, add_zero]
    have hne : v ≠ (q % M + b).toNat := fun heq ↦ hnot (heq ▸ hv)
    omega
  · simp only [nextPosition, if_true]
    omega

theorem nextPosition_le (q : ℤ) (wrapped : Bool) (hM : 0 < M)
    (hset : ∀ w ∈ set, b ≤ (w : ℤ) ∧ (w : ℤ) < M + b) (hv : v ∈ set) :
    nextPosition M b q v wrapped ≤ M * (q / M) + 2 * M - 1 := by
  have hvb := hset v hv
  unfold nextPosition
  split_ifs <;> omega

end Fields

section Dates

variable {dt next : NaiveDateTime} {text : String} {secs t t' : ℤ}

theorem ofSecs_ok (h : NaiveDateTime.ofSecs secs text = .ok dt) : dt.secs = secs := by
  unfold NaiveDateTime.ofSecs at h
  split_ifs at h
  cases h
  rfl

theorem plus_ok {n : ℤ} (h : dt.plus n = .ok next) : next.secs = dt.secs + n := ofSecs_ok h

theorem NaiveDateTime.ext (h : dt.secs = next.secs) : dt = next := by
  cases dt
  cases next
  simpa using h

theorem date_lt_iff {n : ℤ} : dt.date < n ↔ dt.secs < 86400 * n := by
  unfold NaiveDateTime.date
  omega

theorem date_mono (h : dt.secs ≤ next.secs) : dt.date ≤ next.date := by
  unfold NaiveDateTime.date
  omega

theorem month_cast (dt : NaiveDateTime) : (dt.month : ℤ) = monthOf dt.date := by
  unfold NaiveDateTime.month monthOf
  omega

theorem day_cast (dt : NaiveDateTime) : (dt.day : ℤ) = dayOf dt.date := by
  have h := (monthIndex_spec dt.date).1
  unfold NaiveDateTime.day dayOf
  omega

theorem hour_lt (dt : NaiveDateTime) : dt.hour < 24 := by
  unfold NaiveDateTime.hour
  omega

theorem minute_lt (dt : NaiveDateTime) : dt.minute < 60 := by
  unfold NaiveDateTime.minute
  omega

theorem startOfHour (dt : NaiveDateTime) :
    86400 * dt.date + 3600 * (dt.hour : ℤ) = 3600 * (dt.secs / 3600) := by
  unfold NaiveDateTime.date NaiveDateTime.hour
  omega

theorem startOfMinute (dt : NaiveDateTime) :
    86400 * dt.date + 3600 * (dt.hour : ℤ) + 60 * (dt.minute : ℤ) = 60 * (dt.secs / 60) := by
  rw [startOfHour]
  unfold NaiveDateTime.minute
  omega

theorem year_le (dt : NaiveDateTime) : dt.year ≤ 262142 := by
  have hlt : dt.date < yearStart 262143 := by
    have hle := dt.le
    rw [date_lt_iff]
    unfold maxSecs at hle
    omega
  by_contra hyear
  have hstart := yearStart_le_iff.mpr (show 262143 ≤ yearOf dt.date from not_le.mp hyear)
  omega

theorem le_year (dt : NaiveDateTime) : -262143 ≤ dt.year := by
  have hge := dt.ge
  rw [NaiveDateTime.year, ← yearStart_le_iff]
  unfold NaiveDateTime.date
  unfold minSecs at hge
  omega

/-- The two panics of date arithmetic: that of `+` and that of the `expect` in `make_dt`. -/
def IsOverflow (e : Fault) : Prop :=
  e = .panic "`NaiveDateTime + TimeDelta` overflowed" ∨ e = .panic "constructed invalid local datetime"

/-- The computation ends at `t`, or it overflows because `t` is past the last date. -/
def Lands (x : Except Fault NaiveDateTime) (t : ℤ) : Prop :=
  match x with
  | .ok next => next.secs = t
  | .error e => maxSecs < t ∧ IsOverflow e

theorem Lands.bind {x : Except Fault NaiveDateTime} {f : NaiveDateTime → Except Fault NaiveDateTime}
    (hx : Lands x t) (hle : t ≤ t') (hf : ∀ dt : NaiveDateTime, dt.secs = t → Lands (f dt) t') :
    Lands (x >>= f) t' := by
  cases x with
  | ok dt => exact hf dt hx
  | error e => exact ⟨hx.1.trans_le hle, hx.2⟩

theorem Lands.at {x : Except Fault NaiveDateTime} (h : Lands x t) (ht : t = t') : Lands x t' := ht ▸ h

theorem Lands.of_ok {x : Except Fault NaiveDateTime} (h : ∃ next, x = .ok next ∧ next.secs = t) :
    Lands x t := by
  obtain ⟨next, rfl, hsecs⟩ := h
  exact hsecs

theorem ofSecs_lands (hmin : minSecs ≤ secs) (htext : IsOverflow (.panic text)) :
    Lands (NaiveDateTime.ofSecs secs text) secs := by
  unfold NaiveDateTime.ofSecs
  split_ifs with h
  · exact rfl
  · exact ⟨by omega, htext⟩

theorem plus_lands (dt : NaiveDateTime) {n : ℤ} (hn : 0 ≤ n) : Lands (dt.plus n) (dt.secs + n) := by
  have hge := dt.ge
  exact ofSecs_lands (by omega) (Or.inl rfl)

variable {y : ℤ} {m : ℕ}

theorem makeDt_date (dt : NaiveDateTime) (hour minute second : ℕ) (hhour : hour < 24)
    (hminute : minute < 60) (hsecond : second < 60) :
    ∃ next, makeDt dt.year dt.month dt.day hour minute second = .ok next ∧
      next.secs = 86400 * dt.date + 3600 * hour + 60 * minute + second := by
  have hge := dt.ge
  have hle := dt.le
  have hdate : minSecs ≤ 86400 * dt.date ∧ 86400 * dt.date + 86399 ≤ maxSecs := by
    unfold minSecs at *
    unfold maxSecs at *
    unfold NaiveDateTime.date
    omega
  unfold makeDt
  rw [month_cast, day_cast, NaiveDateTime.year, ofYmd_of]
  dsimp only
  rw [if_pos ⟨hhour, hminute, hsecond⟩, NaiveDateTime.ofSecs, dif_pos (by omega)]
  exact ⟨_, rfl, rfl⟩

theorem makeDt_first (hm : 1 ≤ m ∧ m ≤ 12) (hmin : minSecs ≤ 86400 * monthStart (12 * y + m - 1)) :
    Lands (makeDt y m 1 0 0 0) (86400 * monthStart (12 * y + m - 1)) := by
  unfold makeDt
  rw [Nat.cast_one, ofYmd_first (by omega) (by omega)]
  dsimp only
  rw [if_pos (by omega)]
  convert ofSecs_lands hmin (Or.inr rfl) using 2
  simp

end Dates

section Search

variable {sched : CronSchedule} {start cand next : NaiveDateTime} {capYear t : ℤ}

/-- The search goes on from `cand` to `t` without passing a match. -/
def SkipsTo (sched : CronSchedule) (cand : NaiveDateTime) (t : ℤ) : Prop :=
  cand.secs < t ∧ ∀ d : NaiveDateTime, cand.secs ≤ d.secs → d.secs < t → sched.matches_ d = false

/-- The search goes on from `cand` to `next` without passing a match. -/
def Skips (sched : CronSchedule) (cand next : NaiveDateTime) : Prop :=
  cand.secs < next.secs ∧
    ∀ d : NaiveDateTime, cand.secs ≤ d.secs → d.secs < next.secs → sched.matches_ d = false

/-- A move of the search: to a later time, with no match before it, and no later than in the next
year. -/
def Moves (sched : CronSchedule) (cand : NaiveDateTime) (x : Except Fault NaiveDateTime) : Prop :=
  ∃ t, Lands x t ∧ SkipsTo sched cand t ∧ t < 86400 * yearStart (cand.year + 2)

theorem matches_iff {d : NaiveDateTime} : sched.matches_ d = true ↔
    d.second ∈ sched.seconds ∧ d.minute ∈ sched.minutes ∧ d.hour ∈ sched.hours ∧
      d.day ∈ sched.days ∧ d.month ∈ sched.months ∧ d.cronDow ∈ sched.dows := by
  simp only [CronSchedule.matches_, Bool.and_eq_true, decide_eq_true_eq, and_assoc]

theorem skips_of {P : NaiveDateTime → Prop} (hlt : cand.secs < t)
    (hP : ∀ d, sched.matches_ d = true → P d)
    (hnot : ∀ d : NaiveDateTime, cand.secs ≤ d.secs → d.secs < t → ¬ P d) :
    SkipsTo sched cand t := by
  refine ⟨hlt, fun d hle hd ↦ ?_⟩
  by_contra hmatch
  rw [Bool.not_eq_false] at hmatch
  exact hnot d hle hd (hP d hmatch)

/-- Two days from the candidate on are over before the year after next begins. -/
theorem lt_yearStart_of_le (h : t ≤ cand.secs + 172800) : t < 86400 * yearStart (cand.year + 2) := by
  have hlt : cand.date < yearStart (cand.year + 1) := (yearOf_spec cand.date).2
  rw [date_lt_iff] at hlt
  have hnext := yearStart_succ (cand.year + 1)
  have hleap := leapDays_bounds (cand.year + 1)
  rw [add_assoc, one_add_one_eq_two] at hnext
  omega

variable {v : ℕ} {wrapped : Bool}

theorem advanceMonth_moves (hset : Within 1 12 sched.months) (hnot : cand.month ∉ sched.months) :
    Moves sched cand (advanceMonth sched cand) := by
  obtain ⟨v, wrapped, hnext⟩ := nextOrFirst_total hset.1 cand.month
  have hv := (nextOrFirst_ok hnext).1
  have hbounds : ∀ w ∈ sched.months, (1 : ℤ) ≤ w ∧ (w : ℤ) < 12 + 1 := by
    intro w hw
    have hw' := hset.2 w hw
    omega
  have hyear : cand.year = monthIndex cand.date / 12 := (monthIndex_div cand.date).symm
  have hpos : 12 * (if wrapped then cand.year + 1 else cand.year) + (v : ℤ) - 1 =
      nextPosition 12 1 (monthIndex cand.date) v wrapped := by
    rw [hyear, nextPosition]
    cases wrapped <;> simp <;> ring
  have hlt := lt_nextPosition (by omega) hbounds hnext hnot
  have hle := nextPosition_le (monthIndex cand.date) wrapped (by omega) hbounds hv
  have hstart : cand.date < monthStart (nextPosition 12 1 (monthIndex cand.date) v wrapped) := by
    rw [← not_le, monthStart_le_iff]
    omega
  rw [date_lt_iff, ← hpos] at hstart
  have hlands : Lands (advanceMonth sched cand)
      (86400 * monthStart (12 * (if wrapped then cand.year + 1 else cand.year) + (v : ℤ) - 1)) := by
    have hge := cand.ge
    rw [advanceMonth, hnext]
    exact makeDt_first (hset.2 v hv) (by omega)
  refine ⟨_, hlands, ?_, ?_⟩
  · refine skips_of (P := fun d ↦ d.month ∈ sched.months) hstart
      (fun d hd ↦ (matches_iff.mp hd).2.2.2.2.1) fun d hle hd ↦ ?_
    refine not_mem_between (by omega) (by omega) hbounds hnext (monthIndex_mono (date_mono hle)) ?_
    rw [← not_le, ← monthStart_le_iff, not_le, date_lt_iff, ← hpos]
    exact hd
  · have hend := monthStart_january (cand.year + 2)
    have hmono : monthStart (nextPosition 12 1 (monthIndex cand.date) v wrapped) <
        monthStart (12 * (cand.year + 2)) := monthStart_strictMono (by omega)
    rw [hpos]
    omega

theorem advanceDay_lands (cand : NaiveDateTime) :
    Lands (advanceDay cand) (86400 * (cand.date + 1)) := by
  obtain ⟨midnight, hmid, hsecs⟩ := makeDt_date cand 0 0 0 (by omega) (by omega) (by omega)
  rw [advanceDay, hmid]
  exact (plus_lands midnight (by omega)).at (by omega)

theorem advanceDay_moves (hnot : cronDayMatches sched cand = false) :
    Moves sched cand (advanceDay cand) := by
  have hlt : cand.secs < 86400 * (cand.date + 1) := by
    rw [← date_lt_iff]
    omega
  refine ⟨_, advanceDay_lands cand, ?_, lt_yearStart_of_le ?_⟩
  · refine skips_of (P := fun d ↦ cronDayMatches sched d = true) hlt (fun d hd ↦ ?_)
      fun d hle hd ↦ ?_
    · obtain ⟨-, -, -, hday, -, hdow⟩ := matches_iff.mp hd
      simp [cronDayMatches, hday, hdow]
    · have hsame : d.date = cand.date := by
        rw [← date_lt_iff] at hd
        have hmono := date_mono hle
        omega
      have hday : d.day = cand.day := by rw [NaiveDateTime.day, hsame, NaiveDateTime.day]
      have hdow : d.cronDow = cand.cronDow := by
        rw [NaiveDateTime.cronDow, hsame, NaiveDateTime.cronDow]
      rw [cronDayMatches, hday, hdow, ← cronDayMatches, hnot]
      exact Bool.false_ne_true
  · unfold NaiveDateTime.date
    omega

/-- The hour, the minute and the second cycle alike: a field of `unit` seconds with `M` values. -/
theorem clock_moves {set : Finset ℕ} {x : Except Fault NaiveDateTime} (unit M : ℤ) (hunit : 0 < unit)
    (hM : 0 < M) (hday : unit * M ≤ 86400) (hset : ∀ w ∈ set, (w : ℤ) < M)
    (hnot : (cand.secs / unit % M).toNat ∉ set)
    (hnext : nextOrFirst set (cand.secs / unit % M).toNat = .ok (v, wrapped))
    (hfield : ∀ d, sched.matches_ d = true → (d.secs / unit % M).toNat ∈ set)
    (hlands : Lands x (unit * nextPosition M 0 (cand.secs / unit) v wrapped)) :
    Moves sched cand x := by
  have hbounds : ∀ w ∈ set, (0 : ℤ) ≤ w ∧ (w : ℤ) < M + 0 := by
    intro w hw
    have hw' := hset w hw
    omega
  have hv := (nextOrFirst_ok hnext).1
  rw [← add_zero (cand.secs / unit % M)] at hnot hnext
  refine ⟨_, hlands, skips_of (P := fun d ↦ (d.secs / unit % M).toNat ∈ set) ?_ hfield
    fun d hle hd ↦ ?_, lt_yearStart_of_le ?_⟩
  · have hlt := lt_nextPosition hM hbounds hnext hnot
    rw [mul_comm]
    exact (Int.ediv_lt_iff_lt_mul hunit).mp hlt
  · rw [mul_comm] at hd
    have hnot' := not_mem_between hM le_rfl hbounds hnext (Int.ediv_le_ediv hunit hle)
      ((Int.ediv_lt_iff_lt_mul hunit).mpr hd)
    rwa [add_zero] at hnot'
  · have hle : nextPosition M 0 (cand.secs / unit) v wrapped ≤ cand.secs / unit + 2 * M := by
      have hpos := nextPosition_le (cand.secs / unit) wrapped hM hbounds hv
      have hdiv := Int.mul_ediv_self_le (x := cand.secs / unit) hM.ne'
      omega
    calc unit * nextPosition M 0 (cand.secs / unit) v wrapped
        ≤ unit * (cand.secs / unit + 2 * M) := Int.mul_le_mul_of_nonneg_left hle hunit.le
      _ = unit * (cand.secs / unit) + 2 * (unit * M) := by ring
      _ ≤ cand.secs + 172800 := by
        have hdiv := Int.mul_ediv_self_le (x := cand.secs) hunit.ne'
        omega

theorem advanceHour_moves (hset : Within 0 23 sched.hours) (hnot : cand.hour ∉ sched.hours) :
    Moves sched cand (advanceHour sched cand) := by
  obtain ⟨v, wrapped, hnext⟩ := nextOrFirst_total hset.1 cand.hour
  have hv := hset.2 v (nextOrFirst_ok hnext).1
  refine clock_moves 3600 24 (by omega) (by omega) (by omega) (fun w hw ↦ ?_) hnot hnext
    (fun d hd ↦ (matches_iff.mp hd).2.2.1) ?_
  · have hw' := hset.2 w hw
    omega
  · rw [advanceHour, hnext]
    have hmake (dt : NaiveDateTime) := makeDt_date dt v 0 0 (by omega) (by omega) (by omega)
    have hdate : 24 * (cand.secs / 3600 / 24) = 24 * cand.date := by
      unfold NaiveDateTime.date
      omega
    unfold nextPosition
    cases wrapped with
    | false =>
      refine (Lands.of_ok (hmake cand)).at ?_
      rw [if_neg Bool.false_ne_true]
      omega
    | true =>
      refine (advanceDay_lands cand).bind (by rw [if_pos rfl]; omega) fun next hsecs ↦ ?_
      refine (Lands.of_ok (hmake next)).at ?_
      rw [if_pos rfl, NaiveDateTime.date, hsecs]
      omega

theorem advanceMinute_moves (hset : Within 0 59 sched.minutes) (hnot : cand.minute ∉ sched.minutes) :
    Moves sched cand (advanceMinute sched cand) := by
  obtain ⟨v, wrapped, hnext⟩ := nextOrFirst_total hset.1 cand.minute
  have hv := hset.2 v (nextOrFirst_ok hnext).1
  refine clock_moves 60 60 (by omega) (by omega) (by omega) (fun w hw ↦ ?_) hnot hnext
    (fun d hd ↦ (matches_iff.mp hd).2.1) ?_
  · have hw' := hset.2 w hw
    omega
  · rw [advanceMinute, hnext]
    have hmake (dt : NaiveDateTime) (minute : ℕ) (hminute : minute < 60) :=
      makeDt_date dt dt.hour minute 0 (hour_lt dt) hminute (by omega)
    unfold nextPosition
    cases wrapped with
    | false =>
      refine (Lands.of_ok (hmake cand v (by omega))).at ?_
      rw [if_neg Bool.false_ne_true, startOfHour]
      omega
    | true =>
      obtain ⟨hour, hhour, hsecs⟩ := hmake cand 0 (by omega)
      rw [startOfHour] at hsecs
      refine (Lands.of_ok ⟨hour, hhour, rfl⟩).bind (by rw [if_pos rfl]; omega) fun hour hhour ↦ ?_
      refine (plus_lands _ (by omega)).bind (by rw [if_pos rfl]; omega) fun next hlater ↦ ?_
      refine (Lands.of_ok (hmake next v (by omega))).at ?_
      rw [if_pos rfl, startOfHour]
      omega

theorem advanceSecond_moves (hset : Within 0 59 sched.seconds) (hnot : cand.second ∉ sched.seconds) :
    Moves sched cand (advanceSecond sched cand) := by
  obtain ⟨v, wrapped, hnext⟩ := nextOrFirst_total hset.1 cand.second
  have hv := hset.2 v (nextOrFirst_ok hnext).1
  have hone (d : NaiveDateTime) : (d.secs / 1 % 60).toNat = d.second := by
    rw [Int.ediv_one, NaiveDateTime.second]
  have hclock := hnext
  rw [← hone] at hnot hclock
  refine clock_moves 1 60 (by omega) (by omega) (by omega) (fun w hw ↦ ?_) hnot hclock
    (fun d hd ↦ ?_) ?_
  · have hw' := hset.2 w hw
    omega
  · rw [hone]
    exact (matches_iff.mp hd).1
  · rw [advanceSecond, hnext]
    have hmake (dt : NaiveDateTime) (second : ℕ) (hsecond : second < 60) :=
      makeDt_date dt dt.hour dt.minute second (hour_lt dt) (minute_lt dt) hsecond
    unfold nextPosition
    cases wrapped with
    | false =>
      refine (Lands.of_ok (hmake cand v (by omega))).at ?_
      rw [if_neg Bool.false_ne_true, startOfMinute]
      omega
    | true =>
      obtain ⟨minute, hminute, hsecs⟩ := hmake cand 0 (by omega)
      rw [startOfMinute] at hsecs
      refine (Lands.of_ok ⟨minute, hminute, rfl⟩).bind (by rw [if_pos rfl]; omega)
        fun minute hminute ↦ ?_
      refine (plus_lands _ (by omega)).bind (by rw [if_pos rfl]; omega) fun next hlater ↦ ?_
      refine (Lands.of_ok (hmake next v (by omega))).at ?_
      rw [if_pos rfl, startOfMinute]
      omega

theorem plus_one_moves (hnot : sched.matches_ cand = false) : Moves sched cand (cand.plus 1) := by
  refine ⟨_, plus_lands cand (by omega), ⟨by omega, fun d hle hd ↦ ?_⟩, lt_yearStart_of_le (by omega)⟩
  have hsame : d = cand := NaiveDateTime.ext (by omega)
  rw [hsame, hnot]

/-- Every round of the search ends in a match or moves on without passing one. -/
theorem searchStep_cases (start : NaiveDateTime) (hvalid : sched.Valid) (hcap : cand.year ≤ capYear) :
    (sched.matches_ cand = true ∧ searchStep sched start capYear cand = .ok (.inr cand)) ∨
      ∃ x, searchStep sched start capYear cand = x.map .inl ∧ Moves sched cand x := by
  unfold searchStep
  rw [if_neg (not_lt.mpr hcap)]
  by_cases hmonth : cand.month ∉ sched.months
  · exact Or.inr ⟨_, if_pos hmonth, advanceMonth_moves hvalid.months hmonth⟩
  rw [if_neg hmonth]
  by_cases hday : ¬ cronDayMatches sched cand
  · exact Or.inr ⟨_, if_pos hday, advanceDay_moves (by simpa using hday)⟩
  rw [if_neg hday]
  by_cases hhour : cand.hour ∉ sched.hours
  · exact Or.inr ⟨_, if_pos hhour, advanceHour_moves hvalid.hours hhour⟩
  rw [if_neg hhour]
  by_cases hminute : cand.minute ∉ sched.minutes
  · exact Or.inr ⟨_, if_pos hminute, advanceMinute_moves hvalid.minutes hminute⟩
  rw [if_neg hminute]
  by_cases hsecond : cand.second ∉ sched.seconds
  · exact Or.inr ⟨_, if_pos hsecond, advanceSecond_moves hvalid.seconds hsecond⟩
  rw [if_neg hsecond]
  by_cases hmatch : sched.matches_ cand = true
  · exact Or.inl ⟨hmatch, if_pos hmatch⟩
  · exact Or.inr ⟨_, if_neg hmatch, plus_one_moves (by simpa using hmatch)⟩

theorem searchStep_ok (hvalid : sched.Valid) {x : NaiveDateTime ⊕ NaiveDateTime}
    (h : searchStep sched start capYear cand = .ok x) :
    cand.year ≤ capYear ∧
      match x with
      | .inl next => Skips sched cand next
      | .inr found => found = cand ∧ sched.matches_ cand = true := by
  have hcap : cand.year ≤ capYear := by
    by_contra hcap
    rw [searchStep, if_pos (not_le.mp hcap)] at h
    cases h
  refine ⟨hcap, ?_⟩
  rcases searchStep_cases start hvalid hcap with ⟨hmatch, hstep⟩ | ⟨y, hstep, hmoves⟩
  · cases hstep.symm.trans h
    exact ⟨rfl, hmatch⟩
  · obtain ⟨next, rfl, rfl⟩ := map_ok.mp (hstep.symm.trans h)
    obtain ⟨t, hlands, hskips, -⟩ := hmoves
    rw [← show next.secs = t from hlands] at hskips
    exact hskips

/-- The least local time after `l` that the schedule matches. -/
def IsNextMatch (sched : CronSchedule) (l : ℤ) (m : NaiveDateTime) : Prop :=
  l < m.secs ∧ sched.matches_ m = true ∧
    ∀ d : NaiveDateTime, l < d.secs → sched.matches_ d = true → m.secs ≤ d.secs

/-- The last year in which the search looks for a match. -/
def lastYear (start : NaiveDateTime) : ℤ := yearOf ((start.secs + 1) / 86400) + 100

/-- The search has come to `cand` and has passed no match. -/
def Searched (sched : CronSchedule) (start cand : NaiveDateTime) : Prop :=
  start.secs < cand.secs ∧
    ∀ d : NaiveDateTime, start.secs < d.secs → d.secs < cand.secs → sched.matches_ d = false

theorem Searched.le {d : NaiveDateTime} (h : Searched sched start cand) (hlt : start.secs < d.secs)
    (hmatch : sched.matches_ d = true) : cand.secs ≤ d.secs := by
  by_contra hle
  have hnot := h.2 d hlt (not_le.mp hle)
  rw [hmatch] at hnot
  cases hnot

theorem Searched.skips (h : Searched sched start cand) (hskips : Skips sched cand next) :
    Searched sched start next := by
  refine ⟨h.1.trans hskips.1, fun d hlt hd ↦ ?_⟩
  by_cases hbefore : d.secs < cand.secs
  · exact h.2 d hlt hbefore
  · exact hskips.2 d (not_lt.mp hbefore) hd

theorem year_mono (h : cand.secs ≤ next.secs) : cand.year ≤ next.year := yearOf_mono (date_mono h)

/-- A round of the search panics only in the last year of all, and only when no match is left. -/
theorem searchStep_error (hvalid : sched.Valid) {e : Fault}
    (h : searchStep sched start capYear cand = .error e) :
    (capYear < cand.year ∧ e = .err
      s!"no schedule match found within 100 years after local datetime {start.debug}") ∨
    (cand.year ≤ capYear ∧ IsOverflow e ∧ 262142 ≤ capYear ∧
      ∀ d : NaiveDateTime, cand.secs ≤ d.secs → sched.matches_ d = false) := by
  by_cases hcap : capYear < cand.year
  · rw [searchStep, if_pos hcap] at h
    cases h
    exact Or.inl ⟨hcap, rfl⟩
  rw [not_lt] at hcap
  refine Or.inr ⟨hcap, ?_⟩
  rcases searchStep_cases start hvalid hcap with ⟨-, hstep⟩ | ⟨x, hstep, hmoves⟩
  · cases hstep.symm.trans h
  · cases x with
    | ok next => cases hstep.symm.trans h
    | error e' =>
      cases hstep.symm.trans h
      obtain ⟨t, ⟨hover, hpanic⟩, hskips, hyear⟩ := hmoves
      refine ⟨hpanic, ?_, fun d hd ↦ hskips.2 d hd (d.le.trans_lt hover)⟩
      have hlast : yearStart 262143 < yearStart (cand.year + 2) := by
        unfold maxSecs at hover
        omega
      have hlt := yearStart_strictMono.lt_iff_lt.mp hlast
      omega

/-- How `cron_next_after_naive` ends: with the next match, with an error when none is near enough, or
in a panic at the end of the calendar. -/
theorem cronNextAfterNaive_cases (hvalid : sched.Valid) (start : NaiveDateTime) :
    (∃ m, cronNextAfterNaive sched start = .ok m ∧ IsNextMatch sched start.secs m ∧
        m.year ≤ lastYear start) ∨
      (cronNextAfterNaive sched start = .error (.err
          s!"no schedule match found within 100 years after local datetime {start.debug}") ∧
        lastYear start < 262142 ∧
        ∀ d : NaiveDateTime, start.secs < d.secs → sched.matches_ d = true → lastYear start < d.year) ∨
      ∃ e, cronNextAfterNaive sched start = .error e ∧ IsOverflow e ∧ 262142 ≤ lastYear start ∧
        ∀ d : NaiveDateTime, start.secs < d.secs → sched.matches_ d = false := by
  have hlands := plus_lands start (n := 1) (by omega)
  cases hfirst : start.plus 1 with
  | error e =>
    rw [hfirst] at hlands
    obtain ⟨hover, hpanic⟩ := hlands
    refine Or.inr (Or.inr ⟨e, by rw [cronNextAfterNaive, hfirst]; rfl, hpanic, ?_, fun d hd ↦ ?_⟩)
    · have hyear : (262142 : ℤ) ≤ yearOf ((start.secs + 1) / 86400) := by
        have hnext := yearStart_strictMono (show (262142 : ℤ) < 262143 by omega)
        rw [← yearStart_le_iff]
        unfold maxSecs at hover
        omega
      unfold lastYear
      omega
    · have hle := d.le
      omega
  | ok first =>
    rw [hfirst] at hlands
    have hsecs : first.secs = start.secs + 1 := hlands
    have hcap : first.year + 100 = lastYear start := by
      rw [lastYear, ← hsecs, NaiveDateTime.year, NaiveDateTime.date]
    have hstep (cand next : NaiveDateTime) (hinv : Searched sched start cand)
        (hnext : searchStep sched start (first.year + 100) cand = .ok (.inl next)) :
        Searched sched start next ∧ (maxSecs - next.secs).toNat < (maxSecs - cand.secs).toNat := by
      have hskips : Skips sched cand next := (searchStep_ok hvalid hnext).2
      refine ⟨hinv.skips hskips, ?_⟩
      have hlt := hskips.1
      have hle := next.le
      omega
    obtain ⟨r, hrun, hends⟩ := Loop.run_total (Searched sched start)
      (fun cand ↦ (maxSecs - cand.secs).toNat) hstep ((maxSecs - first.secs).toNat + 1) first
      ⟨by omega, fun d hlt hd ↦ by omega⟩ (Nat.lt_succ_self _)
    have heq : cronNextAfterNaive sched start = r := by
      rw [cronNextAfterNaive, hfirst]
      change (Loop.run (searchStep sched start (first.year + 100)) _ first).getD _ = r
      rw [hrun]
      rfl
    rw [heq]
    obtain ⟨cand, hinv, hbody⟩ := hends
    rw [hcap] at hbody
    cases r with
    | ok m =>
      obtain ⟨hyear, rfl, hmatch⟩ := searchStep_ok hvalid hbody
      exact Or.inl ⟨m, rfl, ⟨hinv.1, hmatch, fun d hd hdm ↦ hinv.le hd hdm⟩, hyear⟩
    | error e =>
      rcases searchStep_error hvalid hbody with ⟨hlt, rfl⟩ | ⟨-, hpanic, hyear, hnone⟩
      · refine Or.inr (Or.inl ⟨rfl, hlt.trans_le (year_le cand), fun d hd hdm ↦ ?_⟩)
        exact hlt.trans_le (year_mono (hinv.le hd hdm))
      · refine Or.inr (Or.inr ⟨e, rfl, hpanic, hyear, fun d hd ↦ ?_⟩)
        by_cases hbefore : d.secs < cand.secs
        · exact hinv.2 d hd hbefore
        · exact hnone d (not_lt.mp hbefore)

theorem cronNextAfterNaive_ok (hvalid : sched.Valid) {m : NaiveDateTime}
    (h : cronNextAfterNaive sched start = .ok m) :
    IsNextMatch sched start.secs m ∧ m.year ≤ lastYear start := by
  rcases cronNextAfterNaive_cases hvalid start with ⟨m', hm, hnext⟩ | ⟨he, -⟩ | ⟨e, he, -⟩
  · cases hm.symm.trans h
    exact hnext
  · cases he.symm.trans h
  · cases he.symm.trans h

/-- A match that the search can answer with. -/
def Eligible (sched : CronSchedule) (start d : NaiveDateTime) : Prop :=
  start.secs < d.secs ∧ d.year ≤ lastYear start ∧ sched.matches_ d = true

theorem cronNextAfterNaive_near (start : NaiveDateTime) (hvalid : sched.Valid) (hdates : lastYear start + 1 ≤ 262142) :
    (∃ m, cronNextAfterNaive sched start = .ok m ∧ Eligible sched start m ∧
        ∀ d, Eligible sched start d → m.secs ≤ d.secs) ∨
      (cronNextAfterNaive sched start = .error (.err
          s!"no schedule match found within 100 years after local datetime {start.debug}") ∧
        ∀ d, ¬ Eligible sched start d) := by
  rcases cronNextAfterNaive_cases hvalid start with ⟨m, hm, hnext, hyear⟩ | ⟨he, -, hnone⟩ | ⟨e, -, -, hlast, -⟩
  · exact Or.inl ⟨m, hm, ⟨hnext.1, hyear, hnext.2.1⟩, fun d hd ↦ hnext.2.2 d hd.1 hd.2.2⟩
  · exact Or.inr ⟨he, fun d hd ↦ absurd hd.2.1 (not_le.mpr (hnone d hd.1 hd.2.2))⟩
  · omega

/-- `cron_next_after_naive` answers with the least match of the next hundred years, or with an error
when they have none, and no round of its loop passes a match. -/
theorem cron_next_after_naive_least (expr : List Char) (sched : CronSchedule)
    (hparse : CronSchedule.parse expr = .ok sched) (start : NaiveDateTime)
    (hdates : yearOf ((start.secs + 1) / 86400) + 101 ≤ 262142) :
    (∀ r, cronNextAfterNaive sched start = .ok r ↔
        Eligible sched start r ∧ ∀ d, Eligible sched start d → r.secs ≤ d.secs) ∧
      ((∃ r, cronNextAfterNaive sched start = .ok r) ↔ ∃ d, Eligible sched start d) ∧
      ((∀ d, ¬ Eligible sched start d) → cronNextAfterNaive sched start = .error (.err
        s!"no schedule match found within 100 years after local datetime {start.debug}")) ∧
      ∀ cand next, searchStep sched start (lastYear start) cand = .ok (.inl next) →
        cand.secs < next.secs ∧ ∀ d : NaiveDateTime, cand.secs ≤ d.secs → d.secs < next.secs →
          sched.matches_ d = false := by
  have hvalid := CronSchedule.parse_valid hparse
  have hmoves (cand next : NaiveDateTime)
      (h : searchStep sched start (lastYear start) cand = .ok (.inl next)) : Skips sched cand next :=
    (searchStep_ok hvalid h).2
  rcases cronNextAfterNaive_near start hvalid (by unfold lastYear; omega) with
    ⟨m, hm, helig, hleast⟩ | ⟨he, hnone⟩
  · refine ⟨fun r ↦ ⟨?_, ?_⟩, ⟨fun _ ↦ ⟨m, helig⟩, fun _ ↦ ⟨m, hm⟩⟩, fun hnone ↦ ?_, hmoves⟩
    · intro hr
      cases hm.symm.trans hr
      exact ⟨helig, hleast⟩
    · rintro ⟨hr, hrleast⟩
      have hsecs : m.secs = r.secs := le_antisymm (hleast r hr) (hrleast m helig)
      rw [hm, NaiveDateTime.ext hsecs]
    · exact absurd helig (hnone m)
  · refine ⟨fun r ↦ ⟨?_, ?_⟩, ⟨?_, ?_⟩, fun _ ↦ he, hmoves⟩
    · intro hr
      cases he.symm.trans hr
    · rintro ⟨hr, -⟩
      exact absurd hr (hnone r)
    · rintro ⟨r, hr⟩
      cases he.symm.trans hr
    · rintro ⟨d, hd⟩
      exact absurd hd (hnone d)

/-- Midnight on every 29 February. -/
def leapDays29 : CronSchedule := ⟨{0}, {0}, {0}, {29}, {2}, {6, 5, 4, 3, 2, 1, 0}⟩

def feb29of2096 : NaiveDateTime := ⟨86400 * 46080, by decide, by decide⟩

def feb29of2104 : NaiveDateTime := ⟨86400 * 49001, by decide, by decide⟩

/-- The year 2100 has no 29 February. -/
theorem cron_next_after_naive_least_centuryYear :
    (feb29of2096.year, feb29of2096.month, feb29of2096.day) = (2096, 2, 29) ∧
      (feb29of2104.year, feb29of2104.month, feb29of2104.day) = (2104, 2, 29) ∧
      Eligible leapDays29 feb29of2096 feb29of2104 ∧
      ∀ d, Eligible leapDays29 feb29of2096 d → feb29of2104.secs ≤ d.secs := by
  refine ⟨by decide +kernel, by decide +kernel, ?_⟩
  have hleast := cron_next_after_naive_least "0 0 29 2 *".toList leapDays29 (by rfl) feb29of2096 (by decide +kernel)
  exact (hleast.1 feb29of2104).mp (by decide +kernel)

end Search

end Honker.Cron
