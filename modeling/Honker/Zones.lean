import Honker.NextMatch

namespace Honker.Cron

open Calendar Numeric Fallible

section LocalTimes

variable {tz : Zone} {expr : String} {fromUnix capYear : ℤ} {cand : NaiveDateTime}

/-- The first local time from `m` on that some instant has. -/
def IsNextShown (tz : Zone) (m c : ℤ) : Prop :=
  m ≤ c ∧ (∃ u, Shows tz.offset c u) ∧ ∀ l, m ≤ l → (∃ u, Shows tz.offset l u) → c ≤ l

theorem IsNextShown.unique {m c c' : ℤ} (h : IsNextShown tz m c) (h' : IsNextShown tz m c') :
    c = c' :=
  le_antisymm (h.2.2 c' h'.1 h'.2.1) (h'.2.2 c h.1 h.2.1)

theorem naiveLocal_ok {u : ℤ} {dt : NaiveDateTime} (h : tz.naiveLocal u = .ok dt) :
    dt.secs = tz.localTime u := by
  unfold Zone.naiveLocal at h
  split_ifs at h
  exact ofSecs_ok h

theorem gapStep_ok {x : NaiveDateTime ⊕ ℤ} (h : gapStep tz expr fromUnix capYear cand = .ok x) :
    match x with
    | .inl next => next.secs = cand.secs + 1 ∧ ∀ u, ¬ Shows tz.offset cand.secs u
    | .inr t => Shows tz.offset cand.secs t ∧ ∀ u, Shows tz.offset cand.secs u → t ≤ u := by
  have hanswer := tz.answers cand.secs
  unfold gapStep at h
  split_ifs at h
  cases hlocal : tz.fromLocal cand.secs with
  | none =>
    rw [hlocal] at h hanswer
    obtain ⟨next, hnext, rfl⟩ := map_ok.mp h
    exact ⟨plus_ok hnext, hanswer⟩
  | single t =>
    rw [hlocal] at h hanswer
    cases h
    exact ⟨hanswer.1, fun u hu ↦ (hanswer.2 u hu).ge⟩
  | ambiguous t later =>
    rw [hlocal] at h hanswer
    cases h
    exact ⟨hanswer.1, fun u hu ↦ (hanswer.2.2.2 u hu).1⟩

/-- The loop ends in the earliest instant of the first local time that exists. -/
theorem gap_ok {fuel : ℕ} {t : ℤ}
    (h : Loop.run (gapStep tz expr fromUnix capYear) fuel cand = some (.ok t)) :
    ∃ c, IsNextShown tz cand.secs c ∧ Shows tz.offset c t ∧ ∀ u, Shows tz.offset c u → t ≤ u := by
  have hends := Loop.run_inv (fun next : NaiveDateTime ↦
    cand.secs ≤ next.secs ∧ ∀ l, cand.secs ≤ l → l < next.secs → ∀ u, ¬ Shows tz.offset l u)
    (fun a next hinv hnext ↦ ?_) fuel cand ⟨le_rfl, fun l hle hlt ↦ by omega⟩ h
  · obtain ⟨last, ⟨hle, hnone⟩, hbody⟩ := hends
    obtain ⟨hshows, hleast⟩ := gapStep_ok hbody
    refine ⟨last.secs, ⟨hle, ⟨t, hshows⟩, fun l hl ⟨u, hu⟩ ↦ ?_⟩, hshows, hleast⟩
    by_contra hlt
    exact hnone l hl (by omega) u hu
  · obtain ⟨hle, hnone⟩ := hinv
    obtain ⟨hsecs, hgap⟩ := gapStep_ok hnext
    refine ⟨by omega, fun l hl hlt ↦ ?_⟩
    by_cases hbefore : l < a.secs
    · exact hnone l hl hbefore
    · have hlast : l = a.secs := by omega
      rw [hlast]
      exact hgap

/-- What an answer of `next_after_unix_in_tz` is: for a cron expression, the earliest instant of the
first existing local time at or after the next match. -/
theorem nextAfterUnixInTz_ok {u : ℤ} (h : nextAfterUnixInTz expr fromUnix tz = .ok u) :
    (∃ n, ScheduleExpr.parse expr = .ok (.every n) ∧ 0 < n ∧ u = fromUnix + n) ∨
      ∃ sched m c, ScheduleExpr.parse expr = .ok (.cron sched) ∧
        IsNextMatch sched (tz.localTime fromUnix) m ∧ IsNextShown tz m.secs c ∧
        Shows tz.offset c u ∧ ∀ x, Shows tz.offset c x → u ≤ x := by
  obtain ⟨parsed, hparsed, h⟩ := bind_ok.mp h
  rcases ScheduleExpr.parse_ok hparsed with ⟨n, rfl, hn⟩ | ⟨sched, rfl, hvalid⟩
  · left
    dsimp only at h
    split_ifs at h
    cases h
    exact ⟨n, hparsed, hn, rfl⟩
  · right
    obtain ⟨start, hstart, h⟩ := bind_ok.mp h
    obtain ⟨m, hm, h⟩ := bind_ok.mp h
    have hmatch := (cronNextAfterNaive_ok hvalid hm).1
    rw [naiveLocal_ok hstart] at hmatch
    cases hrun : Loop.run (gapStep tz expr fromUnix (m.year + 100))
        ((maxSecs - m.secs).toNat + 1) m with
    | none => simp [hrun] at h
    | some r =>
      rw [hrun] at h
      cases h
      obtain ⟨c, hc, hshows, hleast⟩ := gap_ok hrun
      exact ⟨sched, m, c, hparsed, hmatch, hc, hshows, hleast⟩

theorem nextAfterUnix_ok {u v : ℤ} :
    nextAfterUnix tz expr u = .ok v ↔ nextAfterUnixInTz expr u tz = .ok v := by
  unfold nextAfterUnix
  cases nextAfterUnixInTz expr u tz <;> simp [Except.mapError]

end LocalTimes

section Strict

variable {tz : Zone} {expr : String} {fromUnix u : ℤ}

/-- The next boundary of `expr` falls on a local time that the zone has already shown at or before
`fromUnix`: clocks were set back since. -/
def Repeats (tz : Zone) (expr : String) (fromUnix : ℤ) : Prop :=
  ∃ sched m c x, ScheduleExpr.parse expr = .ok (.cron sched) ∧
    IsNextMatch sched (tz.localTime fromUnix) m ∧ IsNextShown tz m.secs c ∧ x ≤ fromUnix ∧
    Shows tz.offset c x

theorem IsNextMatch.unique {sched : CronSchedule} {l : ℤ} {m m' : NaiveDateTime}
    (h : IsNextMatch sched l m) (h' : IsNextMatch sched l m') : m.secs = m'.secs :=
  le_antisymm (h.2.2 m' h'.1 h'.2.1) (h'.2.2 m h.1 h.2.1)

/-- The next boundary is strictly later exactly when it repeats no local time. -/
theorem next_lt_iff (h : nextAfterUnixInTz expr fromUnix tz = .ok u) :
    fromUnix < u ↔ ¬ Repeats tz expr fromUnix := by
  rcases nextAfterUnixInTz_ok h with ⟨n, hparsed, hn, rfl⟩ | ⟨sched, m, c, hparsed, hm, hc, hu, hleast⟩
  · constructor
    · rintro - ⟨sched, m, c, x, hcron, -⟩
      cases hparsed.symm.trans hcron
    · intro
      omega
  · constructor
    · rintro hlt ⟨sched', m', c', x, hcron, hm', hc', hx, hshows⟩
      cases hparsed.symm.trans hcron
      rw [← hm.unique hm'] at hc'
      rw [← hc.unique hc'] at hshows
      have hux := hleast x hshows
      omega
    · intro hnot
      by_contra hle
      exact hnot ⟨sched, m, c, u, hparsed, hm, hc, not_lt.mp hle, hu⟩

theorem not_repeats_of_highest (h : ∀ x ≤ fromUnix, tz.localTime x ≤ tz.localTime fromUnix) :
    ¬ Repeats tz expr fromUnix := by
  rintro ⟨sched, m, c, x, -, ⟨hlt, -⟩, ⟨hle, -⟩, hx, -, -, hshows⟩
  have hlocal := h x hx
  unfold Zone.localTime at hlocal hlt
  omega

end Strict

section Total

variable {tz : Zone} {expr : String} {fromUnix capYear : ℤ} {sched : CronSchedule}
  {cand m : NaiveDateTime}

/-- Some instant has a local time at or after `l`, and both are in the calendar. -/
def Reachable (tz : Zone) (l : ℤ) : Prop :=
  ∃ u, minSecs ≤ u ∧ u ≤ maxSecs ∧ l ≤ tz.localTime u ∧ tz.localTime u ≤ maxSecs

theorem reachable_of_year (hyear : m.year < 262142) : Reachable tz m.secs := by
  have hbound := tz.bounded (maxSecs - 86400)
  have hlt := (yearOf_spec m.date).2
  have hlast : yearStart 262143 = yearStart 262142 + 365 + leapDays 262142 := yearStart_succ 262142
  have hleap := leapDays_bounds 262142
  have hle : yearStart (yearOf m.date + 1) ≤ yearStart 262142 :=
    yearStart_strictMono.monotone hyear
  have hsecs : m.secs < 86400 * yearStart 262142 := date_lt_iff.mp (hlt.trans_le hle)
  have hmin := m.ge
  refine ⟨maxSecs - 86400, ?_, by omega, ?_, ?_⟩
  · unfold maxSecs
    omega
  · unfold Zone.localTime maxSecs at *
    omega
  · unfold Zone.localTime
    omega

theorem gapStep_error {e : Fault} (h : gapStep tz expr fromUnix capYear cand = .error e) :
    (capYear < cand.year ∧ ∃ text, e = .err text) ∨
      ((∃ text, e = .panic text) ∧ maxSecs ≤ cand.secs ∧ ∀ u, ¬ Shows tz.offset cand.secs u) := by
  have hanswer := tz.answers cand.secs
  unfold gapStep at h
  split_ifs at h with hcap
  · cases h
    exact Or.inl ⟨hcap, _, rfl⟩
  · cases hlocal : tz.fromLocal cand.secs with
    | none =>
      rw [hlocal] at h hanswer
      have hlands := plus_lands cand (n := 1) (by omega)
      cases hplus : cand.plus 1 with
      | ok next =>
        rw [hplus] at h
        cases h
      | error e' =>
        rw [hplus] at h hlands
        cases h
        obtain ⟨hover, hpanic⟩ := hlands
        refine Or.inr ⟨?_, by omega, hanswer⟩
        rcases hpanic with rfl | rfl <;> exact ⟨_, rfl⟩
    | single t =>
      rw [hlocal] at h
      cases h
    | ambiguous t later =>
      rw [hlocal] at h
      cases h

/-- The loop ends at a candidate before which no local time from `m` on is shown. -/
theorem gap_stops (tz : Zone) (expr : String) (fromUnix : ℤ) (m : NaiveDateTime) :
    ∃ r cand, Loop.run (gapStep tz expr fromUnix (m.year + 100)) ((maxSecs - m.secs).toNat + 1) m = some r ∧
      m.secs ≤ cand.secs ∧ (∀ l, m.secs ≤ l → l < cand.secs → ∀ u, ¬ Shows tz.offset l u) ∧
      gapStep tz expr fromUnix (m.year + 100) cand = r.map .inr := by
  have hstep (cand next : NaiveDateTime)
      (hinv : m.secs ≤ cand.secs ∧ ∀ l, m.secs ≤ l → l < cand.secs → ∀ u, ¬ Shows tz.offset l u)
      (hnext : gapStep tz expr fromUnix (m.year + 100) cand = .ok (.inl next)) :
      (m.secs ≤ next.secs ∧ ∀ l, m.secs ≤ l → l < next.secs → ∀ u, ¬ Shows tz.offset l u) ∧
        (maxSecs - next.secs).toNat < (maxSecs - cand.secs).toNat := by
    obtain ⟨hle, hnone⟩ := hinv
    obtain ⟨hsecs, hgap⟩ := gapStep_ok hnext
    have hmax := next.le
    refine ⟨⟨by omega, fun l hl hlt ↦ ?_⟩, by omega⟩
    by_cases hbefore : l < cand.secs
    · exact hnone l hl hbefore
    · have hlast : l = cand.secs := by omega
      rw [hlast]
      exact hgap
  obtain ⟨r, hrun, cand, ⟨hle, hnone⟩, hbody⟩ := Loop.run_total _
    (fun cand ↦ (maxSecs - cand.secs).toNat) hstep ((maxSecs - m.secs).toNat + 1) m
    ⟨le_rfl, fun l hl hlt ↦ by omega⟩ (Nat.lt_succ_self _)
  refine ⟨r, cand, hrun, hle, hnone, ?_⟩
  cases r <;> exact hbody

theorem gap_cases (tz : Zone) (expr : String) (fromUnix : ℤ) (m : NaiveDateTime) :
    (Returns ((Loop.run (gapStep tz expr fromUnix (m.year + 100)) ((maxSecs - m.secs).toNat + 1)
        m).getD (.error .diverges)) ∧ Reachable tz m.secs) ∨
      ((∃ text, (Loop.run (gapStep tz expr fromUnix (m.year + 100)) ((maxSecs - m.secs).toNat + 1)
        m).getD (.error .diverges) = .error (.panic text)) ∧ ¬ Reachable tz m.secs) := by
  obtain ⟨r, cand, hrun, hle, hnone, hbody⟩ := gap_stops tz expr fromUnix m
  rw [hrun, Option.getD_some]
  cases r with
  | ok t =>
    obtain ⟨hmin, hmax, hshows⟩ := (gapStep_ok hbody).1
    refine Or.inl ⟨returns_ok t, t, hmin, hmax, ?_, ?_⟩
    · rw [Zone.localTime, hshows]
      exact hle
    · rw [Zone.localTime, hshows]
      exact cand.le
  | error e =>
    rcases gapStep_error hbody with ⟨hcap, text, rfl⟩ | ⟨⟨text, rfl⟩, hlast, hnot⟩
    · have hyear := year_le cand
      exact Or.inl ⟨returns_err text, reachable_of_year (by omega)⟩
    · refine Or.inr ⟨⟨text, rfl⟩, ?_⟩
      rintro ⟨u, hmin, hmax, hreach, hend⟩
      have hcand := cand.le
      by_cases hbefore : tz.localTime u < cand.secs
      · exact hnone _ hreach hbefore u ⟨hmin, hmax, rfl⟩
      · exact hnot u ⟨hmin, hmax, show tz.localTime u = cand.secs by omega⟩

/-- The search gets out of a gap before the last year of the calendar: clocks differ by less than a day
from UTC, so a later local time within two days is shown. -/
theorem gap_returns (tz : Zone) (expr : String) (fromUnix : ℤ) {m : NaiveDateTime} (hyear : m.year < 262142) :
    ∃ t, Loop.run (gapStep tz expr fromUnix (m.year + 100)) ((maxSecs - m.secs).toNat + 1) m =
      some (.ok t) := by
  obtain ⟨r, cand, hrun, -, hnone, hbody⟩ := gap_stops tz expr fromUnix m
  have hlt : m.date < yearStart (m.year + 1) := (yearOf_spec m.date).2
  have hsecs := date_lt_iff.mp (hlt.trans_le (yearStart_strictMono.monotone (show m.year + 1 ≤ 262142 by omega)))
  have hlast : yearStart 262143 = yearStart 262142 + 365 + leapDays 262142 := yearStart_succ 262142
  have hleap := leapDays_bounds 262142
  have hbound := tz.bounded (m.secs + 86400)
  have hmin := m.ge
  have hnear : cand.secs < m.secs + 172800 := by
    by_contra hfar
    refine hnone (tz.localTime (m.secs + 86400)) ?_ ?_ (m.secs + 86400) ⟨by omega, ?_, rfl⟩
    · unfold Zone.localTime
      omega
    · unfold Zone.localTime
      omega
    · unfold maxSecs
      omega
  cases r with
  | ok t => exact ⟨t, hrun⟩
  | error e =>
    rcases gapStep_error hbody with ⟨hcap, -⟩ | ⟨-, hend, -⟩
    · have hnext := yearStart_succ (m.year + 1)
      have hdays := leapDays_bounds (m.year + 1)
      have hcand : cand.date < yearStart (m.year + 1 + 1) := by
        have := date_lt_iff.mp hlt
        rw [date_lt_iff]
        omega
      have := yearStart_strictMono.lt_iff_lt.mp ((yearOf_spec cand.date).1.trans_lt hcand)
      change m.year + 100 < yearOf cand.date at hcap
      omega
    · unfold maxSecs at hend
      omega

/-- The answer to a cron expression is in the calendar: the search gives up before the last year, or
a match is left and an instant reaches it. -/
def Answerable (tz : Zone) (sched : CronSchedule) (l : ℤ) : Prop :=
  minSecs ≤ l ∧ l ≤ maxSecs ∧
    (yearOf ((l + 1) / 86400) + 100 < 262142 ∨
      ∃ d : NaiveDateTime, sched.matches_ d = true ∧ l < d.secs ∧ Reachable tz d.secs)

theorem Reachable.mono {l l' : ℤ} (h : Reachable tz l') (hle : l ≤ l') : Reachable tz l := by
  obtain ⟨u, hmin, hmax, hreach, hend⟩ := h
  exact ⟨u, hmin, hmax, hle.trans hreach, hend⟩

theorem search_cases (hvalid : sched.Valid) (start : NaiveDateTime) :
    let x := do
      let cand ← cronNextAfterNaive sched start
      (Loop.run (gapStep tz expr fromUnix (cand.year + 100)) ((maxSecs - cand.secs).toNat + 1)
        cand).getD (.error .diverges)
    (Returns x ∧ Answerable tz sched start.secs) ∨
      ((∃ text, x = .error (.panic text)) ∧ ¬ Answerable tz sched start.secs) := by
  dsimp only
  rcases cronNextAfterNaive_cases hvalid start with
    ⟨m, hm, hnext, hyear⟩ | ⟨he, hyear, -⟩ | ⟨e, he, hpanic, hlast, hnone⟩
  · rw [hm]
    rcases gap_cases tz expr fromUnix m with ⟨hreturns, hreach⟩ | ⟨hpanic, hreach⟩
    · exact Or.inl ⟨hreturns, start.ge, start.le, Or.inr ⟨m, hnext.2.1, hnext.1, hreach⟩⟩
    · refine Or.inr ⟨hpanic, ?_⟩
      rintro ⟨-, -, hnear | ⟨d, hd, hlt, hd'⟩⟩
      · unfold lastYear at hyear
        exact hreach (reachable_of_year (by omega))
      · exact hreach (hd'.mono (hnext.2.2 d hlt hd))
  · rw [he]
    exact Or.inl ⟨returns_err _, start.ge, start.le, Or.inl hyear⟩
  · rw [he]
    refine Or.inr ⟨?_, ?_⟩
    · rcases hpanic with rfl | rfl <;> exact ⟨_, rfl⟩
    · rintro ⟨-, -, hnear | ⟨d, hd, hlt, -⟩⟩
      · unfold lastYear at hlast
        omega
      · cases (hnone d hlt).symm.trans hd

/-- `next_after_unix_in_tz` returns, or it panics on a cron expression whose next boundary is past the
end of the calendar. -/
theorem nextAfterUnixInTz_cases (expr : String) (fromUnix : ℤ) (tz : Zone) :
    (Returns (nextAfterUnixInTz expr fromUnix tz) ∧
      ∀ sched, ScheduleExpr.parse expr = .ok (.cron sched) → minSecs ≤ fromUnix →
        fromUnix ≤ maxSecs → Answerable tz sched (tz.localTime fromUnix)) ∨
      ((∃ text, nextAfterUnixInTz expr fromUnix tz = .error (.panic text)) ∧
        ∃ sched, ScheduleExpr.parse expr = .ok (.cron sched) ∧ minSecs ≤ fromUnix ∧
          fromUnix ≤ maxSecs ∧ ¬ Answerable tz sched (tz.localTime fromUnix)) := by
  cases hparse : ScheduleExpr.parse expr with
  | error e =>
    obtain ⟨text, rfl⟩ := ScheduleExpr.parse_returns expr e hparse
    refine Or.inl ⟨?_, fun sched hcron ↦ by cases hcron⟩
    rw [nextAfterUnixInTz, hparse]
    exact returns_err text
  | ok parsed =>
    rw [nextAfterUnixInTz, hparse]
    rcases ScheduleExpr.parse_ok hparse with ⟨n, rfl, -⟩ | ⟨sched, rfl, hvalid⟩
    · refine Or.inl ⟨?_, fun sched hcron ↦ by cases hcron⟩
      dsimp only [bind, Except.bind]
      split_ifs
      · exact returns_ok _
      · exact returns_err _
    · dsimp only [bind, Except.bind]
      by_cases hrange : minSecs ≤ fromUnix ∧ fromUnix ≤ maxSecs
      · rw [Zone.naiveLocal, if_pos hrange, NaiveDateTime.ofSecs]
        by_cases hlocal : minSecs ≤ tz.localTime fromUnix ∧ tz.localTime fromUnix ≤ maxSecs
        · rw [dif_pos hlocal]
          rcases search_cases hvalid ⟨_, hlocal.1, hlocal.2⟩ with ⟨hreturns, hanswer⟩ | ⟨hpanic, hnot⟩
          · refine Or.inl ⟨hreturns, fun sched' hcron _ _ ↦ ?_⟩
            cases hcron
            exact hanswer
          · exact Or.inr ⟨hpanic, sched, rfl, hrange.1, hrange.2, hnot⟩
        · rw [dif_neg hlocal]
          refine Or.inr ⟨⟨_, rfl⟩, sched, rfl, hrange.1, hrange.2, fun hanswer ↦ ?_⟩
          exact hlocal ⟨hanswer.1, hanswer.2.1⟩
      · rw [Zone.naiveLocal, if_neg hrange]
        refine Or.inl ⟨returns_err _, fun sched' _ hmin hmax ↦ absurd ⟨hmin, hmax⟩ hrange⟩

/-- `next_after_unix_in_tz` returns `Ok` or `Err` exactly when it is not asked for a cron boundary
past the end of the calendar; else it panics. -/
theorem next_after_unix_total_iff (expr : String) (fromUnix : ℤ) (tz : Zone) :
    (Returns (nextAfterUnixInTz expr fromUnix tz) ↔
      ∀ sched, ScheduleExpr.parse expr = .ok (.cron sched) → minSecs ≤ fromUnix →
        fromUnix ≤ maxSecs → Answerable tz sched (tz.localTime fromUnix)) ∧
      (Returns (nextAfterUnixInTz expr fromUnix tz) ∨
        ∃ text, nextAfterUnixInTz expr fromUnix tz = .error (.panic text)) ∧
      ∀ dt : NaiveDateTime, -2 ^ 31 ≤ dt.year ∧ dt.year + 100 < 2 ^ 31 := by
  have hyears (dt : NaiveDateTime) : -2 ^ 31 ≤ dt.year ∧ dt.year + 100 < 2 ^ 31 := by
    have hle := year_le dt
    have hge := le_year dt
    omega
  rcases nextAfterUnixInTz_cases expr fromUnix tz with
    ⟨hreturns, hanswer⟩ | ⟨⟨text, hpanic⟩, sched, hparse, hmin, hmax, hnot⟩
  · exact ⟨⟨fun _ ↦ hanswer, fun _ ↦ hreturns⟩, Or.inl hreturns, hyears⟩
  · refine ⟨⟨fun hreturns ↦ ?_, fun hanswer ↦ ?_⟩, Or.inr ⟨text, hpanic⟩, hyears⟩
    · rw [hpanic] at hreturns
      exact absurd hreturns (not_returns_panic text)
    · exact absurd (hanswer sched hparse hmin hmax) hnot

end Total

section Forward

variable {tz : Zone} {expr : String} {fromUnix u : ℤ} {sched : CronSchedule}

/-- The instant `u` has a local time that the schedule matches, or it is the first one after a gap
and the gap contains such a local time. -/
def Delivers (tz : Zone) (sched : CronSchedule) (u : ℤ) : Prop :=
  (∃ d : NaiveDateTime, sched.matches_ d = true ∧ d.secs = tz.localTime u) ∨
    ∃ d : NaiveDateTime, sched.matches_ d = true ∧ tz.localTime (u - 1) < d.secs ∧
      d.secs < tz.localTime u

theorem fromUnix_range (hparse : ScheduleExpr.parse expr = .ok (.cron sched))
    (h : nextAfterUnixInTz expr fromUnix tz = .ok u) : minSecs ≤ fromUnix ∧ fromUnix ≤ maxSecs := by
  obtain ⟨parsed, hparsed, h⟩ := bind_ok.mp h
  cases hparse.symm.trans hparsed
  obtain ⟨start, hstart, -⟩ := bind_ok.mp h
  by_contra hrange
  unfold Zone.naiveLocal at hstart
  rw [if_neg hrange] at hstart
  cases hstart

theorem localTime_strictMono (hforward : Monotone tz.offset) : StrictMono tz.localTime := by
  intro x y hxy
  have hle := hforward hxy.le
  unfold Zone.localTime
  omega

/-- Where clocks only go forward, an instant delivers exactly when its local time is the first one
shown at or after a match. -/
theorem delivers_iff (hforward : Monotone tz.offset) :
    Delivers tz sched u ↔ ∃ d : NaiveDateTime, sched.matches_ d = true ∧
      tz.localTime (u - 1) < d.secs ∧ d.secs ≤ tz.localTime u := by
  have hlt : tz.localTime (u - 1) < tz.localTime u := localTime_strictMono hforward (by omega)
  constructor
  · rintro (⟨d, hd, hsecs⟩ | ⟨d, hd, hbefore, hafter⟩)
    · exact ⟨d, hd, by omega, hsecs.le⟩
    · exact ⟨d, hd, hbefore, hafter.le⟩
  · rintro ⟨d, hd, hbefore, hafter⟩
    rcases hafter.eq_or_lt with hsecs | hafter
    · exact Or.inl ⟨d, hd, hsecs⟩
    · exact Or.inr ⟨d, hd, hbefore, hafter⟩

/-- The answer for a cron expression comes after `fromUnix` and after every local time before it
that is shown. -/
theorem next_after_gap (hforward : Monotone tz.offset)
    (hparse : ScheduleExpr.parse expr = .ok (.cron sched))
    (h : nextAfterUnixInTz expr fromUnix tz = .ok u) :
    fromUnix < u ∧ ∃ m : NaiveDateTime, IsNextMatch sched (tz.localTime fromUnix) m ∧
      tz.localTime (u - 1) < m.secs ∧ m.secs ≤ tz.localTime u := by
  obtain ⟨hmin, hmax⟩ := fromUnix_range hparse h
  rcases nextAfterUnixInTz_ok h with ⟨n, hevery, -⟩ | ⟨sched', m, c, hcron, hm, hc, hu, -⟩
  · cases hparse.symm.trans hevery
  cases hparse.symm.trans hcron
  have hmono := localTime_strictMono hforward
  have hshown : tz.localTime u = c := hu.2.2
  have hlt : fromUnix < u := by
    rw [← hmono.lt_iff_lt, hshown]
    exact hm.1.trans_le hc.1
  refine ⟨hlt, m, hm, ?_, hshown ▸ hc.1⟩
  -- The instant before is shown, so its local time cannot reach the match.
  by_contra hle
  have hshows : Shows tz.offset (tz.localTime (u - 1)) (u - 1) := ⟨by omega, by have := hu.2.1; omega, rfl⟩
  have hfirst := hc.2.2 _ (not_lt.mp hle) ⟨u - 1, hshows⟩
  have hbefore := hmono (show u - 1 < u by omega)
  omega

/-- A cron expression has a next boundary if it has a match in the next hundred years, and these end
before the last year of the calendar. -/
theorem nextAfterUnixInTz_total (hparse : ScheduleExpr.parse expr = .ok (.cron sched))
    (hmin : minSecs ≤ fromUnix) (hlocal : minSecs ≤ tz.localTime fromUnix) {d : NaiveDateTime}
    (hd : sched.matches_ d = true) (hlater : tz.localTime fromUnix < d.secs)
    (hnear : d.year ≤ yearOf ((tz.localTime fromUnix + 1) / 86400) + 100) (hyear : d.year < 262142) :
    ∃ u, nextAfterUnixInTz expr fromUnix tz = .ok u := by
  rcases ScheduleExpr.parse_ok hparse with ⟨n, hevery, -⟩ | ⟨sched', hcron, hvalid⟩
  · cases hevery
  cases hcron
  have hmax := d.le
  have hrange : minSecs ≤ fromUnix ∧ fromUnix ≤ maxSecs := by
    have hsecs := date_lt_iff.mp ((yearOf_spec d.date).2.trans_le
      (yearStart_strictMono.monotone (show d.year + 1 ≤ 262142 by omega)))
    have hlast : yearStart 262143 = yearStart 262142 + 365 + leapDays 262142 := yearStart_succ 262142
    have hleap := leapDays_bounds 262142
    have hbound := tz.bounded fromUnix
    refine ⟨hmin, ?_⟩
    unfold Zone.localTime at hlater
    unfold maxSecs
    omega
  rw [nextAfterUnixInTz, hparse]
  dsimp only [bind, Except.bind]
  rw [Zone.naiveLocal, if_pos hrange, NaiveDateTime.ofSecs, dif_pos ⟨hlocal, by omega⟩]
  rcases cronNextAfterNaive_cases hvalid ⟨_, hlocal, by omega⟩ with
    ⟨m, hm, hnext, -⟩ | ⟨-, -, hnone⟩ | ⟨e, -, -, -, hnone⟩
  · have hle : m.year ≤ d.year := yearOf_mono (date_mono (hnext.2.2 d hlater hd))
    obtain ⟨t, ht⟩ := gap_returns tz expr fromUnix (m := m) (by omega)
    refine ⟨t, ?_⟩
    dsimp only
    rw [hm]
    dsimp only
    rw [ht]
    rfl
  · exact absurd (hnone d hlater hd) (not_lt.mpr hnear)
  · cases (hnone d hlater).symm.trans hd

/-- Where clocks only go forward, the next boundary of a cron expression is the first instant at which
a match is due, in the day or at the end of a gap, and no match lies before it; and there is one if the
dates are in range. -/
theorem next_boundary_forward (tz : Zone) (hforward : Monotone tz.offset) (expr : String)
    (fromUnix : ℤ) :
    (∀ sched u, ScheduleExpr.parse expr = .ok (.cron sched) →
        nextAfterUnixInTz expr fromUnix tz = .ok u →
        IsLeast {x | fromUnix < x ∧ Delivers tz sched x} u ∧
          ∀ d : NaiveDateTime, sched.matches_ d = true → tz.localTime fromUnix < d.secs →
            tz.localTime (u - 1) < d.secs) ∧
      (∀ sched (d : NaiveDateTime), ScheduleExpr.parse expr = .ok (.cron sched) → minSecs ≤ fromUnix →
        minSecs ≤ tz.localTime fromUnix → sched.matches_ d = true → tz.localTime fromUnix < d.secs →
        d.year ≤ yearOf ((tz.localTime fromUnix + 1) / 86400) + 100 → d.year < 262142 →
        ∃ u, nextAfterUnixInTz expr fromUnix tz = .ok u) ∧
      ∀ n, ScheduleExpr.parse expr = .ok (.every n) →
        nextAfterUnixInTz expr fromUnix tz =
          if InRange (fromUnix + n) then .ok (fromUnix + n)
          else .error (.err s!"next interval overflows unix timestamp for {debug expr.toList}") := by
  refine ⟨fun sched u hparse h ↦ ?_, fun sched d hparse hmin hlocal hd hlater hnear hyear ↦
    nextAfterUnixInTz_total hparse hmin hlocal hd hlater hnear hyear, fun n hparse ↦ ?_⟩
  · obtain ⟨hlt, m, hm, hbefore, hafter⟩ := next_after_gap hforward hparse h
    have hmono := localTime_strictMono hforward
    refine ⟨⟨⟨hlt, (delivers_iff hforward).mpr ⟨m, hm.2.1, hbefore, hafter⟩⟩, ?_⟩, ?_⟩
    · rintro x ⟨hx, hdelivers⟩
      obtain ⟨d, hd, hd₁, hd₂⟩ := (delivers_iff hforward).mp hdelivers
      have hfrom := hmono.monotone (show fromUnix ≤ x - 1 by omega)
      have hle := hm.2.2 d (by omega) hd
      have hux : tz.localTime (u - 1) < tz.localTime x := by omega
      have hlt' := hmono.lt_iff_lt.mp hux
      omega
    · intro d hd hlater
      exact hbefore.trans_le (hm.2.2 d hlater hd)
  · rw [nextAfterUnixInTz, hparse]
    rfl

end Forward

section Shift

/-- Offsets that a zone can have. -/
def IsOffset (offset : ℤ) : Prop := -86400 < offset ∧ offset < 86400

instance (offset : ℤ) : Decidable (IsOffset offset) := inferInstanceAs (Decidable (_ ∧ _))

/-- The answer for a zone that changes its offset once. -/
def shiftLocal (at_ before after l : ℤ) : LocalResult :=
  let early := minSecs ≤ l - before ∧ l - before ≤ maxSecs ∧ l - before < at_
  let late := minSecs ≤ l - after ∧ l - after ≤ maxSecs ∧ at_ ≤ l - after
  if early then if late then .ambiguous (l - before) (l - after) else .single (l - before)
  else if late then .single (l - after)
  else .none

theorem shows_shift {at_ before after l u : ℤ} :
    Shows (fun u ↦ if u < at_ then before else after) l u ↔
      (u = l - before ∧ minSecs ≤ l - before ∧ l - before ≤ maxSecs ∧ l - before < at_) ∨
        (u = l - after ∧ minSecs ≤ l - after ∧ l - after ≤ maxSecs ∧ at_ ≤ l - after) := by
  unfold Shows
  dsimp only
  split_ifs <;> omega

/-- The zone whose offset changes from `before` to `after` at the instant `at_`. -/
def Zone.shift (at_ before after : ℤ) (hb : IsOffset before) (ha : IsOffset after) : Zone where
  offset u := if u < at_ then before else after
  bounded u := by
    split_ifs
    · exact hb
    · exact ha
  fromLocal := shiftLocal at_ before after
  answers l := by
    unfold shiftLocal
    dsimp only
    split_ifs with hearly hlate hlate
    · refine ⟨shows_shift.mpr (Or.inl ⟨rfl, hearly⟩), shows_shift.mpr (Or.inr ⟨rfl, hlate⟩), by omega,
        fun u hu ↦ ?_⟩
      rcases shows_shift.mp hu with ⟨rfl, -⟩ | ⟨rfl, -⟩ <;> omega
    · refine ⟨shows_shift.mpr (Or.inl ⟨rfl, hearly⟩), fun u hu ↦ ?_⟩
      rcases shows_shift.mp hu with ⟨hu, -⟩ | ⟨-, hu⟩
      · exact hu
      · exact absurd hu hlate
    · refine ⟨shows_shift.mpr (Or.inr ⟨rfl, hlate⟩), fun u hu ↦ ?_⟩
      rcases shows_shift.mp hu with ⟨-, hu⟩ | ⟨hu, -⟩
      · exact absurd hu hearly
      · exact hu
    · intro u hu
      rcases shows_shift.mp hu with ⟨-, hu⟩ | ⟨-, hu⟩
      · exact hearly hu
      · exact hlate hu

def utc : Zone := .shift 0 0 0 (by decide) (by decide)

/-- In the last second of the calendar `timestamp_opt` still answers, and the first addition of the
search overflows. -/
theorem next_after_unix_panics :
    InRange 8210266876799 ∧ ¬ Returns (nextAfterUnixInTz "* * * * *" 8210266876799 utc) := by
  refine ⟨by decide, ?_⟩
  have hpanic : nextAfterUnixInTz "* * * * *" 8210266876799 utc =
      .error (.panic "`NaiveDateTime + TimeDelta` overflowed") := by
    decide +kernel
  rw [hpanic]
  exact not_returns_panic _

theorem shift_forward {at_ before after : ℤ} (hb : IsOffset before) (ha : IsOffset after)
    (hle : before ≤ after) : Monotone (Zone.shift at_ before after hb ha).offset := by
  intro x y hxy
  dsimp only [Zone.shift]
  split_ifs <;> omega

/-- US Eastern time around the start of daylight saving time on 2026-03-08. -/
def easternSpring : Zone := .shift 1772953200 (-18000) (-14400) (by decide) (by decide)

/-- Half past two in the morning of every 8 March. -/
def halfPastTwo : CronSchedule := ⟨{0}, {30}, {2}, {8}, {3}, {6, 5, 4, 3, 2, 1, 0}⟩

/-- US Eastern time around the end of daylight saving time on 2026-11-01. -/
def eastern : Zone := .shift 1793512800 (-14400) (-18000) (by decide) (by decide)

/-- On 2026-03-08 half past two does not exist: the boundary is three o'clock. -/
theorem next_boundary_forward_springGap :
    nextAfterUnixInTz "30 2 8 3 *" 1772942400 easternSpring = .ok 1772953200 ∧
      IsLeast {x | 1772942400 < x ∧ Delivers easternSpring halfPastTwo x} 1772953200 := by
  have hparse : ScheduleExpr.parse "30 2 8 3 *" = .ok (.cron halfPastTwo) := by rfl
  have hnext : nextAfterUnixInTz "30 2 8 3 *" 1772942400 easternSpring = .ok 1772953200 := by
    decide +kernel
  exact ⟨hnext, ((next_boundary_forward easternSpring (shift_forward _ _ (by omega)) "30 2 8 3 *"
    1772942400).1 halfPastTwo 1772953200 hparse hnext).1⟩

end Shift

end Honker.Cron
