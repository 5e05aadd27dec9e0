import Honker.Fires

namespace Honker

open Relational Numeric Transition Replay Cron

/-- A call for which the zone repeats no boundary of task `name`: none of those that a tick asks for,
none that a new schedule starts from; and a new schedule starts no earlier than the task has fired. -/
structure Clear (tz : Zone) (name : String) (past : List ℤ) (e : Event) : Prop where
  tick : ∀ t task, e.input.op = .schedulerTick t → e.pre.tasks.find? name = some task →
    task.enabled = true →
      ∀ u ∈ asks (nextAfterUnix tz task.cronExpr) t schedulerMaxCatchupFires task.nextFireAt,
        ¬ Repeats tz task.cronExpr u
  start : ∀ expr, e.input.op.schedules name = some expr →
    ¬ Repeats tz expr (e.input.clk 0) ∧ ∀ f ∈ past, f ≤ e.input.clk 0

theorem nextAfterUnix_lt {tz : Zone} {expr : String} {u v : ℤ} (hnot : ¬ Repeats tz expr u)
    (h : nextAfterUnix tz expr u = .ok v) : u < v :=
  (next_lt_iff (nextAfterUnix_ok.mp h)).mpr hnot

theorem Clear.forward {tz : Zone} {name : String} {past : List ℤ} {e : Event}
    (h : Clear tz name past e) : Forward (nextAfterUnix tz) name past e where
  tick t task hop hpre hon u hu _ hv := nextAfterUnix_lt (h.tick t task hop hpre hon u hu) hv
  start expr hexpr := ⟨fun _ hv ↦ nextAfterUnix_lt (h.start expr hexpr).1 hv, (h.start expr hexpr).2⟩

/-- Task `name` fires no boundary twice, and after a call that schedules it or ticks it is due later
than the time that call used. -/
structure NeverRefires (name : String) (h : List Event) : Prop where
  increasing : (fireTimes name h).Pairwise (· < ·)
  scheduled : ∀ e ∈ h, ∀ expr, e.input.op.schedules name = some expr → e.output = .count 1 →
    ∃ task, e.post.tasks.find? name = some task ∧ e.input.clk 0 < task.nextFireAt
  ticked : ∀ e ∈ h, ∀ t fires task, e.input.op = .schedulerTick t → e.output = .fires fires →
    e.pre.tasks.find? name = some task → task.enabled = true →
      ∃ task', e.post.tasks.find? name = some task' ∧ t < task'.nextFireAt

theorem schedules_later {next : String → ℤ → Except String ℤ} {name : String} {past : List ℤ} {db : Db}
    {c : Call} {expr : String} (hf : Forward next name past (event (exec next) db c))
    (hop : c.op.schedules name = some expr) (hout : (exec next db c).1 = .count 1) :
    ∃ task, (exec next db c).2.tasks.find? name = some task ∧ c.clk 0 < task.nextFireAt := by
  cases task_step next db c name with
  | kept _ _ _ idle =>
    rcases idle with hnone | hne
    · cases hnone.symm.trans hop
    · exact absurd hout hne
  | scheduled expr' task op _ post _ start =>
    cases op.symm.trans hop
    exact ⟨task, post, (hf.start expr hop).1 _ start⟩
  | ticked t _ _ _ op =>
    replace op : c.op = .schedulerTick t := op
    simp [op, Op.schedules] at hop
  | removed op =>
    replace op : c.op = .schedulerUnregister name := op
    simp [op, Op.schedules] at hop

/-- In every zone the next boundary is strictly later than the time it is asked for exactly when it
repeats no local time; a run that asks for no such boundary never fires one twice. -/
theorem next_boundary_strict (tz : Zone) :
    (∀ expr fromUnix u, nextAfterUnixInTz expr fromUnix tz = .ok u →
      (fromUnix < u ↔ ¬ Repeats tz expr fromUnix)) ∧
    ∀ (name : String) (db : Db) (calls : List Call),
      (∀ before c after, calls = before ++ c :: after →
        Clear tz name (fireTimes name (trace (exec (nextAfterUnix tz)) db before))
          (event (exec (nextAfterUnix tz)) (final (exec (nextAfterUnix tz)) db before) c)) →
      NeverRefires name (trace (exec (nextAfterUnix tz)) db calls) := by
  refine ⟨fun expr fromUnix u h ↦ next_lt_iff h, fun name db calls hclear ↦ ?_⟩
  have hforward (before : List Call) (c : Call) (after : List Call)
      (heq : calls = before ++ c :: after) := (hclear before c after heq).forward
  refine ⟨(Ascending.run db calls hforward).up, fun e he expr hop hout ↦ ?_,
    fun e he t fires task hop hout hpre hon ↦ ?_⟩
  · obtain ⟨before, c, after, heq, rfl⟩ := mem_trace (exec (nextAfterUnix tz)) he
    exact schedules_later (hforward before c after heq) hop hout
  · obtain ⟨before, c, after, heq, rfl⟩ := mem_trace (exec (nextAfterUnix tz)) he
    exact tick_after hop hout hpre hon ((hforward before c after heq).tick t task hop hpre hon)

/-- A task for 01:30 on 1 November, registered the evening before and ticked on time. -/
def fallBackCalls : List Call :=
  [.at_ (.near 1793500000) (.schedulerRegister "t" "q" "30 1 1 11 *" "p" 0 none 3),
   .at_ (.near 1793511000) (.schedulerTick 1793511000)]

theorem next_boundary_strict_eastern :
    Repeats eastern "30 1 1 11 *" 1793513700 ∧ ¬ Repeats eastern "30 1 1 11 *" 1793500000 ∧
      NeverRefires "t" (trace (exec (nextAfterUnix eastern)) Db.fresh fallBackCalls) := by
  obtain ⟨hiff, hrun⟩ := next_boundary_strict eastern
  have hlate : Repeats eastern "30 1 1 11 *" 1793513700 := by
    by_contra hnot
    exact absurd ((hiff "30 1 1 11 *" 1793513700 1793511000 (by decide)).mpr hnot) (by decide)
  have hbefore := (hiff "30 1 1 11 *" 1793500000 1793511000 (by decide)).mp (by decide)
  have hfirst := (hiff "30 1 1 11 *" 1793511000 1825050600 (by decide)).mp (by decide)
  refine ⟨hlate, hbefore, hrun "t" Db.fresh fallBackCalls fun before c after heq ↦ ?_⟩
  have hasks : asks (nextAfterUnix eastern "30 1 1 11 *") 1793511000 schedulerMaxCatchupFires
      1793511000 = [1793511000] := by
    decide
  rcases before with _ | ⟨b, _ | ⟨b', before⟩⟩
  · cases heq
    refine ⟨fun t task hop ↦ ?_, fun expr hexpr ↦ ?_⟩
    · cases hop
    · cases hexpr
      exact ⟨hbefore, by simp [fireTimes, trace]⟩
  · cases heq
    refine ⟨fun t task hop hpre _ ↦ ?_, fun expr hexpr ↦ ?_⟩
    · cases hop
      have hrow : (final (exec (nextAfterUnix eastern)) Db.fresh [.at_ (.near 1793500000)
          (.schedulerRegister "t" "q" "30 1 1 11 *" "p" 0 none 3)]).tasks.find? "t" =
          some ⟨"t", "q", "30 1 1 11 *", "p", 0, none, 1793511000, true, 3⟩ := by
        decide
      cases hpre.symm.trans hrow
      rw [hasks]
      simpa using hfirst
    · cases hexpr
  · simp [fallBackCalls] at heq

/-- In the second pass of the hour that a fall-back repeats, the next boundary is in the past. -/
theorem next_boundary_repeated :
    nextAfterUnixInTz "30 1 1 11 *" 1793513700 eastern = .ok 1793511000 ∧
      ¬ (1793513700 : ℤ) < 1793511000 := by
  decide

end Honker
