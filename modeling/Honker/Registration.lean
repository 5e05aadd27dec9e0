import Honker.Fires

namespace Honker

open Relational Numeric Transition Replay

section Runs

/-- Two calls that tick at the same time, and both fail or both succeed. A tick that fails, by a failing
statement or by an expression without a next boundary, fires nothing for any task. -/
structure Alike (e e' : Event) : Prop where
  tick : ∃ t, e.input.op = .schedulerTick t ∧ e'.input.op = .schedulerTick t
  failed : (∃ err, e.output = .error err) ↔ ∃ err, e'.output = .error err

variable {next : String → ℤ → Except String ℤ} {db db' : Db} {c c' : Call} {name : String}

/-- What a tick fires of a task, and where it leaves it, depends on its row only. -/
theorem tick_agrees (h : Alike (event (exec next) db c) (event (exec next) db' c'))
    (hrow : db.tasks.find? name = db'.tasks.find? name) :
    firings name (event (exec next) db c) = firings name (event (exec next) db' c') ∧
      (exec next db c).2.tasks.find? name = (exec next db' c').2.tasks.find? name := by
  obtain ⟨t, hop, hop'⟩ := h.tick
  have hop : c.op = .schedulerTick t := hop
  have hop' : c'.op = .schedulerTick t := hop'
  rcases tick_failed next db hop with ⟨err, herr⟩ | ⟨fires, hout⟩
  · obtain ⟨err', herr'⟩ := h.failed.mp ⟨err, by simp [event, herr]⟩
    rcases tick_failed next db' hop' with ⟨err'', herr''⟩ | ⟨fires', hout'⟩
    · rw [herr, herr'']
      exact ⟨by simp [firings, event, herr, herr''], hrow⟩
    · cases hout'.symm.trans herr'
  · rcases tick_failed next db' hop' with ⟨err, herr⟩ | ⟨fires', hout'⟩
    · obtain ⟨err', herr'⟩ := h.failed.mpr ⟨err, by simp [event, herr]⟩
      cases hout.symm.trans herr'
    · have hfirings : firings name (event (exec next) db c) =
          stamped t 0 ((ofTask name fires).map Fire.fireAt) := by
        simp [firings, event, hop, hout]
      have hfirings' : firings name (event (exec next) db' c') =
          stamped t 0 ((ofTask name fires').map Fire.fireAt) := by
        simp [firings, event, hop', hout']
      rw [hfirings, hfirings']
      rcases tick_row hop hout name with
        ⟨hnil, hfind, hlate⟩ | ⟨task, last, hpre, hon, hdue, hreplay, hfind⟩
      · rcases tick_row hop' hout' name with
          ⟨hnil', hfind', -⟩ | ⟨task, last, hpre, hon, hdue, -⟩
        · rw [hnil, hnil', hfind, hfind']
          exact ⟨rfl, hrow⟩
        · exact absurd hdue (hlate task (hrow.trans hpre) hon).not_ge
      · rcases tick_row hop' hout' name with
          ⟨-, -, hlate⟩ | ⟨task', last', hpre', -, -, hreplay', hfind'⟩
        · exact absurd hdue (hlate task (hrow.symm.trans hpre) hon).not_ge
        · cases (hpre.symm.trans hrow).trans hpre'
          obtain ⟨hfires, rfl⟩ := hreplay.unique hreplay'
          rw [hfires, hfind, hfind']
          exact ⟨rfl, rfl⟩

theorem ticks_agree {ticks ticks' : List Call}
    (h : List.Forall₂ Alike (trace (exec next) db ticks) (trace (exec next) db' ticks'))
    (hrow : db.tasks.find? name = db'.tasks.find? name) :
    (trace (exec next) db ticks).flatMap (firings name) =
      (trace (exec next) db' ticks').flatMap (firings name) := by
  induction ticks generalizing db db' ticks' with
  | nil =>
    cases ticks' with
    | nil => rfl
    | cons c' ticks' => cases h
  | cons c ticks ih =>
    cases ticks' with
    | nil => cases h
    | cons c' ticks' =>
      obtain ⟨hhead, htail⟩ := List.forall₂_cons.mp h
      obtain ⟨hfirings, hrow⟩ := tick_agrees hhead hrow
      rw [trace, trace, List.flatMap_cons, List.flatMap_cons, hfirings, ih htail hrow]

end Runs

/-- The registration `c` leaves of task `name` what it leaves of it with `empty`, and the ticks that
follow cannot tell the two apart. -/
structure Forgets (next : String → ℤ → Except String ℤ) (name : String) (c : Call) (db empty : Db) :
    Prop where
  row : (exec next db c).2.tasks.find? name = (exec next empty c).2.tasks.find? name
  others : ∀ k, k ≠ name → (exec next db c).2.tasks.find? k = db.tasks.find? k
  fires : ∀ ticks ticks', List.Forall₂ Alike (trace (exec next) (exec next db c).2 ticks)
      (trace (exec next) (exec next empty c).2 ticks') →
    (trace (exec next) (exec next db c).2 ticks).flatMap (firings name) =
      (trace (exec next) (exec next empty c).2 ticks').flatMap (firings name)

/-- In every table state, a registration that succeeds replaces an earlier one of that name entirely, as
if the table were empty, if and only if the earlier one is not paused. -/
theorem register_forgets_iff (next : String → ℤ → Except String ℤ) (db empty : Db) (c : Call)
    {name queue expr payload : String} {priority maxAttempts : ℤ} {expiresS : Option I64}
    (hop : c.op = .schedulerRegister name queue expr payload priority expiresS maxAttempts)
    (hempty : empty.tasks = .empty) (hok : (exec next db c).1 = .count 1) :
    Forgets next name c db empty ↔
      ∀ task, db.tasks.find? name = some task → task.enabled = true := by
  rcases register_cases next hop with ⟨e, herr⟩ | ⟨start, task, -, htask, hexec⟩
  · rw [herr] at hok
    cases hok
  have hname : task.name = name := congrArg Task.name htask
  have hon : task.enabled = true := congrArg Task.enabled htask
  have hrow : (exec next db c).2.tasks.find? name =
      some { task with enabled := ((db.tasks.find? name).map Task.enabled).getD true } := by
    rw [hexec, ← hname, ← hon]
    exact find?_upsertTask task db
  have hfresh : (exec next empty c).2.tasks.find? name = some { task with enabled := true } := by
    have hnone : empty.tasks.find? name = none := by rw [hempty, Table.find?_empty]
    rw [hexec, ← hname, find?_upsertTask, hname, hnone, ← hon]
    rfl
  constructor
  · intro h old hold
    have hsame := h.row
    rw [hrow, hfresh, hold] at hsame
    exact congrArg Task.enabled (Option.some.inj hsame)
  · intro h
    have hsame : (exec next db c).2.tasks.find? name = (exec next empty c).2.tasks.find? name := by
      rw [hrow, hfresh]
      cases hold : db.tasks.find? name with
      | none => rfl
      | some old => rw [Option.map_some, Option.getD_some, h old hold]
    refine ⟨hsame, fun k hk ↦ ?_, fun ticks ticks' halike ↦ ticks_agree halike hsame⟩
    rw [hexec, find?_upsertTask_of_ne (hname.symm ▸ hk.symm)]

/-- The registration of a task for every ten seconds. -/
def registerAt (t : ℤ) : Call :=
  .at_ (.near t) (.schedulerRegister "t" "q" "@every 10s" "p" 0 none 3)

theorem register_forgets_renewed :
    Forgets (Cron.nextAfterUnix Cron.utc) "t" (registerAt 200)
      (final (exec (Cron.nextAfterUnix Cron.utc)) Db.fresh [registerAt 100]) Db.fresh := by
  refine (register_forgets_iff (Cron.nextAfterUnix Cron.utc) _ Db.fresh (registerAt 200) rfl rfl
    (by decide +kernel)).mpr fun task htask ↦ ?_
  have hrow : (final (exec (Cron.nextAfterUnix Cron.utc)) Db.fresh [registerAt 100]).tasks.find? "t" =
      some ⟨"t", "q", "@every 10s", "p", 0, none, 110, true, 3⟩ := by
    decide +kernel
  cases htask.symm.trans hrow
  rfl

/-- A registration and a pause. -/
def pausedCalls : List Call := [registerAt 100, .at_ (.near 150) (.schedulerPause "t")]

/-- The second registration succeeds and leaves the task paused: a tick at 230 fires nothing, where it
fires three boundaries after the same registration alone. -/
theorem register_stays_paused :
    (exec (Cron.nextAfterUnix Cron.utc)
      (final (exec (Cron.nextAfterUnix Cron.utc)) Db.fresh pausedCalls) (registerAt 200)).1 = .count 1 ∧
    fireTimes "t" (trace (exec (Cron.nextAfterUnix Cron.utc)) (final (exec (Cron.nextAfterUnix Cron.utc))
      Db.fresh (pausedCalls ++ [registerAt 200])) [.at_ (.near 230) (.schedulerTick 230)]) = [] ∧
    fireTimes "t" (trace (exec (Cron.nextAfterUnix Cron.utc)) (final (exec (Cron.nextAfterUnix Cron.utc))
      Db.fresh [registerAt 200]) [.at_ (.near 230) (.schedulerTick 230)]) = [210, 220, 230] ∧
    ¬ Forgets (Cron.nextAfterUnix Cron.utc) "t" (registerAt 200)
      (final (exec (Cron.nextAfterUnix Cron.utc)) Db.fresh pausedCalls) Db.fresh := by
  refine ⟨by decide +kernel, by decide +kernel, by decide +kernel, fun h ↦ ?_⟩
  exact absurd h.row (by decide +kernel)

end Honker
