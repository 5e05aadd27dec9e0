import Honker.Effects
import Honker.Library.Replay

namespace Honker

open Relational Numeric Fallible Replay

theorem boundary_ok {next : String → ℤ → Except String ℤ} {expr : String} {u v : ℤ} :
    boundary next expr u = .ok v ↔ next expr u = .ok v := by
  unfold boundary
  cases next expr u <;> simp [Except.mapError]

theorem find?_updateTask (k name : String) (f : Task → Task) (hf : ∀ t, (f t).name = t.name) (db : Db) :
    (updateTask k f hf db).tasks.find? name =
      (db.tasks.find? name).map (fun t ↦ if t.name = k then f t else t) := by
  rw [updateTask, Table.find?_update]
  simp only [decide_eq_true_eq]

theorem find?_updateTask_of_ne {k name : String} {f : Task → Task} {hf : ∀ t, (f t).name = t.name}
    {db : Db} (h : k ≠ name) : (updateTask k f hf db).tasks.find? name = db.tasks.find? name := by
  rw [find?_updateTask]
  cases hn : db.tasks.find? name with
  | none => rfl
  | some t =>
    have hname := (Table.find?_eq_some.mp hn).2
    rw [Option.map_some, if_neg fun heq ↦ h (heq.symm.trans hname)]

section Loop

variable {next : String → ℤ → Except String ℤ} {now : Clock} {created : ℤ → Clock} {tickAt : ℤ}
  {faults : TickFaults} {db db' : Db}

/-- The catch-up loop replays the boundaries that the task has missed. -/
theorem Fired.catchUp {task : Task} {fuel : ℕ} {at_ last : ℤ} {fires : List Fire}
    (h : Fired next now created tickAt task fuel at_ db last fires db') :
    CatchUp (next task.cronExpr) tickAt fuel at_ (fires.map Fire.fireAt) last ∧
      ∀ f ∈ fires, f.name = task.name := by
  induction h with
  | idle hlate => exact ⟨.idle hlate, by simp⟩
  | capped hdue hb => exact ⟨.capped hdue (boundary_ok.mp hb), by simp⟩
  | fire hdue hmax hb hrec ih => exact ⟨.fire hdue (boundary_ok.mp hb) ih.1, by simpa using ih.2⟩

def ofTask (k : String) (fires : List Fire) : List Fire := fires.filter (fun f ↦ f.name = k)

theorem ofTask_eq_self {k : String} {fires : List Fire} (h : ∀ f ∈ fires, f.name = k) :
    ofTask k fires = fires := List.filter_eq_self.mpr fun f hf ↦ decide_eq_true (h f hf)

theorem ofTask_eq_nil {k : String} {fires : List Fire} (h : ∀ f ∈ fires, f.name ≠ k) :
    ofTask k fires = [] := List.filter_eq_nil_iff.mpr fun f hf ↦ by simpa using h f hf

theorem ofTask_append (k : String) (fires fires' : List Fire) :
    ofTask k (fires ++ fires') = ofTask k fires ++ ofTask k fires' := List.filter_append _ _

/-- What the loop over the due tasks does for the task `k`. -/
theorem FiredAll.task {tasks : List Task} {fires : List Fire} (hnodup : (tasks.map Task.name).Nodup)
    (h : FiredAll next now created tickAt tasks db fires db') (k : String) :
    ((∀ task ∈ tasks, task.name ≠ k) ∧ ofTask k fires = [] ∧ db'.tasks.find? k = db.tasks.find? k) ∨
      ∃ task ∈ tasks, task.name = k ∧ ∃ last,
        CatchUp (next task.cronExpr) tickAt schedulerMaxCatchupFires task.nextFireAt
          ((ofTask k fires).map Fire.fireAt) last ∧
        db'.tasks.find? k = (db.tasks.find? k).map (fun t ↦ { t with nextFireAt := last }) := by
  induction h with
  | nil => exact Or.inl ⟨by simp, rfl, rfl⟩
  | @cons task tasks last fires₁ fires₂ db db₁ db' hloop hrest ih =>
    obtain ⟨hcatch, hnames⟩ := hloop.catchUp
    have htasks := hloop.enqueued.1
    rw [List.map_cons, List.nodup_cons] at hnodup
    rw [ofTask_append]
    by_cases hk : task.name = k
    · right
      refine ⟨task, List.mem_cons_self, hk, last, ?_⟩
      rcases ih hnodup.2 with ⟨-, hnil, hfind⟩ | ⟨other, hmem, hother, -⟩
      · rw [hnil, List.append_nil, ofTask_eq_self fun f hf ↦ (hnames f hf).trans hk, hfind,
          setNextFireAt, find?_updateTask, htasks]
        refine ⟨hcatch, Option.map_congr fun t ht ↦ ?_⟩
        rw [if_pos ((Table.find?_eq_some.mp ht).2.trans hk.symm)]
      · exact absurd (List.mem_map.mpr ⟨other, hmem, hother.trans hk.symm⟩) hnodup.1
    · have hnil₁ : ofTask k fires₁ = [] :=
        ofTask_eq_nil fun f hf heq ↦ hk ((hnames f hf).symm.trans heq)
      rw [hnil₁, List.nil_append]
      have hsame : (setNextFireAt task.name last db₁).tasks.find? k = db.tasks.find? k := by
        rw [setNextFireAt, find?_updateTask_of_ne hk, htasks]
      rcases ih hnodup.2 with ⟨hnone, hnil, hfind⟩ | ⟨other, hmem, hother, last', hcatch', hfind⟩
      · exact Or.inl ⟨by simpa [hk] using hnone, hnil, hfind.trans hsame⟩
      · exact Or.inr ⟨other, List.mem_cons_of_mem task hmem, hother, last', hcatch',
          by rw [hfind, hsame]⟩

end Loop

section Steps

/-- The fires of task `name` in a call, each with the time of the tick. -/
def firings (name : String) (e : Event) : List Firing :=
  match e.input.op, e.output with
  | .schedulerTick t, .fires fires => stamped t 0 ((ofTask name fires).map Fire.fireAt)
  | _, _ => []

/-- The expression that a call gives to task `name`, if any. -/
def Op.schedules (name : String) : Op → Option String
  | .schedulerRegister name' _ expr _ _ _ _ => if name' = name then some expr else none
  | .schedulerUpdate name' expr _ _ _ _ => if name' = name then expr else none
  | _ => none

def Task.schedule (task : Task) : String × ℤ := (task.cronExpr, task.nextFireAt)

/-- What a call can do to the schedule of task `name`. -/
inductive TaskStep (next : String → ℤ → Except String ℤ) (name : String) (e : Event) : Prop
  | kept (fires : firings name e = [])
      (same : (e.post.tasks.find? name).map Task.schedule = (e.pre.tasks.find? name).map Task.schedule)
      (late : ∀ t fires task, e.input.op = .schedulerTick t → e.output = .fires fires →
        e.pre.tasks.find? name = some task → task.enabled = true → t < task.nextFireAt)
      (idle : e.input.op.schedules name = none ∨ e.output ≠ .count 1)
  | ticked (t : ℤ) (fires : List Fire) (task : Task) (last : ℤ) (op : e.input.op = .schedulerTick t)
      (out : e.output = .fires fires) (pre : e.pre.tasks.find? name = some task)
      (on : task.enabled = true)
      (replay : CatchUp (next task.cronExpr) t schedulerMaxCatchupFires task.nextFireAt
        ((ofTask name fires).map Fire.fireAt) last)
      (post : e.post.tasks.find? name = some { task with nextFireAt := last })
  | scheduled (expr : String) (task : Task) (op : e.input.op.schedules name = some expr)
      (fires : firings name e = []) (post : e.post.tasks.find? name = some task)
      (cron : task.cronExpr = expr) (start : next expr (e.input.clk 0) = .ok task.nextFireAt)
  | removed (op : e.input.op = .schedulerUnregister name) (fires : firings name e = [])
      (post : e.post.tasks.find? name = none)

variable {next : String → ℤ → Except String ℤ} {db : Db} {c : Call} {name : String}

theorem firings_of_not_tick (h : ∀ t, c.op ≠ .schedulerTick t) :
    firings name (Transition.event (exec next) db c) = [] := by
  unfold firings
  split
  · rename_i t fires hop hout
    exact absurd hop (h t)
  · rfl

theorem TaskStep.of_same (h : ∀ t, c.op ≠ .schedulerTick t)
    (hsame : ((exec next db c).2.tasks.find? name).map Task.schedule =
      (db.tasks.find? name).map Task.schedule)
    (hidle : c.op.schedules name = none ∨ (exec next db c).1 ≠ .count 1) :
    TaskStep next name (Transition.event (exec next) db c) :=
  .kept (firings_of_not_tick h) hsame (fun t _ _ hop ↦ absurd hop (h t)) hidle

theorem tickDue_nodup (tickAt : ℤ) (emit : Emission Task) (db : Db) :
    ((tickDue tickAt emit db).map Task.name).Nodup :=
  ((emit.perm _).map Task.name).nodup_iff.mpr
    (db.tasks.nodup.sublist (List.filter_sublist.map Task.name))

theorem mem_tickDue {tickAt : ℤ} {emit : Emission Task} {db : Db} {task : Task} :
    task ∈ orderBy Task.name (tickDue tickAt emit db) ↔
      task ∈ db.tasks.rows ∧ task.enabled = true ∧ task.nextFireAt ≤ tickAt := by
  rw [mem_orderBy, tickDue, (emit.perm _).mem_iff, List.mem_filter]
  simp only [Bool.and_eq_true, decide_eq_true_eq]

/-- What a tick that succeeds does for the task `name`: nothing, as it is not there, paused or not due
yet, or the replay of its missed boundaries. -/
theorem tick_row {t : ℤ} {fires : List Fire} (hop : c.op = .schedulerTick t)
    (hout : (exec next db c).1 = .fires fires) (name : String) :
    (ofTask name fires = [] ∧ (exec next db c).2.tasks.find? name = db.tasks.find? name ∧
      ∀ task, db.tasks.find? name = some task → task.enabled = true → t < task.nextFireAt) ∨
    ∃ task last, db.tasks.find? name = some task ∧ task.enabled = true ∧ task.nextFireAt ≤ t ∧
      CatchUp (next task.cronExpr) t schedulerMaxCatchupFires task.nextFireAt
        ((ofTask name fires).map Fire.fireAt) last ∧
      (exec next db c).2.tasks.find? name = some { task with nextFireAt := last } := by
  rcases tick_cases next db hop with ⟨err, hexec⟩ | ⟨fires', db', hexec, hfired⟩
  · simp [hexec] at hout
  · rw [hexec] at hout ⊢
    cases hout
    have hnodup := ((orderBy_perm Task.name _).map Task.name).nodup_iff.mpr
      (tickDue_nodup t c.emitTasks db)
    rcases hfired.task hnodup name with
      ⟨hnone, hnil, hfind⟩ | ⟨task, hmem, hname, last, hreplay, hfind⟩
    · refine Or.inl ⟨hnil, hfind, fun task hpre hon ↦ ?_⟩
      obtain ⟨hrow, hname⟩ := Table.find?_eq_some.mp hpre
      by_contra hdue
      exact hnone task (mem_tickDue.mpr ⟨hrow, hon, not_lt.mp hdue⟩) hname
    · obtain ⟨hrow, hon, hdue⟩ := mem_tickDue.mp hmem
      have hpre : db.tasks.find? name = some task := Table.find?_eq_some.mpr ⟨hrow, hname⟩
      exact Or.inr ⟨task, last, hpre, hon, hdue, hreplay, by rw [hfind, hpre]; rfl⟩

theorem tick_failed (next : String → ℤ → Except String ℤ) (db : Db) {t : ℤ}
    (hop : c.op = .schedulerTick t) :
    (∃ err, exec next db c = (.error err, db)) ∨ ∃ fires, (exec next db c).1 = .fires fires := by
  rcases tick_cases next db hop with hfailed | ⟨fires, db', hexec, -⟩
  · exact Or.inl hfailed
  · exact Or.inr ⟨fires, by rw [hexec]⟩

theorem tick_step {t : ℤ} (hop : c.op = .schedulerTick t) (name : String) :
    TaskStep next name (Transition.event (exec next) db c) := by
  rcases tick_failed next db hop with ⟨err, hexec⟩ | ⟨fires, hout⟩
  · refine .kept ?_ ?_ (fun t' fires task _ hout ↦ ?_) (Or.inl ?_)
    · simp [firings, Transition.event, hexec]
    · simp [Transition.event, hexec]
    · simp [Transition.event, hexec] at hout
    · simp [Transition.event, hop, Op.schedules]
  · rcases tick_row hop hout name with
      ⟨hnil, hfind, hlate⟩ | ⟨task, last, hpre, hon, -, hreplay, hfind⟩
    · refine .kept ?_ ?_ (fun t' fires' task hop' _ hpre hon ↦ ?_) (Or.inl ?_)
      · simp [firings, Transition.event, hout, hop, hnil, stamped]
      · simp [Transition.event, hfind]
      · cases hop.symm.trans hop'
        exact hlate task hpre hon
      · simp [Transition.event, hop, Op.schedules]
    · exact .ticked t fires task last hop hout hpre hon hreplay hfind

section Registry

/-- The upsert writes every column but `enabled`, which it keeps from a row that is there. -/
theorem find?_upsertTask (task : Task) (db : Db) :
    (upsertTask task db).tasks.find? task.name = some { task with
      enabled := ((db.tasks.find? task.name).map Task.enabled).getD task.enabled } := by
  unfold upsertTask
  split_ifs with h
  · obtain ⟨old, hold⟩ := Option.isSome_iff_exists.mp (Table.find?_isSome.mpr h)
    have hname : old.name = task.name := (Table.find?_eq_some.mp hold).2
    rw [find?_updateTask, hold, Option.map_some, if_pos hname, ← hname]
    rfl
  · have hnone : db.tasks.find? task.name = none := by
      rw [← Option.not_isSome_iff_eq_none, Table.find?_isSome]
      exact h
    rw [Table.find?_insert, if_pos rfl, hnone]
    rfl

theorem find?_upsertTask_of_ne {name : String} {task : Task} (h : task.name ≠ name) (db : Db) :
    (upsertTask task db).tasks.find? name = db.tasks.find? name := by
  unfold upsertTask
  split_ifs
  · exact find?_updateTask_of_ne h
  · rw [Table.find?_insert, if_neg h]

theorem schedule_updateTask (k : String) {f : Task → Task} (hf : ∀ t, (f t).name = t.name)
    (hsame : ∀ t, (f t).schedule = t.schedule) (db : Db) :
    ((updateTask k f hf db).tasks.find? name).map Task.schedule =
      (db.tasks.find? name).map Task.schedule := by
  rw [find?_updateTask, Option.map_map]
  refine Option.map_congr fun t _ ↦ ?_
  rw [Function.comp_apply]
  split_ifs
  · exact hsame t
  · rfl

theorem find?_applyUpdates (k name : String) (cron : Option (String × ℤ)) (payload : Option String)
    (priority : Option ℤ) (expiresS : Option (Option I64)) (maxAttempts : Option (Option ℤ)) (db : Db) :
    (cron = none ∨ k ≠ name →
      ((applyUpdates k cron payload priority expiresS maxAttempts db).tasks.find? name).map
        Task.schedule = (db.tasks.find? name).map Task.schedule) ∧
      ∀ at_, cron = some at_ → k = name → (db.tasks.find? name).isSome →
        ((applyUpdates k cron payload priority expiresS maxAttempts db).tasks.find? name).map
          Task.schedule = some at_ := by
  have hsame {α : Type} (o : Option α) (f : α → Task → Task) (hf : ∀ a t, (f a t).name = t.name)
      (hf' : ∀ a t, (f a t).schedule = t.schedule) (db : Db) :
      ((o.elim db fun a ↦ updateTask k (f a) (hf a) db).tasks.find? name).map Task.schedule =
        (db.tasks.find? name).map Task.schedule := by
    cases o with
    | none => rfl
    | some a => exact schedule_updateTask k (hf a) (hf' a) db
  have hfields := (hsame maxAttempts (fun m t ↦ { t with maxAttempts := m.getD 3 }) (fun _ _ ↦ rfl)
    (fun _ _ ↦ rfl) _).trans ((hsame expiresS (fun e t ↦ { t with expiresS := e }) (fun _ _ ↦ rfl)
    (fun _ _ ↦ rfl) _).trans ((hsame priority (fun p t ↦ { t with priority := p }) (fun _ _ ↦ rfl)
    (fun _ _ ↦ rfl) _).trans (hsame payload (fun p t ↦ { t with payload := p }) (fun _ _ ↦ rfl)
    (fun _ _ ↦ rfl) db)))
  unfold applyUpdates
  dsimp only
  generalize maxAttempts.elim _ _ = db' at hfields ⊢
  constructor
  · rintro (rfl | hk)
    · exact hfields
    · cases cron with
      | none => exact hfields
      | some at_ => rw [Option.elim_some, find?_updateTask_of_ne hk, hfields]
  · rintro at_ rfl rfl hsome
    obtain ⟨old, hold⟩ := Option.isSome_iff_exists.mp hsome
    rw [hold] at hfields
    obtain ⟨task, htask, -⟩ := Option.map_eq_some_iff.mp hfields
    rw [Option.elim_some, find?_updateTask, htask, Option.map_some,
      if_pos (Table.find?_eq_some.mp htask).2]
    rfl

/-- A registration fails and changes nothing, or it makes an upsert: the tables have no say in it. -/
theorem register_cases (next : String → ℤ → Except String ℤ) {name queue expr payload : String}
    {priority maxAttempts : ℤ} {expiresS : Option I64}
    (hop : c.op = .schedulerRegister name queue expr payload priority expiresS maxAttempts) :
    (∃ e, ∀ db, exec next db c = (.error e, db)) ∨
      ∃ start task, next expr (c.clk 0) = .ok start ∧
        task = ⟨name, queue, expr, payload, priority, expiresS, start, true, maxAttempts⟩ ∧
        ∀ db, exec next db c = (.count 1, upsertTask task db) := by
  cases hmax : checkMaxAttempts "honker_scheduler_register" maxAttempts with
  | error e => exact Or.inl ⟨e, fun db ↦ by simp [exec, hop, schedulerRegister, hmax, Ret.ofCount]⟩
  | ok =>
    cases hb : boundary next expr (c.clk 0) with
    | error e => exact Or.inl ⟨e, fun db ↦ by simp [exec, hop, schedulerRegister, hmax, hb, Ret.ofCount]⟩
    | ok start =>
      refine Or.inr ⟨start, _, boundary_ok.mp hb, rfl, fun db ↦ ?_⟩
      simp [exec, hop, schedulerRegister, hmax, hb, Ret.ofCount]

theorem register_step {queue expr payload : String} {priority maxAttempts : ℤ} {expiresS : Option I64}
    {k : String} (hop : c.op = .schedulerRegister k queue expr payload priority expiresS maxAttempts)
    (name : String) : TaskStep next name (Transition.event (exec next) db c) := by
  have htick : ∀ t, c.op ≠ .schedulerTick t := by simp [hop]
  rcases register_cases next hop with ⟨e, hexec⟩ | ⟨start, task, hstart, htask, hexec⟩
  · exact .of_same htick (by rw [hexec]) (Or.inr (by simp [hexec]))
  · have hname : task.name = k := congrArg Task.name htask
    by_cases hk : k = name
    · have hrow := find?_upsertTask task db
      rw [hname, hk, ← show (exec next db c).2 = upsertTask task db by rw [hexec]] at hrow
      refine .scheduled expr _ ?_ (firings_of_not_tick htick) hrow (congrArg Task.cronExpr htask) ?_
      · simp [Transition.event, hop, Op.schedules, hk]
      · rw [show task.nextFireAt = start from congrArg Task.nextFireAt htask]
        exact hstart
    · refine .of_same htick ?_ (Or.inl (by simp [hop, Op.schedules, hk]))
      rw [hexec, find?_upsertTask_of_ne (hname.symm ▸ hk)]

theorem update_step {k : String} {cronExpr payload : Option String} {priority : Option ℤ}
    {expiresS : Option (Option I64)} {maxAttempts : Option (Option ℤ)}
    (hop : c.op = .schedulerUpdate k cronExpr payload priority expiresS maxAttempts) (name : String) :
    TaskStep next name (Transition.event (exec next) db c) := by
  have htick : ∀ t, c.op ≠ .schedulerTick t := by simp [hop]
  have hother (hk : cronExpr = none ∨ k ≠ name) : c.op.schedules name = none := by
    rcases hk with rfl | hk <;> simp [Op.schedules, *]
  have hexec : exec next db c =
      (.ofCount (schedulerUpdate next k cronExpr payload priority expiresS maxAttempts (c.clk 0) db).1,
        (schedulerUpdate next k cronExpr payload priority expiresS maxAttempts (c.clk 0) db).2) := by
    simp [exec, hop]
  unfold schedulerUpdate at hexec
  split at hexec
  · exact .of_same htick (by rw [hexec]) (Or.inr (by simp [hexec, Ret.ofCount]))
  · split_ifs at hexec with hmissing hnothing
    · exact .of_same htick (by rw [hexec]) (Or.inr (by simp [hexec, Ret.ofCount]))
    · exact .of_same htick (by rw [hexec]) (Or.inr (by simp [hexec, Ret.ofCount]))
    · split at hexec
      · exact .of_same htick (by rw [hexec]) (Or.inr (by simp [hexec, Ret.ofCount]))
      · rename_i cron hcron
        obtain ⟨hkeep, hnew⟩ := find?_applyUpdates k name cron payload priority expiresS maxAttempts db
        by_cases hk : k = name
        · rcases mapM_some hcron with ⟨hexpr, hnone⟩ | ⟨expr, at_, hexpr, hsome, hb⟩
          · exact .of_same htick (by rw [hexec, hkeep (Or.inl hnone)]) (Or.inl (hother (Or.inl hexpr)))
          · obtain ⟨start, hstart, rfl⟩ := map_ok.mp hb
            have hrow : (db.tasks.find? name).isSome := by
              rw [← hk]
              simpa [Option.isSome_iff_ne_none] using hmissing
            obtain ⟨task, htask, hsched⟩ := Option.map_eq_some_iff.mp (hnew _ hsome hk hrow)
            refine .scheduled expr task ?_ (firings_of_not_tick htick) ?_ (congrArg Prod.fst hsched) ?_
            · simp [Transition.event, hop, Op.schedules, hk, hexpr]
            · simp only [Transition.event, hexec]
              exact htask
            · rw [show task.nextFireAt = start from congrArg Prod.snd hsched]
              exact boundary_ok.mp hstart
        · exact .of_same htick (by rw [hexec, hkeep (Or.inr hk)]) (Or.inl (hother (Or.inr hk)))

theorem setEnabled_step (k : String) (value : Bool) (htick : ∀ t, c.op ≠ .schedulerTick t)
    (hidle : ∀ name, c.op.schedules name = none)
    (hexec : (exec next db c).2 = (setEnabled k value db).2) (name : String) :
    TaskStep next name (Transition.event (exec next) db c) := by
  refine .of_same htick ?_ (Or.inl (hidle name))
  rw [hexec, setEnabled, Table.find?_update, Option.map_map]
  refine Option.map_congr fun t _ ↦ ?_
  rw [Function.comp_apply]
  split_ifs <;> rfl

end Registry

/-- The inversion lemma of the scheduler: a call does to a task one of the things `TaskStep` lists. -/
theorem task_step (next : String → ℤ → Except String ℤ) (db : Db) (c : Call) (name : String) :
    TaskStep next name (Transition.event (exec next) db c) := by
  by_cases hreg : c.op.isRegistry = true
  · cases hop : c.op <;> simp only [hop, Op.isRegistry, Bool.false_eq_true] at hreg
    case schedulerRegister => exact register_step hop name
    case schedulerUpdate => exact update_step hop name
    case schedulerUnregister k =>
      have hfind : (exec next db c).2.tasks.find? name =
          (db.tasks.find? name).filter (fun t ↦ !decide (t.name = k)) := by
        simp only [exec, hop, schedulerUnregister]
        exact Table.find?_delete _ _ _
      by_cases hk : k = name
      · refine .removed (by rw [← hk]; exact hop) (firings_of_not_tick (by simp [hop])) ?_
        change (exec next db c).2.tasks.find? name = none
        rw [hfind]
        refine Option.filter_eq_none_iff.mpr fun t ht ↦ ?_
        simp [(Table.find?_eq_some.mp ht).2, hk]
      · refine .of_same (by simp [hop]) ?_ (Or.inl (by simp [hop, Op.schedules]))
        rw [hfind]
        cases hn : db.tasks.find? name with
        | none => rfl
        | some t =>
          have hname := (Table.find?_eq_some.mp hn).2
          have hne : t.name ≠ k := fun heq ↦ hk (heq.symm.trans hname)
          simp [Option.filter, hne]
    case schedulerPause k =>
      exact setEnabled_step k false (by simp [hop]) (by simp [hop, Op.schedules])
        (by simp [exec, hop, schedulerPause]) name
    case schedulerResume k =>
      exact setEnabled_step k true (by simp [hop]) (by simp [hop, Op.schedules])
        (by simp [exec, hop, schedulerResume]) name
  · by_cases htick : ∃ t, c.op = .schedulerTick t
    · obtain ⟨t, hop⟩ := htick
      exact tick_step hop name
    · push Not at htick
      refine .of_same htick ?_ (Or.inl ?_)
      · rw [exec_tasks (by simpa using hreg) htick]
      · cases hop : c.op <;> simp_all [Op.schedules, Op.isRegistry]

end Steps

end Honker
