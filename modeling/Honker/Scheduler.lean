import Honker.Jobs
import Mathlib.Data.String.Basic

namespace Honker

open Relational Numeric

def schedulerMaxCatchupFires : ℕ := 64

/-- One element of the array `scheduler_tick` returns. -/
structure Fire where
  name : String
  queue : String
  fireAt : ℤ
  jobId : ℤ
deriving DecidableEq

/-- The statements of a tick that SQLite fails: the due-task update, the clock read, the insert of
the job with a given id, the `next_fire_at` update of the task with a given name. -/
structure TickFaults where
  due : Bool
  clock : Bool
  enqueue : ℤ → Bool
  advance : String → Bool
  text : String

def TickFaults.none : TickFaults := ⟨false, false, fun _ ↦ false, fun _ ↦ false, ""⟩

def failIf (fault : Bool) (text : String) : Except SqlError Unit :=
  if fault then .error (.statement text) else .ok ()

section Tick

variable (next : String → ℤ → Except String ℤ)

/-- `next_after_unix(expr, from)?` inside a scheduler function. -/
def boundary (expr : String) (u : ℤ) : Except SqlError ℤ := (next expr u).mapError .schedule

variable (now : Clock) (created : ℤ → Clock) (tickAt : ℤ) (faults : TickFaults)

/-- The catch-up loop over one due task, with `fuel` fires left before the cap. -/
def fireLoop (task : Task) : ℕ → ℤ → Db → Except SqlError (ℤ × List Fire × Db)
  | fuel, nextFireAt, db =>
    if nextFireAt ≤ tickAt then
      match fuel with
      | 0 => do
        let skipped ← boundary next task.cronExpr tickAt
        return (skipped, [], db)
      | fuel + 1 => do
        checkMaxAttempts "honker_scheduler_tick" task.maxAttempts
        failIf (faults.enqueue db.autoId) faults.text
        let (id, db) := enqueueAt now (created db.autoId) task.queue task.payload none none
          task.priority task.maxAttempts task.expiresS db
        let later ← boundary next task.cronExpr nextFireAt
        let (last, fires, db) ← fireLoop task fuel later db
        return (last, ⟨task.name, task.queue, nextFireAt, id⟩ :: fires, db)
    else return (nextFireAt, [], db)

/-- `UPDATE _honker_scheduler_tasks SET f WHERE name = name`. -/
def updateTask (name : String) (f : Task → Task) (hf : ∀ t, (f t).name = t.name) (db : Db) : Db :=
  { db with tasks := db.tasks.update (fun t ↦ t.name = name) f hf }

def setNextFireAt (name : String) (at_ : ℤ) (db : Db) : Db :=
  updateTask name (fun t ↦ { t with nextFireAt := at_ }) (fun _ ↦ rfl) db

def fireTasks : List Task → Db → Except SqlError (List Fire × Db)
  | [], db => return ([], db)
  | task :: tasks, db => do
    let (last, fires, db) ← fireLoop next now created tickAt faults task schedulerMaxCatchupFires
      task.nextFireAt db
    failIf (faults.advance task.name) faults.text
    let (rest, db) ← fireTasks tasks (setNextFireAt task.name last db)
    return (fires ++ rest, db)

def tickDue (emit : Emission Task) (db : Db) : List Task :=
  emit.order (db.tasks.rows.filter (fun t ↦ t.enabled && t.nextFireAt ≤ tickAt))

def schedulerTickInner (emit : Emission Task) (db : Db) : Except SqlError (List Fire × Db) := do
  failIf faults.due faults.text
  let tasks := tickDue tickAt emit db
  if tasks.isEmpty then return ([], db)
  let tasks := orderBy Task.name tasks
  failIf faults.clock faults.text
  fireTasks next now created tickAt faults tasks db

def schedulerTick (emit : Emission Task) (db : Db) : Except SqlError (List Fire) × Db :=
  atomically db (schedulerTickInner next now created tickAt faults emit db)

end Tick

section Registry

variable (next : String → ℤ → Except String ℤ)

/-- `INSERT … ON CONFLICT(name) DO UPDATE`: the conflict branch leaves `enabled` alone. -/
def upsertTask (task : Task) (db : Db) : Db :=
  if h : task.name ∈ db.tasks.rows.map Task.name then
    updateTask task.name (fun t ↦ { t with
      queue := task.queue
      cronExpr := task.cronExpr
      payload := task.payload
      priority := task.priority
      expiresS := task.expiresS
      nextFireAt := task.nextFireAt
      maxAttempts := task.maxAttempts }) (fun _ ↦ rfl) db
  else { db with tasks := db.tasks.insert task h }

def schedulerRegister (name queue cronExpr payload : String) (priority : ℤ) (expiresS : Option I64)
    (maxAttempts : ℤ) (now : Clock) (db : Db) : Except SqlError ℤ × Db :=
  match checkMaxAttempts "honker_scheduler_register" maxAttempts with
  | .error e => (.error e, db)
  | .ok () =>
    match boundary next cronExpr now with
    | .error e => (.error e, db)
    | .ok nextFireAt =>
      (.ok 1, upsertTask {
        name := name
        queue := queue
        cronExpr := cronExpr
        payload := payload
        priority := priority
        expiresS := expiresS
        nextFireAt := nextFireAt
        enabled := true
        maxAttempts := maxAttempts } db)

def schedulerUnregister (name : String) (db : Db) : Except SqlError ℤ × Db :=
  (.ok (db.tasks.rows.filter (fun t ↦ t.name = name)).length,
    { db with tasks := db.tasks.delete (fun t ↦ t.name = name) })

/-- Shared by pause and resume: flip `enabled` of a task that has the other value. -/
def setEnabled (name : String) (value : Bool) (db : Db) : Except SqlError ℤ × Db :=
  let hit (t : Task) : Bool := t.name = name && t.enabled = !value
  let tasks := db.tasks.update hit (fun t ↦ { t with enabled := value }) (fun _ ↦ rfl)
  (.ok (db.tasks.rows.filter hit).length, { db with tasks := tasks })

def schedulerPause (name : String) := setEnabled name false

def schedulerResume (name : String) := setEnabled name true

/-- The field updates of `scheduler_update`, in the source's order. -/
def applyUpdates (name : String) (cron : Option (String × ℤ)) (payload : Option String)
    (priority : Option ℤ) (expiresS : Option (Option I64)) (maxAttempts : Option (Option ℤ))
    (db : Db) : Db :=
  let db := payload.elim db (fun p ↦ updateTask name (fun t ↦ { t with payload := p }) (fun _ ↦ rfl) db)
  let db := priority.elim db (fun p ↦ updateTask name (fun t ↦ { t with priority := p }) (fun _ ↦ rfl) db)
  let db := expiresS.elim db (fun e ↦ updateTask name (fun t ↦ { t with expiresS := e }) (fun _ ↦ rfl) db)
  let db := maxAttempts.elim db
    (fun m ↦ updateTask name (fun t ↦ { t with maxAttempts := m.getD 3 }) (fun _ ↦ rfl) db)
  cron.elim db (fun (expr, at_) ↦
    updateTask name (fun t ↦ { t with cronExpr := expr, nextFireAt := at_ }) (fun _ ↦ rfl) db)

def schedulerUpdate (name : String) (cronExpr payload : Option String) (priority : Option ℤ)
    (expiresS : Option (Option I64)) (maxAttempts : Option (Option ℤ)) (now : Clock) (db : Db) :
    Except SqlError ℤ × Db :=
  match maxAttempts.join.mapM (checkMaxAttempts "honker_scheduler_update") with
  | .error e => (.error e, db)
  | .ok _ =>
    if (db.tasks.find? name).isNone then (.ok 0, db)
    else if cronExpr.isNone && payload.isNone && priority.isNone && expiresS.isNone &&
        maxAttempts.isNone then (.ok 0, db)
    else
      match cronExpr.mapM (fun expr ↦ (boundary next expr now).map (expr, ·)) with
      | .error e => (.error e, db)
      | .ok cron => (.ok 1, applyUpdates name cron payload priority expiresS maxAttempts db)

end Registry

end Honker
