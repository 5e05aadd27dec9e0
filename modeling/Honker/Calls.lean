import Honker.Scheduler
import Honker.Library.Transition

namespace Honker

open Relational Numeric

/-- The public operations on the queue and the scheduler, with their arguments. -/
inductive Op
  | enqueue (queue payload : String) (runAt : Option ℤ) (delay : Option I64)
      (priority maxAttempts : ℤ) (expires : Option I64)
  | claimBatch (queue worker : String) (n : ℤ) (timeout : I64)
  | ack (job : ℤ) (worker : String)
  | ackFenced (job : ℤ) (worker : String) (attempt : ℤ)
  | ackBatch (elems : Option (List AckElem)) (worker : String)
  | retry (job : ℤ) (worker : String) (delay : I64) (error : String)
  | retryFenced (job : ℤ) (worker : String) (delay : I64) (error : String) (attempt : ℤ)
  | fail (job : ℤ) (worker error : String)
  | failFenced (job : ℤ) (worker error : String) (attempt : ℤ)
  | heartbeat (job : ℤ) (worker : String) (extend : I64)
  | heartbeatFenced (job : ℤ) (worker : String) (extend : I64) (attempt : ℤ)
  | cancel (job : ℤ)
  | cancelInQueue (queue : String) (job : ℤ)
  | sweepExpired (queue : String)
  | schedulerTick (tickAt : ℤ)
  | schedulerRegister (name queue cronExpr payload : String) (priority : ℤ) (expiresS : Option I64)
      (maxAttempts : ℤ)
  | schedulerUpdate (name : String) (cronExpr payload : Option String) (priority : Option ℤ)
      (expiresS : Option (Option I64)) (maxAttempts : Option (Option ℤ))
  | schedulerUnregister (name : String)
  | schedulerPause (name : String)
  | schedulerResume (name : String)

/-- A call with what its surroundings decide: the clock readings it makes, in order, the order of
the rows its `RETURNING` clauses emit, and the statements of a tick that fail. -/
structure Call where
  op : Op
  clk : ℕ → Clock
  emit : Emission LiveRow
  emitTasks : Emission Task
  faults : TickFaults

/-- A call that reads the same time throughout. -/
def Call.at_ (t : Clock) (op : Op) : Call := ⟨op, fun _ ↦ t, .inOrder, .inOrder, .none⟩

inductive Ret
  | error (e : SqlError)
  | count (n : ℤ)
  | jobs (l : List ClaimedJob)
  | fires (l : List Fire)
deriving DecidableEq

def Ret.ofCount : Except SqlError ℤ → Ret
  | .ok n => .count n
  | .error e => .error e

section Exec

variable (next : String → ℤ → Except String ℤ)

/-- One serialised call on the database. -/
def exec (db : Db) (c : Call) : Ret × Db :=
  let counted (r : Except SqlError ℤ × Db) : Ret × Db := (.ofCount r.1, r.2)
  match c.op with
  | .enqueue queue payload runAt delay priority maxAttempts expires =>
    counted (enqueue (c.clk 0) (c.clk 1) queue payload runAt delay priority maxAttempts expires db)
  | .claimBatch queue worker n timeout =>
    match claimBatch c.emit queue worker n timeout (c.clk 0) db with
    | (.ok jobs, db) => (.jobs jobs, db)
    | (.error e, db) => (.error e, db)
  | .ack job worker => counted (ack job worker (c.clk 0) db)
  | .ackFenced job worker attempt => counted (ackFenced job worker attempt db)
  | .ackBatch elems worker => counted (ackBatch elems worker (c.clk 0) db)
  | .retry job worker delay error => counted (retry job worker delay error c.clk db)
  | .retryFenced job worker delay error attempt =>
    counted (retryFenced job worker delay error attempt c.clk db)
  | .fail job worker error => counted (fail job worker error c.clk db)
  | .failFenced job worker error attempt => counted (failFenced job worker error attempt c.clk db)
  | .heartbeat job worker extend => counted (heartbeat job worker extend (c.clk 0) db)
  | .heartbeatFenced job worker extend attempt =>
    counted (heartbeatFenced job worker extend attempt (c.clk 0) db)
  | .cancel job => counted (cancel job db)
  | .cancelInQueue queue job => counted (cancelInQueue queue job db)
  | .sweepExpired queue =>
    match sweepExpired queue (c.clk 0) db with
    | (.ok n, db) => (.count n, db)
    | (.error e, db) => (.error e, db)
  | .schedulerTick tickAt =>
    match schedulerTick next (c.clk 0) (fun id ↦ c.clk (id - db.seq).toNat) tickAt c.faults
        c.emitTasks db with
    | (.ok fires, db) => (.fires fires, db)
    | (.error e, db) => (.error e, db)
  | .schedulerRegister name queue cronExpr payload priority expiresS maxAttempts =>
    counted (schedulerRegister next name queue cronExpr payload priority expiresS maxAttempts
      (c.clk 0) db)
  | .schedulerUpdate name cronExpr payload priority expiresS maxAttempts =>
    counted (schedulerUpdate next name cronExpr payload priority expiresS maxAttempts (c.clk 0) db)
  | .schedulerUnregister name => counted (schedulerUnregister name db)
  | .schedulerPause name => counted (schedulerPause name db)
  | .schedulerResume name => counted (schedulerResume name db)

end Exec

abbrev Event := Transition.Event Db Call Ret

end Honker
