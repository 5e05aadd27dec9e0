import Honker.Claim

namespace Honker

open Relational Numeric

/-- The rowid `AUTOINCREMENT` gives to the next row. -/
def Db.autoId (db : Db) : ℤ := (db.live.rows.map LiveRow.id).foldl max db.seq + 1

theorem le_foldl_max (l : List ℤ) (a : ℤ) : a ≤ l.foldl max a ∧ ∀ x ∈ l, x ≤ l.foldl max a := by
  induction l generalizing a with
  | nil => simp
  | cons b l ih =>
    obtain ⟨ha, hl⟩ := ih (max a b)
    refine ⟨le_trans (le_max_left a b) ha, fun x hx ↦ ?_⟩
    rcases List.mem_cons.mp hx with rfl | hx
    · exact le_trans (le_max_right a x) ha
    · exact hl x hx

theorem Db.autoId_fresh (db : Db) : db.autoId ∉ db.live.rows.map LiveRow.id := by
  intro h
  have hle := (le_foldl_max (db.live.rows.map LiveRow.id) db.seq).2 _ h
  simp only [Db.autoId] at hle
  omega

theorem Db.seq_lt_autoId (db : Db) : db.seq < db.autoId := by
  have hle := (le_foldl_max (db.live.rows.map LiveRow.id) db.seq).1
  simp only [Db.autoId]
  omega

/-- `enqueue_at`. Rust's release-mode `+` wraps; `createdAt` is the reading of the column default. -/
def enqueueAt (now createdAt : Clock) (queue payload : String) (runAt : Option ℤ) (delay : Option I64)
    (priority maxAttempts : ℤ) (expires : Option I64) (db : Db) : ℤ × Db :=
  let runAtVal : ℤ := match delay, runAt with
    | some d, _ => wrap (now + d)
    | none, some r => r
    | none, none => now
  let row : LiveRow := {
    id := db.autoId
    queue := queue
    payload := payload
    state := if runAtVal > now then .scheduled else .pending
    priority := priority
    runAt := .int runAtVal
    workerId := none
    claimExpiresAt := none
    attempts := 0
    maxAttempts := maxAttempts
    createdAt := createdAt
    expiresAt := expires.map (fun e ↦ wrap (now + e))
    claimedAt := none }
  (db.autoId, { db with live := db.live.insert row db.autoId_fresh, seq := db.autoId })

def enqueue (now createdAt : Clock) (queue payload : String) (runAt : Option ℤ) (delay : Option I64)
    (priority maxAttempts : ℤ) (expires : Option I64) (db : Db) : Except SqlError ℤ × Db :=
  match checkMaxAttempts "honker_enqueue" maxAttempts with
  | .error e => (.error e, db)
  | .ok () =>
    let (id, db) := enqueueAt now createdAt queue payload runAt delay priority maxAttempts expires db
    (.ok id, db)

namespace LiveRow

/-- The unfenced guard of `ack` and `fail`: worker and lease, no test of the state. -/
def heldBy (job : ℤ) (worker : String) (now : ℤ) (r : LiveRow) : Bool :=
  r.id = job && r.workerId = some worker && r.leased now

/-- The unfenced guard of `retry` and `heartbeat`. -/
def processingFor (job : ℤ) (worker : String) (now : ℤ) (r : LiveRow) : Bool :=
  r.id = job && r.workerId = some worker && r.state = .processing && r.leased now

/-- The fenced guard: the attempt token in place of the lease. -/
def tokenFor (job : ℤ) (worker : String) (attempt : ℤ) (r : LiveRow) : Bool :=
  r.id = job && r.workerId = some worker && r.attempts = attempt && r.state = .processing

def requeued (delay : ℤ) (now : ℤ) (r : LiveRow) : LiveRow :=
  { r with
    state := if delay > 0 then .scheduled else .pending
    runAt := add now delay
    workerId := none
    claimExpiresAt := none
    claimedAt := none }

def extended (extend : ℤ) (now : ℤ) (r : LiveRow) : LiveRow :=
  { r with claimExpiresAt := some (add now extend) }

@[simp]
theorem id_requeued (delay now : ℤ) (r : LiveRow) : (r.requeued delay now).id = r.id := rfl

@[simp]
theorem id_extended (extend now : ℤ) (r : LiveRow) : (r.extended extend now).id = r.id := rfl

end LiveRow

/-- `DELETE FROM _honker_live WHERE p`, with the rows it removed. -/
def deleteLive (p : LiveRow → Bool) (db : Db) : List LiveRow × Db :=
  (db.live.rows.filter p, { db with live := db.live.delete p })

/-- `UPDATE _honker_live SET f WHERE p`, with the number of rows it touched. -/
def updateLive (p : LiveRow → Bool) (f : LiveRow → LiveRow) (hf : ∀ r, (f r).id = r.id) (db : Db) :
    ℕ × Db :=
  ((db.live.rows.filter p).length, { db with live := db.live.update p f hf })

/-- A `DELETE` whose return value is its row count. -/
def deleteCount (p : LiveRow → Bool) (db : Db) : Except SqlError ℤ × Db :=
  (.ok (deleteLive p db).1.length, (deleteLive p db).2)

def ack (job : ℤ) (worker : String) (now : Clock) (db : Db) : Except SqlError ℤ × Db :=
  deleteCount (LiveRow.heldBy job worker now) db

def ackFenced (job : ℤ) (worker : String) (attempt : ℤ) (db : Db) : Except SqlError ℤ × Db :=
  deleteCount (LiveRow.tokenFor job worker attempt) db

/-- One row of `json_each(?1)`: a plain value, or an array with its first two elements. A value is
the integer it compares equal to, `none` when it equals no integer. -/
inductive AckElem
  | id (value : Option ℤ)
  | pair (id attempt : Option ℤ)
deriving DecidableEq

namespace AckElem

def head : AckElem → Option ℤ
  | .id v => v
  | .pair v _ => v

/-- The condition of `ack_batch` on one row. -/
def selects (elems : List AckElem) (worker : String) (now : ℤ) (r : LiveRow) : Bool :=
  some r.id ∈ elems.map head && r.workerId = some worker &&
    ((r.leased now && AckElem.id (some r.id) ∈ elems) ||
      (r.state = .processing && AckElem.pair (some r.id) (some r.attempts) ∈ elems))

end AckElem

/-- `ack_batch`; `none` stands for a text that is not JSON. -/
def ackBatch (elems : Option (List AckElem)) (worker : String) (now : Clock) (db : Db) :
    Except SqlError ℤ × Db :=
  match elems with
  | none => (.error .malformedJson, db)
  | some elems => deleteCount (AckElem.selects elems worker now) db

/-- `DeadRow::from_row`. -/
def DeadRow.fromRow (r : LiveRow) (error : String) (diedAt : ℤ) : Except SqlError DeadRow :=
  match r.runAt with
  | .int _ => .ok (r.toDead error diedAt)
  | .real _ => .error (.columnType 4 "run_at" "Real")

def insertDead (d : DeadRow) (db : Db) : Except SqlError Db :=
  match db.dead.insertAll? [d] with
  | none => .error (.unique "_honker_dead.id")
  | some dead => .ok { db with dead := dead }

/-- `DELETE … RETURNING` of the rows of `p`, then the insert of the first one into `_honker_dead`. -/
def buryWhere (p : LiveRow → Bool) (error : String) (diedAt : ℤ) (db : Db) :
    Except SqlError (ℤ × Db) :=
  let (rows, db) := deleteLive p db
  match rows.head? with
  | none => .ok (0, db)
  | some r => do
    let d ← DeadRow.fromRow r error diedAt
    let db ← insertDead d db
    return (1, db)

/-- The guards of `RETRY_*_SQL`, unfenced without a token. -/
def retryGuard (job : ℤ) (worker : String) (attempt : Option ℤ) (now : ℤ) : LiveRow → Bool :=
  match attempt with
  | none => LiveRow.processingFor job worker now
  | some a => LiveRow.tokenFor job worker a

/-- `retry_with`. Each statement reads the clock on its own: `clk 0` in the update, `clk 1` in the
branch read, `clk 2` in the delete and `clk 3` for the column default of `died_at`. -/
def retryWith (job : ℤ) (worker : String) (delay : I64) (error : String) (attempt : Option ℤ)
    (clk : ℕ → Clock) (db : Db) : Except SqlError ℤ × Db :=
  let (updated, db') := updateLive
    (fun r ↦ retryGuard job worker attempt (clk 0) r && r.hasAttempts)
    (LiveRow.requeued delay (clk 0)) (LiveRow.id_requeued delay (clk 0)) db
  if 0 < updated then (.ok 1, db')
  else if db'.live.rows.any (fun r ↦ retryGuard job worker attempt (clk 1) r && !r.hasAttempts) then
    atomically db' (buryWhere
      (fun r ↦ retryGuard job worker attempt (clk 2) r && !r.hasAttempts) error (clk 3) db')
  else (.ok 0, db')

def retry (job : ℤ) (worker : String) (delay : I64) (error : String) :=
  retryWith job worker delay error none

def retryFenced (job : ℤ) (worker : String) (delay : I64) (error : String) (attempt : ℤ) :=
  retryWith job worker delay error (some attempt)

/-- The guards of `FAIL_SQL`. -/
def failGuard (job : ℤ) (worker : String) (attempt : Option ℤ) (now : ℤ) : LiveRow → Bool :=
  match attempt with
  | none => LiveRow.heldBy job worker now
  | some a => LiveRow.tokenFor job worker a

def failInner (job : ℤ) (worker error : String) (attempt : Option ℤ) (clk : ℕ → Clock) (db : Db) :
    Except SqlError (ℤ × Db) :=
  buryWhere (failGuard job worker attempt (clk 0)) error (clk 1) db

def fail (job : ℤ) (worker error : String) (clk : ℕ → Clock) (db : Db) : Except SqlError ℤ × Db :=
  atomically db (failInner job worker error none clk db)

def failFenced (job : ℤ) (worker error : String) (attempt : ℤ) (clk : ℕ → Clock) (db : Db) :
    Except SqlError ℤ × Db :=
  atomically db (failInner job worker error (some attempt) clk db)

def cancel (job : ℤ) (db : Db) : Except SqlError ℤ × Db :=
  deleteCount (fun r ↦ r.id = job && r.state ∈ [JobState.pending, .scheduled, .processing]) db

def cancelInQueue (queue : String) (job : ℤ) (db : Db) : Except SqlError ℤ × Db :=
  deleteCount (fun r ↦ r.queue = queue && r.id = job &&
    r.state ∈ [JobState.pending, .scheduled, .processing]) db

def heartbeat (job : ℤ) (worker : String) (extend : I64) (now : Clock) (db : Db) :
    Except SqlError ℤ × Db :=
  let (updated, db) := updateLive (LiveRow.processingFor job worker now)
    (LiveRow.extended extend now) (LiveRow.id_extended extend now) db
  (.ok updated, db)

def heartbeatFenced (job : ℤ) (worker : String) (extend : I64) (attempt : ℤ) (now : Clock) (db : Db) :
    Except SqlError ℤ × Db :=
  let (updated, db) := updateLive (LiveRow.tokenFor job worker attempt)
    (LiveRow.extended extend now) (LiveRow.id_extended extend now) db
  (.ok updated, db)

end Honker
