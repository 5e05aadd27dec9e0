import Honker.Schema
import Honker.Library.TopN

namespace Honker

open Relational Numeric

def claimHousekeepingLimit : ℤ := 1000

namespace LiveRow

/-- `claim_expires_at < now`, false on NULL. -/
def lapsed (now : ℤ) (r : LiveRow) : Bool := r.claimExpiresAt.any (fun e ↦ e.val < now)

/-- `claim_expires_at >= now`, false on NULL. -/
def leased (now : ℤ) (r : LiveRow) : Bool := r.claimExpiresAt.any (fun e ↦ now ≤ e.val)

/-- `expires_at <= now`, false on NULL. -/
def expired (now : ℤ) (r : LiveRow) : Bool := r.expiresAt.any (fun e ↦ e ≤ now)

/-- `expires_at IS NULL OR expires_at > now`. -/
def unexpired (now : ℤ) (r : LiveRow) : Bool := r.expiresAt.all (fun e ↦ now < e)

def hasAttempts (r : LiveRow) : Bool := r.attempts < r.maxAttempts

def promotable (queue : String) (now : ℤ) (r : LiveRow) : Bool :=
  r.queue = queue && r.state = .scheduled && r.runAt.val ≤ now

def expirable (queue : String) (now : ℤ) (r : LiveRow) : Bool :=
  r.queue = queue && r.expired now &&
    (r.state ∈ [JobState.pending, .scheduled] || (r.state = .processing && r.lapsed now))

def exhausted (queue : String) (now : ℤ) (r : LiveRow) : Bool :=
  r.queue = queue && r.state = .processing && r.lapsed now && !r.hasAttempts

/-- The first arm of the claim: due `pending` rows. -/
def ready (queue : String) (now : ℤ) (r : LiveRow) : Bool :=
  r.queue = queue && r.state = .pending && r.runAt.val ≤ now && r.hasAttempts && r.unexpired now

/-- The second arm of the claim: lapsed leases. -/
def reclaimable (queue : String) (now : ℤ) (r : LiveRow) : Bool :=
  r.queue = queue && r.state = .processing && r.lapsed now && r.hasAttempts && r.unexpired now

def runOrder (r : LiveRow) : ℤ ×ₗ ℤ := toLex (r.runAt.val, r.id)

def expiryOrder (r : LiveRow) : WithBot ℤ ×ₗ ℤ := toLex (r.expiresAt, r.id)

def deadline (r : LiveRow) : WithBot ℤ := r.claimExpiresAt.map Number.val

def deadlineOrder (r : LiveRow) : WithBot ℤ ×ₗ ℤ := toLex (r.deadline, r.id)

/-- `priority DESC, run_at, id`. -/
def claimOrder (r : LiveRow) : ℤ ×ₗ ℤ ×ₗ ℤ := toLex (-r.priority, toLex (r.runAt.val, r.id))

def toDead (error : String) (diedAt : ℤ) (r : LiveRow) : DeadRow where
  id := r.id
  queue := r.queue
  payload := r.payload
  priority := r.priority
  runAt := r.runAt
  attempts := r.attempts
  maxAttempts := r.maxAttempts
  lastError := error
  createdAt := r.createdAt
  diedAt := diedAt

def promoted (r : LiveRow) : LiveRow := { r with state := .pending }

def claimed (worker : String) (timeout : ℤ) (now : ℤ) (r : LiveRow) : LiveRow :=
  { r with
    state := .processing
    workerId := some worker
    claimExpiresAt := some (add now timeout)
    claimedAt := some now
    attempts := r.attempts + 1 }

@[simp]
theorem id_promoted (r : LiveRow) : r.promoted.id = r.id := rfl

@[simp]
theorem id_claimed (worker : String) (timeout now : ℤ) (r : LiveRow) :
    (r.claimed worker timeout now).id = r.id := rfl

end LiveRow

/-- `SELECT id FROM _honker_live WHERE p ORDER BY key LIMIT lim`. -/
def selectIds {κ : Type} [LinearOrder κ] (live : LiveTable) (p : LiveRow → Bool) (key : LiveRow → κ)
    (lim : ℤ) : List ℤ :=
  (limit lim (orderBy key (live.rows.filter p))).map LiveRow.id

def promoteIds (live : LiveTable) (queue : String) (now lim : ℤ) : List ℤ :=
  selectIds live (LiveRow.promotable queue now) LiveRow.runOrder lim

def expireIds (live : LiveTable) (queue : String) (now lim : ℤ) : List ℤ :=
  selectIds live (LiveRow.expirable queue now) LiveRow.expiryOrder lim

def exhaustedIds (live : LiveTable) (queue : String) (now lim : ℤ) : List ℤ :=
  selectIds live (LiveRow.exhausted queue now) LiveRow.deadlineOrder lim

/-- The ids of `CLAIM_SQL`: only the first arm of the union has a `LIMIT` of its own. -/
def claimIds (live : LiveTable) (queue : String) (now n : ℤ) : List ℤ :=
  let due := limit n (orderBy LiveRow.claimOrder (live.rows.filter (LiveRow.ready queue now)))
  let lapsed := live.rows.filter (LiveRow.reclaimable queue now)
  (limit n (orderBy LiveRow.claimOrder (due ++ lapsed))).map LiveRow.id

def promote (queue : String) (now lim : ℤ) (db : Db) : Db :=
  let ids := promoteIds db.live queue now lim
  { db with live := db.live.update (fun r ↦ r.id ∈ ids) LiveRow.promoted LiveRow.id_promoted }

/-- Two set statements that each evaluate `idsSql`: copy to `_honker_dead`, then delete. -/
def moveToDead (idsSql : LiveTable → String → ℤ → ℤ → List ℤ) (queue : String) (now lim : ℤ)
    (error : String) (db : Db) : Except SqlError (ℕ × Db) :=
  let copied := db.live.rows.filter (fun r ↦ r.id ∈ idsSql db.live queue now lim)
  match db.dead.insertAll? (copied.map (LiveRow.toDead error now)) with
  | none => .error (.unique "_honker_dead.id")
  | some dead =>
    if copied.length = 0 then .ok (0, { db with dead := dead })
    else
      let db := { db with dead := dead }
      let deleted := db.live.rows.filter (fun r ↦ r.id ∈ idsSql db.live queue now lim)
      if deleted.length ≠ copied.length then .error (.moveMismatch copied.length deleted.length)
      else
        .ok (copied.length,
          { db with live := db.live.delete (fun r ↦ r.id ∈ idsSql db.live queue now lim) })

/-- The order in which a `RETURNING` clause emits its rows, which SQLite leaves open. -/
structure Emission (α : Type) where
  order : List α → List α
  perm : ∀ l, (order l).Perm l

def Emission.inOrder {α : Type} : Emission α := ⟨id, fun l ↦ List.Perm.refl l⟩

/-- One element of the array `claim_batch` returns. -/
structure ClaimedJob where
  id : ℤ
  queue : String
  payload : String
  workerId : String
  attempts : ℤ
  claimExpiresAt : ℤ
  claimedAt : ℤ
deriving DecidableEq

def ClaimedJob.ofRow (r : LiveRow) : Except SqlError ClaimedJob :=
  match r.workerId, r.claimExpiresAt, r.claimedAt with
  | none, _, _ => .error (.columnType 3 "worker_id" "Null")
  | _, none, _ => .error (.columnType 5 "claim_expires_at" "Null")
  | _, some (.real _), _ => .error (.columnType 5 "claim_expires_at" "Real")
  | _, _, none => .error (.columnType 6 "claimed_at" "Null")
  | some w, some (.int e), some c =>
    .ok { id := r.id, queue := r.queue, payload := r.payload, workerId := w,
          attempts := r.attempts, claimExpiresAt := e, claimedAt := c }

def claimSql (emit : Emission LiveRow) (queue worker : String) (n timeout now : ℤ) (db : Db) :
    Except SqlError (List ClaimedJob × Db) := do
  let ids := claimIds db.live queue now n
  let live := db.live.update (fun r ↦ r.id ∈ ids) (LiveRow.claimed worker timeout now)
    (LiveRow.id_claimed worker timeout now)
  let jobs ← (emit.order (live.rows.filter (fun r ↦ r.id ∈ ids))).mapM ClaimedJob.ofRow
  return (jobs, { db with live := live })

/-- Steps 1 to 3 of a claim. -/
def housekeep (queue : String) (now : ℤ) (db : Db) : Except SqlError Db := do
  let db := promote queue now claimHousekeepingLimit db
  let (_, db) ← moveToDead expireIds queue now claimHousekeepingLimit "expired" db
  let (_, db) ← moveToDead exhaustedIds queue now claimHousekeepingLimit "max attempts exceeded" db
  return db

def claimBatchInner (emit : Emission LiveRow) (queue worker : String) (n timeout now : ℤ) (db : Db) :
    Except SqlError (List ClaimedJob × Db) := do
  let db ← housekeep queue now db
  claimSql emit queue worker n timeout now db

def claimBatch (emit : Emission LiveRow) (queue worker : String) (n : ℤ) (timeout : I64) (now : Clock)
    (db : Db) : Except SqlError (List ClaimedJob) × Db :=
  atomically db (claimBatchInner emit queue worker n timeout now db)

def sweepExpired (queue : String) (now : Clock) (db : Db) : Except SqlError ℕ × Db :=
  atomically db (moveToDead expireIds queue now (-1) "expired" db)

/-- `SELECT … ORDER BY key LIMIT 1`. -/
def firstBy {κ : Type} [LinearOrder κ] (key : LiveRow → κ) (rows : List LiveRow) : Option LiveRow :=
  (orderBy key rows).head?

def decodeInt (index : ℕ) (name : String) : Number → Except SqlError ℤ
  | .int v => .ok v
  | .real _ => .error (.columnType index name "Real")

/-- The names of the columns of the two deadlines, which SQLite takes from the text of their
sub-`SELECT`s. -/
def scheduledColumn : String :=
  "(SELECT run_at FROM _honker_live\n             WHERE queue = ?1 AND state = 'scheduled'\n" ++
    "               AND attempts < max_attempts\n" ++
    "               AND (expires_at IS NULL OR expires_at > ?2)\n             ORDER BY run_at LIMIT 1)"

def leaseColumn : String :=
  "(SELECT claim_expires_at + 1 FROM _honker_live\n" ++
    "             WHERE queue = ?1 AND state = 'processing'\n" ++
    "               AND claim_expires_at >= ?2\n               AND attempts < max_attempts\n" ++
    "               AND (expires_at IS NULL OR expires_at > ?2)\n" ++
    "             ORDER BY claim_expires_at LIMIT 1)"

def queueNextClaimAt (queue : String) (now : Clock) (db : Db) : Except SqlError ℤ := do
  let due := db.live.rows.any (LiveRow.ready queue now)
  let scheduled := firstBy (fun r ↦ r.runAt.val) (db.live.rows.filter (fun r ↦
    r.queue = queue && r.state = .scheduled && r.hasAttempts && r.unexpired now))
  let lease := firstBy LiveRow.deadline (db.live.rows.filter (fun r ↦
    r.queue = queue && r.state = .processing && r.leased now && r.hasAttempts && r.unexpired now))
  let scheduledAt ← scheduled.mapM (fun r ↦ decodeInt 1 scheduledColumn r.runAt)
  let leaseAt ← (lease.bind LiveRow.claimExpiresAt).mapM
    (fun e ↦ match e with
      | .int v => decodeInt 2 leaseColumn (add v 1)
      | .real _ => .error (.columnType 2 leaseColumn "Real"))
  if due then return now
  match scheduledAt, leaseAt with
  | none, none => return 0
  | some a, none => return max a now
  | none, some b => return max b now
  | some a, some b => return max (min a b) now

end Honker
