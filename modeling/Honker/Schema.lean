import Honker.Library.Table
import Honker.Library.Numeric
import Honker.Library.Fallible

namespace Honker

open Relational Numeric

/-- A reading of `unixepoch()`: seconds since the Unix epoch, on a clock set after it. -/
structure Clock where
  secs : ℤ
  pos : 0 < secs
  lt : secs < 2 ^ 63
deriving DecidableEq

instance : Coe Clock ℤ := ⟨Clock.secs⟩

/-- The reading nearest to `x`. -/
def Clock.near (x : ℤ) : Clock := ⟨max 1 (min x (2 ^ 63 - 1)), by omega, by omega⟩

theorem Clock.inRange (t : Clock) : InRange t.secs := by
  have h := t.pos
  have h' := t.lt
  exact ⟨by omega, h'⟩

inductive JobState
  | scheduled
  | pending
  | processing
deriving DecidableEq

/-- A row of `_honker_live`. The columns that hold a sum computed by SQLite are `Number`. -/
structure LiveRow where
  id : ℤ
  queue : String
  payload : String
  state : JobState
  priority : ℤ
  runAt : Number
  workerId : Option String
  claimExpiresAt : Option Number
  attempts : ℤ
  maxAttempts : ℤ
  createdAt : ℤ
  expiresAt : Option ℤ
  claimedAt : Option ℤ
deriving DecidableEq

/-- A row of `_honker_dead`. -/
structure DeadRow where
  id : ℤ
  queue : String
  payload : String
  priority : ℤ
  runAt : Number
  attempts : ℤ
  maxAttempts : ℤ
  lastError : String
  createdAt : ℤ
  diedAt : ℤ
deriving DecidableEq

/-- A row of `_honker_scheduler_tasks`. -/
structure Task where
  name : String
  queue : String
  cronExpr : String
  payload : String
  priority : ℤ
  expiresS : Option I64
  nextFireAt : ℤ
  enabled : Bool
  maxAttempts : ℤ
deriving DecidableEq

abbrev LiveTable := Table LiveRow.id
abbrev DeadTable := Table DeadRow.id
abbrev TaskTable := Table Task.name

/-- The tables of the queue and the scheduler; `seq` is the `AUTOINCREMENT` counter of
`_honker_live`. -/
structure Db where
  live : LiveTable
  dead : DeadTable
  tasks : TaskTable
  seq : ℤ
deriving DecidableEq

/-- A freshly bootstrapped database. -/
def Db.fresh : Db := ⟨.empty, .empty, .empty, 0⟩

inductive SqlError
  | unique (column : String)
  | columnType (index : ℕ) (name : String) (type : String)
  | malformedJson
  | statement (text : String)
  | maxAttempts (func : String) (got : ℤ)
  | moveMismatch (copied deleted : ℕ)
  | schedule (text : String)
deriving DecidableEq

def SqlError.text : SqlError → String
  | .unique column => "UNIQUE constraint failed: " ++ column
  | .columnType index name type =>
    "Invalid column type " ++ type ++ " at index: " ++ toString index ++ ", name: " ++ name
  | .malformedJson => "malformed JSON"
  | .statement text => text
  | .maxAttempts func got =>
    func ++ ": max_attempts must be at least 1, got " ++ toString got
  | .moveMismatch copied deleted =>
    "honker: moving rows to _honker_dead copied " ++ toString copied ++ " but deleted " ++
      toString deleted ++ "; rolled back"
  | .schedule text => text

/-- What `in_savepoint` amounts to for the tables: a body that fails leaves them alone. -/
def atomically {α : Type} (db : Db) : Except SqlError (α × Db) → Except SqlError α × Db
  | .ok (a, db') => (.ok a, db')
  | .error e => (.error e, db)

def checkMaxAttempts (func : String) (maxAttempts : ℤ) : Except SqlError Unit :=
  if maxAttempts < 1 then .error (.maxAttempts func maxAttempts) else .ok ()

end Honker
