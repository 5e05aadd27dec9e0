import Honker.Handout
import Honker.Savepoint
import Honker.Library.Interleaving

namespace Honker

open Relational Transition Transaction Savepoint Interleaving

/-- A statement of `BOOTSTRAP_HONKER_SQL`, each with `IF NOT EXISTS`. -/
inductive Ddl
  | createTable (name : String) (columns : List String)
  | createIndex (name : String)
deriving DecidableEq

def bootstrapHonkerSql : List Ddl :=
  [.createTable "_honker_live" ["id", "queue", "payload", "state", "priority", "run_at", "worker_id",
      "claim_expires_at", "attempts", "max_attempts", "created_at", "expires_at", "claimed_at"],
    .createIndex "_honker_live_ready", .createIndex "_honker_live_scheduled",
    .createIndex "_honker_live_expiry", .createIndex "_honker_live_processing_deadline",
    .createTable "_honker_dead" ["id", "queue", "payload", "priority", "run_at", "attempts",
      "max_attempts", "last_error", "created_at", "died_at"],
    .createTable "_honker_locks" ["name", "owner", "expires_at"],
    .createTable "_honker_rate_limits" ["name", "window_start", "count"],
    .createTable "_honker_scheduler_tasks" ["name", "queue", "cron_expr", "payload", "priority",
      "expires_s", "next_fire_at", "enabled", "max_attempts"],
    .createTable "_honker_results" ["job_id", "value", "created_at", "expires_at"],
    .createTable "_honker_stream" ["offset", "topic", "key", "payload", "created_at"],
    .createIndex "_honker_stream_topic",
    .createTable "_honker_stream_consumers" ["name", "topic", "offset"]]

structure Column where
  table : String
  name : String
deriving DecidableEq

/-- The columns that a table of an older build may lack, in the order of the checks. -/
def addedColumns : List Column :=
  [⟨"_honker_scheduler_tasks", "enabled"⟩, ⟨"_honker_scheduler_tasks", "max_attempts"⟩,
    ⟨"_honker_live", "claimed_at"⟩]

def legacyClaimIndex : String := "_honker_live_claim"

/-- The tables of the queue with what `sqlite_master` knows. In a column that its table lacks a row has
the value that `ALTER TABLE` gives it. -/
structure SchemaDb where
  db : Db
  tables : List String
  columns : List Column
  indexes : List String

def Ddl.apply (s : SchemaDb) : Ddl → SchemaDb
  | .createTable name columns =>
    if name ∈ s.tables then s
    else { s with
      tables := s.tables ++ [name], columns := s.columns ++ columns.map (Column.mk name) }
  | .createIndex name =>
    if name ∈ s.indexes then s else { s with indexes := s.indexes ++ [name] }

def indexExists (s : SchemaDb) (name : String) : Bool := name ∈ s.indexes

/-- The outcomes of a run of `migrate_claim_v2`'s savepoint: the clock readings of its `UPDATE` and of
the default of `died_at`, and how its statements end. -/
structure Migration where
  now : Clock
  diedAt : Clock
  outcomes : ℕ → Outcome
  pattern : Pattern

section Migrate

def LiveRow.isFuture (now : ℤ) (r : LiveRow) : Bool := r.state = .pending && now < r.runAt.val

def LiveRow.scheduled (r : LiveRow) : LiveRow := { r with state := .scheduled }

def LiveRow.spent (r : LiveRow) : Bool :=
  r.state ∈ [JobState.pending, .scheduled] && r.maxAttempts ≤ r.attempts

def scheduleFuture (now : ℤ) (db : Db) : Db :=
  { db with live := db.live.update (LiveRow.isFuture now) LiveRow.scheduled fun _ ↦ rfl }

/-- The rows that `INSERT INTO _honker_dead ... SELECT` makes. -/
def spentCopies (diedAt : ℤ) (db : Db) : List DeadRow :=
  (db.live.rows.filter LiveRow.spent).map (LiveRow.toDead "max attempts exceeded" diedAt)

def copySpent (diedAt : ℤ) (db : Db) : Db :=
  match db.dead.insertAll? (spentCopies diedAt db) with
  | some dead => { db with dead := dead }
  | none => db

def deleteSpent (db : Db) : Db := { db with live := db.live.delete LiveRow.spent }

/-- The `INSERT` fails by itself where `_honker_dead` has the id of a row it copies. -/
def copyOutcome (m : Migration) (db : Db) : Outcome :=
  match db.dead.insertAll? (spentCopies m.diedAt (scheduleFuture m.now db)) with
  | some _ => m.outcomes 3
  | none => .fail ⟨false, SqlError.text (.unique "_honker_dead.id")⟩

def onDb (f : Db → Db) (s : SchemaDb) : SchemaDb := { s with db := f s.db }

def dropIndex (name : String) (s : SchemaDb) : SchemaDb :=
  { s with indexes := s.indexes.filter fun i ↦ i ≠ name }

/-- The body of the savepoint. Its first statement writes nothing and takes the write lock, so that the
marker is read in the newest state `s`. -/
def migrateBody (s : SchemaDb) (m : Migration) : Body SchemaDb Unit where
  stmts := [(id, m.outcomes 0), (id, m.outcomes 1)] ++
    if indexExists s legacyClaimIndex then
      [(onDb (scheduleFuture m.now), m.outcomes 2), (onDb (copySpent m.diedAt), copyOutcome m s.db),
        (onDb deleteSpent, m.outcomes 4), (dropIndex legacyClaimIndex, m.outcomes 5),
        (dropIndex "_honker_live_pending_deadline", m.outcomes 6)]
    else []
  ending := .value ()
  panicsOnFailure := false

/-- The savepoint on a connection in autocommit. -/
def migrateClaimV2 (s : SchemaDb) (m : Migration) : Result Unit × Conn SchemaDb :=
  let out := inSavepoint (.idle s) "honker_bootstrap" (migrateBody s m) m.pattern
  (out.1, out.2.1)

end Migrate

/-- Where a connection stands in `bootstrap_honker_schema`. It is `stuck` when its savepoint could not
be undone. -/
inductive BootPc
  | idle
  | creating (rest : List Ddl)
  | checking (rest : List Column)
  | altering (column : Column) (rest : List Column)
  | probing
  | migrating
  | returned (ok : Bool)
  | stuck
deriving DecidableEq

/-- Where `migrate_claim_v2` leaves its connection. -/
def pcAfter : Result Unit × Conn SchemaDb → BootPc
  | (.ok (), _) => .returned true
  | (_, c) => if c.autocommit then .returned false else .stuck

structure BootSys (ι : Type) where
  schema : SchemaDb
  pc : ι → BootPc

def BootSys.new (ι : Type) (schema : SchemaDb) : BootSys ι := ⟨schema, fun _ ↦ .idle⟩

/-- The next statement of a connection. `ok` tells whether it succeeds. Of a column check both the
`prepare` and the query may fail. -/
inductive BootAction (ι : Type)
  | call (i : ι)
  | create (i : ι) (ok : Bool)
  | check (i : ι) (prepared readable : Bool)
  | alter (i : ι) (ok : Bool)
  | probe (i : ι) (ok : Bool)
  | migrate (i : ι) (m : Migration)

section Boot

variable {ι : Type} [DecidableEq ι]

def BootSys.goto (s : BootSys ι) (i : ι) (pc : BootPc) : BootSys ι :=
  { s with pc := Function.update s.pc i pc }

theorem BootSys.goto_pc (s : BootSys ι) (i j : ι) (pc : BootPc) :
    (s.goto i pc).pc j = if j = i then pc else s.pc j :=
  Function.update_apply ..

def bootStep (s : BootSys ι) : BootAction ι → BootSys ι
  | .call i =>
    match s.pc i with
    | .idle | .returned _ => s.goto i (.creating bootstrapHonkerSql)
    | _ => s
  | .create i ok =>
    match s.pc i with
    | .creating (d :: rest) =>
      if ok then { s with schema := d.apply s.schema }.goto i (.creating rest)
      else s.goto i (.returned false)
    | .creating [] => s.goto i (.checking addedColumns)
    | _ => s
  | .check i prepared readable =>
    match s.pc i with
    | .checking (column :: rest) =>
      if prepared then
        -- A query that fails counts as a missing column.
        if readable ∧ column ∈ s.schema.columns then s.goto i (.checking rest)
        else s.goto i (.altering column rest)
      else s.goto i (.returned false)
    | .checking [] => s.goto i .probing
    | _ => s
  | .alter i ok =>
    match s.pc i with
    | .altering column rest =>
      -- The error on a duplicate column is swallowed.
      if ¬ ok then s.goto i (.returned false)
      else if column ∈ s.schema.columns then s.goto i (.checking rest)
      else { s with schema := { s.schema with columns := s.schema.columns ++ [column] } }.goto i
        (.checking rest)
    | _ => s
  | .probe i ok =>
    match s.pc i with
    | .probing =>
      if ¬ ok then s.goto i (.returned false)
      else if indexExists s.schema legacyClaimIndex then s.goto i .migrating
      else s.goto i (.returned true)
    | _ => s
  | .migrate i m =>
    match s.pc i with
    | .migrating =>
      let out := migrateClaimV2 s.schema m
      { s with schema := out.2.committed }.goto i (pcAfter out)
    | _ => s

end Boot

section Rows

/-- What the migration does to job `j`. -/
inductive Carried (now diedAt : ℤ) (old new : Db) (j : ℤ) : Prop
  | absent (pre : old.live.find? j = none) (post : new.live.find? j = none)
      (dead : new.dead.find? j = old.dead.find? j)
  | kept (r : LiveRow) (pre : old.live.find? j = some r) (post : new.live.find? j = some r)
      (dead : new.dead.find? j = none)
      (stays : r.state = .processing ∨ (r.runAt.val ≤ now ∧ r.hasAttempts = true))
  | scheduled (r : LiveRow) (pre : old.live.find? j = some r)
      (post : new.live.find? j = some r.scheduled) (dead : new.dead.find? j = none)
      (pending : r.state = .pending) (future : now < r.runAt.val) (attempts : r.hasAttempts = true)
  | buried (r : LiveRow) (pre : old.live.find? j = some r) (post : new.live.find? j = none)
      (dead : new.dead.find? j = some (r.toDead "max attempts exceeded" diedAt))
      (pending : r.state = .pending) (spent : r.hasAttempts = false)

/-- `new` is what the migration makes of `old`, with its clock at `now`. -/
structure Upgraded (now diedAt : ℤ) (old new : Db) : Prop where
  jobs : ∀ j, Carried now diedAt old new j
  apart : new.Apart
  processing : ∀ r, r.state = .processing → (r ∈ new.live.rows ↔ r ∈ old.live.rows)
  due : ∀ r ∈ new.live.rows, r.state = .pending → r.runAt.val ≤ now
  budget : ∀ r ∈ new.live.rows, r.state ≠ .processing → r.attempts < r.maxAttempts

variable {now diedAt : ℤ} {old new : Db}

theorem find?_scheduleFuture (now : ℤ) (db : Db) (j : ℤ) :
    (scheduleFuture now db).live.find? j =
      (db.live.find? j).map fun r ↦ if r.isFuture now then r.scheduled else r :=
  db.live.find?_update (LiveRow.isFuture now) LiveRow.scheduled (fun _ ↦ rfl) j

theorem scheduleFuture_apart (hdb : old.Apart) (now : ℤ) : (scheduleFuture now old).Apart := by
  intro j r hr
  rw [find?_scheduleFuture, Option.map_eq_some_iff] at hr
  obtain ⟨s, hs, -⟩ := hr
  exact hdb j s hs

theorem spent_eq {r : LiveRow} (hr : r.state ≠ .processing) : r.spent = !r.hasAttempts := by
  rw [Bool.eq_iff_iff]
  cases hst : r.state with
  | processing => exact absurd hst hr
  | pending => simp [LiveRow.spent, LiveRow.hasAttempts, hst]
  | scheduled => simp [LiveRow.spent, LiveRow.hasAttempts, hst]

theorem Moved.row {p : LiveRow → Bool} {error : String} (h : Moved p error diedAt old new)
    (hdb : old.Apart) {j : ℤ} {r : LiveRow} (hr : old.live.find? j = some r) :
    (p r = true ∧ new.live.find? j = none ∧ new.dead.find? j = some (r.toDead error diedAt)) ∨
    (p r = false ∧ new.live.find? j = some r ∧ new.dead.find? j = none) := by
  cases hp : p r with
  | true =>
    obtain ⟨hlive, -, hdead⟩ := h.gone hr hp
    exact Or.inl ⟨rfl, hlive, hdead⟩
  | false =>
    obtain ⟨hlive, hdead⟩ := h.kept (j := j) fun s hs ↦ by
      cases hr.symm.trans hs
      exact hp
    exact Or.inr ⟨rfl, hlive.trans hr, hdead.trans (hdb j r hr)⟩

theorem Moved.carried (hdb : old.Apart) (hrows : ∀ r ∈ old.live.rows, r.state ≠ .scheduled)
    (h : Moved LiveRow.spent "max attempts exceeded" diedAt (scheduleFuture now old) new) (j : ℤ) :
    Carried now diedAt old new j := by
  have hfind := find?_scheduleFuture now old j
  have hapart := scheduleFuture_apart hdb now
  cases hj : old.live.find? j with
  | none =>
    rw [hj, Option.map_none] at hfind
    obtain ⟨hlive, hdead⟩ := h.kept (j := j) fun r hr ↦ by simp [hfind] at hr
    exact .absent hj (hlive.trans hfind) hdead
  | some r =>
    rw [hj, Option.map_some] at hfind
    have hstate := hrows r (Table.find?_eq_some.mp hj).1
    by_cases hfuture : r.isFuture now = true
    · rw [if_pos hfuture] at hfind
      simp only [LiveRow.isFuture, Bool.and_eq_true, decide_eq_true_eq] at hfuture
      have hspent : r.scheduled.spent = !r.hasAttempts :=
        spent_eq (r := r.scheduled) (by simp [LiveRow.scheduled])
      rcases h.row hapart hfind with ⟨hp, hlive, hdead⟩ | ⟨hp, hlive, hdead⟩
      · exact .buried r hj hlive hdead hfuture.1 (by simpa [hspent] using hp)
      · exact .scheduled r hj hlive hdead hfuture.1 hfuture.2 (by simpa [hspent] using hp)
    · rw [if_neg hfuture] at hfind
      simp only [LiveRow.isFuture, Bool.and_eq_true, decide_eq_true_eq, not_and, not_lt] at hfuture
      cases hst : r.state with
      | scheduled => exact absurd hst hstate
      | processing =>
        rcases h.row hapart hfind with ⟨hp, -⟩ | ⟨-, hlive, hdead⟩
        · simp [LiveRow.spent, hst] at hp
        · exact .kept r hj hlive hdead (Or.inl hst)
      | pending =>
        have hspent : r.spent = !r.hasAttempts := spent_eq (by simp [hst])
        rcases h.row hapart hfind with ⟨hp, hlive, hdead⟩ | ⟨hp, hlive, hdead⟩
        · exact .buried r hj hlive hdead hst (by simpa [hspent] using hp)
        · exact .kept r hj hlive hdead (Or.inr ⟨hfuture hst, by simpa [hspent] using hp⟩)

theorem Carried.origin {j : ℤ} {r : LiveRow} (h : Carried now diedAt old new j)
    (hr : new.live.find? j = some r) :
    (old.live.find? j = some r ∧ (r.state = .processing ∨ (r.runAt.val ≤ now ∧ r.hasAttempts = true))) ∨
    ∃ s, old.live.find? j = some s ∧ r = s.scheduled ∧ s.hasAttempts = true := by
  cases h with
  | absent pre post => simp [hr] at post
  | kept s pre post dead stays =>
    cases hr.symm.trans post
    exact Or.inl ⟨pre, stays⟩
  | scheduled s pre post dead pending future attempts =>
    cases hr.symm.trans post
    exact Or.inr ⟨s, pre, rfl, attempts⟩
  | buried s pre post => simp [hr] at post

theorem Moved.upgraded (hdb : old.Apart) (hrows : ∀ r ∈ old.live.rows, r.state ≠ .scheduled)
    (h : Moved LiveRow.spent "max attempts exceeded" diedAt (scheduleFuture now old) new) :
    Upgraded now diedAt old new := by
  have hjobs := h.carried hdb hrows
  have horigin {r : LiveRow} (hr : r ∈ new.live.rows) := (hjobs r.id).origin (Table.find?_of_mem hr)
  refine ⟨hjobs, h.apart (scheduleFuture_apart hdb now), ?_, ?_, ?_⟩
  · intro r hprocessing
    constructor
    · intro hr
      rcases horigin hr with ⟨pre, -⟩ | ⟨s, -, rfl, -⟩
      · exact (Table.find?_eq_some.mp pre).1
      · simp [LiveRow.scheduled] at hprocessing
    · intro hr
      have hfind := Table.find?_of_mem hr
      cases hjobs r.id with
      | absent pre => simp [hfind] at pre
      | kept s pre post =>
        cases hfind.symm.trans pre
        exact (Table.find?_eq_some.mp post).1
      | scheduled s pre post dead pending =>
        cases hfind.symm.trans pre
        simp [hprocessing] at pending
      | buried s pre post dead pending =>
        cases hfind.symm.trans pre
        simp [hprocessing] at pending
  · intro r hr hpending
    rcases horigin hr with ⟨-, hstays⟩ | ⟨s, -, rfl, -⟩
    · simp only [hpending, reduceCtorEq, false_or] at hstays
      exact hstays.1
    · simp [LiveRow.scheduled] at hpending
  · intro r hr hwaiting
    rcases horigin hr with ⟨-, hstays⟩ | ⟨s, -, rfl, hattempts⟩
    · simpa [LiveRow.hasAttempts] using (hstays.resolve_left hwaiting).2
    · simpa [LiveRow.hasAttempts, LiveRow.scheduled] using hattempts

end Rows

section Claims

/-- A legacy row that claims on `queue` at `t` are to hand out. -/
structure LiveRow.LegacyDue (queue : String) (t : ℤ) (r : LiveRow) : Prop where
  queue : r.queue = queue
  due : (r.state = .pending ∧ r.runAt.val ≤ t) ∨ (r.state = .processing ∧ r.lapsed t = true)
  attempts : r.attempts < r.maxAttempts
  unexpired : r.unexpired t = true

/-- Claims on `new` hand out the rows of `old` that were due, and no others. -/
structure HandsOutLegacy (old new : Db) : Prop where
  only : ∀ (next : String → ℤ → Except String ℤ) (queue : String) (t : Clock) (claims : List Call),
    (∀ c ∈ claims, ClaimAt queue t c) → ∀ j, claimsOf (trace (exec next) new claims) j ≠ [] →
    ∃ r ∈ old.live.rows, r.id = j ∧ r.LegacyDue queue t
  every : ∀ (next : String → ℤ → Except String ℤ) (queue : String) (t : Clock) (claims : List Call),
    (∀ c ∈ claims, AsksAt queue t c) → new.toGo queue t < claims.length →
    ∀ r ∈ old.live.rows, r.LegacyDue queue t → claimsOf (trace (exec next) new claims) r.id ≠ []

variable {queue : String} {t : ℤ} {r : LiveRow} {now diedAt : ℤ} {old new : Db}

theorem eligible_iff (hr : r.state ≠ .scheduled) : r.Eligible queue t ↔ r.LegacyDue queue t := by
  have hdue : r.dueOrLapsed t = true ↔
      (r.state = .pending ∧ r.runAt.val ≤ t) ∨ (r.state = .processing ∧ r.lapsed t = true) := by
    cases hst : r.state with
    | scheduled => exact absurd hst hr
    | pending => simp [LiveRow.dueOrLapsed, hst]
    | processing => simp [LiveRow.dueOrLapsed, hst]
  constructor
  · rintro ⟨hq, hd, ha, hu⟩
    exact ⟨hq, hdue.mp hd, by simpa [LiveRow.hasAttempts] using ha, hu⟩
  · rintro ⟨hq, hd, ha, hu⟩
    exact ⟨hq, hdue.mpr hd, by simpa [LiveRow.hasAttempts] using ha, hu⟩

theorem eligible_scheduled (hr : r.state = .pending) :
    r.scheduled.Eligible queue t ↔ r.LegacyDue queue t := by
  rw [← eligible_iff (by simp [hr])]
  have hdue : r.scheduled.dueOrLapsed t = r.dueOrLapsed t := by
    unfold LiveRow.dueOrLapsed
    rw [hr]
    rfl
  unfold LiveRow.Eligible
  rw [hdue]
  rfl

theorem Upgraded.handsOutLegacy (h : Upgraded now diedAt old new)
    (hrows : ∀ r ∈ old.live.rows, r.state ≠ .scheduled) : HandsOutLegacy old new where
  only next queue t claims hclaims j hj := by
    obtain ⟨r, hr, rfl, heligible⟩ := (handed_out next h.apart hclaims j).1 hj
    have hfind := Table.find?_of_mem hr
    cases h.jobs r.id with
    | absent pre post => simp [hfind] at post
    | kept s pre post =>
      cases hfind.symm.trans post
      have hold := (Table.find?_eq_some.mp pre).1
      exact ⟨r, hold, rfl, (eligible_iff (hrows r hold)).mp heligible⟩
    | scheduled s pre post dead pending =>
      cases hfind.symm.trans post
      have hold := (Table.find?_eq_some.mp pre).1
      exact ⟨s, hold, rfl, (eligible_scheduled pending).mp heligible⟩
    | buried s pre post => simp [hfind] at post
  every next queue t claims hclaims hlen r hr hdue := by
    have hfind := Table.find?_of_mem hr
    have hall := (handed_out next h.apart (fun c hc ↦ (hclaims c hc).claimAt) r.id).2 hclaims hlen
    cases h.jobs r.id with
    | absent pre => simp [hfind] at pre
    | kept s pre post =>
      cases hfind.symm.trans pre
      exact hall r (Table.find?_eq_some.mp post).1 rfl ((eligible_iff (hrows r hr)).mpr hdue)
    | scheduled s pre post dead pending =>
      cases hfind.symm.trans pre
      exact hall r.scheduled (Table.find?_eq_some.mp post).1 rfl
        ((eligible_scheduled pending).mpr hdue)
    | buried s pre post dead pending spent =>
      cases hfind.symm.trans pre
      simp [LiveRow.hasAttempts, hdue.attempts] at spent

end Claims

section Statements

variable {s : SchemaDb} {m : Migration}

/-- Every statement of the savepoint succeeds. -/
def Migration.Succeeds (s : SchemaDb) (m : Migration) : Prop :=
  m.pattern.savepoint = .ok ∧ (∀ q ∈ (migrateBody s m).stmts, q.2 = .ok) ∧ m.pattern.release = .ok

theorem migrateClaimV2_ok_iff (s : SchemaDb) (m : Migration) :
    (migrateClaimV2 s m).1 = .ok () ↔ m.Succeeds s :=
  inSavepoint_ok_iff (.idle s) "honker_bootstrap" rfl m.pattern

theorem committed_of_failed (h : ¬ m.Succeeds s) : (migrateClaimV2 s m).2.committed = s := by
  have hatomic := atomic_inSavepoint (.idle s) "honker_bootstrap" (migrateBody s m) m.pattern
  refine hatomic.notCommitted rfl fun _ hok ↦ h ?_
  exact (migrateClaimV2_ok_iff s m).mp hok

theorem committed_of_succeeds (h : m.Succeeds s) :
    (migrateClaimV2 s m).2.committed = effects (migrateBody s m).stmts s := by
  have hatomic := atomic_inSavepoint (.idle s) "honker_bootstrap" (migrateBody s m) m.pattern
  obtain ⟨-, -, -, -, hkeep⟩ := hatomic.ok () ((migrateClaimV2_ok_iff s m).mpr h)
  exact congrArg Conn.committed hkeep

/-- Under the lock a call that lost the race finds no marker. -/
theorem committed_of_unmarked (hs : legacyClaimIndex ∉ s.indexes) :
    (migrateClaimV2 s m).2.committed = s := by
  by_cases h : m.Succeeds s
  · rw [committed_of_succeeds h]
    simp [migrateBody, indexExists, hs, effects]
  · exact committed_of_failed h

/-- With the marker in place the changes of a migration that succeeds are made together. -/
theorem committed_of_marked (h : m.Succeeds s) (hs : legacyClaimIndex ∈ s.indexes) :
    Moved LiveRow.spent "max attempts exceeded" m.diedAt (scheduleFuture m.now s.db)
      (migrateClaimV2 s m).2.committed.db ∧
    legacyClaimIndex ∉ (migrateClaimV2 s m).2.committed.indexes := by
  have hcopy : copyOutcome m s.db = .ok :=
    h.2.1 (onDb (copySpent m.diedAt), copyOutcome m s.db) (by simp [migrateBody, indexExists, hs])
  rw [committed_of_succeeds h]
  simp only [migrateBody, indexExists, hs, decide_true, if_true, effects, List.cons_append,
    List.nil_append, List.foldl_cons, List.foldl_nil, id]
  refine ⟨?_, by simp [dropIndex]⟩
  cases hins : (scheduleFuture m.now s.db).dead.insertAll?
      (spentCopies m.diedAt (scheduleFuture m.now s.db)) with
  | none =>
    have hfail : copyOutcome m s.db =
        .fail ⟨false, SqlError.text (.unique "_honker_dead.id")⟩ := by
      unfold copyOutcome
      rw [show s.db.dead = (scheduleFuture m.now s.db).dead from rfl, hins]
    rw [hfail] at hcopy
    cases hcopy
  | some dead =>
    have hdb : copySpent m.diedAt (scheduleFuture m.now s.db) =
        { scheduleFuture m.now s.db with dead := dead } := by
      unfold copySpent
      rw [hins]
    simp only [dropIndex, onDb, hdb, deleteSpent]
    exact ⟨rfl, hins, rfl, rfl⟩

/-- No id being in both tables, the copy into `_honker_dead` fails only with the database. -/
theorem copyOutcome_eq (hdb : s.db.Apart) (m : Migration) : copyOutcome m s.db = m.outcomes 3 := by
  obtain ⟨dead, hins⟩ := insertAll?_copies (scheduleFuture_apart hdb m.now) LiveRow.spent
    "max attempts exceeded" m.diedAt
  have hins : s.db.dead.insertAll? (spentCopies m.diedAt (scheduleFuture m.now s.db)) = some dead :=
    hins
  rw [copyOutcome, hins]

end Statements

section Runs

variable {ι : Type} [DecidableEq ι] {s : BootSys ι} {legacy : SchemaDb}

/-- What the statement of a connection at `pc` may do to the schema, and where it leads. -/
inductive BootMove (schema : SchemaDb) (pc : BootPc) (i : ι) :
    BootAction ι → SchemaDb → BootPc → Prop
  | calls : BootMove schema pc i (.call i) schema (.creating bootstrapHonkerSql)
  | creates (d : Ddl) (rest : List Ddl) (a : BootAction ι) (here : pc = .creating (d :: rest)) :
      BootMove schema pc i a (d.apply schema) (.creating rest)
  | passes (a : BootAction ι) (schema' : SchemaDb) (pc' : BootPc) (db : schema'.db = schema.db)
      (indexes : schema'.indexes = schema.indexes) (open_ : pc' ≠ .returned true)
      (created : ∀ rest, pc' ≠ .creating rest) : BootMove schema pc i a schema' pc'
  | skips (a : BootAction ι) (marker : legacyClaimIndex ∉ schema.indexes) :
      BootMove schema pc i a schema (.returned true)
  | migrates (m : Migration) :
      BootMove schema pc i (.migrate i m) (migrateClaimV2 schema m).2.committed
        (pcAfter (migrateClaimV2 schema m))

theorem pcAfter_migrateClaimV2 (schema : SchemaDb) (m : Migration) :
    pcAfter (migrateClaimV2 schema m) = .returned true ↔ m.Succeeds schema := by
  rw [← migrateClaimV2_ok_iff schema m]
  obtain ⟨result, c⟩ := migrateClaimV2 schema m
  cases result with
  | ok u => exact iff_of_true rfl rfl
  | err text => simp [pcAfter, apply_ite (· = BootPc.returned true)]
  | unwound printed => simp [pcAfter, apply_ite (· = BootPc.returned true)]

theorem pcAfter_ne_creating (out : Result Unit × Conn SchemaDb) (rest : List Ddl) :
    pcAfter out ≠ .creating rest := by
  unfold pcAfter
  split
  · nofun
  · split_ifs <;> nofun

theorem bootStep_cases (s : BootSys ι) (a : BootAction ι) :
    bootStep s a = s ∨ ∃ i schema pc, bootStep s a = { s with schema := schema }.goto i pc ∧
      BootMove s.schema (s.pc i) i a schema pc := by
  cases a with
  | call i =>
    simp only [bootStep]
    split
    · exact Or.inr ⟨i, _, _, rfl, .calls⟩
    · exact Or.inr ⟨i, _, _, rfl, .calls⟩
    · exact Or.inl rfl
  | create i ok =>
    simp only [bootStep]
    split
    · split_ifs
      · exact Or.inr ⟨i, _, _, rfl, .creates _ _ _ ‹_›⟩
      · exact Or.inr ⟨i, _, _, rfl, .passes _ _ _ rfl rfl nofun nofun⟩
    · exact Or.inr ⟨i, _, _, rfl, .passes _ _ _ rfl rfl nofun nofun⟩
    · exact Or.inl rfl
  | check i prepared readable =>
    simp only [bootStep]
    split
    · split_ifs <;> exact Or.inr ⟨i, _, _, rfl, .passes _ _ _ rfl rfl nofun nofun⟩
    · exact Or.inr ⟨i, _, _, rfl, .passes _ _ _ rfl rfl nofun nofun⟩
    · exact Or.inl rfl
  | alter i ok =>
    simp only [bootStep]
    split
    · split_ifs <;> exact Or.inr ⟨i, _, _, rfl, .passes _ _ _ rfl rfl nofun nofun⟩
    · exact Or.inl rfl
  | probe i ok =>
    simp only [bootStep]
    split
    · split_ifs with hok hmarker
      · exact Or.inr ⟨i, _, _, rfl, .passes _ _ _ rfl rfl nofun nofun⟩
      · exact Or.inr ⟨i, _, _, rfl, .skips _ (by simpa [indexExists] using hmarker)⟩
      · exact Or.inr ⟨i, _, _, rfl, .passes _ _ _ rfl rfl nofun nofun⟩
    · exact Or.inl rfl
  | migrate i m =>
    simp only [bootStep]
    split
    · exact Or.inr ⟨i, _, _, rfl, .migrates m⟩
    · exact Or.inl rfl

/-- Every connection that creates tables and indexes has statements of `BOOTSTRAP_HONKER_SQL` left. -/
def BootSys.Scripted (s : BootSys ι) : Prop :=
  ∀ i rest, s.pc i = .creating rest → rest ⊆ bootstrapHonkerSql

theorem BootSys.Scripted.step (h : s.Scripted) (a : BootAction ι) : (bootStep s a).Scripted := by
  rcases bootStep_cases s a with hsame | ⟨i, schema, pc, hstep, hmove⟩
  · rw [hsame]
    exact h
  · intro j rest hj
    rw [hstep, BootSys.goto_pc] at hj
    split_ifs at hj with hij
    · cases hmove with
      | calls =>
        cases hj
        exact fun d hd ↦ hd
      | creates d rest' a here =>
        cases hj
        exact fun d' hd ↦ h i _ here (List.mem_cons_of_mem d hd)
      | passes a schema' pc' db indexes open_ created => exact absurd hj (created rest)
      | skips a marker => cases hj
      | migrates m => exact absurd hj (pcAfter_ne_creating _ rest)
    · exact h j rest hj

theorem Ddl.apply_db (d : Ddl) (schema : SchemaDb) : (d.apply schema).db = schema.db := by
  cases d with
  | createTable name columns =>
    rw [Ddl.apply]
    split_ifs <;> rfl
  | createIndex name =>
    rw [Ddl.apply]
    split_ifs <;> rfl

theorem Ddl.apply_marker {d : Ddl} (hd : d ∈ bootstrapHonkerSql) (schema : SchemaDb) :
    legacyClaimIndex ∈ (d.apply schema).indexes ↔ legacyClaimIndex ∈ schema.indexes := by
  cases d with
  | createTable name columns =>
    rw [Ddl.apply]
    split_ifs <;> rfl
  | createIndex name =>
    have hname : legacyClaimIndex ≠ name := by
      rintro rfl
      revert hd
      decide
    rw [Ddl.apply]
    split_ifs
    · rfl
    · simp [hname]

/-- The marker is there, no row has changed and no call has returned `Ok`. -/
structure Unmigrated (legacy : SchemaDb) (s : BootSys ι) : Prop where
  db : s.schema.db = legacy.db
  marker : legacyClaimIndex ∈ s.schema.indexes
  returned : ∀ i, s.pc i ≠ .returned true

/-- The first step that changes a row makes all the changes and takes the marker away. -/
theorem Unmigrated.step (h : Unmigrated legacy s) (hs : s.Scripted) (a : BootAction ι) :
    Unmigrated legacy (bootStep s a) ∨ ∃ i m, a = .migrate i m ∧
      Moved LiveRow.spent "max attempts exceeded" m.diedAt (scheduleFuture m.now legacy.db)
        (bootStep s a).schema.db ∧
      legacyClaimIndex ∉ (bootStep s a).schema.indexes := by
  have hreturned {schema : SchemaDb} {i : ι} {pc : BootPc} (hpc : pc ≠ .returned true) (j : ι) :
      ({ s with schema := schema }.goto i pc).pc j ≠ .returned true := by
    rw [BootSys.goto_pc]
    split_ifs
    · exact hpc
    · exact h.returned j
  rcases bootStep_cases s a with hsame | ⟨i, schema, pc, hstep, hmove⟩
  · rw [hsame]
    exact Or.inl h
  · rw [hstep]
    cases hmove with
    | calls => exact Or.inl ⟨h.db, h.marker, hreturned nofun⟩
    | creates d rest a here =>
      have hd := hs i _ here List.mem_cons_self
      exact Or.inl ⟨(d.apply_db s.schema).trans h.db, (Ddl.apply_marker hd s.schema).mpr h.marker,
        hreturned nofun⟩
    | passes a schema' pc' db indexes open_ created =>
      exact Or.inl ⟨db.trans h.db, indexes ▸ h.marker, hreturned open_⟩
    | skips a marker => exact absurd h.marker marker
    | migrates m =>
      by_cases hm : m.Succeeds s.schema
      · obtain ⟨hmoved, hgone⟩ := committed_of_marked hm h.marker
        rw [h.db] at hmoved
        exact Or.inr ⟨i, m, rfl, hmoved, hgone⟩
      · have hkeep := committed_of_failed hm
        refine Or.inl ⟨?_, ?_, hreturned fun hpc ↦ hm ((pcAfter_migrateClaimV2 s.schema m).mp hpc)⟩
        · exact (congrArg SchemaDb.db hkeep).trans h.db
        · exact (congrArg SchemaDb.indexes hkeep) ▸ h.marker

theorem unmarked_step (hs : s.Scripted) (h : legacyClaimIndex ∉ s.schema.indexes)
    (a : BootAction ι) : (bootStep s a).schema.db = s.schema.db ∧
      legacyClaimIndex ∉ (bootStep s a).schema.indexes := by
  rcases bootStep_cases s a with hsame | ⟨i, schema, pc, hstep, hmove⟩
  · rw [hsame]
    exact ⟨rfl, h⟩
  · rw [hstep]
    cases hmove with
    | calls => exact ⟨rfl, h⟩
    | creates d rest a here =>
      have hd := hs i _ here List.mem_cons_self
      exact ⟨d.apply_db s.schema, (Ddl.apply_marker hd s.schema).not.mpr h⟩
    | passes a schema' pc' db indexes open_ created => exact ⟨db, indexes ▸ h⟩
    | skips a marker => exact ⟨rfl, h⟩
    | migrates m =>
      have hkeep := committed_of_unmarked (m := m) h
      exact ⟨congrArg SchemaDb.db hkeep, congrArg SchemaDb.indexes hkeep ▸ h⟩

theorem scripted_run (legacy : SchemaDb) (as : List (BootAction ι)) :
    (run bootStep (.new ι legacy) as).Scripted :=
  run_invariant bootStep (fun _ a h ↦ h.step a) (fun _ _ h ↦ nomatch h) as

/-- The run `as` makes the row changes in its step `k`, which is the migration `m`, and changes no
row in any other step. -/
structure MigratesAt (legacy : SchemaDb) (as : List (BootAction ι)) (k : ℕ) (m : Migration) : Prop where
  here : ∃ i, as[k]? = some (.migrate i m)
  before : ∀ n ≤ k, (run bootStep (.new ι legacy) (as.take n)).schema.db = legacy.db
  after : ∀ n, k < n → (run bootStep (.new ι legacy) (as.take n)).schema.db =
    (run bootStep (.new ι legacy) as).schema.db
  marker : legacyClaimIndex ∉ (run bootStep (.new ι legacy) as).schema.indexes

theorem MigratesAt.lt {as : List (BootAction ι)} {k : ℕ} {m : Migration}
    (h : MigratesAt legacy as k m) : k < as.length := by
  obtain ⟨i, hi⟩ := h.here
  exact (List.getElem?_eq_some_iff.mp hi).1

theorem MigratesAt.snoc {as : List (BootAction ι)} {k : ℕ} {m : Migration}
    (h : MigratesAt legacy as k m) (a : BootAction ι) :
    MigratesAt legacy (as ++ [a]) k m ∧
      (run bootStep (.new ι legacy) (as ++ [a])).schema.db =
        (run bootStep (.new ι legacy) as).schema.db := by
  have hlt := h.lt
  obtain ⟨hdb, hgone⟩ := unmarked_step (scripted_run legacy as) h.marker a
  have hrun : run bootStep (.new ι legacy) (as ++ [a]) =
      bootStep (run bootStep (.new ι legacy) as) a := run_append ..
  rw [← hrun] at hdb hgone
  refine ⟨⟨?_, ?_, ?_, hgone⟩, hdb⟩
  · obtain ⟨i, hi⟩ := h.here
    exact ⟨i, by rw [List.getElem?_append_left hlt, hi]⟩
  · intro n hn
    rw [List.take_append_of_le_length (by omega)]
    exact h.before n hn
  · intro n hn
    by_cases hle : n ≤ as.length
    · rw [List.take_append_of_le_length hle, hdb]
      exact h.after n hn
    · rw [List.take_of_length_le (by rw [List.length_append, List.length_singleton]; omega)]

theorem boot_run (hmarker : legacyClaimIndex ∈ legacy.indexes) (as : List (BootAction ι)) :
    let s := run bootStep (.new ι legacy) as
    (Unmigrated legacy s ∧ ∀ n, (run bootStep (.new ι legacy) (as.take n)).schema.db = legacy.db) ∨
    ∃ k m, MigratesAt legacy as k m ∧
      Moved LiveRow.spent "max attempts exceeded" m.diedAt (scheduleFuture m.now legacy.db)
        s.schema.db := by
  induction as using List.reverseRecOn with
  | nil =>
    refine Or.inl ⟨⟨rfl, hmarker, fun i ↦ nofun⟩, fun n ↦ ?_⟩
    rw [List.take_nil]
    rfl
  | append_singleton as a ih =>
    have hrun : run bootStep (.new ι legacy) (as ++ [a]) =
        bootStep (run bootStep (.new ι legacy) as) a := run_append ..
    have htake (n : ℕ) (hn : as.length < n) : (as ++ [a]).take n = as ++ [a] :=
      List.take_of_length_le (by rw [List.length_append, List.length_singleton]; omega)
    rcases ih with ⟨hun, hsame⟩ | ⟨k, m, hat, hmoved⟩
    · rcases hun.step (scripted_run legacy as) a with hun' | ⟨i, m, rfl, hmoved, hgone⟩
      · rw [← hrun] at hun'
        refine Or.inl ⟨hun', fun n ↦ ?_⟩
        rcases le_or_gt n as.length with hn | hn
        · rw [List.take_append_of_le_length hn]
          exact hsame n
        · rw [htake n hn]
          exact hun'.db
      · rw [← hrun] at hmoved hgone
        refine Or.inr ⟨as.length, m, ⟨⟨i, ?_⟩, ?_, ?_, hgone⟩, hmoved⟩
        · rw [List.getElem?_append_right le_rfl, Nat.sub_self]
          rfl
        · intro n hn
          rw [List.take_append_of_le_length hn]
          exact hsame n
        · intro n hn
          rw [htake n hn]
    · obtain ⟨hat', hdb⟩ := hat.snoc a
      exact Or.inr ⟨k, m, hat', hdb ▸ hmoved⟩

end Runs

section Upgrade

variable {ι : Type} [DecidableEq ι] {legacy : SchemaDb}

/-- SQLite fails no statement of the savepoint. -/
def Migration.Smooth (m : Migration) : Prop :=
  m.pattern.savepoint = .ok ∧ (∀ k, m.outcomes k = .ok) ∧ m.pattern.release = .ok

theorem Migration.Smooth.succeeds {s : SchemaDb} {m : Migration} (h : m.Smooth) (hdb : s.db.Apart) :
    m.Succeeds s := by
  refine ⟨h.1, fun q hq ↦ ?_, h.2.2⟩
  have hcopy := copyOutcome_eq hdb m
  unfold migrateBody at hq
  split_ifs at hq
  · simp only [List.cons_append, List.nil_append, List.mem_cons, List.not_mem_nil, or_false] at hq
    rcases hq with rfl | rfl | rfl | rfl | rfl | rfl | rfl
    · exact h.2.1 0
    · exact h.2.1 1
    · exact h.2.1 2
    · exact hcopy.trans (h.2.1 3)
    · exact h.2.1 4
    · exact h.2.1 5
    · exact h.2.1 6
  · simp only [List.append_nil, List.mem_cons, List.not_mem_nil, or_false] at hq
    rcases hq with rfl | rfl
    · exact h.2.1 0
    · exact h.2.1 1

theorem migrate_step {s : BootSys ι} (hdb : s.schema.db.Apart) {i : ι} (hi : s.pc i = .migrating)
    (m : Migration) :
    let s' := bootStep s (.migrate i m)
    (m.Smooth → s'.pc i = .returned true) ∧
    (¬ m.Succeeds s.schema → s'.schema = s.schema ∧ s'.pc i ≠ .returned true) := by
  have hstep : bootStep s (.migrate i m) =
      { s with schema := (migrateClaimV2 s.schema m).2.committed }.goto i
        (pcAfter (migrateClaimV2 s.schema m)) := by
    simp only [bootStep, hi]
  have hpc := pcAfter_migrateClaimV2 s.schema m
  rw [hstep]
  simp only [BootSys.goto_pc, if_pos]
  constructor
  · intro hsmooth
    exact hpc.mpr (hsmooth.succeeds hdb)
  · intro hfails
    exact ⟨committed_of_failed hfails, fun h ↦ hfails (hpc.mp h)⟩

/-- Any number of connections bootstrap a legacy database, with any of their statements failing. The
migration takes effect once, before any call returns `Ok`, and as a whole. After it every job is where
it belongs and claims hand out what they would have handed out. -/
theorem claim_v2_migration (hmarker : legacyClaimIndex ∈ legacy.indexes)
    (hrows : ∀ r ∈ legacy.db.live.rows, r.state = .pending ∨ r.state = .processing)
    (hdb : legacy.db.Apart) (as : List (BootAction ι)) :
    let s := run bootStep (.new ι legacy) as
    (Unmigrated legacy s ∨ ∃ k m, MigratesAt legacy as k m ∧
      Upgraded m.now m.diedAt legacy.db s.schema.db ∧ HandsOutLegacy legacy.db s.schema.db) ∧
    ∀ i m, s.pc i = .migrating →
      let s' := bootStep s (.migrate i m)
      (m.Smooth → s'.pc i = .returned true) ∧
      (¬ m.Succeeds s.schema → s'.schema = s.schema ∧ s'.pc i ≠ .returned true) := by
  intro s
  have hwaiting : ∀ r ∈ legacy.db.live.rows, r.state ≠ .scheduled := by
    intro r hr hst
    simpa [hst] using hrows r hr
  have hcases : Unmigrated legacy s ∨ ∃ k m, MigratesAt legacy as k m ∧
      Upgraded m.now m.diedAt legacy.db s.schema.db := by
    rcases boot_run hmarker as with ⟨hun, -⟩ | ⟨k, m, hat, hmoved⟩
    · exact Or.inl hun
    · exact Or.inr ⟨k, m, hat, hmoved.upgraded hdb hwaiting⟩
  have hapart : s.schema.db.Apart := by
    rcases hcases with hun | ⟨k, m, -, hup⟩
    · exact hun.db ▸ hdb
    · exact hup.apart
  refine ⟨?_, fun i m hi ↦ migrate_step hapart hi m⟩
  rcases hcases with hun | ⟨k, m, hat, hup⟩
  · exact Or.inl hun
  · exact Or.inr ⟨k, m, hat, hup, hup.handsOutLegacy hwaiting⟩

/-- Jobs 1 to 4 of a database of an older build: due, in the future, out of attempts, and under a
lease. -/
def legacyBacklog : SchemaDb where
  db := { Db.fresh with
    live := (Table.empty.insertAll?
      [⟨1, "q", "a", .pending, 0, .int 50, none, none, 0, 3, 0, none, none⟩,
        ⟨2, "q", "b", .pending, 0, .int 500, none, none, 0, 3, 0, none, none⟩,
        ⟨3, "q", "c", .pending, 0, .int 50, none, none, 3, 3, 0, none, none⟩,
        ⟨4, "q", "d", .processing, 0, .int 50, some "w", some (.int 200), 1, 3, 0, none,
          some 90⟩]).getD .empty
    seq := 4 }
  tables := ["_honker_live", "_honker_dead"]
  columns := []
  indexes := [legacyClaimIndex]

/-- A call up to its savepoint, with no failure. -/
def bootCall (i : Bool) : List (BootAction Bool) :=
  .call i :: List.replicate 14 (.create i true) ++
    [.check i true true, .alter i true, .check i true true, .alter i true, .check i true true,
      .alter i true, .check i true true, .probe i true]

def migrationAt (now : Clock) : Migration := ⟨now, now, fun _ ↦ .ok, .smooth⟩

/-- Both connections see the marker before the first migrates. -/
def bootRace : List (BootAction Bool) :=
  bootCall false ++ bootCall true ++
    [.migrate true (migrationAt (.near 100)), .migrate false (migrationAt (.near 101))]

theorem bootRace_outcome :
    let s := run bootStep (.new Bool legacyBacklog) bootRace
    s.pc true = .returned true ∧ s.pc false = .returned true ∧
    s.schema.db.live.rows.map (fun r ↦ (r.id, r.state)) =
      [(1, .pending), (2, .scheduled), (4, .processing)] ∧
    s.schema.db.dead.rows.map (fun d ↦ (d.id, d.lastError)) = [(3, "max attempts exceeded")] := by
  decide +kernel

theorem claim_v2_migration_bootRace :
    ∃ k m, MigratesAt legacyBacklog bootRace k m ∧
      Upgraded m.now m.diedAt legacyBacklog.db
        (run bootStep (.new Bool legacyBacklog) bootRace).schema.db ∧
      HandsOutLegacy legacyBacklog.db
        (run bootStep (.new Bool legacyBacklog) bootRace).schema.db := by
  have hmarker : legacyClaimIndex ∈ legacyBacklog.indexes := by decide
  have hrows : ∀ r ∈ legacyBacklog.db.live.rows, r.state = .pending ∨ r.state = .processing := by
    decide
  have hdb : legacyBacklog.db.Apart := fun _ _ _ ↦ rfl
  rcases (claim_v2_migration hmarker hrows hdb bootRace).1 with hun | hup
  · obtain ⟨htrue, -⟩ := bootRace_outcome
    exact absurd htrue (hun.returned true)
  · exact hup

end Upgrade

end Honker
