import Honker.Savepoint
import Honker.Scheduler

namespace Honker.SchedulerUpdate

open Relational Numeric Transaction Savepoint

/-- The arguments of `scheduler_update`; `none` leaves a field as it is. -/
structure Update where
  name : String
  cronExpr : Option String
  payload : Option String
  priority : Option ℤ
  expiresS : Option (Option I64)
  maxAttempts : Option (Option ℤ)

/-- The outcomes of the statements of a call: the existence read, the clock read, the five updates
and the statements of the savepoint. -/
structure Outcomes where
  read : Outcome
  clock : Outcome
  payload : Outcome
  priority : Outcome
  expiresS : Outcome
  maxAttempts : Outcome
  cron : Outcome
  frame : Pattern

namespace Update

def anyField (u : Update) : Bool :=
  u.cronExpr.isSome || u.payload.isSome || u.priority.isSome || u.expiresS.isSome ||
    u.maxAttempts.isSome

def check (u : Update) : Except SqlError (Option Unit) :=
  u.maxAttempts.join.mapM (checkMaxAttempts "honker_scheduler_update")

/-- The new expression with its next boundary after `now`. -/
def cron (next : String → ℤ → Except String ℤ) (now : Clock) (u : Update) :
    Except SqlError (Option (String × ℤ)) :=
  u.cronExpr.mapM fun expr ↦ (boundary next expr now).map (expr, ·)

/-- The `UPDATE` of an optional field, which is not issued without a value. No `UPDATE` sets the
name. -/
def setField {α : Type} (name : String) (set : α → Task → Task) (v : Option α) (o : Outcome) :
    List ((Db → Db) × Outcome) :=
  v.toList.map fun a ↦
    (updateTask name (fun t ↦ { set a t with name := t.name }) (fun _ ↦ rfl), o)

/-- The `UPDATE` statements, in the source's order. -/
def stmts (u : Update) (cron : Option (String × ℤ)) (p : Outcomes) : List ((Db → Db) × Outcome) :=
  setField u.name (fun v t ↦ { t with payload := v }) u.payload p.payload ++
  setField u.name (fun v t ↦ { t with priority := v }) u.priority p.priority ++
  setField u.name (fun v t ↦ { t with expiresS := v }) u.expiresS p.expiresS ++
  setField u.name (fun v t ↦ { t with maxAttempts := v.getD 3 }) u.maxAttempts p.maxAttempts ++
  setField u.name (fun v t ↦ { t with cronExpr := v.1, nextFireAt := v.2 }) cron p.cron

/-- The row with the requested fields. -/
def set (u : Update) (cron : Option (String × ℤ)) (t : Task) : Task :=
  { t with
    cronExpr := cron.elim t.cronExpr Prod.fst
    payload := u.payload.getD t.payload
    priority := u.priority.getD t.priority
    expiresS := u.expiresS.getD t.expiresS
    nextFireAt := cron.elim t.nextFireAt Prod.snd
    maxAttempts := u.maxAttempts.elim t.maxAttempts fun m ↦ m.getD 3 }

end Update

def frameName : String := "honker_sched_update"

/-- The call from its `SAVEPOINT` on. The result of the undo is discarded. -/
def inFrame (c : Conn Db) (qs : List ((Db → Db) × Outcome)) (p : Pattern) :
    Except String ℤ × Conn Db :=
  match Transaction.exec c (.savepoint frameName) p.savepoint with
  | (.error e, c) => (.error e.text, c)
  | (.ok (), c) =>
    match runStmts c qs with
    | (.error e, c, _) => (.error e.text, (undoBatch c frameName p).2.1)
    | (.ok (), c, _) =>
      match Transaction.exec c (.release frameName) p.release with
      | (.error e, c) => (.error e.text, c)
      | (.ok (), c) => (.ok 1, c)

/-- Tasks that other connections unregister. A connection inside a transaction keeps its snapshot. -/
def interrupted (others : List String) : Conn Db → Conn Db
  | .idle db => .idle (others.foldl (fun db name ↦ (schedulerUnregister name db).2) db)
  | .inTransaction base db frames => .inTransaction base db frames

/-- The call once the task exists and a field is given: the clock read and the boundary of a new
expression, then the frame. -/
def proceed (next : String → ℤ → Except String ℤ) (now : Clock) (u : Update) (p : Outcomes)
    (c : Conn Db) : Except String ℤ × Conn Db :=
  match if u.cronExpr.isSome then query c p.clock else (.ok (), c) with
  | (.error e, c) => (.error e.text, c)
  | (.ok (), c) =>
    match u.cron next now with
    | .error e => (.error e.text, c)
    | .ok cron => inFrame c (u.stmts cron p) p.frame

/-- `scheduler_update` on a connection, with what the other connections commit between the existence
check and the savepoint. -/
def schedulerUpdateOn (next : String → ℤ → Except String ℤ) (now : Clock) (u : Update) (p : Outcomes)
    (others : List String) (c : Conn Db) : Except String ℤ × Conn Db :=
  match u.check with
  | .error e => (.error e.text, c)
  | .ok _ =>
    match query c p.read with
    | (.error e, c) => (.error e.text, c)
    | (.ok (), c) =>
      if (c.contents.tasks.find? u.name).isNone then (.ok 0, c)
      else if !u.anyField then (.ok 0, c)
      else proceed next now u p (interrupted others c)

/-- The row of the task is changed in the requested fields, and nothing else is changed. -/
structure Applied (next : String → ℤ → Except String ℤ) (now : Clock) (u : Update) (db db' : Db) :
    Prop where
  row : ∃ cron t, u.cron next now = .ok cron ∧ db.tasks.find? u.name = some t ∧
    db'.tasks.find? u.name = some (u.set cron t)
  others : ∀ name, name ≠ u.name → db'.tasks.find? name = db.tasks.find? name
  rest : db'.live = db.live ∧ db'.dead = db.dead ∧ db'.seq = db.seq

/-- `Ok(1)` stands for an update in full; any other result for a connection as it was, but for what
the other connections committed. -/
structure AllOrNothing (next : String → ℤ → Except String ℤ) (now : Clock) (u : Update)
    (others : List String) (c : Conn Db) (out : Except String ℤ × Conn Db) : Prop where
  all : out.1 = .ok 1 → ∃ db', out.2 = (interrupted others c).keep db' ∧
    Applied next now u (interrupted others c).contents db'
  nothing : out.1 ≠ .ok 1 → out.2 = c ∨ out.2 = interrupted others c

/-- The first outcome that is not a success. -/
def firstFailure {σ : Type} (qs : List ((σ → σ) × Outcome)) : Option Outcome :=
  (qs.map Prod.snd).find? fun o ↦ match o with
    | .ok => false
    | _ => true

/-- A statement that takes the frame off: it succeeds, or SQLite's own rollback ends a transaction
that nobody else is in. -/
def Pops (c : Conn Db) : Outcome → Prop
  | .ok => True
  | .fail _ => False
  | .abort _ => c.autocommit = true

/-- The condition from the `SAVEPOINT` on. -/
def FrameClean (c : Conn Db) (name : String) (qs : List ((Db → Db) × Outcome)) (p : Pattern) : Prop :=
  (p.savepoint.isAbort = true → c.autocommit = true) ∧
  (p.savepoint = .ok →
    match firstFailure qs with
    | none => Pops c p.release ∧ (p.release = .ok → (c.contents.tasks.find? name).isSome = true)
    | some (.abort _) => c.autocommit = true
    | some _ => Pops c p.undoRollbackTo ∧ (p.undoRollbackTo = .ok → Pops c p.undoRelease))

/-- The call gets past the existence check with something to do. -/
def Proceeds (u : Update) (p : Outcomes) (c : Conn Db) : Prop :=
  (∃ x, u.check = .ok x) ∧ p.read = .ok ∧ (c.contents.tasks.find? u.name).isSome = true ∧
    u.anyField = true

/-- No statement that is reached ends a caller's transaction, and the frame is taken off. -/
structure Clean (next : String → ℤ → Except String ℤ) (now : Clock) (u : Update) (p : Outcomes)
    (others : List String) (c : Conn Db) : Prop where
  read : (∃ x, u.check = .ok x) → p.read.isAbort = true → c.autocommit = true
  clock : Proceeds u p c → u.cronExpr.isSome = true → p.clock.isAbort = true → c.autocommit = true
  frame : ∀ cron, Proceeds u p c → (u.cronExpr.isSome = true → p.clock = .ok) →
    u.cron next now = .ok cron → FrameClean (interrupted others c) u.name (u.stmts cron p) p.frame

section Effects

variable {name : String} {f g : Task → Task} {db db' db'' : Db}

/-- `db'` is `db` with `f` applied to the task `name`. -/
structure Touches (name : String) (f : Task → Task) (db db' : Db) : Prop where
  row : db'.tasks.find? name = (db.tasks.find? name).map f
  others : ∀ k, k ≠ name → db'.tasks.find? k = db.tasks.find? k
  rest : db'.live = db.live ∧ db'.dead = db.dead ∧ db'.seq = db.seq

theorem Touches.trans (h : Touches name f db db') (h' : Touches name g db' db'') :
    Touches name (g ∘ f) db db'' where
  row := by rw [h'.row, h.row, Option.map_map]
  others k hk := (h'.others k hk).trans (h.others k hk)
  rest := ⟨h'.rest.1.trans h.rest.1, h'.rest.2.1.trans h.rest.2.1, h'.rest.2.2.trans h.rest.2.2⟩

theorem touches_updateTask (name : String) (f : Task → Task) (hf : ∀ t, (f t).name = t.name) (db : Db) :
    Touches name f db (updateTask name f hf db) := by
  have hfind (k : String) := Table.find?_update db.tasks (fun t ↦ t.name = name) f hf k
  refine ⟨?_, fun k hk ↦ ?_, rfl, rfl, rfl⟩
  · rw [updateTask, hfind]
    cases ht : db.tasks.find? name with
    | none => rfl
    | some t => simp [(Table.find?_eq_some.mp ht).2]
  · rw [updateTask, hfind]
    cases ht : db.tasks.find? k with
    | none => rfl
    | some t => simp [(Table.find?_eq_some.mp ht).2, hk]

theorem effects_append {σ : Type} (qs qs' : List ((σ → σ) × Outcome)) (s : σ) :
    effects (qs ++ qs') s = effects qs' (effects qs s) := List.foldl_append

theorem touches_setField {α : Type} (name : String) (set : α → Task → Task)
    (hset : ∀ a t, (set a t).name = t.name) (v : Option α) (o : Outcome) (db : Db) :
    Touches name (fun t ↦ v.elim t fun a ↦ set a t) db
      (effects (Update.setField name set v o) db) := by
  cases v with
  | none => exact ⟨by simp [effects, Update.setField], fun _ _ ↦ rfl, rfl, rfl, rfl⟩
  | some a =>
    have hsame : (fun t ↦ { set a t with name := t.name }) = set a := by
      funext t
      rw [← hset a t]
    change Touches name (set a) db _
    rw [← hsame]
    exact touches_updateTask name (fun t ↦ { set a t with name := t.name }) (fun _ ↦ rfl) db

theorem touches_stmts (u : Update) (cron : Option (String × ℤ)) (p : Outcomes) (db : Db) :
    Touches u.name (u.set cron) db (effects (u.stmts cron p) db) := by
  have hset : u.set cron =
      (fun t ↦ cron.elim t fun v ↦ { t with cronExpr := v.1, nextFireAt := v.2 }) ∘
      (fun t ↦ u.maxAttempts.elim t fun v ↦ { t with maxAttempts := v.getD 3 }) ∘
      (fun t ↦ u.expiresS.elim t fun v ↦ { t with expiresS := v }) ∘
      (fun t ↦ u.priority.elim t fun v ↦ { t with priority := v }) ∘
      fun t ↦ u.payload.elim t fun v ↦ { t with payload := v } := by
    funext t
    obtain ⟨name, cronExpr, payload, priority, expiresS, maxAttempts⟩ := u
    cases payload <;> cases priority <;> cases expiresS <;> cases maxAttempts <;> cases cron <;> rfl
  rw [hset, Update.stmts, effects_append, effects_append, effects_append, effects_append]
  have hpayload := touches_setField u.name (fun v t ↦ { t with payload := v }) (fun _ _ ↦ rfl)
    u.payload p.payload db
  have hpriority := hpayload.trans (touches_setField u.name (fun v t ↦ { t with priority := v })
    (fun _ _ ↦ rfl) u.priority p.priority _)
  have hexpires := hpriority.trans (touches_setField u.name (fun v t ↦ { t with expiresS := v })
    (fun _ _ ↦ rfl) u.expiresS p.expiresS _)
  have hattempts := hexpires.trans (touches_setField u.name
    (fun v t ↦ { t with maxAttempts := v.getD 3 }) (fun _ _ ↦ rfl) u.maxAttempts p.maxAttempts _)
  exact hattempts.trans (touches_setField u.name
    (fun v t ↦ { t with cronExpr := v.1, nextFireAt := v.2 }) (fun _ _ ↦ rfl) cron p.cron _)

theorem applied_iff {next : String → ℤ → Except String ℤ} {now : Clock} {u : Update}
    {cron : Option (String × ℤ)} (hcron : u.cron next now = .ok cron) (p : Outcomes) (db : Db) :
    Applied next now u db (effects (u.stmts cron p) db) ↔
      (db.tasks.find? u.name).isSome = true := by
  have htouch := touches_stmts u cron p db
  constructor
  · intro h
    obtain ⟨-, t, -, ht, -⟩ := h.row
    simp [ht]
  · intro h
    obtain ⟨t, ht⟩ := Option.isSome_iff_exists.mp h
    refine ⟨⟨cron, t, hcron, ht, ?_⟩, htouch.others, htouch.rest⟩
    rw [htouch.row, ht]
    rfl

end Effects

section Frame

variable {σ : Type}

/-- The statements in the frame, by the first that does not succeed. -/
theorem runStmts_cases (c : Conn σ) (n : String) (qs : List ((σ → σ) × Outcome)) (s : σ) :
    (firstFailure qs = none ∧
      ∃ log, runStmts (c.push n s) qs = (.ok (), c.push n (effects qs s), log)) ∨
    (∃ e t log, firstFailure qs = some (.fail e) ∧
      runStmts (c.push n s) qs = (.error e, c.push n t, log)) ∨
    ∃ e log, firstFailure qs = some (.abort e) ∧
      runStmts (c.push n s) qs = (.error e, c.rolledBack, log) := by
  induction qs generalizing s with
  | nil => exact Or.inl ⟨rfl, [], rfl⟩
  | cons q qs ih =>
    obtain ⟨f, o⟩ := q
    cases o with
    | ok =>
      have hfirst : firstFailure ((f, .ok) :: qs) = firstFailure qs := rfl
      rw [hfirst]
      rcases ih (f s) with ⟨hnone, log, hrun⟩ | ⟨e, t, log, hfail, hrun⟩ | ⟨e, log, habort, hrun⟩
      · exact Or.inl ⟨hnone, _, by simp only [runStmts, exec_write_push, hrun]; rfl⟩
      · exact Or.inr (Or.inl ⟨e, t, _, hfail, by simp only [runStmts, exec_write_push, hrun]; rfl⟩)
      · exact Or.inr (Or.inr ⟨e, _, habort, by simp only [runStmts, exec_write_push, hrun]; rfl⟩)
    | fail e => exact Or.inr (Or.inl ⟨e, s, _, rfl, rfl⟩)
    | abort e => exact Or.inr (Or.inr ⟨e, _, rfl, rfl⟩)

end Frame

section Connection

variable {next : String → ℤ → Except String ℤ} {now : Clock} {u : Update} {p : Outcomes}
  {others : List String} {c : Conn Db}

@[simp]
theorem autocommit_interrupted : (interrupted others c).autocommit = c.autocommit := by
  cases c <;> rfl

theorem interrupted_of_not_autocommit (h : c.autocommit = false) : interrupted others c = c := by
  cases c with
  | idle => cases h
  | inTransaction => rfl

/-- The connection is as it was, but for what the other connections committed. -/
def Untouched (others : List String) (c c' : Conn Db) : Prop := c' = c ∨ c' = interrupted others c

theorem not_untouched_push (others : List String) (c : Conn Db) (n : String) (s : Db) :
    ¬ Untouched others c ((interrupted others c).push n s) := by
  intro h
  rcases h with h | h
  · cases hc : c.autocommit with
    | true =>
      have hnot := congrArg Conn.autocommit h
      rw [Conn.autocommit_push, hc] at hnot
      cases hnot
    | false =>
      rw [interrupted_of_not_autocommit hc] at h
      exact Conn.push_ne c n s h
  · exact Conn.push_ne _ n s h

theorem not_untouched_rolledBack (h : c.autocommit = false) :
    ¬ Untouched others c c.rolledBack := by
  intro hsame
  rw [Untouched, interrupted_of_not_autocommit h, or_self, Conn.rolledBack_eq_iff, h] at hsame
  cases hsame

theorem untouched_rolledBack_self : Untouched others c c.rolledBack ↔ c.autocommit = true := by
  cases hc : c.autocommit with
  | true => exact iff_of_true (Or.inl (Conn.rolledBack_of_autocommit hc)) rfl
  | false => exact iff_of_false (not_untouched_rolledBack hc) (by simp)

theorem untouched_rolledBack :
    Untouched others c (interrupted others c).rolledBack ↔ c.autocommit = true := by
  cases hc : c.autocommit with
  | true =>
    refine iff_of_true (Or.inr ?_) rfl
    exact Conn.rolledBack_of_autocommit (by rw [autocommit_interrupted, hc])
  | false =>
    rw [interrupted_of_not_autocommit hc]
    exact iff_of_false (not_untouched_rolledBack hc) (by simp)

theorem allOrNothing_of_ne {out : Except String ℤ × Conn Db} (h : out.1 ≠ .ok 1) :
    AllOrNothing next now u others c out ↔ Untouched others c out.2 :=
  ⟨fun hout ↦ hout.nothing h, fun hout ↦ ⟨fun hok ↦ absurd hok h, fun _ ↦ hout⟩⟩

/-- The undo of the frame restores the connection exactly when its statements take the frame off. -/
theorem untouched_undoBatch (s : Db) (pat : Pattern) :
    Untouched others c (undoBatch ((interrupted others c).push frameName s) frameName pat).2.1 ↔
      Pops (interrupted others c) pat.undoRollbackTo ∧
        (pat.undoRollbackTo = .ok → Pops (interrupted others c) pat.undoRelease) := by
  have hpush (t : Db) := not_untouched_push others c frameName t
  have hself : Untouched others c (interrupted others c) := Or.inr rfl
  cases hroll : pat.undoRollbackTo with
  | fail e => simpa [undoBatch, hroll, Pops] using hpush s
  | abort e => simpa [undoBatch, hroll, Pops] using untouched_rolledBack
  | ok =>
    cases hrel : pat.undoRelease with
    | ok => simpa [undoBatch, hroll, hrel, Pops] using hself
    | fail e => simpa [undoBatch, hroll, hrel, Pops] using hpush _
    | abort e => simpa [undoBatch, hroll, hrel, Pops] using untouched_rolledBack

theorem undoBatch_idle {c : Conn Db} (h : c.autocommit = true) (n : String) (pat : Pattern) :
    (undoBatch c n pat).2.1 = c := by
  cases c with
  | inTransaction => cases h
  | idle db =>
    cases hroll : pat.undoRollbackTo with
    | ok => simp [undoBatch, hroll, Transaction.exec, apply]
    | fail e => simp [undoBatch, hroll]
    | abort e =>
      simp only [undoBatch, hroll, exec_abort]
      rfl

/-- From the `SAVEPOINT` on the call is all or nothing under the condition, and only then. -/
theorem inFrame_iff {cron : Option (String × ℤ)} (hcron : u.cron next now = .ok cron)
    (pat : Pattern) :
    AllOrNothing next now u others c (inFrame (interrupted others c) (u.stmts cron p) pat) ↔
      FrameClean (interrupted others c) u.name (u.stmts cron p) pat := by
  cases hsave : pat.savepoint with
  | fail e =>
    have hrun : inFrame (interrupted others c) (u.stmts cron p) pat =
        (.error e.text, interrupted others c) := by
      simp [inFrame, hsave]
    rw [hrun, allOrNothing_of_ne (by simp)]
    exact iff_of_true (Or.inr rfl) (by simp [FrameClean, hsave, Outcome.isAbort])
  | abort e =>
    have hrun : inFrame (interrupted others c) (u.stmts cron p) pat =
        (.error e.text, (interrupted others c).rolledBack) := by
      simp [inFrame, hsave]
    rw [hrun, allOrNothing_of_ne (by simp), untouched_rolledBack]
    simp [FrameClean, hsave, Outcome.isAbort]
  | ok =>
    rcases runStmts_cases (interrupted others c) frameName (u.stmts cron p)
      (interrupted others c).contents with
      ⟨hfirst, log, hstmts⟩ | ⟨e, t, log, hfirst, hstmts⟩ | ⟨e, log, hfirst, hstmts⟩
    · cases hrel : pat.release with
      | ok =>
        have hrun : inFrame (interrupted others c) (u.stmts cron p) pat =
            (.ok 1, (interrupted others c).keep
              (effects (u.stmts cron p) (interrupted others c).contents)) := by
          simp [inFrame, hsave, hstmts, hrel]
        have hclean : FrameClean (interrupted others c) u.name (u.stmts cron p) pat ↔
            ((interrupted others c).contents.tasks.find? u.name).isSome = true := by
          simp [FrameClean, hsave, hfirst, hrel, Pops, Outcome.isAbort]
        rw [hrun, hclean, ← applied_iff hcron p]
        constructor
        · intro h
          obtain ⟨db', hkeep, happlied⟩ := h.all rfl
          have hdb := congrArg Conn.contents hkeep
          rw [Conn.contents_keep, Conn.contents_keep] at hdb
          rw [hdb]
          exact happlied
        · exact fun h ↦ ⟨fun _ ↦ ⟨_, rfl, h⟩, fun hne ↦ absurd rfl hne⟩
      | fail e =>
        have hrun : inFrame (interrupted others c) (u.stmts cron p) pat =
            (.error e.text, (interrupted others c).push frameName
              (effects (u.stmts cron p) (interrupted others c).contents)) := by
          simp [inFrame, hsave, hstmts, hrel]
        rw [hrun, allOrNothing_of_ne (by simp)]
        refine iff_of_false (not_untouched_push others c frameName _) ?_
        simp [FrameClean, hsave, hfirst, hrel, Pops]
      | abort e =>
        have hrun : inFrame (interrupted others c) (u.stmts cron p) pat =
            (.error e.text, (interrupted others c).rolledBack) := by
          simp [inFrame, hsave, hstmts, hrel]
        rw [hrun, allOrNothing_of_ne (by simp), untouched_rolledBack]
        simp [FrameClean, hsave, hfirst, hrel, Pops, Outcome.isAbort]
    · have hrun : inFrame (interrupted others c) (u.stmts cron p) pat =
          (.error e.text,
            (undoBatch ((interrupted others c).push frameName t) frameName pat).2.1) := by
        simp [inFrame, hsave, hstmts]
      rw [hrun, allOrNothing_of_ne (by simp), untouched_undoBatch]
      simp [FrameClean, hsave, hfirst, Outcome.isAbort]
    · have hrun : inFrame (interrupted others c) (u.stmts cron p) pat =
          (.error e.text, (interrupted others c).rolledBack) := by
        have hundo := undoBatch_idle (interrupted others c).autocommit_rolledBack frameName pat
        simp [inFrame, hsave, hstmts, hundo]
      rw [hrun, allOrNothing_of_ne (by simp), untouched_rolledBack]
      simp [FrameClean, hsave, hfirst, Outcome.isAbort]

theorem proceed_iff :
    AllOrNothing next now u others c (proceed next now u p (interrupted others c)) ↔
      (u.cronExpr.isSome = true → p.clock.isAbort = true → c.autocommit = true) ∧
      ∀ cron, (u.cronExpr.isSome = true → p.clock = .ok) → u.cron next now = .ok cron →
        FrameClean (interrupted others c) u.name (u.stmts cron p) p.frame := by
  -- Without an expression the clock is not read, as if the read had succeeded.
  have hread (hok : u.cronExpr.isSome = true → p.clock = .ok) :
      AllOrNothing next now u others c (proceed next now u p (interrupted others c)) ↔
        ∀ cron, u.cron next now = .ok cron →
          FrameClean (interrupted others c) u.name (u.stmts cron p) p.frame := by
    have hquery : (if u.cronExpr.isSome then query (interrupted others c) p.clock
        else (.ok (), interrupted others c)) = (.ok (), interrupted others c) := by
      split_ifs with hsome
      · rw [hok hsome]
        rfl
      · rfl
    cases hcron : u.cron next now with
    | error e =>
      have hrun : proceed next now u p (interrupted others c) =
          (.error e.text, interrupted others c) := by
        simp only [proceed, hquery, hcron]
      rw [hrun, allOrNothing_of_ne (by simp)]
      exact iff_of_true (Or.inr rfl) (fun cron h ↦ by cases h)
    | ok cron =>
      have hrun : proceed next now u p (interrupted others c) =
          inFrame (interrupted others c) (u.stmts cron p) p.frame := by
        simp only [proceed, hquery, hcron]
      rw [hrun, inFrame_iff hcron]
      constructor
      · intro h cron' hcron'
        cases hcron'
        exact h
      · exact fun h ↦ h cron rfl
  by_cases hok : u.cronExpr.isSome = true → p.clock = .ok
  · have hquiet : u.cronExpr.isSome = true → p.clock.isAbort = true → c.autocommit = true := by
      intro hsome habort
      rw [hok hsome] at habort
      cases habort
    rw [hread hok]
    exact ⟨fun h ↦ ⟨hquiet, fun cron _ ↦ h cron⟩, fun h cron ↦ h.2 cron hok⟩
  · rw [Classical.not_imp] at hok
    obtain ⟨hsome, hclock⟩ := hok
    cases hout : p.clock with
    | ok => exact absurd hout hclock
    | fail e =>
      have hrun : proceed next now u p (interrupted others c) =
          (.error e.text, interrupted others c) := by
        simp only [proceed, hsome, if_true, hout, query]
      rw [hrun, allOrNothing_of_ne (by simp)]
      refine iff_of_true (Or.inr rfl) ⟨fun _ h ↦ ?_, fun cron h ↦ ?_⟩
      · cases h
      · cases h hsome
    | abort e =>
      have hrun : proceed next now u p (interrupted others c) =
          (.error e.text, (interrupted others c).rolledBack) := by
        simp only [proceed, hsome, if_true, hout, query]
      rw [hrun, allOrNothing_of_ne (by simp), untouched_rolledBack]
      refine ⟨fun h ↦ ⟨fun _ _ ↦ h, fun cron hok ↦ ?_⟩, fun h ↦ h.1 hsome rfl⟩
      cases hok hsome

end Connection

/-- For every connection, update, pattern of outcomes and unregistered tasks, `scheduler_update` is all
or nothing if and only if each statement that is reached takes its frame off, and a task whose update
is committed is still there. -/
theorem scheduler_update_atomic_iff (next : String → ℤ → Except String ℤ) (now : Clock) (u : Update)
    (p : Outcomes) (others : List String) (c : Conn Db) :
    AllOrNothing next now u others c (schedulerUpdateOn next now u p others c) ↔
      Clean next now u p others c := by
  cases hcheck : u.check with
  | error e =>
    have hrun : schedulerUpdateOn next now u p others c = (.error e.text, c) := by
      simp only [schedulerUpdateOn, hcheck]
    rw [hrun, allOrNothing_of_ne (by simp)]
    have hnot : ¬ ∃ x, u.check = .ok x := by simp [hcheck]
    exact iff_of_true (Or.inl rfl)
      ⟨fun h ↦ absurd h hnot, fun h ↦ absurd h.1 hnot, fun _ h ↦ absurd h.1 hnot⟩
  | ok x =>
    cases hread : p.read with
    | fail e =>
      have hrun : schedulerUpdateOn next now u p others c = (.error e.text, c) := by
        simp only [schedulerUpdateOn, hcheck, hread, query]
      have hnot : ¬ Proceeds u p c := by simp [Proceeds, hread]
      rw [hrun, allOrNothing_of_ne (by simp)]
      exact iff_of_true (Or.inl rfl)
        ⟨by simp [hread, Outcome.isAbort], fun h ↦ absurd h hnot, fun _ h ↦ absurd h hnot⟩
    | abort e =>
      have hrun : schedulerUpdateOn next now u p others c = (.error e.text, c.rolledBack) := by
        simp only [schedulerUpdateOn, hcheck, hread, query]
      have hnot : ¬ Proceeds u p c := by simp [Proceeds, hread]
      rw [hrun, allOrNothing_of_ne (by simp), untouched_rolledBack_self]
      exact ⟨fun h ↦ ⟨fun _ _ ↦ h, fun h ↦ absurd h hnot, fun _ h ↦ absurd h hnot⟩,
        fun h ↦ h.read ⟨x, hcheck⟩ (by simp [hread, Outcome.isAbort])⟩
    | ok =>
      have hquiet : (∃ x, u.check = .ok x) → p.read.isAbort = true → c.autocommit = true := by
        simp [hread, Outcome.isAbort]
      by_cases hp : Proceeds u p c
      · obtain ⟨-, -, hsome, hany⟩ := hp
        have hrun : schedulerUpdateOn next now u p others c =
            proceed next now u p (interrupted others c) := by
          have hnone : (c.contents.tasks.find? u.name).isNone = false := by simpa using hsome
          simp [schedulerUpdateOn, hcheck, hread, query, hnone, hany]
        have hp : Proceeds u p c := ⟨⟨x, hcheck⟩, hread, hsome, hany⟩
        rw [hrun, proceed_iff]
        exact ⟨fun h ↦ ⟨hquiet, fun _ ↦ h.1, fun cron _ ↦ h.2 cron⟩,
          fun h ↦ ⟨h.clock hp, fun cron ↦ h.frame cron hp⟩⟩
      · have hrun : schedulerUpdateOn next now u p others c = (.ok 0, c) := by
          simp only [schedulerUpdateOn, hcheck, hread, query]
          split_ifs with hnone hany
          · rfl
          · rfl
          · exact absurd ⟨⟨x, hcheck⟩, hread,
              by simpa [Option.isSome_iff_ne_none] using hnone, by simpa using hany⟩ hp
        rw [hrun, allOrNothing_of_ne (by simp)]
        exact iff_of_true (Or.inl rfl)
          ⟨hquiet, fun h ↦ absurd h hp, fun _ h ↦ absurd h hp⟩

section Contract

variable {next : String → ℤ → Except String ℤ} {now : Clock} {u : Update} {c : Conn Db}

/-- No statement of the call fails. -/
def Outcomes.smooth : Outcomes := ⟨.ok, .ok, .ok, .ok, .ok, .ok, .ok, .smooth⟩

theorem effects_stmts (u : Update) (cron : Option (String × ℤ)) (p : Outcomes) (db : Db) :
    effects (u.stmts cron p) db =
      applyUpdates u.name cron u.payload u.priority u.expiresS u.maxAttempts db := by
  obtain ⟨name, cronExpr, payload, priority, expiresS, maxAttempts⟩ := u
  cases payload <;> cases priority <;> cases expiresS <;> cases maxAttempts <;> cases cron <;> rfl

theorem firstFailure_smooth (u : Update) (cron : Option (String × ℤ)) :
    firstFailure (u.stmts cron .smooth) = none := by
  obtain ⟨name, cronExpr, payload, priority, expiresS, maxAttempts⟩ := u
  cases payload <;> cases priority <;> cases expiresS <;> cases maxAttempts <;> cases cron <;> rfl

/-- Without failing statements and other connections, the call is the update of the tables. -/
theorem schedulerUpdateOn_smooth :
    schedulerUpdateOn next now u .smooth [] c =
      ((schedulerUpdate next u.name u.cronExpr u.payload u.priority u.expiresS u.maxAttempts now
          c.contents).1.mapError SqlError.text,
        c.keep (schedulerUpdate next u.name u.cronExpr u.payload u.priority u.expiresS u.maxAttempts
          now c.contents).2) := by
  have hquiet : interrupted [] c = c := by
    cases c <;> rfl
  have hread : query c Outcomes.smooth.read = (.ok (), c) := rfl
  have hclock : (if u.cronExpr.isSome then query c Outcomes.smooth.clock else (.ok (), c)) =
      (.ok (), c) := by
    split_ifs <;> rfl
  have hframe (cron : Option (String × ℤ)) : inFrame c (u.stmts cron .smooth) Outcomes.smooth.frame =
      (.ok 1, c.keep
        (applyUpdates u.name cron u.payload u.priority u.expiresS u.maxAttempts c.contents)) := by
    rcases runStmts_cases c frameName (u.stmts cron .smooth) c.contents with
      ⟨-, log, hstmts⟩ | ⟨e, t, log, hfail, -⟩ | ⟨e, log, habort, -⟩
    · have hsave : Transaction.exec c (.savepoint frameName) Outcomes.smooth.frame.savepoint =
          (.ok (), c.push frameName c.contents) := exec_savepoint c frameName
      have hrelease (s : Db) : Transaction.exec (c.push frameName s) (.release frameName)
          Outcomes.smooth.frame.release = (.ok (), c.keep s) := exec_release_push c frameName s
      simp only [inFrame, hsave, hstmts, hrelease, effects_stmts]
    · simp [firstFailure_smooth] at hfail
    · simp [firstFailure_smooth] at habort
  cases hcheck : u.maxAttempts.join.mapM (checkMaxAttempts "honker_scheduler_update") with
  | error e => simp [schedulerUpdateOn, schedulerUpdate, Update.check, hcheck, Except.mapError]
  | ok x =>
    have hfields : (u.cronExpr.isNone && u.payload.isNone && u.priority.isNone &&
        u.expiresS.isNone && u.maxAttempts.isNone) = !u.anyField := by
      simp [Update.anyField, Bool.not_or]
    simp only [schedulerUpdateOn, schedulerUpdate, Update.check, hcheck, hread, hquiet, hfields]
    split_ifs with hnone hany
    · simp [Except.mapError]
    · simp [Except.mapError]
    · cases hcron : u.cron next now with
      | error e =>
        have hcron' := hcron
        rw [Update.cron] at hcron'
        simp [proceed, hclock, hcron, hcron', Except.mapError]
      | ok cron =>
        have hcron' := hcron
        rw [Update.cron] at hcron'
        simp [proceed, hclock, hcron, hcron', hframe, Except.mapError]

end Contract

/-- A task with a connection in autocommit around it. -/
def registered : Conn Db :=
  .idle (upsertTask ⟨"t", "q", "@every 10s", "p", 0, none, 110, true, 3⟩ .fresh)

/-- A new payload for the task. -/
def newPayload : Update := ⟨"t", none, some "p2", none, none, none⟩

/-- The last `RELEASE`, which is the `COMMIT`, fails on a lock. -/
def lockedRelease : Outcomes :=
  { Outcomes.smooth with frame := { Pattern.smooth with release := .fail ⟨true, "database is locked"⟩ } }

/-- A `RELEASE` that fails leaves the transaction open with the new payload in it; a task that another
connection unregisters after the check is reported as updated. -/
theorem scheduler_update_leaks :
    (schedulerUpdateOn (fun _ v ↦ .ok (v + 1)) (.near 100) newPayload lockedRelease [] registered).1 =
      .error "database is locked" ∧
    (schedulerUpdateOn (fun _ v ↦ .ok (v + 1)) (.near 100) newPayload lockedRelease []
      registered).2.autocommit = false ∧
    ¬ AllOrNothing (fun _ v ↦ .ok (v + 1)) (.near 100) newPayload [] registered
      (schedulerUpdateOn (fun _ v ↦ .ok (v + 1)) (.near 100) newPayload lockedRelease [] registered) ∧
    (schedulerUpdateOn (fun _ v ↦ .ok (v + 1)) (.near 100) newPayload .smooth ["t"] registered).1 =
      .ok 1 ∧
    ¬ AllOrNothing (fun _ v ↦ .ok (v + 1)) (.near 100) newPayload ["t"] registered
      (schedulerUpdateOn (fun _ v ↦ .ok (v + 1)) (.near 100) newPayload .smooth ["t"] registered) := by
  have hopen : (schedulerUpdateOn (fun _ v ↦ .ok (v + 1)) (.near 100) newPayload lockedRelease []
      registered).2.autocommit = false := by
    decide
  have hgone : (interrupted ["t"] registered).contents.tasks.find? "t" = none := by decide
  refine ⟨by decide, hopen, fun h ↦ ?_, by decide, fun h ↦ ?_⟩
  · rcases h.nothing (by decide) with hconn | hconn
    · rw [hconn] at hopen
      cases hopen
    · rw [hconn] at hopen
      cases hopen
  · obtain ⟨db', -, happlied⟩ := h.all (by decide)
    obtain ⟨cron, t, -, ht, -⟩ := happlied.row
    cases hgone.symm.trans ht

end Honker.SchedulerUpdate
