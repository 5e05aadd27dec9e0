import Mathlib.Data.List.Basic

namespace Transaction

variable {σ : Type}

/-- A savepoint frame. `opens` marks the frame whose `SAVEPOINT` opened the transaction. -/
structure Frame (σ : Type) where
  name : String
  saved : σ
  opens : Bool

/-- A connection: in autocommit, or inside a transaction that began at the contents `base`.
The innermost frame comes first. -/
inductive Conn (σ : Type)
  | idle (contents : σ)
  | inTransaction (base contents : σ) (frames : List (Frame σ))

namespace Conn

def contents : Conn σ → σ
  | .idle s => s
  | .inTransaction _ s _ => s

def autocommit : Conn σ → Bool
  | .idle _ => true
  | .inTransaction .. => false

def frames : Conn σ → List (Frame σ)
  | .idle _ => []
  | .inTransaction _ _ fs => fs

/-- The contents every other connection sees. -/
def committed : Conn σ → σ
  | .idle s => s
  | .inTransaction b _ _ => b

/-- The whole transaction rolled back. -/
def rolledBack (c : Conn σ) : Conn σ := .idle c.committed

end Conn

inductive Stmt (σ : Type)
  | savepoint (name : String)
  | release (name : String)
  | rollbackTo (name : String)
  | rollback
  | write (f : σ → σ)

structure Failure where
  busy : Bool
  text : String

/-- How a statement ends: it succeeds, fails without effect, or fails with the whole
transaction rolled back by the database itself. -/
inductive Outcome
  | ok
  | fail (e : Failure)
  | abort (e : Failure)

def Outcome.isAbort : Outcome → Bool
  | .abort _ => true
  | _ => false

/-- The effect of a successful statement, or why it cannot be executed here. -/
def apply : Conn σ → Stmt σ → Except String (Conn σ)
  | .idle s, .savepoint n => .ok (.inTransaction s s [⟨n, s, true⟩])
  | .inTransaction b s fs, .savepoint n => .ok (.inTransaction b s (⟨n, s, false⟩ :: fs))
  | .idle _, .release n => .error ("no such savepoint: " ++ n)
  | .inTransaction b s fs, .release n =>
    match fs.dropWhile (fun f ↦ f.name ≠ n) with
    | [] => .error ("no such savepoint: " ++ n)
    | f :: rest => .ok (if f.opens then .idle s else .inTransaction b s rest)
  | .idle _, .rollbackTo n => .error ("no such savepoint: " ++ n)
  | .inTransaction b _ fs, .rollbackTo n =>
    match fs.dropWhile (fun f ↦ f.name ≠ n) with
    | [] => .error ("no such savepoint: " ++ n)
    | f :: rest => .ok (.inTransaction b f.saved (f :: rest))
  | .idle _, .rollback => .error "cannot rollback - no transaction is active"
  | .inTransaction b _ _, .rollback => .ok (.idle b)
  | .idle s, .write f => .ok (.idle (f s))
  | .inTransaction b s fs, .write f => .ok (.inTransaction b (f s) fs)

def exec (c : Conn σ) (q : Stmt σ) : Outcome → Except Failure Unit × Conn σ
  | .ok =>
    match apply c q with
    | .ok c' => (.ok (), c')
    | .error e => (.error ⟨false, e⟩, c)
  | .fail e => (.error e, c)
  | .abort e => (.error e, c.rolledBack)

/-- A statement that only reads. -/
def query (c : Conn σ) : Outcome → Except Failure Unit × Conn σ
  | .ok => (.ok (), c)
  | .fail e => (.error e, c)
  | .abort e => (.error e, c.rolledBack)

@[simp]
theorem exec_fail (c : Conn σ) (q : Stmt σ) (e : Failure) : exec c q (.fail e) = (.error e, c) := rfl

@[simp]
theorem exec_abort (c : Conn σ) (q : Stmt σ) (e : Failure) :
    exec c q (.abort e) = (.error e, c.rolledBack) := rfl

/-- A connection with one frame more than `c`: what `SAVEPOINT` leaves, with contents `s`. -/
def Conn.push (c : Conn σ) (n : String) (s : σ) : Conn σ :=
  .inTransaction c.committed s (⟨n, c.contents, c.autocommit⟩ :: c.frames)

@[simp]
theorem exec_savepoint (c : Conn σ) (n : String) :
    exec c (.savepoint n) .ok = (.ok (), c.push n c.contents) := by cases c <;> rfl

@[simp]
theorem exec_write_push (c : Conn σ) (n : String) (s : σ) (f : σ → σ) :
    exec (c.push n s) (.write f) .ok = (.ok (), c.push n (f s)) := rfl

/-- Releasing the frame on top keeps its contents; it is the commit when the frame opened
the transaction. -/
def Conn.keep : Conn σ → σ → Conn σ
  | .idle _, s => .idle s
  | .inTransaction b _ fs, s => .inTransaction b s fs

@[simp]
theorem exec_release_push (c : Conn σ) (n : String) (s : σ) :
    exec (c.push n s) (.release n) .ok = (.ok (), c.keep s) := by
  cases c <;> simp [exec, apply, Conn.push, Conn.autocommit, Conn.keep, Conn.frames, Conn.committed]

@[simp]
theorem exec_rollbackTo_push (c : Conn σ) (n : String) (s : σ) :
    exec (c.push n s) (.rollbackTo n) .ok = (.ok (), c.push n c.contents) := by
  simp [exec, apply, Conn.push]

@[simp]
theorem exec_rollback_push (c : Conn σ) (n : String) (s : σ) :
    exec (c.push n s) .rollback .ok = (.ok (), c.rolledBack) := rfl

@[simp]
theorem Conn.keep_contents (c : Conn σ) : c.keep c.contents = c := by cases c <;> rfl

@[simp]
theorem Conn.rolledBack_push (c : Conn σ) (n : String) (s : σ) :
    (c.push n s).rolledBack = c.rolledBack := rfl

@[simp]
theorem Conn.autocommit_push (c : Conn σ) (n : String) (s : σ) : (c.push n s).autocommit = false := rfl

@[simp]
theorem Conn.autocommit_rolledBack (c : Conn σ) : c.rolledBack.autocommit = true := rfl

@[simp]
theorem Conn.autocommit_keep (c : Conn σ) (s : σ) : (c.keep s).autocommit = c.autocommit := by
  cases c <;> rfl

theorem Conn.rolledBack_of_autocommit {c : Conn σ} (h : c.autocommit = true) : c.rolledBack = c := by
  cases c with
  | idle => rfl
  | inTransaction => cases h

@[simp]
theorem Conn.contents_keep (c : Conn σ) (s : σ) : (c.keep s).contents = s := by cases c <;> rfl

theorem Conn.push_ne (c : Conn σ) (n : String) (s : σ) : c.push n s ≠ c := by
  intro h
  cases c with
  | idle => cases h
  | inTransaction b t fs => simpa [push, frames] using congrArg (fun c ↦ c.frames.length) h

theorem Conn.rolledBack_eq_iff {c : Conn σ} : c.rolledBack = c ↔ c.autocommit = true := by
  cases c with
  | idle s => exact iff_of_true rfl rfl
  | inTransaction b s fs => exact iff_of_false (fun h ↦ by cases h) (fun h ↦ by cases h)

section Blocks

/-- `BEGIN IMMEDIATE`. -/
def beginImmediate (c : Conn σ) : Outcome → Except Failure Unit × Conn σ
  | .ok =>
    match c with
    | .idle s => (.ok (), .inTransaction s s [])
    | .inTransaction .. => (.error ⟨false, "cannot start a transaction within a transaction"⟩, c)
  | .fail e => (.error e, c)
  | .abort e => (.error e, c.rolledBack)

/-- `COMMIT`. -/
def commit (c : Conn σ) : Outcome → Except Failure Unit × Conn σ
  | .ok =>
    match c with
    | .idle _ => (.error ⟨false, "cannot commit - no transaction is active"⟩, c)
    | .inTransaction _ s _ => (.ok (), .idle s)
  | .fail e => (.error e, c)
  | .abort e => (.error e, c.rolledBack)

@[simp]
theorem committed_rolledBack (c : Conn σ) : c.rolledBack.committed = c.committed := rfl

@[simp]
theorem committed_rollback (c : Conn σ) (o : Outcome) :
    (exec c .rollback o).2.committed = c.committed := by
  cases o <;> cases c <;> rfl

/-- A `ROLLBACK` ends the transaction unless it fails without effect. -/
theorem autocommit_rollback (c : Conn σ) {o : Outcome} (h : ∀ e, o ≠ .fail e) :
    (exec c .rollback o).2.autocommit = true := by
  cases o with
  | ok => cases c <;> rfl
  | fail e => exact absurd rfl (h e)
  | abort e => rfl

@[simp]
theorem committed_beginImmediate (c : Conn σ) (o : Outcome) :
    (beginImmediate c o).2.committed = c.committed := by
  cases o <;> cases c <;> rfl

theorem beginImmediate_ok {c c' : Conn σ} {o : Outcome} (h : beginImmediate c o = (.ok (), c')) :
    c = .idle c.committed ∧ c' = .inTransaction c.committed c.committed [] := by
  cases o with
  | ok =>
    cases c with
    | idle s =>
      cases h
      exact ⟨rfl, rfl⟩
    | inTransaction => cases h
  | fail e => cases h
  | abort e => cases h

theorem beginImmediate_error {c c' : Conn σ} {o : Outcome} {e : Failure}
    (h : beginImmediate c o = (.error e, c')) : c' = c ∨ c' = c.rolledBack := by
  cases o with
  | ok =>
    cases c with
    | idle s => cases h
    | inTransaction =>
      cases h
      exact Or.inl rfl
  | fail e =>
    cases h
    exact Or.inl rfl
  | abort e =>
    cases h
    exact Or.inr rfl

theorem commit_ok {c c' : Conn σ} {o : Outcome} (h : commit c o = (.ok (), c')) :
    c.autocommit = false ∧ c' = .idle c.contents := by
  cases o with
  | ok =>
    cases c with
    | idle s => cases h
    | inTransaction =>
      cases h
      exact ⟨rfl, rfl⟩
  | fail e => cases h
  | abort e => cases h

theorem commit_error {c c' : Conn σ} {o : Outcome} {e : Failure} (h : commit c o = (.error e, c')) :
    c' = c ∨ c' = c.rolledBack := by
  cases o with
  | ok =>
    cases c with
    | idle s =>
      cases h
      exact Or.inl rfl
    | inTransaction => cases h
  | fail e =>
    cases h
    exact Or.inl rfl
  | abort e =>
    cases h
    exact Or.inr rfl

end Blocks

end Transaction
