import Honker.Library.Transaction
import Honker.Schema
import Mathlib.Tactic.Common

namespace Honker.Savepoint

open Transaction

variable {σ α : Type}

/-- How a body ends once its statements have run. -/
inductive Ending (α : Type)
  | value (a : α)
  | error (text : String)
  | panic

/-- A body: its write statements with the outcome of each, and how it ends when they all
succeed. At the first failing statement it stops, with that error or with a panic. -/
structure Body (σ α : Type) where
  stmts : List ((σ → σ) × Outcome)
  ending : Ending α
  panicsOnFailure : Bool

/-- The outcomes of the statements `in_savepoint` issues itself. -/
structure Pattern where
  savepoint : Outcome
  release : Outcome
  undoRollbackTo : Outcome
  undoRelease : Outcome
  undoRollback : Outcome

/-- What the caller of `in_savepoint` gets: a value, an error, or an unwinding panic with what
the drop guard printed. -/
inductive Result (α : Type)
  | ok (a : α)
  | err (text : String)
  | unwound (printed : Option String)

/-- A statement sent to SQLite, with its outcome. -/
structure Issued (σ : Type) where
  stmt : Stmt σ
  outcome : Outcome

def runStmts (c : Conn σ) : List ((σ → σ) × Outcome) → Except Failure Unit × Conn σ × List (Issued σ)
  | [] => (.ok (), c, [])
  | (f, o) :: rest =>
    match exec c (.write f) o with
    | (.ok (), c') =>
      let (r, c'', log) := runStmts c' rest
      (r, c'', ⟨.write f, o⟩ :: log)
    | (.error e, c') => (.error e, c', [⟨.write f, o⟩])

def Body.run (b : Body σ α) (c : Conn σ) : Ending α × Conn σ × List (Issued σ) :=
  match runStmts c b.stmts with
  | (.ok (), c', log) => (b.ending, c', log)
  | (.error e, c', log) => (if b.panicsOnFailure then .panic else .error e.text, c', log)

def savepointError (name : String) (e : Failure) : String :=
  if e.busy && e.text == "cannot open savepoint - SQL statements in progress" then
    e.text ++ "; honker: " ++ name ++ " requires a separate SELECT after you " ++
      "finish all write/RETURNING cursors; do not call it from a trigger " ++
      "or write statement. An explicit surrounding transaction is supported"
  else e.text

/-- `ROLLBACK TO SAVEPOINT name; RELEASE SAVEPOINT name`, one batch. -/
def undoBatch (c : Conn σ) (name : String) (p : Pattern) :
    Except Failure Unit × Conn σ × List (Issued σ) :=
  match exec c (.rollbackTo name) p.undoRollbackTo with
  | (.error e, c') => (.error e, c', [⟨.rollbackTo name, p.undoRollbackTo⟩])
  | (.ok (), c') =>
    let (r, c'') := exec c' (.release name) p.undoRelease
    (r, c'', [⟨.rollbackTo name, p.undoRollbackTo⟩, ⟨.release name, p.undoRelease⟩])

def undoSavepointFrame (c : Conn σ) (name : String) (ownsTransaction : Bool) (p : Pattern) :
    List String × Conn σ × List (Issued σ) :=
  if c.autocommit then ([], c, [])
  else
    let (r, c', log) := undoBatch c name p
    let failures := match r with
      | .ok () => []
      | .error e => ["ROLLBACK TO SAVEPOINT " ++ name ++ " failed: " ++ e.text]
    if ownsTransaction && !c'.autocommit then
      match exec c' .rollback p.undoRollback with
      | (.ok (), c'') => ([], c'', log ++ [⟨.rollback, p.undoRollback⟩])
      | (.error e, c'') =>
        (failures ++ ["ROLLBACK failed: " ++ e.text], c'', log ++ [⟨.rollback, p.undoRollback⟩])
    else (failures, c', log)

def undoSavepoint (c : Conn σ) (name : String) (ownsTransaction : Bool) (p : Pattern)
    (cause : String) : String × Conn σ × List (Issued σ) :=
  let (failures, c', log) := undoSavepointFrame c name ownsTransaction p
  if failures.isEmpty then (cause, c', log)
  else (cause ++ "; additionally, undoing SAVEPOINT " ++ name ++ " left the connection in an " ++
    "unknown state" ++ ": " ++ "; ".intercalate failures, c', log)

/-- The drop guard of a body that unwinds. -/
def unwindUndo (c : Conn σ) (name : String) (ownsTransaction : Bool) (p : Pattern) :
    Option String × Conn σ × List (Issued σ) :=
  let (failures, c', log) := undoSavepointFrame c name ownsTransaction p
  if failures.isEmpty then (none, c', log)
  else (some ("honker: error: undoing SAVEPOINT " ++ name ++ " after a panic left the " ++
    "connection in an " ++ "unknown state" ++ ": " ++ "; ".intercalate failures), c', log)

/-- The tail of `in_savepoint` once its body has ended. -/
def settle (c : Conn σ) (name : String) (ownsTransaction : Bool) (p : Pattern) :
    Ending α → Result α × Conn σ × List (Issued σ)
  | .value a =>
    match exec c (.release name) p.release with
    | (.ok (), c') => (.ok a, c', [⟨.release name, p.release⟩])
    | (.error e, c') =>
      let (text, c'', log) := undoSavepoint c' name ownsTransaction p e.text
      (.err text, c'', ⟨.release name, p.release⟩ :: log)
  | .error cause =>
    let (text, c', log) := undoSavepoint c name ownsTransaction p cause
    (.err text, c', log)
  | .panic =>
    let (printed, c', log) := unwindUndo c name ownsTransaction p
    (.unwound printed, c', log)

/-- `in_savepoint`, with the connection it leaves and the statements it issued. -/
def inSavepoint (c : Conn σ) (name : String) (b : Body σ α) (p : Pattern) :
    Result α × Conn σ × List (Issued σ) :=
  let ownsTransaction := c.autocommit
  match exec c (.savepoint name) p.savepoint with
  | (.error e, c₁) => (.err (savepointError name e), c₁, [⟨.savepoint name, p.savepoint⟩])
  | (.ok (), c₁) =>
    let (ending, c₂, log) := b.run c₁
    let (r, c₃, log') := settle c₂ name ownsTransaction p ending
    (r, c₃, ⟨.savepoint name, p.savepoint⟩ :: log ++ log')

/-- The contents after the first statements of a body. -/
def effects (qs : List ((σ → σ) × Outcome)) (s : σ) : σ := qs.foldl (fun s q ↦ q.1 s) s

def Writes (log : List (Issued σ)) : Prop := ∀ i ∈ log, ∃ f, i.stmt = .write f

def NoRollback (log : List (Issued σ)) : Prop := ∀ i ∈ log, i.stmt ≠ .rollback

def Aborted (log : List (Issued σ)) : Prop := ∃ i ∈ log, i.outcome.isAbort = true

/-- After the statements of a body: they all succeeded, one failed and its predecessors stay, or
SQLite rolled the transaction back. -/
inductive AfterStmts (c : Conn σ) (n : String) (qs : List ((σ → σ) × Outcome)) (s : σ) :
    Except Failure Unit × Conn σ × List (Issued σ) → Prop
  | done (log : List (Issued σ)) (hw : Writes log) :
      AfterStmts c n qs s (.ok (), c.push n (effects qs s), log)
  | failed (e : Failure) (k : ℕ) (log : List (Issued σ)) (hw : Writes log) :
      AfterStmts c n qs s (.error e, c.push n (effects (qs.take k) s), log)
  | aborted (e : Failure) (log : List (Issued σ)) (hw : Writes log) (ha : Aborted log) :
      AfterStmts c n qs s (.error e, c.rolledBack, log)

theorem Writes.cons {f : σ → σ} {o : Outcome} {log : List (Issued σ)} (h : Writes log) :
    Writes (⟨.write f, o⟩ :: log) := by
  intro i hi
  rcases List.mem_cons.mp hi with rfl | hi
  · exact ⟨f, rfl⟩
  · exact h i hi

theorem runStmts_push (c : Conn σ) (n : String) (qs : List ((σ → σ) × Outcome)) (s : σ) :
    AfterStmts c n qs s (runStmts (c.push n s) qs) := by
  have hnil : Writes ([] : List (Issued σ)) := by simp [Writes]
  induction qs generalizing s with
  | nil => exact .done [] hnil
  | cons q qs ih =>
    obtain ⟨f, o⟩ := q
    cases o with
    | ok =>
      have h := ih (f s)
      simp only [runStmts, exec_write_push]
      generalize runStmts (c.push n (f s)) qs = out at h
      cases h with
      | done log hw => exact .done _ hw.cons
      | failed e k log hw => exact .failed e (k + 1) _ hw.cons
      | aborted e log hw ha =>
        obtain ⟨i, hi, ha⟩ := ha
        exact .aborted e _ hw.cons ⟨i, List.mem_cons_of_mem _ hi, ha⟩
    | fail e => exact .failed e 0 _ hnil.cons
    | abort e => exact .aborted e _ hnil.cons ⟨_, List.mem_singleton_self _, rfl⟩

/-- What an undo of the frame `n` over `c`, found with contents `s`, may leave. -/
structure Undone (c : Conn σ) (n : String) (s : σ) (failed : Prop) (c' : Conn σ)
    (log : List (Issued σ)) : Prop where
  restored : ¬ failed → c' = c
  noRollback : c.autocommit = false → NoRollback log
  above : c' = c ∨ c' = c.push n s ∨ c' = c.push n c.contents ∨ (c' = c.rolledBack ∧ Aborted log)

theorem undoSavepointFrame_push (c : Conn σ) (n : String) (s : σ) (p : Pattern) :
    let u := undoSavepointFrame (c.push n s) n c.autocommit p
    Undone c n s (u.1 ≠ []) u.2.1 u.2.2 := by
  obtain ⟨_, _, o₁, o₂, o₃⟩ := p
  cases hc : c.autocommit with
  | false =>
    cases o₁ <;> cases o₂ <;>
      exact ⟨by simp [undoSavepointFrame, undoBatch],
        by simp [undoSavepointFrame, undoBatch, NoRollback],
        by simp [undoSavepointFrame, undoBatch, Aborted, Outcome.isAbort]⟩
  | true =>
    have hr := Conn.rolledBack_of_autocommit hc
    cases o₁ <;> cases o₂ <;> cases o₃ <;>
      exact ⟨by simp [undoSavepointFrame, undoBatch, hc, hr], by simp [hc],
        by simp [undoSavepointFrame, undoBatch, hc, hr]⟩

def MentionsUnknownState (text : String) : Prop := ∃ a b, text = a ++ "unknown state" ++ b

theorem undoSavepoint_eq (c : Conn σ) (n : String) (owns : Bool) (p : Pattern) (cause : String) :
    (undoSavepoint c n owns p cause).2 = (undoSavepointFrame c n owns p).2 ∧
    ((undoSavepointFrame c n owns p).1 = [] ∨
      MentionsUnknownState (undoSavepoint c n owns p cause).1) := by
  unfold undoSavepoint
  generalize undoSavepointFrame c n owns p = u
  obtain ⟨failures, c', log⟩ := u
  cases failures with
  | nil => exact ⟨rfl, Or.inl rfl⟩
  | cons f fs =>
    refine ⟨rfl, Or.inr ⟨cause ++ "; additionally, undoing SAVEPOINT " ++ n ++
      " left the connection in an ", ": " ++ "; ".intercalate (f :: fs), ?_⟩⟩
    simp only [List.isEmpty_cons, Bool.false_eq_true, if_false, String.append_assoc]

theorem unwindUndo_eq (c : Conn σ) (n : String) (owns : Bool) (p : Pattern) :
    (unwindUndo c n owns p).2 = (undoSavepointFrame c n owns p).2 ∧
    ((undoSavepointFrame c n owns p).1 = [] ∨
      ∃ text, (unwindUndo c n owns p).1 = some text ∧ MentionsUnknownState text) := by
  unfold unwindUndo
  generalize undoSavepointFrame c n owns p = u
  obtain ⟨failures, c', log⟩ := u
  cases failures with
  | nil => exact ⟨rfl, Or.inl rfl⟩
  | cons f fs =>
    refine ⟨rfl, Or.inr ⟨_, rfl, "honker: error: undoing SAVEPOINT " ++ n ++
      " after a panic left the " ++ "connection in an ", ": " ++ "; ".intercalate (f :: fs), ?_⟩⟩
    simp only [String.append_assoc]

/-- What a call of `in_savepoint` may do to the connection `c` of its caller. -/
structure Atomic (c : Conn σ) (b : Body σ α) (r : Result α) (c' : Conn σ) (log : List (Issued σ)) :
    Prop where
  ok : ∀ a, r = .ok a → b.ending = .value a ∧ c'.contents = effects b.stmts c.contents ∧
    c'.frames = c.frames ∧ c'.autocommit = c.autocommit ∧ c' = c.keep (effects b.stmts c.contents)
  err : ∀ text, r = .err text → ¬ MentionsUnknownState text →
    c' = c ∨ (c.autocommit = false ∧ Aborted log ∧ c' = c.rolledBack)
  unwound : ∀ printed, r = .unwound printed → (∀ text ∈ printed, ¬ MentionsUnknownState text) →
    c' = c ∨ (c.autocommit = false ∧ Aborted log ∧ c' = c.rolledBack)
  outerKept : c.autocommit = false → NoRollback log ∧
    ((Aborted log ∧ c' = c.rolledBack) ∨
      (c'.autocommit = false ∧ c'.committed = c.committed ∧ c.frames <:+ c'.frames ∧
        ∃ k, c'.contents = effects (b.stmts.take k) c.contents))
  notCommitted : c.autocommit = true → (∀ a, r ≠ .ok a) → c'.committed = c.contents

theorem Aborted.append_right {log log' : List (Issued σ)} (h : Aborted log') :
    Aborted (log ++ log') := by
  obtain ⟨i, hi, ha⟩ := h
  exact ⟨i, List.mem_append_right _ hi, ha⟩

/-- A connection above `c`: what is left of the call besides a rollback by SQLite. -/
theorem above_kept {c c' : Conn σ} {n : String} {b : Body σ α} {k : ℕ}
    (hc : c.autocommit = false)
    (h : c' = c ∨ c' = c.push n (effects (b.stmts.take k) c.contents) ∨ c' = c.push n c.contents) :
    c'.autocommit = false ∧ c'.committed = c.committed ∧ c.frames <:+ c'.frames ∧
      ∃ k, c'.contents = effects (b.stmts.take k) c.contents := by
  rcases h with rfl | rfl | rfl
  · exact ⟨hc, rfl, List.suffix_rfl, 0, rfl⟩
  · exact ⟨rfl, rfl, List.suffix_cons _ _, k, rfl⟩
  · exact ⟨rfl, rfl, List.suffix_cons _ _, 0, rfl⟩

theorem atomic_of_undone {c c' : Conn σ} {n : String} {b : Body σ α} {k : ℕ} {r : Result α}
    {log log' : List (Issued σ)} {failed : Prop} (hlog : NoRollback log)
    (hu : Undone c n (effects (b.stmts.take k) c.contents) failed c' log') (hr : ∀ a, r ≠ .ok a)
    (herr : ¬ failed ∨ (∃ text, r = .err text ∧ MentionsUnknownState text) ∨
      ∃ text, r = .unwound (some text) ∧ MentionsUnknownState text) :
    Atomic c b r c' (log ++ log') where
  ok a h := absurd h (hr a)
  err text h ht := by
    rcases herr with hf | ⟨text', h', ht'⟩ | ⟨text', h', ht'⟩
    · exact Or.inl (hu.restored hf)
    · rw [h] at h'
      cases h'
      exact absurd ht' ht
    · rw [h] at h'
      cases h'
  unwound printed h ht := by
    rcases herr with hf | ⟨text', h', ht'⟩ | ⟨text', h', ht'⟩
    · exact Or.inl (hu.restored hf)
    · rw [h] at h'
      cases h'
    · rw [h] at h'
      cases h'
      exact absurd ht' (ht text' rfl)
  outerKept hc := by
    refine ⟨fun i hi ↦ ?_, ?_⟩
    · rcases List.mem_append.mp hi with hi | hi
      · exact hlog i hi
      · exact hu.noRollback hc i hi
    · rcases hu.above with h | h | h | ⟨h, ha⟩
      · exact Or.inr (above_kept (n := n) (k := k) hc (Or.inl h))
      · exact Or.inr (above_kept hc (Or.inr (Or.inl h)))
      · exact Or.inr (above_kept (k := k) hc (Or.inr (Or.inr h)))
      · exact Or.inl ⟨ha.append_right, h⟩
  notCommitted hc _ := by
    cases c with
    | inTransaction => cases hc
    | idle s => rcases hu.above with rfl | rfl | rfl | ⟨rfl, _⟩ <;> rfl

theorem atomic_of_aborted {c : Conn σ} {b : Body σ α} {r : Result α} {log : List (Issued σ)}
    (hlog : NoRollback log) (ha : Aborted log) (hr : ∀ a, r ≠ .ok a) :
    Atomic c b r c.rolledBack log := by
  have h : c.rolledBack = c ∨ (c.autocommit = false ∧ Aborted log ∧ c.rolledBack = c.rolledBack) := by
    cases hc : c.autocommit with
    | false => exact Or.inr ⟨rfl, ha, rfl⟩
    | true => exact Or.inl (Conn.rolledBack_of_autocommit hc)
  refine ⟨fun a h ↦ absurd h (hr a), fun _ _ _ ↦ h, fun _ _ _ ↦ h,
    fun _ ↦ ⟨hlog, Or.inl ⟨ha, rfl⟩⟩, ?_⟩
  intro hc _
  rw [Conn.rolledBack_of_autocommit hc]
  cases c with
  | inTransaction => cases hc
  | idle s => rfl

theorem atomic_of_unchanged {c : Conn σ} {b : Body σ α} {r : Result α} {log : List (Issued σ)}
    (hlog : NoRollback log) (hr : ∀ a, r ≠ .ok a) : Atomic c b r c log := by
  have hu : Undone c "" (effects (b.stmts.take 0) c.contents) False c [] :=
    ⟨fun _ ↦ rfl, by simp [NoRollback], Or.inl rfl⟩
  simpa using atomic_of_undone hlog hu hr (Or.inl not_false)

theorem Writes.noRollback {log : List (Issued σ)} (h : Writes log) : NoRollback log := by
  intro i hi
  obtain ⟨f, hf⟩ := h i hi
  simp [hf]

theorem NoRollback.snoc_release {log : List (Issued σ)} (h : NoRollback log) (n : String) (o : Outcome) :
    NoRollback (log ++ [⟨.release n, o⟩]) := by
  intro i hi
  rcases List.mem_append.mp hi with hi | hi
  · exact h i hi
  · simp [List.mem_singleton.mp hi]

/-- `undo_savepoint` after a failure with the frame still in place. -/
theorem atomic_undoSavepoint (c : Conn σ) (n : String) (b : Body σ α) (k : ℕ) (p : Pattern)
    (cause : String) {log : List (Issued σ)} (hlog : NoRollback log) :
    let u := undoSavepoint (c.push n (effects (b.stmts.take k) c.contents)) n c.autocommit p cause
    Atomic c b (.err u.1) u.2.1 (log ++ u.2.2) := by
  intro u
  obtain ⟨he, hf⟩ := undoSavepoint_eq (c.push n (effects (b.stmts.take k) c.contents)) n
    c.autocommit p cause
  have hu := undoSavepointFrame_push c n (effects (b.stmts.take k) c.contents) p
  rw [show u.2 = _ from he]
  refine atomic_of_undone hlog hu (fun a ↦ by simp) ?_
  rcases hf with hf | hf
  · exact Or.inl (not_not.mpr hf)
  · exact Or.inr (Or.inl ⟨_, rfl, hf⟩)

theorem atomic_unwindUndo (c : Conn σ) (n : String) (b : Body σ α) (k : ℕ) (p : Pattern)
    {log : List (Issued σ)} (hlog : NoRollback log) :
    let u := unwindUndo (c.push n (effects (b.stmts.take k) c.contents)) n c.autocommit p
    Atomic c b (.unwound u.1) u.2.1 (log ++ u.2.2) := by
  intro u
  obtain ⟨he, hf⟩ := unwindUndo_eq (c.push n (effects (b.stmts.take k) c.contents)) n c.autocommit p
  have hu := undoSavepointFrame_push c n (effects (b.stmts.take k) c.contents) p
  rw [show u.2 = _ from he]
  refine atomic_of_undone hlog hu (fun a ↦ by simp) ?_
  rcases hf with hf | ⟨text, ht, hf⟩
  · exact Or.inl (not_not.mpr hf)
  · exact Or.inr (Or.inr ⟨text, congrArg Result.unwound ht, hf⟩)

theorem atomic_of_release (c : Conn σ) (n : String) (b : Body σ α) (a : α) (o : Outcome)
    (hb : b.ending = .value a) {log : List (Issued σ)} (hlog : NoRollback log) :
    Atomic c b (.ok a) (c.keep (effects b.stmts c.contents)) (log ++ [⟨.release n, o⟩]) where
  ok a' h := by
    cases h
    refine ⟨hb, ?_, ?_, Conn.autocommit_keep c _, rfl⟩ <;> cases c <;> rfl
  err _ h := by cases h
  unwound _ h := by cases h
  outerKept hc := by
    refine ⟨hlog.snoc_release n o, Or.inr ?_⟩
    cases c with
    | idle => cases hc
    | inTransaction => exact ⟨rfl, rfl, List.suffix_rfl, b.stmts.length, by rw [List.take_length]; rfl⟩
  notCommitted _ h := absurd rfl (h a)

theorem atomic_settle (c : Conn σ) (n : String) (b : Body σ α) (k : ℕ) (p : Pattern)
    (ending : Ending α)
    (hv : ∀ a, ending = .value a → b.ending = .value a ∧ b.stmts.take k = b.stmts)
    {log : List (Issued σ)} (hlog : NoRollback log) :
    let out := settle (c.push n (effects (b.stmts.take k) c.contents)) n c.autocommit p ending
    Atomic c b out.1 out.2.1 (log ++ out.2.2) := by
  cases ending with
  | error cause => exact atomic_undoSavepoint c n b k p cause hlog
  | panic => exact atomic_unwindUndo c n b k p hlog
  | value a =>
    obtain ⟨hb, hk⟩ := hv a rfl
    cases hr : p.release with
    | ok =>
      simp only [settle, hr, exec_release_push, hk]
      exact atomic_of_release c n b a .ok hb hlog
    | fail e =>
      simp only [settle, hr, exec_fail]
      have h := atomic_undoSavepoint c n b k p e.text (hlog.snoc_release n (.fail e))
      simpa only [List.append_assoc, List.singleton_append] using h
    | abort e =>
      simp only [settle, hr, exec_abort, Conn.rolledBack_push]
      exact atomic_of_aborted (hlog.snoc_release n (.abort e))
        ⟨_, List.mem_append_right _ (List.mem_singleton_self _), rfl⟩ (fun a ↦ by simp)

/-- The tail of the call after SQLite rolled the transaction back in the body. -/
theorem atomic_settle_aborted (c : Conn σ) (n : String) (b : Body σ α) (p : Pattern)
    (ending : Ending α) (hv : ∀ a, ending ≠ .value a)
    {log : List (Issued σ)} (hlog : NoRollback log) (ha : Aborted log) :
    let out := settle c.rolledBack n c.autocommit p ending
    Atomic c b out.1 out.2.1 (log ++ out.2.2) := by
  cases ending with
  | value a => exact absurd rfl (hv a)
  | error cause =>
    simpa [settle, undoSavepoint, undoSavepointFrame] using
      atomic_of_aborted (b := b) hlog ha (fun a ↦ by simp : ∀ a, Result.err cause ≠ Result.ok a)
  | panic =>
    simpa [settle, unwindUndo, undoSavepointFrame] using
      atomic_of_aborted (b := b) hlog ha (fun a ↦ by simp : ∀ a, Result.unwound none ≠ Result.ok a)

theorem atomic_inSavepoint (c : Conn σ) (name : String) (b : Body σ α) (p : Pattern) :
    let out := inSavepoint c name b p
    Atomic c b out.1 out.2.1 out.2.2 := by
  have hsave (o : Outcome) : NoRollback [(⟨.savepoint name, o⟩ : Issued σ)] := by simp [NoRollback]
  cases hs : p.savepoint with
  | fail e =>
    simp only [inSavepoint, hs, exec_fail]
    exact atomic_of_unchanged (hsave _) (fun a ↦ by simp)
  | abort e =>
    simp only [inSavepoint, hs, exec_abort]
    exact atomic_of_aborted (hsave _) ⟨_, List.mem_singleton_self _, rfl⟩ (fun a ↦ by simp)
  | ok =>
    have hrun := runStmts_push c name b.stmts c.contents
    simp only [inSavepoint, hs, exec_savepoint, Body.run]
    generalize runStmts (c.push name c.contents) b.stmts = out at hrun
    have hlog {log : List (Issued σ)} (hw : Writes log) :
        NoRollback ((⟨.savepoint name, .ok⟩ : Issued σ) :: log) := by
      intro i hi
      rcases List.mem_cons.mp hi with rfl | hi
      · simp
      · exact hw.noRollback i hi
    cases hrun with
    | done log hw =>
      have h := atomic_settle c name b b.stmts.length p b.ending
        (fun a ha ↦ ⟨ha, List.take_length⟩) (hlog hw)
      rw [List.take_length] at h
      exact h
    | failed e k log hw =>
      refine atomic_settle c name b k p _ (fun a ha ↦ ?_) (hlog hw)
      split_ifs at ha
    | aborted e log hw ha =>
      obtain ⟨i, hi, ha⟩ := ha
      refine atomic_settle_aborted c name b p _ (fun a ha ↦ ?_) (hlog hw)
        ⟨i, List.mem_cons_of_mem _ hi, ha⟩
      split_ifs at ha

theorem runStmts_ok_iff (c : Conn σ) (n : String) (s : σ) (qs : List ((σ → σ) × Outcome)) :
    (runStmts (c.push n s) qs).1 = .ok () ↔ ∀ q ∈ qs, q.2 = .ok := by
  induction qs generalizing s with
  | nil => simp [runStmts]
  | cons q qs ih =>
    obtain ⟨f, o⟩ := q
    cases o with
    | ok =>
      simp only [runStmts, exec_write_push, List.forall_mem_cons, true_and]
      exact ih (f s)
    | fail e => simp [runStmts]
    | abort e => simp [runStmts]

/-- A call of `in_savepoint` on a body that ends in a value succeeds exactly when no statement of it
fails. -/
theorem inSavepoint_ok_iff (c : Conn σ) (name : String) {b : Body σ α} {a : α} (hb : b.ending = .value a)
    (p : Pattern) : (inSavepoint c name b p).1 = .ok a ↔
      p.savepoint = .ok ∧ (∀ q ∈ b.stmts, q.2 = .ok) ∧ p.release = .ok := by
  cases hs : p.savepoint with
  | fail e => simp [inSavepoint, hs]
  | abort e => simp [inSavepoint, hs]
  | ok =>
    have hiff := runStmts_ok_iff c name c.contents b.stmts
    have hrun := runStmts_push c name b.stmts c.contents
    simp only [inSavepoint, hs, exec_savepoint, Body.run, true_and]
    generalize runStmts (c.push name c.contents) b.stmts = out at hiff hrun
    cases hrun with
    | done log hw =>
      have hall := hiff.mp rfl
      cases hr : p.release with
      | ok => simpa [settle, hb, hr] using hall
      | fail e => simp [settle, hb, hr]
      | abort e => simp [settle, hb, hr]
    | failed e k log hw =>
      have hnot : ¬ ∀ q ∈ b.stmts, q.2 = .ok := fun hall ↦ by simpa using hiff.mpr hall
      refine iff_of_false ?_ fun h ↦ hnot h.1
      dsimp only
      split_ifs <;> simp [settle]
    | aborted e log hw ha =>
      have hnot : ¬ ∀ q ∈ b.stmts, q.2 = .ok := fun hall ↦ by simpa using hiff.mpr hall
      refine iff_of_false ?_ fun h ↦ hnot h.1
      dsimp only
      split_ifs <;> simp [settle]

/-- Every call of `in_savepoint`, on every connection, for every body and every pattern of
outcomes of the statements it issues, is atomic; and on a body that ends in a value it succeeds if and
only if none of its statements fails. -/
theorem in_savepoint_atomic (c : Conn σ) (name : String) (b : Body σ α) (p : Pattern) :
    let out := inSavepoint c name b p
    Atomic c b out.1 out.2.1 out.2.2 ∧
      ∀ a, b.ending = .value a →
        (out.1 = .ok a ↔ p.savepoint = .ok ∧ (∀ q ∈ b.stmts, q.2 = .ok) ∧ p.release = .ok) :=
  ⟨atomic_inSavepoint c name b p, fun _ hb ↦ inSavepoint_ok_iff c name hb p⟩

section Contract

/-- None of the statements that `in_savepoint` issues itself fails. -/
def Pattern.smooth : Pattern := ⟨.ok, .ok, .ok, .ok, .ok⟩

/-- The body `b`, run inside the frame `name` over `c`, computes `x` from the tables. -/
def Computes (c : Conn Db) (name : String) (b : Body Db α) : Except SqlError (α × Db) → Prop
  | .ok (a, db) => ∃ log, b.run (c.push name c.contents) = (.value a, c.push name db, log)
  | .error e => ∃ db log, b.run (c.push name c.contents) = (.error e.text, c.push name db, log)

def Result.of : Except SqlError α → Result α
  | .ok a => .ok a
  | .error e => .err e.text

theorem undoSavepoint_smooth (c : Conn σ) (n : String) (s : σ) (cause : String) :
    ∃ log, undoSavepoint (c.push n s) n c.autocommit Pattern.smooth cause = (cause, c, log) := by
  simp [undoSavepoint, undoSavepointFrame, undoBatch, Pattern.smooth]

/-- For the tables a call of `in_savepoint` is `atomically`, also inside a caller's transaction. -/
theorem inSavepoint_atomically {c : Conn Db} {name : String} {b : Body Db α}
    {x : Except SqlError (α × Db)} (h : Computes c name b x) :
    (inSavepoint c name b Pattern.smooth).1 = .of (atomically c.contents x).1 ∧
      (inSavepoint c name b Pattern.smooth).2.1 = c.keep (atomically c.contents x).2 := by
  have hsave : exec c (.savepoint name) Pattern.smooth.savepoint =
      (.ok (), c.push name c.contents) := exec_savepoint c name
  cases x with
  | ok y =>
    obtain ⟨a, db⟩ := y
    obtain ⟨log, hrun⟩ := h
    have hrelease : exec (c.push name db) (.release name) Pattern.smooth.release =
        (.ok (), c.keep db) := exec_release_push c name db
    simp [inSavepoint, hsave, hrun, settle, hrelease, atomically, Result.of]
  | error e =>
    obtain ⟨db, log, hrun⟩ := h
    obtain ⟨log', hundo⟩ := undoSavepoint_smooth c name db e.text
    simp [inSavepoint, hsave, hrun, settle, hundo, atomically, Result.of]

end Contract

end Honker.Savepoint
