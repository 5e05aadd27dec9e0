import Honker.ShmRegistry

namespace Honker.Shm

open FileSystem Transition

section Model

/-- What `read_wal_index_header` gives of the twelve bytes. -/
structure Header where
  version : ℕ
  iChange : ℕ
deriving DecidableEq

def walindexMaxVersion : ℕ := 3007000

/-- `f`, `initial_shm_id` and `last`. -/
structure Vars where
  file : Fd
  shmId : Id
  last : ℕ
deriving DecidableEq

/-- Who has called `reopen_shm_header`. `dbStatErr` is what `check_db_identity` has returned. -/
inductive Caller
  | initial (tries : ℕ)
  | unreadable (vars : Vars)
  | replaced (vars : Vars) (dbStatErr : Bool)
deriving DecidableEq

/-- Where a watcher thread is. -/
inductive Phase
  | off
  | waiting (tries : ℕ)
  | acquiring (caller : Caller)
  | acquired (caller : Caller) (file : Fd)
  | headed (caller : Caller) (file : Fd) (header : Header)
  | looping (vars : Vars)
  -- the header has been read in this turn of the loop
  | polled (vars : Vars)
deriving DecidableEq

structure Sys where
  reg : Process
  phases : ℕ → Phase

/-- How the check of the database file itself ends. -/
inductive DbCheck
  | same
  | error
  | replaced
deriving DecidableEq

/-- Steps of the watcher threads, and steps of `acquire_shm_fd` and of the file system. A header is
missing when its read fails, and a flag says whether a stat succeeds. -/
inductive Turn
  | start (t : ℕ)
  | registry (a : Act)
  | attempt (t : ℕ) (stop : Bool)
  | readHeader (t : ℕ) (header : Option Header)
  | takeIdentity (t : ℕ) (ok : Bool)
  | poll (t : ℕ) (header : Option Header)
  | check (t : ℕ) (due : Bool) (db : DbCheck) (ok : Bool)
  | stop (t : ℕ)
deriving DecidableEq

inductive Signal
  -- `reopen_shm_header` gives its snapshot
  | reopened (t : ℕ) (file : Fd) (id : Id)
  | changed (t : ℕ)
deriving DecidableEq

namespace Sys

def start : Sys := ⟨Process.start, fun _ ↦ .off⟩

def goto (s : Sys) (t : ℕ) (phase : Phase) : Sys :=
  { s with phases := Function.update s.phases t phase }

/-- A thread drops one of its `Arc`s. -/
def drop (s : Sys) (t : ℕ) (f : Fd) : Sys := { s with reg := (step s.reg (.release t f)).2 }

/-- `if db_stat_err { on_change(); }` -/
def dbWake (t : ℕ) (dbStatErr : Bool) : List Signal := if dbStatErr then [.changed t] else []

/-- `reopen_shm_header` has returned nothing: the loop goes on with what it has. -/
def giveUp (s : Sys) (t : ℕ) : Caller → List Signal × Sys
  | .initial tries => ([], s.goto t (.waiting (tries + 1)))
  | .unreadable vars => ([.changed t], s.goto t (.looping vars))
  | .replaced vars dbStatErr => (.changed t :: dbWake t dbStatErr, s.goto t (.looping vars))

/-- `reopen_shm_header` has returned a snapshot. -/
def finish (s : Sys) (t : ℕ) (file : Fd) (header : Header) (id : Id) : Caller → List Signal × Sys
  | .initial _ =>
    if header.version = walindexMaxVersion then
      ([.reopened t file id], s.goto t (.looping ⟨file, id, header.iChange⟩))
    else ([.reopened t file id], (s.goto t .off).drop t file)
  | .unreadable vars =>
    ([.reopened t file id, .changed t],
      (s.goto t (.looping ⟨file, id, header.iChange⟩)).drop t vars.file)
  | .replaced vars dbStatErr =>
    (.reopened t file id :: .changed t :: dbWake t dbStatErr,
      (s.goto t (.looping ⟨file, id, header.iChange⟩)).drop t vars.file)

/-- What becomes of a thread that waits for `acquire_shm_fd`. -/
def receive (s : Sys) : Option Out → List Signal × Sys
  | some (.returned t _ f) =>
    match s.phases t with
    | .acquiring caller => ([], s.goto t (.acquired caller f))
    | _ => ([], s)
  | some (.failed t) =>
    match s.phases t with
    | .acquiring caller => s.giveUp t caller
    | _ => ([], s)
  | _ => ([], s)

variable (path : ℕ → Path)

/-- A watcher calls `acquire_shm_fd` on its own path when it reopens, and drops nothing meanwhile;
threads that are no watchers (`probe`) call it as they like. -/
def permits (s : Sys) : Act → Bool
  | .stat t p _ =>
    match s.phases t with
    | .off => true
    | .acquiring _ => p = path t
    | _ => false
  | .release t _ => s.phases t = .off
  | _ => true

def identity (s : Sys) (t : ℕ) (ok : Bool) : Option Id :=
  if ok then (s.reg.disk.at? (path t)).map Inode.number else none

def checkStep (s : Sys) (t : ℕ) (vars : Vars) (db : DbCheck) (ok : Bool) : List Signal × Sys :=
  if db = .replaced then ([], (s.goto t .off).drop t vars.file)
  else
    match s.identity path t ok with
    | some id =>
      if id ≠ vars.shmId then ([], s.goto t (.acquiring (.replaced vars (db = .error))))
      else (dbWake t (db = .error), s.goto t (.looping vars))
    | none => (.changed t :: dbWake t (db = .error), s.goto t (.looping vars))

def turn (s : Sys) : Turn → List Signal × Sys
  | .start t =>
    if s.phases t = .off ∧ s.reg.calls t = .idle then ([], s.goto t (.waiting 0)) else ([], s)
  | .registry a =>
    if s.permits path a then { s with reg := (step s.reg a).2 }.receive (step s.reg a).1 else ([], s)
  | .attempt t stop =>
    match s.phases t with
    | .waiting tries =>
      if tries < 200 ∧ ¬ stop then ([], s.goto t (.acquiring (.initial tries)))
      else ([], s.goto t .off)
    | _ => ([], s)
  | .readHeader t header =>
    match s.phases t, header with
    | .acquired caller file, some header => ([], s.goto t (.headed caller file header))
    | .acquired caller file, none => (s.drop t file).giveUp t caller
    | _, _ => ([], s)
  | .takeIdentity t ok =>
    match s.phases t, s.identity path t ok with
    | .headed caller file header, some id => s.finish t file header id caller
    | .headed caller file _, none => (s.drop t file).giveUp t caller
    | _, _ => ([], s)
  | .poll t header =>
    match s.phases t, header with
    | .looping vars, some header =>
      (if header.iChange ≠ vars.last then [.changed t] else [],
        s.goto t (.polled { vars with last := header.iChange }))
    | .looping vars, none => ([], s.goto t (.acquiring (.unreadable vars)))
    | _, _ => ([], s)
  | .check t due db ok =>
    match s.phases t with
    | .polled vars =>
      if due then s.checkStep path t vars db ok else ([], s.goto t (.looping vars))
    | _ => ([], s)
  | .stop t =>
    match s.phases t with
    | .looping vars => ([], (s.goto t .off).drop t vars.file)
    | _ => ([], s)

end Sys

end Model

section Moves

variable {path : ℕ → Path} {s s' : Sys} {t : ℕ} {f : Fd} {caller : Caller} {sigs : List Signal}

/-- The variables of the loop that has called, if there is one. -/
def Caller.vars : Caller → Option Vars
  | .initial _ => none
  | .unreadable vars => some vars
  | .replaced vars _ => some vars

def Phase.vars : Phase → Option Vars
  | .off => none
  | .waiting _ => none
  | .acquiring caller => caller.vars
  | .acquired caller _ => caller.vars
  | .headed caller _ _ => caller.vars
  | .looping vars => some vars
  | .polled vars => some vars

/-- The files whose `Arc`s a thread has, each as often as it has one. -/
def Phase.files : Phase → List Fd
  | .acquired caller file => file :: (caller.vars.map Vars.file).toList
  | .headed caller file _ => file :: (caller.vars.map Vars.file).toList
  | phase => (phase.vars.map Vars.file).toList

/-- No snapshot is given. -/
def Quiet (sigs : List Signal) : Prop := ∀ t f id, .reopened t f id ∉ sigs

/-- The loop's descriptor and its identity, if there are any, are those of before. -/
def Phase.Keeps (phase old : Phase) : Prop :=
  ∀ v, phase.vars = some v → ∃ v₀, old.vars = some v₀ ∧ v.file = v₀.file ∧ v.shmId = v₀.shmId

/-- What one step can do. -/
inductive Moves (path : ℕ → Path) (s : Sys) : Turn → List Signal → Sys → Prop
  | nothing (a : Turn) : Moves path s a [] s
  | moved (a : Turn) (sigs : List Signal) (t : ℕ) (phase : Phase) (quiet : Quiet sigs)
      (keeps : phase.Keeps (s.phases t)) (files : phase.files.Sublist (s.phases t).files) :
      Moves path s a sigs (s.goto t phase)
  | dropped (a : Turn) (sigs : List Signal) (t : ℕ) (phase : Phase) (f : Fd) (quiet : Quiet sigs)
      (keeps : phase.Keeps (s.phases t)) (files : (f :: phase.files).Sublist (s.phases t).files) :
      Moves path s a sigs ((s.goto t phase).drop t f)
  | finished (t : ℕ) (caller : Caller) (file : Fd) (header : Header) (id : Id) (ok : Bool)
      (phase : s.phases t = .headed caller file header) (stat : s.identity path t ok = some id) :
      Moves path s (.takeIdentity t ok) (s.finish t file header id caller).1
        (s.finish t file header id caller).2
  | registry (a : Act) (allowed : s.permits path a = true) :
      Moves path s (.registry a) ({ s with reg := (step s.reg a).2 }.receive (step s.reg a).1).1
        ({ s with reg := (step s.reg a).2 }.receive (step s.reg a).1).2

theorem quiet_nil : Quiet [] := fun _ _ _ h ↦ by cases h

theorem quiet_changed (t : ℕ) : Quiet [.changed t] := fun _ _ _ h ↦ by simp at h

theorem reopened_not_mem_dbWake {u : ℕ} {g : Fd} {n : Id} (t : ℕ) (dbStatErr : Bool) :
    .reopened u g n ∉ Sys.dbWake t dbStatErr := by
  cases dbStatErr <;> simp [Sys.dbWake]

theorem quiet_dbWake (t : ℕ) (dbStatErr : Bool) : Quiet (Sys.dbWake t dbStatErr) :=
  fun _ _ _ ↦ reopened_not_mem_dbWake t dbStatErr

theorem quiet_changed_dbWake (t : ℕ) (dbStatErr : Bool) :
    Quiet (.changed t :: Sys.dbWake t dbStatErr) := by
  intro u g n h
  simp [reopened_not_mem_dbWake] at h

theorem Phase.Keeps.of_none {phase old : Phase} (h : phase.vars = none) : phase.Keeps old := by
  intro v hv
  cases h.symm.trans hv

theorem Phase.Keeps.of_eq {phase old : Phase} (h : phase.vars = old.vars) : phase.Keeps old := by
  intro v hv
  exact ⟨v, h.symm.trans hv, rfl, rfl⟩

/-- A reopen without a result leaves the caller's variables as they are. -/
theorem giveUp_eq (s : Sys) (t : ℕ) (caller : Caller) :
    ∃ sigs phase, Quiet sigs ∧ phase.vars = caller.vars ∧
      phase.files = (caller.vars.map Vars.file).toList ∧ s.giveUp t caller = (sigs, s.goto t phase) := by
  cases caller with
  | initial tries => exact ⟨_, _, quiet_nil, rfl, rfl, rfl⟩
  | unreadable vars => exact ⟨_, _, quiet_changed t, rfl, rfl, rfl⟩
  | replaced vars dbStatErr => exact ⟨_, _, quiet_changed_dbWake t dbStatErr, rfl, rfl, rfl⟩

/-- The same, with the descriptor that was acquired dropped. -/
theorem moves_drop_giveUp (a : Turn) (hkeeps : (s.phases t).vars = caller.vars)
    (hfiles : (s.phases t).files = f :: (caller.vars.map Vars.file).toList) :
    Moves path s a ((s.drop t f).giveUp t caller).1 ((s.drop t f).giveUp t caller).2 := by
  obtain ⟨sigs, phase, hquiet, hvars, hphase, heq⟩ := giveUp_eq (s.drop t f) t caller
  rw [heq]
  refine .dropped a sigs t phase f hquiet (.of_eq (hvars.trans hkeeps.symm)) ?_
  rw [hfiles, hphase]

/-- What a thread that waits for `acquire_shm_fd` gets from it: the descriptor, or an error. -/
theorem receive_cases (s : Sys) (out : Option Out) :
    s.receive out = ([], s) ∨
    (∃ t p f caller, out = some (.returned t p f) ∧ s.phases t = .acquiring caller ∧
      s.receive out = ([], s.goto t (.acquired caller f))) ∨
    ∃ t sigs phase, Quiet sigs ∧ phase.Keeps (s.phases t) ∧ phase.files = (s.phases t).files ∧
      s.receive out = (sigs, s.goto t phase) := by
  unfold Sys.receive
  split
  · rename_i t p f
    split
    · rename_i caller hphase
      exact Or.inr (Or.inl ⟨t, p, f, caller, rfl, hphase, rfl⟩)
    · exact Or.inl rfl
  · rename_i t
    split
    · rename_i caller hphase
      obtain ⟨sigs, phase, hquiet, hvars, hfiles, heq⟩ := giveUp_eq s t caller
      refine Or.inr (Or.inr ⟨t, sigs, phase, hquiet, .of_eq ?_, ?_, heq⟩)
      · rw [hvars, hphase]
        rfl
      · rw [hfiles, hphase]
        rfl
    · exact Or.inl rfl
  · exact Or.inl rfl

theorem moves_checkStep {vars : Vars} {db : DbCheck} {ok : Bool} (a : Turn)
    (hphase : s.phases t = .polled vars) :
    Moves path s a (s.checkStep path t vars db ok).1 (s.checkStep path t vars db ok).2 := by
  have hvars : (s.phases t).vars = some vars := by rw [hphase]; rfl
  have hfiles : (s.phases t).files = [vars.file] := by rw [hphase]; rfl
  have hloop (sigs : List Signal) (hquiet : Quiet sigs) :
      Moves path s a sigs (s.goto t (.looping vars)) :=
    .moved a sigs t _ hquiet (.of_eq hvars.symm) (hfiles ▸ List.Sublist.refl _)
  by_cases hdb : db = .replaced
  · rw [Sys.checkStep, if_pos hdb]
    exact .dropped a [] t .off vars.file quiet_nil (.of_none rfl) (hfiles ▸ List.Sublist.refl _)
  · rw [Sys.checkStep, if_neg hdb]
    split
    · split
      · exact .moved a [] t _ quiet_nil (.of_eq hvars.symm) (hfiles ▸ List.Sublist.refl _)
      · exact hloop _ (quiet_dbWake t _)
    · exact hloop _ (quiet_changed_dbWake t _)

theorem turn_moves (path : ℕ → Path) (s : Sys) (a : Turn) :
    Moves path s a (s.turn path a).1 (s.turn path a).2 := by
  cases a with
  | start t =>
    rw [Sys.turn]
    split_ifs with h
    · exact .moved _ [] t _ quiet_nil (.of_none rfl) (List.nil_sublist _)
    · exact .nothing _
  | registry a =>
    rw [Sys.turn]
    split_ifs with hallowed
    · exact .registry a hallowed
    · exact .nothing _
  | attempt t stop =>
    rw [Sys.turn]
    split
    · split_ifs
      · exact .moved _ [] t _ quiet_nil (.of_none rfl) (List.nil_sublist _)
      · exact .moved _ [] t _ quiet_nil (.of_none rfl) (List.nil_sublist _)
    · exact .nothing _
  | readHeader t header =>
    dsimp only [Sys.turn]
    split
    · rename_i caller file header hphase
      exact .moved _ [] t _ quiet_nil (.of_eq (by rw [hphase]; rfl)) (by rw [hphase]; rfl)
    · rename_i caller file hphase
      exact moves_drop_giveUp _ (by rw [hphase]; rfl) (by rw [hphase]; rfl)
    · exact .nothing _
  | takeIdentity t ok =>
    dsimp only [Sys.turn]
    split
    · rename_i caller file header id hphase hstat
      exact .finished t caller file header id ok hphase hstat
    · rename_i caller file header hphase hstat
      exact moves_drop_giveUp _ (by rw [hphase]; rfl) (by rw [hphase]; rfl)
    · exact .nothing _
  | poll t header =>
    dsimp only [Sys.turn]
    split
    · rename_i vars header hphase
      refine .moved _ _ t _ ?_ (fun v hv ↦ ?_) (by rw [hphase]; rfl)
      · split_ifs
        · exact quiet_changed t
        · exact quiet_nil
      · cases hv
        exact ⟨vars, by rw [hphase]; rfl, rfl, rfl⟩
    · rename_i vars hphase
      exact .moved _ [] t _ quiet_nil (.of_eq (by rw [hphase]; rfl)) (by rw [hphase]; rfl)
    · exact .nothing _
  | check t due db ok =>
    rw [Sys.turn]
    split
    · rename_i vars hphase
      split_ifs with hdue
      · exact moves_checkStep _ hphase
      · exact .moved _ [] t _ quiet_nil (.of_eq (by rw [hphase]; rfl)) (by rw [hphase]; rfl)
    · exact .nothing _
  | stop t =>
    rw [Sys.turn]
    split
    · rename_i vars hphase
      exact .dropped _ [] t .off vars.file quiet_nil (.of_none rfl) (by rw [hphase]; rfl)
    · exact .nothing _

end Moves

section Holding

variable {path : ℕ → Path} {s s' : Sys} {t : ℕ} {f : Fd} {phase : Phase}

/-- Every `Arc` that a thread has is counted. -/
structure SysInv (s : Sys) : Prop where
  reg : Inv s.reg
  holds : ∀ t f, (s.phases t).files.count f ≤ s.reg.held.count (t, f)

theorem sysInv_start : SysInv Sys.start := ⟨inv_start, fun _ _ ↦ le_rfl⟩

theorem SysInv.open_file (h : SysInv s) (hf : f ∈ (s.phases t).files) : f ∈ s.reg.disk.files := by
  have hcount := (List.count_pos_iff.mpr hf).trans_le (h.holds t f)
  exact h.reg.registered_open (h.reg.held f ⟨t, List.count_pos_iff.mp hcount⟩)

theorem SysInv.goto (h : SysInv s) (hfiles : phase.files.Subperm (s.phases t).files) :
    SysInv (s.goto t phase) := by
  refine ⟨h.reg, fun u g ↦ ?_⟩
  by_cases hu : u = t
  · subst hu
    change (Function.update s.phases u phase u).files.count g ≤ _
    rw [Function.update_self]
    exact (hfiles.count_le g).trans (h.holds u g)
  · change (Function.update s.phases t phase u).files.count g ≤ _
    rw [Function.update_of_ne hu]
    exact h.holds u g

theorem SysInv.drop (h : SysInv s) (hfiles : (f :: phase.files).Subperm (s.phases t).files) :
    SysInv ((s.goto t phase).drop t f) := by
  have hcount := (hfiles.count_le f).trans (h.holds t f)
  rw [List.count_cons_self] at hcount
  have hholds : (t, f) ∈ s.reg.held := List.count_pos_iff.mp (by omega)
  have hrelease := h.reg.release hholds
  refine ⟨inv_step h.reg (.release t f), fun u g ↦ ?_⟩
  change (Function.update s.phases t phase u).files.count g ≤
    (step s.reg (.release t f)).2.held.count (u, g)
  rw [hrelease]
  by_cases hu : u = t
  · subst hu
    have hg := (hfiles.count_le g).trans (h.holds u g)
    rw [Function.update_self, List.count_erase]
    rw [List.count_cons] at hg
    simp only [beq_iff_eq, Prod.mk.injEq, true_and] at hg ⊢
    omega
  · rw [Function.update_of_ne hu, List.count_erase_of_ne (by simp [hu])]
    exact h.holds u g

theorem SysInv.finish (h : SysInv s) {caller : Caller} {header : Header}
    (hphase : s.phases t = .headed caller f header) (id : Id) :
    SysInv (s.finish t f header id caller).2 := by
  have hfiles : (s.phases t).files = f :: (caller.vars.map Vars.file).toList := by rw [hphase]; rfl
  cases caller with
  | initial tries =>
    rw [Sys.finish]
    split_ifs
    · exact h.goto (by rw [hfiles]; exact List.Subperm.refl _)
    · exact h.drop (by rw [hfiles]; exact List.Subperm.refl _)
  | unreadable vars => exact h.drop (by rw [hfiles]; exact (List.Perm.swap _ _ _).subperm)
  | replaced vars _ => exact h.drop (by rw [hfiles]; exact (List.Perm.swap _ _ _).subperm)

/-- A permitted step of the registry adds the `Arc` it hands out and takes none from a watcher. -/
theorem SysInv.registry (h : SysInv s) {a : Act} (hallowed : s.permits path a = true) (u : ℕ) (g : Fd) :
    (s.phases u).files.count g + (given (step s.reg a).1).count (u, g) ≤
      (step s.reg a).2.held.count (u, g) := by
  by_cases ha : ∀ t f, a ≠ .release t f
  · rw [held_step ha, List.count_append]
    exact Nat.add_le_add_right (h.holds u g) _
  · push Not at ha
    obtain ⟨t, f, rfl⟩ := ha
    have hoff : s.phases t = .off := of_decide_eq_true hallowed
    by_cases hholds : (t, f) ∈ s.reg.held
    · have hnone : (step s.reg (.release t f)).1 = none := by
        rw [step, if_pos hholds, (h.reg.released hholds).1]
      rw [hnone, h.reg.release hholds]
      by_cases hu : u = t
      · subst hu
        rw [hoff]
        exact Nat.zero_le _
      · rw [List.count_erase_of_ne (by simp [hu])]
        exact h.holds u g
    · rw [step, if_neg hholds]
      exact h.holds u g

theorem SysInv.receive (h : SysInv s) {a : Act} (hallowed : s.permits path a = true) :
    SysInv ({ s with reg := (step s.reg a).2 }.receive (step s.reg a).1).2 := by
  have hreg := inv_step h.reg a
  have hcount := h.registry hallowed
  generalize (step s.reg a).1 = out, (step s.reg a).2 = reg at hreg hcount
  have hkeep : SysInv { s with reg := reg } :=
    ⟨hreg, fun u g ↦ (Nat.le_add_right _ _).trans (hcount u g)⟩
  rcases receive_cases { s with reg := reg } out with heq | ⟨t, p, f, caller, rfl, hphase, heq⟩ |
    ⟨t, sigs, phase, -, -, hfiles, heq⟩
  · rw [heq]
    exact hkeep
  · rw [heq]
    refine ⟨hreg, fun u g ↦ ?_⟩
    by_cases hu : u = t
    · subst hu
      have hg := hcount u g
      rw [show s.phases u = .acquiring caller from hphase] at hg
      have hnew : (Phase.acquired caller f).files.count g =
          (Phase.acquiring caller).files.count g + [(u, f)].count (u, g) := by
        change (f :: (caller.vars.map Vars.file).toList).count g =
          (caller.vars.map Vars.file).toList.count g + [(u, f)].count (u, g)
        rw [List.count_cons, List.count_singleton]
        simp
      change (Function.update s.phases u (.acquired caller f) u).files.count g ≤ _
      rw [Function.update_self, hnew]
      exact hg
    · change (Function.update s.phases t (.acquired caller f) u).files.count g ≤ _
      rw [Function.update_of_ne hu]
      exact hkeep.holds u g
  · rw [heq]
    exact hkeep.goto (by rw [hfiles])

theorem SysInv.moves (h : SysInv s) {a : Turn} {sigs : List Signal} (hm : Moves path s a sigs s') :
    SysInv s' := by
  cases hm with
  | nothing => exact h
  | moved a sigs t phase quiet keeps files => exact h.goto files.subperm
  | dropped a sigs t phase f quiet keeps files => exact h.drop files.subperm
  | finished t caller file header id ok hphase => exact h.finish hphase id
  | registry a hallowed => exact h.receive hallowed

theorem sysInv_run (path : ℕ → Path) (as : List Turn) : SysInv (final (Sys.turn path) Sys.start as) :=
  final_invariant (Sys.turn path) _ sysInv_start (fun s a h ↦ h.moves (turn_moves path s a)) as

end Holding

section Identity

variable {path : ℕ → Path} {s s' : Sys} {t : ℕ} {a : Turn} {sigs : List Signal}

/-- The snapshots give the identity of the inode behind their descriptor. -/
def Exact (sigs : List Signal) : Prop := ∀ t f id, .reopened t f id ∈ sigs → id = f.inode.number

/-- When a reopen takes the identity from the path, the path names the inode behind the descriptor
that it has acquired. -/
def Unreplaced (path : ℕ → Path) (s : Sys) : Turn → Prop
  | .takeIdentity t true => ∀ caller f header i, s.phases t = .headed caller f header →
      s.reg.disk.at? (path t) = some i → i = f.inode
  | _ => True

/-- The recorded identity is that of the inode behind the descriptor. -/
def Known (phases : ℕ → Phase) : Prop :=
  ∀ t v, (phases t).vars = some v → v.shmId = v.file.inode.number

theorem Known.update {phases : ℕ → Phase} (hknown : Known phases) {phase : Phase}
    (hkeeps : phase.Keeps (phases t)) : Known (Function.update phases t phase) := by
  intro u v hv
  by_cases hu : u = t
  · subst hu
    rw [Function.update_self] at hv
    obtain ⟨v₀, hv₀, hfile, hid⟩ := hkeeps v hv
    rw [hid, hfile]
    exact hknown u v₀ hv₀
  · rw [Function.update_of_ne hu] at hv
    exact hknown u v hv

theorem Known.reopened {phases : ℕ → Phase} (hknown : Known phases) {v : Vars}
    (hv : v.shmId = v.file.inode.number) : Known (Function.update phases t (.looping v)) := by
  intro u w hw
  by_cases hu : u = t
  · subst hu
    rw [Function.update_self] at hw
    cases hw
    exact hv
  · rw [Function.update_of_ne hu] at hw
    exact hknown u w hw

theorem finish_snapshot {f : Fd} {header : Header} {id : Id} {caller : Caller} :
    .reopened t f id ∈ (s.finish t f header id caller).1 ∧
      ∀ u g n, .reopened u g n ∈ (s.finish t f header id caller).1 → u = t ∧ g = f ∧ n = id := by
  cases caller with
  | initial tries =>
    rw [Sys.finish]
    split_ifs
    · exact ⟨by simp, fun u g n h ↦ by simpa using h⟩
    · exact ⟨by simp, fun u g n h ↦ by simpa using h⟩
  | unreadable vars => exact ⟨by simp [Sys.finish], fun u g n h ↦ by simpa [Sys.finish] using h⟩
  | replaced vars dbStatErr =>
    refine ⟨by simp [Sys.finish], fun u g n h ↦ ?_⟩
    simpa [Sys.finish, reopened_not_mem_dbWake] using h

theorem Known.finish (hknown : Known s.phases) {f : Fd} {header : Header} {id : Id} {caller : Caller}
    (hid : id = f.inode.number) : Known (s.finish t f header id caller).2.phases := by
  cases caller with
  | initial tries =>
    rw [Sys.finish]
    split_ifs
    · exact hknown.reopened hid
    · exact hknown.update (.of_none rfl)
  | unreadable vars => exact hknown.reopened hid
  | replaced vars _ => exact hknown.reopened hid

theorem quiet_receive (s : Sys) (out : Option Out) : Quiet (s.receive out).1 := by
  rcases receive_cases s out with heq | ⟨t, p, f, caller, -, -, heq⟩ | ⟨t, sigs, phase, hquiet, -, -, heq⟩
  · rw [heq]
    exact quiet_nil
  · rw [heq]
    exact quiet_nil
  · rw [heq]
    exact hquiet

theorem Known.receive (hknown : Known s.phases) (out : Option Out) : Known (s.receive out).2.phases := by
  rcases receive_cases s out with heq | ⟨t, p, f, caller, -, hphase, heq⟩ | ⟨t, sigs, phase, -, hkeeps, -, heq⟩
  · rw [heq]
    exact hknown
  · rw [heq]
    exact hknown.update (.of_eq (by rw [hphase]; rfl))
  · rw [heq]
    exact hknown.update hkeeps

theorem Known.moves (hknown : Known s.phases) (hm : Moves path s a sigs s') (hexact : Exact sigs) :
    Known s'.phases := by
  cases hm with
  | nothing => exact hknown
  | moved a sigs t phase quiet keeps files => exact hknown.update keeps
  | dropped a sigs t phase f quiet keeps files => exact hknown.update keeps
  | finished t caller file header id ok hphase hstat =>
    exact hknown.finish (hexact t file id finish_snapshot.1)
  | registry a hallowed => exact Known.receive (s := { s with reg := (step s.reg a).2 }) hknown _

theorem identity_eq_some {ok : Bool} {id : Id} (h : s.identity path t ok = some id) :
    ok = true ∧ ∃ i, s.reg.disk.at? (path t) = some i ∧ i.number = id := by
  unfold Sys.identity at h
  split_ifs at h with hok
  exact ⟨hok, Option.map_eq_some_iff.mp h⟩

/-- A reopen records the identity of its descriptor exactly when the path still names that inode. -/
theorem exact_iff (h : SysInv s) : Exact (s.turn path a).1 ↔ Unreplaced path s a := by
  constructor
  · intro hexact
    cases a with
    | takeIdentity t ok =>
      cases ok with
      | false => trivial
      | true =>
        intro caller f header i hphase hat
        have hstat : s.identity path t true = some i.number := by
          rw [Sys.identity, if_pos rfl, hat]
          rfl
        have hturn : s.turn path (.takeIdentity t true) = s.finish t f header i.number caller := by
          simp only [Sys.turn, hphase, hstat]
        rw [hturn] at hexact
        have hopen : f ∈ s.reg.disk.files := h.open_file (t := t) (by rw [hphase]; simp [Phase.files])
        exact h.reg.sound i f.inode (Or.inl ⟨path t, hat⟩) (Or.inr ⟨f, hopen, rfl⟩)
          (hexact t f i.number finish_snapshot.1)
    | _ => trivial
  · intro hunreplaced u g n hmem
    have hm := turn_moves path s a
    generalize (s.turn path a).1 = sigs, (s.turn path a).2 = s' at hm hmem
    cases hm with
    | nothing => cases hmem
    | moved a sigs t phase quiet keeps files => exact absurd hmem (quiet u g n)
    | dropped a sigs t phase f quiet keeps files => exact absurd hmem (quiet u g n)
    | finished t caller file header id ok hphase hstat =>
      obtain ⟨rfl, rfl, rfl⟩ := finish_snapshot.2 u g n hmem
      obtain ⟨rfl, i, hat, rfl⟩ := identity_eq_some hstat
      rw [hunreplaced caller g header i hphase hat]
    | registry a hallowed => exact absurd hmem (quiet_receive _ _ u g n)

theorem known_start : Known Sys.start.phases := fun _ _ hv ↦ by cases hv

theorem known_run {as : List Turn} (has : Along (Sys.turn path) (Unreplaced path) Sys.start as) :
    Known (final (Sys.turn path) Sys.start as).phases := by
  refine (along_induction (P := fun _ s ↦ SysInv s ∧ Known s.phases) (Sys.turn path) Sys.start
    ⟨sysInv_start, known_start⟩ (fun _ s a ha hs ↦ ?_) as has).2
  exact ⟨hs.1.moves (turn_moves path s a),
    hs.2.moves (turn_moves path s a) ((exact_iff hs.1).mpr ha)⟩

theorem along_iff_exact (path : ℕ → Path) (as : List Turn) :
    Along (Sys.turn path) (Unreplaced path) Sys.start as ↔
      ∀ e ∈ trace (Sys.turn path) Sys.start as, Exact e.output := by
  constructor
  · intro has e he
    obtain ⟨bs, a, cs, rfl, rfl⟩ := mem_trace _ he
    exact (exact_iff (sysInv_run path bs)).mpr (along_split has).2
  · intro hexact e he
    obtain ⟨bs, a, cs, rfl, rfl⟩ := mem_trace _ he
    exact (exact_iff (sysInv_run path bs)).mp (hexact _ he)

/-- With the path at another inode than the descriptor's, the identity check goes on to reopen. -/
def Notices (path : ℕ → Path) (s : Sys) (t : ℕ) (v : Vars) : Prop :=
  ∀ i, s.reg.disk.at? (path t) = some i → i ≠ v.file.inode → ∀ db, db ≠ .replaced →
    (s.turn path (.check t true db true)).2.phases t = .acquiring (.replaced v (db = .error))

theorem notices_of_known (h : SysInv s) (hknown : Known s.phases) {v : Vars}
    (hphase : s.phases t = .polled v) : Notices path s t v := by
  intro i hat hne db hdb
  have hopen : v.file ∈ s.reg.disk.files := h.open_file (t := t) (by rw [hphase]; simp [Phase.files, Phase.vars])
  have hid : i.number ≠ v.shmId := by
    rw [hknown t v (by rw [hphase]; rfl)]
    intro heq
    exact hne (h.reg.sound i v.file.inode (Or.inl ⟨path t, hat⟩) (Or.inr ⟨v.file, hopen, rfl⟩) heq)
  have hstat : s.identity path t true = some i.number := by
    rw [Sys.identity, if_pos rfl, hat]
    rfl
  simp only [Sys.turn, hphase, if_true, Sys.checkStep, if_neg hdb, hstat, if_pos hid]
  exact Function.update_self ..

/-- A watcher knows the inode that it reads in the runs, and only in the runs, in which no reopen
takes its identity from a path that has been given another inode; in them the identity check of
every state notices a path that names another inode. -/
theorem shm_watcher_knows_inode (path : ℕ → Path) (as : List Turn) :
    (Along (Sys.turn path) (Unreplaced path) Sys.start as ↔
      ∀ e ∈ trace (Sys.turn path) Sys.start as, Exact e.output) ∧
    (Along (Sys.turn path) (Unreplaced path) Sys.start as →
      Known (final (Sys.turn path) Sys.start as).phases ∧
      ∀ t v, (final (Sys.turn path) Sys.start as).phases t = .polled v →
        Notices path (final (Sys.turn path) Sys.start as) t v) := by
  refine ⟨along_iff_exact path as, fun has ↦ ⟨known_run has, fun t v hphase ↦ ?_⟩⟩
  exact notices_of_known (sysInv_run path as) (known_run has) hphase

/-- A watcher on `a-shm`, up to the read of the header of its first open. -/
def opens : List Turn :=
  [.registry (.disk (.create "a-shm" (1, 7))), .start 0, .attempt 0 false,
    .registry (.stat 0 "a-shm" true), .registry (.lock 0), .registry (.lookup 0),
    .registry (.openFile 0 true), .registry (.store 0 true), .readHeader 0 (some ⟨3007000, 4⟩)]

def replacing : Turn := .registry (.disk (.replace "a-shm" (1, 8)))

/-- The file is replaced after the identity has been taken, and the next check notices. -/
def replacedLater : List Turn :=
  opens ++ [.takeIdentity 0 true, .poll 0 (some ⟨3007000, 4⟩), replacing]

theorem shm_watcher_knows_inode_replacedLater :
    ((final (Sys.turn fun _ ↦ "a-shm") Sys.start replacedLater).turn (fun _ ↦ "a-shm")
      (.check 0 true .same true)).2.phases 0 =
        .acquiring (.replaced ⟨⟨0, 0, 1, 7⟩, (1, 7), 4⟩ false) := by
  refine ((shm_watcher_knows_inode (fun _ ↦ "a-shm") replacedLater).2 ?_).2 0 ⟨⟨0, 0, 1, 7⟩, (1, 7), 4⟩
    (by decide) ⟨1, 1, 8⟩ (by decide) (by decide) .same (by decide)
  have hheaded : (final (Sys.turn fun _ ↦ "a-shm") Sys.start opens).phases 0 =
      .headed (.initial 0) ⟨0, 0, 1, 7⟩ ⟨3007000, 4⟩ := by decide
  have hnamed : (final (Sys.turn fun _ ↦ "a-shm") Sys.start opens).reg.disk.at? "a-shm" =
      some ⟨0, 1, 7⟩ := by decide
  have hopens : Along (Sys.turn fun _ ↦ "a-shm") (Unreplaced fun _ ↦ "a-shm") Sys.start opens := by
    intro e he
    simp only [opens, trace, List.mem_cons, List.not_mem_nil, or_false] at he
    rcases he with rfl | rfl | rfl | rfl | rfl | rfl | rfl | rfl | rfl <;> trivial
  have hsplit : replacedLater =
      opens ++ [.takeIdentity 0 true] ++ [.poll 0 (some ⟨3007000, 4⟩)] ++ [replacing] := rfl
  rw [hsplit, along_snoc, along_snoc, along_snoc]
  refine ⟨⟨⟨hopens, ?_⟩, trivial⟩, trivial⟩
  intro caller f header i hphase hat
  cases hheaded.symm.trans hphase
  cases hnamed.symm.trans hat
  rfl

/-- The file is replaced before the identity is taken. -/
def replacedBetween : List Turn :=
  opens ++ [replacing, .takeIdentity 0 true, .poll 0 (some ⟨3007000, 4⟩)]

/-- The watcher reads inode 7 under the identity of inode 8, which the path names, and its check
passes. -/
theorem replaced_before_identity :
    let s := final (Sys.turn fun _ ↦ "a-shm") Sys.start replacedBetween
    s.phases 0 = .polled ⟨⟨0, 0, 1, 7⟩, (1, 8), 4⟩ ∧
      s.reg.disk.at? "a-shm" = some ⟨1, 1, 8⟩ ∧
      (s.turn (fun _ ↦ "a-shm") (.check 0 true .same true)).2.phases 0 =
        .looping ⟨⟨0, 0, 1, 7⟩, (1, 8), 4⟩ := by
  decide

end Identity

end Honker.Shm
