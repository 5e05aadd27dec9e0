import Honker.Library.Interleaving
import Honker.Library.Transaction
import Mathlib.Tactic.Common

namespace Honker.Session

open Transaction Interleaving

/-- Where a thread stands in a `with db.transaction()` block: in the native `__enter__`, at its wait for
the writer's connection or at its `BEGIN IMMEDIATE`; past it, before the guard counts the block; in the
body; or past the native `__exit__`, before the guard's `finally`. -/
inductive Phase
  | waiting
  | beginning
  | marking
  | inside
  | finishing
deriving DecidableEq

/-- The places at which a block has the writer's connection. -/
def Phase.holds : Phase → Bool
  | .beginning => true
  | .marking => true
  | .inside => true
  | _ => false

/-- The writer's connection and the threads that use it. `blocks` are the open blocks of a thread, the
innermost first, and `depth` is `_tx_local.depth`. `body` holds the writes that have succeeded in the
open transaction, and `units` what has been committed, in order. -/
structure Sys (τ σ : Type) where
  conn : Conn σ
  slot : Bool
  closed : Bool
  depth : τ → ℕ
  blocks : τ → List Phase
  body : List (σ → σ)
  units : List (List (σ → σ))

def Sys.opened (τ : Type) {σ : Type} (s : σ) : Sys τ σ :=
  ⟨.idle s, true, false, fun _ ↦ 0, fun _ ↦ [], [], []⟩

/-- A step of a thread, with the outcomes of its statements, the end of the database object, or a commit
of another process. `raised` tells whether the body raised. -/
inductive Act (τ σ : Type)
  | enter (t : τ)
  | acquire (t : τ)
  | begin (t : τ) (o : Outcome)
  | mark (t : τ)
  | execute (t : τ) (f : σ → σ) (o : Outcome)
  | exit (t : τ) (raised : Bool) (commit rollback : Outcome)
  | finish (t : τ)
  | drop (t : τ) (rollback : Outcome)
  | close
  | foreign (f : σ → σ)

section System

variable {τ σ : Type} [DecidableEq τ]

def Sys.set (s : Sys τ σ) (t : τ) (l : List Phase) : Sys τ σ :=
  { s with blocks := Function.update s.blocks t l }

/-- `Writer::release`. A connection that is dropped instead loses what it has not committed. -/
def Sys.release (s : Sys τ σ) : Sys τ σ :=
  if s.closed then { s with conn := s.conn.rolledBack } else { s with slot := true }

/-- The `COMMIT` or `ROLLBACK` of the native `__exit__`, with whether it has committed. -/
def endBlock (c : Conn σ) (raised : Bool) (commit rollback : Outcome) : Bool × Conn σ :=
  if raised then (false, (Transaction.exec c .rollback rollback).2)
  else
    match Transaction.commit c commit with
    | (.ok (), c') => (true, c')
    | (.error _, c') => (false, (Transaction.exec c' .rollback rollback).2)

def step (s : Sys τ σ) : Act τ σ → Sys τ σ
  | .enter t =>
    match s.blocks t with
    | [] => if 0 < s.depth t then s else s.set t [.waiting]
    | .inside :: l => if 0 < s.depth t then s else s.set t (.waiting :: .inside :: l)
    | _ => s
  | .acquire t =>
    match s.blocks t with
    | .waiting :: l =>
      if s.closed then s.set t l
      else if s.slot then { s with slot := false }.set t (.beginning :: l)
      else s
    | _ => s
  | .begin t o =>
    match s.blocks t with
    | .beginning :: l =>
      match beginImmediate s.conn o with
      | (.ok (), c) => { s with conn := c, body := [] }.set t (.marking :: l)
      | (.error _, c) => { s with conn := c }.release.set t l
    | _ => s
  | .mark t =>
    match s.blocks t with
    | .marking :: l =>
      { s with depth := Function.update s.depth t (s.depth t + 1) }.set t (.inside :: l)
    | _ => s
  | .execute t f o =>
    match s.blocks t with
    | .inside :: _ =>
      match Transaction.exec s.conn (.write f) o with
      | (.ok (), c) =>
        if s.conn.autocommit then { s with conn := c, units := s.units ++ [[f]] }
        else { s with conn := c, body := s.body ++ [f] }
      | (.error _, c) => { s with conn := c }
    | _ => s
  | .exit t raised commit rollback =>
    match s.blocks t with
    | .inside :: l =>
      let (committed, c) := endBlock s.conn raised commit rollback
      { s with conn := c, units := if committed then s.units ++ [s.body] else s.units }.release.set t
        (.finishing :: l)
    | _ => s
  | .finish t =>
    match s.blocks t with
    | .finishing :: l => { s with depth := Function.update s.depth t (s.depth t - 1) }.set t l
    | _ => s
  | .drop t rollback =>
    match s.blocks t with
    | .inside :: l => { s with conn := (Transaction.exec s.conn .rollback rollback).2 }.release.set t l
    | _ => s
  | .close =>
    if s.slot then { s with closed := true, slot := false, conn := s.conn.rolledBack }
    else { s with closed := true }
  | .foreign f =>
    -- A transaction of the writer holds the database's write lock.
    if s.conn.autocommit then
      { s with conn := .idle (f s.conn.contents), units := s.units ++ [[f]] }
    else s

end System

/-- The unit that a step commits, if it commits one: the body of a block at its `COMMIT`, a write of
another process, or a write of a block whose transaction SQLite has rolled back by itself, which runs in
autocommit. -/
def commits {τ σ : Type} (s : Sys τ σ) : Act τ σ → Option (List (σ → σ))
  | .exit t false .ok _ =>
    match s.blocks t with
    | .inside :: _ => if s.conn.autocommit then none else some s.body
    | _ => none
  | .execute t f .ok =>
    match s.blocks t with
    | .inside :: _ => if s.conn.autocommit then some [f] else none
    | _ => none
  | .foreign f => if s.conn.autocommit then some [f] else none
  | _ => none

/-- The units that a run commits, in order. -/
def committedUnits {τ σ : Type} [DecidableEq τ] : Sys τ σ → List (Act τ σ) → List (List (σ → σ))
  | _, [] => []
  | s, a :: as => (commits s a).toList ++ committedUnits (step s a) as

/-- The contents after the writes of a unit. -/
def unitOf {σ : Type} (x : σ) (unit : List (σ → σ)) : σ := unit.foldl (fun x f ↦ f x) x

/-- The contents after whole units, one after the other. -/
def replay {σ : Type} (x : σ) (units : List (List (σ → σ))) : σ := units.foldl unitOf x

section Blocks

variable {τ σ : Type}

/-- No thread has more than one block open, one whose body it runs is counted, and thread `h`, if any,
has the connection. -/
structure Nesting (s : Sys τ σ) (h : Option τ) : Prop where
  one : ∀ t, s.blocks t = [] ∨ ∃ p, s.blocks t = [p]
  counted : ∀ t, s.blocks t = [.inside] ∨ s.blocks t = [.finishing] → 0 < s.depth t
  holder : ∀ t, (∃ p ∈ s.blocks t, p.holds = true) ↔ h = some t
  slot : s.slot = true → h = none ∧ s.closed = false
  out : h = none → s.slot = true ∨ s.closed = true

theorem Nesting.opened (x : σ) : Nesting (Sys.opened τ x) none := by
  constructor <;> simp [Sys.opened]

theorem Nesting.cons {s : Sys τ σ} {h : Option τ} (hn : Nesting s h) {t : τ} {p : Phase}
    {l : List Phase} (hb : s.blocks t = p :: l) : l = [] := by
  rcases hn.one t with hnil | ⟨q, hone⟩
  · cases hnil.symm.trans hb
  · cases hone.symm.trans hb
    rfl

variable [DecidableEq τ]

/-- A step of thread `t` that takes or gives back the connection, or leaves it where it is. -/
theorem Nesting.set {s s' : Sys τ σ} {h h' : Option τ} (hn : Nesting s h) {t : τ} {l : List Phase}
    (hblocks : s'.blocks = s.blocks) (hdepth : ∀ u ≠ t, s'.depth u = s.depth u)
    (hone : l = [] ∨ ∃ p, l = [p]) (hcounted : l = [.inside] ∨ l = [.finishing] → 0 < s'.depth t)
    (hholds : (∃ p ∈ l, p.holds = true) ↔ h' = some t) (hothers : ∀ u ≠ t, h' = some u ↔ h = some u)
    (hslot : s'.slot = true → h' = none ∧ s'.closed = false)
    (hout : h' = none → s'.slot = true ∨ s'.closed = true) : Nesting (s'.set t l) h' := by
  have hset (u : τ) : (s'.set t l).blocks u = if u = t then l else s.blocks u := by
    rw [Sys.set, hblocks]
    exact Function.update_apply _ _ _ _
  refine ⟨fun u ↦ ?_, fun u hu ↦ ?_, fun u ↦ ?_, hslot, hout⟩
  · rw [hset]
    split_ifs
    · exact hone
    · exact hn.one u
  · rw [hset] at hu
    split_ifs at hu with hut
    · rw [hut]
      exact hcounted hu
    · exact (hn.counted u hu).trans_eq (hdepth u hut).symm
  · rw [hset]
    split_ifs with hut
    · rw [hut]
      exact hholds
    · exact (hn.holder u).trans (hothers u hut).symm

/-- The thread with the connection gives it back. -/
theorem Nesting.release {s s' : Sys τ σ} {h : Option τ} (hn : Nesting s h) {t : τ} {p : Phase}
    {l : List Phase} (hb : s.blocks t = p :: l) (hp : p.holds = true) (hblocks : s'.blocks = s.blocks)
    (hdepth : s'.depth = s.depth) (hslot : s'.slot = s.slot)
    {l' : List Phase} (hone : l' = [] ∨ ∃ q, l' = [q]) (hfree : ∀ q ∈ l', q.holds = false)
    (hcounted : l' = [.inside] ∨ l' = [.finishing] → 0 < s.depth t) :
    Nesting (s'.release.set t l') none := by
  have hh : h = some t := (hn.holder t).mp ⟨p, by simp [hb], hp⟩
  have hslot' : s'.slot = false := by
    rw [hslot]
    by_contra hc
    cases hh.symm.trans (hn.slot (by simpa using hc)).1
  refine Nesting.set hn ?_ (fun u _ ↦ ?_) hone ?_ ?_ (fun u hu ↦ ?_) ?_ ?_
  · unfold Sys.release
    split_ifs <;> exact hblocks
  · unfold Sys.release
    split_ifs <;> simp only [hdepth]
  · unfold Sys.release
    split_ifs <;> simpa only [hdepth] using hcounted
  · simpa using hfree
  · simp [hh, Ne.symm hu]
  · unfold Sys.release
    split_ifs with hc
    · simp [hslot']
    · simpa using hc
  · unfold Sys.release
    split_ifs with hc
    · exact fun _ ↦ Or.inr hc
    · exact fun _ ↦ Or.inl rfl

theorem nesting_step {s : Sys τ σ} {h : Option τ} (hn : Nesting s h) (a : Act τ σ) :
    ∃ h', Nesting (step s a) h' := by
  have hnone {t : τ} {p : Phase} (hb : s.blocks t = [p]) (hp : p.holds = false) : ¬ h = some t := by
    rw [← hn.holder t, hb]
    simp [hp]
  have hsome {t : τ} {p : Phase} (hb : s.blocks t = [p]) (hp : p.holds = true) : h = some t := by
    rw [← hn.holder t, hb]
    exact ⟨p, by simp, hp⟩
  cases a with
  | enter t =>
    cases hb : s.blocks t with
    | nil =>
      simp only [step, hb]
      split_ifs
      · exact ⟨h, hn⟩
      · have hfree : ¬ h = some t := by
          rw [← hn.holder t, hb]
          simp
        refine ⟨h, hn.set rfl (fun _ _ ↦ rfl) (Or.inr ⟨_, rfl⟩) (by simp) ?_ (fun u _ ↦ Iff.rfl) hn.slot
          hn.out⟩
        simp [Phase.holds, hfree]
    | cons p l =>
      cases hn.cons hb
      cases p <;> simp only [step, hb]
      case inside =>
        -- The guard refuses a second block of the same thread.
        rw [if_pos (hn.counted t (Or.inl hb))]
        exact ⟨h, hn⟩
      all_goals exact ⟨h, hn⟩
  | acquire t =>
    cases hb : s.blocks t with
    | nil => exact ⟨h, by simpa only [step, hb] using hn⟩
    | cons p l =>
      cases hn.cons hb
      cases p <;> simp only [step, hb]
      case waiting =>
        split_ifs with hclosed hslot
        · refine ⟨h, hn.set rfl (fun _ _ ↦ rfl) (Or.inl rfl) (by simp) ?_ (fun u _ ↦ Iff.rfl) hn.slot
            hn.out⟩
          simpa using hnone hb rfl
        · refine ⟨some t, hn.set rfl (fun _ _ ↦ rfl) (Or.inr ⟨_, rfl⟩) (by simp) ?_ (fun u hu ↦ ?_)
            (by simp) (by simp)⟩
          · simp [Phase.holds]
          · simp [(hn.slot hslot).1, Ne.symm hu]
        · exact ⟨h, hn⟩
      all_goals exact ⟨h, hn⟩
  | begin t o =>
    cases hb : s.blocks t with
    | nil => exact ⟨h, by simpa only [step, hb] using hn⟩
    | cons p l =>
      cases hn.cons hb
      cases p <;> simp only [step, hb]
      case beginning =>
        split
        · refine ⟨h, hn.set rfl (fun _ _ ↦ rfl) (Or.inr ⟨_, rfl⟩) (by simp) ?_ (fun u _ ↦ Iff.rfl) hn.slot
            hn.out⟩
          simp [Phase.holds, hsome hb rfl]
        · refine ⟨none, hn.release hb rfl ?_ ?_ ?_ (Or.inl rfl) (by simp) (by simp)⟩ <;> rfl
      all_goals exact ⟨h, hn⟩
  | mark t =>
    cases hb : s.blocks t with
    | nil => exact ⟨h, by simpa only [step, hb] using hn⟩
    | cons p l =>
      cases hn.cons hb
      cases p <;> simp only [step, hb]
      case marking =>
        refine ⟨h, hn.set rfl (fun u hu ↦ Function.update_of_ne hu _ _) (Or.inr ⟨_, rfl⟩) ?_ ?_
          (fun u _ ↦ Iff.rfl) hn.slot hn.out⟩
        · simp
        · simp [Phase.holds, hsome hb rfl]
      all_goals exact ⟨h, hn⟩
  | execute t f o =>
    have hkeep {c : Conn σ} {body : List (σ → σ)} {units : List (List (σ → σ))} :
        Nesting { s with conn := c, body := body, units := units } h :=
      ⟨hn.one, hn.counted, hn.holder, hn.slot, hn.out⟩
    refine ⟨h, ?_⟩
    simp only [step]
    split
    · split
      · split_ifs <;> exact hkeep
      · exact hkeep
    · exact hn
  | exit t raised commit rollback =>
    cases hb : s.blocks t with
    | nil => exact ⟨h, by simpa only [step, hb] using hn⟩
    | cons p l =>
      cases hn.cons hb
      cases p <;> simp only [step, hb]
      case inside =>
        have hfree : ∀ q ∈ [Phase.finishing], q.holds = false := by simp [Phase.holds]
        refine ⟨none, hn.release hb rfl ?_ ?_ ?_ (Or.inr ⟨_, rfl⟩) hfree
          fun _ ↦ hn.counted t (Or.inl hb)⟩ <;> rfl
      all_goals exact ⟨h, hn⟩
  | finish t =>
    cases hb : s.blocks t with
    | nil => exact ⟨h, by simpa only [step, hb] using hn⟩
    | cons p l =>
      cases hn.cons hb
      cases p <;> simp only [step, hb]
      case finishing =>
        refine ⟨h, hn.set rfl (fun u hu ↦ Function.update_of_ne hu _ _) (Or.inl rfl) (by simp) ?_
          (fun u _ ↦ Iff.rfl) hn.slot hn.out⟩
        simpa using hnone hb rfl
      all_goals exact ⟨h, hn⟩
  | drop t rollback =>
    cases hb : s.blocks t with
    | nil => exact ⟨h, by simpa only [step, hb] using hn⟩
    | cons p l =>
      cases hn.cons hb
      cases p <;> simp only [step, hb]
      case inside =>
        refine ⟨none, hn.release hb rfl ?_ ?_ ?_ (Or.inl rfl) (by simp) (by simp)⟩ <;> rfl
      all_goals exact ⟨h, hn⟩
  | close =>
    refine ⟨h, ?_⟩
    simp only [step]
    split_ifs with hslot
    · exact ⟨hn.one, hn.counted, hn.holder, by simp, fun _ ↦ Or.inr rfl⟩
    · exact ⟨hn.one, hn.counted, hn.holder, by simp [hslot], fun _ ↦ Or.inr rfl⟩
  | foreign f =>
    refine ⟨h, ?_⟩
    simp only [step]
    split_ifs
    · exact ⟨hn.one, hn.counted, hn.holder, hn.slot, hn.out⟩
    · exact hn

theorem nesting_run (x : σ) (as : List (Act τ σ)) : ∃ h, Nesting (run step (.opened τ x) as) h :=
  run_invariant (P := fun s ↦ ∃ h, Nesting s h) step (fun _ a hs ↦ hs.elim fun _ hn ↦ nesting_step hn a)
    ⟨none, .opened x⟩ as

/-- In every interleaving of `with db.transaction()` blocks, a thread that waits for the writer's
connection is inside no other block of its own; and unless the database is closed or the connection is
free, another thread has it. -/
theorem tx_no_self_deadlock (x : σ) (as : List (Act τ σ)) (t : τ) (l : List Phase)
    (hwait : (run step (.opened τ x) as).blocks t = .waiting :: l) :
    let s := run step (.opened τ x) as
    l = [] ∧
      (s.slot = false → s.closed = false → ∃ u ≠ t, ∃ p, s.blocks u = [p] ∧ p.holds = true) := by
  intro s
  obtain ⟨h, hn⟩ : ∃ h, Nesting s h := nesting_run x as
  cases hn.cons hwait
  refine ⟨rfl, fun hslot hclosed ↦ ?_⟩
  obtain ⟨u, hu⟩ : ∃ u, h = some u := by
    refine Option.ne_none_iff_exists'.mp fun hnone ↦ ?_
    rcases hn.out hnone with hs | hc
    · simp [hslot] at hs
    · simp [hclosed] at hc
  obtain ⟨p, hmem, hp⟩ := (hn.holder u).mpr hu
  refine ⟨u, ?_, p, ?_, hp⟩
  · rintro rfl
    rw [show s.blocks u = [.waiting] from hwait, List.mem_singleton] at hmem
    subst hmem
    cases hp
  · rcases hn.one u with hnil | ⟨q, hone⟩
    · simp [hnil] at hmem
    · rw [hone, List.mem_singleton] at hmem
      rw [hone, hmem]

/-- Thread `true` comes to its block while thread `false` is inside its own. -/
def contended : List (Act Bool ℕ) :=
  [.enter false, .acquire false, .begin false .ok, .mark false, .enter true, .acquire true]

theorem tx_no_self_deadlock_contended :
    (run step (.opened Bool 0) contended).blocks true = [.waiting] ∧
      ∃ u ≠ true, ∃ p, (run step (.opened Bool 0) contended).blocks u = [p] ∧ p.holds = true :=
  ⟨rfl, (tx_no_self_deadlock 0 contended true [] rfl).2 rfl rfl⟩

end Blocks

section Units

variable {τ σ : Type} {x : σ}

theorem replay_snoc (units : List (List (σ → σ))) (unit : List (σ → σ)) :
    replay x (units ++ [unit]) = unitOf (replay x units) unit := by
  simp [replay]

theorem unitOf_snoc (body : List (σ → σ)) (f : σ → σ) : unitOf x (body ++ [f]) = f (unitOf x body) := by
  simp [unitOf]

theorem endBlock_cases (c : Conn σ) (raised : Bool) (commit rollback : Outcome) :
    (∃ c', endBlock c raised commit rollback = (true, .idle c') ∧ c' = c.contents ∧
      c.autocommit = false) ∨
    ∃ c₁, (c₁ = c ∨ c₁ = c.rolledBack) ∧
      endBlock c raised commit rollback = (false, (Transaction.exec c₁ .rollback rollback).2) := by
  unfold endBlock
  split_ifs
  · exact Or.inr ⟨c, Or.inl rfl, rfl⟩
  · split
    case h_1 c' hcommit =>
      obtain ⟨hauto, rfl⟩ := commit_ok hcommit
      exact Or.inl ⟨c.contents, rfl, rfl, hauto⟩
    case h_2 e c' hcommit => exact Or.inr ⟨c', commit_error hcommit, rfl⟩

/-- A block is past its `BEGIN IMMEDIATE` and before its end. -/
def Sys.Began (s : Sys τ σ) : Prop := ∃ t, ∃ p ∈ s.blocks t, p = .marking ∨ p = .inside

/-- A connection in the transaction of a block that has written `body`. -/
def Open (body : List (σ → σ)) (c : Conn σ) : Prop :=
  c = .inTransaction c.committed (unitOf c.committed body) []

/-- The committed contents are the committed units, and in a block the connection holds what the block
has written on top of them, unless SQLite has rolled the transaction back by itself. -/
structure Atomic (x : σ) (s : Sys τ σ) : Prop where
  committed : s.conn.committed = replay x s.units
  began : s.Began → Open s.body s.conn ∨ s.conn.autocommit = true

theorem Atomic.opened (x : σ) : Atomic x (Sys.opened τ x) where
  committed := rfl
  began _ := Or.inr rfl

theorem Open.rolledBack {body : List (σ → σ)} {c c' : Conn σ} (h : Open body c ∨ c.autocommit = true)
    (hc : c' = c ∨ c'.autocommit = true) : Open body c' ∨ c'.autocommit = true := by
  rcases hc with rfl | hauto
  · exact h
  · exact Or.inr hauto

theorem rollback_cases (c : Conn σ) (o : Outcome) :
    (Transaction.exec c .rollback o).2 = c ∨ (Transaction.exec c .rollback o).2.autocommit = true := by
  cases o with
  | ok => cases c <;> simp [Transaction.exec, Transaction.apply, Conn.autocommit]
  | fail e => exact Or.inl rfl
  | abort e => exact Or.inr rfl

theorem Atomic.release {s : Sys τ σ} (h : Atomic x s) : Atomic x s.release := by
  unfold Sys.release
  split_ifs
  · exact ⟨h.committed, fun _ ↦ Or.inr rfl⟩
  · exact ⟨h.committed, h.began⟩

theorem committed_of_autocommit {c : Conn σ} (h : c.autocommit = true) : c.contents = c.committed := by
  cases c with
  | idle s => rfl
  | inTransaction => cases h

theorem Atomic.execute {s : Sys τ σ} (h : Atomic x s) (hopen : Open s.body s.conn ∨ s.conn.autocommit = true)
    (f : σ → σ) (o : Outcome) :
    Atomic x (match Transaction.exec s.conn (.write f) o with
      | (.ok (), c) =>
        if s.conn.autocommit then { s with conn := c, units := s.units ++ [[f]] }
        else { s with conn := c, body := s.body ++ [f] }
      | (.error _, c) => { s with conn := c }) := by
  have hcommitted := h.committed
  cases o with
  | ok =>
    cases hconn : s.conn with
    | idle y =>
      rw [hconn] at hcommitted
      refine ⟨?_, fun _ ↦ Or.inr rfl⟩
      change f y = replay x (s.units ++ [[f]])
      rw [replay_snoc, ← hcommitted]
      rfl
    | inTransaction b y fs =>
      rw [hconn] at hcommitted hopen
      rcases hopen with hopen | hauto
      · refine ⟨hcommitted, fun _ ↦ Or.inl ?_⟩
        obtain ⟨-, hy, hfs⟩ := Conn.inTransaction.inj hopen
        change Conn.inTransaction b (f y) fs = .inTransaction b (unitOf b (s.body ++ [f])) []
        rw [unitOf_snoc, hfs, show y = unitOf b s.body from hy]
      · cases hauto
  | fail e => exact ⟨hcommitted, fun hbegan ↦ h.began hbegan⟩
  | abort e => exact ⟨hcommitted, fun _ ↦ Or.inr rfl⟩

theorem Atomic.endBlock {s : Sys τ σ} (h : Atomic x s)
    (hopen : Open s.body s.conn ∨ s.conn.autocommit = true) (raised : Bool) (commit rollback : Outcome) :
    Atomic x { s with
      conn := (Session.endBlock s.conn raised commit rollback).2
      units := if (Session.endBlock s.conn raised commit rollback).1 then s.units ++ [s.body]
        else s.units } := by
  rcases endBlock_cases s.conn raised commit rollback with ⟨y, hend, rfl, hauto⟩ | ⟨c₁, hc₁, hend⟩
  · rcases hopen with hopen | hauto'
    · refine ⟨?_, fun _ ↦ Or.inr (by rw [hend]; rfl)⟩
      rw [hend]
      change s.conn.contents = replay x (s.units ++ [s.body])
      rw [replay_snoc, ← h.committed, hopen]
      rfl
    · rw [hauto'] at hauto
      cases hauto
  · have hcommitted : c₁.committed = s.conn.committed := by
      rcases hc₁ with rfl | rfl <;> rfl
    refine ⟨?_, fun hbegan ↦ ?_⟩
    · rw [hend]
      exact (committed_rollback _ _).trans (hcommitted.trans h.committed)
    · rw [hend]
      refine Open.rolledBack (Open.rolledBack (h.began hbegan) ?_) (rollback_cases c₁ rollback)
      exact hc₁.imp_right fun hc ↦ by rw [hc]; rfl

theorem blocks_release (s : Sys τ σ) : s.release.blocks = s.blocks := by
  unfold Sys.release
  split_ifs <;> rfl

variable [DecidableEq τ]

/-- A step of thread `t` that begins nothing. -/
theorem Atomic.set {s : Sys τ σ} (h : Atomic x s) {t : τ} {l : List Phase}
    (hl : (∃ p ∈ l, p = .marking ∨ p = .inside) → s.Began) : Atomic x (s.set t l) := by
  refine ⟨h.committed, fun hb ↦ h.began ?_⟩
  obtain ⟨u, p, hp, hbegan⟩ := hb
  simp only [Sys.set, Function.update_apply] at hp
  split_ifs at hp
  · exact hl ⟨p, hp, hbegan⟩
  · exact ⟨u, p, hp, hbegan⟩

theorem Atomic.set_tail {s : Sys τ σ} (h : Atomic x s) {t : τ} {p q : Phase} {l : List Phase}
    (hb : s.blocks t = p :: l) (hq : q = .marking ∨ q = .inside → s.Began) : Atomic x (s.set t (q :: l)) := by
  refine h.set ?_
  rintro ⟨r, hr, hbegan⟩
  rcases List.mem_cons.mp hr with rfl | hr
  · exact hq hbegan
  · exact ⟨t, r, by simp [hb, hr], hbegan⟩

theorem Atomic.pop {s : Sys τ σ} (h : Atomic x s) {t : τ} {p : Phase} {l : List Phase}
    (hb : s.blocks t = p :: l) : Atomic x (s.set t l) := by
  refine h.set ?_
  rintro ⟨r, hr, hbegan⟩
  exact ⟨t, r, by simp [hb, hr], hbegan⟩

theorem atomic_step {s : Sys τ σ} (h : Atomic x s) (a : Act τ σ) : Atomic x (step s a) := by
  cases a with
  | enter t =>
    simp only [step]
    split
    · split_ifs
      · exact h
      · exact h.set (by simp)
    case h_2 l hb =>
      split_ifs
      · exact h
      · exact h.set fun _ ↦ ⟨t, .inside, by simp [hb], Or.inr rfl⟩
    · exact h
  | acquire t =>
    simp only [step]
    split
    case h_1 l hb =>
      split_ifs
      · exact h.pop hb
      · have htaken : Atomic x { s with slot := false } := ⟨h.committed, h.began⟩
        exact htaken.set_tail hb (by simp)
      · exact h
    · exact h
  | begin t o =>
    simp only [step]
    split
    case h_1 l hb =>
      split
      case h_1 c hbegin =>
        obtain ⟨-, rfl⟩ := beginImmediate_ok hbegin
        exact ⟨h.committed, fun _ ↦ Or.inl rfl⟩
      case h_2 e c hbegin =>
        have hc : c = s.conn ∨ c.autocommit = true :=
          (beginImmediate_error hbegin).imp_right fun hc ↦ by rw [hc]; rfl
        have hcommitted : c.committed = s.conn.committed := by
          rcases beginImmediate_error hbegin with rfl | rfl <;> rfl
        have hconn : Atomic x { s with conn := c } :=
          ⟨hcommitted.trans h.committed, fun hbegan ↦ Open.rolledBack (h.began hbegan) hc⟩
        exact hconn.release.pop (by rw [blocks_release]; exact hb)
    · exact h
  | mark t =>
    simp only [step]
    split
    case h_1 l hb =>
      have hdepth : Atomic x { s with depth := Function.update s.depth t (s.depth t + 1) } :=
        ⟨h.committed, h.began⟩
      exact hdepth.set_tail hb fun _ ↦ ⟨t, .marking, by simp [hb], Or.inl rfl⟩
    · exact h
  | execute t f o =>
    simp only [step]
    split
    case h_1 l hb =>
      exact h.execute (h.began ⟨t, .inside, by simp [hb], Or.inr rfl⟩) f o
    · exact h
  | exit t raised commit rollback =>
    simp only [step]
    split
    case h_1 l hb =>
      have hopen := h.began ⟨t, .inside, by simp [hb], Or.inr rfl⟩
      refine (h.endBlock hopen raised commit rollback).release.set_tail (p := .inside) ?_ (by simp)
      rw [blocks_release]
      exact hb
    · exact h
  | finish t =>
    simp only [step]
    split
    case h_1 l hb =>
      have hdepth : Atomic x { s with depth := Function.update s.depth t (s.depth t - 1) } :=
        ⟨h.committed, h.began⟩
      exact hdepth.pop hb
    · exact h
  | drop t rollback =>
    simp only [step]
    split
    case h_1 l hb =>
      have hconn : Atomic x { s with conn := (Transaction.exec s.conn .rollback rollback).2 } :=
        ⟨(committed_rollback _ _).trans h.committed,
          fun hbegan ↦ Open.rolledBack (h.began hbegan) (rollback_cases _ _)⟩
      exact hconn.release.pop (by rw [blocks_release]; exact hb)
    · exact h
  | close =>
    simp only [step]
    split_ifs
    · exact ⟨h.committed, fun _ ↦ Or.inr rfl⟩
    · exact ⟨h.committed, h.began⟩
  | foreign f =>
    simp only [step]
    split_ifs with hauto
    · refine ⟨?_, fun _ ↦ Or.inr rfl⟩
      rw [replay_snoc, ← h.committed, ← committed_of_autocommit hauto]
      rfl
    · exact h

end Units

section Connection

variable {τ σ : Type} {x : σ}

/-- The statements of the block succeed or fail, without SQLite rolling the transaction back. -/
def Unaborted : Act τ σ → Prop
  | .execute _ _ o => o.isAbort = false
  | _ => True

/-- The `ROLLBACK` at the end of a block does not fail without effect. -/
def Clears : Act τ σ → Prop
  | .exit _ _ _ rollback | .drop _ rollback => ∀ e, rollback ≠ .fail e
  | _ => True

/-- The connection is in a transaction of a block where `P` holds, and in autocommit outside of the
blocks where `Q` holds. -/
structure Tidy (P Q : Prop) (s : Sys τ σ) : Prop where
  began : P → s.Began → Open s.body s.conn
  idle : Q → ¬ s.Began → s.conn.autocommit = true

variable {P Q : Prop}

theorem holds_of_began {p : Phase} (h : p = .marking ∨ p = .inside) : p.holds = true := by
  rcases h with rfl | rfl <;> rfl

theorem Nesting.not_began {s : Sys τ σ} {h : Option τ} (hn : Nesting s h) (hslot : s.slot = true) :
    ¬ s.Began := by
  rintro ⟨t, p, hp, hbegan⟩
  have ht := (hn.holder t).mp ⟨p, hp, holds_of_began hbegan⟩
  cases ht.symm.trans (hn.slot hslot).1

theorem not_autocommit_of_open {body : List (σ → σ)} {c : Conn σ} (h : Open body c) :
    c.autocommit = false := by
  rw [h]
  rfl

/-- A step that leaves the connection alone. -/
theorem Tidy.of_same {s s' : Sys τ σ} (h : Tidy P Q s) (hconn : s'.conn = s.conn)
    (hbody : s'.body = s.body) (hbegan : s'.Began ↔ s.Began) : Tidy P Q s' where
  began hp hb := by
    rw [hconn, hbody]
    exact h.began hp (hbegan.mp hb)
  idle hq hb := by
    rw [hconn]
    exact h.idle hq (mt hbegan.mpr hb)

/-- A statement of a block that is not aborted leaves the block's transaction open. -/
theorem open_execute {s : Sys τ σ} (h : Open s.body s.conn) (f : σ → σ) {o : Outcome}
    (ho : o.isAbort = false) :
    let s' := match Transaction.exec s.conn (.write f) o with
      | (.ok (), c) =>
        if s.conn.autocommit then { s with conn := c, units := s.units ++ [[f]] }
        else { s with conn := c, body := s.body ++ [f] }
      | (.error _, c) => { s with conn := c }
    Open s'.body s'.conn := by
  cases o with
  | ok =>
    rw [h]
    change Conn.inTransaction _ (f (unitOf _ s.body)) [] =
      .inTransaction _ (unitOf _ (s.body ++ [f])) []
    rw [unitOf_snoc]
    rfl
  | fail e => exact h
  | abort e => cases ho

theorem autocommit_release {s : Sys τ σ} (h : s.conn.autocommit = true) :
    s.release.conn.autocommit = true := by
  unfold Sys.release
  split_ifs
  · rfl
  · exact h

variable [DecidableEq τ]

/-- Only the thread with the connection can be in a block, so nobody is once it has left its own. -/
theorem Nesting.not_began_set {s s' : Sys τ σ} {h : Option τ} (hn : Nesting s h) {t : τ} {p : Phase}
    {l l' : List Phase} (hb : s.blocks t = p :: l) (hp : p.holds = true) (hblocks : s'.blocks = s.blocks)
    (hl : ∀ q ∈ l', ¬ (q = .marking ∨ q = .inside)) : ¬ (s'.set t l').Began := by
  rintro ⟨u, q, hq, hbegan⟩
  simp only [Sys.set, hblocks, Function.update_apply] at hq
  split_ifs at hq with hu
  · exact hl q hq hbegan
  · have ht := (hn.holder t).mp ⟨p, by simp [hb], hp⟩
    have hu' := (hn.holder u).mp ⟨q, hq, holds_of_began hbegan⟩
    exact hu (Option.some.inj (hu'.symm.trans ht))

theorem began_set {s s' : Sys τ σ} {t : τ} {l : List Phase} (hblocks : s'.blocks = s.blocks)
    (hl : (∃ p ∈ l, p = .marking ∨ p = .inside) ↔ ∃ p ∈ s.blocks t, p = .marking ∨ p = .inside) :
    (s'.set t l).Began ↔ s.Began := by
  unfold Sys.Began
  refine exists_congr fun u ↦ ?_
  simp only [Sys.set, hblocks, Function.update_apply]
  split_ifs with hu
  · rw [hl, hu]
  · rfl

theorem tidy_step {s : Sys τ σ} {h : Option τ} (hn : Nesting s h) (hs : Tidy P Q s) (a : Act τ σ)
    (hP : P → Unaborted a) (hQ : Q → Clears a) : Tidy P Q (step s a) := by
  cases a with
  | enter t =>
    cases hb : s.blocks t with
    | nil =>
      simp only [step, hb]
      split_ifs
      · exact hs
      · exact hs.of_same rfl rfl (began_set rfl (by simp [hb]))
    | cons p l =>
      cases hn.cons hb
      cases p <;> simp only [step, hb]
      case inside =>
        rw [if_pos (hn.counted t (Or.inl hb))]
        exact hs
      all_goals exact hs
  | acquire t =>
    cases hb : s.blocks t with
    | nil => simpa only [step, hb] using hs
    | cons p l =>
      cases hn.cons hb
      cases p <;> simp only [step, hb]
      case waiting =>
        split_ifs
        · exact hs.of_same rfl rfl (began_set rfl (by simp [hb]))
        · refine hs.of_same ?_ ?_ (began_set ?_ (by simp [hb])) <;> rfl
        · exact hs
      all_goals exact hs
  | begin t o =>
    cases hb : s.blocks t with
    | nil => simpa only [step, hb] using hs
    | cons p l =>
      cases hn.cons hb
      cases p <;> simp only [step, hb]
      case beginning =>
        split
        case h_1 c hbegin =>
          obtain ⟨-, rfl⟩ := beginImmediate_ok hbegin
          refine ⟨fun _ _ ↦ rfl, fun _ hnot ↦ absurd ⟨t, .marking, ?_, Or.inl rfl⟩ hnot⟩
          simp [Sys.set]
        case h_2 e c hbegin =>
          have hnot : ¬ s.Began := by
            have hset : ¬ (s.set t [.beginning]).Began := hn.not_began_set hb rfl rfl (by simp)
            rwa [began_set rfl (by simp [hb])] at hset
          refine ⟨fun _ hbegan ↦ absurd hbegan ?_, fun hq _ ↦ autocommit_release ?_⟩
          · exact hn.not_began_set hb rfl (blocks_release _) (by simp)
          · rcases beginImmediate_error hbegin with rfl | rfl
            · exact hs.idle hq hnot
            · rfl
      all_goals exact hs
  | mark t =>
    cases hb : s.blocks t with
    | nil => simpa only [step, hb] using hs
    | cons p l =>
      cases hn.cons hb
      cases p <;> simp only [step, hb]
      case marking => refine hs.of_same ?_ ?_ (began_set ?_ (by simp [hb])) <;> rfl
      all_goals exact hs
  | execute t f o =>
    simp only [step]
    split
    case h_1 l hb =>
      have hbegan : s.Began := ⟨t, .inside, by simp [hb], Or.inr rfl⟩
      refine ⟨fun hp _ ↦ open_execute (hs.began hp hbegan) f (hP hp), fun _ hnot ↦ absurd ?_ hnot⟩
      split
      · split_ifs <;> exact hbegan
      · exact hbegan
    · exact hs
  | exit t raised commit rollback =>
    cases hb : s.blocks t with
    | nil => simpa only [step, hb] using hs
    | cons p l =>
      cases hn.cons hb
      cases p <;> simp only [step, hb]
      case inside =>
        refine ⟨fun _ hbegan ↦ absurd hbegan ?_, fun hq _ ↦ autocommit_release ?_⟩
        · exact hn.not_began_set hb rfl (blocks_release _) (by simp)
        · rcases endBlock_cases s.conn raised commit rollback with ⟨y, hend, -⟩ | ⟨c₁, -, hend⟩
          · rw [hend]
            rfl
          · rw [hend]
            exact autocommit_rollback c₁ (hQ hq)
      all_goals exact hs
  | finish t =>
    cases hb : s.blocks t with
    | nil => simpa only [step, hb] using hs
    | cons p l =>
      cases hn.cons hb
      cases p <;> simp only [step, hb]
      case finishing => refine hs.of_same ?_ ?_ (began_set ?_ (by simp [hb])) <;> rfl
      all_goals exact hs
  | drop t rollback =>
    cases hb : s.blocks t with
    | nil => simpa only [step, hb] using hs
    | cons p l =>
      cases hn.cons hb
      cases p <;> simp only [step, hb]
      case inside =>
        refine ⟨fun _ hbegan ↦ absurd hbegan ?_, fun hq _ ↦ autocommit_release ?_⟩
        · exact hn.not_began_set hb rfl (blocks_release _) (by simp)
        · exact autocommit_rollback s.conn (hQ hq)
      all_goals exact hs
  | close =>
    simp only [step]
    split_ifs with hslot
    · refine ⟨fun _ hb ↦ absurd hb ?_, fun _ _ ↦ rfl⟩
      exact hn.not_began hslot
    · exact ⟨hs.began, hs.idle⟩
  | foreign f =>
    simp only [step]
    split_ifs with hauto
    · refine ⟨fun hp hb ↦ ?_, fun _ _ ↦ rfl⟩
      have hopen := not_autocommit_of_open (hs.began hp hb)
      rw [hauto] at hopen
      cases hopen
    · exact hs

theorem tidy_run (x : σ) {as : List (Act τ σ)} (hP : ∀ a ∈ as, P → Unaborted a)
    (hQ : ∀ a ∈ as, Q → Clears a) : Tidy P Q (run step (.opened τ x) as) := by
  induction as using List.reverseRecOn with
  | nil =>
    refine ⟨fun _ hbegan ↦ ?_, fun _ _ ↦ rfl⟩
    obtain ⟨t, p, hp, -⟩ := hbegan
    cases hp
  | append_singleton as a ih =>
    simp only [List.forall_mem_append, List.forall_mem_singleton] at hP hQ
    obtain ⟨h, hn⟩ := nesting_run x as
    rw [run, List.foldl_append]
    exact tidy_step hn (ih hP.1 hQ.1) a hP.2 hQ.2

omit [DecidableEq τ] in
theorem units_release (s : Sys τ σ) : s.release.units = s.units := by
  unfold Sys.release
  split_ifs <;> rfl

theorem units_step (s : Sys τ σ) (a : Act τ σ) :
    (step s a).units = s.units ++ (commits s a).toList := by
  cases a with
  | execute t f o =>
    simp only [step]
    split
    case h_1 l hb =>
      cases o with
      | ok => cases hconn : s.conn <;> simp [commits, hb, hconn, Transaction.exec, Transaction.apply,
          Conn.autocommit]
      | fail e => simp [commits]
      | abort e => simp [commits]
    case h_2 => cases o <;> simp [commits]
  | exit t raised commit rollback =>
    simp only [step]
    split
    case h_1 l hb =>
      simp only [Sys.set, units_release]
      cases raised with
      | true => simp [Session.endBlock, commits]
      | false =>
        cases commit with
        | ok => cases hconn : s.conn <;> simp [commits, hb, hconn, Session.endBlock, Transaction.commit,
            Conn.autocommit]
        | fail e => simp [commits, Session.endBlock, Transaction.commit]
        | abort e => simp [commits, Session.endBlock, Transaction.commit]
    case h_2 => cases raised <;> cases commit <;> simp [commits]
  | foreign f =>
    simp only [step, commits]
    split_ifs <;> simp
  | _ =>
    simp only [step, commits, Option.toList_none, List.append_nil]
    repeat' split
    all_goals simp [Sys.set, units_release]

omit [DecidableEq τ] in
/-- A write of a block in its transaction commits nothing. -/
theorem commits_execute {s : Sys τ σ} {t : τ} {f : σ → σ} {o : Outcome}
    (h : s.Began → s.conn.autocommit = false) : commits s (.execute t f o) = none := by
  cases o with
  | ok =>
    simp only [commits]
    split
    case h_1 l hb => rw [h ⟨t, .inside, by simp [hb], Or.inr rfl⟩, if_neg (by simp)]
    case h_2 => rfl
  | fail e => rfl
  | abort e => rfl

theorem units_run (s : Sys τ σ) (as : List (Act τ σ)) :
    (run step s as).units = s.units ++ committedUnits s as := by
  induction as generalizing s with
  | nil => simp [run, committedUnits]
  | cons a as ih =>
    rw [committedUnits, ← List.append_assoc, ← units_step]
    exact ih (step s a)

/-- In every interleaving of blocks, with any outcomes of their statements, and of commits by other
processes, what the database holds is what the committed units, one after the other, make of its first
contents. A unit is all that a block whose `COMMIT` succeeded has written, or a commit of another
process, and none is of another block unless SQLite rolls the transaction of a block back by itself:
from there on each write of that block is a unit of its own. Unless SQLite does so, a block sees the
committed units with its own writes on top; and unless a `ROLLBACK` fails without effect, the writer
gets its connection back in autocommit. -/
theorem tx_atomic (x : σ) (as : List (Act τ σ)) :
    let s := run step (.opened τ x) as
    s.conn.committed = replay x s.units ∧ s.units = committedUnits (.opened τ x) as ∧
      ((∀ a ∈ as, Unaborted a) →
        (∀ bs t f o cs, as = bs ++ .execute t f o :: cs →
          commits (run step (.opened τ x) bs) (.execute t f o) = none) ∧
        ∀ t, .inside ∈ s.blocks t →
          s.conn = .inTransaction (replay x s.units) (unitOf (replay x s.units) s.body) []) ∧
      ((∀ a ∈ as, Clears a) → s.slot = true → s.conn.autocommit = true) := by
  intro s
  have hatomic : Atomic x s :=
    run_invariant (P := Atomic x) step (fun _ a hs ↦ atomic_step hs a) (.opened x) as
  obtain ⟨h, hn⟩ : ∃ h, Nesting s h := nesting_run x as
  have htidy : Tidy (∀ a ∈ as, Unaborted a) (∀ a ∈ as, Clears a) s :=
    tidy_run x (fun a ha hP ↦ hP a ha) (fun a ha hQ ↦ hQ a ha)
  refine ⟨hatomic.committed, units_run _ as, fun hP ↦ ⟨?_, fun t ht ↦ ?_⟩,
    fun hQ hslot ↦ htidy.idle hQ (hn.not_began hslot)⟩
  · rintro bs t f o cs rfl
    refine commits_execute fun hbegan ↦ ?_
    have htidy : Tidy True False (run step (.opened τ x) bs) :=
      tidy_run x (fun a ha _ ↦ hP a (List.mem_append_left _ ha)) (by simp)
    exact not_autocommit_of_open (htidy.began trivial hbegan)
  · have hopen := htidy.began hP ⟨t, .inside, ht, Or.inr rfl⟩
    rwa [Open, hatomic.committed] at hopen

/-- A block whose `COMMIT` finds the database busy, then one that commits. -/
def retried : List (Act Unit ℕ) :=
  [.enter (), .acquire (), .begin () .ok, .mark (), .execute () (· + 1) .ok,
    .exit () false (.fail ⟨true, "database is locked"⟩) .ok, .finish (),
    .enter (), .acquire (), .begin () .ok, .mark (), .execute () (· * 2) .ok, .execute () (· + 3) .ok,
    .exit () false .ok .ok]

theorem tx_atomic_retried :
    let s := run step (.opened Unit 5) retried
    s.units.length = 1 ∧ replay 5 s.units = 13 ∧ s.conn.autocommit = true := by
  intro s
  obtain ⟨hcommitted, -, -, hidle⟩ := tx_atomic 5 retried
  refine ⟨rfl, ?_, hidle ?_ rfl⟩
  · rw [← hcommitted]
    rfl
  · simp [retried, Clears]

end Connection

end Honker.Session
