import Honker.Schema
import Honker.Library.Transition

namespace Honker

open Relational Numeric Transition

/-- A row of `_honker_locks`. -/
structure LockRow where
  name : String
  owner : String
  expiresAt : Number
deriving DecidableEq

abbrev LockTable := Table LockRow.name

section Statements

/-- The first statement of `lock_acquire`. -/
def deleteExpiredLock (name : String) (now : Clock) (locks : LockTable) : LockTable :=
  locks.delete fun r ↦ r.name = name ∧ r.expiresAt.val ≤ now

/-- The `INSERT OR IGNORE` of `lock_acquire`. It leaves an existing row as it is, its owner's too. -/
def insertOrIgnoreLock (name owner : String) (ttlS : I64) (now : Clock) (locks : LockTable) :
    LockTable :=
  if h : name ∈ locks.rows.map LockRow.name then locks
  else locks.insert ⟨name, owner, add now ttlS⟩ h

/-- The `SELECT owner` that decides the result of `lock_acquire`. -/
def selectLockOwner (name owner : String) (locks : LockTable) : ℤ :=
  if (locks.find? name).map LockRow.owner = some owner then 1 else 0

def lockRelease (name owner : String) (locks : LockTable) : ℤ × LockTable :=
  let mine (r : LockRow) : Bool := r.name = name ∧ r.owner = owner
  ((locks.rows.filter mine).length, locks.delete mine)

def lockRenew (name owner : String) (ttlS : I64) (now : Clock) (locks : LockTable) :
    Except SqlError ℤ × LockTable :=
  if ttlS.val ≤ 0 then (.error (.statement "ttl_s must be positive"), locks)
  else
    let mine (r : LockRow) : Bool := r.name = name ∧ r.owner = owner
    let updated := (locks.rows.filter mine).length
    (.ok (if 0 < updated then 1 else 0),
      locks.update mine (fun r ↦ { r with expiresAt := add now ttlS }) fun _ ↦ rfl)

variable (locks : LockTable) (n name owner : String) (ttlS : I64) (now : Clock)

theorem find?_deleteExpiredLock : (deleteExpiredLock name now locks).find? n =
    if n = name then (locks.find? n).filter (fun r ↦ now.secs < r.expiresAt.val)
    else locks.find? n := by
  rw [deleteExpiredLock, Table.find?_delete]
  cases hr : locks.find? n with
  | none => simp
  | some r =>
    obtain ⟨-, rfl⟩ := Table.find?_eq_some.mp hr
    by_cases hn : r.name = name <;> simp [Option.filter, hn]

theorem find?_insertOrIgnoreLock : (insertOrIgnoreLock name owner ttlS now locks).find? n =
    if n = name ∧ locks.find? name = none then some ⟨name, owner, add now ttlS⟩
    else locks.find? n := by
  simp only [Table.find?_eq_none, insertOrIgnoreLock]
  split_ifs with h hn hn
  · exact absurd h hn.2
  · rfl
  · rw [Table.find?_insert, if_pos hn.1.symm]
  · rw [Table.find?_insert, if_neg (fun he ↦ hn ⟨he.symm, h⟩)]

theorem find?_lockRelease : (lockRelease name owner locks).2.find? n =
    if n = name then (locks.find? n).filter (fun r ↦ r.owner ≠ owner) else locks.find? n := by
  rw [lockRelease, Table.find?_delete]
  cases hr : locks.find? n with
  | none => simp
  | some r =>
    obtain ⟨-, rfl⟩ := Table.find?_eq_some.mp hr
    by_cases hn : r.name = name <;> simp [Option.filter, hn]

theorem find?_lockRenew (hpos : 0 < ttlS.val) : (lockRenew name owner ttlS now locks).2.find? n =
    (locks.find? n).map fun r ↦
      if n = name ∧ r.owner = owner then { r with expiresAt := add now ttlS } else r := by
  rw [lockRenew, if_neg (by omega), Table.find?_update]
  cases hr : locks.find? n with
  | none => rfl
  | some r =>
    obtain ⟨-, rfl⟩ := Table.find?_eq_some.mp hr
    simp

theorem lockRenew_eq_one : (lockRenew name owner ttlS now locks).1 = .ok 1 ↔
    0 < ttlS.val ∧ (locks.find? name).map LockRow.owner = some owner := by
  rw [lockRenew]
  split_ifs with hpos
  · simp only [false_iff, not_and]
    omega
  · have hone (k : ℕ) : ((Except.ok (if 0 < k then 1 else 0) : Except SqlError ℤ) = .ok 1) ↔ 0 < k := by
      split_ifs with hk <;> simp [hk]
    rw [hone, locks.filter_key (k := name) (fun r hr ↦ (of_decide_eq_true hr).1)]
    cases hr : locks.find? name with
    | none => simp
    | some r =>
      obtain ⟨-, rfl⟩ := Table.find?_eq_some.mp hr
      by_cases ho : r.owner = owner <;> simp [Option.filter, ho, not_le.mp hpos]

theorem selectLockOwner_eq_one : selectLockOwner name owner locks = 1 ↔
    (locks.find? name).map LockRow.owner = some owner := by
  rw [selectLockOwner]
  split_ifs with h <;> simp [h]

end Statements

/-- A time to live of at least a second. -/
structure Ttl where
  secs : I64
  pos : 1 ≤ secs.val
deriving DecidableEq

/-- The time to live nearest to `x`. -/
def Ttl.near (x : ℤ) : Ttl := ⟨.near (max 1 x), by simp only [I64.near]; omega⟩

/-- Where a client stands in `lock_acquire`, with the call's arguments and the clock reading of its
`DELETE`. -/
inductive Acquiring
  | idle
  | inserting (name owner : String) (ttl : Ttl) (deletedAt : Clock)
  | selecting (name owner : String) (deletedAt : Clock)
deriving DecidableEq

structure LockSys (ι : Type) where
  locks : LockTable
  pc : ι → Acquiring

def LockSys.fresh (ι : Type) : LockSys ι := ⟨.empty, fun _ ↦ .idle⟩

/-- The committed statements of the clients, each at a clock reading. `abort` is a statement of
`lock_acquire` that fails, after which the call returns its error. -/
inductive LockAction (ι : Type)
  | delete (i : ι) (now : Clock) (name owner : String) (ttl : Ttl)
  | insert (i : ι) (now : Clock)
  | select (i : ι) (now : Clock)
  | abort (i : ι) (now : Clock)
  | release (i : ι) (now : Clock) (name owner : String)
  | renew (i : ι) (now : Clock) (name owner : String) (ttlS : I64)

def LockAction.now {ι : Type} : LockAction ι → Clock
  | .delete _ now _ _ _ => now
  | .insert _ now => now
  | .select _ now => now
  | .abort _ now => now
  | .release _ now _ _ => now
  | .renew _ now _ _ _ => now

/-- What a step returns to its caller. -/
inductive LockRet
  | running
  | acquired (name owner : String) (got : ℤ)
  | released (name owner : String) (deleted : ℤ)
  | renewed (name owner : String) (got : Except SqlError ℤ)

section System

variable {ι : Type} [DecidableEq ι]

/-- One committed statement. A client that is not at the statement's place does nothing. -/
def lockStep (s : LockSys ι) : LockAction ι → LockRet × LockSys ι
  | .delete i now name owner ttl =>
    match s.pc i with
    | .idle => (.running, ⟨deleteExpiredLock name now s.locks,
        Function.update s.pc i (.inserting name owner ttl now)⟩)
    | _ => (.running, s)
  | .insert i now =>
    match s.pc i with
    | .inserting name owner ttl t => (.running, ⟨insertOrIgnoreLock name owner ttl.secs now s.locks,
        Function.update s.pc i (.selecting name owner t)⟩)
    | _ => (.running, s)
  | .select i _ =>
    match s.pc i with
    | .selecting name owner _ => (.acquired name owner (selectLockOwner name owner s.locks),
        ⟨s.locks, Function.update s.pc i .idle⟩)
    | _ => (.running, s)
  | .abort i _ => (.running, ⟨s.locks, Function.update s.pc i .idle⟩)
  | .release _ _ name owner =>
    (.released name owner (lockRelease name owner s.locks).1,
      ⟨(lockRelease name owner s.locks).2, s.pc⟩)
  | .renew _ now name owner ttlS =>
    (.renewed name owner (lockRenew name owner ttlS now s.locks).1,
      ⟨(lockRenew name owner ttlS now s.locks).2, s.pc⟩)

/-- The step reports the lock `name` as held by `owner`. -/
def LockRet.Grants (name owner : String) : LockRet → Prop
  | .acquired n o got => n = name ∧ o = owner ∧ got = 1
  | .renewed n o got => n = name ∧ o = owner ∧ got = .ok 1
  | _ => False

/-- The step puts a row of `owner` under `name`. -/
def InsertsLock (name owner : String) (s : LockSys ι) : LockAction ι → Prop
  | .insert i _ => (∃ ttl t, s.pc i = .inserting name owner ttl t) ∧ s.locks.find? name = none
  | _ => False

/-- The step takes a row of `owner` under `name` away: its owner's release, or the `DELETE` of an
acquire that finds it expired. -/
def RemovesLock (name owner : String) (s : LockSys ι) : LockAction ι → Prop
  | .release _ _ n o => n = name ∧ o = owner
  | .delete i now n _ _ =>
    s.pc i = .idle ∧ n = name ∧ ∃ r, s.locks.find? name = some r ∧ r.expiresAt.val ≤ now.secs
  | _ => False

/-- The step is a release of the lock by its owner, or a renewal that writes a new `expires_at`. -/
def RewritesLock (name owner : String) : LockAction ι → Prop
  | .release _ _ n o => n = name ∧ o = owner
  | .renew _ _ n o ttlS => n = name ∧ o = owner ∧ 0 < ttlS.val
  | _ => False

def LockSys.holder (s : LockSys ι) (name : String) : Option String :=
  (s.locks.find? name).map LockRow.owner

/-- Only the holder of the lock is told that it holds it. -/
theorem holder_of_grants {s : LockSys ι} {a : LockAction ι} {name owner : String}
    (h : (lockStep s a).1.Grants name owner) : s.holder name = some owner := by
  cases a with
  | delete i now n o ttl => cases hpc : s.pc i <;> simp [lockStep, hpc, LockRet.Grants] at h
  | insert i now => cases hpc : s.pc i <;> simp [lockStep, hpc, LockRet.Grants] at h
  | select i now =>
    cases hpc : s.pc i with
    | selecting n o t =>
      simp only [lockStep, hpc, LockRet.Grants] at h
      obtain ⟨rfl, rfl, hone⟩ := h
      exact (selectLockOwner_eq_one _ _ _).mp hone
    | _ => simp [lockStep, hpc, LockRet.Grants] at h
  | abort i now => simp [lockStep, LockRet.Grants] at h
  | release i now n o => simp [lockStep, LockRet.Grants] at h
  | renew i now n o ttlS =>
    simp only [lockStep, LockRet.Grants] at h
    obtain ⟨rfl, rfl, hone⟩ := h
    exact ((lockRenew_eq_one _ _ _ _ _).mp hone).2

theorem find?_lockStep_of_unexpired {s : LockSys ι} {a : LockAction ι} {name : String} {r : LockRow}
    (hr : s.locks.find? name = some r) (hnow : a.now.secs < r.expiresAt.val)
    (ha : ¬ RewritesLock name r.owner a) : (lockStep s a).2.locks.find? name = some r := by
  cases a with
  | delete i now n o ttl =>
    cases hpc : s.pc i with
    | idle =>
      simp only [lockStep, hpc, find?_deleteExpiredLock, hr]
      simp [Option.filter, show now.secs < r.expiresAt.val from hnow]
    | _ => simpa [lockStep, hpc] using hr
  | insert i now =>
    cases hpc : s.pc i with
    | inserting n o ttl t =>
      simp only [lockStep, hpc, find?_insertOrIgnoreLock]
      rw [if_neg, hr]
      rintro ⟨rfl, hn⟩
      simp [hr] at hn
    | _ => simpa [lockStep, hpc] using hr
  | select i now => cases hpc : s.pc i <;> simpa [lockStep, hpc] using hr
  | abort i now => exact hr
  | release i now n o =>
    simp only [RewritesLock, not_and] at ha
    simp only [lockStep, find?_lockRelease, hr]
    by_cases hn : name = n
    · simp [Option.filter, hn, Ne.symm (ha hn.symm)]
    · simp [hn]
  | renew i now n o ttlS =>
    simp only [RewritesLock, not_and] at ha
    by_cases hpos : 0 < ttlS.val
    · simp only [lockStep, find?_lockRenew _ _ _ _ _ _ hpos, hr, Option.map_some]
      rw [if_neg]
      rintro ⟨rfl, ho⟩
      exact ha rfl ho.symm hpos
    · simpa [lockStep, lockRenew, not_lt.mp hpos] using hr

/-- The lock passes to `owner` by its insert, and stays with it until a step removes the row. -/
theorem holder_lockStep (s : LockSys ι) (a : LockAction ι) (name owner : String) :
    (lockStep s a).2.holder name = some owner ↔
      InsertsLock name owner s a ∨ (s.holder name = some owner ∧ ¬ RemovesLock name owner s a) := by
  simp only [LockSys.holder]
  cases a with
  | delete i now n o ttl =>
    cases hpc : s.pc i with
    | idle =>
      simp only [lockStep, hpc, find?_deleteExpiredLock, InsertsLock, RemovesLock]
      by_cases hn : name = n
      · subst hn
        cases hr : s.locks.find? name with
        | none => simp
        | some r => by_cases hexp : now.secs < r.expiresAt.val <;> simp [Option.filter, hexp]
      · simp [hn, Ne.symm hn]
    | _ => simp [lockStep, hpc, InsertsLock, RemovesLock]
  | insert i now =>
    cases hpc : s.pc i with
    | inserting n o ttl t =>
      simp only [lockStep, hpc, find?_insertOrIgnoreLock, InsertsLock, RemovesLock]
      by_cases hn : name = n
      · subst hn
        cases hr : s.locks.find? name <;> simp
      · simp [hn, Ne.symm hn]
    | _ => simp [lockStep, hpc, InsertsLock, RemovesLock]
  | select i now => cases hpc : s.pc i <;> simp [lockStep, hpc, InsertsLock, RemovesLock]
  | abort i now => simp [lockStep, InsertsLock, RemovesLock]
  | release i now n o =>
    simp only [lockStep, find?_lockRelease, InsertsLock, RemovesLock]
    by_cases hn : name = n
    · subst hn
      cases hr : s.locks.find? name with
      | none => simp
      | some r =>
        by_cases ho : r.owner = o
        · simp [Option.filter, ho]
        · simp [Option.filter, ho]
          grind
    · simp [hn, Ne.symm hn]
  | renew i now n o ttlS =>
    by_cases hpos : 0 < ttlS.val
    · simp only [lockStep, find?_lockRenew _ _ _ _ _ _ hpos, InsertsLock, RemovesLock]
      cases hr : s.locks.find? name with
      | none => simp
      | some r => by_cases hc : name = n ∧ r.owner = o <;> simp [hc]
    · simp [lockStep, lockRenew, not_lt.mp hpos, InsertsLock, RemovesLock]

/-- A row stays as it is along a run that is over before it expires and in which its owner leaves it
alone. -/
theorem find?_final_of_unexpired {s : LockSys ι} {name : String} {r : LockRow}
    (hr : s.locks.find? name = some r) {as : List (LockAction ι)}
    (hnow : ∀ a ∈ as, a.now.secs < r.expiresAt.val) (has : ∀ a ∈ as, ¬ RewritesLock name r.owner a) :
    (final lockStep s as).locks.find? name = some r := by
  induction as generalizing s with
  | nil => exact hr
  | cons a as ih =>
    refine ih ?_ (fun b hb ↦ hnow b (.tail a hb)) (fun b hb ↦ has b (.tail a hb))
    exact find?_lockStep_of_unexpired hr (hnow a (.head as)) (has a (.head as))

/-- The steps since the last insert of `owner` under `name` have not taken its row away. -/
def StillThere (name owner : String) (as : List (LockAction ι)) : Prop :=
  ∃ bs b cs, as = bs ++ b :: cs ∧ InsertsLock name owner (final lockStep (.fresh ι) bs) b ∧
    ∀ e ∈ trace lockStep (final lockStep (.fresh ι) (bs ++ [b])) cs,
      ¬ RemovesLock name owner e.pre e.input

theorem holder_final (as : List (LockAction ι)) (name owner : String) :
    (final lockStep (.fresh ι) as).holder name = some owner ↔ StillThere name owner as := by
  induction as using List.reverseRecOn with
  | nil => simp [final, LockSys.holder, LockSys.fresh, StillThere]
  | append_singleton as a ih =>
    rw [final_snoc, holder_lockStep, ih]
    unfold StillThere
    rw [exists_split_snoc]
    refine or_congr (by simp [trace]) ⟨?_, ?_⟩
    · rintro ⟨⟨bs, b, cs, rfl, hins, hkept⟩, hrem⟩
      refine ⟨bs, b, cs, rfl, hins, ?_⟩
      rw [trace_snoc, List.forall_mem_append, List.forall_mem_singleton, ← final_append]
      exact ⟨hkept, by simpa [event] using hrem⟩
    · rintro ⟨bs, b, cs, rfl, hins, hkept⟩
      rw [trace_snoc, List.forall_mem_append, List.forall_mem_singleton, ← final_append] at hkept
      exact ⟨⟨bs, b, cs, rfl, hins, hkept.1⟩, by simpa [event] using hkept.2⟩

theorem not_insertsLock_of_kept {s : LockSys ι} {name owner : String} {as : List (LockAction ι)}
    (h : s.holder name = some owner)
    (hkept : ∀ e ∈ trace lockStep s as, ¬ RemovesLock name owner e.pre e.input)
    {e : Transition.Event (LockSys ι) (LockAction ι) LockRet} (he : e ∈ trace lockStep s as)
    (other : String) : ¬ InsertsLock name other e.pre e.input := by
  induction as generalizing s with
  | nil => simp [trace] at he
  | cons a as ih =>
    simp only [trace, List.mem_cons, forall_eq_or_imp] at hkept he
    rcases he with rfl | he
    · cases a with
      | insert i now =>
        rintro ⟨-, hnone⟩
        simp only [event] at hnone
        simp [LockSys.holder, hnone] at h
      | _ => exact id
    · exact ih ((holder_lockStep s a name owner).mpr (Or.inr ⟨h, hkept.1⟩)) hkept.2 he

/-- The lock an acquire is after, and the clock reading of its `DELETE`. -/
def Acquiring.since : Acquiring → Option (String × Clock)
  | .idle => none
  | .inserting name _ _ t => some (name, t)
  | .selecting name _ t => some (name, t)

theorem Clock.lt_val_add (now : Clock) (ttl : I64) (hpos : 0 < ttl.val) :
    now.secs < (add now ttl).val := by
  by_cases hr : InRange (now.secs + ttl.val)
  · rw [add_of_inRange hr, Number.val]
    omega
  · have hover : 2 ^ 63 ≤ now.secs + ttl.val := by
      have := now.pos
      unfold InRange at hr
      omega
    exact now.lt.trans_le (le_val_add now.inRange ttl.inRange hover)

theorem row_lockStep {s : LockSys ι} {a : LockAction ι} {name : String} {r : LockRow}
    (h : (lockStep s a).2.locks.find? name = some r) :
    s.locks.find? name = some r ∨ a.now.secs < r.expiresAt.val := by
  cases a with
  | delete i now n o ttl =>
    cases hpc : s.pc i with
    | idle =>
      simp only [lockStep, hpc, find?_deleteExpiredLock] at h
      split_ifs at h
      · exact Or.inl (Option.filter_eq_some_iff.mp h).1
      · exact Or.inl h
    | _ => simp only [lockStep, hpc] at h; exact Or.inl h
  | insert i now =>
    cases hpc : s.pc i with
    | inserting n o ttl t =>
      simp only [lockStep, hpc, find?_insertOrIgnoreLock] at h
      split_ifs at h
      · cases h
        exact Or.inr (now.lt_val_add ttl.secs ttl.pos)
      · exact Or.inl h
    | _ => simp only [lockStep, hpc] at h; exact Or.inl h
  | select i now => cases hpc : s.pc i <;> simp only [lockStep, hpc] at h <;> exact Or.inl h
  | abort i now => exact Or.inl h
  | release i now n o =>
    simp only [lockStep, find?_lockRelease] at h
    split_ifs at h
    · exact Or.inl (Option.filter_eq_some_iff.mp h).1
    · exact Or.inl h
  | renew i now n o ttlS =>
    by_cases hpos : 0 < ttlS.val
    · simp only [lockStep, find?_lockRenew _ _ _ _ _ _ hpos, Option.map_eq_some_iff] at h
      obtain ⟨q, hq, rfl⟩ := h
      split_ifs
      · exact Or.inr (now.lt_val_add ttlS hpos)
      · exact Or.inl hq
    · simp only [lockStep, lockRenew, if_pos (not_lt.mp hpos)] at h
      exact Or.inl h

theorem since_lockStep {s : LockSys ι} {a : LockAction ι} {i : ι} {name : String} {t : Clock}
    (h : ((lockStep s a).2.pc i).since = some (name, t)) :
    (s.pc i).since = some (name, t) ∨
      ∃ owner ttl, a = .delete i t name owner ttl ∧ s.pc i = .idle := by
  cases a with
  | delete j now n o ttl =>
    cases hpc : s.pc j with
    | idle =>
      simp only [lockStep, hpc, Function.update_apply] at h
      split_ifs at h with hij
      · subst hij
        cases h
        exact Or.inr ⟨o, ttl, rfl, hpc⟩
      · exact Or.inl h
    | _ => simp only [lockStep, hpc] at h; exact Or.inl h
  | insert j now =>
    cases hpc : s.pc j with
    | inserting n o ttl u =>
      simp only [lockStep, hpc, Function.update_apply] at h
      split_ifs at h with hij
      · subst hij
        exact Or.inl (by rw [hpc]; exact h)
      · exact Or.inl h
    | _ => simp only [lockStep, hpc] at h; exact Or.inl h
  | select j now =>
    cases hpc : s.pc j with
    | selecting n o u =>
      simp only [lockStep, hpc, Function.update_apply] at h
      split_ifs at h with hij
      · cases h
      · exact Or.inl h
    | _ => simp only [lockStep, hpc] at h; exact Or.inl h
  | abort j now =>
    simp only [lockStep, Function.update_apply] at h
    split_ifs at h with hij
    · cases h
    · exact Or.inl h
  | release j now n o => exact Or.inl h
  | renew j now n o ttlS => exact Or.inl h

/-- At time `now`, a client past the `DELETE` of its acquire made it no later, and the row of the
lock it is after, if there is one, expires later than that. -/
def AcquiresLive (now : ℤ) (s : LockSys ι) : Prop :=
  ∀ i name t, (s.pc i).since = some (name, t) →
    t.secs ≤ now ∧ ∀ r, s.locks.find? name = some r → t.secs < r.expiresAt.val

theorem acquiresLive_lockStep (now : ℤ) (s : LockSys ι) (a : LockAction ι) (h : AcquiresLive now s)
    (hle : now ≤ a.now.secs) : AcquiresLive a.now.secs (lockStep s a).2 := by
  intro i name t ht
  rcases since_lockStep ht with hpre | ⟨owner, ttl, rfl, hpc⟩
  · obtain ⟨htnow, hlive⟩ := h i name t hpre
    refine ⟨htnow.trans hle, fun r hr ↦ ?_⟩
    rcases row_lockStep hr with hr | hr
    · exact hlive r hr
    · omega
  · refine ⟨le_rfl, fun r hr ↦ ?_⟩
    simp only [lockStep, hpc, find?_deleteExpiredLock, if_pos] at hr
    simpa using (Option.filter_eq_some_iff.mp hr).2

theorem find?_lockStep_of_other (s : LockSys ι) {a : LockAction ι} {n owner : String}
    (ha : (∃ i now, a = .release i now n owner) ∨ ∃ i now ttlS, a = .renew i now n owner ttlS)
    {name : String} {r : LockRow} (hr : s.locks.find? name = some r) (ho : r.owner ≠ owner) :
    (lockStep s a).2.locks.find? name = some r := by
  rcases ha with ⟨i, now, rfl⟩ | ⟨i, now, ttlS, rfl⟩
  · simp only [lockStep, find?_lockRelease, hr]
    simp [Option.filter, ho]
  · by_cases hpos : 0 < ttlS.val
    · simp [lockStep, find?_lockRenew _ _ _ _ _ _ hpos, hr, ho]
    · simpa [lockStep, lockRenew, not_lt.mp hpos] using hr

/-- In every run of interleaved acquires, releases and renewals with a non-decreasing clock, an
unexpired row keeps every other owner out; an acquire that succeeds read its own row, unexpired at
the time of its `DELETE`; a renewal succeeds exactly on a row that is still there, which nobody
inserted over; and a release or a renewal leaves the rows of other owners alone. -/
theorem lock_mutual_exclusion (as : List (LockAction ι))
    (hclk : (as.map fun a ↦ a.now.secs).Pairwise (· ≤ ·)) :
    (∀ bs cs a ds name r, as = bs ++ (cs ++ a :: ds) →
      (final lockStep (.fresh ι) bs).locks.find? name = some r →
      (∀ c ∈ cs, ¬ RewritesLock name r.owner c) → a.now.secs < r.expiresAt.val →
      ∀ other ≠ r.owner,
        ¬ (lockStep (final lockStep (.fresh ι) (bs ++ cs)) a).1.Grants name other) ∧
    (∀ bs i now ds name owner t, as = bs ++ .select i now :: ds →
      (final lockStep (.fresh ι) bs).pc i = .selecting name owner t →
      (lockStep (final lockStep (.fresh ι) bs) (.select i now)).1 = .acquired name owner 1 →
      ∃ r, (final lockStep (.fresh ι) bs).locks.find? name = some r ∧ r.owner = owner ∧
        t.secs < r.expiresAt.val) ∧
    (∀ bs i now name owner ttlS ds, as = bs ++ .renew i now name owner ttlS :: ds → 0 < ttlS.val →
      ((lockStep (final lockStep (.fresh ι) bs) (.renew i now name owner ttlS)).1 =
        .renewed name owner (.ok 1) ↔ StillThere name owner bs)) ∧
    (∀ bs b cs ds name owner, as = bs ++ b :: (cs ++ ds) →
      InsertsLock name owner (final lockStep (.fresh ι) bs) b →
      (∀ e ∈ trace lockStep (final lockStep (.fresh ι) (bs ++ [b])) cs,
        ¬ RemovesLock name owner e.pre e.input) →
      ∀ e ∈ trace lockStep (final lockStep (.fresh ι) (bs ++ [b])) cs,
        ∀ other, ¬ InsertsLock name other e.pre e.input) ∧
    ∀ bs a ds n owner, as = bs ++ a :: ds →
      ((∃ i now, a = .release i now n owner) ∨ ∃ i now ttlS, a = .renew i now n owner ttlS) →
      ∀ name r, (final lockStep (.fresh ι) bs).locks.find? name = some r → r.owner ≠ owner →
        (final lockStep (.fresh ι) (bs ++ [a])).locks.find? name = some r := by
  refine ⟨?_, ?_, ?_, ?_, ?_⟩
  · rintro bs cs a ds name r rfl hr hcs hlt other hother hgrant
    have hbefore (c : LockAction ι) (hc : c ∈ cs) : c.now.secs < r.expiresAt.val := by
      rw [List.map_append, List.pairwise_append, List.map_append, List.pairwise_append] at hclk
      refine lt_of_le_of_lt ?_ hlt
      exact hclk.2.1.2.2 _ (List.mem_map_of_mem hc) _ (List.mem_map_of_mem (.head ds))
    have hrow := find?_final_of_unexpired hr hbefore hcs
    have hholder := holder_of_grants hgrant
    rw [final_append, LockSys.holder, hrow] at hholder
    exact hother (Option.some.inj hholder).symm
  · rintro bs i now ds name owner t has hpc hret
    have hfresh : AcquiresLive 0 (.fresh ι) := fun _ _ _ h ↦ absurd h (by simp [LockSys.fresh,
      Acquiring.since])
    obtain ⟨u, -, hlive⟩ := timed_invariant lockStep acquiresLive_lockStep hfresh
      (fun a _ ↦ a.now.pos.le) hclk has
    simp only [lockStep, hpc, LockRet.acquired.injEq, true_and, selectLockOwner_eq_one,
      Option.map_eq_some_iff] at hret
    obtain ⟨r, hr, ho⟩ := hret
    exact ⟨r, hr, ho, (hlive i name t (by rw [hpc]; rfl)).2 r hr⟩
  · rintro bs i now name owner ttlS ds - hpos
    simp only [lockStep, LockRet.renewed.injEq, true_and, lockRenew_eq_one, hpos]
    exact holder_final bs name owner
  · rintro bs b cs ds name owner - hins hkept e he other
    refine not_insertsLock_of_kept ?_ hkept he other
    rw [final_snoc]
    exact (holder_lockStep _ b name owner).mpr (Or.inl hins)
  · rintro bs a ds n owner - ha name r hr ho
    rw [final_snoc]
    exact find?_lockStep_of_other _ ha hr ho

end System

/-- `A` gets the lock at 100 for ten seconds. -/
def acquireByA : List (LockAction Bool) :=
  [.delete false (.near 100) "l" "A" (.near 10), .insert false (.near 100), .select false (.near 100)]

theorem lock_mutual_exclusion_contested : ¬ (lockStep (final lockStep (.fresh Bool)
    (acquireByA ++ [.delete true (.near 105) "l" "B" (.near 10), .insert true (.near 105)]))
      (.select true (.near 105))).1.Grants "l" "B" :=
  (lock_mutual_exclusion (acquireByA ++ ([.delete true (.near 105) "l" "B" (.near 10),
    .insert true (.near 105)] ++ [.select true (.near 105)])) (by decide)).1
      acquireByA _ _ [] "l" ⟨"l", "A", .int 110⟩ rfl rfl (by simp [RewritesLock]) (by decide) "B"
      (by decide)

/-- The `DELETE` of another acquire takes an expired row away before anything is inserted in its
place, so that a renewal fails although no other owner's insert has happened. -/
theorem renewal_fails_without_insert :
    (lockStep (final lockStep (.fresh Bool)
      (acquireByA ++ [.delete true (.near 110) "l" "B" (.near 10)]))
        (.renew false (.near 110) "l" "A" (.near 10))).1 = .renewed "l" "A" (.ok 0) ∧
    (∃ bs b cs, acquireByA = bs ++ b :: cs ∧
      InsertsLock "l" "A" (final lockStep (.fresh Bool) bs) b) ∧
    ∀ e ∈ trace lockStep (.fresh Bool)
        (acquireByA ++ [.delete true (.near 110) "l" "B" (.near 10)]),
      ∀ other ≠ "A", ¬ InsertsLock "l" other e.pre e.input := by
  refine ⟨rfl, ⟨[.delete false (.near 100) "l" "A" (.near 10)], .insert false (.near 100), _, rfl,
    ⟨.near 10, .near 100, rfl⟩, rfl⟩, ?_⟩
  intro e he other hother
  simp only [acquireByA, List.cons_append, List.nil_append, trace, List.mem_cons, List.not_mem_nil,
    or_false] at he
  rcases he with rfl | rfl | rfl | rfl
  · exact id
  · rintro ⟨⟨ttl, t, hpc⟩, -⟩
    have hown : Acquiring.inserting "l" "A" (.near 10) (.near 100) = .inserting "l" other ttl t := hpc
    cases hown
    exact hother rfl
  · exact id
  · exact id

end Honker
