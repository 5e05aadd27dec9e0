import Honker.Locks
import Honker.Catchup
import Honker.Library.Interleaving

namespace Honker

open Relational Numeric Transition

/-- The same statement by the client `f i`, at the reading `now`. -/
def LockAction.relabel {ι κ : Type} (f : κ → ι) (now : Clock) : LockAction κ → LockAction ι
  | .delete i _ name owner ttl => .delete (f i) now name owner ttl
  | .insert i _ => .insert (f i) now
  | .select i _ => .select (f i) now
  | .abort i _ => .abort (f i) now
  | .release i _ name owner => .release (f i) now name owner
  | .renew i _ name owner ttlS => .renew (f i) now name owner ttlS

def LockAction.client {ι : Type} : LockAction ι → ι
  | .delete i _ _ _ _ => i
  | .insert i _ => i
  | .select i _ => i
  | .abort i _ => i
  | .release i _ _ _ => i
  | .renew i _ _ _ _ => i

/-- The lock an acquire is after, and in whose name. -/
def Acquiring.target : Acquiring → Option (String × String)
  | .idle => none
  | .inserting name who _ _ => some (name, who)
  | .selecting name who _ => some (name, who)

section Clients

variable {ι : Type} [DecidableEq ι] {s : LockSys ι} {b : LockAction ι} {x : ι}

theorem pc_lockStep_of_ne (h : b.client ≠ x) : (lockStep s b).2.pc x = s.pc x := by
  have hupd (y : Acquiring) : Function.update s.pc b.client y x = s.pc x :=
    Function.update_of_ne (Ne.symm h) _ _
  cases b with
  | delete i now name owner ttl =>
    cases hpc : s.pc i with
    | idle => simpa only [lockStep, hpc, LockAction.client] using hupd _
    | _ => simp only [lockStep, hpc]
  | insert i now =>
    cases hpc : s.pc i with
    | inserting name owner ttl t => simpa only [lockStep, hpc, LockAction.client] using hupd _
    | _ => simp only [lockStep, hpc]
  | select i now =>
    cases hpc : s.pc i with
    | selecting name owner t => simpa only [lockStep, hpc, LockAction.client] using hupd _
    | _ => simp only [lockStep, hpc]
  | abort i now => exact hupd _
  | release i now name owner => rfl
  | renew i now name owner ttlS => rfl

/-- Only the `DELETE` of an acquire starts one. -/
theorem inserting_lockStep {name owner : String} {ttl : Ttl} {t : Clock}
    (h : (lockStep s b).2.pc x = .inserting name owner ttl t) :
    s.pc x = .inserting name owner ttl t ∨ b = .delete x t name owner ttl := by
  by_cases hx : b.client = x
  · subst hx
    cases b with
    | delete i now n o l =>
      cases hpc : s.pc i with
      | idle =>
        simp only [lockStep, LockAction.client, hpc, Function.update_self] at h
        cases h
        exact Or.inr rfl
      | _ =>
        simp only [lockStep, LockAction.client, hpc] at h
        exact Or.inl (hpc.trans h)
    | insert i now =>
      cases hpc : s.pc i <;> simp only [lockStep, LockAction.client, hpc, Function.update_self] at h <;>
        cases h
    | select i now =>
      cases hpc : s.pc i with
      | inserting n o l u =>
        simp only [lockStep, LockAction.client, hpc] at h
        exact Or.inl (hpc.trans h)
      | _ =>
        simp only [lockStep, LockAction.client, hpc, Function.update_self] at h
        cases h
    | abort i now =>
      simp only [lockStep, LockAction.client, Function.update_self] at h
      cases h
    | release i now n o => exact Or.inl h
    | renew i now n o ttlS => exact Or.inl h
  · rw [pc_lockStep_of_ne hx] at h
    exact Or.inl h

end Clients

namespace Leader

def lockName : String := "honker-scheduler"

/-- `LOCK_TTL`. -/
def lockTtl : Ttl := .near 60

/-- Where a thread stands in `Scheduler::run`: in its outer loop or inside `lock_try_acquire`, waiting
for the lock, at the head of `leader_loop`, between a renewal and its tick, between the tick and the
next round, or about to release the lock after a `leader_loop` that ended well or in an error. -/
inductive Phase
  | standby
  | waiting
  | leading
  | ticking (renewed : Clock)
  | resting (renewed : Clock)
  | leaving (ok : Bool)
  | done
deriving DecidableEq

/-- Schedulers `ι` and other clients `κ` of the lock table on one database. -/
structure Sys (ι κ : Type) where
  lock : LockSys (ι ⊕ κ)
  db : Db
  stop : ι → Bool
  at_ : ι → Phase

def Sys.fresh (ι κ : Type) : Sys ι κ := ⟨.fresh _, .fresh, fun _ ↦ false, fun _ ↦ .standby⟩

/-- A step of another client, or of a scheduler. `ok` tells whether the statement succeeds, `connected`
whether the wait ended with the channel still connected. -/
inductive Act (ι κ : Type)
  | lock (a : LockAction κ)
  | call (c : Call)
  | stop (i : ι)
  | acquire (i : ι) (ok : Bool)
  | wake (i : ι) (connected : Bool)
  | renew (i : ι) (ok : Bool)
  | tick (i : ι) (tickAt : ℤ) (env : Call)
  | rest (i : ι) (ok connected : Bool)
  | release (i : ι) (ok : Bool)
  | crash (i : ι)

section System

variable {ι κ : Type} (next : String → ℤ → Except String ℤ) (owner : ι → String)

/-- The statement of `lock_acquire` that a scheduler is at. -/
def acquireStmt (s : Sys ι κ) (i : ι) (now : Clock) : LockAction (ι ⊕ κ) :=
  match s.lock.pc (.inl i) with
  | .idle => .delete (.inl i) now lockName (owner i) lockTtl
  | .inserting _ _ _ _ => .insert (.inl i) now
  | .selecting _ _ _ => .select (.inl i) now

/-- The outer loop looks at `stop` before it acquires. -/
def stopsHere (s : Sys ι κ) (i : ι) : Bool := decide (s.lock.pc (.inl i) = .idle) && s.stop i

/-- The statement on the lock table that a step makes at the reading `now`. -/
def stmt (s : Sys ι κ) (now : Clock) : Act ι κ → Option (LockAction (ι ⊕ κ))
  | .lock a => some (a.relabel .inr now)
  | .acquire i ok =>
    match s.at_ i with
    | .standby =>
      if stopsHere s i then none
      else if ok then some (acquireStmt owner s i now) else some (.abort (.inl i) now)
    | _ => none
  | .renew i ok =>
    match s.at_ i with
    | .leading =>
      if !s.stop i && ok then some (.renew (.inl i) now lockName (owner i) lockTtl.secs) else none
    | _ => none
  | .release i ok =>
    match s.at_ i with
    | .leaving _ => if ok then some (.release (.inl i) now lockName (owner i)) else none
    | _ => none
  | _ => none

/-- The call on the queue and the scheduler tables that a step makes. -/
def request (s : Sys ι κ) : Act ι κ → Option Call
  | .call c => some c
  | .tick i tickAt env =>
    match s.at_ i with
    | .ticking _ => some { env with op := .schedulerTick tickAt }
    | _ => none
  | _ => none

def afterAcquire : Option LockRet → Phase
  | some (.acquired _ _ got) => if got = 1 then .leading else .waiting
  | _ => .standby

def afterRenew (now : Clock) : Option LockRet → Phase
  | some (.renewed _ _ (.ok got)) => if got = 0 then .leaving true else .ticking now
  | _ => .leaving false

def afterTick (renewed : Clock) : Option Ret → Phase
  | some (.fires _) => .resting renewed
  | _ => .leaving false

/-- Where scheduler `i` stands after a step of its own. -/
def move (s : Sys ι κ) (now : Clock) (ret : Option LockRet) (answer : Option Ret) (i : ι) :
    Act ι κ → Phase
  | .acquire _ ok =>
    match s.at_ i with
    | .standby => if stopsHere s i || !ok then .done else afterAcquire ret
    | phase => phase
  | .wake _ connected =>
    match s.at_ i with
    | .waiting => if connected then .standby else .done
    | phase => phase
  | .renew _ ok =>
    match s.at_ i with
    | .leading => if s.stop i then .leaving true else if ok then afterRenew now ret else .leaving false
    | phase => phase
  | .tick _ _ _ =>
    match s.at_ i with
    | .ticking renewed => afterTick renewed answer
    | phase => phase
  | .rest _ ok connected =>
    match s.at_ i with
    | .resting _ => if !ok then .leaving false else if connected then .leading else .leaving true
    | phase => phase
  | .release _ _ =>
    match s.at_ i with
    | .leaving ok => if ok then .standby else .done
    | phase => phase
  | .crash _ => .done
  | _ => s.at_ i

def Act.scheduler : Act ι κ → Option ι
  | .acquire i _ | .wake i _ | .renew i _ | .tick i _ _ | .rest i _ _ | .release i _ | .crash i => some i
  | _ => none

variable [DecidableEq ι] [DecidableEq κ]

/-- One step, at a reading of the clock. -/
def step (s : Sys ι κ) (a : Clock × Act ι κ) : Option Ret × Sys ι κ :=
  let locked := (stmt owner s a.1 a.2).map (lockStep s.lock)
  let answer := (request s a.2).map (exec next s.db)
  (answer.map Prod.fst,
    { lock := (locked.map Prod.snd).getD s.lock
      db := (answer.map Prod.snd).getD s.db
      stop := fun i ↦
        match a.2 with
        | .stop k => s.stop i || decide (i = k)
        | _ => s.stop i
      at_ := fun i ↦
        if a.2.scheduler = some i then
          move s a.1 (locked.map Prod.fst) (answer.map Prod.fst) i a.2
        else s.at_ i })

end System

/-- The renewal on which a scheduler ticks and waits. -/
def Phase.lease : Phase → Option Clock
  | .ticking renewed => some renewed
  | .resting renewed => some renewed
  | _ => none

section Statements

variable {ι κ : Type} {owner : ι → String} {s : Sys ι κ} {now : Clock} {a : Act ι κ} {i : ι}
  {b : LockAction (ι ⊕ κ)}

theorem now_relabel (c : LockAction κ) (f : κ → ι) : (c.relabel f now).now = now := by
  cases c <;> rfl

theorem now_of_stmt (h : stmt owner s now a = some b) : b.now = now := by
  unfold stmt at h
  split at h
  case h_1 c =>
    cases h
    exact now_relabel c _
  case h_2 =>
    split at h
    · split_ifs at h
      · cases h
        unfold acquireStmt
        split <;> rfl
      · cases h
        rfl
    · cases h
  case h_3 =>
    split at h
    · split_ifs at h
      cases h
      rfl
    · cases h
  case h_4 =>
    split at h
    · split_ifs at h
      cases h
      rfl
    · cases h
  case h_5 => cases h

/-- The steps that rewrite the row of scheduler `i`: a renewal or a release of its own, or one that
another client makes in its name. -/
theorem rewrites_of_stmt (hinj : Function.Injective owner) (h : stmt owner s now a = some b)
    (hb : RewritesLock lockName (owner i) b) :
    (∃ c, a = .lock c ∧ RewritesLock lockName (owner i) c) ∨
      (∃ ok, a = .renew i ok ∧ s.at_ i = .leading) ∨
        ∃ ok ended, a = .release i ok ∧ s.at_ i = .leaving ended := by
  unfold stmt at h
  split at h
  case h_1 c =>
    cases h
    refine Or.inl ⟨c, rfl, ?_⟩
    cases c <;> exact hb
  case h_2 =>
    split at h
    · split_ifs at h
      · cases h
        unfold acquireStmt at hb
        split at hb <;> exact hb.elim
      · cases h
        exact hb.elim
    · cases h
  case h_3 k ok =>
    split at h
    case h_1 hk =>
      split_ifs at h
      cases h
      cases hinj hb.2.1
      exact Or.inr (Or.inl ⟨ok, rfl, hk⟩)
    case h_2 => cases h
  case h_4 k ok =>
    split at h
    case h_1 ended hk =>
      split_ifs at h
      cases h
      cases hinj hb.2
      exact Or.inr (Or.inr ⟨ok, ended, rfl, hk⟩)
    case h_2 => cases h
  case h_5 => cases h

theorem afterRenew_lease {ret : Option LockRet} {renewed : Clock}
    (h : (afterRenew now ret).lease = some renewed) :
    now = renewed ∧ ∃ name who got, ret = some (.renewed name who (.ok got)) ∧ got ≠ 0 := by
  unfold afterRenew at h
  split at h
  case h_1 name who got =>
    split_ifs at h with hgot
    · cases h
    · cases h
      exact ⟨rfl, name, who, got, rfl, hgot⟩
  case h_2 => cases h

theorem lockRenew_of_ne_zero {name who : String} {ttlS : I64} {locks : LockTable} {got : ℤ}
    (h : (lockRenew name who ttlS now locks).1 = .ok got) (hgot : got ≠ 0) :
    (lockRenew name who ttlS now locks).1 = .ok 1 := by
  simp only [lockRenew] at *
  split_ifs at h ⊢
  · cases h
    rfl
  · cases h
    exact absurd rfl hgot

/-- The row that a renewal at the reading `renewed` leaves. -/
def leaseRow (owner : ι → String) (i : ι) (renewed : Clock) : LockRow :=
  ⟨lockName, owner i, add renewed lockTtl.secs⟩

theorem lt_expiry {t renewed : Clock} (i : ι) (h : t.secs < renewed.secs + 60) :
    t.secs < (leaseRow owner i renewed).expiresAt.val := by
  change t.secs < (add renewed.secs 60).val
  by_cases hr : InRange (renewed.secs + 60)
  · rwa [add_of_inRange hr, Number.val]
  · have hover : 2 ^ 63 ≤ renewed.secs + 60 := by
      have := renewed.pos
      unfold InRange at hr
      omega
    exact t.lt.trans_le (le_val_add renewed.inRange lockTtl.secs.inRange hover)

end Statements

section Steps

variable {ι κ : Type} [DecidableEq ι] [DecidableEq κ] {next : String → ℤ → Except String ℤ}
  {owner : ι → String} {s : Sys ι κ} {now : Clock} {a : Act ι κ} {i : ι}

theorem lock_step : (step next owner s (now, a)).2.lock =
    ((stmt owner s now a).map fun b ↦ (lockStep s.lock b).2).getD s.lock := by
  simp only [step, Option.map_map]
  rfl

theorem at_step_of_ne (h : a.scheduler ≠ some i) : (step next owner s (now, a)).2.at_ i = s.at_ i := by
  simp only [step, if_neg h]

/-- A scheduler is on a renewal that it was on before, or that it has just made. -/
theorem lease_step {renewed : Clock}
    (h : ((step next owner s (now, a)).2.at_ i).lease = some renewed) :
    (s.at_ i).lease = some renewed ∨
      (now = renewed ∧ stmt owner s now a = some (.renew (.inl i) now lockName (owner i) lockTtl.secs) ∧
        (lockRenew lockName (owner i) lockTtl.secs now s.lock.locks).1 = .ok 1) := by
  by_cases hi : a.scheduler = some i
  · simp only [step, if_pos hi] at h
    cases a with
    | lock c => cases hi
    | call c => cases hi
    | stop k => cases hi
    | acquire k ok =>
      cases hi
      cases hpre : s.at_ i <;> simp only [move, hpre] at h
      case standby =>
        split_ifs at h
        · cases h
        · unfold afterAcquire at h
          split at h
          · split_ifs at h <;> cases h
          · cases h
      all_goals exact Or.inl h
    | wake k connected =>
      cases hi
      cases hpre : s.at_ i <;> simp only [move, hpre] at h
      case waiting => split_ifs at h <;> cases h
      all_goals exact Or.inl h
    | renew k ok =>
      cases hi
      cases hpre : s.at_ i <;> simp only [move, hpre] at h
      case leading =>
        split_ifs at h with hstop hok
        · cases h
        · obtain ⟨hnow, name, who, got, hret, hgot⟩ := afterRenew_lease h
          simp only [stmt, hpre, hstop, hok, Bool.not_false, Bool.and_self, if_true, Option.map_some,
            lockStep, Option.some.injEq, LockRet.renewed.injEq] at hret
          exact Or.inr ⟨hnow, by simp [stmt, hpre, hstop, hok], lockRenew_of_ne_zero hret.2.2 hgot⟩
        · cases h
      all_goals exact Or.inl h
    | tick k tickAt env =>
      cases hi
      cases hpre : s.at_ i <;> simp only [move, hpre] at h
      case ticking =>
        unfold afterTick at h
        split at h
        · exact Or.inl h
        · cases h
      all_goals exact Or.inl h
    | rest k ok connected =>
      cases hi
      cases hpre : s.at_ i <;> simp only [move, hpre] at h
      case resting => split_ifs at h <;> cases h
      all_goals exact Or.inl h
    | release k ok =>
      cases hi
      cases hpre : s.at_ i <;> simp only [move, hpre] at h
      case leaving => split_ifs at h <;> cases h
      all_goals exact Or.inl h
    | crash k => cases h
  · rw [at_step_of_ne hi] at h
    exact Or.inl h

end Steps

section Exclusion

variable {ι κ : Type} [DecidableEq ι] [DecidableEq κ] {next : String → ℤ → Except String ℤ}
  {owner : ι → String}

/-- No other client releases or renews a scheduler's lock in the scheduler's name. -/
def Spares (owner : ι → String) : Act ι κ → Prop
  | .lock c => ∀ i, ¬ RewritesLock lockName (owner i) c
  | _ => True

/-- At time `now`, the row of a scheduler's renewal is there until it expires. -/
def Leads (owner : ι → String) (now : ℤ) (s : Sys ι κ) : Prop :=
  ∀ i renewed, (s.at_ i).lease = some renewed → renewed.secs ≤ now ∧
    (now < (leaseRow owner i renewed).expiresAt.val →
      s.lock.locks.find? lockName = some (leaseRow owner i renewed))

theorem leads_step (hinj : Function.Injective owner) (t : ℤ) (s : Sys ι κ) (x : Clock × Act ι κ)
    (hx : Spares owner x.2)
    (hs : Leads owner t s) (hle : t ≤ x.1.secs) :
    Leads owner x.1.secs (step next owner s x).2 := by
  obtain ⟨now, a⟩ := x
  intro i renewed hlease
  rcases lease_step hlease with hpre | ⟨rfl, hstmt, hone⟩
  · obtain ⟨hren, hrow⟩ := hs i renewed hpre
    refine ⟨hren.trans hle, fun hlt ↦ ?_⟩
    have hrow := hrow (hle.trans_lt hlt)
    rw [lock_step]
    cases hstmt : stmt owner s now a with
    | none => exact hrow
    | some b =>
      refine find?_lockStep_of_unexpired hrow (by rwa [now_of_stmt hstmt]) fun hb ↦ ?_
      rcases rewrites_of_stmt hinj hstmt hb with ⟨c, rfl, hc⟩ | ⟨ok, rfl, hat⟩ | ⟨ok, ended, rfl, hat⟩
      · exact hx i hc
      · rw [hat] at hpre
        cases hpre
      · rw [hat] at hpre
        cases hpre
  · refine ⟨le_rfl, fun _ ↦ ?_⟩
    obtain ⟨hpos, hholder⟩ := (lockRenew_eq_one _ _ _ _ _).mp hone
    rw [lock_step, hstmt, Option.map_some, Option.getD_some]
    simp only [lockStep, find?_lockRenew _ _ _ _ _ _ hpos]
    obtain ⟨r, hr, ho⟩ := Option.map_eq_some_iff.mp hholder
    obtain ⟨-, hname⟩ := Table.find?_eq_some.mp hr
    simp [hr, ho, leaseRow, hname]

/-- A scheduler is on the renewal it was on before the run, or on one of the run. -/
theorem lease_final {s : Sys ι κ} {as : List (Clock × Act ι κ)} {i : ι} {renewed : Clock}
    (h : ((final (step next owner) s as).at_ i).lease = some renewed) :
    (s.at_ i).lease = some renewed ∨ ∃ x ∈ as, x.1 = renewed := by
  induction as generalizing s with
  | nil => exact Or.inl h
  | cons x as ih =>
    rcases ih h with hpre | ⟨y, hy, hren⟩
    · rcases lease_step hpre with hpre | ⟨hnow, -, -⟩
      · exact Or.inl hpre
      · exact Or.inr ⟨x, .head as, hnow⟩
    · exact Or.inr ⟨y, .tail x hy, hren⟩

theorem leads_run (hinj : Function.Injective owner) {as : List (Clock × Act ι κ)}
    (hclk : (as.map fun x ↦ x.1.secs).Pairwise (· ≤ ·)) (hspares : ∀ x ∈ as, Spares owner x.2)
    {bs cs : List (Clock × Act ι κ)} {x : Clock × Act ι κ} (has : as = bs ++ x :: cs) :
    Leads owner x.1.secs (final (step next owner) (.fresh ι κ) bs) := by
  have hfresh : Leads owner 0 (Sys.fresh ι κ) := by
    intro i renewed h
    cases h
  obtain ⟨u, hu, hleads⟩ := timed_invariant_of_forall (step next owner) (leads_step hinj) hfresh
    hspares (fun y _ ↦ y.1.pos.le) hclk has
  intro i renewed hlease
  obtain ⟨hren, hrow⟩ := hleads i renewed hlease
  exact ⟨hren.trans hu, fun hlt ↦ hrow (hu.trans_lt hlt)⟩

variable (next) in
/-- In every run of schedulers with their own owner names, by a clock that does not go back and beside
other clients of the lock table that leave the schedulers' lock alone, a scheduler that ticks within a
minute of its renewal is the holder of the lock, and no other scheduler is within a minute of its own
renewal then; so of two such ticks by different schedulers the later one rests on a renewal made no
earlier than the first tick. -/
theorem leader_exclusive (hinj : Function.Injective owner) (as : List (Clock × Act ι κ))
    (hclk : (as.map fun x ↦ x.1.secs).Pairwise (· ≤ ·)) (hspares : ∀ x ∈ as, Spares owner x.2) :
    (∀ bs t i tickAt env cs renewed, as = bs ++ (t, .tick i tickAt env) :: cs →
      (final (step next owner) (.fresh ι κ) bs).at_ i = .ticking renewed →
      t.secs < renewed.secs + 60 →
      (final (step next owner) (.fresh ι κ) bs).lock.holder lockName = some (owner i) ∧
      ∀ j ≠ i, ∀ renewed', ((final (step next owner) (.fresh ι κ) bs).at_ j).lease = some renewed' →
        renewed'.secs + 60 ≤ t.secs) ∧
    ∀ bs t i tickAt env cs renewed t' j tickAt' env' ds renewed',
      as = bs ++ (t, .tick i tickAt env) :: (cs ++ (t', .tick j tickAt' env') :: ds) → i ≠ j →
      (final (step next owner) (.fresh ι κ) bs).at_ i = .ticking renewed →
      t.secs < renewed.secs + 60 →
      (final (step next owner) (.fresh ι κ) (bs ++ (t, .tick i tickAt env) :: cs)).at_ j =
        .ticking renewed' →
      t'.secs < renewed'.secs + 60 → t.secs ≤ renewed'.secs := by
  have hone {bs cs : List (Clock × Act ι κ)} {t : Clock} {a : Act ι κ} {i : ι} {renewed : Clock}
      (has : as = bs ++ (t, a) :: cs)
      (hat : ((final (step next owner) (.fresh ι κ) bs).at_ i).lease = some renewed)
      (hlt : t.secs < renewed.secs + 60) :
      (final (step next owner) (.fresh ι κ) bs).lock.locks.find? lockName =
        some (leaseRow owner i renewed) :=
    (leads_run hinj hclk hspares has i renewed hat).2 (lt_expiry i hlt)
  have hother {bs cs : List (Clock × Act ι κ)} {t : Clock} {a : Act ι κ} {i j : ι}
      {renewed renewed' : Clock} (has : as = bs ++ (t, a) :: cs)
      (hat : ((final (step next owner) (.fresh ι κ) bs).at_ i).lease = some renewed)
      (hlt : t.secs < renewed.secs + 60) (hj : j ≠ i)
      (hat' : ((final (step next owner) (.fresh ι κ) bs).at_ j).lease = some renewed') :
      renewed'.secs + 60 ≤ t.secs := by
    by_contra hlt'
    have hrow := (hone has hat hlt).symm.trans (hone has hat' (not_le.mp hlt'))
    simp only [leaseRow, Option.some.injEq, LockRow.mk.injEq, true_and] at hrow
    exact hj (hinj hrow.1).symm
  refine ⟨?_, ?_⟩
  · rintro bs t i tickAt env cs renewed has hat hlt
    have hlease : ((final (step next owner) (.fresh ι κ) bs).at_ i).lease = some renewed := by
      rw [hat]
      rfl
    refine ⟨?_, fun j hj renewed' hat' ↦ hother has hlease hlt hj hat'⟩
    rw [LockSys.holder, hone has hlease hlt]
    rfl
  · rintro bs t i tickAt env cs renewed t' j tickAt' env' ds renewed' has hij hat hlt hat' hlt'
    have hlease' : ((final (step next owner) (final (step next owner) (.fresh ι κ) bs)
        ((t, .tick i tickAt env) :: cs)).at_ j).lease = some renewed' := by
      rw [← final_append, hat']
      rfl
    subst has
    rw [List.map_append, List.pairwise_append, List.map_cons, List.pairwise_cons] at hclk
    rcases lease_final hlease' with hpre | ⟨x, hx, rfl⟩
    · -- The later tick's renewal would have been there at the earlier tick.
      have hlate := hother rfl (by rw [hat]; rfl) hlt (Ne.symm hij) hpre
      have hle : t.secs ≤ t'.secs := hclk.2.1.1 _ (by simp)
      omega
    · rcases List.mem_cons.mp hx with rfl | hx
      · exact le_rfl
      · exact hclk.2.1.1 _ (List.mem_map_of_mem (f := fun x : Clock × Act ι κ ↦ x.1.secs)
          (List.mem_append_left _ hx))

/-- Scheduler `false` leads from 100 and crashes, and scheduler `true` takes over at 160. -/
def takeover : List (Clock × Act Bool Empty) :=
  [(.near 100, .acquire false true), (.near 100, .acquire false true), (.near 100, .acquire false true),
    (.near 100, .renew false true), (.near 101, .tick false 101 (.at_ (.near 101) (.cancel 0))),
    (.near 102, .crash false), (.near 160, .acquire true true), (.near 160, .acquire true true),
    (.near 160, .acquire true true), (.near 160, .renew true true),
    (.near 161, .tick true 161 (.at_ (.near 161) (.cancel 0)))]

theorem leader_exclusive_takeover :
    let owner : Bool → String := fun i ↦ if i then "b" else "a"
    let reached (n : ℕ) := final (step (fun _ u ↦ .ok (u + 1)) owner) (.fresh Bool Empty) (takeover.take n)
    (reached 4).lock.holder lockName = some "a" ∧ (reached 10).lock.holder lockName = some "b" ∧
      (reached 10).at_ true = .ticking (.near 160) ∧ (101 : ℤ) ≤ 160 := by
  intro owner reached
  have hinj : Function.Injective owner := by
    intro i j
    cases i <;> cases j <;> simp [owner]
  have hspares : ∀ x ∈ takeover, Spares owner x.2 := by simp [takeover, Spares]
  have hexcl := leader_exclusive (fun _ u ↦ .ok (u + 1)) hinj takeover (by decide) hspares
  refine ⟨(hexcl.1 (takeover.take 4) (.near 101) false _ _ _ (.near 100) rfl ?_ (by decide)).1,
    (hexcl.1 (takeover.take 10) (.near 161) true _ _ _ (.near 160) rfl ?_ (by decide)).1, ?_,
    hexcl.2 (takeover.take 4) (.near 101) false _ _ ((takeover.drop 5).take 5) (.near 100) (.near 161) true
      _ _ _ (.near 160) rfl (by decide) ?_ (by decide) ?_ (by decide)⟩
  all_goals decide +kernel

end Exclusion

section Handover

variable {ι κ : Type} {owner : ι → String} {i : ι}

/-- Scheduler `i` does not crash, and its statements that acquire and release the lock succeed. -/
def Sound (i : ι) : Act ι κ → Prop
  | .acquire k ok | .release k ok => k = i → ok = true
  | .crash k => k ≠ i
  | _ => True

/-- No other client acquires the schedulers' lock in the name of scheduler `i`. -/
def Distinct (owner : ι → String) (i : ι) : Act ι κ → Prop
  | .lock (.delete _ _ name who _) => ¬ (name = lockName ∧ who = owner i)
  | _ => True

/-- Between a successful `lock_try_acquire` and the release that ends the leadership. -/
def Phase.leads : Phase → Bool
  | .leading | .ticking _ | .resting _ | .leaving _ => true
  | _ => false

/-- Scheduler `i` is past the insert of its acquire, or leads. -/
def Inside (i : ι) (s : Sys ι κ) : Prop :=
  (s.at_ i = .standby ∧ ∃ name who t, s.lock.pc (.inl i) = .selecting name who t) ∨
    (s.at_ i).leads = true

/-- The lock is in the name of scheduler `i` only from the insert of its acquire to the release that
ends its leadership. -/
structure Held (owner : ι → String) (i : ι) (s : Sys ι κ) : Prop where
  inserting : ∀ x ttl t, s.lock.pc x = .inserting lockName (owner i) ttl t → x = .inl i
  target : ∀ x, (s.lock.pc (.inl i)).target = some x → x = (lockName, owner i)
  idle : s.at_ i ≠ .standby → s.lock.pc (.inl i) = .idle
  inside : s.lock.holder lockName = some (owner i) → Inside i s

theorem Held.fresh (owner : ι → String) (i : ι) : Held owner i (Sys.fresh ι κ) where
  inserting := by
    intro x ttl t h
    cases h
  target := by
    intro x h
    cases h
  idle := fun _ ↦ rfl
  inside := by
    intro h
    cases h

theorem scheduler_of_stmt {s : Sys ι κ} {now : Clock} {a : Act ι κ} {b : LockAction (ι ⊕ κ)}
    (h : stmt owner s now a = some b) (hb : b.client = .inl i) : a.scheduler = some i := by
  unfold stmt at h
  split at h
  case h_1 c =>
    cases h
    cases c <;> cases hb
  case h_2 k ok =>
    split at h
    · split_ifs at h
      · cases h
        unfold acquireStmt at hb
        split at hb <;> cases hb <;> rfl
      · cases h
        cases hb
        rfl
    · cases h
  case h_3 =>
    split at h
    · split_ifs at h
      cases h
      cases hb
      rfl
    · cases h
  case h_4 =>
    split at h
    · split_ifs at h
      cases h
      cases hb
      rfl
    · cases h
  case h_5 => cases h

theorem delete_of_stmt {s : Sys ι κ} {now t : Clock} {a : Act ι κ} {x : ι ⊕ κ} {name who : String}
    {ttl : Ttl} (h : stmt owner s now a = some (.delete x t name who ttl)) :
    (∃ k u, a = .lock (.delete k u name who ttl)) ∨ ∃ k, x = .inl k ∧ who = owner k := by
  unfold stmt at h
  split at h
  case h_1 c =>
    cases c <;> cases h
    exact Or.inl ⟨_, _, rfl⟩
  case h_2 k ok =>
    split at h
    · split_ifs at h
      · unfold acquireStmt at h
        split at h <;> cases h
        exact Or.inr ⟨k, rfl, rfl⟩
      · cases h
    · cases h
  case h_3 =>
    split at h
    · split_ifs at h
      cases h
    · cases h
  case h_4 =>
    split at h
    · split_ifs at h
      cases h
    · cases h
  case h_5 => cases h

theorem inserts_of_held {s : Sys ι κ} {b : LockAction (ι ⊕ κ)} (hs : Held owner i s)
    (h : InsertsLock lockName (owner i) s.lock b) :
    ∃ now ttl t, b = .insert (.inl i) now ∧ s.lock.pc (.inl i) = .inserting lockName (owner i) ttl t := by
  cases b with
  | insert x now =>
    obtain ⟨⟨ttl, t, hpc⟩, -⟩ := h
    cases hs.inserting x ttl t hpc
    exact ⟨now, ttl, t, rfl, hpc⟩
  | _ => exact h.elim

variable [DecidableEq ι] [DecidableEq κ] {next : String → ℤ → Except String ℤ}

/-- A step that is not of scheduler `i` leaves its acquire where it is. -/
theorem pc_step_of_ne {s : Sys ι κ} {now : Clock} {a : Act ι κ} (h : a.scheduler ≠ some i) :
    (step next owner s (now, a)).2.lock.pc (.inl i) = s.lock.pc (.inl i) := by
  rw [lock_step]
  cases hstmt : stmt owner s now a with
  | none => rfl
  | some b => exact pc_lockStep_of_ne fun hb ↦ h (scheduler_of_stmt hstmt hb)

theorem Held.inserting_step (hinj : Function.Injective owner) {s : Sys ι κ} {now : Clock} {a : Act ι κ}
    (hs : Held owner i s) (hdist : Distinct owner i a) {x : ι ⊕ κ} {ttl : Ttl} {t : Clock}
    (h : (step next owner s (now, a)).2.lock.pc x = .inserting lockName (owner i) ttl t) : x = .inl i := by
  rw [lock_step] at h
  cases hstmt : stmt owner s now a with
  | none =>
    rw [hstmt] at h
    exact hs.inserting x ttl t h
  | some b =>
    rw [hstmt, Option.map_some, Option.getD_some] at h
    rcases inserting_lockStep h with h | rfl
    · exact hs.inserting x ttl t h
    · rcases delete_of_stmt hstmt with ⟨k, u, rfl⟩ | ⟨k, rfl, hwho⟩
      · exact absurd ⟨rfl, rfl⟩ hdist
      · rw [hinj hwho]

/-- A step that is not of scheduler `i` leaves where it stands as it is, and does not bring the lock
into its name. -/
theorem Held.step_of_ne (hinj : Function.Injective owner) {s : Sys ι κ} {now : Clock} {a : Act ι κ}
    (hs : Held owner i s) (hdist : Distinct owner i a) (ha : a.scheduler ≠ some i) :
    Held owner i (step next owner s (now, a)).2 := by
  have hat : (step next owner s (now, a)).2.at_ i = s.at_ i := at_step_of_ne ha
  have hpc : (step next owner s (now, a)).2.lock.pc (.inl i) = s.lock.pc (.inl i) := pc_step_of_ne ha
  refine ⟨fun x ttl t h ↦ hs.inserting_step hinj hdist h, by rw [hpc]; exact hs.target,
    by rw [hat, hpc]; exact hs.idle, fun hholder ↦ ?_⟩
  have hpre : s.lock.holder lockName = some (owner i) := by
    rw [lock_step] at hholder
    cases hstmt : stmt owner s now a with
    | none => rwa [hstmt] at hholder
    | some b =>
      rw [hstmt, Option.map_some, Option.getD_some] at hholder
      rcases (holder_lockStep _ _ _ _).mp hholder with hins | hpre
      · obtain ⟨u, ttl, t, rfl, -⟩ := inserts_of_held hs hins
        exact absurd (scheduler_of_stmt hstmt rfl) ha
      · exact hpre.1
  unfold Inside
  rw [hat, hpc]
  exact hs.inside hpre

/-- A step without a statement on the lock keeps the invariant if scheduler `i` is neither in the middle
of an acquire nor at the end of its leadership. -/
theorem Held.step_silent (hinj : Function.Injective owner) {s : Sys ι κ} {now : Clock} {a : Act ι κ}
    (hs : Held owner i s) (hdist : Distinct owner i a) (hstmt : stmt owner s now a = none)
    (hidle : (step next owner s (now, a)).2.at_ i ≠ .standby → s.lock.pc (.inl i) = .idle)
    (hkeep : Inside i s → Inside i (step next owner s (now, a)).2) :
    Held owner i (step next owner s (now, a)).2 := by
  have hlock : (step next owner s (now, a)).2.lock = s.lock := by
    rw [lock_step, hstmt]
    rfl
  refine ⟨fun x ttl t h ↦ hs.inserting_step hinj hdist h, ?_, ?_, ?_⟩
  · rw [hlock]
    exact hs.target
  · rw [hlock]
    exact hidle
  · rw [hlock]
    exact fun hholder ↦ hkeep (hs.inside hholder)

theorem Held.step_same (hinj : Function.Injective owner) {s : Sys ι κ} {now : Clock} {a : Act ι κ}
    (hs : Held owner i s) (hdist : Distinct owner i a) (hstmt : stmt owner s now a = none)
    (hat : (step next owner s (now, a)).2.at_ i = s.at_ i) :
    Held owner i (step next owner s (now, a)).2 := by
  refine hs.step_silent hinj hdist hstmt (by rw [hat]; exact hs.idle) ?_
  unfold Inside
  rw [hat, lock_step, hstmt]
  exact id

/-- A scheduler that leads after a step may hold the lock. -/
theorem Held.step_leads (hinj : Function.Injective owner) {s : Sys ι κ} {now : Clock} {a : Act ι κ}
    (hs : Held owner i s) (hdist : Distinct owner i a) (hpre : s.at_ i ≠ .standby)
    (hpc : (step next owner s (now, a)).2.lock.pc (.inl i) = s.lock.pc (.inl i))
    (hleads : ((step next owner s (now, a)).2.at_ i).leads = true) :
    Held owner i (step next owner s (now, a)).2 := by
  refine ⟨fun x ttl t h ↦ hs.inserting_step hinj hdist h, ?_, ?_, fun _ ↦ Or.inr hleads⟩
  · rw [hpc]
    exact hs.target
  · rw [hpc]
    exact fun _ ↦ hs.idle hpre

theorem pc_step_of_none {s : Sys ι κ} {now : Clock} {a : Act ι κ} (hstmt : stmt owner s now a = none) :
    (step next owner s (now, a)).2.lock.pc = s.lock.pc := by
  rw [lock_step, hstmt]
  rfl

variable (next owner) in
theorem acquire_step {s : Sys ι κ} (now : Clock) (hstandby : s.at_ i = .standby)
    (hstop : stopsHere s i = false) :
    (step next owner s (now, .acquire i true)).2.lock = (lockStep s.lock (acquireStmt owner s i now)).2 ∧
      (step next owner s (now, .acquire i true)).2.at_ i =
        afterAcquire (some (lockStep s.lock (acquireStmt owner s i now)).1) := by
  have hstmt : stmt owner s now (.acquire i true) = some (acquireStmt owner s i now) := by
    simp [stmt, hstandby, hstop]
  refine ⟨?_, ?_⟩
  · rw [lock_step, hstmt]
    rfl
  · simp [step, Act.scheduler, hstmt, move, hstandby, hstop]

theorem Held.step_acquire (hinj : Function.Injective owner) {s : Sys ι κ} {now : Clock}
    (hs : Held owner i s) (hstandby : s.at_ i = .standby) (hstop : stopsHere s i = false) :
    Held owner i (step next owner s (now, .acquire i true)).2 := by
  obtain ⟨hlock, hat⟩ := acquire_step owner next now hstandby hstop
  have hbefore : s.lock.holder lockName = some (owner i) →
      ∃ name who t, s.lock.pc (.inl i) = .selecting name who t := by
    intro hholder
    rcases hs.inside hholder with ⟨-, hsel⟩ | hleads
    · exact hsel
    · rw [hstandby] at hleads
      cases hleads
  have hins (x : ι ⊕ κ) (ttl : Ttl) (t : Clock)
      (h : (step next owner s (now, .acquire i true)).2.lock.pc x = .inserting lockName (owner i) ttl t) :
      x = .inl i := hs.inserting_step (a := .acquire i true) hinj trivial h
  have htarget := hs.target
  cases hpc : s.lock.pc (.inl i) with
  | idle =>
    simp only [acquireStmt, hpc] at hat hlock
    refine ⟨hins, ?_, ?_, ?_⟩
    · simp [hlock, lockStep, hpc, Acquiring.target]
    · simp [hat, lockStep, hpc, afterAcquire]
    · rw [hlock, holder_lockStep]
      rintro (hinsert | ⟨hholder, -⟩)
      · exact hinsert.elim
      · obtain ⟨name, who, t, hsel⟩ := hbefore hholder
        cases hpc.symm.trans hsel
  | inserting name who ttl t =>
    rw [hpc] at htarget
    simp only [acquireStmt, hpc] at hat hlock
    refine ⟨hins, ?_, ?_, fun _ ↦ Or.inl ⟨?_, name, who, t, ?_⟩⟩
    · rw [hlock]
      simpa [lockStep, hpc, Acquiring.target] using htarget
    · simp [hat, lockStep, hpc, afterAcquire]
    · simp [hat, lockStep, hpc, afterAcquire]
    · simp [hlock, lockStep, hpc]
  | selecting name who t =>
    rw [hpc] at htarget
    cases htarget (name, who) rfl
    simp only [acquireStmt, hpc] at hat hlock
    refine ⟨hins, ?_, ?_, ?_⟩
    · simp [hlock, lockStep, hpc, Acquiring.target]
    · simp [hlock, lockStep, hpc]
    · intro hholder
      refine Or.inr ?_
      have hone : selectLockOwner lockName (owner i) s.lock.locks = 1 := by
        rw [selectLockOwner_eq_one]
        simpa [hlock, lockStep, hpc, LockSys.holder] using hholder
      simp [hat, lockStep, hpc, afterAcquire, hone, Phase.leads]

theorem leads_afterRenew (now : Clock) (ret : Option LockRet) : (afterRenew now ret).leads = true := by
  unfold afterRenew
  split
  · split_ifs <;> rfl
  · rfl

theorem leads_afterTick (renewed : Clock) (ret : Option Ret) : (afterTick renewed ret).leads = true := by
  unfold afterTick
  split <;> rfl

theorem Held.step_release (hinj : Function.Injective owner) {s : Sys ι κ} {now : Clock} {ended : Bool}
    (hs : Held owner i s) (hat : s.at_ i = .leaving ended) :
    Held owner i (step next owner s (now, .release i true)).2 := by
  have hlock : (step next owner s (now, .release i true)).2.lock =
      (lockStep s.lock (.release (.inl i) now lockName (owner i))).2 := by
    simp [lock_step, stmt, hat]
  have hpc : (step next owner s (now, .release i true)).2.lock.pc = s.lock.pc := by
    rw [hlock]
    rfl
  refine ⟨fun x ttl t h ↦ hs.inserting_step (a := .release i true) hinj trivial h, ?_, ?_, ?_⟩
  · rw [hpc]
    exact hs.target
  · rw [hpc]
    exact fun _ ↦ hs.idle (by simp [hat])
  · rw [hlock, holder_lockStep]
    rintro (hins | ⟨-, hkept⟩)
    · exact hins.elim
    · exact absurd ⟨rfl, rfl⟩ hkept

theorem Held.step (hinj : Function.Injective owner) {s : Sys ι κ} {now : Clock} {a : Act ι κ}
    (hs : Held owner i s) (hdist : Distinct owner i a) (hsound : Sound i a) :
    Held owner i (step next owner s (now, a)).2 := by
  by_cases ha : a.scheduler = some i
  · cases a with
    | lock c => cases ha
    | call c => cases ha
    | stop k => cases ha
    | acquire k ok =>
      cases ha
      cases hsound rfl
      cases hpre : s.at_ i
      case standby =>
        cases hstop : stopsHere s i with
        | false => exact hs.step_acquire hinj hpre hstop
        | true =>
          have hidle : s.lock.pc (.inl i) = .idle := by
            simp only [stopsHere, Bool.and_eq_true, decide_eq_true_eq] at hstop
            exact hstop.1
          refine hs.step_silent hinj hdist (by simp [stmt, hpre, hstop]) (fun _ ↦ hidle) ?_
          rintro (⟨-, name, who, t, hsel⟩ | hleads)
          · cases hidle.symm.trans hsel
          · rw [hpre] at hleads
            cases hleads
      all_goals
        refine hs.step_same hinj hdist ?_ ?_
        · simp [stmt, hpre]
        · simp [Leader.step, Act.scheduler, move, hpre]
    | wake k connected =>
      cases ha
      cases hpre : s.at_ i
      case waiting =>
        refine hs.step_silent hinj hdist rfl (fun _ ↦ hs.idle (by simp [hpre])) ?_
        rintro (⟨hstandby, -⟩ | hleads)
        · cases hpre.symm.trans hstandby
        · rw [hpre] at hleads
          cases hleads
      all_goals
        refine hs.step_same hinj hdist rfl ?_
        simp [Leader.step, Act.scheduler, move, hpre]
    | renew k ok =>
      cases ha
      cases hpre : s.at_ i
      case leading =>
        refine hs.step_leads hinj hdist (by simp [hpre]) ?_ ?_
        · by_cases hrenew : (!s.stop i && ok) = true
          · simp [lock_step, stmt, hpre, hrenew, lockStep]
          · rw [pc_step_of_none (by simp [stmt, hpre, hrenew])]
        · simp only [Leader.step, Act.scheduler, if_pos, move, hpre]
          split_ifs
          · rfl
          · exact leads_afterRenew _ _
          · rfl
      all_goals
        refine hs.step_same hinj hdist ?_ ?_
        · simp [stmt, hpre]
        · simp [Leader.step, Act.scheduler, move, hpre]
    | tick k tickAt env =>
      cases ha
      cases hpre : s.at_ i
      case ticking =>
        refine hs.step_leads hinj hdist (by simp [hpre]) (by rw [pc_step_of_none rfl]) ?_
        simp only [Leader.step, Act.scheduler, if_pos, move, hpre]
        exact leads_afterTick _ _
      all_goals
        refine hs.step_same hinj hdist rfl ?_
        simp [Leader.step, Act.scheduler, move, hpre]
    | rest k ok connected =>
      cases ha
      cases hpre : s.at_ i
      case resting =>
        refine hs.step_leads hinj hdist (by simp [hpre]) (by rw [pc_step_of_none rfl]) ?_
        simp only [Leader.step, Act.scheduler, if_pos, move, hpre]
        split_ifs <;> rfl
      all_goals
        refine hs.step_same hinj hdist rfl ?_
        simp [Leader.step, Act.scheduler, move, hpre]
    | release k ok =>
      cases ha
      cases hsound rfl
      cases hpre : s.at_ i
      case leaving => exact hs.step_release hinj hpre
      all_goals
        refine hs.step_same hinj hdist ?_ ?_
        · simp [stmt, hpre]
        · simp [Leader.step, Act.scheduler, move, hpre]
    | crash k =>
      cases ha
      exact absurd rfl hsound
  · exact hs.step_of_ne hinj hdist ha

/-- The row of the lock, if it is in the name of scheduler `j`, has not expired. -/
def Unexpired (owner : ι → String) (j : ι) (s : Sys ι κ) (now : Clock) : Prop :=
  ∀ r, s.lock.locks.find? lockName = some r → r.owner = owner j → now.secs < r.expiresAt.val

/-- A step beside an acquire by scheduler `j`: `j` is not asked to stop, does not crash, and its
statements succeed; no other client releases or renews the lock in its name, and the row that its
acquire inserts does not expire. -/
structure Beside (owner : ι → String) (j : ι) (s : Sys ι κ) (x : Clock × Act ι κ) : Prop where
  sound : Sound j x.2
  runs : ∀ k, x.2 = .stop k → k ≠ j
  spares : Spares owner x.2
  unexpired : Unexpired owner j s x.1

/-- A statement of `lock_try_acquire` by scheduler `j`. -/
def isAcquire (j : ι) : Clock × Act ι κ → Bool
  | (_, .acquire k _) => decide (k = j)
  | _ => false

/-- The statements that an acquire has yet to make. -/
def statementsLeft : Acquiring → ℕ
  | .idle => 3
  | .inserting _ _ _ _ => 2
  | .selecting _ _ _ => 1

/-- A standby that has `n` statements of its acquire to go, while the lock is in no other name. -/
structure Acquires (owner : ι → String) (j : ι) (n : ℕ) (s : Sys ι κ) : Prop where
  standby : s.at_ j = .standby
  runs : s.stop j = false
  left : statementsLeft (s.lock.pc (.inl j)) = n
  target : ∀ x, (s.lock.pc (.inl j)).target = some x → x = (lockName, owner j)
  free : ∀ who, s.lock.holder lockName = some who → who = owner j
  mine : n = 1 → s.lock.holder lockName = some (owner j)

/-- Scheduler `j` leads, or the lock is in another name. -/
def Handed (owner : ι → String) (j : ι) (s : Sys ι κ) : Prop :=
  s.at_ j = .leading ∨ ∃ who, s.lock.holder lockName = some who ∧ who ≠ owner j

omit [DecidableEq ι] [DecidableEq κ] in
theorem handed_or_free (j : ι) (s : Sys ι κ) :
    Handed owner j s ∨ ∀ who, s.lock.holder lockName = some who → who = owner j := by
  by_cases h : ∃ who, s.lock.holder lockName = some who ∧ who ≠ owner j
  · exact Or.inl (Or.inr h)
  · exact Or.inr fun who hwho ↦ by_contra fun hne ↦ h ⟨who, hwho, hne⟩

theorem stop_step {s : Sys ι κ} {now : Clock} {a : Act ι κ} {j : ι} (ha : ∀ k, a = .stop k → k ≠ j)
    (hs : s.stop j = false) : (step next owner s (now, a)).2.stop j = false := by
  cases a with
  | stop k => simp [step, hs, Ne.symm (ha k rfl)]
  | _ => exact hs

omit [DecidableEq ι] [DecidableEq κ] in
/-- A step that is not a statement of the acquire leaves it where it is. -/
theorem Acquires.frame {s s' : Sys ι κ} {j : ι} {n : ℕ} (hs : Acquires owner j n s)
    (hat : s'.at_ j = s.at_ j) (hstop : s'.stop j = false)
    (hpc : s'.lock.pc (.inl j) = s.lock.pc (.inl j))
    (hmine : s.lock.holder lockName = some (owner j) → s'.lock.holder lockName = some (owner j)) :
    Handed owner j s' ∨ Acquires owner j n s' := by
  refine (handed_or_free j s').imp_right fun hfree ↦ ?_
  exact ⟨hat.trans hs.standby, hstop, hpc ▸ hs.left, hpc ▸ hs.target, hfree, hmine ∘ hs.mine⟩

/-- A step of nobody's but another's, with the row of scheduler `j` unexpired, leaves the row there. -/
theorem holder_step_of_ne (hinj : Function.Injective owner) {s : Sys ι κ} {x : Clock × Act ι κ} {j : ι}
    (hx : Beside owner j s x) (ha : x.2.scheduler ≠ some j)
    (hholder : s.lock.holder lockName = some (owner j)) :
    (step next owner s x).2.lock.holder lockName = some (owner j) := by
  obtain ⟨r, hr, hwho⟩ := Option.map_eq_some_iff.mp hholder
  rw [lock_step]
  cases hstmt : stmt owner s x.1 x.2 with
  | none => exact hholder
  | some b =>
    have hrow : (lockStep s.lock b).2.locks.find? lockName = some r := by
      refine find?_lockStep_of_unexpired hr ?_ fun hb ↦ ?_
      · rw [now_of_stmt hstmt]
        exact hx.unexpired r hr hwho
      · rw [hwho] at hb
        rcases rewrites_of_stmt hinj hstmt hb with ⟨c, hc, hrew⟩ | ⟨ok, hc, -⟩ | ⟨ok, ended, hc, -⟩
        · have hspares := hx.spares
          rw [hc] at hspares
          exact hspares j hrew
        · exact ha (by rw [hc]; rfl)
        · exact ha (by rw [hc]; rfl)
    simp [LockSys.holder, hrow, hwho]

/-- The statements of an acquire: the `DELETE`, the `INSERT`, which finds no row of another, and the
`SELECT`, which finds the scheduler's own. -/
theorem Acquires.step_own {s : Sys ι κ} {now : Clock} {j : ι} {n : ℕ} (hs : Acquires owner j n s) :
    Handed owner j (step next owner s (now, .acquire j true)).2 ∨
      ∃ k, k + 1 ≤ n ∧ Acquires owner j k (step next owner s (now, .acquire j true)).2 := by
  obtain ⟨hlock, hat⟩ := acquire_step owner next now hs.standby (by simp [stopsHere, hs.runs])
  have hstop : (step next owner s (now, .acquire j true)).2.stop j = false := stop_step (by simp) hs.runs
  have hleft := hs.left
  cases hpc : s.lock.pc (.inl j) with
  | idle =>
    simp only [acquireStmt, hpc, lockStep, afterAcquire] at hlock hat
    refine (handed_or_free j _).imp_right fun hfree ↦ ⟨2, ?_, hat, hstop, ?_, ?_, hfree, by simp⟩
    · rw [← hleft, hpc]
      exact le_rfl
    · simp [hlock, statementsLeft]
    · simp [hlock, Acquiring.target]
  | inserting name who ttl t =>
    obtain ⟨rfl, rfl⟩ := Prod.mk.inj (hs.target (name, who) (by rw [hpc]; rfl))
    simp only [acquireStmt, hpc, lockStep, afterAcquire] at hlock hat
    refine (handed_or_free j _).imp_right fun hfree ↦ ⟨1, ?_, hat, hstop, ?_, ?_, hfree, fun _ ↦ ?_⟩
    · rw [← hleft, hpc]
      exact le_rfl
    · simp [hlock, statementsLeft]
    · simp [hlock, Acquiring.target]
    · rw [hlock]
      cases hr : s.lock.locks.find? lockName with
      | none => simp [LockSys.holder, find?_insertOrIgnoreLock, hr]
      | some r =>
        have hwho := hs.free r.owner (by simp [LockSys.holder, hr])
        simp [LockSys.holder, find?_insertOrIgnoreLock, hr, hwho]
  | selecting name who t =>
    obtain ⟨rfl, rfl⟩ := Prod.mk.inj (hs.target (name, who) (by rw [hpc]; rfl))
    have hmine : s.lock.holder lockName = some (owner j) := hs.mine (by rw [← hleft, hpc]; rfl)
    simp only [acquireStmt, hpc, lockStep, (selectLockOwner_eq_one _ _ _).mpr hmine] at hat
    exact Or.inl (Or.inl hat)

/-- A step beside an acquire leaves it no further from its end, and a statement of its own brings it
closer. -/
theorem Acquires.step (hinj : Function.Injective owner) {s : Sys ι κ} {x : Clock × Act ι κ} {j : ι} {n : ℕ}
    (hs : Acquires owner j n s) (hx : Beside owner j s x) :
    Handed owner j (step next owner s x).2 ∨
      ∃ k, k + (isAcquire j x).toNat ≤ n ∧ Acquires owner j k (step next owner s x).2 := by
  obtain ⟨now, a⟩ := x
  have hstop : (Leader.step next owner s (now, a)).2.stop j = false := stop_step hx.runs hs.runs
  by_cases ha : a.scheduler = some j
  · have hsound := hx.sound
    -- Of its own steps a standby makes only those of its acquire.
    have hsame (hstmt : stmt owner s now a = none)
        (hat : (Leader.step next owner s (now, a)).2.at_ j = s.at_ j) :
        Handed owner j (Leader.step next owner s (now, a)).2 ∨
          Acquires owner j n (Leader.step next owner s (now, a)).2 := by
      have hlock : (Leader.step next owner s (now, a)).2.lock = s.lock := by
        rw [lock_step, hstmt]
        rfl
      exact hs.frame hat hstop (by rw [hlock]) (by rw [hlock]; exact id)
    cases a with
    | lock c => cases ha
    | call c => cases ha
    | stop k => cases ha
    | acquire k ok =>
      cases ha
      cases hsound rfl
      simpa [isAcquire] using hs.step_own
    | crash k =>
      cases ha
      exact absurd rfl hsound
    | _ =>
      cases ha
      refine (hsame ?_ ?_).imp_right fun h ↦ ⟨n, by simp [isAcquire], h⟩
      · simp [stmt, hs.standby]
      · simp [Leader.step, Act.scheduler, move, hs.standby]
  · have hpc : (Leader.step next owner s (now, a)).2.lock.pc (.inl j) = s.lock.pc (.inl j) :=
      pc_step_of_ne ha
    have hnone : isAcquire j (now, a) = false := by
      cases a with
      | acquire k ok => simpa [isAcquire, Act.scheduler] using ha
      | _ => rfl
    refine (hs.frame (at_step_of_ne ha) hstop hpc (holder_step_of_ne hinj hx ha)).imp_right fun h ↦ ?_
    exact ⟨n, by simp [hnone], h⟩

/-- A standby that has made the three statements of an acquire leads, unless the lock is in another name
by then. -/
theorem acquires_run (hinj : Function.Injective owner) {s : Sys ι κ} {j : ι} {bs : List (Clock × Act ι κ)}
    (hbs : Along (step next owner) (Beside owner j) s bs) (hat : s.at_ j = .standby)
    (hidle : s.lock.pc (.inl j) = .idle) (hruns : s.stop j = false) (hthree : 3 ≤ bs.countP (isAcquire j)) :
    ∃ cs ds, bs = cs ++ ds ∧ Handed owner j (final (step next owner) s cs) := by
  rcases (handed_or_free j s : Handed owner j s ∨ _) with hhanded | hfree
  · exact ⟨[], bs, rfl, hhanded⟩
  have hstart : Acquires owner j 3 s :=
    ⟨hat, hruns, by rw [hidle]; rfl, by simp [hidle, Acquiring.target], hfree, by simp⟩
  have hsteps : 3 + bs.countP (fun _ ↦ false) ≤ bs.countP (isAcquire j) := by simpa using hthree
  have hreach := Interleaving.along_reaches (fun s x ↦ (step next owner s x).2) (P := Acquires owner j)
    (Q := Handed owner j) ?_ ?_ hstart (Interleaving.Along.of_trace hbs) hsteps
  · simpa only [Interleaving.run_snd] using hreach
  · intro s hs
    have hleft := hs.left
    cases hpc : s.lock.pc (.inl j) <;> rw [hpc] at hleft <;> cases hleft
  · intro n s x hx hs
    exact hs.step hinj hx

variable (next) in
/-- In every run in which scheduler `i` does not crash and its statements on the lock succeed, whatever
its ticks do, the lock is in its name only between the insert of its acquire and the release that ends
its leadership; that release leaves the lock in another name or in none; and a standby that acquires at
any time after it, in any interleaving of other steps with the statements of its acquire, leads once it
has made them, or finds the lock in another name. -/
theorem leader_handover (hinj : Function.Injective owner) (i : ι) (as : List (Clock × Act ι κ))
    (hdist : ∀ x ∈ as, Distinct owner i x.2) (hsound : ∀ x ∈ as, Sound i x.2) :
    ((final (step next owner) (.fresh ι κ) as).lock.holder lockName = some (owner i) →
      Inside i (final (step next owner) (.fresh ι κ) as)) ∧
    ∀ ended now, (final (step next owner) (.fresh ι κ) as).at_ i = .leaving ended →
      (final (step next owner) (.fresh ι κ) (as ++ [(now, .release i true)])).lock.holder lockName ≠
        some (owner i) ∧
      ∀ j mid bs, let s := final (step next owner) (.fresh ι κ) (as ++ (now, .release i true) :: mid)
        s.at_ j = .standby → s.lock.pc (.inl j) = .idle → s.stop j = false →
        Along (step next owner) (Beside owner j) s bs → 3 ≤ bs.countP (isAcquire j) →
        ∃ cs ds, bs = cs ++ ds ∧ Handed owner j (final (step next owner) s cs) := by
  have hheld : Held owner i (final (step next owner) (.fresh ι κ) as) := by
    induction as using List.reverseRecOn with
    | nil => exact .fresh owner i
    | append_singleton as x ih =>
      simp only [List.forall_mem_append, List.forall_mem_singleton] at hdist hsound
      rw [final_snoc]
      exact (ih hdist.1 hsound.1).step hinj hdist.2 hsound.2
  refine ⟨hheld.inside, ?_⟩
  intro ended now hat
  refine ⟨?_, ?_⟩
  · rw [final_snoc]
    simp [lock_step, stmt, hat, lockStep, LockSys.holder, find?_lockRelease, Option.filter_eq_some_iff]
  · intro j mid bs s hj hidle hruns hbs hthree
    exact acquires_run hinj hbs hj hidle hruns hthree

/-- Scheduler `false` leads from 100, and its tick fails. -/
def failedTick : List (Clock × Act Bool Empty) :=
  [(.near 100, .acquire false true), (.near 100, .acquire false true), (.near 100, .acquire false true),
    (.near 100, .renew false true), (.near 101, .tick false 101 ⟨.cancel 0, fun _ ↦ .near 101, .inOrder,
      .inOrder, ⟨true, false, fun _ ↦ false, fun _ ↦ false, "database is locked"⟩⟩)]

/-- Scheduler `true` acquires beside a call and a stop of scheduler `false`. -/
def takesOver : List (Clock × Act Bool Empty) :=
  [(.near 101, .acquire true true), (.near 101, .call (.at_ (.near 101) (.cancel 0))),
    (.near 101, .acquire true true), (.near 101, .stop false), (.near 101, .acquire true true)]

theorem leader_handover_failedTick :
    let owner : Bool → String := fun i ↦ if i then "b" else "a"
    let reached (as : List (Clock × Act Bool Empty)) :=
      final (step (fun _ u ↦ .ok (u + 1)) owner) (.fresh Bool Empty) (failedTick ++ as)
    (reached []).lock.holder lockName = some "a" ∧ (reached []).at_ false = .leaving false ∧
      ∃ cs ds, takesOver = cs ++ ds ∧
        (reached ((.near 101, .release false true) :: cs)).at_ true = .leading := by
  intro owner reached
  have hinj : Function.Injective owner := by
    intro i j
    cases i <;> cases j <;> simp [owner]
  let next : String → ℤ → Except String ℤ := fun _ u ↦ .ok (u + 1)
  let released : Clock × Act Bool Empty := (.near 101, .release false true)
  let s := final (step next owner) (.fresh Bool Empty) (failedTick ++ released :: [])
  have hrow : ∀ cs ∈ takesOver.inits, ∀ r,
      (final (step next owner) s cs).lock.locks.find? lockName = some r →
        r.owner = "b" ∧ 101 < r.expiresAt.val := by
    have hall : ∀ cs ∈ takesOver.inits, ((final (step next owner) s cs).lock.locks.find? lockName).all
        fun r ↦ decide (r.owner = "b" ∧ 101 < r.expiresAt.val) := by decide +kernel
    intro cs hcs r hr
    simpa [hr] using hall cs hcs
  have hbeside : Along (step next owner) (Beside owner true) s takesOver := by
    intro e he
    obtain ⟨cs, x, ds, hsplit, rfl⟩ := mem_trace _ he
    have hmem : x ∈ takesOver := by simp [hsplit]
    refine ⟨?_, ?_, ?_, fun r hr _ ↦ ?_⟩
    · exact (by simp [takesOver, Sound] : ∀ x ∈ takesOver, Sound true x.2) x hmem
    · exact (by simp [takesOver] : ∀ x ∈ takesOver, ∀ k, x.2 = .stop k → k ≠ true) x hmem
    · exact (by simp [takesOver, Spares] : ∀ x ∈ takesOver, Spares owner x.2) x hmem
    · have hnow : x.1.secs = 101 := (by decide : ∀ x ∈ takesOver, x.1.secs = 101) x hmem
      change x.1.secs < r.expiresAt.val
      rw [hnow]
      exact (hrow cs ((List.mem_inits cs takesOver).mpr ⟨x :: ds, hsplit.symm⟩) r hr).2
  obtain ⟨cs, ds, hcs, hlead | ⟨who, hwho, hne⟩⟩ := ((leader_handover next hinj false failedTick
    (by simp [failedTick, Distinct]) (by simp [failedTick, Sound])).2 false (.near 101) (by decide +kernel)).2
      true [] takesOver (by decide +kernel) (by decide +kernel) (by decide +kernel) hbeside (by decide)
  · refine ⟨by decide +kernel, by decide +kernel, cs, ds, hcs, ?_⟩
    rwa [← final_append, List.append_assoc] at hlead
  · obtain ⟨r, hr, rfl⟩ := Option.map_eq_some_iff.mp hwho
    exact absurd (hrow cs ((List.mem_inits cs takesOver).mpr ⟨ds, hcs.symm⟩) r hr).1 hne

end Handover

end Leader

end Honker
