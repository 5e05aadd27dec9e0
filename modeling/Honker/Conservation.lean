import Honker.Effects

namespace Honker

open Relational Numeric Transition Fallible

/-- No id is in both job tables. -/
def Db.Apart (db : Db) : Prop := ∀ j r, db.live.find? j = some r → db.dead.find? j = none

section Ledger

/-- What the two job tables and the counter always satisfy. -/
structure Ledger (db : Db) : Prop where
  apart : db.Apart
  live : ∀ j r, db.live.find? j = some r → j ≤ db.seq
  dead : ∀ j d, db.dead.find? j = some d → j ≤ db.seq

variable {next : String → ℤ → Except String ℤ} {db db' : Db} {c : Call}

theorem Ledger.fresh : Ledger Db.fresh := by
  refine ⟨?_, ?_, ?_⟩
  · intro j r h
    simp [Db.fresh] at h
  · intro j r h
    simp [Db.fresh] at h
  · intro j d h
    simp [Db.fresh] at h

theorem seq_mono (next : String → ℤ → Except String ℤ) (db : Db) (c : Call) :
    db.seq ≤ (exec next db c).2.seq := by
  rcases exec_issued next db c with ⟨rows, henq, -⟩ | ⟨-, hseq⟩
  · exact henq.seq
  · exact hseq.ge

theorem mem_issued {j : ℤ} (h : j ∈ issued (event (exec next) db c)) :
    db.seq < j ∧ j ≤ (exec next db c).2.seq ∧ (∃ r, (exec next db c).2.live.find? j = some r) ∧
      (exec next db c).2.dead.find? j = db.dead.find? j := by
  rcases exec_issued next db c with ⟨rows, henq, hids⟩ | ⟨hnone, -⟩
  · rw [hids] at h
    obtain ⟨r, hr, rfl⟩ := List.mem_map.mp h
    obtain ⟨habove, hle⟩ := henq.above r hr
    obtain ⟨hdead, ⟨s, -, -, -, hpost⟩ | ⟨hnot, -⟩⟩ := henq.find? r.id
    · exact ⟨habove, hle, ⟨s, hpost⟩, hdead⟩
    · exact absurd rfl (hnot r hr)
  · simp [hnone] at h

theorem nodup_issued (next : String → ℤ → Except String ℤ) (db : Db) (c : Call) :
    (issued (event (exec next) db c)).Nodup := by
  rcases exec_issued next db c with ⟨rows, henq, hids⟩ | ⟨hnone, -⟩
  · rw [hids]
    exact henq.ids.imp ne_of_lt
  · simp [hnone]

theorem Ledger.step (h : Ledger db) (c : Call) : Ledger (exec next db c).2 := by
  have hseq := seq_mono next db c
  refine ⟨?_, ?_, ?_⟩
  · intro j r hr
    rcases dead_step next db c j with hdead | ⟨s, error, diedAt, -, hgone, -⟩
    · rw [hdead]
      rcases row_step next db c hr with ⟨-, -, hmem⟩ | ⟨s, hs, -⟩
      · cases hd : db.dead.find? j with
        | none => rfl
        | some d => exact absurd (h.dead j d hd) (not_le.mpr (mem_issued hmem).1)
      · exact h.apart j s hs
    · exact absurd (hgone.symm.trans hr) (by simp)
  · intro j r hr
    rcases row_step next db c hr with ⟨-, -, hmem⟩ | ⟨s, hs, -⟩
    · exact (mem_issued hmem).2.1
    · exact (h.live j s hs).trans hseq
  · intro j d hd
    rcases dead_step next db c j with hdead | ⟨s, error, diedAt, hs, -⟩
    · exact (h.dead j d (hdead.symm.trans hd)).trans hseq
    · exact (h.live j s hs).trans hseq

theorem Ledger.run (next : String → ℤ → Except String ℤ) (calls : List Call) :
    Ledger (final (exec next) Db.fresh calls) :=
  final_invariant (exec next) Db.fresh Ledger.fresh (fun _ c h ↦ h.step c) calls

end Ledger

section Moves

variable {db db' : Db} {p : LiveRow → Bool} {error : String} {diedAt : ℤ}

theorem Moved.apart (h : Moved p error diedAt db db') (hdb : db.Apart) : db'.Apart := by
  intro j r hr
  by_cases hsel : ∃ s, db.live.find? j = some s ∧ p s = true
  · obtain ⟨s, hs, hp⟩ := hsel
    exact absurd ((h.gone hs hp).1.symm.trans hr) (by simp)
  · obtain ⟨hlive, hdead⟩ := h.kept (j := j) (fun s hs ↦ by
      by_contra hc
      exact hsel ⟨s, hs, by simpa using hc⟩)
    rw [hdead]
    exact hdb j r (hlive.symm.trans hr)

/-- While no id is in both tables a copy into `_honker_dead` succeeds. -/
theorem insertAll?_copies (hdb : db.Apart) (p : LiveRow → Bool) (error : String) (diedAt : ℤ) :
    ∃ dead, db.dead.insertAll? (copies p error diedAt db.live) = some dead := by
  cases hins : db.dead.insertAll? (copies p error diedAt db.live) with
  | some dead => exact ⟨dead, rfl⟩
  | none =>
    obtain ⟨d, hd, hmem⟩ := Table.insertAll?_eq_none (nodup_copies p error diedAt db.live) hins
    obtain ⟨r, hr, rfl⟩ := List.mem_map.mp hd
    have hfind := Table.find?_of_mem (List.mem_filter.mp hr).1
    exact absurd hmem (Table.find?_eq_none.mp (hdb r.id r hfind))

theorem moveToDead_total (hdb : db.Apart) (idsSql : LiveTable → String → ℤ → ℤ → List ℤ)
    (queue : String) (now lim : ℤ) (error : String) :
    ∃ n db', moveToDead idsSql queue now lim error db = .ok (n, db') := by
  obtain ⟨dead, hins⟩ := insertAll?_copies hdb (fun r ↦ r.id ∈ idsSql db.live queue now lim) error now
  have heq := moveToDead_eq idsSql queue now lim error db
  simp only [hins] at heq
  exact ⟨_, _, heq⟩

theorem promote_apart (hdb : db.Apart) (queue : String) (now lim : ℤ) :
    (promote queue now lim db).Apart := by
  intro j r hr
  rcases find?_promote queue now lim db j with hkeep | ⟨s, hs, -, -⟩
  · exact hdb j r (hkeep.symm.trans hr)
  · exact hdb j s hs

theorem housekeep_total (hdb : db.Apart) (queue : String) (now : ℤ) :
    ∃ db', housekeep queue now db = .ok db' := by
  have hdb₀ := promote_apart hdb queue now claimHousekeepingLimit
  obtain ⟨n₁, db₁, hexp⟩ := moveToDead_total hdb₀ expireIds queue now claimHousekeepingLimit "expired"
  have hdb₁ : db₁.Apart := (moveToDead_ok hexp).1.apart hdb₀
  obtain ⟨n₂, db₂, hexh⟩ := moveToDead_total hdb₁ exhaustedIds queue now claimHousekeepingLimit
    "max attempts exceeded"
  exact ⟨db₂, bind_ok.mpr ⟨_, hexp, bind_ok.mpr ⟨_, hexh, rfl⟩⟩⟩

theorem buryWhere_conflict (hdb : db.Apart) {j : ℤ} (hp : ∀ r, p r = true → r.id = j)
    {error : String} {diedAt : ℤ} {err : SqlError} (h : buryWhere p error diedAt db = .error err) :
    err.isConflict = false := by
  cases hr : (db.live.find? j).filter p with
  | none => simp [buryWhere_eq hp, hr] at h
  | some r =>
    obtain ⟨hfind, hpr⟩ := Option.filter_eq_some_iff.mp hr
    rcases buryWhere_hit hp hfind hpr (hdb j r hfind) error diedAt with ⟨-, db', hok⟩ | ⟨-, herr⟩
    · exact absurd (hok.symm.trans h) (by simp)
    · cases herr.symm.trans h
      rfl

theorem claimSql_error {emit : Emission LiveRow} {queue worker : String} {n timeout now : ℤ}
    {e : SqlError} (h : claimSql emit queue worker n timeout now db = .error e) :
    ¬ InRange (now + timeout) ∧ claimRows queue n now db.live ≠ [] ∧
      e = .columnType 5 "claim_expires_at" "Real" := by
  rw [claimSql_eq] at h
  generalize hrows : (claimRows queue n now db.live).map (LiveRow.claimed worker timeout now) = rows
    at h
  cases hjobs : (emit.order rows).mapM ClaimedJob.ofRow with
  | ok jobs => simp [hjobs, Except.map] at h
  | error e' =>
    simp only [hjobs, Except.map] at h
    cases h
    obtain ⟨r, hr, hdec⟩ := mapM_error hjobs
    have hmem : r ∈ rows := (emit.perm rows).mem_iff.mp hr
    rw [← hrows] at hmem
    obtain ⟨s, hs, rfl⟩ := List.mem_map.mp hmem
    obtain ⟨hrange, he⟩ := ofRow_claimed_error hdec
    exact ⟨hrange, List.ne_nil_of_mem hs, he⟩

end Moves

/-- The ids that a call took out of both job tables. -/
def removed (e : Event) : List ℤ :=
  (e.pre.live.rows.map LiveRow.id).filter
    (fun j ↦ (e.post.live.find? j).isNone && (e.post.dead.find? j).isNone)

/-- The number of calls of a history that removed `j`. -/
def removals (h : List Event) (j : ℤ) : ℕ := h.countP (fun e ↦ j ∈ removed e)

def everIssued (h : List Event) : List ℤ := h.flatMap issued

/-- The calls that finish or cancel jobs and return how many. -/
def Op.isRemoval : Op → Bool
  | .ack .. | .ackFenced .. | .ackBatch .. | .cancel _ | .cancelInQueue .. => true
  | _ => false

structure DeadRow.CopyOf (d : DeadRow) (r : LiveRow) : Prop where
  id : d.id = r.id
  queue : d.queue = r.queue
  payload : d.payload = r.payload
  priority : d.priority = r.priority
  runAt : d.runAt = r.runAt
  maxAttempts : d.maxAttempts = r.maxAttempts
  attempts : d.attempts = r.attempts
  createdAt : d.createdAt = r.createdAt

section Removed

variable {next : String → ℤ → Except String ℤ} {db : Db} {c : Call} {e : Event} {j : ℤ}

theorem mem_removed : j ∈ removed e ↔
    (∃ r, e.pre.live.find? j = some r) ∧ e.post.live.find? j = none ∧ e.post.dead.find? j = none := by
  rw [removed, List.mem_filter, ← Table.find?_isSome, Option.isSome_iff_exists]
  simp

theorem isRemoval_of_removes {r : LiveRow} (h : Removes c r) : c.op.isRemoval = true := by
  unfold Removes at h
  split at h <;> simp_all [Op.isRemoval]

theorem isRemoval_of_mem_removed (h : j ∈ removed (event (exec next) db c)) :
    c.op.isRemoval = true := by
  obtain ⟨⟨r, hr⟩, hlive, hdead⟩ := mem_removed.mp h
  cases job_step next db c j with
  | removed s pre post dead ret guard => exact isRemoval_of_removes guard
  | kept live dead => exact absurd (hr.symm.trans (live.symm.trans hlive)) (by simp)
  | buried s err t pre post free dead => exact absurd (dead.symm.trans hdead) (by simp)
  | enqueued s pre post => exact absurd (post.symm.trans hlive) (by simp)
  | promoted s pre post => exact absurd (post.symm.trans hlive) (by simp)
  | claimed s w t job pre post => exact absurd (post.symm.trans hlive) (by simp)
  | extended s x pre post => exact absurd (post.symm.trans hlive) (by simp)
  | requeued s d pre post => exact absurd (post.symm.trans hlive) (by simp)

theorem removed_of_delete (hpre : e.pre.Apart) {p : LiveRow → Bool}
    (hlive : e.post.live = e.pre.live.delete p) (hdead : e.post.dead = e.pre.dead) :
    removed e = (e.pre.live.rows.filter p).map LiveRow.id := by
  have hp (r : LiveRow) (hr : r ∈ e.pre.live.rows) :
      ((e.post.live.find? r.id).isNone && (e.post.dead.find? r.id).isNone) = p r := by
    have hfind := Table.find?_of_mem hr
    rw [hlive, Table.find?_delete, hdead, hpre r.id r hfind, hfind]
    cases hpr : p r <;> simp [Option.filter, hpr]
  rw [removed, List.filter_map]
  exact congrArg _ (List.filter_congr hp)

/-- An acknowledgement or a cancellation returns the number of jobs it removed. -/
theorem removal_output (hdb : db.Apart) (h : c.op.isRemoval = true) :
    (exec next db c).1 = .count (removed (event (exec next) db c)).length ∨
      (exec next db c).1 = .error .malformedJson ∧ removed (event (exec next) db c) = [] := by
  have hdelete {p : LiveRow → Bool}
      (hexec : exec next db c = (.ofCount (deleteCount p db).1, (deleteCount p db).2)) :
      (exec next db c).1 = .count (removed (event (exec next) db c)).length := by
    have hrem := removed_of_delete (e := event (exec next) db c) (p := p) hdb
      (by simp only [event, hexec, deleteCount, deleteLive])
      (by simp only [event, hexec, deleteCount, deleteLive])
    rw [hrem, hexec, List.length_map]
    rfl
  cases hop : c.op <;> simp only [hop, Op.isRemoval, Bool.false_eq_true] at h
  case ackBatch elems worker =>
    cases elems with
    | none =>
      have hexec : exec next db c = (.error .malformedJson, db) := by
        simp [exec, hop, ackBatch, Ret.ofCount]
      refine Or.inr ⟨by rw [hexec], ?_⟩
      refine List.eq_nil_iff_forall_not_mem.mpr fun j hj ↦ ?_
      obtain ⟨⟨r, hr⟩, hlive, -⟩ := mem_removed.mp hj
      rw [event, hexec] at hlive
      exact absurd (hr.symm.trans hlive) (by simp)
    | some elems => exact Or.inl (hdelete (by simp only [exec, hop, ackBatch]; rfl))
  all_goals exact Or.inl (hdelete (by simp only [exec, hop]; rfl))

theorem retryWith_conflict (hdb : db.Apart) {job : ℤ} {worker error : String} {delay : I64}
    {attempt : Option ℤ} {clk : ℕ → Clock} {err : SqlError}
    (h : (retryWith job worker delay error attempt clk db).1 = .error err) :
    err.isConflict = false := by
  rcases retryWith_cases job worker delay error attempt clk db with
    ⟨-, -, -, -, heq⟩ | ⟨-, db', -, -, -, heq, -⟩ | ⟨-, -, ⟨hzero, -⟩ | ⟨err', herr, hbury⟩⟩
  · simp [heq] at h
  · simp [heq] at h
  · simp [hzero] at h
  · rw [herr] at h
    cases h
    exact buryWhere_conflict hdb (fun r hr ↦ retryGuard_id (Bool.and_eq_true_iff.mp hr).1) hbury

theorem atomically_error {α : Type} {db : Db} {x : Except SqlError (α × Db)} {err : SqlError}
    (h : (atomically db x).1 = .error err) : x = .error err := by
  cases x with
  | ok y => cases h
  | error e =>
    cases h
    rfl

theorem claimBatch_conflict (hdb : db.Apart) {emit : Emission LiveRow} {queue worker : String}
    {n : ℤ} {timeout : I64} {now : Clock} {err : SqlError}
    (h : (claimBatch emit queue worker n timeout now db).1 = .error err) :
    err.isConflict = false := by
  obtain ⟨db₁, hkeep⟩ := housekeep_total hdb queue now
  rcases bind_error.mp (atomically_error h) with hbad | ⟨db₂, -, hsql⟩
  · simp [hkeep] at hbad
  · rw [(claimSql_error hsql).2.2]
    rfl

theorem schedulerRegister_conflict {name queue cronExpr payload : String} {priority : ℤ}
    {expiresS : Option I64} {maxAttempts : ℤ} {now : Clock} {err : SqlError}
    (h : (schedulerRegister next name queue cronExpr payload priority expiresS maxAttempts now db).1 =
      .error err) : err.isConflict = false := by
  unfold schedulerRegister at h
  split at h
  · cases h
    exact checkMaxAttempts_conflict ‹_›
  · split at h
    · cases h
      exact boundary_conflict ‹_›
    · cases h

theorem schedulerUpdate_conflict {name : String} {cronExpr payload : Option String}
    {priority : Option ℤ} {expiresS : Option (Option I64)} {maxAttempts : Option (Option ℤ)}
    {now : Clock} {err : SqlError}
    (h : (schedulerUpdate next name cronExpr payload priority expiresS maxAttempts now db).1 =
      .error err) : err.isConflict = false := by
  unfold schedulerUpdate at h
  split at h
  · cases h
    obtain ⟨m, -, hm⟩ := mapM_option_error ‹_›
    exact checkMaxAttempts_conflict hm
  · split_ifs at h
    split at h
    · cases h
      obtain ⟨expr, -, hexpr⟩ := mapM_option_error ‹_›
      cases hb : boundary next expr now with
      | ok v => simp [hb, Except.map] at hexpr
      | error e =>
        simp only [hb, Except.map] at hexpr
        cases hexpr
        exact boundary_conflict hb
    · cases h

theorem exec_conflict (hdb : db.Apart) {err : SqlError} (h : (exec next db c).1 = .error err) :
    err.isConflict = false := by
  have hcount {r : Except SqlError ℤ} (hr : Ret.ofCount r = .error err) : r = .error err := by
    cases r with
    | ok n => cases hr
    | error e =>
      cases hr
      rfl
  cases hop : c.op with
  | enqueue queue payload runAt delay priority maxAttempts expires =>
    simp only [exec, hop, enqueue] at h
    split at h
    · cases h
      exact checkMaxAttempts_conflict ‹_›
    · cases h
  | claimBatch queue worker n timeout =>
    simp only [exec, hop] at h
    split at h
    · cases h
    · cases h
      exact claimBatch_conflict hdb (congrArg Prod.fst ‹_›)
  | ack | ackFenced | cancel | cancelInQueue | heartbeat | heartbeatFenced =>
    simp only [exec, hop] at h
    cases h
  | ackBatch elems worker =>
    cases elems <;> simp only [exec, hop, ackBatch] at h <;> cases h
    rfl
  | retry =>
    simp only [exec, hop] at h
    exact retryWith_conflict hdb (hcount h)
  | retryFenced =>
    simp only [exec, hop] at h
    exact retryWith_conflict hdb (hcount h)
  | fail =>
    simp only [exec, hop] at h
    exact buryWhere_conflict hdb (fun r ↦ failGuard_id) (atomically_error (hcount h))
  | failFenced =>
    simp only [exec, hop] at h
    exact buryWhere_conflict hdb (fun r ↦ failGuard_id) (atomically_error (hcount h))
  | sweepExpired queue =>
    obtain ⟨n, db', hmove⟩ := moveToDead_total hdb expireIds queue (c.clk 0) (-1) "expired"
    simp [exec, hop, sweepExpired, hmove, atomically] at h
  | schedulerTick tickAt =>
    simp only [exec, hop, schedulerTick] at h
    split at h
    · cases h
    · cases h
      exact schedulerTickInner_conflict (atomically_error (congrArg Prod.fst ‹_›))
  | schedulerRegister =>
    simp only [exec, hop] at h
    exact schedulerRegister_conflict (hcount h)
  | schedulerUpdate =>
    simp only [exec, hop] at h
    exact schedulerUpdate_conflict (hcount h)
  | schedulerUnregister => simp [exec, hop, schedulerUnregister, Ret.ofCount] at h
  | schedulerPause => simp [exec, hop, schedulerPause, setEnabled, Ret.ofCount] at h
  | schedulerResume => simp [exec, hop, schedulerResume, setEnabled, Ret.ofCount] at h

end Removed

/-- The account of a history: where each issued id is, and which call took it there. -/
structure Conserved (h : List Event) (db : Db) : Prop where
  once : (everIssued h).Nodup
  known : ∀ j, (db.live.find? j).isSome ∨ (db.dead.find? j).isSome → j ∈ everIssued h
  place : ∀ j ∈ everIssued h,
    ((db.live.find? j).isSome ∧ (db.dead.find? j).isNone ∧ removals h j = 0) ∨
    ((db.live.find? j).isNone ∧ (db.dead.find? j).isSome ∧ removals h j = 0) ∨
    ((db.live.find? j).isNone ∧ (db.dead.find? j).isNone ∧ removals h j = 1)
  counted : ∀ e ∈ h, e.input.op.isRemoval → ∀ n, e.output = .count n → n = (removed e).length
  removers : ∀ e ∈ h, removed e ≠ [] →
    e.input.op.isRemoval ∧ e.output = .count (removed e).length
  copied : ∀ e ∈ h, ∀ j d, e.pre.dead.find? j = none → e.post.dead.find? j = some d →
    ∃ r, e.pre.live.find? j = some r ∧ d.CopyOf r
  deadKept : ∀ e ∈ h, ∀ j d, e.pre.dead.find? j = some d → e.post.dead.find? j = some d
  noConflict : ∀ e ∈ h, ∀ column, e.output ≠ .error (.unique column)

section Conserved

variable {next : String → ℤ → Except String ℤ} {h : List Event} {db : Db}

theorem everIssued_snoc (h : List Event) (e : Event) :
    everIssued (h ++ [e]) = everIssued h ++ issued e := by
  simp [everIssued]

theorem removals_snoc (h : List Event) (e : Event) (j : ℤ) :
    removals (h ++ [e]) j = removals h j + if j ∈ removed e then 1 else 0 := by
  by_cases hj : j ∈ removed e <;> simp [removals, hj]

theorem copied_step (db : Db) (c : Call) (j : ℤ) (d : DeadRow) (hpre : db.dead.find? j = none)
    (hpost : (exec next db c).2.dead.find? j = some d) :
    ∃ r, db.live.find? j = some r ∧ d.CopyOf r := by
  rcases dead_step next db c j with hdead | ⟨r, error, diedAt, hr, -, -, hdead⟩
  · exact absurd (hpre.symm.trans (hdead.symm.trans hpost)) (by simp)
  · cases hpost.symm.trans hdead
    exact ⟨r, hr, ⟨rfl, rfl, rfl, rfl, rfl, rfl, rfl, rfl⟩⟩

theorem deadKept_step (db : Db) (c : Call) (j : ℤ) (d : DeadRow) (hpre : db.dead.find? j = some d) :
    (exec next db c).2.dead.find? j = some d := by
  rcases dead_step next db c j with hdead | ⟨r, error, diedAt, -, -, hfree, -⟩
  · exact hdead.trans hpre
  · exact absurd (hpre.symm.trans hfree) (by simp)

theorem issued_of_enters (db : Db) (c : Call) (j : ℤ) (hpre : db.live.find? j = none)
    (hpost : ((exec next db c).2.live.find? j).isSome) : j ∈ issued (event (exec next) db c) := by
  obtain ⟨r, hr⟩ := Option.isSome_iff_exists.mp hpost
  rcases row_step next db c hr with ⟨-, -, hmem⟩ | ⟨s, hs, -⟩
  · exact hmem
  · exact absurd (hpre.symm.trans hs) (by simp)

/-- The history invariant behind `Conserved`. -/
structure Account (h : List Event) (db : Db) : Prop extends Ledger db, Conserved h db where
  below : ∀ j ∈ everIssued h, j ≤ db.seq
  unissued : ∀ j, j ∉ everIssued h → removals h j = 0

theorem Account.fresh : Account [] Db.fresh where
  toLedger := Ledger.fresh
  once := by simp [everIssued]
  known := by simp [Db.fresh]
  place := by simp [everIssued]
  counted := by simp
  removers := by simp
  copied := by simp
  deadKept := by simp
  noConflict := by simp
  below := by simp [everIssued]
  unissued := by simp [removals]

theorem place_new (hacc : Account h db) (c : Call) {j : ℤ}
    (hj : j ∈ issued (event (exec next) db c)) :
    ((exec next db c).2.live.find? j).isSome ∧ ((exec next db c).2.dead.find? j).isNone ∧
      removals (h ++ [event (exec next) db c]) j = 0 := by
  obtain ⟨habove, -, ⟨r, hr⟩, hdead⟩ := mem_issued hj
  have hnew : j ∉ everIssued h := fun hmem ↦ absurd (hacc.below j hmem) (not_le.mpr habove)
  have hnot : j ∉ removed (event (exec next) db c) := by
    intro hmem
    exact absurd ((mem_removed.mp hmem).2.1.symm.trans hr) (by simp)
  have hnone : db.dead.find? j = none := by
    cases hd : db.dead.find? j with
    | none => rfl
    | some d => exact absurd (hacc.toLedger.dead j d hd) (not_le.mpr habove)
  refine ⟨by simp [hr], by simp [hdead, hnone], ?_⟩
  rw [removals_snoc, hacc.unissued j hnew, if_neg hnot]

/-- A call that leaves the row in `_honker_live` where it was, or changes it in place. -/
theorem place_stays (hacc : Account h db) (c : Call) {j : ℤ} {r r' : LiveRow}
    (hpre : db.live.find? j = some r) (hpost : (exec next db c).2.live.find? j = some r')
    (hdead : (exec next db c).2.dead.find? j = db.dead.find? j) (hj : j ∈ everIssued h) :
    ((exec next db c).2.live.find? j).isSome ∧ ((exec next db c).2.dead.find? j).isNone ∧
      removals (h ++ [event (exec next) db c]) j = 0 := by
  have hzero : removals h j = 0 := by
    rcases hacc.place j hj with ⟨-, -, hz⟩ | ⟨-, -, hz⟩ | ⟨hl, -⟩
    · exact hz
    · exact hz
    · simp [hpre] at hl
  have hnot : j ∉ removed (event (exec next) db c) := by
    intro hmem
    exact absurd ((mem_removed.mp hmem).2.1.symm.trans hpost) (by simp)
  refine ⟨by simp [hpost], by simp [hdead, hacc.apart j r hpre], ?_⟩
  rw [removals_snoc, hzero, if_neg hnot]

theorem place_old (hacc : Account h db) (c : Call) {j : ℤ} (hj : j ∈ everIssued h) :
    (((exec next db c).2.live.find? j).isSome ∧ ((exec next db c).2.dead.find? j).isNone ∧
      removals (h ++ [event (exec next) db c]) j = 0) ∨
    (((exec next db c).2.live.find? j).isNone ∧ ((exec next db c).2.dead.find? j).isSome ∧
      removals (h ++ [event (exec next) db c]) j = 0) ∨
    (((exec next db c).2.live.find? j).isNone ∧ ((exec next db c).2.dead.find? j).isNone ∧
      removals (h ++ [event (exec next) db c]) j = 1) := by
  have hlive {r : LiveRow} (pre : db.live.find? j = some r) : removals h j = 0 := by
    rcases hacc.place j hj with ⟨-, -, hz⟩ | ⟨-, -, hz⟩ | ⟨hl, -⟩
    · exact hz
    · exact hz
    · simp [pre] at hl
  have hsnoc := removals_snoc h (event (exec next) db c) j
  have hmem := mem_removed (e := event (exec next) db c) (j := j)
  cases job_step next db c j with
  | kept live dead =>
    change (exec next db c).2.live.find? j = db.live.find? j at live
    change (exec next db c).2.dead.find? j = db.dead.find? j at dead
    have hnot : j ∉ removed (event (exec next) db c) := by
      intro hin
      obtain ⟨⟨r, hr⟩, hnone, -⟩ := hmem.mp hin
      exact absurd (hr.symm.trans (live.symm.trans hnone)) (by simp)
    rw [hsnoc, if_neg hnot, add_zero, live, dead]
    exact hacc.place j hj
  | enqueued r pre post dead ret fresh mem => exact Or.inl (place_new hacc c mem)
  | promoted r pre post dead => exact Or.inl (place_stays hacc c pre post dead hj)
  | claimed r w t job pre post dead => exact Or.inl (place_stays hacc c pre post dead hj)
  | extended r x pre post dead => exact Or.inl (place_stays hacc c pre post dead hj)
  | requeued r x pre post dead => exact Or.inl (place_stays hacc c pre post dead hj)
  | removed r pre post dead =>
    change (exec next db c).2.live.find? j = none at post
    change (exec next db c).2.dead.find? j = db.dead.find? j at dead
    have hnone : (exec next db c).2.dead.find? j = none := dead.trans (hacc.apart j r pre)
    refine Or.inr (Or.inr ⟨by simp [post], by simp [hnone], ?_⟩)
    rw [hsnoc, hlive pre, if_pos (hmem.mpr ⟨⟨r, pre⟩, post, hnone⟩)]
  | buried r err t pre post free dead =>
    change (exec next db c).2.live.find? j = none at post
    change (exec next db c).2.dead.find? j = some _ at dead
    have hnot : j ∉ removed (event (exec next) db c) := by
      intro hin
      exact absurd (dead.symm.trans (hmem.mp hin).2.2) (by simp)
    refine Or.inr (Or.inl ⟨by simp [post], by simp [dead], ?_⟩)
    rw [hsnoc, hlive pre, if_neg hnot]

theorem Account.step (hacc : Account h db) (c : Call) :
    Account (h ++ [event (exec next) db c]) (exec next db c).2 where
  toLedger := hacc.toLedger.step c
  once := by
    rw [everIssued_snoc]
    refine hacc.once.append (nodup_issued next db c) fun j hj hnew ↦ ?_
    exact absurd (hacc.below j hj) (not_le.mpr (mem_issued hnew).1)
  known := by
    intro j hj
    rw [everIssued_snoc, List.mem_append]
    rcases hj with hlive | hdead
    · cases hpre : db.live.find? j with
      | none => exact Or.inr (issued_of_enters db c j hpre hlive)
      | some r => exact Or.inl (hacc.known j (Or.inl (by simp [hpre])))
    · obtain ⟨d, hd⟩ := Option.isSome_iff_exists.mp hdead
      cases hpre : db.dead.find? j with
      | some d' => exact Or.inl (hacc.known j (Or.inr (by simp [hpre])))
      | none =>
        obtain ⟨r, hr, -⟩ := copied_step db c j d hpre hd
        exact Or.inl (hacc.known j (Or.inl (by simp [hr])))
  place := by
    intro j hj
    rw [everIssued_snoc, List.mem_append] at hj
    rcases hj with hj | hj
    · exact place_old hacc c hj
    · exact Or.inl (place_new hacc c hj)
  counted := by
    intro e he hop n hn
    rcases List.mem_append.mp he with he | he
    · exact hacc.counted e he hop n hn
    · rw [List.mem_singleton.mp he] at hop hn ⊢
      rcases removal_output hacc.apart hop with hout | ⟨hout, -⟩
      · cases hn.symm.trans hout
        rfl
      · cases hn.symm.trans hout
  removers := by
    intro e he hne
    rcases List.mem_append.mp he with he | he
    · exact hacc.removers e he hne
    · rw [List.mem_singleton.mp he] at hne ⊢
      obtain ⟨j, hj⟩ := List.exists_mem_of_ne_nil _ hne
      have hop : c.op.isRemoval = true := isRemoval_of_mem_removed hj
      rcases removal_output hacc.apart hop with hout | ⟨-, hnil⟩
      · exact ⟨hop, hout⟩
      · exact absurd hnil hne
  copied := by
    intro e he
    rcases List.mem_append.mp he with he | he
    · exact hacc.copied e he
    · rw [List.mem_singleton.mp he]
      exact copied_step db c
  deadKept := by
    intro e he
    rcases List.mem_append.mp he with he | he
    · exact hacc.deadKept e he
    · rw [List.mem_singleton.mp he]
      exact deadKept_step db c
  noConflict := by
    intro e he column hout
    rcases List.mem_append.mp he with he | he
    · exact hacc.noConflict e he column hout
    · rw [List.mem_singleton.mp he] at hout
      exact absurd (exec_conflict hacc.apart hout) (by simp [SqlError.isConflict])
  below := by
    intro j hj
    rw [everIssued_snoc, List.mem_append] at hj
    rcases hj with hj | hj
    · exact (hacc.below j hj).trans (seq_mono next db c)
    · exact (mem_issued hj).2.1
  unissued := by
    intro j hj
    rw [everIssued_snoc, List.mem_append, not_or] at hj
    have hnot : j ∉ removed (event (exec next) db c) := by
      intro hmem
      obtain ⟨⟨r, hr⟩, -⟩ := mem_removed.mp hmem
      exact hj.1 (hacc.known j (Or.inl (by simp [show db.live.find? j = some r from hr])))
    rw [removals_snoc, hacc.unissued j hj.1, if_neg hnot]

theorem Account.run (next : String → ℤ → Except String ℤ) (calls : List Call) :
    Account (trace (exec next) Db.fresh calls) (final (exec next) Db.fresh calls) :=
  history_induction (exec next) Db.fresh Account.fresh (fun _ _ c hacc ↦ hacc.step c) calls

theorem stays_out {j : ℤ} (hj : j ≤ db.seq) (hout : db.live.find? j = none) (later : List Call) :
    (final (exec next) db later).live.find? j = none := by
  suffices hboth : (final (exec next) db later).live.find? j = none ∧
      j ≤ (final (exec next) db later).seq from hboth.1
  refine final_invariant (exec next) (P := fun t ↦ t.live.find? j = none ∧ j ≤ t.seq) db ⟨hout, hj⟩ ?_
    later
  intro t c ht
  refine ⟨?_, ht.2.trans (seq_mono next t c)⟩
  by_contra hne
  have hin := issued_of_enters t c j ht.1 (Option.isSome_iff_ne_none.mpr hne)
  exact absurd ht.2 (not_le.mpr (mem_issued hin).1)

end Conserved

/-- From a fresh database, after every sequence of calls, each issued id has one row in one job
table, or was removed by one acknowledgement or cancellation; and it never comes back. -/
theorem job_conservation (next : String → ℤ → Except String ℤ) (calls : List Call) :
    Conserved (trace (exec next) Db.fresh calls) (final (exec next) Db.fresh calls) ∧
      ∀ j ∈ everIssued (trace (exec next) Db.fresh calls),
        (final (exec next) Db.fresh calls).live.find? j = none →
        ∀ later, (final (exec next) Db.fresh (calls ++ later)).live.find? j = none := by
  have hacc := Account.run next calls
  refine ⟨hacc.toConserved, fun j hj hout later ↦ ?_⟩
  rw [final_append]
  exact stays_out (hacc.below j hj) hout later

end Honker
