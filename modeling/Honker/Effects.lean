import Honker.Statements

namespace Honker

open Relational Numeric Fallible

/-- The ids a call hands out. -/
def issued (e : Event) : List ℤ :=
  match e.input.op, e.output with
  | .enqueue .., .count id => [id]
  | .schedulerTick _, .fires fires => fires.map Fire.jobId
  | _, _ => []

/-- The jobs a call hands to a worker. -/
def returned (e : Event) : List ClaimedJob :=
  match e.output with
  | .jobs jobs => jobs
  | _ => []

def returns (e : Event) (j : ℤ) : List ClaimedJob := (returned e).filter (fun job ↦ job.id = j)

section Guards

variable (c : Call) (r : LiveRow)

def Promotes : Prop :=
  match c.op with
  | .claimBatch queue _ _ _ => r.promotable queue (c.clk 0)
  | _ => False

def Claims (worker : String) (timeout : ℤ) : Prop :=
  match c.op with
  | .claimBatch queue w _ t =>
    worker = w ∧ timeout = t ∧ r.queue = queue ∧ r.hasAttempts ∧ r.unexpired (c.clk 0) ∧
      (r.state ≠ .processing ∧ r.runAt.val ≤ c.clk 0 ∨ r.state = .processing ∧ r.lapsed (c.clk 0)) ∧
      InRange (c.clk 0 + timeout)
  | _ => False

def Extends (extend : ℤ) : Prop :=
  match c.op with
  | .heartbeat job worker x => extend = x ∧ r.processingFor job worker (c.clk 0)
  | .heartbeatFenced job worker x attempt => extend = x ∧ r.tokenFor job worker attempt
  | _ => False

def Requeues (delay : ℤ) : Prop :=
  match c.op with
  | .retry job worker d _ => delay = d ∧ r.processingFor job worker (c.clk 0) ∧ r.hasAttempts
  | .retryFenced job worker d _ attempt => delay = d ∧ r.tokenFor job worker attempt ∧ r.hasAttempts
  | _ => False

def Removes : Prop :=
  match c.op with
  | .ack job worker => r.heldBy job worker (c.clk 0)
  | .ackFenced job worker attempt => r.tokenFor job worker attempt
  | .ackBatch (some elems) worker => AckElem.selects elems worker (c.clk 0) r
  | .cancel job => r.id = job
  | .cancelInQueue queue job => r.queue = queue ∧ r.id = job
  | _ => False

def Buries (error : String) (diedAt : ℤ) : Prop :=
  match c.op with
  | .claimBatch queue _ _ _ => diedAt = c.clk 0 ∧
    (error = "expired" ∧ r.expirable queue (c.clk 0) ∨
      error = "max attempts exceeded" ∧ r.exhausted queue (c.clk 0))
  | .sweepExpired queue => diedAt = c.clk 0 ∧ error = "expired" ∧ r.expirable queue (c.clk 0)
  | .retry job worker _ err =>
    diedAt = c.clk 3 ∧ error = err ∧ r.processingFor job worker (c.clk 2) ∧ ¬ r.hasAttempts
  | .retryFenced job worker _ err attempt =>
    diedAt = c.clk 3 ∧ error = err ∧ r.tokenFor job worker attempt ∧ ¬ r.hasAttempts
  | .fail job worker err => diedAt = c.clk 1 ∧ error = err ∧ r.heldBy job worker (c.clk 0)
  | .failFenced job worker err attempt =>
    diedAt = c.clk 1 ∧ error = err ∧ r.tokenFor job worker attempt
  | _ => False

end Guards

/-- Everything one call can do to job `j`. -/
inductive JobStep (e : Event) (j : ℤ) : Prop
  | kept (live : e.post.live.find? j = e.pre.live.find? j)
      (dead : e.post.dead.find? j = e.pre.dead.find? j) (ret : returns e j = [])
  | enqueued (r : LiveRow) (pre : e.pre.live.find? j = none) (post : e.post.live.find? j = some r)
      (dead : e.post.dead.find? j = e.pre.dead.find? j) (ret : returns e j = [])
      (fresh : r.Fresh (e.input.clk 0)) (mem : j ∈ issued e)
  | promoted (r : LiveRow) (pre : e.pre.live.find? j = some r)
      (post : e.post.live.find? j = some r.promoted)
      (dead : e.post.dead.find? j = e.pre.dead.find? j) (ret : returns e j = [])
      (guard : Promotes e.input r) (out : ∃ jobs, e.output = .jobs jobs)
  | claimed (r : LiveRow) (worker : String) (timeout : ℤ) (job : ClaimedJob)
      (pre : e.pre.live.find? j = some r)
      (post : e.post.live.find? j = some (r.claimed worker timeout (e.input.clk 0)))
      (dead : e.post.dead.find? j = e.pre.dead.find? j) (ret : returns e j = [job])
      (row : ClaimedJob.ofRow (r.claimed worker timeout (e.input.clk 0)) = .ok job)
      (guard : Claims e.input r worker timeout)
  | extended (r : LiveRow) (extend : ℤ) (pre : e.pre.live.find? j = some r)
      (post : e.post.live.find? j = some (r.extended extend (e.input.clk 0)))
      (dead : e.post.dead.find? j = e.pre.dead.find? j) (ret : returns e j = [])
      (guard : Extends e.input r extend) (out : ∃ n, e.output = .count n)
  | requeued (r : LiveRow) (delay : ℤ) (pre : e.pre.live.find? j = some r)
      (post : e.post.live.find? j = some (r.requeued delay (e.input.clk 0)))
      (dead : e.post.dead.find? j = e.pre.dead.find? j) (ret : returns e j = [])
      (guard : Requeues e.input r delay) (out : e.output = .count 1)
  | removed (r : LiveRow) (pre : e.pre.live.find? j = some r) (post : e.post.live.find? j = none)
      (dead : e.post.dead.find? j = e.pre.dead.find? j) (ret : returns e j = [])
      (guard : Removes e.input r)
  | buried (r : LiveRow) (error : String) (diedAt : ℤ) (pre : e.pre.live.find? j = some r)
      (post : e.post.live.find? j = none) (free : e.pre.dead.find? j = none)
      (dead : e.post.dead.find? j = some (r.toDead error diedAt)) (ret : returns e j = [])
      (guard : Buries e.input r error diedAt)

section Tables

variable {e : Event} {j : ℤ}

theorem JobStep.of_eq (hlive : e.post.live = e.pre.live) (hdead : e.post.dead = e.pre.dead)
    (hret : returns e j = []) : JobStep e j :=
  .kept (by rw [hlive]) (by rw [hdead]) hret

theorem JobStep.of_delete {p : LiveRow → Bool} (hlive : e.post.live = e.pre.live.delete p)
    (hdead : e.post.dead = e.pre.dead) (hret : returns e j = [])
    (hguard : ∀ r, p r = true → Removes e.input r) : JobStep e j := by
  have hfind := Table.find?_delete e.pre.live p j
  rw [← hlive] at hfind
  cases hr : e.pre.live.find? j with
  | none => exact .kept (by rw [hfind, hr]; rfl) (by rw [hdead]) hret
  | some r =>
    by_cases hp : p r = true
    · exact .removed r hr (by simp [hfind, hr, Option.filter, hp]) (by rw [hdead]) hret (hguard r hp)
    · exact .kept (by simp [hfind, hr, Option.filter, hp]) (by rw [hdead]) hret

theorem JobStep.of_moved {p : LiveRow → Bool} {error : String} {diedAt : ℤ}
    (h : Moved p error diedAt e.pre e.post) (hret : returns e j = [])
    (hguard : ∀ r ∈ e.pre.live.rows, p r = true → Buries e.input r error diedAt) : JobStep e j := by
  by_cases hr : ∃ r, e.pre.live.find? j = some r ∧ p r = true
  · obtain ⟨r, hr, hp⟩ := hr
    obtain ⟨hpost, hfree, hdead⟩ := h.gone hr hp
    exact .buried r error diedAt hr hpost hfree hdead hret
      (hguard r (Table.find?_eq_some.mp hr).1 hp)
  · obtain ⟨hlive, hdead⟩ := h.kept (j := j) (fun r hfind ↦ by
      by_contra hp
      exact hr ⟨r, hfind, by simpa using hp⟩)
    exact .kept hlive hdead hret

theorem JobStep.of_enqueued {rows : List LiveRow} (h : Enqueued (e.input.clk 0) rows e.pre e.post)
    (hret : returns e j = []) (hissued : issued e = rows.map LiveRow.id) : JobStep e j := by
  obtain ⟨hdead, ⟨r, hr, rfl, hpre, hpost⟩ | ⟨-, hlive⟩⟩ := h.find? j
  · exact .enqueued r hpre hpost hdead hret (h.fresh r hr) (hissued ▸ List.mem_map_of_mem hr)
  · exact .kept hlive hdead hret

end Tables

section Run

variable (next : String → ℤ → Except String ℤ) (db : Db) (c : Call) (j : ℤ)

theorem returns_of_not_claim (h : ∀ queue worker n timeout, c.op ≠ .claimBatch queue worker n timeout) :
    returns (Transition.event (exec next) db c) j = [] := by
  have hne (jobs : List ClaimedJob) : (exec next db c).1 ≠ .jobs jobs := by
    intro heq
    unfold exec at heq
    split at heq
    case h_2 hop => exact h _ _ _ _ hop
    all_goals
      first
      | (split at heq <;> simp at heq)
      | (simp only [Ret.ofCount] at heq; split at heq <;> simp at heq)
  unfold returns returned Transition.event
  dsimp only
  split
  · exact absurd ‹_› (hne _)
  · rfl

variable {next db c j}

theorem issued_of_not_enqueue
    (h : ∀ queue payload runAt delay priority maxAttempts expires,
      c.op ≠ .enqueue queue payload runAt delay priority maxAttempts expires)
    (h' : ∀ tickAt, c.op ≠ .schedulerTick tickAt) :
    issued (Transition.event (exec next) db c) = [] := by
  unfold issued Transition.event
  dsimp only
  split
  · exact absurd ‹_› (h _ _ _ _ _ _ _)
  · exact absurd ‹_› (h' _)
  · rfl

theorem step_deleteCount {p : LiveRow → Bool}
    (hexec : exec next db c = (.ofCount (deleteCount p db).1, (deleteCount p db).2))
    (hret : returns (Transition.event (exec next) db c) j = [])
    (hguard : ∀ r, p r = true → Removes c r) : JobStep (Transition.event (exec next) db c) j := by
  refine JobStep.of_delete (p := p) ?_ ?_ hret hguard
  · simp only [Transition.event, hexec, deleteCount, deleteLive]
  · simp only [Transition.event, hexec, deleteCount, deleteLive]

theorem step_extended (p : LiveRow → Bool) (extend : ℤ)
    (hlive : (exec next db c).2.live = db.live.update p (LiveRow.extended extend (c.clk 0))
      (LiveRow.id_extended extend (c.clk 0)))
    (hdead : (exec next db c).2.dead = db.dead) (hout : ∃ n, (exec next db c).1 = .count n)
    (hret : returns (Transition.event (exec next) db c) j = [])
    (hguard : ∀ r, p r = true → Extends c r extend) :
    JobStep (Transition.event (exec next) db c) j := by
  have hfind := Table.find?_update db.live p (LiveRow.extended extend (c.clk 0))
    (LiveRow.id_extended extend (c.clk 0)) j
  rw [← hlive] at hfind
  cases hr : db.live.find? j with
  | none => exact .kept (by simp [Transition.event, hfind, hr]) (by rw [Transition.event, hdead]) hret
  | some r =>
    by_cases hp : p r = true
    · exact .extended r extend hr (by simp [Transition.event, hfind, hr, hp])
        (by rw [Transition.event, hdead]) hret (hguard r hp) hout
    · exact .kept (by simp [Transition.event, hfind, hr, hp]) (by rw [Transition.event, hdead]) hret

theorem step_sweepExpired {queue : String} (hop : c.op = .sweepExpired queue)
    (hret : returns (Transition.event (exec next) db c) j = []) :
    JobStep (Transition.event (exec next) db c) j := by
  cases hmove : moveToDead expireIds queue (c.clk 0) (-1) "expired" db with
  | error err =>
    have hpost : (exec next db c).2 = db := by simp [exec, hop, sweepExpired, hmove, atomically]
    exact .of_eq (by rw [Transition.event, hpost]) (by rw [Transition.event, hpost]) hret
  | ok x =>
    obtain ⟨n, db'⟩ := x
    have hpost : (exec next db c).2 = db' := by simp [exec, hop, sweepExpired, hmove, atomically]
    have hmoved := (moveToDead_ok hmove).1
    rw [← hpost] at hmoved
    refine .of_moved (e := Transition.event (exec next) db c) hmoved hret ?_
    intro r hr hp
    have hexp : r.expirable queue (c.clk 0) :=
      mem_selectIds (hr : r ∈ db.live.rows) (of_decide_eq_true hp)
    simpa [Buries, Transition.event, hop] using hexp

theorem enqueue_enqueued (next : String → ℤ → Except String ℤ) (db : Db) {queue payload : String}
    {runAt : Option ℤ} {delay : Option I64} {priority maxAttempts : ℤ} {expires : Option I64}
    (hop : c.op = .enqueue queue payload runAt delay priority maxAttempts expires) :
    ∃ rows, Enqueued (c.clk 0) rows db (exec next db c).2 ∧
      issued (Transition.event (exec next) db c) = rows.map LiveRow.id := by
  cases hmax : checkMaxAttempts "honker_enqueue" maxAttempts with
  | error err =>
    have hexec : exec next db c = (.error err, db) := by simp [exec, hop, enqueue, hmax, Ret.ofCount]
    exact ⟨[], hexec ▸ .refl _ db, by simp [issued, Transition.event, hexec, hop]⟩
  | ok u =>
    obtain ⟨r, hid, henq⟩ := enqueueAt_enqueued (c.clk 0) (c.clk 1) queue payload runAt delay priority
      expires (checkMaxAttempts_ok hmax) db
    refine ⟨[r], ?_, ?_⟩
    · simpa [exec, hop, enqueue, hmax] using henq
    · simp [Transition.event, exec, hop, enqueue, hmax, issued, Ret.ofCount, enqueueAt, hid]

/-- A tick that fails is rolled back; one that succeeds has fired every due task, in the order of
their names. -/
theorem tick_cases (next : String → ℤ → Except String ℤ) (db : Db) {tickAt : ℤ}
    (hop : c.op = .schedulerTick tickAt) :
    (∃ err, exec next db c = (.error err, db)) ∨
      ∃ fires db', exec next db c = (.fires fires, db') ∧
        FiredAll next (c.clk 0) (fun id ↦ c.clk (id - db.seq).toNat) tickAt
          (orderBy Task.name (tickDue tickAt c.emitTasks db)) db fires db' := by
  cases htick : schedulerTickInner next (c.clk 0) (fun id ↦ c.clk (id - db.seq).toNat) tickAt c.faults
    c.emitTasks db with
  | error err => exact Or.inl ⟨err, by simp [exec, hop, schedulerTick, htick, atomically]⟩
  | ok x =>
    refine Or.inr ⟨x.1, x.2, ?_, schedulerTickInner_fired htick⟩
    simp [exec, hop, schedulerTick, htick, atomically]

theorem schedulerTick_enqueued (next : String → ℤ → Except String ℤ) (db : Db) {tickAt : ℤ}
    (hop : c.op = .schedulerTick tickAt) :
    ∃ rows, Enqueued (c.clk 0) rows db (exec next db c).2 ∧
      issued (Transition.event (exec next) db c) = rows.map LiveRow.id := by
  rcases tick_cases next db hop with ⟨err, hexec⟩ | ⟨fires, db', hexec, hfired⟩
  · exact ⟨[], hexec ▸ .refl _ db, by simp [issued, Transition.event, hexec, hop]⟩
  · obtain ⟨rows, henq, hids⟩ := hfired.enqueued
    exact ⟨rows, by rwa [hexec], by simp [Transition.event, hexec, issued, hop, hids]⟩

theorem step_retryWith {job : ℤ} {worker error : String} {delay : I64} {attempt : Option ℤ}
    (hexec : exec next db c = (.ofCount (retryWith job worker delay error attempt c.clk db).1,
      (retryWith job worker delay error attempt c.clk db).2))
    (hrequeue : ∀ r, retryGuard job worker attempt (c.clk 0) r = true → r.hasAttempts →
      Requeues c r delay)
    (hbury : ∀ r, retryGuard job worker attempt (c.clk 2) r = true → ¬ r.hasAttempts →
      Buries c r error (c.clk 3))
    (hret : returns (Transition.event (exec next) db c) j = []) :
    JobStep (Transition.event (exec next) db c) j := by
  rcases retryWith_cases job worker delay error attempt c.clk db with
    ⟨-, -, -, -, heq⟩ | ⟨-, db', -, -, -, heq, hmoved⟩ | ⟨hsame, -⟩
  · set p : LiveRow → Bool := fun r ↦ retryGuard job worker attempt (c.clk 0) r && r.hasAttempts
    have hfind := Table.find?_update db.live p (LiveRow.requeued delay (c.clk 0))
      (LiveRow.id_requeued delay (c.clk 0)) j
    have hpost : (exec next db c).2 = requeueLive job worker delay attempt (c.clk 0) db := by
      rw [hexec, heq]
    have hout : (exec next db c).1 = .count 1 := by
      rw [hexec, heq]
      rfl
    have hdead : (exec next db c).2.dead = db.dead := by rw [hpost]; rfl
    have hlive : (exec next db c).2.live.find? j = (db.live.find? j).map
        (fun r ↦ if p r then r.requeued delay (c.clk 0) else r) := by
      rw [hpost]
      exact hfind
    cases hr : db.live.find? j with
    | none => exact .kept (by simp [Transition.event, hlive, hr]) (by rw [Transition.event, hdead]) hret
    | some r =>
      by_cases hpr : p r = true
      · obtain ⟨hg, ha⟩ := Bool.and_eq_true_iff.mp hpr
        exact .requeued r delay hr (by simp [Transition.event, hlive, hr, hpr])
          (by rw [Transition.event, hdead]) hret (hrequeue r hg ha) hout
      · exact .kept (by simp [Transition.event, hlive, hr, hpr]) (by rw [Transition.event, hdead]) hret
  · have hpost : (exec next db c).2 = db' := by rw [hexec, heq]
    rw [← hpost] at hmoved
    refine .of_moved (e := Transition.event (exec next) db c) hmoved hret (fun r _ hpr ↦ ?_)
    obtain ⟨hg, ha⟩ := Bool.and_eq_true_iff.mp hpr
    exact hbury r hg (by simpa using ha)
  · have hpost : (exec next db c).2 = db := by rw [hexec, hsame]
    exact .of_eq (by rw [Transition.event, hpost]) (by rw [Transition.event, hpost]) hret

theorem step_fail {job : ℤ} {worker error : String} {attempt : Option ℤ}
    (hexec : exec next db c = (.ofCount (atomically db (failInner job worker error attempt c.clk db)).1,
      (atomically db (failInner job worker error attempt c.clk db)).2))
    (hbury : ∀ r, failGuard job worker attempt (c.clk 0) r = true → Buries c r error (c.clk 1))
    (hret : returns (Transition.event (exec next) db c) j = []) :
    JobStep (Transition.event (exec next) db c) j := by
  cases hfail : failInner job worker error attempt c.clk db with
  | error err =>
    have hpost : (exec next db c).2 = db := by rw [hexec, hfail]; rfl
    exact .of_eq (by rw [Transition.event, hpost]) (by rw [Transition.event, hpost]) hret
  | ok x =>
    obtain ⟨n, db'⟩ := x
    have hpost : (exec next db c).2 = db' := by rw [hexec, hfail]; rfl
    rcases buryWhere_ok (fun r ↦ failGuard_id) hfail with ⟨-, -, rfl⟩ | ⟨-, hmoved⟩
    · exact .of_eq (by rw [Transition.event, hpost]) (by rw [Transition.event, hpost]) hret
    · rw [← hpost] at hmoved
      exact .of_moved (e := Transition.event (exec next) db c) hmoved hret (fun r _ hg ↦ hbury r hg)

theorem claimBatchInner_ok {emit : Emission LiveRow} {queue worker : String} {n timeout now : ℤ}
    {jobs : List ClaimedJob} {db' : Db}
    (h : claimBatchInner emit queue worker n timeout now db = .ok (jobs, db')) :
    ∃ db₁, housekeep queue now db = .ok db₁ ∧
      claimSql emit queue worker n timeout now db₁ = .ok (jobs, db') :=
  bind_ok.mp h

theorem eligible_of_claimed {r s : LiveRow} {queue : String} {now : ℤ}
    (h : s.ready queue now ∨ s.reclaimable queue now)
    (hs : s = r ∨ r.promotable queue now ∧ s = r.promoted) :
    r.queue = queue ∧ r.hasAttempts ∧ r.unexpired now ∧
      (r.state ≠ .processing ∧ r.runAt.val ≤ now ∨ r.state = .processing ∧ r.lapsed now) := by
  rcases hs with rfl | ⟨hprom, rfl⟩
  · rcases h with h | h
    · simp only [LiveRow.ready, Bool.and_eq_true, decide_eq_true_eq] at h
      obtain ⟨⟨⟨⟨hq, hst⟩, hrun⟩, ha⟩, hu⟩ := h
      exact ⟨hq, ha, hu, Or.inl ⟨by simp [hst], hrun⟩⟩
    · simp only [LiveRow.reclaimable, Bool.and_eq_true, decide_eq_true_eq] at h
      obtain ⟨⟨⟨⟨hq, hst⟩, hl⟩, ha⟩, hu⟩ := h
      exact ⟨hq, ha, hu, Or.inr ⟨hst, hl⟩⟩
  · simp only [LiveRow.promotable, Bool.and_eq_true, decide_eq_true_eq] at hprom
    obtain ⟨⟨hq, hst⟩, hrun⟩ := hprom
    rcases h with h | h
    · simp only [LiveRow.ready, Bool.and_eq_true] at h
      exact ⟨hq, h.1.2, h.2, Or.inl ⟨by simp [hst], hrun⟩⟩
    · simp [LiveRow.reclaimable, LiveRow.promoted] at h

theorem step_claimBatch {queue worker : String} {n : ℤ} {timeout : I64}
    (hop : c.op = .claimBatch queue worker n timeout) :
    JobStep (Transition.event (exec next) db c) j := by
  cases hclaim : claimBatchInner c.emit queue worker n timeout (c.clk 0) db with
  | error err =>
    have hexec : exec next db c = (.error err, db) := by
      simp [exec, hop, claimBatch, hclaim, atomically]
    refine .of_eq (by rw [Transition.event, hexec]) (by rw [Transition.event, hexec]) ?_
    simp [returns, returned, Transition.event, hexec]
  | ok x =>
    obtain ⟨jobs, db'⟩ := x
    have hexec : exec next db c = (.jobs jobs, db') := by
      simp [exec, hop, claimBatch, hclaim, atomically]
    obtain ⟨db₁, hkeep, hsql⟩ := claimBatchInner_ok hclaim
    have hdead : db'.dead = db₁.dead := by rw [(claimSql_ok hsql).1]
    have hreturns : returns (Transition.event (exec next) db c) j =
        jobs.filter (fun job ↦ job.id = j) := by
      simp [returns, returned, Transition.event, hexec]
    rcases housekeep_job hkeep j with
      ⟨hdead₁, hlive₁⟩ | ⟨r, error, hr, hgone, hfree, hburied, hwhy⟩
    · rcases claimSql_job hsql j with
        ⟨s, job, hs, hsel, hpost, hdec, hret, hrange⟩ | ⟨-, hpost, hret⟩
      · have hguard := mem_claimIds (Table.find?_eq_some.mp hs).1 hsel
        obtain ⟨r, hr, hsr⟩ : ∃ r, db.live.find? j = some r ∧
            (s = r ∨ r.promotable queue (c.clk 0) ∧ s = r.promoted) := by
          rcases hlive₁ with hlive₁ | ⟨r, hr, hprom, hpost₁⟩
          · exact ⟨s, hlive₁ ▸ hs, Or.inl rfl⟩
          · exact ⟨r, hr, Or.inr ⟨hprom, Option.some.inj (hs.symm.trans hpost₁)⟩⟩
        obtain ⟨hq, ha, hu, hdue⟩ := eligible_of_claimed hguard hsr
        have hclaimed : s.claimed worker timeout (c.clk 0) = r.claimed worker timeout (c.clk 0) := by
          rcases hsr with rfl | ⟨-, rfl⟩ <;> rfl
        rw [hclaimed] at hpost hdec
        refine .claimed r worker timeout job hr ?_ ?_ (hreturns.trans hret) hdec ?_
        · rw [Transition.event, hexec, hpost]
        · rw [Transition.event, hexec, hdead, hdead₁]
        · simpa only [Claims, Transition.event, hop, true_and] using ⟨hq, ha, hu, hdue, hrange⟩
      · rcases hlive₁ with hlive₁ | ⟨r, hr, hprom, hpost₁⟩
        · refine .kept ?_ ?_ (hreturns.trans hret)
          · rw [Transition.event, hexec, hpost, hlive₁]
          · rw [Transition.event, hexec, hdead, hdead₁]
        · refine .promoted r hr ?_ ?_ (hreturns.trans hret) ?_ ?_
          · rw [Transition.event, hexec, hpost, hpost₁]
          · rw [Transition.event, hexec, hdead, hdead₁]
          · simpa [Promotes, Transition.event, hop] using hprom
          · exact ⟨jobs, by rw [Transition.event, hexec]⟩
    · rcases claimSql_job hsql j with ⟨s, job, hs, -⟩ | ⟨-, hpost, hret⟩
      · simp [hgone] at hs
      · refine .buried r error (c.clk 0) hr ?_ hfree ?_ (hreturns.trans hret) ?_
        · rw [Transition.event, hexec, hpost, hgone]
        · rw [Transition.event, hexec, hdead, hburied]
        · simpa [Buries, Transition.event, hop] using hwhy

theorem updateTask_live (name : String) (f : Task → Task) (hf : ∀ t, (f t).name = t.name) (db : Db) :
    (updateTask name f hf db).live = db.live ∧ (updateTask name f hf db).dead = db.dead ∧
      (updateTask name f hf db).seq = db.seq := ⟨rfl, rfl, rfl⟩

theorem applyUpdates_live (name : String) (cron : Option (String × ℤ)) (payload : Option String)
    (priority : Option ℤ) (expiresS : Option (Option I64)) (maxAttempts : Option (Option ℤ)) (db : Db) :
    let db' := applyUpdates name cron payload priority expiresS maxAttempts db
    db'.live = db.live ∧ db'.dead = db.dead ∧ db'.seq = db.seq := by
  cases cron <;> cases payload <;> cases priority <;> cases expiresS <;> cases maxAttempts <;>
    exact ⟨rfl, rfl, rfl⟩

/-- The scheduler calls other than a tick. -/
def Op.isRegistry : Op → Bool
  | .schedulerRegister .. | .schedulerUpdate .. | .schedulerUnregister _ | .schedulerPause _
  | .schedulerResume _ => true
  | _ => false

theorem registry_live (h : c.op.isRegistry = true) :
    (exec next db c).2.live = db.live ∧ (exec next db c).2.dead = db.dead ∧
      (exec next db c).2.seq = db.seq := by
  cases hop : c.op <;> simp only [hop, Op.isRegistry, Bool.false_eq_true] at h
  case schedulerRegister name queue cronExpr payload priority expiresS maxAttempts =>
    simp only [exec, hop, schedulerRegister]
    split
    · simp
    · split
      · simp
      · simp only [upsertTask]
        split
        · exact updateTask_live _ _ _ _
        · simp
  case schedulerUpdate name cronExpr payload priority expiresS maxAttempts =>
    simp only [exec, hop, schedulerUpdate]
    split
    · simp
    · split_ifs
      · simp
      · simp
      · split
        · simp
        · exact applyUpdates_live _ _ _ _ _ _ _
  case schedulerUnregister name => simp [exec, hop, schedulerUnregister]
  case schedulerPause name => simp [exec, hop, schedulerPause, setEnabled]
  case schedulerResume name => simp [exec, hop, schedulerResume, setEnabled]

end Run

/-- The inversion lemma of the whole program: a call does to a job one of what `JobStep` lists. -/
theorem job_step (next : String → ℤ → Except String ℤ) (db : Db) (c : Call) (j : ℤ) :
    JobStep (Transition.event (exec next) db c) j := by
  by_cases hreg : c.op.isRegistry = true
  · have hlive : (exec next db c).2.live = db.live ∧ _ := registry_live hreg
    refine .of_eq hlive.1 hlive.2.1 (returns_of_not_claim next db c j fun _ _ _ _ hop ↦ ?_)
    simp [hop, Op.isRegistry] at hreg
  have hret (h : ∀ queue worker n timeout, c.op ≠ .claimBatch queue worker n timeout) :=
    returns_of_not_claim next db c j h
  cases hop : c.op with
  | enqueue queue payload runAt delay priority maxAttempts expires =>
    obtain ⟨rows, henq, hids⟩ := enqueue_enqueued next db hop
    exact .of_enqueued henq (hret (by simp [hop])) hids
  | claimBatch queue worker n timeout => exact step_claimBatch hop
  | ack job worker =>
    refine step_deleteCount (by simp only [exec, hop, ack]; rfl) (hret (by simp [hop])) ?_
    intro r hr
    simpa [Removes, hop] using hr
  | ackFenced job worker attempt =>
    refine step_deleteCount (by simp only [exec, hop, ackFenced]; rfl) (hret (by simp [hop])) ?_
    intro r hr
    simpa [Removes, hop] using hr
  | ackBatch elems worker =>
    cases elems with
    | none =>
      have hpost : (exec next db c).2 = db := by simp [exec, hop, ackBatch]
      exact .of_eq (by rw [Transition.event, hpost]) (by rw [Transition.event, hpost])
        (hret (by simp [hop]))
    | some elems =>
      refine step_deleteCount (by simp only [exec, hop, ackBatch]; rfl) (hret (by simp [hop])) ?_
      intro r hr
      simpa [Removes, hop] using hr
  | retry job worker delay error =>
    refine step_retryWith (by simp only [exec, hop, retry]; rfl) ?_ ?_ (hret (by simp [hop]))
    · intro r hg ha
      simpa [Requeues, hop, ha, retryGuard] using hg
    · intro r hg ha
      simpa [Buries, hop, ha, retryGuard] using hg
  | retryFenced job worker delay error attempt =>
    refine step_retryWith (by simp only [exec, hop, retryFenced]; rfl) ?_ ?_ (hret (by simp [hop]))
    · intro r hg ha
      simpa [Requeues, hop, ha, retryGuard] using hg
    · intro r hg ha
      simpa [Buries, hop, ha, retryGuard] using hg
  | fail job worker error =>
    refine step_fail (by simp only [exec, hop, fail]; rfl) ?_ (hret (by simp [hop]))
    intro r hg
    simpa [Buries, hop, failGuard] using hg
  | failFenced job worker error attempt =>
    refine step_fail (by simp only [exec, hop, failFenced]; rfl) ?_ (hret (by simp [hop]))
    intro r hg
    simpa [Buries, hop, failGuard] using hg
  | heartbeat job worker extend =>
    refine step_extended (LiveRow.processingFor job worker (c.clk 0)) extend ?_ ?_ ?_
      (hret (by simp [hop])) ?_
    · simp only [exec, hop, heartbeat, updateLive]
    · simp only [exec, hop, heartbeat, updateLive]
    · exact ⟨_, by simp only [exec, hop, heartbeat, Ret.ofCount]; rfl⟩
    · intro r hr
      simpa [Extends, hop] using hr
  | heartbeatFenced job worker extend attempt =>
    refine step_extended (LiveRow.tokenFor job worker attempt) extend ?_ ?_ ?_
      (hret (by simp [hop])) ?_
    · simp only [exec, hop, heartbeatFenced, updateLive]
    · simp only [exec, hop, heartbeatFenced, updateLive]
    · exact ⟨_, by simp only [exec, hop, heartbeatFenced, Ret.ofCount]; rfl⟩
    · intro r hr
      simpa [Extends, hop] using hr
  | cancel job =>
    refine step_deleteCount (by simp only [exec, hop, cancel]; rfl) (hret (by simp [hop])) ?_
    intro r hr
    simp only [Removes, hop]
    exact of_decide_eq_true (Bool.and_eq_true_iff.mp hr).1
  | cancelInQueue queue job =>
    refine step_deleteCount (by simp only [exec, hop, cancelInQueue]; rfl) (hret (by simp [hop])) ?_
    intro r hr
    simp only [Removes, hop]
    simpa using (Bool.and_eq_true_iff.mp hr).1
  | sweepExpired queue => exact step_sweepExpired hop (hret (by simp [hop]))
  | schedulerTick tickAt =>
    obtain ⟨rows, henq, hids⟩ := schedulerTick_enqueued next db hop
    exact .of_enqueued henq (hret (by simp [hop])) hids
  | schedulerRegister | schedulerUpdate | schedulerUnregister | schedulerPause | schedulerResume =>
    simp [hop, Op.isRegistry] at hreg

/-- A call leaves the dead row of a job alone, unless it buries the job. -/
theorem dead_step (next : String → ℤ → Except String ℤ) (db : Db) (c : Call) (j : ℤ) :
    (exec next db c).2.dead.find? j = db.dead.find? j ∨
      ∃ r error diedAt, db.live.find? j = some r ∧ (exec next db c).2.live.find? j = none ∧
        db.dead.find? j = none ∧
        (exec next db c).2.dead.find? j = some (r.toDead error diedAt) := by
  cases job_step next db c j with
  | buried r error diedAt pre post free dead => exact Or.inr ⟨r, error, diedAt, pre, post, free, dead⟩
  | kept live dead => exact Or.inl dead
  | enqueued r pre post dead => exact Or.inl dead
  | promoted r pre post dead => exact Or.inl dead
  | claimed r worker timeout job pre post dead => exact Or.inl dead
  | extended r extend pre post dead => exact Or.inl dead
  | requeued r delay pre post dead => exact Or.inl dead
  | removed r pre post dead => exact Or.inl dead

/-- A call returns a job once, when it claims it, or not at all. -/
theorem return_step (next : String → ℤ → Except String ℤ) (db : Db) (c : Call) (j : ℤ) :
    returns (Transition.event (exec next) db c) j = [] ∨
      ∃ r worker timeout job, db.live.find? j = some r ∧
        (exec next db c).2.live.find? j = some (r.claimed worker timeout (c.clk 0)) ∧
        returns (Transition.event (exec next) db c) j = [job] ∧
        ClaimedJob.ofRow (r.claimed worker timeout (c.clk 0)) = .ok job ∧
        Claims c r worker timeout := by
  cases job_step next db c j with
  | claimed r worker timeout job pre post dead ret row guard =>
    exact Or.inr ⟨r, worker, timeout, job, pre, post, ret, row, guard⟩
  | kept live dead ret => exact Or.inl ret
  | enqueued r pre post dead ret => exact Or.inl ret
  | promoted r pre post dead ret => exact Or.inl ret
  | extended r extend pre post dead ret => exact Or.inl ret
  | requeued r delay pre post dead ret => exact Or.inl ret
  | removed r pre post dead ret => exact Or.inl ret
  | buried r error diedAt pre post free dead ret => exact Or.inl ret

/-- What a call can do to a row that stays in `_honker_live`. -/
inductive RowStep (e : Event) (r : LiveRow) : LiveRow → Prop
  | kept (ret : returns e r.id = []) : RowStep e r r
  | promoted (ret : returns e r.id = []) (guard : Promotes e.input r)
      (out : ∃ jobs, e.output = .jobs jobs) : RowStep e r r.promoted
  | claimed (worker : String) (timeout : ℤ) (job : ClaimedJob) (ret : returns e r.id = [job])
      (row : ClaimedJob.ofRow (r.claimed worker timeout (e.input.clk 0)) = .ok job)
      (guard : Claims e.input r worker timeout) :
      RowStep e r (r.claimed worker timeout (e.input.clk 0))
  | extended (extend : ℤ) (ret : returns e r.id = []) (guard : Extends e.input r extend)
      (out : ∃ n, e.output = .count n) : RowStep e r (r.extended extend (e.input.clk 0))
  | requeued (delay : ℤ) (ret : returns e r.id = []) (guard : Requeues e.input r delay)
      (out : e.output = .count 1) : RowStep e r (r.requeued delay (e.input.clk 0))

theorem row_step (next : String → ℤ → Except String ℤ) (db : Db) (c : Call) {j : ℤ} {r' : LiveRow}
    (h : (exec next db c).2.live.find? j = some r') :
    (db.live.find? j = none ∧ r'.Fresh (c.clk 0) ∧ j ∈ issued (Transition.event (exec next) db c)) ∨
      ∃ r, db.live.find? j = some r ∧ RowStep (Transition.event (exec next) db c) r r' := by
  have hid {r : LiveRow} (hr : db.live.find? j = some r) : r.id = j := (Table.find?_eq_some.mp hr).2
  cases job_step next db c j with
  | kept live dead ret =>
    have hpre : db.live.find? j = some r' := live.symm.trans h
    exact Or.inr ⟨r', hpre, .kept (by rwa [hid hpre])⟩
  | enqueued r pre post dead ret fresh mem =>
    cases h.symm.trans post
    exact Or.inl ⟨pre, fresh, mem⟩
  | promoted r pre post dead ret guard out =>
    cases h.symm.trans post
    exact Or.inr ⟨r, pre, .promoted (by rwa [hid pre]) guard out⟩
  | claimed r worker timeout job pre post dead ret row guard =>
    cases h.symm.trans post
    exact Or.inr ⟨r, pre, .claimed worker timeout job (by rwa [hid pre]) row guard⟩
  | extended r extend pre post dead ret guard out =>
    cases h.symm.trans post
    exact Or.inr ⟨r, pre, .extended extend (by rwa [hid pre]) guard out⟩
  | requeued r delay pre post dead ret guard out =>
    cases h.symm.trans post
    exact Or.inr ⟨r, pre, .requeued delay (by rwa [hid pre]) guard out⟩
  | removed r pre post => cases h.symm.trans post
  | buried r error diedAt pre post => cases h.symm.trans post

/-- A property `Q` of single rows holds after a call when new rows have it and every step leads from
`P` to it. -/
theorem rows_step {P Q : LiveRow → Prop} (next : String → ℤ → Except String ℤ) (db : Db) (c : Call)
    (hfresh : ∀ r, r.Fresh (c.clk 0) → r.id ∈ issued (Transition.event (exec next) db c) → Q r)
    (hstep : ∀ r r', P r → RowStep (Transition.event (exec next) db c) r r' → Q r')
    (hdb : ∀ r ∈ db.live.rows, P r) : ∀ r ∈ (exec next db c).2.live.rows, Q r := by
  intro r hr
  rcases row_step next db c (Table.find?_of_mem hr) with ⟨-, hnew, hmem⟩ | ⟨s, hs, hrow⟩
  · exact hfresh r hnew hmem
  · exact hstep s r (hdb s (Table.find?_eq_some.mp hs).1) hrow

section Guards

variable {c : Call} {r : LiveRow}

theorem Promotes.scheduled (h : Promotes c r) : r.state = .scheduled ∧ r.runAt.val ≤ c.clk 0 := by
  unfold Promotes at h
  split at h
  · simp only [LiveRow.promotable, Bool.and_eq_true, decide_eq_true_eq] at h
    exact ⟨h.1.2, h.2⟩
  · exact h.elim

theorem Claims.eligible {worker : String} {timeout : ℤ} (h : Claims c r worker timeout) :
    r.hasAttempts ∧ r.unexpired (c.clk 0) ∧
      (r.state ≠ .processing ∧ r.runAt.val ≤ c.clk 0 ∨ r.state = .processing ∧ r.lapsed (c.clk 0)) ∧
      InRange (c.clk 0 + timeout) := by
  unfold Claims at h
  split at h
  · exact h.2.2.2
  · exact h.elim

theorem Extends.processing {extend : ℤ} (h : Extends c r extend) : r.state = .processing := by
  unfold Extends at h
  split at h
  · simp only [LiveRow.processingFor, Bool.and_eq_true, decide_eq_true_eq] at h
    exact h.2.1.2
  · simp only [LiveRow.tokenFor, Bool.and_eq_true, decide_eq_true_eq] at h
    exact h.2.2
  · exact h.elim

theorem Requeues.processing {delay : ℤ} (h : Requeues c r delay) :
    r.state = .processing ∧ r.hasAttempts ∧ InRange delay := by
  unfold Requeues at h
  split at h
  · simp only [LiveRow.processingFor, Bool.and_eq_true, decide_eq_true_eq] at h
    exact ⟨h.2.1.1.2, h.2.2, h.1 ▸ I64.inRange _⟩
  · simp only [LiveRow.tokenFor, Bool.and_eq_true, decide_eq_true_eq] at h
    exact ⟨h.2.1.2, h.2.2, h.1 ▸ I64.inRange _⟩
  · exact h.elim

end Guards

section Seq

variable {next : String → ℤ → Except String ℤ} {db : Db} {c : Call}

/-- The statements that move or remove jobs leave the tasks and the counter alone. -/
def Db.Frame (db db' : Db) : Prop := db'.tasks = db.tasks ∧ db'.seq = db.seq

theorem retryWith_frame (job : ℤ) (worker : String) (delay : I64) (error : String)
    (attempt : Option ℤ) (clk : ℕ → Clock) (db : Db) :
    db.Frame (retryWith job worker delay error attempt clk db).2 := by
  rcases retryWith_cases job worker delay error attempt clk db with
    ⟨-, -, -, -, heq⟩ | ⟨-, db', -, -, -, heq, hmoved⟩ | ⟨hsame, -⟩
  · rw [heq]
    exact ⟨rfl, rfl⟩
  · rw [heq]
    exact ⟨hmoved.tasks, hmoved.seq⟩
  · rw [hsame]
    exact ⟨rfl, rfl⟩

theorem failInner_frame (job : ℤ) (worker error : String) (attempt : Option ℤ) (clk : ℕ → Clock)
    (db : Db) : db.Frame (atomically db (failInner job worker error attempt clk db)).2 := by
  cases hfail : failInner job worker error attempt clk db with
  | error err => exact ⟨rfl, rfl⟩
  | ok x =>
    rcases buryWhere_ok (fun r ↦ failGuard_id) hfail with ⟨-, -, hsame⟩ | ⟨-, hmoved⟩
    · exact ⟨congrArg Db.tasks hsame, congrArg Db.seq hsame⟩
    · exact ⟨hmoved.tasks, hmoved.seq⟩

theorem exec_frame (hreg : c.op.isRegistry = false)
    (h : ∀ queue payload runAt delay priority maxAttempts expires,
      c.op ≠ .enqueue queue payload runAt delay priority maxAttempts expires)
    (h' : ∀ tickAt, c.op ≠ .schedulerTick tickAt) : db.Frame (exec next db c).2 := by
  cases hop : c.op with
  | enqueue => exact absurd hop (h _ _ _ _ _ _ _)
  | schedulerTick => exact absurd hop (h' _)
  | claimBatch queue worker n timeout =>
    simp only [exec, hop, claimBatch]
    cases hclaim : claimBatchInner c.emit queue worker n timeout (c.clk 0) db with
    | error err => exact ⟨rfl, rfl⟩
    | ok x =>
      obtain ⟨db₁, hkeep, hsql⟩ := claimBatchInner_ok hclaim
      change db.Frame x.2
      rw [(claimSql_ok hsql).1]
      exact ⟨(housekeep_frame hkeep).1, (housekeep_frame hkeep).2⟩
  | ack | ackFenced | cancel | cancelInQueue | heartbeat | heartbeatFenced =>
    simp only [exec, hop]
    exact ⟨rfl, rfl⟩
  | ackBatch elems worker => cases elems <;> simp only [exec, hop] <;> exact ⟨rfl, rfl⟩
  | retry => simpa only [exec, hop, retry] using retryWith_frame _ _ _ _ _ _ _
  | retryFenced => simpa only [exec, hop, retryFenced] using retryWith_frame _ _ _ _ _ _ _
  | fail => simpa only [exec, hop, fail] using failInner_frame _ _ _ _ _ _
  | failFenced => simpa only [exec, hop, failFenced] using failInner_frame _ _ _ _ _ _
  | sweepExpired queue =>
    simp only [exec, hop, sweepExpired]
    cases hmove : moveToDead expireIds queue (c.clk 0) (-1) "expired" db with
    | error err => exact ⟨rfl, rfl⟩
    | ok x => exact ⟨(moveToDead_ok hmove).1.tasks, (moveToDead_ok hmove).1.seq⟩
  | schedulerRegister | schedulerUpdate | schedulerUnregister | schedulerPause | schedulerResume =>
    simp [hop, Op.isRegistry] at hreg

theorem exec_seq
    (h : ∀ queue payload runAt delay priority maxAttempts expires,
      c.op ≠ .enqueue queue payload runAt delay priority maxAttempts expires)
    (h' : ∀ tickAt, c.op ≠ .schedulerTick tickAt) : (exec next db c).2.seq = db.seq := by
  by_cases hreg : c.op.isRegistry = true
  · exact (registry_live hreg).2.2
  · exact (exec_frame (by simpa using hreg) h h').2

theorem exec_tasks (hreg : c.op.isRegistry = false) (h' : ∀ tickAt, c.op ≠ .schedulerTick tickAt) :
    (exec next db c).2.tasks = db.tasks := by
  by_cases h : ∃ queue payload runAt delay priority maxAttempts expires,
      c.op = .enqueue queue payload runAt delay priority maxAttempts expires
  · obtain ⟨queue, payload, runAt, delay, priority, maxAttempts, expires, hop⟩ := h
    simp only [exec, hop, enqueue]
    cases checkMaxAttempts "honker_enqueue" maxAttempts <;> rfl
  · push Not at h
    exact (exec_frame hreg h h').1

/-- What a call issues: new rows, or nothing with the counter where it was. -/
theorem exec_issued (next : String → ℤ → Except String ℤ) (db : Db) (c : Call) :
    (∃ rows, Enqueued (c.clk 0) rows db (exec next db c).2 ∧
      issued (Transition.event (exec next) db c) = rows.map LiveRow.id) ∨
    issued (Transition.event (exec next) db c) = [] ∧ (exec next db c).2.seq = db.seq := by
  by_cases h : ∃ queue payload runAt delay priority maxAttempts expires,
      c.op = .enqueue queue payload runAt delay priority maxAttempts expires
  · obtain ⟨_, _, _, _, _, _, _, hop⟩ := h
    exact Or.inl (enqueue_enqueued next db hop)
  by_cases h' : ∃ tickAt, c.op = .schedulerTick tickAt
  · obtain ⟨_, hop⟩ := h'
    exact Or.inl (schedulerTick_enqueued next db hop)
  push Not at h h'
  exact Or.inr ⟨issued_of_not_enqueue h h', exec_seq h h'⟩

end Seq

end Honker
