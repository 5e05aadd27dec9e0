import Honker.Selection
import Honker.Catchup
import Honker.Locks

namespace Honker

open Relational Numeric Transition Fallible

/-- A row of `_honker_results`. -/
structure ResultRow where
  jobId : ℤ
  value : String
  expiresAt : Option Number
deriving DecidableEq

abbrev ResultTable := Table ResultRow.jobId

/-- `INSERT … ON CONFLICT(job_id) DO UPDATE`. -/
def upsertResult (row : ResultRow) (results : ResultTable) : ResultTable :=
  if h : row.jobId ∈ results.rows.map ResultRow.jobId then
    results.update (fun r ↦ r.jobId = row.jobId)
      (fun r ↦ { r with value := row.value, expiresAt := row.expiresAt }) (fun _ ↦ rfl)
  else results.insert row h

def resultSave (job : ℤ) (value : String) (ttlS : I64) (now : Clock) (results : ResultTable) :
    ℤ × ResultTable :=
  if 0 < ttlS.val then (1, upsertResult ⟨job, value, some (add now ttlS)⟩ results)
  else (1, upsertResult ⟨job, value, none⟩ results)

/-- `lock_acquire`, whose statements each read the clock on their own. -/
def lockAcquire (name owner : String) (ttlS : I64) (clk : ℕ → Clock) (locks : LockTable) :
    ℤ × LockTable :=
  let locks := deleteExpiredLock name (clk 0) locks
  let locks := insertOrIgnoreLock name owner ttlS (clk 1) locks
  (selectLockOwner name owner locks, locks)

/-- The object `get_job` returns. -/
structure JobInfo where
  id : ℤ
  queue : String
  payload : String
  state : JobState
  priority : ℤ
  runAt : ℤ
  workerId : Option String
  claimExpiresAt : Option ℤ
  attempts : ℤ
  maxAttempts : ℤ
  createdAt : ℤ
  expiresAt : Option ℤ
  claimedAt : Option ℤ
deriving DecidableEq

/-- `get_job`, `none` standing for the empty string. -/
def getJob (job : ℤ) (db : Db) : Except SqlError (Option JobInfo) :=
  match db.live.find? job with
  | none => .ok none
  | some r => do
    let runAt ← decodeInt 5 "run_at" r.runAt
    let claimExpiresAt ← r.claimExpiresAt.mapM (decodeInt 7 "claim_expires_at")
    return some {
      id := r.id
      queue := r.queue
      payload := r.payload
      state := r.state
      priority := r.priority
      runAt := runAt
      workerId := r.workerId
      claimExpiresAt := claimExpiresAt
      attempts := r.attempts
      maxAttempts := r.maxAttempts
      createdAt := r.createdAt
      expiresAt := r.expiresAt
      claimedAt := r.claimedAt }

/-- The tables whose rows hold timestamps. -/
structure Store where
  db : Db
  locks : LockTable
  results : ResultTable

def Store.fresh : Store := ⟨.fresh, .empty, .empty⟩

inductive StoreCall
  | queue (c : Call)
  | lockAcquire (name owner : String) (ttlS : I64) (clk : ℕ → Clock)
  | lockRenew (name owner : String) (ttlS : I64) (now : Clock)
  | lockRelease (name owner : String)
  | resultSave (job : ℤ) (value : String) (ttlS : I64) (now : Clock)

def Store.exec (next : String → ℤ → Except String ℤ) (s : Store) : StoreCall → Ret × Store
  | .queue c =>
    let (ret, db) := Honker.exec next s.db c
    (ret, { s with db := db })
  | .lockAcquire name owner ttlS clk =>
    let (n, locks) := Honker.lockAcquire name owner ttlS clk s.locks
    (.count n, { s with locks := locks })
  | .lockRenew name owner ttlS now =>
    let (n, locks) := Honker.lockRenew name owner ttlS now s.locks
    (.ofCount n, { s with locks := locks })
  | .lockRelease name owner =>
    let (n, locks) := Honker.lockRelease name owner s.locks
    (.count n, { s with locks := locks })
  | .resultSave job value ttlS now =>
    let (n, results) := Honker.resultSave job value ttlS now s.results
    (.count n, { s with results := results })

abbrev StoreEvent := Transition.Event Store StoreCall Ret

/-- The number is the 64-bit integer `now + arg`. -/
def IsSum (x : Number) (now arg : ℤ) : Prop := x = .int (now + arg) ∧ InRange (now + arg)

/-- A call on the queue stores each sum of a clock reading and an argument as that integer, and
chooses `scheduled` for a later `run_at` only. -/
structure QueueSums (e : Event) : Prop where
  enqueued : ∀ queue payload runAt delay priority maxAttempts expires id,
    e.input.op = .enqueue queue payload runAt delay priority maxAttempts expires →
    e.output = .count id → ∃ r, e.post.live.find? id = some r ∧
      (∀ d : I64, delay = some d → IsSum r.runAt (e.input.clk 0) d) ∧
      (∀ x : I64, expires = some x →
        ∃ v, r.expiresAt = some v ∧ IsSum (.int v) (e.input.clk 0) x) ∧
      (r.state = .scheduled ↔ e.input.clk 0 < r.runAt.val)
  fired : ∀ tickAt fires, e.input.op = .schedulerTick tickAt → e.output = .fires fires →
    ∀ f ∈ fires, ∃ r task, e.post.live.find? f.jobId = some r ∧
      e.pre.tasks.find? f.name = some task ∧ r.runAt = .int (e.input.clk 0) ∧ r.state = .pending ∧
      ∀ x : I64, task.expiresS = some x →
        ∃ v, r.expiresAt = some v ∧ IsSum (.int v) (e.input.clk 0) x
  claimed : ∀ queue worker n timeout jobs, e.input.op = .claimBatch queue worker n timeout →
    e.output = .jobs jobs → ∀ job ∈ jobs, ∃ r x, e.post.live.find? job.id = some r ∧
      r.claimExpiresAt = some x ∧ IsSum x (e.input.clk 0) timeout
  requeued : ∀ r ∈ e.pre.live.rows, ∀ delay, Requeues e.input r delay →
    ∃ r', e.post.live.find? r.id = some r' ∧ IsSum r'.runAt (e.input.clk 0) delay ∧
      (r'.state = .scheduled ↔ e.input.clk 0 < r'.runAt.val)
  extended : ∀ r ∈ e.pre.live.rows, ∀ extend, Extends e.input r extend →
    ∃ r' x, e.post.live.find? r.id = some r' ∧ r'.claimExpiresAt = some x ∧
      IsSum x (e.input.clk 0) extend

def StoresSums (e : StoreEvent) : Prop :=
  match e.input with
  | .queue c => QueueSums ⟨e.pre.db, c, e.output, e.post.db⟩
  | .lockAcquire name _ ttlS clk =>
    (∀ r, e.pre.locks.find? name = some r → r.expiresAt.val ≤ clk 0) →
      ∃ r, e.post.locks.find? name = some r ∧ IsSum r.expiresAt (clk 1) ttlS
  | .lockRenew name owner ttlS now =>
    0 < ttlS.val → ∀ r, e.pre.locks.find? name = some r → r.owner = owner →
      ∃ r', e.post.locks.find? name = some r' ∧ IsSum r'.expiresAt now ttlS
  | .lockRelease _ _ => True
  | .resultSave job _ ttlS now =>
    0 < ttlS.val →
      ∃ r x, e.post.results.find? job = some r ∧ r.expiresAt = some x ∧ IsSum x now ttlS

/-- The sums that a call on the queue is to store stay in the 64-bit range. -/
structure QueueFits (db : Db) (c : Call) : Prop where
  enqueue : ∀ queue payload runAt delay priority maxAttempts expires,
    c.op = .enqueue queue payload runAt delay priority maxAttempts expires → 1 ≤ maxAttempts →
      (∀ d : I64, delay = some d → InRange (c.clk 0 + d)) ∧
        ∀ x : I64, expires = some x → InRange (c.clk 0 + x)
  tick : ∀ tickAt, c.op = .schedulerTick tickAt → ∀ task ∈ db.tasks.rows, task.enabled = true →
    task.nextFireAt ≤ tickAt → ∀ x : I64, task.expiresS = some x → InRange (c.clk 0 + x)
  requeue : ∀ r ∈ db.live.rows, ∀ delay, Requeues c r delay → InRange (c.clk 0 + delay)
  extend : ∀ r ∈ db.live.rows, ∀ extend, Extends c r extend → InRange (c.clk 0 + extend)

def Fits (s : Store) : StoreCall → Prop
  | .queue c => QueueFits s.db c
  | .lockAcquire name _ ttlS clk =>
    (∀ r, s.locks.find? name = some r → r.expiresAt.val ≤ clk 0) → InRange (clk 1 + ttlS)
  | .lockRenew name owner ttlS now =>
    0 < ttlS.val → (∃ r, s.locks.find? name = some r ∧ r.owner = owner) → InRange (now + ttlS)
  | .lockRelease _ _ => True
  | .resultSave _ _ ttlS now => 0 < ttlS.val → InRange (now + ttlS)

section Failure

variable {next : String → ℤ → Except String ℤ} {db : Db} {c : Call} {err : SqlError}

theorem atomically_unchanged {α : Type} {x : Except SqlError (α × Db)}
    (h : (atomically db x).1 = .error err) : (atomically db x).2 = db := by
  rw [atomically_error h]
  rfl

theorem ofCount_error {r : Except SqlError ℤ} (h : Ret.ofCount r = .error err) : r = .error err := by
  cases r with
  | ok n => cases h
  | error e =>
    cases h
    rfl

theorem retryWith_unchanged {job : ℤ} {worker error : String} {delay : I64} {attempt : Option ℤ}
    {clk : ℕ → Clock} (h : (retryWith job worker delay error attempt clk db).1 = .error err) :
    (retryWith job worker delay error attempt clk db).2 = db := by
  rcases retryWith_cases job worker delay error attempt clk db with
    ⟨r, -, -, -, hok⟩ | ⟨r, db', -, -, -, hok, -⟩ | ⟨hdb, -⟩
  · simp [hok] at h
  · simp [hok] at h
  · exact hdb

theorem exec_unchanged (h : (exec next db c).1 = .error err) : (exec next db c).2 = db := by
  cases hop : c.op with
  | enqueue queue payload runAt delay priority maxAttempts expires =>
    simp only [exec, hop, enqueue] at h ⊢
    cases hmax : checkMaxAttempts "honker_enqueue" maxAttempts with
    | error e => rfl
    | ok u => simp [hmax, Ret.ofCount] at h
  | claimBatch queue worker n timeout =>
    simp only [exec, hop, claimBatch] at h ⊢
    cases hclaim : claimBatchInner c.emit queue worker n timeout (c.clk 0) db with
    | error e => rfl
    | ok x => simp [hclaim, atomically] at h
  | ack | ackFenced | cancel | cancelInQueue | heartbeat | heartbeatFenced =>
    simp only [exec, hop] at h
    cases h
  | ackBatch elems worker =>
    cases elems with
    | none => simp [exec, hop, ackBatch]
    | some elems =>
      simp only [exec, hop, ackBatch] at h
      cases h
  | retry =>
    simp only [exec, hop] at h ⊢
    exact retryWith_unchanged (ofCount_error h)
  | retryFenced =>
    simp only [exec, hop] at h ⊢
    exact retryWith_unchanged (ofCount_error h)
  | fail =>
    simp only [exec, hop] at h ⊢
    exact atomically_unchanged (ofCount_error h)
  | failFenced =>
    simp only [exec, hop] at h ⊢
    exact atomically_unchanged (ofCount_error h)
  | sweepExpired queue =>
    simp only [exec, hop, sweepExpired] at h ⊢
    cases hmove : moveToDead expireIds queue (c.clk 0) (-1) "expired" db with
    | error e => rfl
    | ok x => simp [hmove, atomically] at h
  | schedulerTick tickAt =>
    rcases tick_cases next db hop with ⟨e, hexec⟩ | ⟨fires, db', hexec, -⟩
    · rw [hexec]
    · rw [hexec] at h
      cases h
  | schedulerRegister name queue cronExpr payload priority expiresS maxAttempts =>
    simp only [exec, hop, schedulerRegister] at h ⊢
    split at h
    · simp_all
    · split at h
      · simp_all
      · cases h
  | schedulerUpdate name cronExpr payload priority expiresS maxAttempts =>
    simp only [exec, hop, schedulerUpdate] at h ⊢
    split at h
    · simp_all
    · split_ifs at h ⊢
      · rfl
      · rfl
      · split at h
        · simp_all
        · cases h
  | schedulerUnregister | schedulerPause | schedulerResume =>
    simp only [exec, hop] at h
    cases h

end Failure

section Rows

variable {next : String → ℤ → Except String ℤ} {db : Db} {c : Call} {r : LiveRow}

theorem find?_retryWith {job : ℤ} {worker error : String} {delay : I64} {attempt : Option ℤ}
    {clk : ℕ → Clock} (hr : r ∈ db.live.rows) (hg : retryGuard job worker attempt (clk 0) r = true)
    (ha : r.hasAttempts = true) :
    (retryWith job worker delay error attempt clk db).2.live.find? r.id =
      some (r.requeued delay (clk 0)) := by
  have hid := retryGuard_id hg
  have hfind : db.live.find? job = some r := hid ▸ Table.find?_of_mem hr
  rcases retryWith_cases job worker delay error attempt clk db with
    ⟨s, hs, -, -, hok⟩ | ⟨s, db', hs, -, hspent, -⟩ | ⟨-, hspent, -⟩
  · rw [hok, requeueLive, updateLive, Table.find?_update, hid, hfind]
    simp [hg, ha]
  · cases hs.symm.trans hfind
    simp [ha] at hspent
  · simp [hspent r hfind hg] at ha

/-- A retry under the guard requeues the row. -/
theorem Requeues.find? {delay : ℤ} (hr : r ∈ db.live.rows) (h : Requeues c r delay) :
    (exec next db c).2.live.find? r.id = some (r.requeued delay (c.clk 0)) := by
  cases hop : c.op with
  | retry job worker d error =>
    simp only [Requeues, hop] at h
    obtain ⟨rfl, hg, ha⟩ := h
    simp only [exec, hop]
    exact find?_retryWith hr hg ha
  | retryFenced job worker d error attempt =>
    simp only [Requeues, hop] at h
    obtain ⟨rfl, hg, ha⟩ := h
    simp only [exec, hop]
    exact find?_retryWith hr hg ha
  | _ => simp [Requeues, hop] at h

theorem find?_updateLive {p : LiveRow → Bool} {f : LiveRow → LiveRow} {hf : ∀ r, (f r).id = r.id}
    (hr : r ∈ db.live.rows) (hp : p r = true) :
    (updateLive p f hf db).2.live.find? r.id = some (f r) := by
  rw [updateLive, Table.find?_update, Table.find?_of_mem hr]
  simp [hp]

/-- A heartbeat under the guard extends the lease. -/
theorem Extends.find? {extend : ℤ} (hr : r ∈ db.live.rows) (h : Extends c r extend) :
    (exec next db c).2.live.find? r.id = some (r.extended extend (c.clk 0)) := by
  cases hop : c.op with
  | heartbeat job worker x =>
    simp only [Extends, hop] at h
    obtain ⟨rfl, hg⟩ := h
    simp only [exec, hop]
    exact find?_updateLive hr hg
  | heartbeatFenced job worker x attempt =>
    simp only [Extends, hop] at h
    obtain ⟨rfl, hg⟩ := h
    simp only [exec, hop]
    exact find?_updateLive hr hg
  | _ => simp [Extends, hop] at h

theorem isSum_add {now arg : ℤ} (h : InRange (now + arg)) : IsSum (add now arg) now arg :=
  ⟨add_of_inRange h, h⟩

theorem requeued_sums {delay : ℤ} {now : Clock} (h : InRange (now + delay)) :
    IsSum (r.requeued delay now).runAt now delay ∧
      ((r.requeued delay now).state = .scheduled ↔ now < (r.requeued delay now).runAt.val) := by
  have hrun : (r.requeued delay now).runAt = .int (now + delay) := add_of_inRange h
  refine ⟨⟨hrun, h⟩, ?_⟩
  rw [hrun, Number.val]
  by_cases hpos : delay > 0
  · simp [LiveRow.requeued, hpos]
  · simp [LiveRow.requeued, hpos]

/-- What `enqueue` stores. -/
theorem enqueue_find? {queue payload : String} {runAt : Option ℤ} {delay : Option I64}
    {priority maxAttempts id : ℤ} {expires : Option I64}
    (hop : c.op = .enqueue queue payload runAt delay priority maxAttempts expires)
    (hout : (exec next db c).1 = .count id) :
    ∃ r, 1 ≤ maxAttempts ∧ (exec next db c).2.live.find? id = some r ∧
      (∀ d : I64, delay = some d → r.runAt = .int (wrap (c.clk 0 + d))) ∧
      r.expiresAt = expires.map (fun x : I64 ↦ wrap (c.clk 0 + x)) ∧
      (r.state = .scheduled ↔ c.clk 0 < r.runAt.val) := by
  cases hmax : checkMaxAttempts "honker_enqueue" maxAttempts with
  | error e => simp [exec, hop, enqueue, hmax, Ret.ofCount] at hout
  | ok u =>
    simp only [exec, hop, enqueue, hmax, Ret.ofCount] at hout ⊢
    cases hout
    refine ⟨_, checkMaxAttempts_ok hmax,
      (Table.find?_insert _ _ db.autoId_fresh _).trans (if_pos rfl), ?_, ?_, ?_⟩
    · intro d hd
      rw [hd]
    · cases expires with
      | none => rfl
      | some x => rfl
    · dsimp only
      rw [Number.val]
      split_ifs with hlt
      · simpa using hlt
      · simpa using hlt

theorem Task.expiresAt_job (task : Task) (now created : Clock) (id : ℤ) :
    (task.job now created id).expiresAt = task.expiresS.map fun x : I64 ↦ wrap (now + x) := by
  cases hexp : task.expiresS with
  | none => simp [Task.job, hexp]
  | some x => simp [Task.job, hexp]

/-- What a tick stores: for each element of its array, the row of a due task. -/
theorem tick_find? {tickAt : ℤ} {fires : List Fire} (hop : c.op = .schedulerTick tickAt)
    (hout : (exec next db c).1 = .fires fires) :
    (∀ f ∈ fires, ∃ task ∈ db.tasks.rows, task.enabled = true ∧ task.nextFireAt ≤ tickAt ∧
      f.name = task.name ∧ ∃ created,
        (exec next db c).2.live.find? f.jobId = some (task.job (c.clk 0) created f.jobId)) ∧
    ∀ task ∈ db.tasks.rows, task.enabled = true → task.nextFireAt ≤ tickAt →
      ∃ f ∈ fires, f.name = task.name := by
  rcases tick_cases next db hop with ⟨err, hexec⟩ | ⟨fires', db', hexec, hfired⟩
  · simp [hexec] at hout
  · rw [hexec] at hout ⊢
    cases hout
    obtain ⟨rows, hrows, hjobs⟩ := hfired.rows
    refine ⟨fun f hf ↦ ?_, fun task ht hon hdue ↦ ?_⟩
    · obtain ⟨r, hr, task, hmem, hname, -, created, rfl⟩ := exists_of_forall₂ hjobs hf
      obtain ⟨hmem, hon, hdue⟩ := mem_tickDue.mp hmem
      refine ⟨task, hmem, hon, hdue, hname, created, Table.find?_eq_some.mpr ⟨?_, rfl⟩⟩
      rw [hrows]
      exact List.mem_append_right _ hr
    · exact hfired.each (mem_tickDue.mpr ⟨ht, hon, hdue⟩) hdue

theorem wrap_of_inRange {x : ℤ} (h : InRange x) : wrap x = x := by
  unfold InRange at h
  unfold wrap
  rw [Int.bmod_eq_of_le] <;> omega

theorem isSum_wrap {o : Option ℤ} {arg : Option I64} {now : ℤ}
    (ho : o = arg.map fun x : I64 ↦ wrap (now + x)) (hrange : ∀ x : I64, arg = some x →
      InRange (now + x)) (x : I64) (hx : arg = some x) :
    ∃ v, o = some v ∧ IsSum (.int v) now x := by
  have hin := hrange x hx
  refine ⟨now + x, ?_, rfl, hin⟩
  rw [ho, hx, Option.map_some, wrap_of_inRange hin]

theorem queueSums_of_fits (h : QueueFits db c) : QueueSums (event (exec next) db c) where
  enqueued := by
    intro queue payload runAt delay priority maxAttempts expires id hop hout
    obtain ⟨r, hmax, hr, hrun, hexp, hstate⟩ := enqueue_find? (c := c) hop hout
    obtain ⟨hdelay, hexpires⟩ := h.enqueue _ _ _ _ _ _ _ hop hmax
    refine ⟨r, hr, fun d hd ↦ ⟨?_, hdelay d hd⟩, isSum_wrap hexp hexpires, hstate⟩
    rw [hrun d hd, wrap_of_inRange (hdelay d hd)]
    rfl
  fired := by
    intro tickAt fires hop hout f hf
    obtain ⟨task, ht, hon, hdue, hname, created, hfind⟩ := (tick_find? hop hout).1 f hf
    refine ⟨_, task, hfind, ?_, rfl, rfl, ?_⟩
    · rw [hname]
      exact Table.find?_of_mem ht
    · exact isSum_wrap (task.expiresAt_job _ created _) (h.tick tickAt hop task ht hon hdue)
  claimed := by
    intro queue worker n timeout jobs hop hout job hjob
    have hret : job ∈ returns (event (exec next) db c) job.id := by
      simp [returns, returned, hout, hjob]
    rcases return_step next db c job.id with hnil | ⟨r, w, t, job', -, hpost, -, -, hguard⟩
    · simp [hnil] at hret
    · have hop : c.op = .claimBatch queue worker n timeout := hop
      simp only [Claims, hop] at hguard
      obtain ⟨-, rfl, -, -, -, -, hrange⟩ := hguard
      exact ⟨_, _, hpost, rfl, isSum_add hrange⟩
  requeued := by
    intro r hr delay hreq
    exact ⟨_, hreq.find? hr, requeued_sums (h.requeue r hr delay hreq)⟩
  extended := by
    intro r hr extend hext
    exact ⟨_, _, hext.find? hr, rfl, isSum_add (h.extend r hr extend hext)⟩

theorem fits_of_queueSums (hok : ∀ err, (exec next db c).1 ≠ .error err)
    (h : QueueSums (event (exec next) db c)) : QueueFits db c where
  enqueue := by
    intro queue payload runAt delay priority maxAttempts expires hop hmax
    have hcheck : checkMaxAttempts "honker_enqueue" maxAttempts = .ok () := by
      rw [checkMaxAttempts, if_neg (by omega)]
    obtain ⟨r, -, hdelay, hexpires, -⟩ := h.enqueued _ _ _ _ _ _ _ db.autoId hop (by
      simp [event, exec, hop, enqueue, hcheck, enqueueAt, Ret.ofCount])
    refine ⟨fun d hd ↦ (hdelay d hd).2, fun x hx ↦ ?_⟩
    obtain ⟨v, -, hsum⟩ := hexpires x hx
    exact hsum.2
  tick := by
    intro tickAt hop task ht hon hdue x hx
    obtain ⟨fires, hout⟩ : ∃ fires, (exec next db c).1 = .fires fires := by
      rcases tick_failed next db hop with ⟨err, hexec⟩ | hfires
      · exact absurd (by simp [hexec]) (hok err)
      · exact hfires
    obtain ⟨f, hf, hname⟩ := (tick_find? hop hout).2 task ht hon hdue
    obtain ⟨r, task', -, htask, -, -, hexpires⟩ := h.fired tickAt fires hop hout f hf
    have htask : db.tasks.find? f.name = some task' := htask
    rw [hname, Table.find?_of_mem ht] at htask
    cases htask
    obtain ⟨v, -, hsum⟩ := hexpires x hx
    exact hsum.2
  requeue := by
    intro r hr delay hreq
    obtain ⟨r', -, hsum, -⟩ := h.requeued r hr delay hreq
    exact hsum.2
  extend := by
    intro r hr extend hext
    obtain ⟨r', x, -, -, hsum⟩ := h.extended r hr extend hext
    exact hsum.2

end Rows

section Store

variable {next : String → ℤ → Except String ℤ} {s : Store} {c : StoreCall}

/-- A lock that is free, or whose time is over, is taken for `ttl_s` from the insert on. -/
theorem find?_lockAcquire {name : String} (owner : String) (ttlS : I64) {clk : ℕ → Clock}
    {locks : LockTable} (hfree : ∀ r, locks.find? name = some r → r.expiresAt.val ≤ clk 0) :
    (lockAcquire name owner ttlS clk locks).2.find? name =
      some ⟨name, owner, add (clk 1) ttlS⟩ := by
  have hnone : (deleteExpiredLock name (clk 0) locks).find? name = none := by
    rw [find?_deleteExpiredLock, if_pos rfl]
    cases hr : locks.find? name with
    | none => rfl
    | some r =>
      have hle := hfree r hr
      simp [Option.filter, hle]
  simp only [lockAcquire]
  rw [find?_insertOrIgnoreLock, if_pos ⟨rfl, hnone⟩]

theorem find?_upsertResult (row : ResultRow) (results : ResultTable) :
    ∃ r, (upsertResult row results).find? row.jobId = some r ∧ r.expiresAt = row.expiresAt := by
  unfold upsertResult
  split_ifs with h
  · obtain ⟨r, hr⟩ := Option.isSome_iff_exists.mp (Table.find?_isSome.mpr h)
    have hid := (Table.find?_eq_some.mp hr).2
    refine ⟨_, by rw [Table.find?_update, hr, Option.map_some], ?_⟩
    simp [hid]
  · exact ⟨row, by rw [Table.find?_insert, if_pos rfl], rfl⟩

theorem store_unchanged {err : SqlError} (h : (s.exec next c).1 = .error err) :
    (s.exec next c).2 = s := by
  cases c with
  | queue c =>
    have h : (exec next s.db c).1 = .error err := h
    simp only [Store.exec, exec_unchanged h]
  | lockAcquire => cases h
  | lockRenew name owner ttlS now =>
    by_cases hpos : ttlS.val ≤ 0
    · simp only [Store.exec, lockRenew, if_pos hpos]
    · simp only [Store.exec, lockRenew, if_neg hpos] at h
      cases h
  | lockRelease => cases h
  | resultSave => cases h

theorem storesSums_iff (hok : ∀ err, (s.exec next c).1 ≠ .error err) :
    StoresSums (event (Store.exec next) s c) ↔ Fits s c := by
  cases c with
  | queue c => exact ⟨fits_of_queueSums hok, queueSums_of_fits⟩
  | lockAcquire name owner ttlS clk =>
    refine forall_congr' fun hfree ↦ ?_
    have hfind := find?_lockAcquire owner ttlS hfree
    constructor
    · intro h
      obtain ⟨r, -, hsum⟩ := h
      exact hsum.2
    · exact fun h ↦ ⟨_, hfind, isSum_add h⟩
  | lockRenew name owner ttlS now =>
    refine forall_congr' fun hpos ↦ ?_
    have hfind := find?_lockRenew s.locks name name owner ttlS now hpos
    constructor
    · intro h hmine
      obtain ⟨r, hr, howner⟩ := hmine
      obtain ⟨r', -, hsum⟩ := h r hr howner
      exact hsum.2
    · intro h r hr howner
      have hr : s.locks.find? name = some r := hr
      rw [hr, Option.map_some, if_pos ⟨rfl, howner⟩] at hfind
      exact ⟨_, hfind, isSum_add (h ⟨r, hr, howner⟩)⟩
  | lockRelease => exact Iff.rfl
  | resultSave job value ttlS now =>
    refine forall_congr' fun hpos ↦ ?_
    obtain ⟨r, hr, hexp⟩ := find?_upsertResult ⟨job, value, some (add now ttlS)⟩ s.results
    have hpost : (event (Store.exec next) s (.resultSave job value ttlS now)).post.results =
        upsertResult ⟨job, value, some (add now ttlS)⟩ s.results := by
      simp only [event, Store.exec, resultSave, if_pos hpos]
    rw [hpost]
    constructor
    · intro h
      obtain ⟨r, x, -, -, hsum⟩ := h
      exact hsum.2
    · exact fun h ↦ ⟨r, _, hr, hexp, isSum_add h⟩

end Store

/-- A row whose timestamps are integers, with room for one second after its lease. -/
structure LiveRow.Integral (r : LiveRow) : Prop where
  runAt : ∃ v, r.runAt = .int v
  lease : ∀ x, r.claimExpiresAt = some x → ∃ v, x = .int v ∧ InRange (v + 1)

/-- Every stored row decodes: in `get_job`, in `queue_next_claim_at`, in every claim whose own lease
ends in range, and in every move to `_honker_dead`. -/
structure Decodes (db : Db) : Prop where
  getJob : ∀ job, ∃ info, getJob job db = .ok info
  nextClaim : ∀ (queue : String) (now : Clock), ∃ v, queueNextClaimAt queue now db = .ok v
  claim : ∀ (emit : Emission LiveRow) (queue worker : String) (n : ℤ) (timeout : I64) (now : Clock),
    InRange (now + timeout) → ∃ jobs, (claimBatch emit queue worker n timeout now db).1 = .ok jobs
  retry : ∀ job worker delay error attempt clk,
    ∃ k, (retryWith job worker delay error attempt clk db).1 = .ok k
  fail : ∀ job worker error attempt clk,
    ∃ x, failInner job worker error attempt clk db = .ok x
  sweep : ∀ queue now, ∃ k, (sweepExpired queue now db).1 = .ok k

section Decoding

variable {db : Db}

theorem getJob_total (hint : ∀ r ∈ db.live.rows, r.Integral) (job : ℤ) :
    ∃ info, getJob job db = .ok info := by
  unfold getJob
  cases hr : db.live.find? job with
  | none => exact ⟨none, rfl⟩
  | some r =>
    obtain ⟨⟨v, hrun⟩, hlease⟩ := hint r (Table.find?_eq_some.mp hr).1
    refine bind_total ⟨v, by rw [hrun]; rfl⟩ fun runAt ↦ ?_
    refine bind_total (mapM_option_total fun x hx ↦ ?_) fun expiresAt ↦ ⟨_, rfl⟩
    obtain ⟨w, rfl, -⟩ := hlease x hx
    exact ⟨w, rfl⟩

theorem queueNextClaimAt_total (hint : ∀ r ∈ db.live.rows, r.Integral) (queue : String)
    (now : Clock) : ∃ v, queueNextClaimAt queue now db = .ok v := by
  have hmem {κ : Type} [LinearOrder κ] {key : LiveRow → κ} {p : LiveRow → Bool} {r : LiveRow}
      (hr : firstBy key (db.live.rows.filter p) = some r) : r.Integral :=
    hint r (List.mem_filter.mp (mem_orderBy.mp (List.mem_of_head? hr))).1
  refine bind_total (mapM_option_total fun r hr ↦ ?_) fun a ↦
    bind_total (mapM_option_total fun x hx ↦ ?_) fun b ↦ ?_
  · obtain ⟨v, hrun⟩ := (hmem hr).runAt
    exact ⟨v, by rw [hrun]; rfl⟩
  · obtain ⟨r, hr, hlease⟩ := Option.bind_eq_some_iff.mp hx
    obtain ⟨v, rfl, hroom⟩ := (hmem hr).lease x hlease
    exact ⟨v + 1, by simp only [add_of_inRange hroom, decodeInt]⟩
  · split_ifs
    · exact ⟨_, rfl⟩
    · cases a with
      | none => cases b <;> exact ⟨_, rfl⟩
      | some a => cases b <;> exact ⟨_, rfl⟩

theorem claimBatch_total (hdb : db.Apart) (emit : Emission LiveRow) (queue worker : String) (n : ℤ)
    {timeout : I64} {now : Clock} (hrange : InRange (now + timeout)) :
    ∃ jobs, (claimBatch emit queue worker n timeout now db).1 = .ok jobs := by
  obtain ⟨T, hkeep⟩ := housekeep_total hdb queue now
  obtain ⟨jobs, db', hsql⟩ := claimSql_total emit queue worker n T (Or.inl hrange)
  exact ⟨jobs, by rw [claimBatch_eq emit worker n timeout hkeep, hsql]; rfl⟩

/-- A dead-letter move finds an integer `run_at` and a free id. -/
theorem buryWhere_total (hdb : db.Apart) (hint : ∀ r ∈ db.live.rows, r.Integral)
    {p : LiveRow → Bool} {j : ℤ} (hp : ∀ r, p r = true → r.id = j) (error : String) (diedAt : ℤ) :
    ∃ x, buryWhere p error diedAt db = .ok x := by
  by_cases hhit : ∃ r, db.live.find? j = some r ∧ p r = true
  · obtain ⟨r, hr, hpr⟩ := hhit
    obtain ⟨v, hrun⟩ := (hint r (Table.find?_eq_some.mp hr).1).runAt
    rcases buryWhere_hit hp hr hpr (hdb j r hr) error diedAt with ⟨-, db', hok⟩ | ⟨⟨w, hreal⟩, -⟩
    · exact ⟨_, hok⟩
    · simp [hrun] at hreal
  · push Not at hhit
    exact ⟨_, buryWhere_miss hp (fun r hr ↦ by simpa using hhit r hr) error diedAt⟩

theorem retryWith_total (hdb : db.Apart) (hint : ∀ r ∈ db.live.rows, r.Integral) (job : ℤ)
    (worker : String) (delay : I64) (error : String) (attempt : Option ℤ) (clk : ℕ → Clock) :
    ∃ k, (retryWith job worker delay error attempt clk db).1 = .ok k := by
  rcases retryWith_cases job worker delay error attempt clk db with
    ⟨r, -, -, -, hok⟩ | ⟨r, db', -, -, -, hok, -⟩ | ⟨-, -, ⟨hok, -⟩ | ⟨e, -, hbury⟩⟩
  · exact ⟨1, by rw [hok]⟩
  · exact ⟨1, by rw [hok]⟩
  · exact ⟨0, hok⟩
  · have hid (r : LiveRow)
        (hr : (retryGuard job worker attempt (clk 2) r && !r.hasAttempts) = true) : r.id = job :=
      retryGuard_id (Bool.and_eq_true_iff.mp hr).1
    obtain ⟨x, hx⟩ := buryWhere_total hdb hint hid error (clk 3)
    cases hx.symm.trans hbury

theorem decodes_of_integral (hdb : db.Apart) (hint : ∀ r ∈ db.live.rows, r.Integral) :
    Decodes db where
  getJob := getJob_total hint
  nextClaim := queueNextClaimAt_total hint
  claim emit queue worker n _ _ hrange := claimBatch_total hdb emit queue worker n hrange
  retry := retryWith_total hdb hint
  fail _ _ error _ clk := buryWhere_total hdb hint (fun _ ↦ failGuard_id) error (clk 1)
  sweep := by
    intro queue now
    obtain ⟨n, db', hmove⟩ := moveToDead_total hdb expireIds queue now (-1) "expired"
    exact ⟨n, by simp [sweepExpired, hmove, atomically]⟩

end Decoding

/-- No lease that the call may write ends at the largest 64-bit integer, past which
`queue_next_claim_at` adds a second. -/
def LeavesRoom (s : Store) : StoreCall → Prop
  | .queue c => ∀ r ∈ s.db.live.rows, ∀ x, (∃ worker, Claims c r worker x) ∨ Extends c r x →
      c.clk 0 + x ≠ 2 ^ 63 - 1
  | _ => True

/-- The condition on a step. -/
def Safe (s : Store) (c : StoreCall) : Prop := Fits s c ∧ LeavesRoom s c

/-- The call fails and changes nothing, or stores the exact sums. -/
def Exact (e : StoreEvent) : Prop :=
  (∃ err, e.output = .error err ∧ e.post = e.pre) ∨ StoresSums e

section Run

variable {next : String → ℤ → Except String ℤ} {s : Store} {c : StoreCall}

theorem exact_of_fits (h : Fits s c) : Exact (event (Store.exec next) s c) := by
  by_cases herr : ∃ err, (s.exec next c).1 = .error err
  · obtain ⟨err, herr⟩ := herr
    exact Or.inl ⟨err, herr, store_unchanged herr⟩
  · push Not at herr
    exact Or.inr ((storesSums_iff herr).mpr h)

theorem lease_integral {now x : ℤ} (hrange : InRange (now + x)) (hroom : now + x ≠ 2 ^ 63 - 1)
    {y : Number} (hy : some (add now x) = some y) : ∃ v, y = .int v ∧ InRange (v + 1) := by
  cases hy
  refine ⟨now + x, add_of_inRange hrange, ?_⟩
  unfold InRange at *
  omega

theorem integral_step (h : Safe s c) (hint : ∀ r ∈ s.db.live.rows, r.Integral) :
    ∀ r ∈ (s.exec next c).2.db.live.rows, r.Integral := by
  cases c with
  | queue c =>
    obtain ⟨hfits, hroom⟩ := h
    have hfits : QueueFits s.db c := hfits
    refine rows_step (P := fun r ↦ r ∈ s.db.live.rows ∧ r.Integral) next s.db c ?_ ?_ ?_
    · intro r hr _
      exact ⟨hr.runAt, fun x hx ↦ by simp [hr.claimExpiresAt] at hx⟩
    · intro r r' hr hstep
      obtain ⟨hr, hrun, hlease⟩ := hr
      cases hstep with
      | kept => exact ⟨hrun, hlease⟩
      | promoted => exact ⟨hrun, hlease⟩
      | claimed worker timeout job ret row guard =>
        have hrange : InRange (c.clk 0 + timeout) := guard.eligible.2.2.2
        exact ⟨hrun, fun y ↦ lease_integral hrange (hroom r hr timeout (Or.inl ⟨worker, guard⟩))⟩
      | extended extend ret guard out =>
        exact ⟨hrun, fun y ↦ lease_integral (hfits.extend r hr extend guard)
          (hroom r hr extend (Or.inr guard))⟩
      | requeued delay ret guard out =>
        refine ⟨⟨_, add_of_inRange (hfits.requeue r hr delay guard)⟩, fun y hy ↦ ?_⟩
        simp [LiveRow.requeued] at hy
    · exact fun r hr ↦ ⟨hr, hint r hr⟩
  | lockAcquire | lockRenew | lockRelease | resultSave => exact hint

/-- In a run whose steps all meet the condition, no id is in both job tables and every timestamp is
an integer. -/
theorem integral_run (next : String → ℤ → Except String ℤ) (calls : List StoreCall)
    (h : Along (Store.exec next) Safe Store.fresh calls) :
    Ledger (final (Store.exec next) Store.fresh calls).db ∧
      ∀ r ∈ (final (Store.exec next) Store.fresh calls).db.live.rows, r.Integral := by
  refine along_induction (C := Safe)
    (P := fun _ s ↦ Ledger s.db ∧ ∀ r ∈ s.db.live.rows, r.Integral) (Store.exec next) Store.fresh
    ⟨.fresh, fun r hr ↦ by simp [Store.fresh, Db.fresh, Table.empty] at hr⟩ ?_ calls h
  intro _ s c hsafe hinv
  obtain ⟨hledger, hint⟩ := hinv
  refine ⟨?_, integral_step hsafe hint⟩
  cases c with
  | queue c => exact hledger.step c
  | lockAcquire | lockRenew | lockRelease | resultSave => exact hledger

end Run

/-- In every table state, a call fails and changes nothing, or it stores the exact sums if and only if
they are in the 64-bit range. In every run whose steps have them in range, and leave room for a second
after each lease, each step is exact and every stored row decodes. -/
theorem timestamps_exact_iff (next : String → ℤ → Except String ℤ) :
    (∀ (s : Store) (c : StoreCall),
      (∃ err, (s.exec next c).1 = .error err ∧ (s.exec next c).2 = s) ∨
        (∀ err, (s.exec next c).1 ≠ .error err) ∧
          (StoresSums (event (Store.exec next) s c) ↔ Fits s c)) ∧
    ∀ calls : List StoreCall, Along (Store.exec next) Safe Store.fresh calls →
      ∀ e ∈ trace (Store.exec next) Store.fresh calls, Exact e ∧ Decodes e.post.db := by
  refine ⟨fun s c ↦ ?_, fun calls h e he ↦ ?_⟩
  · by_cases herr : ∃ err, (s.exec next c).1 = .error err
    · obtain ⟨err, herr⟩ := herr
      exact Or.inl ⟨err, herr, store_unchanged herr⟩
    · push Not at herr
      exact Or.inr ⟨herr, storesSums_iff herr⟩
  · obtain ⟨before, c, after, rfl, rfl⟩ := mem_trace (Store.exec next) he
    have hprefix : Along (Store.exec next) Safe Store.fresh (before ++ [c]) :=
      along_snoc.mpr (along_split h)
    obtain ⟨hledger, hint⟩ := integral_run next (before ++ [c]) hprefix
    rw [final_snoc] at hledger hint
    exact ⟨exact_of_fits (along_split h).2.1, decodes_of_integral hledger.apart hint⟩

/-- `Outbox::retry_delay`. `as u32` keeps the low 32 bits; the power saturates from `2 ^ 63` on. -/
def retryDelay (baseBackoffS attempts : I64) : I64 :=
  if baseBackoffS.val ≤ 0 then .near 0
  else
    let exponent := (I64.near (attempts.val - 1)).val % 2 ^ 32
    let power := I64.near (2 ^ (min exponent 63).toNat)
    .near (baseBackoffS.val * power.val)

/-- A job that a worker has claimed for a minute. -/
def handed : List StoreCall :=
  [.queue (.at_ (.near 100) (.enqueue "q" "p" none none 0 3 none)),
   .queue (.at_ (.near 100) (.claimBatch "q" "w" 1 (.near 60)))]

theorem timestamps_exact_handed :
    Decodes (final (Store.exec fun _ u ↦ .ok (u + 1)) Store.fresh handed).db := by
  have hsafe : Along (Store.exec fun _ u ↦ .ok (u + 1)) Safe Store.fresh handed := by
    intro e he
    simp only [handed, trace, List.mem_cons, List.not_mem_nil, or_false] at he
    rcases he with rfl | rfl
    · refine ⟨⟨?_, ?_, ?_, ?_⟩, ?_⟩
      · intro queue payload runAt delay priority maxAttempts expires hop _
        cases hop
        refine ⟨fun d hd ↦ ?_, fun x hx ↦ ?_⟩
        · cases hd
        · cases hx
      · intro tickAt hop
        cases hop
      · intro r hr delay hreq
        cases hreq
      · intro r hr extend hext
        cases hext
      · intro r hr x hx
        cases hr
    · refine ⟨⟨?_, ?_, ?_, ?_⟩, ?_⟩
      · intro queue payload runAt delay priority maxAttempts expires hop
        cases hop
      · intro tickAt hop
        cases hop
      · intro r hr delay hreq
        cases hreq
      · intro r hr extend hext
        cases hext
      · intro r hr x hx
        rcases hx with ⟨worker, -, rfl, -⟩ | hext
        · decide
        · cases hext
  have hall := (timestamps_exact_iff fun _ u ↦ .ok (u + 1)).2 handed hsafe
  simp only [handed, trace, List.mem_cons, List.not_mem_nil, or_false] at hall
  simp only [handed, final]
  exact (hall _ (Or.inr rfl)).2

/-- The retry of an outbox whose backoff of five seconds has doubled 61 times. -/
def saturatedRetry : Call := .at_ (.near 110) (.retry 1 "w" (retryDelay (.near 5) (.near 62)) "e")

/-- The saturated retry succeeds and stores a REAL, which `get_job` and `queue_next_claim_at` then
fail on; an enqueue with the same delay wraps into the past and is handed out at once. -/
theorem timestamps_overflow :
    (retryDelay (.near 5) (.near 62)).val = 2 ^ 63 - 1 ∧
    ¬ Exact (event (Store.exec fun _ u ↦ .ok (u + 1))
      (final (Store.exec fun _ u ↦ .ok (u + 1)) Store.fresh handed) (.queue saturatedRetry)) ∧
    queueNextClaimAt "q" (.near 111) (final (Store.exec fun _ u ↦ .ok (u + 1)) Store.fresh
      (handed ++ [.queue saturatedRetry])).db = .error (.columnType 1 scheduledColumn "Real") ∧
    getJob 1 (final (Store.exec fun _ u ↦ .ok (u + 1)) Store.fresh
      (handed ++ [.queue saturatedRetry])).db = .error (.columnType 5 "run_at" "Real") ∧
    (enqueue (.near 100) (.near 100) "q" "p" none (some (.near (2 ^ 63 - 1))) 0 3 none .fresh).2.live.rows.map
      (fun r ↦ (r.runAt, r.state)) = [(.int (99 - 2 ^ 63), .pending)] := by
  refine ⟨by decide, fun h ↦ ?_, by decide +kernel, by decide, by decide⟩
  have hout : (event (Store.exec fun _ u ↦ .ok (u + 1))
      (final (Store.exec fun _ u ↦ .ok (u + 1)) Store.fresh handed)
      (.queue saturatedRetry)).output = .count 1 := by
    decide
  have hrow : ∃ r ∈ (final (Store.exec fun _ u ↦ .ok (u + 1)) Store.fresh handed).db.live.rows,
      r.processingFor 1 "w" 110 = true ∧ r.hasAttempts = true := by
    decide
  obtain ⟨r, hr, hguard⟩ := hrow
  rcases h with ⟨err, herr, -⟩ | hsums
  · cases hout.symm.trans herr
  · have hsums : QueueSums _ := hsums
    obtain ⟨r', -, hsum, -⟩ := hsums.requeued r hr _ ⟨rfl, hguard⟩
    exact absurd hsum.2 (by decide)

end Honker
