import Honker.Worker

namespace Honker

open Relational Numeric Transition Worker

/-- What `_drain_loop` finds in a payload: it cannot be read as a job, it has no task envelope, or it
has one, which may name a task. -/
inductive Envelope
  | malformed
  | raw
  | task (name : Option String)
deriving DecidableEq

/-- The fields of a `TaskSpec` that a worker reads. `timeoutS` is the timeout as Python prints it. The
delay passes through a float, which is exact up to `2 ^ 53`. -/
structure TaskSpec where
  retries : Option ℤ
  retryDelayS : I64
  timeoutS : Option String
  exact_ : retryDelayS.val.natAbs ≤ 2 ^ 53
deriving DecidableEq

/-- How a decorated function ends under `run_task`. -/
inductive Ended
  | returned
  | timeout
  | retryable (delay : I64) (text : String)
  | raised (text : String)
  | cancelled
deriving DecidableEq

/-- A worker's process: the JSON decoder and Python's `repr`, which are not part of this code, and the
registry of decorated tasks. -/
structure TaskEnv where
  queue : String
  visibilityTimeoutS : I64
  envelope : String → Envelope
  get : String → Option TaskSpec
  reprName : Option String → String
  reprNames : String

namespace TaskEnv

/-- `_retry_or_fail`. -/
def retryOrFail (retries : Option ℤ) (attempts : ℤ) (delay : I64) (error : String) : Verdict :=
  if retries.any fun n ↦ decide (n ≤ attempts) then .fail error else .retry delay error

/-- The delay and the error that `run_task` settles a failed run with. -/
def failure (spec : TaskSpec) : Ended → Option (I64 × String)
  | .returned => none
  | .timeout => some (spec.retryDelayS,
      match spec.timeoutS with
      | some t => "timeout after " ++ t ++ "s"
      | none => "handler timeout")
  | .retryable delay text => some (delay, text)
  | .raised text => some (spec.retryDelayS, text)
  | .cancelled => none

variable (env : TaskEnv)

/-- `reg.get(task_name) if task_name else None`. -/
def lookup (payload : String) : Option TaskSpec :=
  match env.envelope payload with
  | .task (some name) => if name = "" then none else env.get name
  | _ => none

def unknownTask (name : Option String) : String :=
  "unknown task: " ++ env.reprName name ++ ". Registered tasks: " ++ env.reprNames

def rawPayload : String := "raw (non-decorated) payload on a decorated-task queue"

def shuttingDown : String := "worker shutting down"

/-- `_drain_loop` with `_run_one` and `run_task`. The call of `job.ack()` stands inside the `try` of
`run_task`: when it raises, the job is retried like one whose handler failed. -/
def drainLoop : Policy Ended where
  queue := env.queue
  timeout := env.visibilityTimeoutS
  screen stop job :=
    if stop then .settle (.retry (.near 0) shuttingDown)
    else
      match env.envelope job.payload with
      | .malformed => .leave
      | .raw => .settle (.fail rawPayload)
      | .task name =>
        if (env.lookup job.payload).isSome then .handle else .settle (.fail (env.unknownTask name))
  settle job o :=
    (env.lookup job.payload).bind fun spec ↦
      match o with
      | .returned => some .ack
      | o => (failure spec o).map fun x ↦ retryOrFail spec.retries job.attempts x.1 x.2
  raised job v text :=
    (env.lookup job.payload).bind fun spec ↦
      match v with
      | .ack => some (retryOrFail spec.retries job.attempts spec.retryDelayS text)
      | _ => none

variable {env} {ι : Type} {h : List (Moment ι Ended)} {job : ClaimedJob}

/-- A run of the task on the job that `run_task` settled with `error`: the run failed with it, or it
returned and an acknowledgement of the job raised it. -/
def EndsIn (env : TaskEnv) (h : List (Moment ι Ended)) (job : ClaimedJob) (error : String) : Prop :=
  ∃ spec o, env.lookup job.payload = some spec ∧ (job, o) ∈ handlings h ∧
    ((∃ delay, failure spec o = some (delay, error)) ∨
      (o = .returned ∧ (job, .ack, error) ∈ raisings h))

/-- The task's own budget of attempts is spent. -/
def Spent (env : TaskEnv) (job : ClaimedJob) : Prop :=
  ∃ spec n, env.lookup job.payload = some spec ∧ spec.retries = some n ∧ n ≤ job.attempts

/-- How a worker comes to its verdict on a job. -/
inductive Because (env : TaskEnv) (h : List (Moment ι Ended)) (job : ClaimedJob) : Verdict → Prop
  | stopped : Because env h job (.retry (.near 0) shuttingDown)
  | raw (envelope : env.envelope job.payload = .raw) : Because env h job (.fail rawPayload)
  | unknown (name : Option String) (envelope : env.envelope job.payload = .task name)
      (lookup : env.lookup job.payload = none) : Because env h job (.fail (env.unknownTask name))
  | failed (error : String) (run : EndsIn env h job error) (spent : Spent env job) :
      Because env h job (.fail error)
  | retried (delay : I64) (error : String) (run : EndsIn env h job error) :
      Because env h job (.retry delay error)
  | done (run : (job, .returned) ∈ handlings h) : Because env h job .ack

theorem because_retryOrFail {spec : TaskSpec} {delay : I64} {error : String}
    (run : EndsIn env h job error) (hspec : env.lookup job.payload = some spec) :
    Because env h job (retryOrFail spec.retries job.attempts delay error) := by
  unfold retryOrFail
  split_ifs with hspent
  · cases hn : spec.retries with
    | none => simp [hn] at hspent
    | some n => exact .failed error run ⟨spec, n, hspec, hn, by simpa [hn] using hspent⟩
  · exact .retried delay error run

theorem because_of_origin {v : Verdict} (ho : Origin env.drainLoop h job v) : Because env h job v := by
  induction ho with
  | screened stop screen =>
    cases stop with
    | true =>
      cases screen
      exact .stopped
    | false =>
      simp only [drainLoop, Bool.false_eq_true, if_false] at screen
      split at screen
      case h_1 => cases screen
      case h_2 hraw =>
        cases screen
        exact .raw hraw
      case h_3 name htask =>
        split_ifs at screen with hspec
        cases screen
        exact .unknown name htask (Option.not_isSome_iff_eq_none.mp hspec)
  | settled o mem settle =>
    obtain ⟨spec, hspec, hverdict⟩ := Option.bind_eq_some_iff.mp settle
    cases o with
    | returned =>
      cases hverdict
      exact .done mem
    | cancelled => cases hverdict
    | timeout =>
      obtain rfl := Option.some.inj hverdict
      exact because_retryOrFail ⟨spec, _, hspec, mem, Or.inl ⟨_, rfl⟩⟩ hspec
    | retryable delay text =>
      obtain rfl := Option.some.inj hverdict
      exact because_retryOrFail ⟨spec, _, hspec, mem, Or.inl ⟨_, rfl⟩⟩ hspec
    | raised text =>
      obtain rfl := Option.some.inj hverdict
      exact because_retryOrFail ⟨spec, _, hspec, mem, Or.inl ⟨_, rfl⟩⟩ hspec
  | @raised text v v' origin mem raise ih =>
    obtain ⟨spec, hspec, hverdict⟩ := Option.bind_eq_some_iff.mp raise
    cases v with
    | ack =>
      obtain rfl := Option.some.inj hverdict
      cases ih with
      | done run => exact because_retryOrFail ⟨spec, _, hspec, run, Or.inr ⟨rfl, mem⟩⟩ hspec
    | retry delay error => cases hverdict
    | fail error => cases hverdict

/-- Why a job of a decorated-task queue is dead. -/
inductive DiedOf (env : TaskEnv) (h : List (Moment ι Ended)) (r : LiveRow) (d : DeadRow) : Prop
  | expired (error : d.lastError = "expired")
  | lapsed (error : d.lastError = "max attempts exceeded")
  | raw (envelope : env.envelope r.payload = .raw) (error : d.lastError = rawPayload)
  | unknown (name : Option String) (envelope : env.envelope r.payload = .task name)
      (lookup : env.lookup r.payload = none) (error : d.lastError = env.unknownTask name)
  | stopped (spent : d.maxAttempts ≤ d.attempts) (error : d.lastError = shuttingDown)
  | ran (job : ClaimedJob) (id : job.id = r.id) (payload : job.payload = r.payload)
      (run : EndsIn env h job d.lastError) (spent : Spent env job ∨ d.maxAttempts ≤ d.attempts)

/-- A worker whose decoder knows one payload, of a task with two tries of its own. -/
def twoTries : TaskEnv where
  queue := "q"
  visibilityTimeoutS := .near 60
  envelope payload := if payload = "t" then .task (some "t") else .raw
  get name := if name = "t" then some ⟨some 2, .near 10, none, by decide⟩ else none
  reprName _ := "'t'"
  reprNames := "['t']"

/-- A task that fails twice. -/
def failsTwice : List (Act Unit Ended) :=
  [.call (.at_ (.near 100) (.enqueue "q" "t" none none 0 5 none)),
   .claim () "w" false (.at_ (.near 100) (.cancel 0)), .ended () (.raised "e1"),
   .settle () (.at_ (.near 101) (.cancel 0)) none,
   .claim () "w" false (.at_ (.near 111) (.cancel 0)), .ended () (.raised "e2"),
   .settle () (.at_ (.near 112) (.cancel 0)) none]

end TaskEnv

end Honker
