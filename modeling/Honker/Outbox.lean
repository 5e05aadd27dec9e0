import Honker.Worker
import Honker.Timestamps

namespace Honker

open Relational Numeric Transition Worker

/-- An `Outbox` with its options. -/
structure Outbox where
  name : String
  visibilityTimeoutS : I64
  maxAttempts : ℤ
  baseBackoffS : I64

namespace Outbox

variable (o : Outbox)

/-- The queue that `Outbox::new` opens. -/
def queue : String := "_outbox:" ++ o.name

def enqueue (payload : String) (runAt : Option ℤ) (delay : Option I64) (priority : ℤ)
    (expires : Option I64) : Op :=
  .enqueue o.queue payload runAt delay priority o.maxAttempts expires

/-- `Outbox::run_once` after its claim. `parses` tells whether `serde_json` reads a payload: on one
that it does not read, the call returns the error and the job stays claimed. A delivery ends in
`Ok(())` or in an error, given by its text. -/
def runOnce (parses : String → Bool) : Policy (Except String Unit) where
  queue := o.queue
  timeout := o.visibilityTimeoutS
  screen _ job := if parses job.payload then .handle else .leave
  settle job
    | .ok () => some .ack
    | .error err => some (.retry (retryDelay o.baseBackoffS (.near job.attempts)) err)
  raised _ _ _ := none

variable {o} {parses : String → Bool} {ι : Type} {h : List (Moment ι (Except String Unit))}
  {job : ClaimedJob}

theorem origin_runOnce {v : Verdict} (ho : Origin (o.runOnce parses) h job v) :
    ∃ out, (job, out) ∈ handlings h ∧ (o.runOnce parses).settle job out = some v := by
  cases ho with
  | screened stop screen =>
    simp only [runOnce] at screen
    split at screen <;> cases screen
  | settled out mem settle => exact ⟨out, mem, settle⟩
  | raised text origin mem raise => cases raise

theorem delivered_of_ack (ho : Origin (o.runOnce parses) h job .ack) : (job, .ok ()) ∈ handlings h := by
  obtain ⟨out, hmem, hsettle⟩ := origin_runOnce ho
  cases out with
  | ok u => exact hmem
  | error err => cases hsettle

theorem failed_of_retry {delay : I64} {error : String}
    (ho : Origin (o.runOnce parses) h job (.retry delay error)) :
    (job, .error error) ∈ handlings h ∧ delay = retryDelay o.baseBackoffS (.near job.attempts) := by
  obtain ⟨out, hmem, hsettle⟩ := origin_runOnce ho
  cases out with
  | ok u => cases hsettle
  | error err =>
    cases hsettle
    exact ⟨hmem, rfl⟩

theorem not_failed {error : String} (ho : Origin (o.runOnce parses) h job (.fail error)) : False := by
  obtain ⟨out, -, hsettle⟩ := origin_runOnce ho
  cases out <;> cases hsettle

/-- What became of a job of the outbox. `delivered` and the last case of `dead` name a delivery of this
job, with its payload. -/
inductive Delivered (h : List (Moment ι (Except String Unit))) (db : Db) (r : LiveRow) : Prop
  | live (isSome : (db.live.find? r.id).isSome)
  | delivered (gone : db.live.find? r.id = none)
      (ok : ∃ job, (job, .ok ()) ∈ handlings h ∧ job.id = r.id ∧ job.payload = r.payload)
  | dead (d : DeadRow) (find : db.dead.find? r.id = some d) (payload : d.payload = r.payload)
      (reason : d.lastError = "expired" ∨ d.lastError = "max attempts exceeded" ∨
        d.maxAttempts ≤ d.attempts ∧ ∃ job, (job, .error d.lastError) ∈ handlings h ∧ job.id = r.id ∧
          job.payload = r.payload)

/-- In every run of any number of `run_once` calls, which may crash at any point, with any calls by
others that do not settle or cancel the outbox's jobs: a job of the outbox leaves `_honker_live` only
after a delivery of its payload has succeeded, or for `_honker_dead`, and there with the error of a
failed delivery when its attempts are spent, or because it expired or its last claim lapsed. And its
delivery is begun at most `max_attempts` times, also counting those that a crash cuts off, no two of
them under one attempt number; so is it ended. -/
theorem outbox_at_least_once [DecidableEq ι] (next : String → ℤ → Except String ℤ) (o : Outbox)
    (parses : String → Bool) (as : List (Act ι (Except String Unit)))
    (hspares : Along (step next (o.runOnce parses)) (Spares o.queue) (Sys.fresh ι) as) {r : LiveRow}
    (hseen : Seen (o.runOnce parses) (trace (step next (o.runOnce parses)) (Sys.fresh ι) as) r) :
    Delivered (trace (step next (o.runOnce parses)) (Sys.fresh ι) as)
        (final (step next (o.runOnce parses)) (Sys.fresh ι) as).db r ∧
      (attempted (trace (step next (o.runOnce parses)) (Sys.fresh ι) as) r.id).Nodup ∧
      ((attempted (trace (step next (o.runOnce parses)) (Sys.fresh ι) as) r.id).length : ℤ) ≤
        r.maxAttempts ∧
      (begun (o.runOnce parses) (trace (step next (o.runOnce parses)) (Sys.fresh ι) as) r.id).Nodup ∧
      ((begun (o.runOnce parses) (trace (step next (o.runOnce parses)) (Sys.fresh ι) as) r.id).length :
        ℤ) ≤ r.maxAttempts := by
  obtain ⟨hnodup, hlength⟩ := attempts_bounded next (o.runOnce parses) as hseen
  refine ⟨?_, hnodup, hlength, beginnings_bounded next (o.runOnce parses) as hseen⟩
  cases placed_run next (o.runOnce parses) as hspares hseen with
  | live r' find payload queue => exact .live (by rw [find]; rfl)
  | acked job gone issued id payload origin =>
    exact .delivered gone ⟨job, delivered_of_ack origin, id, payload⟩
  | dead d find payload reason =>
    refine .dead d find payload (reason.imp_right (Or.imp_right ?_))
    intro hreason
    obtain ⟨job, hid, hpay, hfail | ⟨delay, hretry, hspent⟩⟩ := hreason
    · exact (not_failed hfail).elim
    · exact ⟨hspent, job, (failed_of_retry hretry).1, hid, hpay⟩

/-- A job delivered at the second try, by one worker. -/
def secondTry : List (Act Unit (Except String Unit)) :=
  [.call (.at_ (.near 100) (enqueue ⟨"o", .near 60, 5, .near 5⟩ "1" none none 0 none)),
   .claim () "w" false (.at_ (.near 100) (.cancel 0)), .ended () (.error "refused"),
   .settle () (.at_ (.near 101) (.cancel 0)) none,
   .claim () "w" false (.at_ (.near 106) (.cancel 0)), .ended () (.ok ()),
   .settle () (.at_ (.near 107) (.cancel 0)) none]

def firstRow : LiveRow :=
  ⟨1, "_outbox:o", "1", .pending, 0, .int 100, none, none, 0, 5, 100, none, none⟩

theorem outbox_at_least_once_secondTry :
    let o : Outbox := ⟨"o", .near 60, 5, .near 5⟩
    let next : String → ℤ → Except String ℤ := fun _ u ↦ .ok (u + 1)
    Delivered (trace (step next (o.runOnce fun _ ↦ true)) (Sys.fresh Unit) secondTry)
      (final (step next (o.runOnce fun _ ↦ true)) (Sys.fresh Unit) secondTry).db firstRow ∧
    (final (step next (o.runOnce fun _ ↦ true)) (Sys.fresh Unit) secondTry).db.live.find? 1 = none := by
  intro o next
  refine ⟨(outbox_at_least_once next o (fun _ ↦ true) secondTry ?_ ?_).1, by decide⟩
  · intro e he
    obtain ⟨bs, a, cs, has, rfl⟩ := mem_trace _ he
    have hmem : a ∈ secondTry := by simp [has]
    simp only [secondTry, List.mem_cons, List.not_mem_nil, or_false] at hmem
    rcases hmem with rfl | rfl | rfl | rfl | rfl | rfl | rfl
    · exact fun r _ _ ↦ rfl
    all_goals trivial
  · refine ⟨_, List.mem_cons_self, ?_, rfl⟩
    decide

section Backoff

theorem near_nonneg {x : ℤ} (h : 0 ≤ x) : 0 ≤ (I64.near x).val := by
  simp only [I64.near]
  omega

theorem retryDelay_nonneg (base attempts : I64) : 0 ≤ (retryDelay base attempts).val := by
  unfold retryDelay
  split_ifs with hbase
  · decide
  · exact near_nonneg (mul_nonneg (not_le.mp hbase).le (near_nonneg (by positivity)))

/-- The backoff doubles with each attempt, up to the largest 64-bit integer. -/
theorem retryDelay_eq {base attempts : I64} (hbase : 0 < base.val) (hlo : 1 ≤ attempts.val)
    (hhi : attempts.val ≤ 2 ^ 32) :
    (retryDelay base attempts).val = min (base.val * 2 ^ (attempts.val - 1).toNat) (2 ^ 63 - 1) := by
  obtain ⟨k, hk⟩ : ∃ k : ℕ, attempts.val - 1 = k := ⟨(attempts.val - 1).toNat, by omega⟩
  have hexp : (I64.near (attempts.val - 1)).val % 2 ^ 32 = k := by
    simp only [I64.near, hk]
    omega
  rw [retryDelay, if_neg (not_le.mpr hbase), hexp, hk, Int.toNat_natCast]
  dsimp only
  by_cases hsmall : k < 63
  · have hmin : (min (k : ℤ) 63).toNat = k := by omega
    have hpow : (2 : ℤ) ^ k ≤ 2 ^ 62 := pow_le_pow_right₀ (by norm_num) (by omega)
    have hpos : (0 : ℤ) < 2 ^ k := by positivity
    have hnear : (I64.near (2 ^ k)).val = 2 ^ k := by
      simp only [I64.near]
      omega
    have hmul : 0 ≤ base.val * 2 ^ k := mul_nonneg hbase.le hpos.le
    rw [hmin, hnear]
    simp only [I64.near]
    omega
  · have hmin : (min (k : ℤ) 63).toNat = 63 := by omega
    have hpow : (2 : ℤ) ^ 63 ≤ 2 ^ k := pow_le_pow_right₀ (by norm_num) (by omega)
    have hbig : 2 ^ 63 ≤ base.val * 2 ^ k :=
      hpow.trans (le_mul_of_one_le_left (by positivity) hbase)
    have hnear : (I64.near (2 ^ 63)).val = 2 ^ 63 - 1 := by decide
    have hmul : 2 ^ 63 - 1 ≤ base.val * (2 ^ 63 - 1) := le_mul_of_one_le_left (by norm_num) hbase
    rw [hmin, hnear]
    simp only [I64.near]
    omega

/-- In every run, once the retry of a delivery that failed as attempt `k` is accepted, no claim hands
the job out again before `base_backoff_s * 2 ^ (k - 1)` seconds have passed, or ever, where that is
past the largest 64-bit integer. The exponent is a `u32` in the code: from attempt `2 ^ 32 + 1` on it
starts over. -/
theorem outbox_backoff [DecidableEq ι] (next : String → ℤ → Except String ℤ) (o : Outbox)
    (parses : String → Bool) (before between : List (Act ι (Except String Unit))) {i : ι} {env : Call}
    {job : ClaimedJob} {delay : I64} {error : String}
    (hpre : (final (step next (o.runOnce parses)) (Sys.fresh ι) before).at_ i =
      .settling job (.retry delay error))
    (hout : (step next (o.runOnce parses) (final (step next (o.runOnce parses)) (Sys.fresh ι) before)
      (.settle i env none)).1 = some (.count 1))
    (hquiet : ∀ e ∈ trace (step next (o.runOnce parses)) (final (step next (o.runOnce parses))
      (Sys.fresh ι) (before ++ [.settle i env none])) between, ¬ HandsOut e job.id)
    {a : Act ι (Except String Unit)} {c : Call}
    (hreq : request (o.runOnce parses) (final (step next (o.runOnce parses)) (Sys.fresh ι)
      (before ++ [.settle i env none] ++ between)) a = some c)
    (hhands : HandsOut (event (step next (o.runOnce parses)) (final (step next (o.runOnce parses))
      (Sys.fresh ι) (before ++ [.settle i env none] ++ between)) a) job.id)
    (hattempts : job.attempts ≤ 2 ^ 32) :
    env.clk 0 + min (o.baseBackoffS.val * 2 ^ (job.attempts - 1).toNat) (2 ^ 63 - 1) ≤ c.clk 0 := by
  have horigin := (inv_run next (o.runOnce parses) before).origin i job _ hpre
  obtain ⟨hmem, rfl⟩ := failed_of_retry horigin
  have hone : 1 ≤ job.attempts := by
    refine ((single_run next (o.runOnce parses) job.id before).ended job.attempts ?_).1
    exact List.mem_map.mpr ⟨_, List.mem_filter.mpr ⟨hmem, by simp⟩, rfl⟩
  have hnear : (I64.near job.attempts).val = job.attempts := by
    simp only [I64.near]
    omega
  have hwait := retry_waits next (o.runOnce parses) before between
    (retryDelay_nonneg _ _) hpre hout hquiet hreq hhands
  refine le_trans ?_ hwait
  rcases le_or_gt o.baseBackoffS.val 0 with hbase | hbase
  · have hnone := mul_nonpos_of_nonpos_of_nonneg hbase
      (pow_nonneg (by norm_num : (0 : ℤ) ≤ 2) (job.attempts - 1).toNat)
    have hnonneg := retryDelay_nonneg o.baseBackoffS (.near job.attempts)
    omega
  · rw [retryDelay_eq hbase (by omega) (by omega), hnear]

/-- The job that the first claim of `secondTry` hands out. -/
def firstTry : ClaimedJob := ⟨1, "_outbox:o", "1", "w", 1, 160, 100⟩

theorem outbox_backoff_secondTry :
    let o : Outbox := ⟨"o", .near 60, 5, .near 5⟩
    (100 : ℤ) < 101 + min (o.baseBackoffS.val * 2 ^ (firstTry.attempts - 1).toNat) (2 ^ 63 - 1) ∧
      101 + min (o.baseBackoffS.val * 2 ^ (firstTry.attempts - 1).toNat) (2 ^ 63 - 1) ≤ (106 : ℤ) := by
  intro o
  let p := o.runOnce fun _ ↦ true
  let s : Sys Unit → _ → _ := step (fun _ u ↦ .ok (u + 1)) p
  let retry : Act Unit (Except String Unit) := .settle () (.at_ (.near 101) (.cancel 0)) none
  let claim : Act Unit (Except String Unit) := .claim () "w" false (.at_ (.near 106) (.cancel 0))
  have hpre : (final s (Sys.fresh Unit) (secondTry.take 3)).at_ () =
      .settling firstTry (.retry (.near 5) "refused") := by decide +kernel
  have hout : (s (final s (Sys.fresh Unit) (secondTry.take 3)) retry).1 = some (.count 1) := by
    decide +kernel
  have hidle : (final s (Sys.fresh Unit) (secondTry.take 3 ++ [retry] ++ [])).at_ () = .idle := by
    decide +kernel
  have hreq : request p (final s (Sys.fresh Unit) (secondTry.take 3 ++ [retry] ++ [])) claim =
      some (.at_ (.near 106) (.claimBatch "_outbox:o" "w" 1 (.near 60))) := by
    simp only [request, claim, hidle]
    rfl
  have hhands : HandsOut (event s (final s (Sys.fresh Unit) (secondTry.take 3 ++ [retry] ++ [])) claim)
      firstTry.id :=
    ⟨[⟨1, "_outbox:o", "1", "w", 2, 166, 106⟩], by decide +kernel, _, List.mem_cons_self, rfl⟩
  exact ⟨by decide, outbox_backoff _ o _ _ [] hpre hout (fun e he ↦ by cases he) hreq hhands
    (by decide)⟩

end Backoff

end Outbox

end Honker
