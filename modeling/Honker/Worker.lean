import Honker.Lease
import Honker.RowState

namespace Honker

open Relational Numeric Transition

/-- The calls that settle or cancel job `j`. -/
def Op.names (j : ℤ) : Op → Bool
  | .ack job _ | .ackFenced job _ _ | .retry job _ _ _ | .retryFenced job _ _ _ _ | .fail job _ _
  | .failFenced job _ _ _ | .cancel job | .cancelInQueue _ job => job = j
  | .ackBatch (some elems) _ => elems.any fun e ↦ e.head = some j
  | _ => false

section Guards

variable {c : Call} {r : LiveRow}

theorem Removes.names (h : Removes c r) : c.op.names r.id = true := by
  unfold Removes at h
  split at h
  case h_1 hop =>
    rw [hop]
    simp only [LiveRow.heldBy, Bool.and_eq_true, decide_eq_true_eq] at h
    simp [Op.names, h]
  case h_2 hop =>
    rw [hop]
    simp [Op.names, (tokenFor_iff.mp h).1]
  case h_3 elems worker hop =>
    rw [hop]
    simp only [AckElem.selects, Bool.and_eq_true, decide_eq_true_eq] at h
    simpa [Op.names] using h.1.1
  case h_4 hop =>
    rw [hop]
    simp [Op.names, h]
  case h_5 hop =>
    rw [hop]
    simp [Op.names, h.2]
  case h_6 => exact h.elim

theorem Buries.names {error : String} {diedAt : ℤ} (h : Buries c r error diedAt) :
    error = "expired" ∨ error = "max attempts exceeded" ∨ c.op.names r.id = true := by
  unfold Buries at h
  split at h
  case h_1 => exact h.2.imp And.left fun h ↦ Or.inl h.1
  case h_2 => exact Or.inl h.2.1
  case h_3 hop =>
    have hid := h.2.2.1
    simp only [LiveRow.processingFor, Bool.and_eq_true, decide_eq_true_eq] at hid
    simp [hop, Op.names, hid]
  case h_4 hop => simp [hop, Op.names, (tokenFor_iff.mp h.2.2.1).1]
  case h_5 hop =>
    have hid := h.2.2
    simp only [LiveRow.heldBy, Bool.and_eq_true, decide_eq_true_eq] at hid
    simp [hop, Op.names, hid]
  case h_6 hop => simp [hop, Op.names, (tokenFor_iff.mp h.2.2).1]
  case h_7 => exact h.elim

end Guards

namespace Worker

/-- What a worker settles on for a job it has claimed. -/
inductive Verdict
  | ack
  | retry (delay : I64) (error : String)
  | fail (error : String)
deriving DecidableEq

/-- `Job::ack`, `Job::retry` and `Job::fail`. -/
def Verdict.op (job : ClaimedJob) : Verdict → Op
  | .ack => .ack job.id job.workerId
  | .retry delay error => .retry job.id job.workerId delay error
  | .fail error => .fail job.id job.workerId error

/-- What a worker does with a job it has just claimed: run the handler on it, settle it at once, or
leave it to its visibility timeout. -/
inductive Screen
  | handle
  | settle (v : Verdict)
  | leave

/-- A worker loop on one queue. `O` is how a handler ends. `settle` and `raised` give the call that
follows the end of the handler, and the one that follows a call that raised; `none` stands for a
worker that gives the job up. -/
structure Policy (O : Type) where
  queue : String
  timeout : I64
  screen : Bool → ClaimedJob → Screen
  settle : ClaimedJob → O → Option Verdict
  raised : ClaimedJob → Verdict → String → Option Verdict

inductive Phase
  | idle
  | handling (job : ClaimedJob)
  | settling (job : ClaimedJob) (v : Verdict)
deriving DecidableEq

/-- The database with the workers `ι` of one queue. -/
structure Sys (ι : Type) where
  db : Db
  at_ : ι → Phase

def Sys.fresh (ι : Type) : Sys ι := ⟨.fresh, fun _ ↦ .idle⟩

/-- A call by anyone else, or a step of a worker. `env` gives the clock readings and the row order of
the step's own call; `stop` tells whether the worker was asked to stop meanwhile, `raises` whether the
transaction around the call raises before it does anything. -/
inductive Act (ι O : Type)
  | call (c : Call)
  | claim (i : ι) (worker : String) (stop : Bool) (env : Call)
  | ended (i : ι) (o : O)
  | settle (i : ι) (env : Call) (raises : Option String)
  | crash (i : ι)

section System

variable {ι O : Type} [DecidableEq ι] (next : String → ℤ → Except String ℤ) (p : Policy O)

/-- The call on the database that a step makes, if it makes one. -/
def request (s : Sys ι) : Act ι O → Option Call
  | .call c => some c
  | .claim i worker _ env =>
    match s.at_ i with
    | .idle => some { env with op := .claimBatch p.queue worker 1 p.timeout }
    | _ => none
  | .settle i env none =>
    match s.at_ i with
    | .settling job v => some { env with op := v.op job }
    | _ => none
  | _ => none

def Policy.take (stop : Bool) (job : ClaimedJob) : Phase :=
  match p.screen stop job with
  | .handle => .handling job
  | .settle v => .settling job v
  | .leave => .idle

def settlingOr (job : ClaimedJob) : Option Verdict → Phase
  | some v => .settling job v
  | none => .idle

/-- Where a worker stands after a step of its own that was answered `r`. -/
def Policy.move (r : Option Ret) (phase : Phase) : Act ι O → Phase
  | .claim _ _ stop _ =>
    match phase, r with
    | .idle, some (.jobs (job :: _)) => p.take stop job
    | _, _ => phase
  | .ended _ o =>
    match phase with
    | .handling job => settlingOr job (p.settle job o)
    | _ => phase
  | .settle _ _ raises =>
    match phase, raises with
    | .settling job v, some text => settlingOr job (p.raised job v text)
    | .settling _ _, none => .idle
    | _, _ => phase
  | .crash _ => .idle
  | .call _ => phase

def Act.worker : Act ι O → Option ι
  | .call _ => none
  | .claim i _ _ _ | .ended i _ | .settle i _ _ | .crash i => some i

def step (s : Sys ι) (a : Act ι O) : Option Ret × Sys ι :=
  let answer := (request p s a).map (exec next s.db)
  (answer.map Prod.fst,
    { db := (answer.map Prod.snd).getD s.db
      at_ := fun i ↦ if a.worker = some i then p.move (answer.map Prod.fst) (s.at_ i) a else s.at_ i })

end System

section History

variable {ι O : Type}

abbrev Moment (ι O : Type) := Transition.Event (Sys ι) (Act ι O) (Option Ret)

/-- The run of a handler that a step ends. -/
def handling (e : Moment ι O) : Option (ClaimedJob × O) :=
  match e.input with
  | .ended i o =>
    match e.pre.at_ i with
    | .handling job => some (job, o)
    | _ => none
  | _ => none

def handlings (h : List (Moment ι O)) : List (ClaimedJob × O) := h.filterMap handling

/-- The run of a handler that a step begins. -/
def beginning (p : Policy O) (e : Moment ι O) : Option ClaimedJob :=
  match e.input, e.output with
  | .claim i _ stop _, some (.jobs (job :: _)) =>
    match e.pre.at_ i, p.screen stop job with
    | .idle, .handle => some job
    | _, _ => none
  | _, _ => none

/-- The call for a verdict that a step raises, with the text that it raises. -/
def raising (e : Moment ι O) : Option (ClaimedJob × Verdict × String) :=
  match e.input with
  | .settle i _ (some text) =>
    match e.pre.at_ i with
    | .settling job v => some (job, v, text)
    | _ => none
  | _ => none

def raisings (h : List (Moment ι O)) : List (ClaimedJob × Verdict × String) := h.filterMap raising

/-- How a worker comes to a verdict on a job: at sight, after a run of the handler, or because the
call for an earlier verdict raised. -/
inductive Origin (p : Policy O) (h : List (Moment ι O)) (job : ClaimedJob) : Verdict → Prop
  | screened (stop : Bool) {v : Verdict} (screen : p.screen stop job = .settle v) : Origin p h job v
  | settled (o : O) {v : Verdict} (mem : (job, o) ∈ handlings h) (settle : p.settle job o = some v) :
      Origin p h job v
  | raised (text : String) {v v' : Verdict} (origin : Origin p h job v)
      (mem : (job, v, text) ∈ raisings h) (raise : p.raised job v text = some v') : Origin p h job v'

theorem Origin.append {p : Policy O} {h : List (Moment ι O)} {job : ClaimedJob} {v : Verdict}
    (ho : Origin p h job v) (h' : List (Moment ι O)) : Origin p (h ++ h') job v := by
  induction ho with
  | screened stop screen => exact .screened stop screen
  | settled o mem settle =>
    refine .settled o ?_ settle
    rw [handlings, List.filterMap_append]
    exact List.mem_append_left _ mem
  | raised text origin mem raise ih =>
    refine .raised text ih ?_ raise
    rw [raisings, List.filterMap_append]
    exact List.mem_append_left _ mem

/-- Nobody but the workers settles or cancels a job of their queue. -/
def Spares (queue : String) (s : Sys ι) : Act ι O → Prop
  | .call c => ∀ r ∈ s.db.live.rows, r.queue = queue → c.op.names r.id = false
  | _ => True

/-- A job in the hands of a worker is one that the database has issued, with the payload of its
row. -/
structure Known (db : Db) (job : ClaimedJob) : Prop where
  issued : job.id ≤ db.seq
  payload : ∀ r, db.live.find? job.id = some r → r.payload = job.payload

def Phase.job : Phase → Option ClaimedJob
  | .idle => none
  | .handling job => some job
  | .settling job _ => some job

structure Inv (p : Policy O) (h : List (Moment ι O)) (s : Sys ι) : Prop where
  ledger : Ledger s.db
  origin : ∀ i job v, s.at_ i = .settling job v → Origin p h job v
  known : ∀ i job, (s.at_ i).job = some job → Known s.db job
  handled : ∀ job o, (job, o) ∈ handlings h → Known s.db job

theorem handlings_snoc (h : List (Moment ι O)) (e : Moment ι O) :
    handlings (h ++ [e]) = handlings h ++ (handling e).toList := by
  rw [handlings, List.filterMap_append]
  cases he : handling e <;> simp [he, handlings]

theorem Inv.fresh (p : Policy O) : Inv p [] (Sys.fresh ι) where
  ledger := .fresh
  origin := by
    intro i job v h
    cases h
  known := by
    intro i job h
    cases h
  handled := by
    intro job o h
    cases h

/-- The calls on the database that a history has made. -/
def calls (p : Policy O) (h : List (Moment ι O)) : List Call := h.filterMap fun e ↦ request p e.pre e.input

theorem calls_snoc (p : Policy O) (h : List (Moment ι O)) (e : Moment ι O) :
    calls p (h ++ [e]) = calls p h ++ (request p e.pre e.input).toList := by
  rw [calls, List.filterMap_append]
  cases hreq : request p e.pre e.input <;> simp [hreq, calls]

/-- The attempts at job `j` that the handler has ended. -/
def attempted (h : List (Moment ι O)) (j : ℤ) : List ℤ :=
  ((handlings h).filter fun x ↦ x.1.id = j).map fun x ↦ x.1.attempts

/-- The attempts at job `j` that the handler has begun, whether it has ended them or not. -/
def begun (p : Policy O) (h : List (Moment ι O)) (j : ℤ) : List ℤ :=
  ((h.filterMap (beginning p)).filter fun job ↦ job.id = j).map ClaimedJob.attempts

theorem begun_snoc (p : Policy O) (h : List (Moment ι O)) (e : Moment ι O) (j : ℤ) :
    begun p (h ++ [e]) j = begun p h j ++ begun p [e] j := by
  simp [begun]

theorem attempted_snoc (h : List (Moment ι O)) (e : Moment ι O) (j : ℤ) :
    attempted (h ++ [e]) j = attempted h j ++ attempted [e] j := by
  simp [attempted, handlings]

/-- Where a job of the workers' queue ends up, told by its row `r` in some earlier state: it is still
there, or a worker acknowledged it, or it is dead, with the reason. -/
inductive Placed (p : Policy O) (h : List (Moment ι O)) (db : Db) (r : LiveRow) : Prop
  | live (r' : LiveRow) (find : db.live.find? r.id = some r') (payload : r'.payload = r.payload)
      (queue : r'.queue = p.queue)
  | acked (job : ClaimedJob) (gone : db.live.find? r.id = none) (issued : r.id ≤ db.seq)
      (id : job.id = r.id) (payload : job.payload = r.payload) (origin : Origin p h job .ack)
  | dead (d : DeadRow) (find : db.dead.find? r.id = some d) (payload : d.payload = r.payload)
      (reason : d.lastError = "expired" ∨ d.lastError = "max attempts exceeded" ∨
        ∃ job, job.id = r.id ∧ job.payload = r.payload ∧
          (Origin p h job (.fail d.lastError) ∨
            ∃ delay, Origin p h job (.retry delay d.lastError) ∧ d.maxAttempts ≤ d.attempts))

end History

section Leaving

variable {ι O : Type} {next : String → ℤ → Except String ℤ} {p : Policy O}
  {h : List (Moment ι O)} {s : Sys ι} {a : Act ι O}

theorem payload_step {e : Event} {r r' : LiveRow} (h : RowStep e r r') :
    r'.payload = r.payload ∧ r'.queue = r.queue := by
  cases h <;> exact ⟨rfl, rfl⟩

theorem Known.exec {db : Db} {job : ClaimedJob} (hk : Known db job) (c : Call) :
    Known (exec next db c).2 job where
  issued := hk.issued.trans (seq_mono next db c)
  payload := by
    intro r hr
    rcases row_step next db c hr with ⟨-, -, hmem⟩ | ⟨r₀, hr₀, hrow⟩
    · exact absurd hk.issued (not_le.mpr (mem_issued hmem).1)
    · rw [(payload_step hrow).1]
      exact hk.payload r₀ hr₀

theorem known_of_returned {db : Db} {c : Call} {job : ClaimedJob} (hl : Ledger db)
    (h : job ∈ returned (event (Honker.exec next) db c)) : Known (Honker.exec next db c).2 job := by
  have hmem : job ∈ returns (event (Honker.exec next) db c) job.id := List.mem_filter.mpr ⟨h, by simp⟩
  rcases return_step next db c job.id with ret | ⟨r, worker, timeout, job', pre, post, ret, row, -⟩
  · simp [ret] at hmem
  · rw [ret, List.mem_singleton] at hmem
    subst hmem
    obtain ⟨-, -, hpay, -⟩ := ofRow_ok row
    refine ⟨(hl.live _ _ pre).trans (seq_mono next db c), fun r' hr' ↦ ?_⟩
    cases hr'.symm.trans post
    exact hpay.symm

/-- The calls that take a job out of `_honker_live`, when nobody but the workers settles it. -/
theorem leaves {c : Call} {r : LiveRow} (hreq : request p s a = some c) (hspares : Spares p.queue s a)
    (hr : s.db.live.find? r.id = some r) (hqueue : r.queue = p.queue)
    (hgone : (exec next s.db c).2.live.find? r.id = none) :
    (∃ i job, s.at_ i = .settling job .ack ∧ job.id = r.id) ∨
      ∃ error diedAt, (exec next s.db c).2.dead.find? r.id = some (r.toDead error diedAt) ∧
        (error = "expired" ∨ error = "max attempts exceeded" ∨
          ∃ i job v, s.at_ i = .settling job v ∧ job.id = r.id ∧
            (v = .fail error ∨ ∃ delay, v = .retry delay error ∧ r.maxAttempts ≤ r.attempts)) := by
  -- Whoever names the job is a worker that settles it.
  have hworker (hnames : c.op.names r.id = true) :
      ∃ i job v, s.at_ i = .settling job v ∧ job.id = r.id ∧ c.op = v.op job := by
    cases a with
    | call c' =>
      cases hreq
      simp [hspares r (Table.find?_eq_some.mp hr).1 hqueue] at hnames
    | claim i worker stop env =>
      simp only [request] at hreq
      split at hreq
      · cases hreq
        cases hnames
      · cases hreq
    | ended i o => cases hreq
    | settle i env raises =>
      cases raises with
      | some text => cases hreq
      | none =>
        simp only [request] at hreq
        split at hreq
        case h_1 job v hpre =>
          cases hreq
          refine ⟨i, job, v, hpre, ?_, rfl⟩
          cases v <;> simpa [Verdict.op, Op.names] using hnames
        case h_2 => cases hreq
    | crash i => cases hreq
  rcases job_step next s.db c r.id with
    live | ⟨_, pre⟩ | ⟨_, _, post⟩ | ⟨_, _, _, _, _, post⟩ | ⟨_, _, _, post⟩ | ⟨_, _, _, post⟩ |
    ⟨r', pre, post, dead, ret, guard⟩ | ⟨r', error, diedAt, pre, post, free, dead, ret, guard⟩
  · exact absurd (hgone.symm.trans (live.trans hr)) (by simp)
  · exact absurd (pre.symm.trans hr) (by simp)
  · exact absurd (hgone.symm.trans post) (by simp)
  · exact absurd (hgone.symm.trans post) (by simp)
  · exact absurd (hgone.symm.trans post) (by simp)
  · exact absurd (hgone.symm.trans post) (by simp)
  · cases pre.symm.trans hr
    obtain ⟨i, job, v, hpre, hid, hop⟩ := hworker guard.names
    refine Or.inl ⟨i, job, ?_, hid⟩
    have hremoves : Removes c r := guard
    unfold Removes at hremoves
    rw [hop] at hremoves
    cases v with
    | ack => exact hpre
    | retry delay error => exact hremoves.elim
    | fail error => exact hremoves.elim
  · cases pre.symm.trans hr
    refine Or.inr ⟨error, diedAt, dead, ?_⟩
    rcases guard.names with hexpired | hspent | hnames
    · exact Or.inl hexpired
    · exact Or.inr (Or.inl hspent)
    · obtain ⟨i, job, v, hpre, hid, hop⟩ := hworker hnames
      refine Or.inr (Or.inr ⟨i, job, v, hpre, hid, ?_⟩)
      have hburies : Buries c r error diedAt := guard
      unfold Buries at hburies
      rw [hop] at hburies
      cases v with
      | ack => exact hburies.elim
      | retry delay text =>
        obtain ⟨-, rfl, -, hspent⟩ := hburies
        refine Or.inr ⟨delay, rfl, ?_⟩
        simpa [LiveRow.hasAttempts] using hspent
      | fail text =>
        obtain ⟨-, rfl, -⟩ := hburies
        exact Or.inl rfl

theorem Placed.append {db : Db} {r : LiveRow} (hp : Placed p h db r) (h' : List (Moment ι O)) :
    Placed p (h ++ h') db r := by
  cases hp with
  | live r' find payload queue => exact .live r' find payload queue
  | acked job gone issued id payload origin =>
    exact .acked job gone issued id payload (origin.append h')
  | dead d find payload reason =>
    refine .dead d find payload (reason.imp_right (Or.imp_right ?_))
    rintro ⟨job, hid, hpay, horigin⟩
    refine ⟨job, hid, hpay, horigin.imp (fun ho ↦ ho.append h') ?_⟩
    rintro ⟨delay, ho, hspent⟩
    exact ⟨delay, ho.append h', hspent⟩

theorem Placed.exec {c : Call} {r : LiveRow} (hinv : Inv p h s) (hp : Placed p h s.db r)
    (hreq : request p s a = some c) (hspares : Spares p.queue s a) :
    Placed p h (exec next s.db c).2 r := by
  cases hp with
  | live r' find payload queue =>
    have hid : r'.id = r.id := (Table.find?_eq_some.mp find).2
    cases hpost : (Honker.exec next s.db c).2.live.find? r.id with
    | some r'' =>
      rcases row_step next s.db c hpost with ⟨hnone, -⟩ | ⟨r₀, hr₀, hrow⟩
      · cases hnone.symm.trans find
      · cases hr₀.symm.trans find
        obtain ⟨hpay, hq⟩ := payload_step hrow
        exact .live r'' hpost (hpay.trans payload) (hq.trans queue)
    | none =>
      have hknown {i : ι} {job : ClaimedJob} (hpre : (s.at_ i).job = some job) (hjob : job.id = r'.id) :
          job.payload = r.payload := by
        rw [← payload]
        exact ((hinv.known i job hpre).payload r' (by rwa [hjob, hid])).symm
      rw [← hid] at find hpost
      rcases leaves hreq hspares find queue hpost with
        ⟨i, job, hpre, hjob⟩ | ⟨error, diedAt, hdead, hreason⟩
      · refine .acked job (hid ▸ hpost) ?_ (hjob.trans hid) (hknown (by rw [hpre]; rfl) hjob)
          (hinv.origin i job .ack hpre)
        exact (hinv.ledger.live _ _ (hid ▸ find)).trans (seq_mono next s.db c)
      · refine .dead (r'.toDead error diedAt) (hid ▸ hdead) payload
          (hreason.imp_right (Or.imp_right ?_))
        rintro ⟨i, job, v, hpre, hjob, hv⟩
        refine ⟨job, hjob.trans hid, hknown (by rw [hpre]; rfl) hjob, ?_⟩
        rcases hv with rfl | ⟨delay, rfl, hspent⟩
        · exact Or.inl (hinv.origin i job _ hpre)
        · exact Or.inr ⟨delay, hinv.origin i job _ hpre, hspent⟩
  | acked job gone issued id payload origin =>
    refine .acked job ?_ (issued.trans (seq_mono next s.db c)) id payload origin
    exact stays_out issued gone [c]
  | dead d find payload reason =>
    refine .dead d ?_ payload reason
    rcases dead_step next s.db c r.id with hsame | ⟨-, -, -, -, -, hfree, -⟩
    · rw [hsame]
      exact find
    · cases hfree.symm.trans find

end Leaving

section Step

variable {ι O : Type} [DecidableEq ι] {next : String → ℤ → Except String ℤ} {p : Policy O}
  {h : List (Moment ι O)} {s : Sys ι} {a : Act ι O}

/-- A step makes one call on the database or none. -/
theorem db_step (next : String → ℤ → Except String ℤ) (p : Policy O) (s : Sys ι) (a : Act ι O) :
    (request p s a = none ∧ (step next p s a).2.db = s.db ∧ (step next p s a).1 = none) ∨
      ∃ c, request p s a = some c ∧ (step next p s a).2.db = (exec next s.db c).2 ∧
        (step next p s a).1 = some (exec next s.db c).1 := by
  cases hreq : request p s a with
  | none => exact Or.inl ⟨rfl, by simp [step, hreq], by simp [step, hreq]⟩
  | some c => exact Or.inr ⟨c, rfl, by simp [step, hreq], by simp [step, hreq]⟩

/-- Everything a step can do to the phase of worker `i`. -/
inductive Moves (p : Policy O) (s : Sys ι) (a : Act ι O) (out : Option Ret) (i : ι) : Phase → Prop
  | kept : Moves p s a out i (s.at_ i)
  | idle : Moves p s a out i .idle
  | took (stop : Bool) (job : ClaimedJob) (rest : List ClaimedJob) (mine : a.worker = some i)
      (ret : out = some (.jobs (job :: rest))) : Moves p s a out i (p.take stop job)
  | ended (job : ClaimedJob) (o : O) (pre : s.at_ i = .handling job) (input : a = .ended i o) :
      Moves p s a out i (settlingOr job (p.settle job o))
  | raised (job : ClaimedJob) (v : Verdict) (env : Call) (text : String) (pre : s.at_ i = .settling job v)
      (input : a = .settle i env (some text)) : Moves p s a out i (settlingOr job (p.raised job v text))

theorem phase_step (next : String → ℤ → Except String ℤ) (p : Policy O) (s : Sys ι) (a : Act ι O)
    (i : ι) : Moves p s a (step next p s a).1 i ((step next p s a).2.at_ i) := by
  set out := (step next p s a).1
  have hat : (step next p s a).2.at_ i = if a.worker = some i then p.move out (s.at_ i) a else s.at_ i :=
    rfl
  rw [hat]
  split_ifs with hi
  · cases a with
    | call c => cases hi
    | claim k worker stop env =>
      unfold Policy.move
      dsimp only
      split
      case h_1 job rest hpre hout => exact .took stop job rest hi hout
      case h_2 => exact .kept
    | ended k o =>
      cases hi
      unfold Policy.move
      dsimp only
      split
      case h_1 job hpre => exact .ended job o hpre rfl
      case h_2 => exact .kept
    | settle k env raises =>
      cases hi
      unfold Policy.move
      dsimp only
      split
      case h_1 job v text hpre => exact .raised job v env text hpre rfl
      case h_2 => exact .idle
      case h_3 => exact .kept
    | crash k => exact .idle
  · exact .kept

theorem settlingOr_eq {job job' : ClaimedJob} {o : Option Verdict} {v : Verdict}
    (h : settlingOr job o = .settling job' v) : job' = job ∧ o = some v := by
  cases o with
  | none => cases h
  | some w =>
    cases h
    exact ⟨rfl, rfl⟩

theorem settlingOr_job {job job' : ClaimedJob} {o : Option Verdict}
    (h : (settlingOr job o).job = some job') : job' = job := by
  cases o with
  | none => cases h
  | some w => exact (Option.some.inj h).symm

theorem take_eq {stop : Bool} {job job' : ClaimedJob} {v : Verdict}
    (h : p.take stop job = .settling job' v) : job' = job ∧ p.screen stop job = .settle v := by
  unfold Policy.take at h
  split at h
  case h_1 => cases h
  case h_2 w hw =>
    cases h
    exact ⟨rfl, hw⟩
  case h_3 => cases h

theorem take_job {stop : Bool} {job job' : ClaimedJob} (h : (p.take stop job).job = some job') :
    job' = job := by
  unfold Policy.take at h
  split at h
  case h_1 => exact (Option.some.inj h).symm
  case h_2 => exact (Option.some.inj h).symm
  case h_3 => cases h

theorem handling_event {job : ClaimedJob} {o : O}
    (h : handling (event (step next p) s a) = some (job, o)) : ∃ i, s.at_ i = .handling job := by
  unfold handling at h
  split at h
  case h_1 i o' hinput =>
    split at h
    case h_1 job' hpre =>
      cases h
      exact ⟨i, hpre⟩
    case h_2 => cases h
  case h_2 => cases h

theorem Known.step {job : ClaimedJob} (hk : Known s.db job) (a : Act ι O) :
    Known (step next p s a).2.db job := by
  rcases db_step next p s a with ⟨-, hdb, -⟩ | ⟨c, -, hdb, -⟩
  · rwa [hdb]
  · rw [hdb]
    exact hk.exec c

theorem Inv.step (hinv : Inv p h s) (a : Act ι O) :
    Inv p (h ++ [event (step next p) s a]) (step next p s a).2 where
  ledger := by
    rcases db_step next p s a with ⟨-, hdb, -⟩ | ⟨c, -, hdb, -⟩
    · rw [hdb]
      exact hinv.ledger
    · rw [hdb]
      exact hinv.ledger.step c
  origin := by
    intro i job v hpost
    have hmove := phase_step next p s a i
    rw [hpost] at hmove
    generalize hphase : Phase.settling job v = phase at hmove
    cases hmove with
    | kept => exact (hinv.origin i job v hphase.symm).append _
    | idle => cases hphase
    | took stop job' rest mine ret =>
      obtain ⟨rfl, hscreen⟩ := take_eq hphase.symm
      exact .screened stop hscreen
    | ended job' o pre input =>
      obtain ⟨rfl, hsettle⟩ := settlingOr_eq hphase.symm
      refine .settled o ?_ hsettle
      rw [handlings_snoc]
      refine List.mem_append_right _ ?_
      simp [handling, event, input, pre]
    | raised job' w env text pre input =>
      obtain ⟨rfl, hraise⟩ := settlingOr_eq hphase.symm
      refine .raised text ((hinv.origin i job w pre).append _) ?_ hraise
      rw [raisings, List.filterMap_append]
      refine List.mem_append_right _ ?_
      simp [raising, event, input, pre]
  known := by
    intro i job hpost
    have hmove := phase_step next p s a i
    generalize (Worker.step next p s a).2.at_ i = phase at hmove hpost
    cases hmove with
    | kept => exact (hinv.known i job hpost).step a
    | idle => cases hpost
    | took stop job' rest mine ret =>
      obtain rfl := take_job hpost
      rcases db_step next p s a with ⟨-, -, hout⟩ | ⟨c, -, hdb, hout⟩
      · cases hout.symm.trans ret
      · rw [hdb]
        refine known_of_returned hinv.ledger ?_
        have hret : (exec next s.db c).1 = .jobs (job :: rest) := Option.some.inj (hout.symm.trans ret)
        simp [returned, event, hret]
    | ended job' o pre input =>
      obtain rfl := settlingOr_job hpost
      exact (hinv.known i job (by rw [pre]; rfl)).step a
    | raised job' w env text pre =>
      obtain rfl := settlingOr_job hpost
      exact (hinv.known i job (by rw [pre]; rfl)).step a
  handled := by
    intro job o hmem
    rw [handlings_snoc] at hmem
    rcases List.mem_append.mp hmem with hmem | hmem
    · exact (hinv.handled job o hmem).step a
    · obtain ⟨i, hpre⟩ := handling_event (Option.mem_toList.mp hmem)
      exact (hinv.known i job (by rw [hpre]; rfl)).step a

theorem inv_run (next : String → ℤ → Except String ℤ) (p : Policy O) (as : List (Act ι O)) :
    Inv p (trace (step next p) (Sys.fresh ι) as) (final (step next p) (Sys.fresh ι) as) :=
  history_induction (step next p) (Sys.fresh ι) (.fresh p) (fun _ _ a hinv ↦ hinv.step a) as

/-- The rows of the workers' queue that a history has seen. -/
def Seen (p : Policy O) (h : List (Moment ι O)) (r : LiveRow) : Prop :=
  ∃ e ∈ h, r ∈ e.post.db.live.rows ∧ r.queue = p.queue

/-- In every run in which nobody else settles or cancels the jobs of the workers' queue, each of its
jobs ends up where a worker's verdict or the housekeeping has put it. -/
theorem placed_run (next : String → ℤ → Except String ℤ) (p : Policy O) (as : List (Act ι O))
    (hspares : Along (step next p) (Spares p.queue) (Sys.fresh ι) as) {r : LiveRow}
    (hseen : Seen p (trace (step next p) (Sys.fresh ι) as) r) :
    Placed p (trace (step next p) (Sys.fresh ι) as) (final (step next p) (Sys.fresh ι) as).db r := by
  suffices hall : Inv p (trace (step next p) (Sys.fresh ι) as) (final (step next p) (Sys.fresh ι) as) ∧
      ∀ r, Seen p (trace (step next p) (Sys.fresh ι) as) r →
        Placed p (trace (step next p) (Sys.fresh ι) as) (final (step next p) (Sys.fresh ι) as).db r from
    hall.2 r hseen
  refine along_induction (step next p) (P := fun h s ↦ Inv p h s ∧ ∀ r, Seen p h r → Placed p h s.db r)
    (Sys.fresh ι) ⟨.fresh p, ?_⟩ ?_ as hspares
  · rintro r ⟨e, he, -⟩
    cases he
  · rintro h s a hspare ⟨hinv, hplaced⟩
    refine ⟨hinv.step a, ?_⟩
    rintro r ⟨e, he, hmem, hqueue⟩
    rcases List.mem_append.mp he with he | he
    · have hp := hplaced r ⟨e, he, hmem, hqueue⟩
      refine Placed.append ?_ _
      rcases db_step next p s a with ⟨-, hdb, -⟩ | ⟨c, hreq, hdb, -⟩
      · rwa [hdb]
      · rw [hdb]
        exact hp.exec hinv hreq hspare
    · obtain rfl := List.mem_singleton.mp he
      exact .live r (Table.find?_of_mem hmem) rfl hqueue

end Step

section Calls

variable {ι O : Type} [DecidableEq ι] {next : String → ℤ → Except String ℤ} {p : Policy O}
  {h : List (Moment ι O)} {s : Sys ι} {a : Act ι O}

/-- A run of the workers is a run of calls on the database. -/
theorem db_run (next : String → ℤ → Except String ℤ) (p : Policy O) (as : List (Act ι O)) :
    (final (step next p) (Sys.fresh ι) as).db =
      final (exec next) Db.fresh (calls p (trace (step next p) (Sys.fresh ι) as)) := by
  refine history_induction (P := fun h s ↦ s.db = final (exec next) Db.fresh (calls p h))
    (step next p) (Sys.fresh ι) rfl ?_ as
  intro h s a ih
  rw [calls_snoc, final_append, ← ih]
  rcases db_step next p s a with ⟨hreq, hdb, -⟩ | ⟨c, hreq, hdb, -⟩
  · rw [hdb]
    simp [event, hreq, final]
  · rw [hdb]
    simp [event, hreq, final]

/-- The claims of job `j` among the calls of a history. -/
def claimed (next : String → ℤ → Except String ℤ) (p : Policy O) (h : List (Moment ι O)) (j : ℤ) : ℕ :=
  (claimsOf (trace (exec next) Db.fresh (calls p h)) j).length

/-- No two runs of the handler on job `j` have the same attempt number, and all numbers come from the
`n` claims of the job so far. -/
structure Single (j : ℤ) (n : ℕ) (h : List (Moment ι O)) (s : Sys ι) : Prop where
  nodup : (attempted h j).Nodup
  ended : ∀ k ∈ attempted h j, 1 ≤ k ∧ k ≤ n
  running : ∀ i job, s.at_ i = .handling job → job.id = j →
    1 ≤ job.attempts ∧ job.attempts ≤ n ∧ job.attempts ∉ attempted h j
  apart : ∀ i k job job', s.at_ i = .handling job → s.at_ k = .handling job' → job.id = j →
    job'.id = j → job.attempts = job'.attempts → i = k

theorem claimed_snoc (as : List (Act ι O)) {c : Call} (j : ℤ)
    (hreq : request p (final (step next p) (Sys.fresh ι) as) a = some c) :
    claimed next p (trace (step next p) (Sys.fresh ι) (as ++ [a])) j =
      claimed next p (trace (step next p) (Sys.fresh ι) as) j +
        (returns (event (exec next) (final (step next p) (Sys.fresh ι) as).db c) j).length := by
  rw [trace_snoc, claimed, calls_snoc, event, hreq, Option.toList_some, trace_snoc, claimsOf_snoc,
    List.length_append, ← db_run next p as]
  rfl

theorem claimed_mono (next : String → ℤ → Except String ℤ) (p : Policy O) (as : List (Act ι O))
    (a : Act ι O) (j : ℤ) : claimed next p (trace (step next p) (Sys.fresh ι) as) j ≤
      claimed next p (trace (step next p) (Sys.fresh ι) (as ++ [a])) j := by
  cases hreq : request p (final (step next p) (Sys.fresh ι) as) a with
  | none =>
    rw [trace_snoc, claimed, claimed, calls_snoc, event, hreq, Option.toList_none, List.append_nil]
  | some c =>
    rw [claimed_snoc as j hreq]
    exact Nat.le_add_right _ _

/-- The job that a claim hands out carries the number of that claim. -/
theorem claimed_took (as : List (Act ι O)) {job : ClaimedJob} {rest : List ClaimedJob}
    (ret : (step next p (final (step next p) (Sys.fresh ι) as) a).1 = some (.jobs (job :: rest))) :
    job.attempts = (claimed next p (trace (step next p) (Sys.fresh ι) as) job.id : ℤ) + 1 ∧
      claimed next p (trace (step next p) (Sys.fresh ι) (as ++ [a])) job.id =
        claimed next p (trace (step next p) (Sys.fresh ι) as) job.id + 1 := by
  have hnum := numbered_run next (calls p (trace (step next p) (Sys.fresh ι) as))
  have hdb := db_run next p as
  rcases db_step next p (final (step next p) (Sys.fresh ι) as) a with ⟨-, -, hout⟩ | ⟨c, hreq, -, hout⟩
  · cases hout.symm.trans ret
  · have hret := Option.some.inj (hout.symm.trans ret)
    rw [claimed_snoc as job.id hreq]
    set db := (final (step next p) (Sys.fresh ι) as).db
    have hmem : job ∈ returns (event (exec next) db c) job.id := by
      simp [returns, returned, event, hret]
    rcases return_step next db c job.id with hnil | ⟨r, worker, timeout, job', pre, -, hone, row, -⟩
    · rw [hnil] at hmem
      cases hmem
    · rw [hone, List.mem_singleton] at hmem
      subst hmem
      have hatt : job.attempts = r.attempts + 1 := (ofRow_ok row).2.2.2.2.1
      rw [hdb] at pre
      exact ⟨by rw [hatt, hnum.row job.id r pre, claimed], by rw [hone]; rfl⟩

/-- The step that ends a run of the handler adds its attempt number. -/
theorem attempted_event {j k : ℤ} (hk : k ∈ attempted [event (step next p) s a] j) :
    ∃ i job, s.at_ i = .handling job ∧ job.id = j ∧ job.attempts = k ∧
      attempted [event (step next p) s a] j = [k] ∧
      ∀ job', (step next p s a).2.at_ i ≠ .handling job' := by
  cases hh : handling (event (step next p) s a) with
  | none => simp [attempted, handlings, hh] at hk
  | some x =>
    obtain ⟨job, o⟩ := x
    have hlist : attempted [event (step next p) s a] j = if job.id = j then [job.attempts] else [] := by
      by_cases hid : job.id = j <;> simp [attempted, handlings, hh, hid]
    rw [hlist] at hk ⊢
    split_ifs at hk ⊢ with hid
    · obtain rfl := List.mem_singleton.mp hk
      unfold handling at hh
      split at hh
      case h_1 i o' hinput =>
        split at hh
        case h_1 job' hpre =>
          cases hh
          have hat : s.at_ i = .handling job := hpre
          refine ⟨i, job, hat, hid, rfl, rfl, fun job' hpost ↦ ?_⟩
          obtain rfl : a = .ended i o := hinput
          have hmove : (step next p s (.ended i o)).2.at_ i = settlingOr job (p.settle job o) := by
            simp [step, Act.worker, Policy.move, hat]
          rw [hmove] at hpost
          cases hsettle : p.settle job o <;> simp [settlingOr, hsettle] at hpost
        case h_2 => cases hh
      case h_2 => cases hh
    · cases hk

theorem single_run (next : String → ℤ → Except String ℤ) (p : Policy O) (j : ℤ) (as : List (Act ι O)) :
    Single j (claimed next p (trace (step next p) (Sys.fresh ι) as) j)
      (trace (step next p) (Sys.fresh ι) as) (final (step next p) (Sys.fresh ι) as) := by
  induction as using List.reverseRecOn with
  | nil =>
    refine ⟨List.nodup_nil, ?_, ?_, ?_⟩
    · intro k hk
      cases hk
    · intro i job hpre
      cases hpre
    · intro i k job job' hpre
      cases hpre
  | append_singleton as a ih =>
    have hle := claimed_mono next p as a j
    have htook {job : ClaimedJob} {rest : List ClaimedJob}
        (ret : (step next p (final (step next p) (Sys.fresh ι) as) a).1 = some (.jobs (job :: rest))) :=
      claimed_took as ret
    rw [final_snoc]
    rw [trace_snoc] at hle htook ⊢
    set h := trace (step next p) (Sys.fresh ι) as
    set s := final (step next p) (Sys.fresh ι) as
    set e := event (step next p) s a
    -- A worker that runs the handler after the step ran it before, or has just claimed the job.
    have hrun {i : ι} {job : ClaimedJob} (hpost : (step next p s a).2.at_ i = .handling job)
        (hid : job.id = j) : s.at_ i = .handling job ∨
          a.worker = some i ∧ job.attempts = (claimed next p h j : ℤ) + 1 ∧
            claimed next p (h ++ [e]) j = claimed next p h j + 1 := by
      have hmove := phase_step next p s a i
      generalize hphase : (step next p s a).2.at_ i = phase at hmove
      rw [hpost] at hphase
      cases hmove with
      | kept => exact Or.inl hphase.symm
      | idle => cases hphase
      | took stop job' rest mine ret =>
        obtain rfl : job = job' := take_job (p := p) (by rw [← hphase]; rfl)
        subst hid
        exact Or.inr ⟨mine, htook ret⟩
      | ended job' o pre input => cases hs : p.settle job' o <;> simp [settlingOr, hs] at hphase
      | raised job' v env text pre => cases hs : p.raised job' v text <;> simp [settlingOr, hs] at hphase
    refine ⟨?_, ?_, ?_, ?_⟩
    · rw [attempted_snoc, List.nodup_append]
      refine ⟨ih.nodup, ?_, ?_⟩
      · cases hl : attempted [e] j with
        | nil => exact List.nodup_nil
        | cons k rest =>
          obtain ⟨-, -, -, -, -, hk, -⟩ := attempted_event (p := p) (a := a) (hl ▸ List.mem_cons_self)
          rw [hl] at hk
          cases hk
          exact List.nodup_singleton k
      · rintro k hk l hl rfl
        obtain ⟨i, job, hpre, hid, rfl, -⟩ := attempted_event hl
        exact (ih.running i job hpre hid).2.2 hk
    · intro k hk
      rw [attempted_snoc] at hk
      rcases List.mem_append.mp hk with hk | hk
      · have := ih.ended k hk
        omega
      · obtain ⟨i, job, hpre, hid, rfl, -⟩ := attempted_event hk
        have := ih.running i job hpre hid
        omega
    · intro i job hpost hid
      rcases hrun hpost hid with hpre | ⟨-, hatt, hn⟩
      · obtain ⟨hlo, hhi, hnew⟩ := ih.running i job hpre hid
        refine ⟨hlo, by omega, fun hmem ↦ ?_⟩
        rw [attempted_snoc] at hmem
        rcases List.mem_append.mp hmem with hmem | hmem
        · exact hnew hmem
        · obtain ⟨k, job', hpre', hid', hatt, -, hgone⟩ := attempted_event hmem
          obtain rfl := ih.apart i k job job' hpre hpre' hid hid' hatt.symm
          exact hgone job hpost
      · refine ⟨by omega, by omega, fun hmem ↦ ?_⟩
        rw [attempted_snoc] at hmem
        rcases List.mem_append.mp hmem with hmem | hmem
        · have := (ih.ended _ hmem).2
          omega
        · obtain ⟨k, job', hpre', hid', hatt', -⟩ := attempted_event hmem
          have := (ih.running k job' hpre' hid').2.1
          omega
    · intro i k job job' hi hk hid hid' hatt
      rcases hrun hi hid with hi | ⟨hi, hnew, -⟩ <;> rcases hrun hk hid' with hk | ⟨hk, hnew', -⟩
      · exact ih.apart i k job job' hi hk hid hid' hatt
      · have := (ih.running i job hi hid).2.1
        omega
      · have := (ih.running k job' hk hid').2.1
        omega
      · exact Option.some.inj (hi.symm.trans hk)

theorem budget_seen (next : String → ℤ → Except String ℤ) {calls : List Call} {r : LiveRow}
    (hr : (final (exec next) Db.fresh calls).live.find? r.id = some r) (later : List Call) :
    ((claimsOf (trace (exec next) Db.fresh (calls ++ later)) r.id).length : ℤ) ≤ r.maxAttempts := by
  have hacc := Account.run next calls
  obtain ⟨ev, hev, hissued⟩ := List.mem_flatMap.mp (hacc.known r.id (Or.inl (by rw [hr]; rfl)))
  obtain ⟨before, c, after, -, rfl⟩ := mem_trace (exec next) hev
  obtain ⟨-, -, ⟨r₀, hr₀⟩, -⟩ := mem_issued hissued
  rw [((numbered_run next calls).budget _ hev r.id hissued r₀ hr₀).2 r hr]
  refine ((numbered_run next (calls ++ later)).budget _ ?_ r.id hissued r₀ hr₀).1
  rw [trace_append]
  exact List.mem_append_left _ hev

/-- Attempts whose numbers come from the claims of a job, each with its own, are at most `max_attempts`. -/
theorem length_le_of_numbers (next : String → ℤ → Except String ℤ) (p : Policy O) (as : List (Act ι O))
    {r : LiveRow} (hseen : Seen p (trace (step next p) (Sys.fresh ι) as) r) {l : List ℤ} (hnodup : l.Nodup)
    (hnum : ∀ k ∈ l, 1 ≤ k ∧ k ≤ claimed next p (trace (step next p) (Sys.fresh ι) as) r.id) :
    (l.length : ℤ) ≤ r.maxAttempts := by
  have hsub : l ⊆ oneUpTo (claimed next p (trace (step next p) (Sys.fresh ι) as) r.id) := by
    intro k hk
    obtain ⟨hlo, hhi⟩ := hnum k hk
    exact List.mem_map.mpr ⟨(k - 1).toNat, List.mem_range.mpr (by omega), by omega⟩
  have hlen := (List.subperm_of_subset hnodup hsub).length_le
  rw [oneUpTo, List.length_map, List.length_range] at hlen
  refine (Int.ofNat_le.mpr hlen).trans ?_
  obtain ⟨e, he, hmem, -⟩ := hseen
  obtain ⟨bs, a, cs, rfl, rfl⟩ := mem_trace (step next p) he
  have hdb := db_run next p (bs ++ [a])
  rw [final_snoc] at hdb
  have hfind : (final (exec next) Db.fresh (calls p (trace (step next p) (Sys.fresh ι) (bs ++ [a])))).live.find?
      r.id = some r := by
    rw [← hdb]
    exact Table.find?_of_mem hmem
  have hsplit : calls p (trace (step next p) (Sys.fresh ι) (bs ++ a :: cs)) =
      calls p (trace (step next p) (Sys.fresh ι) (bs ++ [a])) ++
        calls p (trace (step next p) (final (step next p) (Sys.fresh ι) (bs ++ [a])) cs) := by
    rw [List.append_cons, trace_append, calls, List.filterMap_append]
    rfl
  rw [claimed, hsplit]
  exact budget_seen next hfind _

/-- In every run the handler ends at most `max_attempts` runs on a job, each with an attempt number of its
own. -/
theorem attempts_bounded (next : String → ℤ → Except String ℤ) (p : Policy O) (as : List (Act ι O))
    {r : LiveRow} (hseen : Seen p (trace (step next p) (Sys.fresh ι) as) r) :
    (attempted (trace (step next p) (Sys.fresh ι) as) r.id).Nodup ∧
      ((attempted (trace (step next p) (Sys.fresh ι) as) r.id).length : ℤ) ≤ r.maxAttempts := by
  have hsingle := single_run next p r.id as
  exact ⟨hsingle.nodup, length_le_of_numbers next p as hseen hsingle.nodup hsingle.ended⟩

/-- The step that begins a run of the handler is the claim that hands the job out. -/
theorem begun_event {j k : ℤ} (hk : k ∈ begun p [event (step next p) s a] j) :
    ∃ job rest, (step next p s a).1 = some (.jobs (job :: rest)) ∧ job.id = j ∧ job.attempts = k ∧
      begun p [event (step next p) s a] j = [k] := by
  cases hb : beginning p (event (step next p) s a) with
  | none => simp [begun, hb] at hk
  | some job =>
    have hlist : begun p [event (step next p) s a] j = if job.id = j then [job.attempts] else [] := by
      by_cases hid : job.id = j <;> simp [begun, hb, hid]
    rw [hlist] at hk ⊢
    split_ifs at hk ⊢ with hid
    · obtain rfl := List.mem_singleton.mp hk
      unfold beginning at hb
      split at hb
      case h_1 i worker stop env job' rest hinput hout =>
        split at hb
        case h_1 =>
          cases hb
          exact ⟨job, rest, hout, hid, rfl, rfl⟩
        case h_2 => cases hb
      case h_2 => cases hb
    · cases hk

/-- The runs of the handler on a job begin under the numbers of its claims, each under its own. -/
theorem begun_run (next : String → ℤ → Except String ℤ) (p : Policy O) (j : ℤ) (as : List (Act ι O)) :
    (begun p (trace (step next p) (Sys.fresh ι) as) j).Nodup ∧
      ∀ k ∈ begun p (trace (step next p) (Sys.fresh ι) as) j,
        1 ≤ k ∧ k ≤ claimed next p (trace (step next p) (Sys.fresh ι) as) j := by
  induction as using List.reverseRecOn with
  | nil => exact ⟨List.nodup_nil, fun k hk ↦ by cases hk⟩
  | append_singleton as a ih =>
    have hle := claimed_mono next p as a j
    have htook {job : ClaimedJob} {rest : List ClaimedJob}
        (ret : (step next p (final (step next p) (Sys.fresh ι) as) a).1 = some (.jobs (job :: rest))) :=
      claimed_took as ret
    rw [trace_snoc] at hle htook ⊢
    rw [begun_snoc]
    refine ⟨List.nodup_append.mpr ⟨ih.1, ?_, ?_⟩, ?_⟩
    · cases hl : begun p [event (step next p) (final (step next p) (Sys.fresh ι) as) a] j with
      | nil => exact List.nodup_nil
      | cons k rest =>
        obtain ⟨-, -, -, -, -, hone⟩ := begun_event (hl ▸ List.mem_cons_self)
        rw [hl] at hone
        rw [hone]
        exact List.nodup_singleton k
    · rintro k hk l hl rfl
      obtain ⟨job, rest, ret, rfl, rfl, -⟩ := begun_event hl
      have hnew := (htook ret).1
      have hold := (ih.2 _ hk).2
      omega
    · intro k hk
      rcases List.mem_append.mp hk with hk | hk
      · have hold := ih.2 k hk
        omega
      · obtain ⟨job, rest, ret, rfl, rfl, -⟩ := begun_event hk
        obtain ⟨hnew, hcount⟩ := htook ret
        omega

/-- In every run the handler begins at most `max_attempts` runs on a job, those included that a crash cuts
off, each with an attempt number of its own. -/
theorem beginnings_bounded (next : String → ℤ → Except String ℤ) (p : Policy O) (as : List (Act ι O))
    {r : LiveRow} (hseen : Seen p (trace (step next p) (Sys.fresh ι) as) r) :
    (begun p (trace (step next p) (Sys.fresh ι) as) r.id).Nodup ∧
      ((begun p (trace (step next p) (Sys.fresh ι) as) r.id).length : ℤ) ≤ r.maxAttempts := by
  obtain ⟨hnodup, hnum⟩ := begun_run next p r.id as
  exact ⟨hnodup, length_le_of_numbers next p as hseen hnodup hnum⟩

end Calls

section Waiting

variable {ι O : Type} [DecidableEq ι] {next : String → ℤ → Except String ℤ} {p : Policy O}
  {s : Sys ι} {a : Act ι O} {j : ℤ} {bound : ℤ}

/-- Job `j` is not under a claim and not due before `bound`. -/
structure Waiting (db : Db) (j bound : ℤ) : Prop where
  issued : j ≤ db.seq
  row : ∀ r, db.live.find? j = some r → r.state ≠ .processing ∧ bound ≤ r.runAt.val

theorem Waiting.exec {db : Db} (hw : Waiting db j bound) {c : Call}
    (hret : returns (event (exec next) db c) j = []) : Waiting (exec next db c).2 j bound where
  issued := hw.issued.trans (seq_mono next db c)
  row := by
    intro r' hr'
    rcases row_step next db c hr' with ⟨-, -, hmem⟩ | ⟨r, hr, hrow⟩
    · exact absurd hw.issued (not_le.mpr (mem_issued hmem).1)
    · obtain ⟨hstate, hdue⟩ := hw.row r hr
      have hid : r.id = j := (Table.find?_eq_some.mp hr).2
      cases hrow with
      | kept => exact ⟨hstate, hdue⟩
      | promoted => exact ⟨by simp [LiveRow.promoted], hdue⟩
      | claimed worker timeout job ret =>
        rw [hid, hret] at ret
        cases ret
      | extended extend ret guard => exact absurd guard.processing hstate
      | requeued delay ret guard => exact absurd guard.processing.1 hstate

theorem Waiting.due {db : Db} (hw : Waiting db j bound) {c : Call}
    (hret : returns (event (Honker.exec next) db c) j ≠ []) : bound ≤ c.clk 0 := by
  rcases return_step next db c j with hnil | ⟨r, worker, timeout, job, pre, -, -, -, guard⟩
  · exact absurd hnil hret
  · obtain ⟨hstate, hdue⟩ := hw.row r pre
    rcases guard.eligible.2.2 with ⟨-, hrun⟩ | ⟨hproc, -⟩
    · exact hdue.trans hrun
    · exact absurd hproc hstate

/-- An accepted retry leaves the job waiting for its delay, unless it was the last attempt. -/
theorem waiting_of_retry {db : Db} {c : Call} {worker error : String} {delay : I64} (hl : Ledger db)
    (hop : c.op = .retry j worker delay error) (hdelay : 0 ≤ delay.val)
    (hout : (Honker.exec next db c).1 = .count 1) :
    Waiting (Honker.exec next db c).2 j (min (c.clk 0 + delay.val) (2 ^ 63)) := by
  have hexec : Honker.exec next db c = (.ofCount (retryWith j worker delay error none c.clk db).1,
      (retryWith j worker delay error none c.clk db).2) := by
    simp only [Honker.exec, hop, retry]
  rcases retryWith_cases j worker delay error none c.clk db with
    ⟨r, hr, hg, ha, heq⟩ | ⟨r, db', hr, hg, ha, heq, hmoved⟩ | ⟨-, -, ⟨hzero, -⟩ | ⟨err, herr, -⟩⟩
  · refine ⟨(hl.live j r hr).trans (seq_mono next db c), fun r' hr' ↦ ?_⟩
    have hfind := Table.find?_update db.live
      (fun r ↦ retryGuard j worker none (c.clk 0) r && r.hasAttempts)
      (LiveRow.requeued delay (c.clk 0)) (LiveRow.id_requeued delay (c.clk 0)) j
    rw [hexec, heq] at hr'
    obtain rfl : r' = r.requeued delay (c.clk 0) := by
      have hsome := hr'.symm.trans hfind
      simpa [hr, hg, ha] using hsome
    refine ⟨by simp only [LiveRow.requeued]; split_ifs <;> simp, ?_⟩
    change min ((c.clk 0 : ℤ) + delay.val) (2 ^ 63) ≤ (add (c.clk 0) delay).val
    by_cases hrange : InRange ((c.clk 0 : ℤ) + delay.val)
    · rw [add_of_inRange hrange]
      exact min_le_left _ _
    · refine (min_le_right _ _).trans (le_val_add (c.clk 0).inRange delay.inRange ?_)
      have hpos := (c.clk 0).pos
      by_contra hlt
      exact hrange ⟨by omega, not_le.mp hlt⟩
  · refine ⟨(hl.live j r hr).trans (seq_mono next db c), fun r' hr' ↦ ?_⟩
    obtain ⟨hgone, -⟩ := hmoved.gone hr (by simp [hg, ha])
    rw [hexec, heq] at hr'
    cases hgone.symm.trans hr'
  · rw [hexec] at hout
    simp [hzero, Ret.ofCount] at hout
  · rw [hexec] at hout
    simp [herr, Ret.ofCount] at hout

/-- A step hands job `j` out. -/
def HandsOut (e : Moment ι O) (j : ℤ) : Prop :=
  ∃ jobs, e.output = some (.jobs jobs) ∧ ∃ job ∈ jobs, job.id = j

theorem handsOut_iff {c : Call} (hreq : request p s a = some c) :
    HandsOut (event (step next p) s a) j ↔ returns (event (Honker.exec next) s.db c) j ≠ [] := by
  have hout : (step next p s a).1 = some (Honker.exec next s.db c).1 := by simp [step, hreq]
  unfold HandsOut returns returned event
  dsimp only
  rw [hout]
  cases (Honker.exec next s.db c).1 <;> simp

theorem Waiting.step (hw : Waiting s.db j bound) (hout : ¬ HandsOut (event (step next p) s a) j) :
    Waiting (step next p s a).2.db j bound := by
  rcases db_step next p s a with ⟨-, hdb, -⟩ | ⟨c, hreq, hdb, -⟩
  · rwa [hdb]
  · rw [hdb]
    exact hw.exec (not_not.mp (mt (handsOut_iff hreq).mpr hout))

theorem Waiting.run (hw : Waiting s.db j bound) (as : List (Act ι O))
    (hout : ∀ e ∈ trace (Worker.step next p) s as, ¬ HandsOut e j) :
    Waiting (final (Worker.step next p) s as).db j bound := by
  induction as generalizing s with
  | nil => exact hw
  | cons a as ih =>
    refine ih (hw.step (hout _ List.mem_cons_self)) fun e he ↦ ?_
    exact hout e (List.mem_cons_of_mem _ he)

/-- In every run, a job whose retry was accepted is not handed out again before the delay is over. -/
theorem retry_waits (next : String → ℤ → Except String ℤ) (p : Policy O) (before between : List (Act ι O))
    {i : ι} {env : Call} {job : ClaimedJob} {delay : I64} {error : String} (hdelay : 0 ≤ delay.val)
    (hpre : (final (step next p) (Sys.fresh ι) before).at_ i = .settling job (.retry delay error))
    (hout : (step next p (final (step next p) (Sys.fresh ι) before) (.settle i env none)).1 =
      some (.count 1))
    (hquiet : ∀ e ∈ trace (step next p) (final (step next p) (Sys.fresh ι)
      (before ++ [.settle i env none])) between, ¬ HandsOut e job.id)
    {a : Act ι O} {c : Call}
    (hreq : request p (final (step next p) (Sys.fresh ι) (before ++ [.settle i env none] ++ between)) a =
      some c)
    (hhands : HandsOut (event (step next p) (final (step next p) (Sys.fresh ι)
      (before ++ [.settle i env none] ++ between)) a) job.id) :
    env.clk 0 + delay.val ≤ c.clk 0 := by
  set s := final (step next p) (Sys.fresh ι) before
  have hl : Ledger s.db := (inv_run next p before).ledger
  have hsettle : request p s (.settle i env none) = some { env with op := .retry job.id job.workerId delay error } := by
    simp [request, hpre, Verdict.op]
  have hw : Waiting (step next p s (.settle i env none)).2.db job.id
      (min (env.clk 0 + delay.val) (2 ^ 63)) := by
    rcases db_step next p s (.settle i env none) with ⟨hnone, -⟩ | ⟨c', hreq', hdb, hout'⟩
    · cases hnone.symm.trans hsettle
    · cases hreq'.symm.trans hsettle
      rw [hdb]
      exact waiting_of_retry hl rfl hdelay (Option.some.inj (hout'.symm.trans hout))
  rw [final_snoc] at hquiet
  have hrun := hw.run between hquiet
  rw [← final_snoc, ← final_append] at hrun
  have hdue := hrun.due ((handsOut_iff hreq).mp hhands)
  have hlt := (c.clk 0).lt
  omega

end Waiting

end Worker

end Honker
