import Honker.Catchup
import Honker.Zones

namespace Honker

open Relational Numeric Fallible Transition Replay

section Jobs

variable {next : String → ℤ → Except String ℤ} {now : Clock} {created : ℤ → Clock} {tickAt : ℤ}
  {faults : TickFaults} {db db' : Db}

/-- The row that a fire of `task` puts into `_honker_live`. -/
structure JobFor (task : Task) (f : Fire) (r : LiveRow) : Prop where
  name : f.name = task.name
  id : r.id = f.jobId
  queue : f.queue = task.queue ∧ r.queue = task.queue
  payload : r.payload = task.payload

theorem FiredAll.jobs {tasks : List Task} {fires : List Fire}
    (h : FiredAll next now created tickAt tasks db fires db') :
    ∃ rows, db'.live.rows = db.live.rows ++ rows ∧
      List.Forall₂ (fun f r ↦ ∃ task ∈ tasks, JobFor task f r) fires rows := by
  obtain ⟨rows, hrows, hjobs⟩ := h.rows
  refine ⟨rows, hrows, hjobs.imp fun f r hf ↦ ?_⟩
  obtain ⟨task, hmem, hname, hqueue, t, rfl⟩ := hf
  exact ⟨task, hmem, hname, rfl, ⟨hqueue, rfl⟩, rfl⟩

end Jobs

section Sorted

variable {next : String → ℤ → Except String ℤ} {now : Clock} {created : ℤ → Clock} {tickAt : ℤ}
  {faults : TickFaults} {db db' : Db}

/-- Every boundary of the schedule is strictly later than the time it is asked for. -/
def Strict (next : String → ℤ → Except String ℤ) (expr : String) : Prop :=
  ∀ u v, next expr u = .ok v → u < v

/-- The order of the array that a tick returns; `strict` are the tasks with a strict schedule. -/
def Precedes (strict : String → Prop) (a b : Fire) : Prop :=
  a.name < b.name ∨ a.name = b.name ∧ (strict a.name → a.fireAt < b.fireAt)

theorem FiredAll.names {tasks : List Task} {fires : List Fire}
    (h : FiredAll next now created tickAt tasks db fires db') :
    ∀ f ∈ fires, ∃ task ∈ tasks, f.name = task.name := by
  induction h with
  | nil => simp
  | @cons task tasks last fires rest db db₁ db' hloop hrest ih =>
    intro f hf
    rcases List.mem_append.mp hf with hf | hf
    · exact ⟨task, List.mem_cons_self, hloop.catchUp.2 f hf⟩
    · obtain ⟨other, hmem, hname⟩ := ih f hf
      exact ⟨other, List.mem_cons_of_mem task hmem, hname⟩

theorem FiredAll.sorted {strict : String → Prop} {tasks : List Task} {fires : List Fire}
    (hsorted : (tasks.map Task.name).Pairwise (· < ·))
    (hstrict : ∀ task ∈ tasks, strict task.name → Strict next task.cronExpr)
    (h : FiredAll next now created tickAt tasks db fires db') :
    fires.Pairwise (Precedes strict) := by
  induction h with
  | nil => exact .nil
  | @cons task tasks last fires rest db db₁ db' hloop hrest ih =>
    obtain ⟨hcatch, hnames⟩ := hloop.catchUp
    rw [List.map_cons, List.pairwise_cons] at hsorted
    refine List.pairwise_append.mpr ⟨?_, ih hsorted.2 (fun other hmem ↦
      hstrict other (List.mem_cons_of_mem task hmem)), fun a ha b hb ↦ ?_⟩
    · by_cases hs : strict task.name
      · have hup := (hcatch.increasing fun u _ ↦ hstrict task List.mem_cons_self hs u).2.2.1
        refine (List.pairwise_map.mp hup).imp_of_mem fun ha hb hlt ↦ ?_
        exact Or.inr ⟨(hnames _ ha).trans (hnames _ hb).symm, fun _ ↦ hlt⟩
      · refine List.pairwise_of_forall_mem_list fun a ha b hb ↦ ?_
        rw [Precedes, hnames a ha, hnames b hb]
        exact Or.inr ⟨rfl, fun h ↦ absurd h hs⟩
    · obtain ⟨other, hmem, hname⟩ := hrest.names b hb
      left
      rw [hnames a ha, hname]
      exact hsorted.1 _ (List.mem_map_of_mem hmem)

end Sorted

section Tick

variable {next : String → ℤ → Except String ℤ} {db : Db} {c : Call} {t : ℤ}

/-- A tick that fails changes nothing; one that succeeds enqueues one job for each element of the
array it returns, which is in order. -/
theorem tick_output (next : String → ℤ → Except String ℤ) (db : Db) (hop : c.op = .schedulerTick t) :
    (∃ err, exec next db c = (.error err, db)) ∨
      ∃ fires db', exec next db c = (.fires fires, db') ∧
        (∃ rows, db'.live.rows = db.live.rows ++ rows ∧
          List.Forall₂ (fun f r ↦ ∃ task ∈ db.tasks.rows, JobFor task f r) fires rows) ∧
        fires.Pairwise (Precedes fun k ↦ ∀ task, db.tasks.find? k = some task →
          Strict next task.cronExpr) := by
  rcases tick_cases next db hop with hfailed | ⟨fires, db', hexec, hfire⟩
  · exact Or.inl hfailed
  · refine Or.inr ⟨fires, db', hexec, ?_, ?_⟩
    · obtain ⟨rows, hrows, hjobs⟩ := hfire.jobs
      refine ⟨rows, hrows, hjobs.imp fun f r hf ↦ ?_⟩
      obtain ⟨task, hmem, hjob⟩ := hf
      exact ⟨task, (mem_tickDue.mp hmem).1, hjob⟩
    · refine hfire.sorted ?_ (fun task hmem hs ↦ ?_)
      · exact List.pairwise_map.mpr (orderBy_strict (tickDue_nodup t c.emitTasks db))
      · exact hs task (Table.find?_of_mem (mem_tickDue.mp hmem).1)

end Tick

section Run

/-- The times at which task `name` fired, over a history. -/
def fireTimes (name : String) (h : List Event) : List ℤ :=
  (h.flatMap (firings name)).map Firing.fireAt

/-- What a call must not do for the fire times of a task to go up: ask for a boundary that is not
later, or schedule the task anew before a time at which it has fired. -/
structure Forward (next : String → ℤ → Except String ℤ) (name : String) (past : List ℤ) (e : Event) :
    Prop where
  tick : ∀ t task, e.input.op = .schedulerTick t → e.pre.tasks.find? name = some task →
    task.enabled = true → ∀ u ∈ asks (next task.cronExpr) t schedulerMaxCatchupFires task.nextFireAt,
      ∀ v, next task.cronExpr u = .ok v → u < v
  start : ∀ expr, e.input.op.schedules name = some expr →
    (∀ v, next expr (e.input.clk 0) = .ok v → e.input.clk 0 < v) ∧ ∀ f ∈ past, f ≤ e.input.clk 0

structure Ascending (name : String) (h : List Event) (db : Db) : Prop where
  up : (fireTimes name h).Pairwise (· < ·)
  below : ∀ task, db.tasks.find? name = some task → ∀ f ∈ fireTimes name h, f < task.nextFireAt

variable {next : String → ℤ → Except String ℤ} {name : String} {db : Db} {h : List Event} {c : Call}

theorem fireTimes_snoc (name : String) (h : List Event) (e : Event) :
    fireTimes name (h ++ [e]) = fireTimes name h ++ (firings name e).map Firing.fireAt := by
  simp [fireTimes]

theorem firings_ticked {e : Event} {t : ℤ} {fires : List Fire} (hop : e.input.op = .schedulerTick t)
    (hout : e.output = .fires fires) :
    firings name e = stamped t 0 ((ofTask name fires).map Fire.fireAt) := by
  simp [firings, hop, hout]

theorem Ascending.step (ha : Ascending name h db)
    (hf : Forward next name (fireTimes name h) (event (exec next) db c)) :
    Ascending name (h ++ [event (exec next) db c]) (exec next db c).2 := by
  have hquiet (hnil : firings name (event (exec next) db c) = [])
      (hbelow : ∀ task, (exec next db c).2.tasks.find? name = some task →
        ∀ f ∈ fireTimes name h, f < task.nextFireAt) :
      Ascending name (h ++ [event (exec next) db c]) (exec next db c).2 := by
    have htimes : fireTimes name (h ++ [event (exec next) db c]) = fireTimes name h := by
      rw [fireTimes_snoc, hnil, List.map_nil, List.append_nil]
    constructor
    · rw [htimes]
      exact ha.up
    · rw [htimes]
      exact hbelow
  cases task_step next db c name with
  | kept fires same =>
    refine hquiet fires fun task htask f hpast ↦ ?_
    have hpost : (db.tasks.find? name).map Task.schedule = some task.schedule := by
      rw [← Option.map_some, ← htask]
      exact same.symm
    obtain ⟨old, hold, hsched⟩ := Option.map_eq_some_iff.mp hpost
    rw [← show old.nextFireAt = task.nextFireAt from congrArg Prod.snd hsched]
    exact ha.below old hold f hpast
  | scheduled expr task op fires post cron start =>
    refine hquiet fires fun task' htask' f hpast ↦ ?_
    cases post.symm.trans htask'
    obtain ⟨hlater, hclock⟩ := hf.start expr op
    exact lt_of_le_of_lt (hclock f hpast) (hlater _ start)
  | removed op fires post =>
    refine hquiet fires fun task htask ↦ ?_
    cases post.symm.trans htask
  | ticked t fires task last op out pre on replay post =>
    obtain ⟨htick, hle, hup, hbounds⟩ := replay.increasing (hf.tick t task op pre on)
    have htimes : fireTimes name (h ++ [event (exec next) db c]) =
        fireTimes name h ++ (ofTask name fires).map Fire.fireAt := by
      rw [fireTimes_snoc, firings_ticked op out, map_fireAt_stamped]
    have hbelow := ha.below task pre
    refine ⟨?_, fun task' htask' f hf' ↦ ?_⟩
    · rw [htimes]
      refine List.pairwise_append.mpr ⟨ha.up, hup, fun a ha' b hb ↦ ?_⟩
      have hlt := hbelow a ha'
      have hge := (hbounds b hb).1
      omega
    · cases post.symm.trans htask'
      rw [htimes, List.mem_append] at hf'
      rcases hf' with hf' | hf'
      · have hlt := hbelow f hf'
        exact lt_of_lt_of_le hlt hle
      · exact lt_of_le_of_lt (hbounds f hf').2 htick

/-- The fire times of a task go up along every run whose calls all look forward. -/
theorem Ascending.run (db : Db) (calls : List Call)
    (hf : ∀ before c after, calls = before ++ c :: after →
      Forward next name (fireTimes name (trace (exec next) db before))
        (event (exec next) (final (exec next) db before) c)) :
    Ascending name (trace (exec next) db calls) (final (exec next) db calls) := by
  induction calls using List.reverseRecOn with
  | nil => exact ⟨.nil, by simp [fireTimes, trace]⟩
  | append_singleton calls c ih =>
    rw [trace_snoc, final_snoc]
    refine (ih fun before c' after heq ↦ hf before c' (after ++ [c]) ?_).step (hf calls c [] rfl)
    rw [heq, List.append_assoc]
    rfl

/-- The ids of the jobs that the fires of task `name` enqueued. -/
def fireJobs (name : String) (e : Event) : List ℤ :=
  match e.input.op, e.output with
  | .schedulerTick _, .fires fires => (ofTask name fires).map Fire.jobId
  | _, _ => []

theorem fireJobs_sublist (name : String) (e : Event) : (fireJobs name e).Sublist (issued e) := by
  unfold fireJobs
  split
  · rename_i t fires hop hout
    simp only [issued, hop, hout]
    exact List.filter_sublist.map Fire.jobId
  · exact List.nil_sublist _

theorem issued_above (next : String → ℤ → Except String ℤ) (db : Db) (c : Call) :
    (issued (event (exec next) db c)).Pairwise (· < ·) ∧ db.seq ≤ (exec next db c).2.seq ∧
      ∀ j ∈ issued (event (exec next) db c), db.seq < j ∧ j ≤ (exec next db c).2.seq := by
  rcases exec_issued next db c with ⟨rows, henq, hids⟩ | ⟨hnil, hseq⟩
  · rw [hids]
    refine ⟨henq.ids, henq.seq, fun j hj ↦ ?_⟩
    obtain ⟨r, hr, rfl⟩ := List.mem_map.mp hj
    exact henq.above r hr
  · rw [hnil]
    exact ⟨.nil, hseq.ge, by simp⟩

theorem fireJobs_run (next : String → ℤ → Except String ℤ) (name : String) (db : Db)
    (calls : List Call) :
    ((trace (exec next) db calls).flatMap (fireJobs name)).Pairwise (· < ·) := by
  suffices h : ((trace (exec next) db calls).flatMap (fireJobs name)).Pairwise (· < ·) ∧
      ∀ j ∈ (trace (exec next) db calls).flatMap (fireJobs name),
        j ≤ (final (exec next) db calls).seq from
    h.1
  apply history_induction (P := fun h db ↦ (h.flatMap (fireJobs name)).Pairwise (· < ·) ∧
    ∀ j ∈ h.flatMap (fireJobs name), j ≤ db.seq) (exec next) db ⟨.nil, by simp⟩
  rintro h db c ⟨hup, hle⟩
  obtain ⟨hids, hseq, habove⟩ := issued_above next db c
  have hsub := fireJobs_sublist name (event (exec next) db c)
  rw [List.flatMap_append, List.flatMap_singleton]
  refine ⟨List.pairwise_append.mpr ⟨hup, hids.sublist hsub, fun i hi j hj ↦ ?_⟩, fun j hj ↦ ?_⟩
  · exact lt_of_le_of_lt (hle i hi) (habove j (hsub.subset hj)).1
  · rcases List.mem_append.mp hj with hj | hj
    · exact (hle j hj).trans hseq
    · exact (habove j (hsub.subset hj)).2

/-- A call that neither schedules task `name` anew nor removes it. -/
def Op.leaves (name : String) (op : Op) : Prop :=
  op.schedules name = none ∧ op ≠ .schedulerUnregister name

theorem linked_step {task : Task} (hop : c.op.leaves name) (hpre : db.tasks.find? name = some task) :
    ∃ task', (exec next db c).2.tasks.find? name = some task' ∧ task'.cronExpr = task.cronExpr ∧
      Linked (next task.cronExpr) schedulerMaxCatchupFires task.nextFireAt
        (firings name (event (exec next) db c)) task'.nextFireAt := by
  cases task_step next db c name with
  | kept fires same =>
    have hpost : ((exec next db c).2.tasks.find? name).map Task.schedule = some task.schedule := by
      rw [← Option.map_some, ← hpre]
      exact same
    obtain ⟨task', htask', hsched⟩ := Option.map_eq_some_iff.mp hpost
    refine ⟨task', htask', congrArg Prod.fst hsched, ?_⟩
    rw [fires]
    exact (congrArg Prod.snd hsched).symm
  | scheduled expr task' op => cases op.symm.trans hop.1
  | removed op => exact absurd op hop.2
  | ticked t fires task' last op out pre on replay post =>
    cases pre.symm.trans hpre
    refine ⟨_, post, rfl, ?_⟩
    rw [firings_ticked op out]
    exact replay.linked 0 (zero_add _) (Or.inl (by decide))

/-- Each fire of a task that is left alone leads to the next one. -/
theorem linked_run (next : String → ℤ → Except String ℤ) {task : Task}
    (hpre : db.tasks.find? name = some task) (calls : List Call)
    (hops : ∀ c ∈ calls, c.op.leaves name) :
    ∃ task', (final (exec next) db calls).tasks.find? name = some task' ∧
      task'.cronExpr = task.cronExpr ∧
      Linked (next task.cronExpr) schedulerMaxCatchupFires task.nextFireAt
        ((trace (exec next) db calls).flatMap (firings name)) task'.nextFireAt := by
  induction calls using List.reverseRecOn with
  | nil => exact ⟨task, hpre, rfl, rfl⟩
  | append_singleton calls c ih =>
    obtain ⟨mid, hmid, hcron, hlinked⟩ := ih fun c' hc' ↦ hops c' (by simp [hc'])
    obtain ⟨task', htask', hcron', hlinked'⟩ := linked_step (hops c (by simp)) hmid
    rw [trace_snoc, final_snoc, List.flatMap_append, List.flatMap_singleton]
    rw [hcron] at hcron' hlinked'
    exact ⟨task', htask', hcron', hlinked.append hlinked'⟩

theorem tick_after {t : ℤ} {fires : List Fire} {task : Task} (hop : c.op = .schedulerTick t)
    (hout : (exec next db c).1 = .fires fires) (hpre : db.tasks.find? name = some task)
    (hon : task.enabled = true)
    (hs : ∀ u ∈ asks (next task.cronExpr) t schedulerMaxCatchupFires task.nextFireAt,
      ∀ v, next task.cronExpr u = .ok v → u < v) :
    ∃ task', (exec next db c).2.tasks.find? name = some task' ∧ t < task'.nextFireAt := by
  cases task_step next db c name with
  | kept _ same late =>
    have hpost : ((exec next db c).2.tasks.find? name).map Task.schedule = some task.schedule := by
      rw [← Option.map_some, ← hpre]
      exact same
    obtain ⟨task', htask', hsched⟩ := Option.map_eq_some_iff.mp hpost
    refine ⟨task', htask', ?_⟩
    rw [show task'.nextFireAt = task.nextFireAt from congrArg Prod.snd hsched]
    exact late t fires task hop hout hpre hon
  | ticked t' fires' task' last op out pre on replay post =>
    cases op.symm.trans hop
    cases pre.symm.trans hpre
    exact ⟨_, post, (replay.increasing hs).1⟩
  | scheduled expr task' op => simp [event, hop, Op.schedules] at op
  | removed op => simp [event, hop] at op

end Run

section Once

/-- What a tick does, seen from task `name`. -/
inductive TickDone (next : String → ℤ → Except String ℤ) (name : String) (t : ℤ) (e : Event) : Prop
  | failed (err : SqlError) (out : e.output = .error err) (same : e.post = e.pre)
  | fired (fires : List Fire) (out : e.output = .fires fires)
      (enqueued : ∃ rows, e.post.live.rows = e.pre.live.rows ++ rows ∧
        List.Forall₂ (fun f r ↦ ∃ task ∈ e.pre.tasks.rows, JobFor task f r) fires rows)
      (sorted : fires.Pairwise (Precedes fun k ↦ ∀ task, e.pre.tasks.find? k = some task →
        Strict next task.cronExpr))
      (after : ∀ task, e.pre.tasks.find? name = some task → task.enabled = true →
        ∃ task', e.post.tasks.find? name = some task' ∧ t < task'.nextFireAt)

/-- The fires of task `name` over a history that starts with the row `task`. -/
structure FiresOnce (next : String → ℤ → Except String ℤ) (name : String) (task : Task)
    (h : List Event) : Prop where
  increasing : (fireTimes name h).Pairwise (· < ·)
  jobs : (h.flatMap (fireJobs name)).Pairwise (· < ·)
  first : ∀ a ∈ (h.flatMap (firings name)).head?, a.fireAt = task.nextFireAt
  chain : (h.flatMap (firings name)).IsChain
    fun a b ↦ Leads (next task.cronExpr) schedulerMaxCatchupFires a b.fireAt
  ticks : ∀ e ∈ h, ∀ t, e.input.op = .schedulerTick t → TickDone next name t e

/-- Interval schedules are strict everywhere, cron schedules where the offset never changes. -/
theorem strict_nextAfterUnix {tz : Cron.Zone} {expr : String}
    (h : (∃ n, Cron.ScheduleExpr.parse expr = .ok (.every n)) ∨ ∀ u v, tz.offset u = tz.offset v) :
    Strict (Cron.nextAfterUnix tz) expr := by
  intro u v hv
  rw [Cron.next_lt_iff (Cron.nextAfterUnix_ok.mp hv)]
  rcases h with ⟨n, hn⟩ | hconst
  · rintro ⟨sched, m, c, x, hcron, -⟩
    cases hn.symm.trans hcron
  · apply Cron.not_repeats_of_highest
    intro x hx
    rw [Cron.Zone.localTime, Cron.Zone.localTime, hconst x u]
    omega

/-- A task with a strict schedule fires every boundary once, whatever ticks, pauses and other calls
surround it, as long as it is not scheduled anew or removed. -/
theorem scheduler_fires_once (next : String → ℤ → Except String ℤ) (name : String) (db : Db)
    (task : Task) (htask : db.tasks.find? name = some task) (hstrict : Strict next task.cronExpr)
    (calls : List Call) (hops : ∀ c ∈ calls, c.op.leaves name) :
    FiresOnce next name task (trace (exec next) db calls) ∧
      ∀ (tz : Cron.Zone) (expr : String), (∃ n, Cron.ScheduleExpr.parse expr = .ok (.every n)) ∨
        (∀ u v, tz.offset u = tz.offset v) → Strict (Cron.nextAfterUnix tz) expr := by
  refine ⟨?_, fun tz expr h ↦ strict_nextAfterUnix h⟩
  obtain ⟨_, -, -, hlinked⟩ := linked_run next htask calls hops
  obtain ⟨hfirst, hchain⟩ := hlinked.chain
  have hrow (before : List Call) (c : Call) (after : List Call) (heq : calls = before ++ c :: after) :
      ∃ row, (final (exec next) db before).tasks.find? name = some row ∧
        row.cronExpr = task.cronExpr := by
    obtain ⟨row, hr, hcron, -⟩ := linked_run next htask before
      fun c' hc' ↦ hops c' (by simp [heq, hc'])
    exact ⟨row, hr, hcron⟩
  have hforward (before : List Call) (c : Call) (after : List Call)
      (heq : calls = before ++ c :: after) :
      Forward next name (fireTimes name (trace (exec next) db before))
        (event (exec next) (final (exec next) db before) c) := by
    refine ⟨fun t row _ hpre _ u _ v hv ↦ ?_, fun expr hexpr ↦ ?_⟩
    · obtain ⟨row', hr, hcron⟩ := hrow before c after heq
      cases hpre.symm.trans hr
      exact hstrict u v (hcron ▸ hv)
    · cases hexpr.symm.trans (hops c (by simp [heq])).1
  refine ⟨(Ascending.run db calls hforward).up, fireJobs_run next name db calls, hfirst, hchain, ?_⟩
  intro e he t hop
  obtain ⟨before, c, after, heq, rfl⟩ := mem_trace (exec next) he
  replace hop : c.op = .schedulerTick t := hop
  rcases tick_output next (final (exec next) db before) hop with
    ⟨err, herr⟩ | ⟨fires, db', hok, hjobs, hsorted⟩
  · exact .failed err (by simp [event, herr]) (by simp [event, herr])
  · have hout : (exec next (final (exec next) db before) c).1 = .fires fires := by rw [hok]
    refine .fired fires hout ?_ hsorted fun row hpre hon ↦ ?_
    · simpa [event, hok] using hjobs
    · exact tick_after hop hout hpre hon ((hforward before c after heq).tick t row hop hpre hon)

def everyTen : Task := ⟨"t", "q", "@every 10s", "p", 0, none, 110, true, 3⟩

def tickedDb : Db := upsertTask everyTen Db.fresh

/-- Ticks before, after and out of order, around a pause. -/
def tickCalls : List Call :=
  [.at_ (.near 100) (.schedulerTick 105),
   .at_ (.near 130) (.schedulerTick 130),
   .at_ (.near 131) (.schedulerPause "t"),
   .at_ (.near 200) (.schedulerTick 200),
   .at_ (.near 201) (.schedulerResume "t"),
   .at_ (.near 202) (.schedulerTick 125),
   .at_ (.near 203) (.schedulerTick 141)]

theorem scheduler_fires_once_paused :
    fireTimes "t" (trace (exec (Cron.nextAfterUnix Cron.eastern)) tickedDb tickCalls) =
      [110, 120, 130, 140] ∧
    FiresOnce (Cron.nextAfterUnix Cron.eastern) "t" everyTen
      (trace (exec (Cron.nextAfterUnix Cron.eastern)) tickedDb tickCalls) := by
  refine ⟨by decide +kernel, ?_⟩
  have hops : ∀ c ∈ tickCalls, c.op.leaves "t" := by
    simp [tickCalls, Call.at_, Op.leaves, Op.schedules]
  exact (scheduler_fires_once (Cron.nextAfterUnix Cron.eastern) "t" tickedDb everyTen (by decide)
    (strict_nextAfterUnix (Or.inl ⟨10, by decide⟩)) tickCalls hops).1

end Once

end Honker
