import Honker.Leader
import Honker.Library.Wakeup
import Honker.Watcher

namespace Honker

open Relational Numeric Transition Wakeup

/-- `scheduler_soonest`. -/
def schedulerSoonest (db : Db) : ℤ :=
  ((db.tasks.rows.filter Task.enabled).map Task.nextFireAt).min?.getD 0

theorem schedulerSoonest_le {db : Db} {task : Task} (h : task ∈ db.tasks.rows) (hon : task.enabled = true) :
    schedulerSoonest db ≤ task.nextFireAt := by
  have hmem : task.nextFireAt ∈ (db.tasks.rows.filter Task.enabled).map Task.nextFireAt :=
    List.mem_map_of_mem (List.mem_filter.mpr ⟨h, hon⟩)
  unfold schedulerSoonest
  cases hmin : ((db.tasks.rows.filter Task.enabled).map Task.nextFireAt).min? with
  | none =>
    rw [List.min?_eq_none_iff.mp hmin] at hmem
    cases hmem
  | some m => exact (List.min?_eq_some_iff.mp hmin).2 _ hmem

theorem schedulerSoonest_mem {db : Db} {task : Task} (h : task ∈ db.tasks.rows) (hon : task.enabled = true) :
    ∃ first ∈ db.tasks.rows, first.enabled = true ∧ first.nextFireAt = schedulerSoonest db := by
  have hmem : task.nextFireAt ∈ (db.tasks.rows.filter Task.enabled).map Task.nextFireAt :=
    List.mem_map_of_mem (List.mem_filter.mpr ⟨h, hon⟩)
  unfold schedulerSoonest
  cases hmin : ((db.tasks.rows.filter Task.enabled).map Task.nextFireAt).min? with
  | none =>
    rw [List.min?_eq_none_iff.mp hmin] at hmem
    cases hmem
  | some m =>
    obtain ⟨first, hfirst, rfl⟩ := List.mem_map.mp (List.min?_eq_some_iff.mp hmin).1
    exact ⟨first, (List.mem_filter.mp hfirst).1, (List.mem_filter.mp hfirst).2, rfl⟩

namespace SchedulerSleep

open Leader (lockName Phase)

/-- Where a scheduler stands between its subscription and its unsubscription. -/
inductive Joined
  | absent
  | registering (id : ℕ)
  | running
  | gone
deriving DecidableEq

/-- Where a scheduler stands in a wait of `run` or `leader_loop`: it is not in a `recv_timeout`, but for
that of a standby; it is in the `recv_timeout` of a leader, with the soonest boundary that it was told
and the clock reading that followed; or it empties its channel after a message. -/
inductive Nap
  | awake
  | asleep (soonest : ℤ) (wall : Clock)
  | draining
deriving DecidableEq

/-- The reading of the clock at which the timer of a leader's wait ends, if that is not the heartbeat's. -/
def sleepsUntil (soonest : ℤ) (wall : Clock) : Option ℤ :=
  if 0 < soonest then some (max wall.secs soonest) else none

/-- The subscription and the wait of a scheduler, with the database that it last looked at. -/
structure Sleeper where
  joined : Joined
  subId : ℕ
  chan : ℕ
  nap : Nap
  look : Look (LockTable × Db)

def Sleeper.absent : Sleeper := ⟨.absent, 0, 0, .awake, (Board.new (.empty, .fresh)).look⟩

/-- The schedulers of `Leader.Sys` over the watcher's hub. -/
structure Sys (ι κ : Type) where
  base : Leader.Sys ι κ
  board : Board (LockTable × Db)
  hub : Hub
  sleepers : ι → Sleeper

def Sys.new (ι κ : Type) : Sys ι κ := ⟨.fresh ι κ, .new (.empty, .fresh), .new, fun _ ↦ .absent⟩

/-- A step of the schedulers' loops that is no wait, or of another client; a call of the watcher's
`on_change`, or its end; a step of a scheduler's subscription; `soonest` with the reading of the clock
after it; a receive; or the unsubscription. -/
inductive Act (ι κ : Type)
  | leader (a : Leader.Act ι κ)
  | onChange
  | clear
  | subscribe (i : ι)
  | insert (i : ι)
  | soonest (i : ι) (ok : Bool) (wall : Clock)
  | recv (i : ι) (timedOut : Bool)
  | unsubscribe (i : ι)

section System

variable {ι κ : Type} [DecidableEq ι] [DecidableEq κ] (next : String → ℤ → Except String ℤ)
  (owner : ι → String)

def Sys.set (s : Sys ι κ) (i : ι) (w : Sleeper) : Sys ι κ :=
  { s with sleepers := Function.update s.sleepers i w }

/-- A step of the loops with what it commits. -/
def Sys.does (s : Sys ι κ) (now : Clock) (a : Leader.Act ι κ) : Sys ι κ :=
  let base := (Leader.step next owner s.base (now, a)).2
  { s with base := base, board := s.board.put (base.lock.locks, base.db) }

/-- A scheduler looks at the lock table that the `INSERT` of its acquire leaves. -/
def lookAfter (pc : Acquiring) (old new : Look (LockTable × Db)) : Look (LockTable × Db) :=
  match pc with
  | .inserting _ _ _ _ => new
  | _ => old

def Sys.moves (s : Sys ι κ) (now : Clock) (i : ι) (a : Leader.Act ι κ) : Sys ι κ :=
  let s' := s.does next owner now a
  s'.set i { s.sleepers i with
    look := lookAfter (s.base.lock.pc (.inl i)) (s.sleepers i).look s'.board.look }

/-- The step that ends a scheduler's wait. -/
def wakes (phase : Phase) (i : ι) (connected : Bool) : Leader.Act ι κ :=
  match phase with
  | .waiting => .wake i connected
  | _ => .rest i true connected

/-- The end of a wait, after which the loop goes round again. -/
def Sys.rouse (s : Sys ι κ) (now : Clock) (i : ι) (a : Leader.Act ι κ) : Sys ι κ :=
  let s' := s.does next owner now a
  s'.set i { s.sleepers i with nap := .awake, look := s'.board.look }

/-- A receive of a scheduler that waits, or that empties its channel. -/
def recv (s : Sys ι κ) (now : Clock) (i : ι) (timedOut : Bool) : Sys ι κ :=
  let w := s.sleepers i
  match s.base.at_ i, w.nap with
  | phase, .draining =>
    if (s.hub.chan w.chan).tick then { s with hub := s.hub.takeTick w.chan }
    else s.rouse next owner now i (wakes phase i true)
  | .waiting, .awake | .resting _, .asleep _ _ =>
    if (s.hub.chan w.chan).tick then
      { s with hub := s.hub.takeTick w.chan }.set i { w with nap := .draining }
    else if ¬ s.hub.Connected w.chan then s.rouse next owner now i (wakes (s.base.at_ i) i false)
    else if timedOut then s.rouse next owner now i (wakes (s.base.at_ i) i true)
    else s
  | _, _ => s

def step (s : Sys ι κ) (x : Clock × Act ι κ) : Sys ι κ :=
  match x.2 with
  | .leader (.wake _ _) | .leader (.rest _ _ _) => s
  | .leader (.crash i) =>
    if (s.sleepers i).joined = .running then
      { s.does next owner x.1 (.crash i) with hub := s.hub.dropReceiver (s.sleepers i).chan }.set i
        { s.sleepers i with joined := .gone, nap := .awake }
    else s
  | .leader a =>
    match a.scheduler with
    | none => s.does next owner x.1 a
    | some i =>
      if (s.sleepers i).joined = .running ∧ (s.sleepers i).nap = .awake then s.moves next owner x.1 i a
      else s
  | .onChange => { s with hub := s.hub.onChange, board := s.board.announce }
  | .clear => { s with hub := s.hub.clear }
  | .subscribe i =>
    match (s.sleepers i).joined with
    | .absent =>
      { s with hub := s.hub.fetchAdd.2 }.set i { s.sleepers i with joined := .registering s.hub.fetchAdd.1 }
    | _ => s
  | .insert i =>
    match (s.sleepers i).joined with
    | .registering id =>
      { s with hub := s.hub.insert id }.set i
        { s.sleepers i with joined := .running, subId := id, chan := s.hub.made, look := s.board.look }
    | _ => s
  | .soonest i ok wall =>
    match s.base.at_ i, (s.sleepers i).joined, (s.sleepers i).nap with
    | .resting _, .running, .awake =>
      if ok then
        s.set i { s.sleepers i with nap := .asleep (schedulerSoonest s.base.db) wall, look := s.board.look }
      else s.rouse next owner x.1 i (.rest i false true)
    | _, _, _ => s
  | .recv i timedOut =>
    if (s.sleepers i).joined = .running then recv next owner s x.1 i timedOut else s
  | .unsubscribe i =>
    match s.base.at_ i, (s.sleepers i).joined with
    | .done, .running =>
      { s with hub := (s.hub.unsubscribe (s.sleepers i).subId).dropReceiver (s.sleepers i).chan }.set i
        { s.sleepers i with joined := .gone }
    | _, _ => s

end System

section Base

variable {ι κ : Type} [DecidableEq ι] [DecidableEq κ] {next : String → ℤ → Except String ℤ}
  {owner : ι → String} {s : Leader.Sys ι κ} {now : Clock} {a : Leader.Act ι κ} {i : ι}

omit [DecidableEq ι] [DecidableEq κ] in
theorem not_waiting_of_leads {phase : Phase} (h : phase.leads = true) : phase ≠ .waiting := by
  rintro rfl
  cases h

variable (next owner s now)

/-- A step of a scheduler that is none of its acquire. -/
theorem loop_step (ha : a.scheduler = some i) (hacq : ∀ ok, a ≠ .acquire i ok) :
    (Leader.step next owner s (now, a)).2.lock.pc = s.lock.pc ∧
      ((Leader.step next owner s (now, a)).2.at_ i = s.at_ i ∨
        (Leader.step next owner s (now, a)).2.at_ i ≠ .waiting ∧
          ((Leader.step next owner s (now, a)).2.at_ i = .done ∨ s.at_ i ≠ .standby ∧ s.at_ i ≠ .done)) := by
  have hstep : (Leader.step next owner s (now, a)).2.at_ i = Leader.move s now
      ((Leader.stmt owner s now a).map fun b ↦ (lockStep s.lock b).1)
      ((Leader.request s a).map fun c ↦ (exec next s.db c).1) i a := by
    simp only [Leader.step, if_pos ha, Option.map_map]
    rfl
  rw [hstep, Leader.lock_step]
  cases a with
  | lock c => cases ha
  | call c => cases ha
  | stop k => cases ha
  | acquire k ok =>
    cases ha
    exact absurd rfl (hacq ok)
  | wake k connected =>
    cases ha
    refine ⟨rfl, ?_⟩
    cases hat : s.at_ i with
    | waiting => cases connected <;> simp [Leader.move, hat]
    | _ => exact Or.inl (by simp [Leader.move, hat])
  | renew k ok =>
    cases ha
    cases hat : s.at_ i with
    | leading =>
      refine ⟨?_, Or.inr ⟨?_, Or.inr ⟨by simp, by simp⟩⟩⟩
      · simp only [Leader.stmt, hat]
        split_ifs <;> rfl
      · refine not_waiting_of_leads ?_
        simp only [Leader.move, hat]
        split_ifs
        · rfl
        · exact Leader.leads_afterRenew now _
        · rfl
    | _ => exact ⟨by simp [Leader.stmt, hat], Or.inl (by simp [Leader.move, hat])⟩
  | tick k tickAt env =>
    cases ha
    refine ⟨rfl, ?_⟩
    cases hat : s.at_ i with
    | ticking renewed =>
      refine Or.inr ⟨not_waiting_of_leads ?_, Or.inr ⟨by simp, by simp⟩⟩
      simp only [Leader.move, hat]
      exact Leader.leads_afterTick renewed _
    | _ => exact Or.inl (by simp [Leader.move, hat])
  | rest k ok connected =>
    cases ha
    refine ⟨rfl, ?_⟩
    cases hat : s.at_ i with
    | resting renewed => cases ok <;> cases connected <;> simp [Leader.move, hat]
    | _ => exact Or.inl (by simp [Leader.move, hat])
  | release k ok =>
    cases ha
    cases hat : s.at_ i with
    | leaving ended =>
      refine ⟨?_, Or.inr ⟨?_, Or.inr ⟨by simp, by simp⟩⟩⟩
      · simp only [Leader.stmt, hat]
        split_ifs <;> rfl
      · cases ended <;> simp [Leader.move, hat]
    | _ => exact ⟨by simp [Leader.stmt, hat], Or.inl (by simp [Leader.move, hat])⟩
  | crash k => exact ⟨rfl, Or.inr ⟨by simp [Leader.move], Or.inl (by simp [Leader.move])⟩⟩

/-- A step of an acquire: it is not at it, the loop ends, or it makes its next statement. -/
theorem acquire_cases (i : ι) (ok : Bool) :
    let s' := (Leader.step next owner s (now, .acquire i ok)).2
    (s.at_ i ≠ .standby ∧ s'.at_ i = s.at_ i ∧ s'.lock.pc (.inl i) = s.lock.pc (.inl i)) ∨
      (s'.at_ i = .done ∧ (s'.lock.pc (.inl i) = s.lock.pc (.inl i) ∨ s'.lock.pc (.inl i) = .idle)) ∨
        (s.at_ i = .standby ∧ s'.lock = (lockStep s.lock (Leader.acquireStmt owner s i now)).2 ∧
          s'.at_ i = Leader.afterAcquire (some (lockStep s.lock (Leader.acquireStmt owner s i now)).1)) := by
  intro s'
  by_cases hat : s.at_ i = .standby
  case neg =>
    have hstmt : Leader.stmt owner s now (.acquire i ok) = none := by
      simp only [Leader.stmt]
    have hlock : s'.lock = s.lock := by
      rw [show s' = _ from rfl, Leader.lock_step, hstmt]
      rfl
    refine Or.inl ⟨hat, ?_, by rw [hlock]⟩
    simp [s', Leader.step, Leader.Act.scheduler, Leader.move]
  case pos =>
    cases hstop : Leader.stopsHere s i with
    | true =>
      have hstmt : Leader.stmt owner s now (.acquire i ok) = none := by
        simp [Leader.stmt, hat, hstop]
      have hlock : s'.lock = s.lock := by
        rw [show s' = _ from rfl, Leader.lock_step, hstmt]
        rfl
      refine Or.inr (Or.inl ⟨?_, Or.inl (by rw [hlock])⟩)
      simp [s', Leader.step, Leader.Act.scheduler, Leader.move, hat, hstop]
    | false =>
      cases ok with
      | true => exact Or.inr (Or.inr ⟨hat, Leader.acquire_step owner next now hat hstop⟩)
      | false =>
        have hstmt : Leader.stmt owner s now (.acquire i false) = some (.abort (.inl i) now) := by
          simp [Leader.stmt, hat, hstop]
        refine Or.inr (Or.inl ⟨?_, Or.inr ?_⟩)
        · simp [s', Leader.step, Leader.Act.scheduler, Leader.move, hat]
        · rw [show s' = _ from rfl, Leader.lock_step, hstmt]
          simp [lockStep]

end Base

section Sleeper

/-- The scheduler has subscribed. -/
def Joined.started : Joined → Bool
  | .running | .gone => true
  | _ => false

/-- What a scheduler that waits knows: it will be told of every change since it looked; a standby has left
a row for the lock, and found it in another's name; and a leader was told the soonest boundary of the
tasks that it looked at. -/
structure SleeperInv (who : String) (b : Board (LockTable × Db)) (hub : Hub) (phase : Phase) (pc : Acquiring)
    (w : Sleeper) : Prop where
  channel : w.joined = .running → w.chan < hub.made ∧ (hub.chan w.chan).alive = true
  look : w.joined = .running → w.nap ≠ .draining → w.look.Guarded b (hub.Ready w.chan)
  fresh : w.joined.started = false → phase = .standby ∧ pc = .idle ∧ w.nap = .awake
  target : ∀ x, pc.target = some x → x = (lockName, who)
  acquiring : pc ≠ .idle → phase = .standby ∨ phase = .done
  selecting : phase = .standby → ∀ name o t, pc = .selecting name o t →
    (w.look.found.1.find? lockName).isSome
  waiting : w.joined = .running → phase = .waiting → w.nap = .awake → w.look.seen = b.changes →
    ∃ row, w.look.found.1.find? lockName = some row ∧ row.owner ≠ who
  asleep : ∀ v wall, w.nap = .asleep v wall → v = schedulerSoonest w.look.found.2
  napping : w.nap ≠ .awake → phase ≠ .standby

variable {who : String} {b : Board (LockTable × Db)} {hub hub' : Hub} {phase : Phase} {pc : Acquiring}
  {w : Sleeper}

theorem SleeperInv.put (h : SleeperInv who b hub phase pc w) (x : LockTable × Db) :
    SleeperInv who (b.put x) hub phase pc w where
  channel := h.channel
  look hr hn := (h.look hr hn).put x
  fresh := h.fresh
  target := h.target
  acquiring := h.acquiring
  selecting := h.selecting
  waiting hr hp hn hseen := by
    have hle := (h.look hr (by simp [hn])).seen
    exact h.waiting hr hp hn (le_antisymm hle (hseen ▸ b.changes_le_put x))
  asleep := h.asleep
  napping := h.napping

theorem SleeperInv.onChange (h : SleeperInv who b hub phase pc w) :
    SleeperInv who b.announce hub.onChange phase pc w where
  channel hr := by
    rw [Hub.chan_onChange_alive]
    exact h.channel hr
  look hr hn := by
    rw [Hub.ready_onChange (h.channel hr).2]
    exact (h.look hr hn).announce
  fresh := h.fresh
  target := h.target
  acquiring := h.acquiring
  selecting := h.selecting
  waiting := h.waiting
  asleep := h.asleep
  napping := h.napping

theorem SleeperInv.keeps (h : SleeperInv who b hub phase pc w)
    (hk : w.joined = .running → hub.Keeps hub' w.chan) : SleeperInv who b hub' phase pc w where
  channel hr := ⟨(h.channel hr).1.trans_le (hk hr).made, (hk hr).alive.trans (h.channel hr).2⟩
  look hr hn := (h.look hr hn).mono (hk hr).ready
  fresh := h.fresh
  target := h.target
  acquiring := h.acquiring
  selecting := h.selecting
  waiting := h.waiting
  asleep := h.asleep
  napping := h.napping

/-- The place of a scheduler after a step of its own that is none of its acquire. -/
theorem SleeperInv.loop {phase' : Phase} (h : SleeperInv who b hub phase pc w) (hnap : w.nap = .awake)
    (hstarted : w.joined.started = true)
    (hphase : phase' = phase ∨ phase' ≠ .waiting ∧ (phase' = .done ∨ phase ≠ .standby ∧ phase ≠ .done)) :
    SleeperInv who b hub phase' pc w := by
  rcases hphase with rfl | ⟨hwait, hphase⟩
  · exact h
  · have hpc (hp : phase' ≠ .done) : pc = .idle := by
      by_contra hpc
      obtain ⟨hs, hd⟩ := hphase.resolve_left hp
      exact (h.acquiring hpc).elim hs hd
    refine ⟨h.channel, h.look, fun hf ↦ ?_, h.target, fun hpc' ↦ Or.inr ?_, fun hp name o t hsel ↦ ?_,
      fun _ hp ↦ absurd hp hwait, h.asleep, fun hn ↦ absurd hnap hn⟩
    · rw [hstarted] at hf
      cases hf
    · by_contra hp
      exact hpc' (hpc hp)
    · rw [hpc (by rw [hp]; nofun)] at hsel
      cases hsel

/-- The place of a scheduler after a step of its acquire. -/
theorem SleeperInv.acquires {phase' : Phase} {pc' : Acquiring} {l : Look (LockTable × Db)}
    (h : SleeperInv who b hub phase pc w) (hnap : w.nap = .awake) (hstarted : w.joined.started = true)
    (hlook : w.joined = .running → l.Guarded b (hub.Ready w.chan))
    (htarget : ∀ x, pc'.target = some x → x = (lockName, who)) (hacq : pc' ≠ .idle → phase' = .standby)
    (hsel : ∀ name o t, pc' = .selecting name o t → (l.found.1.find? lockName).isSome)
    (hwait : w.joined = .running → phase' = .waiting → l.seen = b.changes →
      ∃ row, l.found.1.find? lockName = some row ∧ row.owner ≠ who) :
    SleeperInv who b hub phase' pc' { w with look := l } where
  channel := h.channel
  look hr _ := hlook hr
  fresh hf := absurd (hstarted.symm.trans hf) nofun
  target := htarget
  acquiring hp := Or.inl (hacq hp)
  selecting _ := hsel
  waiting hr hp _ := hwait hr hp
  asleep _ _ hn := by cases hnap.symm.trans hn
  napping hn := absurd hnap hn

/-- The scheduler has taken a tick out of its channel. -/
theorem SleeperInv.drains (h : SleeperInv who b hub phase pc w) (hphase : phase ≠ .standby)
    (hmade : hub.made ≤ hub'.made) (halive : (hub'.chan w.chan).alive = (hub.chan w.chan).alive)
    (hstarted : w.joined.started = true) : SleeperInv who b hub' phase pc { w with nap := .draining } where
  channel hr := ⟨(h.channel hr).1.trans_le hmade, halive.trans (h.channel hr).2⟩
  look _ hn := absurd rfl hn
  fresh hf := absurd (hstarted.symm.trans hf) nofun
  target := h.target
  acquiring := h.acquiring
  selecting hp := absurd hp hphase
  waiting _ _ hn := by cases hn
  asleep _ _ hn := by cases hn
  napping _ := hphase

/-- The scheduler looks anew where it has not looked yet. -/
theorem SleeperInv.looks (h : SleeperInv who b hub phase pc w) (hann : b.announced ≤ b.changes)
    (hnap : w.nap = .awake) :
    SleeperInv who b hub phase pc { w with look := lookAfter pc w.look b.look } := by
  cases pc with
  | inserting name o ttl t =>
    refine ⟨h.channel, fun _ _ ↦ .look hann, h.fresh, h.target, h.acquiring,
      fun _ _ _ _ hsel ↦ (by cases hsel), fun _ hp ↦ ?_, fun _ _ hn ↦ ?_, h.napping⟩
    · rcases h.acquiring nofun with hs | hs <;> cases hp.symm.trans hs
    · cases hnap.symm.trans hn
  | _ => exact h

end Sleeper

section Run

variable {ι κ : Type} {next : String → ℤ → Except String ℤ} {owner : ι → String} {s s' : Sys ι κ}

structure Inv (owner : ι → String) (s : Sys ι κ) : Prop where
  cur : s.board.cur = (s.base.lock.locks, s.base.db)
  announced : s.board.announced ≤ s.board.changes
  sleeper : ∀ i, SleeperInv (owner i) s.board s.hub (s.base.at_ i) (s.base.lock.pc (.inl i)) (s.sleepers i)
  distinct : ∀ i j, (s.sleepers i).joined = .running → (s.sleepers j).joined = .running →
    (s.sleepers i).chan = (s.sleepers j).chan → i = j

theorem Inv.new : Inv owner (Sys.new ι κ) where
  cur := rfl
  announced := le_rfl
  sleeper i := by
    constructor <;> simp [Sys.new, Sleeper.absent, Joined.started, Leader.Sys.fresh, LockSys.fresh,
      Acquiring.target]
  distinct i j hi := by cases hi

variable {i : ι} {w : Sleeper}

theorem Inv.same_chan (h : Inv owner s) (hw : w.joined = .running → (s.sleepers i).joined = .running)
    (hchan : w.chan = (s.sleepers i).chan) :
    w.joined = .running → ∀ j, j ≠ i → (s.sleepers j).joined = .running → w.chan ≠ (s.sleepers j).chan := by
  intro hr j hj hrj he
  exact hj (h.distinct i j (hw hr) hrj (hchan.symm.trans he)).symm

theorem wakes_scheduler (κ : Type) (i : ι) (phase : Phase) (connected : Bool) :
    (wakes phase i connected : Leader.Act ι κ).scheduler = some i ∧
      ∀ ok, (wakes phase i connected : Leader.Act ι κ) ≠ .acquire i ok := by
  unfold wakes
  split <;> exact ⟨rfl, nofun⟩

/-- A tick taken out of the channel of a scheduler, as the others see it. -/
theorem Inv.takeTick (h : Inv owner s) (hr : (s.sleepers i).joined = .running) (j : ι) (hj : j ≠ i) :
    SleeperInv (owner j) s.board (s.hub.takeTick (s.sleepers i).chan) (s.base.at_ j) (s.base.lock.pc (.inl j))
      (s.sleepers j) :=
  (h.sleeper j).keeps fun hrj ↦ Hub.keeps_takeTick _ fun he ↦ hj (h.distinct j i hrj hr he)

variable [DecidableEq ι]

/-- A step of one scheduler, in a system that looks the same to the others. -/
theorem Inv.set (h : Inv owner s) (hsleepers : s'.sleepers = s.sleepers)
    (hcur : s'.board.cur = (s'.base.lock.locks, s'.base.db))
    (hannounced : s'.board.announced ≤ s'.board.changes)
    (hown : SleeperInv (owner i) s'.board s'.hub (s'.base.at_ i) (s'.base.lock.pc (.inl i)) w)
    (hothers : ∀ j, j ≠ i →
      SleeperInv (owner j) s'.board s'.hub (s'.base.at_ j) (s'.base.lock.pc (.inl j)) (s.sleepers j))
    (hdistinct : w.joined = .running → ∀ j, j ≠ i → (s.sleepers j).joined = .running →
      w.chan ≠ (s.sleepers j).chan) : Inv owner (s'.set i w) := by
  refine ⟨hcur, hannounced, fun j ↦ ?_, fun j k hj hk hjk ↦ ?_⟩
  · simp only [Sys.set, hsleepers, Function.update_apply]
    split_ifs with hj
    · rw [hj]
      exact hown
    · exact hothers j hj
  · simp only [Sys.set, hsleepers, Function.update_apply] at hj hk hjk
    split_ifs at hj hk hjk with hji hki hki
    · rw [hji, hki]
    · exact absurd hjk (hdistinct hj k hki hk)
    · exact absurd hjk.symm (hdistinct hk j hji hj)
    · exact h.distinct j k hj hk hjk

variable [DecidableEq κ]

theorem cur_does (s : Sys ι κ) (now : Clock) (a : Leader.Act ι κ) :
    (s.does next owner now a).board.cur =
      ((s.does next owner now a).base.lock.locks, (s.does next owner now a).base.db) :=
  Board.cur_put _

theorem Inv.announced_does (h : Inv owner s) (now : Clock) (a : Leader.Act ι κ) :
    (s.does next owner now a).board.announced ≤ (s.does next owner now a).board.changes := by
  simp only [Sys.does, Board.announced_put]
  exact h.announced.trans (s.board.changes_le_put _)

/-- A step of the loops, as a scheduler sees it that does not make it. -/
theorem Inv.others (h : Inv owner s) (now : Clock) {a : Leader.Act ι κ} {j : ι} (hj : a.scheduler ≠ some j) :
    SleeperInv (owner j) (s.does next owner now a).board s.hub ((s.does next owner now a).base.at_ j)
      ((s.does next owner now a).base.lock.pc (.inl j)) (s.sleepers j) := by
  have hat : (s.does next owner now a).base.at_ j = s.base.at_ j := Leader.at_step_of_ne hj
  have hpc : (s.does next owner now a).base.lock.pc (.inl j) = s.base.lock.pc (.inl j) := Leader.pc_step_of_ne hj
  rw [hat, hpc]
  exact (h.sleeper j).put _

theorem Inv.does (h : Inv owner s) (now : Clock) {a : Leader.Act ι κ} (ha : a.scheduler = none) :
    Inv owner (s.does next owner now a) :=
  ⟨cur_does s now a, h.announced_does now a, fun j ↦ h.others now (by rw [ha]; nofun), h.distinct⟩

theorem inv_acquire (h : Inv owner s) (hr : (s.sleepers i).joined = .running)
    (hn : (s.sleepers i).nap = .awake) (now : Clock) (ok : Bool) :
    Inv owner (s.moves next owner now i (.acquire i ok)) := by
  refine h.set rfl (cur_does s now _) (h.announced_does now _) ?_
    (fun j hj ↦ h.others now fun he ↦ hj (Option.some.inj he).symm) (h.same_chan id rfl)
  have hann : (s.does next owner now (.acquire i ok)).board.announced ≤ _ :=
    h.announced_does now (.acquire i ok)
  have hi := (h.sleeper i).put ((s.does next owner now (.acquire i ok)).base.lock.locks,
    (s.does next owner now (.acquire i ok)).base.db)
  have hstarted : (s.sleepers i).joined.started = true := by rw [hr]; rfl
  rcases acquire_cases next owner s.base now i ok with
    ⟨-, hat, hpc⟩ | ⟨hat, hpc⟩ | ⟨hstandby, hlock, hat⟩
  · have hat' : (s.does next owner now (.acquire i ok)).base.at_ i = s.base.at_ i := hat
    have hpc' : (s.does next owner now (.acquire i ok)).base.lock.pc (.inl i) = s.base.lock.pc (.inl i) := hpc
    rw [hat', hpc']
    exact hi.looks hann hn
  · have hat' : (s.does next owner now (.acquire i ok)).base.at_ i = .done := hat
    have hdone := hi.loop hn hstarted (Or.inr ⟨by simp [hat'], Or.inl hat'⟩)
    rcases hpc with hpc | hpc
    · have hpc' : (s.does next owner now (.acquire i ok)).base.lock.pc (.inl i) = s.base.lock.pc (.inl i) :=
        hpc
      rw [hpc']
      exact hdone.looks hann hn
    · have hpc' : (s.does next owner now (.acquire i ok)).base.lock.pc (.inl i) = .idle := hpc
      rw [hpc', hat']
      refine hdone.acquires hn hstarted (fun hr ↦ (hdone.looks hann hn).look hr (by simp [hn])) ?_
        (absurd rfl) ?_ ?_
      · simp [Acquiring.target]
      · simp
      · simp
  · have hlock' : (s.does next owner now (.acquire i ok)).base.lock = _ := hlock
    have hat' : (s.does next owner now (.acquire i ok)).base.at_ i = _ := hat
    have hlook := hi.look hr (by simp [hn])
    cases hpc : s.base.lock.pc (.inl i) with
    | idle =>
      simp only [Leader.acquireStmt, hpc, lockStep, Leader.afterAcquire] at hlock' hat'
      rw [hlock', hat']
      simp only [Function.update_self]
      refine hi.acquires hn hstarted (fun _ ↦ hlook) ?_ (fun _ ↦ rfl) ?_ ?_
      · exact fun x hx ↦ (Option.some.inj hx).symm
      · simp
      · simp
    | inserting name who ttl t =>
      have htarget := hi.target (name, who) (by rw [hpc]; rfl)
      simp only [Leader.acquireStmt, hpc, lockStep, Leader.afterAcquire] at hlock' hat'
      have hrow : ((s.does next owner now (.acquire i ok)).board.cur.1.find? lockName).isSome := by
        rw [cur_does]
        dsimp only
        rw [hlock', (Prod.mk.inj htarget).1, find?_insertOrIgnoreLock]
        split_ifs with hnone
        · rfl
        · exact Option.isSome_iff_ne_none.mpr fun he ↦ hnone ⟨rfl, he⟩
      rw [hlock', hat']
      simp only [Function.update_self]
      refine hi.acquires hn hstarted (fun _ ↦ .look hann) ?_ (fun _ ↦ rfl) (fun _ _ _ _ ↦ hrow) ?_
      · exact fun x hx ↦ (Option.some.inj hx).symm.trans htarget
      · simp
    | selecting name who t =>
      have htarget := hi.target (name, who) (by rw [hpc]; rfl)
      obtain ⟨row, hrow⟩ := Option.isSome_iff_exists.mp (hi.selecting hstandby name who t hpc)
      simp only [Leader.acquireStmt, hpc, lockStep, Leader.afterAcquire] at hlock' hat'
      have hpc' : (s.does next owner now (.acquire i ok)).base.lock.pc (.inl i) = .idle := by
        rw [hlock']
        exact Function.update_self _ _ _
      rw [hpc']
      refine hi.acquires hn hstarted (fun _ ↦ hlook) (fun x hx ↦ by cases hx) (absurd rfl)
        (fun _ _ _ hsel ↦ by cases hsel) fun _ hp hseen ↦ ⟨row, hrow, fun howner ↦ ?_⟩
      -- The lock table is the one that the insert left, so that the select has read this row.
      have hfound : (s.sleepers i).look.found = (s.does next owner now (.acquire i ok)).board.cur :=
        hlook.found hseen
      rw [hfound, cur_does] at hrow
      dsimp only at hrow
      rw [hlock'] at hrow
      have hone : selectLockOwner name who s.base.lock.locks = 1 := by
        rw [selectLockOwner_eq_one, (Prod.mk.inj htarget).1, (Prod.mk.inj htarget).2, hrow, Option.map_some,
          howner]
      rw [hat', if_pos hone] at hp
      cases hp

/-- A step of a scheduler that does not wait. -/
theorem inv_moves (h : Inv owner s) (hr : (s.sleepers i).joined = .running)
    (hn : (s.sleepers i).nap = .awake) {a : Leader.Act ι κ} (ha : a.scheduler = some i) (now : Clock) :
    Inv owner (s.moves next owner now i a) := by
  by_cases hacq : ∃ ok, a = .acquire i ok
  · obtain ⟨ok, rfl⟩ := hacq
    exact inv_acquire h hr hn now ok
  · have hacq (ok : Bool) : a ≠ .acquire i ok := fun he ↦ hacq ⟨ok, he⟩
    refine h.set rfl (cur_does s now a) (h.announced_does now a) ?_
      (fun j hj ↦ h.others now fun he ↦ hj (Option.some.inj (ha.symm.trans he)).symm) (h.same_chan id rfl)
    obtain ⟨hpc, hphase⟩ := loop_step next owner s.base now ha hacq
    have hpc' : (s.does next owner now a).base.lock.pc (.inl i) = s.base.lock.pc (.inl i) := congrFun hpc _
    rw [hpc']
    exact (((h.sleeper i).put _).loop hn (by rw [hr]; rfl) hphase).looks (h.announced_does now a) hn

/-- The end of a wait. -/
theorem inv_rouse (h : Inv owner s) (hr : (s.sleepers i).joined = .running)
    (hphase : s.base.at_ i ≠ .standby) {a : Leader.Act ι κ} (ha : a.scheduler = some i)
    (hacq : ∀ ok, a ≠ .acquire i ok) (now : Clock)
    (hafter : (s.does next owner now a).base.at_ i ≠ .waiting) : Inv owner (s.rouse next owner now i a) := by
  refine h.set rfl (cur_does s now a) (h.announced_does now a) ?_
    (fun j hj ↦ h.others now fun he ↦ hj (Option.some.inj (ha.symm.trans he)).symm) (h.same_chan id rfl)
  obtain ⟨hpc, hmove⟩ := loop_step next owner s.base now ha hacq
  have hpc' : (s.does next owner now a).base.lock.pc (.inl i) = s.base.lock.pc (.inl i) := congrFun hpc _
  have hi := h.sleeper i
  have hdone (hidle : s.base.lock.pc (.inl i) ≠ .idle) : (s.does next owner now a).base.at_ i = .done := by
    have hend : s.base.at_ i = .done := (hi.acquiring hidle).resolve_left hphase
    rcases hmove with he | ⟨-, he | ⟨-, hne⟩⟩
    · exact he.trans hend
    · exact he
    · exact absurd hend hne
  rw [hpc']
  refine ⟨hi.channel, fun _ _ ↦ .look (h.announced_does now a), fun hf ↦ ?_, hi.target,
    fun hidle ↦ Or.inr (hdone hidle), fun hp name o t hsel ↦ ?_, fun _ hp ↦ absurd hp hafter,
    fun _ _ hn ↦ (by cases hn), fun hn ↦ absurd rfl hn⟩
  · simp only [hr, Joined.started] at hf
    cases hf
  · have hd := hdone (by simp [hsel])
    rw [hd] at hp
    cases hp

theorem inv_wakes (h : Inv owner s) (hr : (s.sleepers i).joined = .running)
    (hphase : s.base.at_ i ≠ .standby) (now : Clock) (connected : Bool) :
    Inv owner (s.rouse next owner now i (wakes (s.base.at_ i) i connected)) := by
  obtain ⟨hsched, hacq⟩ := wakes_scheduler κ i (s.base.at_ i) connected
  refine inv_rouse h hr hphase hsched hacq now ?_
  cases hat : s.base.at_ i with
  | waiting =>
    cases connected <;> simp [Sys.does, wakes, Leader.step, Leader.Act.scheduler, Leader.move, hat]
  | resting renewed =>
    cases connected <;> simp [Sys.does, wakes, Leader.step, Leader.Act.scheduler, Leader.move, hat]
  | _ => simp [Sys.does, wakes, Leader.step, Leader.Act.scheduler, Leader.move, hat]

theorem inv_recv (h : Inv owner s) (hr : (s.sleepers i).joined = .running) (now : Clock) (timedOut : Bool) :
    Inv owner (recv next owner s now i timedOut) := by
  have hstarted : (s.sleepers i).joined.started = true := by rw [hr]; rfl
  have hdrains (hphase : s.base.at_ i ≠ .standby) :
      SleeperInv (owner i) s.board (s.hub.takeTick (s.sleepers i).chan) (s.base.at_ i)
        (s.base.lock.pc (.inl i)) { s.sleepers i with nap := .draining } :=
    (h.sleeper i).drains hphase le_rfl (s.hub.chan_takeTick_alive _ _) hstarted
  -- A standby and a leader wait in the same way.
  have hwait (hphase : s.base.at_ i ≠ .standby) : Inv owner
      (if (s.hub.chan (s.sleepers i).chan).tick then
        { s with hub := s.hub.takeTick (s.sleepers i).chan }.set i { s.sleepers i with nap := .draining }
      else if ¬ s.hub.Connected (s.sleepers i).chan then
        s.rouse next owner now i (wakes (s.base.at_ i) i false)
      else if timedOut then s.rouse next owner now i (wakes (s.base.at_ i) i true)
      else s) := by
    split_ifs
    · exact h.set rfl h.cur h.announced (hdrains hphase) (h.takeTick hr) (h.same_chan id rfl)
    · exact inv_wakes h hr hphase now true
    · exact h
    · exact inv_wakes h hr hphase now false
  cases hnap : (s.sleepers i).nap with
  | draining =>
    have hphase : s.base.at_ i ≠ .standby := (h.sleeper i).napping (by rw [hnap]; nofun)
    simp only [recv, hnap]
    split_ifs
    · refine ⟨h.cur, h.announced, fun j ↦ ?_, h.distinct⟩
      by_cases hj : j = i
      · rw [hj]
        have heq : s.sleepers i = { s.sleepers i with nap := .draining } := by
          rw [← hnap]
        rw [heq]
        exact hdrains hphase
      · exact h.takeTick hr j hj
    · exact inv_wakes h hr hphase now true
  | awake =>
    cases hat : s.base.at_ i with
    | waiting =>
      rw [hat] at hwait
      simpa only [recv, hnap, hat] using hwait nofun
    | _ =>
      simp only [recv, hnap, hat]
      exact h
  | asleep soonest wall =>
    cases hat : s.base.at_ i with
    | resting renewed =>
      rw [hat] at hwait
      simpa only [recv, hnap, hat] using hwait nofun
    | _ =>
      simp only [recv, hnap, hat]
      exact h

theorem inv_crash (h : Inv owner s) (hr : (s.sleepers i).joined = .running) (now : Clock) :
    Inv owner (step next owner s (now, .leader (.crash i))) := by
  obtain ⟨hpc, hmove⟩ := loop_step next owner s.base now (a := .crash i) rfl nofun
  have hpc' : (s.does next owner now (.crash i)).base.lock.pc (.inl i) = s.base.lock.pc (.inl i) :=
    congrFun hpc _
  have hat : (s.does next owner now (.crash i)).base.at_ i = .done := by
    simp [Sys.does, Leader.step, Leader.Act.scheduler, Leader.move]
  simp only [step, hr, if_true]
  refine h.set rfl (cur_does s now _) (h.announced_does now _) ?_ (fun j hj ↦ ?_) fun hw ↦ by cases hw
  · have hi := h.sleeper i
    dsimp only
    rw [hpc', hat]
    exact ⟨fun hw ↦ (by cases hw), fun hw ↦ (by cases hw), fun hf ↦ (by cases hf), hi.target,
      fun _ ↦ Or.inr rfl, fun hp ↦ (by cases hp), fun hw ↦ (by cases hw), fun _ _ hn ↦ (by cases hn), fun hn ↦ absurd rfl hn⟩
  · refine (h.others now (a := .crash i) fun he ↦ hj (Option.some.inj he).symm).keeps ?_
    exact fun hrj ↦ Hub.keeps_dropReceiver _ fun he ↦ hj (h.distinct j i hrj hr he)

theorem inv_step (s : Sys ι κ) (x : Clock × Act ι κ) (h : Inv owner s) :
    Inv owner (step next owner s x) := by
  obtain ⟨now, a⟩ := x
  cases a with
  | leader a =>
    have hmoves (i : ι) (a : Leader.Act ι κ) (ha : a.scheduler = some i) : Inv owner
        (if (s.sleepers i).joined = .running ∧ (s.sleepers i).nap = .awake then s.moves next owner now i a
        else s) := by
      split_ifs with hi
      · exact inv_moves h hi.1 hi.2 ha now
      · exact h
    cases a with
    | lock c => exact h.does now rfl
    | call c => exact h.does now rfl
    | stop i => exact h.does now rfl
    | acquire i ok => exact hmoves i _ rfl
    | wake i connected => exact h
    | renew i ok => exact hmoves i _ rfl
    | tick i tickAt env => exact hmoves i _ rfl
    | rest i ok connected => exact h
    | release i ok => exact hmoves i _ rfl
    | crash i =>
      by_cases hr : (s.sleepers i).joined = .running
      · exact inv_crash h hr now
      · simp only [step, if_neg hr]
        exact h
  | onChange => exact ⟨h.cur, le_rfl, fun j ↦ (h.sleeper j).onChange, h.distinct⟩
  | clear => exact ⟨h.cur, h.announced, fun j ↦ (h.sleeper j).keeps fun _ ↦ s.hub.keeps_clear _, h.distinct⟩
  | subscribe i =>
    cases hj : (s.sleepers i).joined with
    | absent =>
      simp only [step, hj]
      have hi := h.sleeper i
      obtain ⟨hphase, hpc, hnap⟩ := hi.fresh (by rw [hj]; rfl)
      refine h.set rfl h.cur h.announced ?_ (fun j _ ↦ (h.sleeper j).keeps fun _ ↦ s.hub.keeps_fetchAdd _)
        fun hw ↦ by cases hw
      exact ⟨fun hw ↦ (by cases hw), fun hw ↦ (by cases hw), fun _ ↦ ⟨hphase, hpc, hnap⟩, hi.target,
        hi.acquiring, hi.selecting, fun hw ↦ (by cases hw), hi.asleep, hi.napping⟩
    | _ =>
      simp only [step, hj]
      exact h
  | insert i =>
    cases hj : (s.sleepers i).joined with
    | registering id =>
      simp only [step, hj]
      have hi := h.sleeper i
      obtain ⟨hphase, hpc, hnap⟩ := hi.fresh (by rw [hj]; rfl)
      have hlt (j : ι) (hj : (s.sleepers j).joined = .running) : (s.sleepers j).chan < s.hub.made :=
        ((h.sleeper j).channel hj).1
      refine h.set rfl h.cur h.announced ?_
        (fun j _ ↦ (h.sleeper j).keeps fun hr ↦ Hub.keeps_insert (hlt j hr) id) fun _ j _ hr ↦ (hlt j hr).ne'
      dsimp only
      rw [hphase, hpc, hnap]
      refine ⟨fun _ ↦ ⟨Nat.lt_succ_self _, by simp [Hub.insert]⟩, fun _ _ ↦ .look h.announced,
        fun hf ↦ (by cases hf), fun x hx ↦ (by cases hx), fun hp ↦ absurd rfl hp,
        fun _ _ _ _ hsel ↦ (by cases hsel), fun _ hp ↦ (by cases hp), fun _ _ hn ↦ (by cases hn),
        fun hn ↦ absurd rfl hn⟩
    | _ =>
      simp only [step, hj]
      exact h
  | soonest i ok wall =>
    simp only [step]
    split
    case h_1 renewed hat hr hnap =>
      have hi := h.sleeper i
      cases ok with
      | true =>
        simp only [if_true]
        refine h.set rfl h.cur h.announced ?_ (fun j _ ↦ h.sleeper j) (h.same_chan id rfl)
        rw [hat]
        refine ⟨hi.channel, fun _ _ ↦ .look h.announced, fun hf ↦ ?_, hi.target,
          fun hp ↦ hat ▸ hi.acquiring hp, fun hp ↦ (by cases hp), fun _ hp ↦ (by cases hp), fun v u hv ↦ ?_, fun _ hp ↦ (by cases hp)⟩
        · simp only [hr, Joined.started] at hf
          cases hf
        · cases hv
          simp only [Board.look, h.cur]
      | false =>
        simp only [Bool.false_eq_true, if_false]
        refine inv_rouse (a := .rest i false true) h hr (by simp [hat]) rfl (by simp) now ?_
        simp [Sys.does, Leader.step, Leader.Act.scheduler, Leader.move, hat]
    case h_2 => exact h
  | recv i timedOut =>
    simp only [step]
    split_ifs with hr
    · exact inv_recv h hr now timedOut
    · exact h
  | unsubscribe i =>
    simp only [step]
    split
    case h_1 hat hr =>
      have hi := h.sleeper i
      refine h.set rfl h.cur h.announced ?_ (fun j hj ↦ ?_) fun hw ↦ by cases hw
      · rw [hat]
        rw [hat] at hi
        exact ⟨fun hw ↦ (by cases hw), fun hw ↦ (by cases hw), fun hf ↦ (by cases hf), hi.target,
          hi.acquiring, fun hp ↦ (by cases hp), fun hw ↦ (by cases hw), hi.asleep, fun _ hp ↦ (by cases hp)⟩
      · refine (h.sleeper j).keeps fun hrj ↦ (s.hub.keeps_unsubscribe _ _).trans (Hub.keeps_dropReceiver _ ?_)
        exact fun he ↦ hj (h.distinct j i hrj hr he)
    case h_2 => exact h

variable (next owner) in
/-- The schedulers run as in `Leader`, with waits that end when the receive of this model does. -/
theorem base_step (s : Sys ι κ) (x : Clock × Act ι κ) :
    (step next owner s x).base = s.base ∨
      ∃ a, (step next owner s x).base = (Leader.step next owner s.base (x.1, a)).2 := by
  obtain ⟨now, a⟩ := x
  cases a with
  | leader a =>
    cases a with
    | lock | call | stop => exact Or.inr ⟨_, rfl⟩
    | wake | rest => exact Or.inl rfl
    | acquire i | renew i | tick i | release i | crash i =>
      simp only [step, Leader.Act.scheduler]
      split_ifs
      · exact Or.inr ⟨_, rfl⟩
      · exact Or.inl rfl
  | onChange | clear => exact Or.inl rfl
  | subscribe i | insert i | unsubscribe i =>
    simp only [step]
    split <;> exact Or.inl rfl
  | soonest i ok wall =>
    simp only [step]
    split
    · split_ifs
      · exact Or.inl rfl
      · exact Or.inr ⟨_, rfl⟩
    · exact Or.inl rfl
  | recv i timedOut =>
    simp only [step, recv]
    split_ifs <;> (try split) <;> first | exact Or.inl rfl | exact Or.inr ⟨_, rfl⟩

theorem base_run (as : List (Clock × Act ι κ)) (s : Sys ι κ) :
    ∃ bs : List (Clock × Leader.Act ι κ), (bs.map Prod.fst).Sublist (as.map Prod.fst) ∧
      (Interleaving.run (step next owner) s as).base = final (Leader.step next owner) s.base bs := by
  induction as generalizing s with
  | nil => exact ⟨[], List.Sublist.slnil, rfl⟩
  | cons x as ih =>
    obtain ⟨bs, hsub, hbs⟩ := ih (step next owner s x)
    rcases base_step next owner s x with hsame | ⟨a, ha⟩
    · refine ⟨bs, hsub.cons _, ?_⟩
      rw [hsame] at hbs
      exact hbs
    · refine ⟨(x.1, a) :: bs, hsub.cons_cons _, ?_⟩
      rw [ha] at hbs
      exact hbs

variable (next owner) in
/-- In every run of schedulers over the shared watcher, beside any other calls and other clients of the lock
table: once the watcher has announced every change, a standby that is blocked on an empty channel sleeps
through no release, since the row of the lock is there in another's name; and a leader sleeps through no
boundary of an enabled task, since its timer ends by then, or at once, unless a task is due at or before
the epoch. -/
theorem scheduler_never_oversleeps (as : List (Clock × Act ι κ)) (i : ι) :
    let s := Interleaving.run (step next owner) (.new ι κ) as
    let w := s.sleepers i
    w.joined = .running → s.hub.Ready w.chan = false → s.board.announced = s.board.changes →
      (s.base.at_ i = .waiting → w.nap = .awake →
        ∃ row, s.base.lock.locks.find? lockName = some row ∧ row.owner ≠ owner i) ∧
      ∀ v wall, w.nap = .asleep v wall → ∀ task ∈ s.base.db.tasks.rows, task.enabled = true →
        (∃ u, sleepsUntil v wall = some u ∧ u ≤ max wall.secs task.nextFireAt) ∨
          ∃ first ∈ s.base.db.tasks.rows, first.enabled = true ∧ first.nextFireAt ≤ 0 := by
  intro s w hr hready hall
  have h : Inv owner s :=
    Interleaving.run_invariant (step next owner) (fun s x hs ↦ inv_step s x hs) Inv.new as
  have hi := h.sleeper i
  have hcurrent (hn : w.nap ≠ .draining) : w.look.seen = s.board.changes ∧
      w.look.found = (s.base.lock.locks, s.base.db) := by
    have hlook := hi.look hr hn
    rw [hready] at hlook
    have hnow := hlook.current hall
    rwa [h.cur] at hnow
  refine ⟨fun hp hn ↦ ?_, fun v wall hv task htask hon ↦ ?_⟩
  · obtain ⟨hseen, hfound⟩ := hcurrent (by rw [hn]; nofun)
    have hrow := hi.waiting hr hp hn hseen
    rwa [hfound] at hrow
  · obtain ⟨-, hfound⟩ := hcurrent (by rw [hv]; nofun)
    have hsoonest : v = schedulerSoonest s.base.db := by
      have hasleep := hi.asleep v wall hv
      rwa [hfound] at hasleep
    have hle : v ≤ task.nextFireAt := hsoonest ▸ schedulerSoonest_le htask hon
    by_cases hpos : 0 < v
    · exact Or.inl ⟨max wall.secs v, if_pos hpos, max_le_max le_rfl hle⟩
    · obtain ⟨first, hfirst, hfon, heq⟩ := schedulerSoonest_mem htask hon
      exact Or.inr ⟨first, hfirst, hfon, by omega⟩

/-- Scheduler `false` leads, scheduler `true` stands by, and both have emptied their channels after the last
change. -/
def bothAsleep : List (Clock × Act Bool Empty) :=
  [.subscribe false, .insert false, .subscribe true, .insert true, .leader (.acquire false true),
    .leader (.acquire false true), .leader (.acquire false true),
    .leader (.call (.at_ (.near 100) (.schedulerRegister "t" "q" "@every 10s" "p" 0 none 3))),
    .leader (.renew false true), .onChange, .leader (.tick false 100 (.at_ (.near 100) (.cancel 0))),
    .soonest false true (.near 100), .recv false false, .recv false false, .leader (.renew false true),
    .leader (.tick false 100 (.at_ (.near 100) (.cancel 0))), .soonest false true (.near 100),
    .leader (.acquire true true), .leader (.acquire true true), .leader (.acquire true true),
    .recv true false, .recv true false, .leader (.acquire true true), .leader (.acquire true true),
    .leader (.acquire true true)].map fun a ↦ (.near 100, a)

def bothOwners (i : Bool) : String := if i then "b" else "a"

def asleepState : Sys Bool Empty :=
  Interleaving.run (step (fun _ u ↦ .ok (u + 10)) bothOwners) (.new Bool Empty) bothAsleep

theorem scheduler_never_oversleeps_bothAsleep :
    (∃ row, asleepState.base.lock.locks.find? lockName = some row ∧ row.owner ≠ "b") ∧
      ∀ task ∈ asleepState.base.db.tasks.rows, task.enabled = true →
        (∃ u, sleepsUntil 110 (.near 100) = some u ∧ u ≤ max (Clock.near 100).secs task.nextFireAt) ∨
          ∃ first ∈ asleepState.base.db.tasks.rows, first.enabled = true ∧ first.nextFireAt ≤ 0 := by
  have hjoined (i : Bool) : (asleepState.sleepers i).joined = .running := by
    cases i <;> decide +kernel
  have hready (i : Bool) : asleepState.hub.Ready (asleepState.sleepers i).chan = false := by
    cases i <;> decide +kernel
  have hall : asleepState.board.announced = asleepState.board.changes := by decide +kernel
  have hrun (i : Bool) := scheduler_never_oversleeps (fun _ u ↦ .ok (u + 10)) bothOwners bothAsleep i
  dsimp only at hrun
  rw [← asleepState] at hrun
  have hsleeps (i : Bool) := hrun i (hjoined i) (hready i) hall
  have hwaiting : asleepState.base.at_ true = .waiting := by decide +kernel
  have hawake : (asleepState.sleepers true).nap = .awake := by decide +kernel
  have hasleep : (asleepState.sleepers false).nap = .asleep 110 (.near 100) := by decide +kernel
  exact ⟨(hsleeps true).1 hwaiting hawake, (hsleeps false).2 110 (.near 100) hasleep⟩

end Run

end SchedulerSleep

end Honker
