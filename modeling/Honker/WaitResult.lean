import Honker.Library.Wakeup
import Honker.Results
import Honker.UpdateEvents

namespace Honker

open Relational Numeric Wakeup Interleaving Transition

namespace WaitResult

/-- How a `wait_result` ends. `value` is the stored text, which `json.loads` then reads. -/
inductive Outcome
  | value (text : String)
  | timedOut
  | died
  | cancelled
  | failed (e : SqlError)
deriving DecidableEq

/-- The next statement of a `wait_result`; `looping` is the head of its loop. -/
inductive Pc
  | absent
  | subscribing
  | inserting
  | checking
  | looping
  | awaiting
  | dropping (r : Outcome)
  | returned (r : Outcome)
deriving DecidableEq

/-- A `wait_result`, with what its last `get_result` found, when, and after which writes. `deadline`
tells whether it has one. -/
structure Waiter where
  pc : Pc
  job : ℤ
  deadline : Bool
  look : Look ResultTable
  lookedAt : Clock
  seen : List ResultWrite

def Waiter.absent : Waiter := ⟨.absent, 0, false, (Board.new Table.empty).look, .near 1, []⟩

/-- The table of results with all the writes to it, the `UpdateEvents` of the waiters and of others, and
the waiters. `now` is the last clock reading. -/
structure Sys (ι κ : Type) where
  board : Board ResultTable
  writes : List ResultWrite
  events : UpdateEvents.Sys (ι ⊕ κ)
  now : ℤ
  waiters : ι → Waiter

def Sys.new (ι κ : Type) : Sys ι κ := ⟨.new .empty, [], .new _, 0, fun _ ↦ .absent⟩

/-- A committed write, a step of an `UpdateEvents` that no waiter takes itself, or a step of a waiter.
`passed` tells whether its deadline has passed. -/
inductive Act (ι κ : Type)
  | write (w : ResultWrite)
  | events (a : UpdateEvents.Act (ι ⊕ κ))
  | waitResult (i : ι) (job : ℤ) (deadline : Bool)
  | advance (i : ι) (now : Clock) (passed : Bool)
  | drop (i : ι)
  | timeout (i : ι)
  | cancel (i : ι)
  | fail (i : ι) (e : SqlError)

/-- The steps of a waiter's own `UpdateEvents` that it takes itself. -/
def taken {ι κ : Type} : UpdateEvents.Act (ι ⊕ κ) → Bool
  | .updateEvents (.inl _) | .insert (.inl _) | .ensureStarted (.inl _) | .get (.inl _)
  | .drop (.inl _) => true
  | _ => false

def written : ResultWrite → Clock
  | .save e => e.now
  | .sweep now => now

section System

variable {ι κ : Type} [DecidableEq ι] [DecidableEq κ]

def Sys.set (s : Sys ι κ) (i : ι) (w : Waiter) : Sys ι κ :=
  { s with waiters := Function.update s.waiters i w }

def Sys.does (s : Sys ι κ) (a : UpdateEvents.Act (ι ⊕ κ)) : Sys ι κ :=
  { s with events := UpdateEvents.step s.events a }

def afterGet : Except SqlError (Option String) → Pc
  | .ok (some text) => .dropping (.value text)
  | .ok none => .looping
  | .error e => .dropping (.failed e)

def afterNext : UpdateEvents.Item → Pc
  | .tick => .checking
  | .died => .dropping .died

/-- One statement of `wait_result`, with the GIL free for it. -/
def advance (s : Sys ι κ) (i : ι) (now : Clock) (passed : Bool) : Sys ι κ :=
  let w := s.waiters i
  match w.pc with
  | .subscribing => (s.does (.updateEvents (.inl i))).set i { w with pc := .inserting }
  | .inserting => (s.does (.insert (.inl i))).set i { w with pc := .checking }
  | .checking =>
    { s with now := now }.set i { w with
      pc := afterGet (resultGet w.job now s.board.cur)
      look := s.board.look
      lookedAt := now
      seen := s.writes }
  | .looping =>
    if w.deadline ∧ passed then s.set i { w with pc := .dropping .timedOut }
    else (s.does (.ensureStarted (.inl i))).set i { w with pc := .awaiting }
  | .awaiting =>
    match (s.events.iters (.inl i)).queue with
    | x :: _ => (s.does (.get (.inl i))).set i { w with pc := afterNext x }
    | [] => s
  | .absent | .dropping _ | .returned _ => s

/-- One statement of the `Drop` that `del updates` runs. -/
def dropStep (s : Sys ι κ) (i : ι) : Sys ι κ :=
  match (s.waiters i).pc with
  | .dropping r =>
    let s' := s.does (.drop (.inl i))
    s'.set i { s.waiters i with
      pc := if (s'.events.iters (.inl i)).phase = .dropped then .returned r else .dropping r }
  | _ => s

def step (s : Sys ι κ) : Act ι κ → Sys ι κ
  | .write w =>
    { s with
      board := s.board.put (resultStep s.board.cur w).2
      writes := s.writes ++ [w]
      now := written w }
  | .events a =>
    if taken a then s
    else if a = .onChange then { s.does a with board := s.board.announce }
    else s.does a
  | .waitResult i job deadline =>
    match (s.waiters i).pc with
    | .absent => s.set i { Waiter.absent with pc := .subscribing, job := job, deadline := deadline }
    | _ => s
  | .advance i now passed => if s.events.gil = none then advance s i now passed else s
  | .drop i => dropStep s i
  | .timeout i =>
    match (s.waiters i).pc with
    | .awaiting => s.set i { s.waiters i with
        pc := if (s.waiters i).deadline then .dropping .timedOut else .checking }
    | _ => s
  | .cancel i =>
    match (s.waiters i).pc with
    | .awaiting => s.set i { s.waiters i with pc := .dropping .cancelled }
    | _ => s
  | .fail i e =>
    match (s.waiters i).pc with
    | .checking => s.set i { s.waiters i with pc := .dropping (.failed e) }
    | _ => s

/-- The clock reading of a step. -/
def stamp (s : Sys ι κ) : Act ι κ → Option ℤ
  | .write w => some (written w)
  | .advance i now _ => if (s.waiters i).pc = .checking then some now else none
  | _ => none

/-- The clock does not go back to before an earlier reading. -/
def Timely (s : Sys ι κ) (a : Act ι κ) : Prop := ∀ t, stamp s a = some t → s.now ≤ t

instance (s : Sys ι κ) (a : Act ι κ) : Decidable (Timely s a) :=
  inferInstanceAs (Decidable (∀ t, stamp s a = some t → s.now ≤ t))

end System

section Waiter

/-- The places before the `del updates`. -/
def Pc.live : Pc → Bool
  | .inserting | .checking | .looping | .awaiting => true
  | _ => false

/-- The places between a `get_result` that found nothing and the next one. -/
def Pc.looked : Pc → Bool
  | .looping | .awaiting => true
  | _ => false

def Pc.outcome : Pc → Option Outcome
  | .dropping r | .returned r => some r
  | _ => none

/-- The phase of its `UpdateEvents` that a place goes with. -/
def Pc.Fits : Pc → UpdateEvents.Phase → Prop
  | .absent, p | .subscribing, p => p = .absent
  | .inserting, p => ∃ id, p = .registering id
  | .checking, p | .looping, p | .awaiting, p => p = .live
  | .dropping _, p => p.registered = true
  | .returned _, p => p = .dropped

/-- What holds of a waiter. While it waits it has found nothing, and an item is on its way to it unless
nothing has been announced since it looked; a value that it returns is the one that its job had. -/
structure WaiterInv (b : Board ResultTable) (writes : List ResultWrite) (now : ℤ) (it : UpdateEvents.Iter)
    (pending : Bool) (w : Waiter) : Prop where
  fits : w.pc.Fits it.phase
  undead : w.pc.live = true → .died ∉ it.taken
  look : w.pc.looked = true → w.look.Guarded b pending
  found : w.pc.looked = true → w.lookedAt.secs ≤ now ∧ resultGet w.job w.lookedAt w.look.found = .ok none
  deadline : w.pc.outcome = some .timedOut → w.deadline = true
  value : ∀ text, w.pc.outcome = some (.value text) →
    w.seen <+: writes ∧ resultAnswer w.job w.seen w.lookedAt = .ok (some text)

/-- What holds of the table. -/
structure Base (b : Board ResultTable) (writes : List ResultWrite) (now : ℤ) : Prop where
  announced : b.announced ≤ b.changes
  table : b.cur = final resultStep .empty writes
  past : ∀ w ∈ writes, (written w).secs ≤ now

theorem Base.mono {b : Board ResultTable} {writes : List ResultWrite} {now now' : ℤ}
    (h : Base b writes now) (hle : now ≤ now') : Base b writes now' :=
  ⟨h.announced, h.table, fun w hw ↦ (h.past w hw).trans hle⟩

theorem Base.write {b : Board ResultTable} {writes : List ResultWrite} {now : ℤ} (h : Base b writes now)
    (w : ResultWrite) (hle : now ≤ written w) :
    Base (b.put (resultStep b.cur w).2) (writes ++ [w]) (written w) where
  announced := by
    rw [Board.announced_put]
    exact h.announced.trans (b.changes_le_put _)
  table := by rw [Board.cur_put, final_snoc, h.table]
  past w' hw' := by
    rcases List.mem_append.mp hw' with hw' | hw'
    · exact (h.past w' hw').trans hle
    · rw [List.mem_singleton.mp hw']

variable {b : Board ResultTable} {writes : List ResultWrite} {now now' : ℤ} {it it' : UpdateEvents.Iter}
  {pending pending' : Bool} {w w' : Waiter}

theorem Pc.live_of_looked {pc : Pc} (h : pc.looked = true) : pc.live = true := by
  cases pc <;> first | rfl | cases h

theorem WaiterInv.absent (hit : it.phase = .absent) : WaiterInv b writes now it pending .absent := by
  constructor <;> simp [Waiter.absent, Pc.Fits, Pc.live, Pc.looked, Pc.outcome, hit]

theorem WaiterInv.write (h : WaiterInv b writes now it pending w) (table : ResultTable)
    (e : ResultWrite) (hle : now ≤ now') :
    WaiterInv (b.put table) (writes ++ [e]) now' it pending w where
  fits := h.fits
  undead := h.undead
  look hl := (h.look hl).put table
  found hl := ⟨(h.found hl).1.trans hle, (h.found hl).2⟩
  deadline := h.deadline
  value text ht := ⟨(h.value text ht).1.trans (List.prefix_append _ _), (h.value text ht).2⟩

theorem WaiterInv.mono (h : WaiterInv b writes now it pending w) (hle : now ≤ now') :
    WaiterInv b writes now' it pending w :=
  ⟨h.fits, h.undead, h.look, fun hl ↦ ⟨(h.found hl).1.trans hle, (h.found hl).2⟩, h.deadline, h.value⟩

/-- A step of the events that the waiter does not take itself. -/
theorem WaiterInv.of_events (h : WaiterInv b writes now it pending w) (hphase : it'.phase = it.phase)
    (htaken : it'.taken = it.taken) (hpending : w.pc.looked = true → pending = true → pending' = true) :
    WaiterInv b writes now it' pending' w where
  fits := hphase ▸ h.fits
  undead := htaken ▸ h.undead
  look hl := (h.look hl).mono (hpending hl)
  found := h.found
  deadline := h.deadline
  value := h.value

/-- A step of the waiter to a place where it has not looked and has no outcome. -/
theorem WaiterInv.of_pc (hfits : w.pc.Fits it.phase) (hundead : w.pc.live = true → .died ∉ it.taken)
    (hlooked : w.pc.looked = false) (houtcome : w.pc.outcome = none) :
    WaiterInv b writes now it pending w := by
  constructor <;> simp_all

/-- The end of a wait without a value. -/
theorem WaiterInv.ends {r : Outcome} (hpc : w.pc = .dropping r) (hr : it.phase.registered = true)
    (htimed : r = .timedOut → w.deadline = true) (hvalue : ∀ text, r ≠ .value text) :
    WaiterInv b writes now it pending w := by
  constructor <;> simp_all [Pc.Fits, Pc.live, Pc.looked, Pc.outcome]

structure Inv {ι κ : Type} (s : Sys ι κ) : Prop where
  events : UpdateEvents.Inv s.events
  base : Base s.board s.writes s.now
  waiter : ∀ i, WaiterInv s.board s.writes s.now (s.events.iters (.inl i))
    (UpdateEvents.Pending s.events (.inl i)) (s.waiters i)

theorem Inv.new (ι κ : Type) : Inv (Sys.new ι κ) where
  events := .new
  base := ⟨le_rfl, rfl, by simp [Sys.new]⟩
  waiter _ := .absent rfl

variable {ι κ : Type} {s : Sys ι κ} {i : ι}

theorem Inv.live (h : Inv s) (hl : (s.waiters i).pc.looked = true) :
    (s.events.iters (.inl i)).phase = .live := by
  have hfits := (h.waiter i).fits
  revert hl hfits
  cases (s.waiters i).pc <;> first | exact fun _ hfits ↦ hfits | exact fun hl ↦ nomatch hl

/-- A `get_result`: what it returns is what the job has. -/
theorem Inv.get (h : Inv s) (hpc : (s.waiters i).pc = .checking) {now : Clock} (hle : s.now ≤ now) :
    WaiterInv s.board s.writes now (s.events.iters (.inl i)) (UpdateEvents.Pending s.events (.inl i))
      { s.waiters i with
        pc := afterGet (resultGet (s.waiters i).job now s.board.cur)
        look := s.board.look
        lookedAt := now
        seen := s.writes } := by
  have hi := h.waiter i
  have hphase : (s.events.iters (.inl i)).phase = .live := by
    have hfits := hi.fits
    rwa [hpc] at hfits
  have hundead : .died ∉ (s.events.iters (.inl i)).taken := hi.undead (by rw [hpc]; rfl)
  have hanswer : resultGet (s.waiters i).job now s.board.cur = resultAnswer (s.waiters i).job s.writes now := by
    rw [h.base.table]
    exact resultGet_final _ (fun t ht ↦ (h.base.past _ ht).trans hle) _
  cases hget : resultGet (s.waiters i).job now s.board.cur with
  | error e => exact .ends rfl (by rw [hphase]; rfl) nofun nofun
  | ok found =>
    cases found with
    | none => exact ⟨hphase, fun _ ↦ hundead, fun _ ↦ .look h.base.announced, fun _ ↦ ⟨le_rfl, hget⟩, nofun, nofun⟩
    | some text =>
      refine ⟨by rw [hphase]; rfl, nofun, nofun, nofun, nofun, fun text' ht ↦ ⟨List.prefix_refl _, ?_⟩⟩
      cases ht
      exact hanswer.symm.trans hget

end Waiter

section Run

variable {ι κ : Type} [DecidableEq ι] {s s' : Sys ι κ} {i : ι} {w : Waiter}

/-- A step of the waiter `i`. -/
theorem Inv.set (hevents : UpdateEvents.Inv s'.events) (hbase : Base s'.board s'.writes s'.now)
    (hothers : ∀ j ≠ i, WaiterInv s'.board s'.writes s'.now (s'.events.iters (.inl j))
      (UpdateEvents.Pending s'.events (.inl j)) (s'.waiters j))
    (hown : WaiterInv s'.board s'.writes s'.now (s'.events.iters (.inl i))
      (UpdateEvents.Pending s'.events (.inl i)) w) : Inv (s'.set i w) where
  events := hevents
  base := hbase
  waiter j := by
    simp only [Sys.set, Function.update_apply]
    split_ifs with hj
    · rw [hj]
      exact hown
    · exact hothers j hj

/-- A step of the waiter that leaves everything else as it is. -/
theorem Inv.set_local (h : Inv s) (hown : WaiterInv s.board s.writes s.now (s.events.iters (.inl i))
    (UpdateEvents.Pending s.events (.inl i)) w) : Inv (s.set i w) :=
  Inv.set h.events h.base (fun j _ ↦ h.waiter j) hown

variable [DecidableEq κ]

/-- A step of the events, as a waiter sees it that does not take it. -/
theorem Inv.others (h : Inv s) {a : UpdateEvents.Act (ι ⊕ κ)} {j : ι} (hevents : a ≠ .updateEvents (.inl j))
    (hinsert : a ≠ .insert (.inl j)) (hget : a ≠ .get (.inl j)) (hdrop : a ≠ .drop (.inl j)) :
    WaiterInv s.board s.writes s.now ((s.does a).events.iters (.inl j))
      (UpdateEvents.Pending (s.does a).events (.inl j)) (s.waiters j) := by
  obtain ⟨hphase, htaken⟩ := UpdateEvents.user_step (s := s.events) hevents hinsert hget hdrop
  refine (h.waiter j).of_events hphase htaken fun hl hp ↦ ?_
  exact UpdateEvents.pending_step h.events (h.live hl) hget hdrop hp

/-- A step of a waiter on its own `UpdateEvents`. -/
theorem Inv.set_events (h : Inv s) {a : UpdateEvents.Act (ι ⊕ κ)} (ha : a.of = some (.inl i))
    (hown : WaiterInv s.board s.writes s.now ((s.does a).events.iters (.inl i))
      (UpdateEvents.Pending (s.does a).events (.inl i)) w) : Inv ((s.does a).set i w) := by
  refine Inv.set (UpdateEvents.inv_step _ _ h.events) h.base (fun j hj ↦ h.others ?_ ?_ ?_ ?_) hown <;>
  · rintro rfl
    exact hj (Sum.inl.inj (Option.some.inj ha))

theorem inv_advance (h : Inv s) (hg : s.events.gil = none) {now : Clock} {passed : Bool}
    (htime : (s.waiters i).pc = .checking → s.now ≤ now) : Inv (advance s i now passed) := by
  have hi := h.waiter i
  have hfits := hi.fits
  cases hpc : (s.waiters i).pc with
  | absent | dropping | returned =>
    simp only [advance, hpc]
    exact h
  | subscribing =>
    rw [hpc] at hfits
    simp only [advance, hpc]
    refine h.set_events rfl (.of_pc ?_ (fun _ ↦ ?_) rfl rfl) <;>
      simp [Sys.does, UpdateEvents.step, UpdateEvents.Sys.python, hg, UpdateEvents.updateEvents,
        show (s.events.iters (.inl i)).phase = .absent from hfits, Pc.Fits, UpdateEvents.Iter.absent]
  | inserting =>
    rw [hpc] at hfits
    obtain ⟨id, hid⟩ := hfits
    have hundead := hi.undead (by rw [hpc]; rfl)
    simp only [advance, hpc]
    refine h.set_events rfl (.of_pc ?_ (fun _ ↦ ?_) rfl rfl) <;>
      simp [Sys.does, UpdateEvents.step, UpdateEvents.Sys.python, hg, UpdateEvents.insert, hid, Pc.Fits,
        hundead]
  | checking =>
    have hle := htime hpc
    simp only [advance, hpc]
    exact Inv.set h.events (h.base.mono hle) (fun j _ ↦ (h.waiter j).mono hle) (h.get hpc hle)
  | looping =>
    have hlive := h.live (i := i) (by rw [hpc]; rfl)
    simp only [advance, hpc]
    split_ifs with hover
    · exact h.set_local (.ends rfl (by rw [hlive]; rfl) (fun _ ↦ hover.1) (by simp))
    · have hsame := h.others (a := .ensureStarted (.inl i)) (j := i) (by simp) (by simp) (by simp) (by simp)
      have hl : (s.waiters i).pc.looked = true := by rw [hpc]; rfl
      refine h.set_events rfl ⟨?_, fun _ ↦ hsame.undead (Pc.live_of_looked hl), fun _ ↦ hsame.look hl,
        fun _ ↦ hsame.found hl, (fun ht ↦ by cases ht), fun _ ht ↦ by cases ht⟩
      have hfits := hsame.fits
      rwa [hpc] at hfits
  | awaiting =>
    have hlive := h.live (i := i) (by rw [hpc]; rfl)
    have hundead := hi.undead (by rw [hpc]; rfl)
    simp only [advance, hpc]
    split
    case h_1 x xs hq =>
      have hafter : (s.does (.get (.inl i))).events.iters (.inl i) = { s.events.iters (.inl i) with
          queue := xs, taken := (s.events.iters (.inl i)).taken ++ [x] } := by
        simp [Sys.does, UpdateEvents.step, UpdateEvents.Sys.python, hg, UpdateEvents.get, hq]
      refine h.set_events rfl ?_
      rw [hafter]
      cases x with
      | tick => exact .of_pc hlive (by simp [hundead]) rfl rfl
      | died => exact .ends rfl (by rw [hlive]; rfl) (by simp) (by simp)
    case h_2 => exact h

theorem inv_dropStep (h : Inv s) (i : ι) : Inv (dropStep s i) := by
  have hi := h.waiter i
  cases hpc : (s.waiters i).pc <;> simp only [dropStep, hpc] <;> first | exact h | skip
  case dropping r =>
    have hr : (s.events.iters (.inl i)).phase.registered = true := by
      have hfits := hi.fits
      rwa [hpc] at hfits
    have hdeadline := hi.deadline
    have hvalue := hi.value
    rw [hpc] at hdeadline hvalue
    refine h.set_events rfl ?_
    split_ifs with hdropped
    · exact ⟨hdropped, nofun, nofun, nofun, hdeadline, hvalue⟩
    · exact ⟨(UpdateEvents.phase_drop hr).resolve_right hdropped, nofun, nofun, nofun, hdeadline, hvalue⟩

theorem inv_events (h : Inv s) (a : UpdateEvents.Act (ι ⊕ κ)) : Inv (step s (.events a)) := by
  simp only [step]
  split_ifs with htaken hchange
  · exact h
  · subst hchange
    have hinv := UpdateEvents.inv_step _ UpdateEvents.Act.onChange h.events
    refine ⟨hinv, ⟨le_rfl, h.base.table, h.base.past⟩, fun j ↦ ?_⟩
    have hj := h.waiter j
    refine ⟨hj.fits, hj.undead, fun hl ↦ ?_, hj.found, hj.deadline, hj.value⟩
    have hpending := UpdateEvents.pending_onChange h.events (h.live hl) (hj.undead (Pc.live_of_looked hl))
    show Look.Guarded s.board.announce (UpdateEvents.Pending (UpdateEvents.step s.events .onChange) _) _
    rw [hpending]
    exact (hj.look hl).announce
  · refine ⟨UpdateEvents.inv_step _ a h.events, h.base, fun j ↦ h.others ?_ ?_ ?_ ?_⟩
    all_goals
      rintro rfl
      exact htaken rfl

theorem inv_step (s : Sys ι κ) (a : Act ι κ) (ha : Timely s a) (h : Inv s) : Inv (step s a) := by
  cases a with
  | write w =>
    have hle : s.now ≤ written w := ha _ rfl
    exact ⟨h.events, h.base.write w hle, fun j ↦ (h.waiter j).write _ w hle⟩
  | events a => exact inv_events h a
  | waitResult i job deadline =>
    have hfits := (h.waiter i).fits
    cases hpc : (s.waiters i).pc <;> simp only [step, hpc] <;> first | exact h | skip
    rw [hpc] at hfits
    exact h.set_local (.of_pc hfits nofun rfl rfl)
  | advance i now passed =>
    simp only [step]
    split_ifs with hg
    · exact inv_advance h hg fun hpc ↦ ha _ (by simp [stamp, hpc])
    · exact h
  | drop i => exact inv_dropStep h i
  | timeout i =>
    cases hpc : (s.waiters i).pc <;> simp only [step, hpc] <;> first | exact h | skip
    have hl : (s.waiters i).pc.looked = true := by rw [hpc]; rfl
    have hlive := h.live hl
    refine h.set_local ?_
    split_ifs with hdeadline
    · exact .ends rfl (by rw [hlive]; rfl) (fun _ ↦ hdeadline) nofun
    · exact .of_pc hlive (fun _ ↦ (h.waiter i).undead (Pc.live_of_looked hl)) rfl rfl
  | cancel i =>
    cases hpc : (s.waiters i).pc <;> simp only [step, hpc] <;> first | exact h | skip
    have hlive := h.live (i := i) (by rw [hpc]; rfl)
    exact h.set_local (.ends rfl (by rw [hlive]; rfl) nofun nofun)
  | fail i e =>
    have hfits := (h.waiter i).fits
    cases hpc : (s.waiters i).pc <;> simp only [step, hpc] <;> first | exact h | skip
    rw [hpc] at hfits
    have hlive : (s.events.iters (.inl i)).phase = .live := hfits
    exact h.set_local (.ends rfl (by rw [hlive]; rfl) nofun nofun)

/-- In every interleaving of `wait_result` calls, saves and sweeps of results, the watcher and the bridge
threads, with a clock that does not go back: a call returns the value that the last save of its job had
left when it looked, one without a deadline never times out, and none leaves a bridge thread behind. And
a call that awaits an update, with no item on its way to it once the watcher has announced every change,
has no result to return, then or later. -/
theorem wait_result_never_strands (as : List (Act ι κ)) (has : Along step Timely (.new ι κ) as) (i : ι) :
    let s := run step (.new ι κ) as
    let w := s.waiters i
    (∀ text, w.pc = .returned (.value text) →
        w.seen <+: s.writes ∧ resultAnswer w.job w.seen w.lookedAt = .ok (some text)) ∧
      (w.pc = .returned .timedOut → w.deadline = true) ∧
      (∀ r, w.pc = .returned r → (s.events.iters (.inl i)).bridge.running = false) ∧
      (w.pc = .awaiting → UpdateEvents.Pending s.events (.inl i) = false →
        s.board.announced = s.board.changes →
        ∀ t : Clock, s.now ≤ t → resultGet w.job t s.board.cur = .ok none) := by
  intro s w
  have h : Inv s := along_invariant step inv_step (.new ι κ) has
  have hi := h.waiter i
  refine ⟨fun text hpc ↦ hi.value text ?_, fun hpc ↦ hi.deadline ?_, fun r hpc ↦ ?_, fun hpc hp hall t ht ↦ ?_⟩
  · show w.pc.outcome = _
    rw [hpc]
    rfl
  · show w.pc.outcome = _
    rw [hpc]
    rfl
  · have hfits : w.pc.Fits (s.events.iters (.inl i)).phase := hi.fits
    rw [hpc] at hfits
    have hallowed := (h.events.iter (.inl i)).allowed
    rw [show (s.events.iters (.inl i)).phase = .dropped from hfits] at hallowed
    rcases hallowed with hb | hb <;> rw [hb] <;> rfl
  · have hl : w.pc.looked = true := by rw [hpc]; rfl
    have hlook : w.look.Guarded s.board false := by
      have := hi.look hl
      rwa [hp] at this
    obtain ⟨hle, hnone⟩ := hi.found hl
    rw [← (hlook.current hall).2]
    exact resultGet_later hnone (hle.trans ht)

/-- A result that is saved while its waiter awaits. -/
def savedLater : List (Act Unit Empty) :=
  [.waitResult () 7 false, .advance () (.near 100) false, .advance () (.near 100) false,
    .advance () (.near 100) false, .advance () (.near 100) false, .write (.save ⟨7, "1", .near 0, .near 101⟩),
    .events .onChange, .events (.bridge (.inl ())), .events (.bridge (.inl ())),
    .events (.bridge (.inl ())), .events (.bridge (.inl ())), .events (.runCallback (.inl ())),
    .advance () (.near 102) false, .advance () (.near 102) false, .drop (), .drop (), .drop (), .drop (),
    .events (.bridge (.inl ())), .events (.bridge (.inl ())), .drop ()]

theorem wait_result_never_strands_savedLater :
    let s := run step (.new Unit Empty) savedLater
    (s.waiters ()).pc = .returned (.value "1") ∧ (s.events.iters (.inl ())).bridge.running = false ∧
      resultAnswer 7 (s.waiters ()).seen 102 = .ok (some "1") := by
  have hpc : ((run step (.new Unit Empty) savedLater).waiters ()).pc = .returned (.value "1") := by
    decide +kernel
  have h := wait_result_never_strands savedLater (by decide +kernel) ()
  exact ⟨hpc, h.2.2.1 _ hpc, (h.1 _ hpc).2⟩

end Run

end WaitResult

end Honker
