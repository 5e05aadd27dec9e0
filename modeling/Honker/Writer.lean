import Honker.Readers

namespace Honker

open Interleaving Monitor

/-- The next statement of a thread in `Writer::acquire`, `try_acquire`, `release` or `close`. At
`checking`, `taking`, `notifying` and `notifyingAll` it holds the mutex of the slot. -/
inductive WriterPc
  | idle
  | locking
  | checking
  | taking
  | tryLoading
  | tryTaking
  | releasing
  | putting
  | notifying
  | closing
  | clearing
  | notifyingAll
deriving DecidableEq

/-- The writer's slot with its threads. `held` is the number of connections handed out, and `cleared`
records that a `close` has emptied the slot. -/
structure WriterSys (ι : Type) where
  slot : Bool
  closed : Bool
  lock : Option ι
  held : ℕ
  cleared : Bool
  th : ι → Thread WriterPc

def WriterSys.new (ι : Type) : WriterSys ι := ⟨true, false, none, 0, false, fun _ ↦ .running .idle⟩

inductive WriterAction (ι : Type)
  | acquire (i : ι)
  | tryAcquire (i : ι)
  | release (i : ι)
  | close (i : ι)
  | next (i j : ι)

def WriterSys.go {ι : Type} [DecidableEq ι] (s : WriterSys ι) (i : ι) (p : WriterPc) : WriterSys ι :=
  { s with th := Function.update s.th i (.running p) }

namespace Writer

section System

variable {ι : Type} [DecidableEq ι] [Fintype ι]

/-- The next statement of thread `i`; `j` is the waiting thread that a `notify_one` picks. -/
def writerNext (s : WriterSys ι) (i j : ι) : WriterSys ι :=
  match s.th i with
  | .running .idle => s
  | .running .locking => if s.lock ≠ none then s else { s with lock := some i }.go i .checking
  | .running .checking =>
    if s.closed then { s with lock := none }.go i .idle else s.go i .taking
  | .running .taking =>
    if s.slot then { s with slot := false, held := s.held + 1, lock := none }.go i .idle
    else { s with lock := none, th := Function.update s.th i (.waiting false) }
  | .waiting false => s
  | .waiting true => if s.lock ≠ none then s else { s with lock := some i }.go i .checking
  | .running .tryLoading => s.go i (if s.closed then .idle else .tryTaking)
  | .running .tryTaking =>
    if s.lock ≠ none then s
    else if s.slot then { s with slot := false, held := s.held + 1 }.go i .idle
    else s.go i .idle
  | .running .releasing => s.go i (if s.closed then .idle else .putting)
  | .running .putting =>
    if s.lock ≠ none then s else { s with slot := true, lock := some i }.go i .notifying
  | .running .notifying =>
    if s.th j = .waiting false then { s with lock := none, th := notifyOne s.th j }.go i .idle
    else if ∀ k, s.th k ≠ .waiting false then { s with lock := none }.go i .idle
    else s
  | .running .closing => { s with closed := true }.go i .clearing
  | .running .clearing =>
    if s.lock ≠ none then s
    else { s with slot := false, cleared := true, lock := some i }.go i .notifyingAll
  | .running .notifyingAll => { s with lock := none, th := notifyAll s.th }.go i .idle

def writerStep (s : WriterSys ι) : WriterAction ι → WriterSys ι
  | .acquire i => if s.th i = .running .idle then s.go i .locking else s
  | .tryAcquire i => if s.th i = .running .idle then s.go i .tryLoading else s
  | .release i =>
    if s.th i = .running .idle ∧ 0 < s.held then { s with held := s.held - 1 }.go i .releasing
    else s
  | .close i => if s.th i = .running .idle then s.go i .closing else s
  | .next i j => writerNext s i j

/-- The next `n` statements of one thread. -/
def advance (i : ι) (n : ℕ) : List (WriterAction ι) := List.replicate n (.next i i)

/-- The moves of the threads, one constructor for each way a statement can go. -/
inductive WriterMove (s : WriterSys ι) : WriterAction ι → WriterSys ι → Prop
  | acquire {i : ι} (here : s.th i = .running .idle) : WriterMove s (.acquire i) (s.go i .locking)
  | tryAcquire {i : ι} (here : s.th i = .running .idle) :
      WriterMove s (.tryAcquire i) (s.go i .tryLoading)
  | release {i : ι} (here : s.th i = .running .idle) (held : 0 < s.held) :
      WriterMove s (.release i) ({ s with held := s.held - 1 }.go i .releasing)
  | close {i : ι} (here : s.th i = .running .idle) : WriterMove s (.close i) (s.go i .closing)
  | lock {i j : ι} (here : s.th i = .running .locking) (free : s.lock = none) :
      WriterMove s (.next i j) ({ s with lock := some i }.go i .checking)
  | refuse {i j : ι} (here : s.th i = .running .checking) (closed : s.closed = true) :
      WriterMove s (.next i j) ({ s with lock := none }.go i .idle)
  | check {i j : ι} (here : s.th i = .running .checking) (closed : s.closed = false) :
      WriterMove s (.next i j) (s.go i .taking)
  | take {i j : ι} (here : s.th i = .running .taking) (slot : s.slot = true) :
      WriterMove s (.next i j)
        ({ s with slot := false, held := s.held + 1, lock := none }.go i .idle)
  | wait {i j : ι} (here : s.th i = .running .taking) (slot : s.slot = false) :
      WriterMove s (.next i j) { s with lock := none, th := Function.update s.th i (.waiting false) }
  | wake {i j : ι} (here : s.th i = .waiting true) (free : s.lock = none) :
      WriterMove s (.next i j) ({ s with lock := some i }.go i .checking)
  | tryRefuse {i j : ι} (here : s.th i = .running .tryLoading) (closed : s.closed = true) :
      WriterMove s (.next i j) (s.go i .idle)
  | tryCheck {i j : ι} (here : s.th i = .running .tryLoading) (closed : s.closed = false) :
      WriterMove s (.next i j) (s.go i .tryTaking)
  | tryTake {i j : ι} (here : s.th i = .running .tryTaking) (free : s.lock = none)
      (slot : s.slot = true) :
      WriterMove s (.next i j) ({ s with slot := false, held := s.held + 1 }.go i .idle)
  | tryMiss {i j : ι} (here : s.th i = .running .tryTaking) (free : s.lock = none)
      (slot : s.slot = false) : WriterMove s (.next i j) (s.go i .idle)
  | discard {i j : ι} (here : s.th i = .running .releasing) (closed : s.closed = true) :
      WriterMove s (.next i j) (s.go i .idle)
  | keep {i j : ι} (here : s.th i = .running .releasing) (closed : s.closed = false) :
      WriterMove s (.next i j) (s.go i .putting)
  | put {i j : ι} (here : s.th i = .running .putting) (free : s.lock = none) :
      WriterMove s (.next i j) ({ s with slot := true, lock := some i }.go i .notifying)
  | notify {i j : ι} (here : s.th i = .running .notifying) (sleeper : s.th j = .waiting false) :
      WriterMove s (.next i j) ({ s with lock := none, th := notifyOne s.th j }.go i .idle)
  | notifyNone {i j : ι} (here : s.th i = .running .notifying) (awake : ∀ k, s.th k ≠ .waiting false) :
      WriterMove s (.next i j) ({ s with lock := none }.go i .idle)
  | store {i j : ι} (here : s.th i = .running .closing) :
      WriterMove s (.next i j) ({ s with closed := true }.go i .clearing)
  | clear {i j : ι} (here : s.th i = .running .clearing) (free : s.lock = none) :
      WriterMove s (.next i j)
        ({ s with slot := false, cleared := true, lock := some i }.go i .notifyingAll)
  | notifyAll {i j : ι} (here : s.th i = .running .notifyingAll) :
      WriterMove s (.next i j) ({ s with lock := none, th := notifyAll s.th }.go i .idle)

theorem writerNext_move (s : WriterSys ι) (i j : ι) :
    writerNext s i j = s ∨ WriterMove s (.next i j) (writerNext s i j) := by
  unfold writerNext
  split
  next h => exact Or.inl rfl
  next h =>
    split_ifs with hl
    · exact Or.inl rfl
    · exact Or.inr (.lock h (not_not.mp hl))
  next h =>
    split_ifs with hc
    · exact Or.inr (.refuse h hc)
    · exact Or.inr (.check h (by simpa using hc))
  next h =>
    split_ifs with hs
    · exact Or.inr (.take h hs)
    · exact Or.inr (.wait h (by simpa using hs))
  next h => exact Or.inl rfl
  next h =>
    split_ifs with hl
    · exact Or.inl rfl
    · exact Or.inr (.wake h (not_not.mp hl))
  next h =>
    by_cases hc : s.closed = true
    · rw [if_pos hc]
      exact Or.inr (.tryRefuse h hc)
    · rw [if_neg hc]
      exact Or.inr (.tryCheck h (by simpa using hc))
  next h =>
    split_ifs with hl hs
    · exact Or.inl rfl
    · exact Or.inr (.tryTake h (not_not.mp hl) hs)
    · exact Or.inr (.tryMiss h (not_not.mp hl) (by simpa using hs))
  next h =>
    by_cases hc : s.closed = true
    · rw [if_pos hc]
      exact Or.inr (.discard h hc)
    · rw [if_neg hc]
      exact Or.inr (.keep h (by simpa using hc))
  next h =>
    split_ifs with hl
    · exact Or.inl rfl
    · exact Or.inr (.put h (not_not.mp hl))
  next h =>
    split_ifs with hj hk
    · exact Or.inr (.notify h hj)
    · exact Or.inr (.notifyNone h hk)
    · exact Or.inl rfl
  next h => exact Or.inr (.store h)
  next h =>
    split_ifs with hl
    · exact Or.inl rfl
    · exact Or.inr (.clear h (not_not.mp hl))
  next h => exact Or.inr (.notifyAll h)

theorem writerStep_move (s : WriterSys ι) (a : WriterAction ι) :
    writerStep s a = s ∨ WriterMove s a (writerStep s a) := by
  cases a with
  | acquire i =>
    rw [writerStep]
    split_ifs with h
    · exact Or.inr (.acquire h)
    · exact Or.inl rfl
  | tryAcquire i =>
    rw [writerStep]
    split_ifs with h
    · exact Or.inr (.tryAcquire h)
    · exact Or.inl rfl
  | release i =>
    rw [writerStep]
    split_ifs with h
    · exact Or.inr (.release h.1 h.2)
    · exact Or.inl rfl
  | close i =>
    rw [writerStep]
    split_ifs with h
    · exact Or.inr (.close h)
    · exact Or.inl rfl
  | next i j => exact writerNext_move s i j

section Accounting

/-- The releases that carry the connection. -/
def carriers : Thread WriterPc → ℕ
  | .running .releasing => 1
  | .running .putting => 1
  | _ => 0

/-- There is one connection at most, in the slot, handed out or carried back. -/
def Single (s : WriterSys ι) : Prop := s.slot.toNat + s.held + weigh carriers s.th ≤ 1

variable {s t : WriterSys ι} {i : ι} {x y : Thread WriterPc}

theorem Single.move (h : Single s) (here : s.th i = x) (hth : t.th = Function.update s.th i y)
    (hle : t.slot.toNat + t.held + carriers y ≤ s.slot.toNat + s.held + carriers x) : Single t := by
  have hw := weigh_update carriers s.th i y
  have hx := le_weigh carriers s.th i
  rw [here] at hw hx
  unfold Single at h ⊢
  rw [hth]
  omega

theorem single_move {a : WriterAction ι} (hm : WriterMove s a t) (h : Single s) : Single t := by
  cases hm with
  | acquire here | tryAcquire here | close here | lock here _ | refuse here _ | check here _
  | wait here _ | wake here _ | tryRefuse here _ | tryCheck here _ | tryMiss here _ _
  | discard here _ | keep here _ | notifyNone here _ | store here | clear here _ =>
    exact h.move here rfl (by simp [WriterSys.go, carriers])
  | release here held => exact h.move here rfl (by simp only [WriterSys.go, carriers]; omega)
  | take here slot | tryTake here _ slot =>
    refine h.move here rfl ?_
    simp only [WriterSys.go, carriers, slot, Bool.toNat_true, Bool.toNat_false]
    omega
  | put here free =>
    refine h.move here rfl ?_
    have := Bool.toNat_le s.slot
    simp only [WriterSys.go, carriers, Bool.toNat_true]
    omega
  | @notify _ j here sleeper =>
    have hj : Single { s with th := notifyOne s.th j } := h.move sleeper rfl (by simp [carriers])
    exact hj.move (notifyOne_of_running here sleeper) rfl (by simp [WriterSys.go, carriers])
  | notifyAll here =>
    have hall : Single { s with th := notifyAll s.th } := by
      unfold Single
      rw [weigh_notifyAll rfl]
      exact h
    exact hall.move (notifyAll_of_running here) rfl (by simp [WriterSys.go, carriers])

end Accounting

section Waking

/-- The threads that hold the mutex of the slot. -/
def holders : Thread WriterPc → ℕ
  | .running .checking => 1
  | .running .taking => 1
  | .running .notifying => 1
  | .running .notifyingAll => 1
  | _ => 0

/-- The acquires on their way to the slot, and the releases about to notify one. -/
def coming : Thread WriterPc → ℕ
  | .running .locking => 1
  | .running .checking => 1
  | .running .taking => 1
  | .running .notifying => 1
  | .waiting true => 1
  | _ => 0

/-- The acquires that sleep, or may go to sleep without looking at `closed` again. -/
def sleepers : Thread WriterPc → ℕ
  | .running .taking => 1
  | .waiting false => 1
  | _ => 0

/-- The closes that have yet to notify. -/
def closers : Thread WriterPc → ℕ
  | .running .clearing => 1
  | .running .notifyingAll => 1
  | _ => 0

/-- While an acquire sleeps, a full slot has a thread coming for it, and a closed writer has a close
that will notify. -/
structure Attended (s : WriterSys ι) : Prop where
  locked : weigh holders s.th ≤ lockCount s.lock
  whileOpen : s.closed = false → s.slot = true → 0 < weigh asleep s.th → 0 < weigh coming s.th
  whileClosed : s.closed = true → 0 < weigh sleepers s.th → 0 < weigh closers s.th

variable {s t : WriterSys ι} {i : ι} {x y : Thread WriterPc}

theorem Attended.move (h : Attended s) (here : s.th i = x) (hth : t.th = Function.update s.th i y)
    (hlock : lockCount s.lock + holders y ≤ lockCount t.lock + holders x)
    (hopen : t.closed = false → t.slot = true → asleep y ≤ asleep x ∧ s.closed = false ∧
      (0 < coming y ∨ (s.slot = true ∧ coming x ≤ coming y)))
    (hclosed : t.closed = true → 0 < closers y ∨
      (s.closed = true ∧ sleepers y ≤ sleepers x ∧ closers x ≤ closers y)) : Attended t := by
  have hh := weigh_update holders s.th i y
  have hs := weigh_update asleep s.th i y
  have hc := weigh_update coming s.th i y
  have hz := weigh_update sleepers s.th i y
  have hk := weigh_update closers s.th i y
  have hxh := le_weigh holders s.th i
  have hxc := le_weigh coming s.th i
  have hxk := le_weigh closers s.th i
  rw [here] at hh hs hc hz hk hxh hxc hxk
  refine ⟨?_, ?_, ?_⟩ <;> rw [hth]
  · have := h.locked
    omega
  · intro ho hslot hpos
    obtain ⟨hle, ho', hcome⟩ := hopen ho hslot
    rcases hcome with hcome | ⟨hslot', hcome⟩
    · omega
    · have := h.whileOpen ho' hslot' (by omega)
      omega
  · intro hcl hpos
    rcases hclosed hcl with hclose | ⟨hcl', hle, hclose⟩
    · omega
    · have := h.whileClosed hcl' (by omega)
      omega

theorem Attended.stay (h : Attended s) (here : s.th i = x) (hth : t.th = Function.update s.th i y)
    (hclosed : t.closed = s.closed) (hslot : t.slot = s.slot)
    (hlock : lockCount s.lock + holders y ≤ lockCount t.lock + holders x)
    (hasleep : asleep y ≤ asleep x) (hcoming : coming x ≤ coming y ∨ s.closed = true)
    (hsleepers : sleepers y ≤ sleepers x ∨ s.closed = false) (hclosers : closers x ≤ closers y) :
    Attended t := by
  refine h.move here hth hlock (fun ho hs ↦ ?_) (fun hc ↦ Or.inr ?_)
  · rw [hclosed] at ho
    rw [hslot] at hs
    exact ⟨hasleep, ho, Or.inr ⟨hs, hcoming.resolve_right (by simp [ho])⟩⟩
  · rw [hclosed] at hc
    exact ⟨hc, hsleepers.resolve_right (by simp [hc]), hclosers⟩

theorem attended_notify {j : ι} (here : s.th i = .running .notifying)
    (sleeper : s.th j = .waiting false) (h : Attended s) :
    Attended ({ s with lock := none, th := notifyOne s.th j }.go i .idle) := by
  have hi := notifyOne_of_running here sleeper
  have hj : Attended { s with th := notifyOne s.th j } :=
    h.stay sleeper rfl rfl rfl (by simp [holders]) (by simp [asleep]) (Or.inl (by simp [coming]))
      (Or.inl (by simp [sleepers])) (by simp [closers])
  have hone := lockCount_le s.lock
  -- The thread just notified is on its way to the slot.
  have hjc : coming (Function.update (notifyOne s.th j) i (.running .idle) j) = 1 := by
    have hji : j ≠ i := by
      rintro rfl
      rw [here] at sleeper
      cases sleeper
    rw [Function.update_of_ne hji, notifyOne, Function.update_self]
    rfl
  refine ⟨?_, fun _ _ _ ↦ ?_, fun hc hpos ↦ ?_⟩
  · have hw := weigh_update holders (notifyOne s.th j) i (.running .idle)
    have hle := hj.locked
    rw [hi] at hw
    simp only [holders, WriterSys.go] at hw hle ⊢
    omega
  · exact lt_of_lt_of_le (Nat.one_pos.trans_eq hjc.symm) (le_weigh coming _ j)
  · have hz := weigh_update sleepers (notifyOne s.th j) i (.running .idle)
    have hk := weigh_update closers (notifyOne s.th j) i (.running .idle)
    rw [hi] at hz hk
    simp only [sleepers, closers, add_zero, WriterSys.go] at hz hk hpos ⊢
    have := hj.whileClosed hc (by dsimp only; omega)
    dsimp only at this
    omega

theorem attended_notifyNone (here : s.th i = .running .notifying)
    (awake : ∀ k, s.th k ≠ .waiting false) (h : Attended s) :
    Attended ({ s with lock := none }.go i .idle) := by
  have hh := weigh_update holders s.th i (.running .idle)
  have hs := weigh_update asleep s.th i (.running .idle)
  have hz := weigh_update sleepers s.th i (.running .idle)
  have hk := weigh_update closers s.th i (.running .idle)
  rw [here] at hh hs hz hk
  rw [asleep_eq_zero awake] at hs
  have hle := h.locked
  have hone := lockCount_le s.lock
  simp only [holders, asleep, sleepers, closers, add_zero] at hh hs hz hk
  refine ⟨?_, fun _ _ hpos ↦ ?_, fun hc hpos ↦ ?_⟩
  · simp only [WriterSys.go]
    omega
  · simp only [WriterSys.go] at hpos
    omega
  · simp only [WriterSys.go] at hpos ⊢
    rw [hk]
    exact h.whileClosed hc (hz ▸ hpos)

theorem sleepers_le_holders (x : Thread WriterPc) : sleepers x ≤ holders x + asleep x := by
  cases x with
  | running p => cases p <;> simp [sleepers, holders, asleep]
  | waiting b => cases b <;> simp [sleepers, holders, asleep]

theorem attended_notifyAll (here : s.th i = .running .notifyingAll) (h : Attended s) :
    Attended ({ s with lock := none, th := notifyAll s.th }.go i .idle) := by
  have hi := notifyAll_of_running here
  have hh := weigh_update holders (notifyAll s.th) i (.running .idle)
  have hs := weigh_update asleep (notifyAll s.th) i (.running .idle)
  rw [hi, weigh_notifyAll rfl] at hh
  rw [hi, asleep_notifyAll] at hs
  have hle := h.locked
  have hone := lockCount_le s.lock
  simp only [holders, asleep, add_zero] at hh hs
  -- The close was the only holder of the mutex, so no acquire is left on its way to sleep.
  have hzero : weigh holders (Function.update (notifyAll s.th) i (.running .idle)) = 0 := by omega
  refine ⟨?_, fun _ _ hpos ↦ ?_, fun _ hpos ↦ ?_⟩
  · simp [WriterSys.go, hzero]
  · simp only [WriterSys.go] at hpos
    omega
  · exfalso
    obtain ⟨k, hk⟩ := weigh_pos hpos
    have h₁ := le_weigh holders (Function.update (notifyAll s.th) i (.running .idle)) k
    have h₂ := le_weigh asleep (Function.update (notifyAll s.th) i (.running .idle)) k
    have h₃ := sleepers_le_holders (Function.update (notifyAll s.th) i (.running .idle) k)
    simp only [WriterSys.go] at hk
    omega

theorem attended_move {a : WriterAction ι} (hm : WriterMove s a t) (h : Attended s) : Attended t := by
  have hone := lockCount_le s.lock
  cases hm with
  | acquire here | tryAcquire here | release here _ | close here | tryRefuse here _ | tryCheck here _
  | tryMiss here _ _ | discard here _ | keep here _ =>
    exact h.stay here rfl rfl rfl (by simp [WriterSys.go, holders]) (by simp [asleep])
      (Or.inl (by simp [coming])) (Or.inl (by simp [sleepers])) (by simp [closers])
  | lock here free | wake here free =>
    exact h.stay here rfl rfl rfl (by simp [WriterSys.go, holders, lockCount, free]) (by simp [asleep])
      (Or.inl (by simp [coming])) (Or.inl (by simp [sleepers])) (by simp [closers])
  | refuse here closed =>
    exact h.stay here rfl rfl rfl (by simpa [WriterSys.go, holders, lockCount] using hone)
      (by simp [asleep]) (Or.inr closed) (Or.inl (by simp [sleepers])) (by simp [closers])
  | check here closed =>
    exact h.stay here rfl rfl rfl (by simp [WriterSys.go, holders]) (by simp [asleep])
      (Or.inl (by simp [coming])) (Or.inr closed) (by simp [closers])
  | take here slot =>
    refine h.move here rfl (by simpa [WriterSys.go, holders, lockCount] using hone) ?_ ?_
    · simp [WriterSys.go]
    · exact fun hc ↦ Or.inr ⟨hc, by simp [sleepers], by simp [closers]⟩
  | wait here slot =>
    refine h.move here rfl (by simpa [holders, lockCount] using hone) ?_ ?_
    · simp [slot]
    · exact fun hc ↦ Or.inr ⟨hc, by simp [sleepers], by simp [closers]⟩
  | tryTake here free slot =>
    refine h.move here rfl (by simp [WriterSys.go, holders]) (by simp [WriterSys.go]) ?_
    exact fun hc ↦ Or.inr ⟨hc, by simp [sleepers], by simp [closers]⟩
  | put here free =>
    refine h.move here rfl (by simp [WriterSys.go, holders, lockCount, free]) ?_ ?_
    · exact fun ho _ ↦ ⟨by simp [asleep], ho, Or.inl (by simp [coming])⟩
    · exact fun hc ↦ Or.inr ⟨hc, by simp [sleepers], by simp [closers]⟩
  | notify here sleeper => exact attended_notify here sleeper h
  | notifyNone here awake => exact attended_notifyNone here awake h
  | store here =>
    refine h.move here rfl (by simp [WriterSys.go, holders]) (by simp [WriterSys.go]) ?_
    exact fun _ ↦ Or.inl (by simp [closers])
  | clear here free =>
    refine h.move here rfl (by simp [WriterSys.go, holders, lockCount, free]) (by simp [WriterSys.go]) ?_
    exact fun _ ↦ Or.inl (by simp [closers])
  | notifyAll here => exact attended_notifyAll here h

end Waking

section Closing

def clearers : Thread WriterPc → ℕ
  | .running .clearing => 1
  | _ => 0

/-- A release puts its connection back before any close has emptied the slot. -/
def PutsInTime (s : WriterSys ι) : WriterAction ι → Prop
  | .next i _ => s.th i = .running .putting → s.cleared = false
  | _ => True

instance (s : WriterSys ι) : (a : WriterAction ι) → Decidable (PutsInTime s a)
  | .next _ _ => inferInstanceAs (Decidable (_ → _))
  | .acquire _ => .isTrue trivial
  | .tryAcquire _ => .isTrue trivial
  | .release _ => .isTrue trivial
  | .close _ => .isTrue trivial

/-- A slot that was emptied stays empty, and a closed one has been or is about to be. -/
structure Emptied (s : WriterSys ι) : Prop where
  slot : s.cleared = true → s.slot = false
  closed : s.closed = true → s.cleared = true ∨ 0 < weigh clearers s.th

variable {s t : WriterSys ι} {i : ι} {x y : Thread WriterPc}

theorem Emptied.move (h : Emptied s) (here : s.th i = x) (hth : t.th = Function.update s.th i y)
    (hclosed : t.closed = s.closed) (hcleared : t.cleared = s.cleared)
    (hslot : t.slot = s.slot ∨ t.slot = false ∨ s.cleared = false) (hclear : clearers x ≤ clearers y) :
    Emptied t := by
  have hw := weigh_update clearers s.th i y
  rw [here] at hw
  refine ⟨fun hc ↦ ?_, fun hc ↦ ?_⟩
  · rw [hcleared] at hc
    rcases hslot with hslot | hslot | hnot
    · exact hslot.trans (h.slot hc)
    · exact hslot
    · simp [hc] at hnot
  · rw [hclosed] at hc
    rw [hcleared, hth]
    exact (h.closed hc).imp_right fun hpos ↦ by omega

theorem emptied_move {a : WriterAction ι} (hm : WriterMove s a t) (ha : PutsInTime s a)
    (h : Emptied s) : Emptied t := by
  cases hm with
  | acquire here | tryAcquire here | release here _ | close here | lock here _ | refuse here _
  | check here _ | wait here _ | wake here _ | tryRefuse here _ | tryCheck here _
  | tryMiss here _ _ | discard here _ | keep here _ | notifyNone here _ =>
    exact h.move here rfl rfl rfl (Or.inl rfl) (by simp [clearers])
  | take here _ | tryTake here _ _ =>
    exact h.move here rfl rfl rfl (Or.inr (Or.inl rfl)) (by simp [clearers])
  | put here free => exact h.move here rfl rfl rfl (Or.inr (Or.inr (ha here))) (by simp [clearers])
  | @notify _ j here sleeper =>
    have hj : Emptied { s with th := notifyOne s.th j } :=
      h.move sleeper rfl rfl rfl (Or.inl rfl) (by simp [clearers])
    exact hj.move (notifyOne_of_running here sleeper) rfl rfl rfl (Or.inl rfl) (by simp [clearers])
  | @store i _ here =>
    refine ⟨h.slot, fun _ ↦ Or.inr (lt_of_lt_of_le ?_ (le_weigh clearers _ i))⟩
    simp [WriterSys.go, clearers]
  | clear here free => exact ⟨fun _ ↦ rfl, fun _ ↦ Or.inl rfl⟩
  | notifyAll here =>
    have hall : Emptied { s with th := notifyAll s.th } :=
      ⟨h.slot, fun hc ↦ by rw [weigh_notifyAll rfl]; exact h.closed hc⟩
    exact hall.move (notifyAll_of_running here) rfl rfl rfl (Or.inl rfl) (by simp [clearers])

theorem single_run (as : List (WriterAction ι)) : Single (run writerStep (.new ι) as) := by
  refine run_invariant writerStep (fun s a h ↦ ?_) ?_ as
  · rcases writerStep_move s a with he | hm
    · rwa [he]
    · exact single_move hm h
  · simp [Single, WriterSys.new, weigh, carriers]

theorem attended_run (as : List (WriterAction ι)) : Attended (run writerStep (.new ι) as) := by
  refine run_invariant writerStep (fun s a h ↦ ?_) ?_ as
  · rcases writerStep_move s a with he | hm
    · rwa [he]
    · exact attended_move hm h
  · constructor <;> simp [WriterSys.new, weigh, holders, asleep]

theorem emptied_run (as : List (WriterAction ι)) (has : Along writerStep PutsInTime (.new ι) as) :
    Emptied (run writerStep (.new ι) as) := by
  refine along_invariant writerStep (fun s a ha h ↦ ?_) ?_ has
  · rcases writerStep_move s a with he | hm
    · rwa [he]
    · exact emptied_move hm ha h
  · constructor <;> simp [WriterSys.new]

omit [DecidableEq ι] in
theorem Emptied.at_rest (h : Emptied s) (hc : s.closed = true)
    (hrest : ∀ i, s.th i = .running .idle) : s.slot = false := by
  rcases h.closed hc with hcleared | hpos
  · exact h.slot hcleared
  · obtain ⟨i, hi⟩ := weigh_pos hpos
    simp [hrest i, clearers] at hi

omit [Fintype ι] in
theorem closed_move {a : WriterAction ι} (hm : WriterMove s a t) (h : s.closed = true) :
    t.closed = true := by
  cases hm with
  | store here => rfl
  | _ => exact h

theorem closed_writerStep (s : WriterSys ι) (a : WriterAction ι) (h : s.closed = true) :
    (writerStep s a).closed = true := by
  rcases writerStep_move s a with he | hm
  · rwa [he]
  · exact closed_move hm h

theorem writerStep_refuses (h : s.closed = true) (i j : ι) :
    (s.th i = .running .checking → writerStep s (.next i j) = { s with lock := none }.go i .idle) ∧
      (s.th i = .running .tryLoading → writerStep s (.next i j) = s.go i .idle) := by
  constructor <;> intro hi <;> simp [writerStep, writerNext, hi, h]

end Closing

end System

end Writer

section Both

open Writer Readers

variable {ι : Type} [DecidableEq ι] [Fintype ι]

/-- In every run of the writer and of the reader pool: the writer's connection is held once at most; no
acquire of the writer sleeps on a full slot with nobody coming for it, or past a close with no
notification to come; the reader connections stay within `max`; and every acquire after a close refuses.
If no release puts its connection back after a close has emptied the slot or the pool, these are empty
once a close and every other call has returned. -/
theorem connections_released (max : ℕ) (as : List (WriterAction ι)) (bs : List (ReaderAction ι)) :
    let w := run writerStep (.new ι) as
    let r := run (readerStep max) (.new ι) bs
    (w.held ≤ 1 ∧ (w.slot = true → w.held = 0)) ∧
    (∀ i, w.th i = .waiting false →
      (w.closed = false → w.slot = true → 0 < weigh Writer.coming w.th) ∧
        (w.closed = true → 0 < weigh Writer.closers w.th)) ∧
    r.pool + r.checkedOut + weigh connections r.th ≤ max ∧
    (Along writerStep PutsInTime (.new ι) as → w.closed = true → (∀ i, w.th i = .running .idle) →
      w.slot = false) ∧
    (Along (readerStep max) PushesInTime (.new ι) bs → r.closed = true →
      (∀ i, r.th i = .running .idle) → r.pool = 0) ∧
    (w.closed = true → ∀ cs i j,
      ((run writerStep w cs).th i = .running .checking →
        writerStep (run writerStep w cs) (.next i j) =
          { run writerStep w cs with lock := none }.go i .idle) ∧
      ((run writerStep w cs).th i = .running .tryLoading →
        writerStep (run writerStep w cs) (.next i j) = (run writerStep w cs).go i .idle)) ∧
    (r.closed = true → ∀ cs i opens j, (run (readerStep max) r cs).th i = .running .entering →
      readerStep max (run (readerStep max) r cs) (.next i opens j) =
        (run (readerStep max) r cs).go i .idle) := by
  intro w r
  have hsingle : Single w := single_run as
  have hatt : Attended w := attended_run as
  have hacc : Accounted max r := accounted_run bs
  refine ⟨⟨?_, ?_⟩, ?_, hacc.le.trans hacc.capacity, fun has ↦ (Writer.emptied_run as has).at_rest,
    fun hbs ↦ (Readers.emptied_run bs hbs).at_rest, ?_, ?_⟩
  · unfold Single at hsingle
    omega
  · intro hslot
    unfold Single at hsingle
    rw [hslot, Bool.toNat_true] at hsingle
    omega
  · intro i hi
    refine ⟨fun hopen hslot ↦ hatt.whileOpen hopen hslot (asleep_pos hi), fun hclosed ↦ ?_⟩
    refine hatt.whileClosed hclosed (lt_of_lt_of_le ?_ (le_weigh sleepers w.th i))
    rw [hi]
    exact Nat.one_pos
  · intro hclosed cs i j
    exact writerStep_refuses (run_invariant writerStep closed_writerStep hclosed cs) i j
  · intro hclosed cs i opens j hi
    exact readerStep_refuses (run_invariant (readerStep max) closed_readerStep hclosed cs) hi opens j

/-- A connection is acquired and released, and then the writer is closed. -/
def writerAtRest : List (WriterAction Bool) :=
  .acquire false :: Writer.advance false 3 ++ .release false :: Writer.advance false 3 ++
    .close true :: Writer.advance true 3

/-- The same for the reader pool. -/
def readersAtRest : List (ReaderAction Bool) :=
  .acquire false :: Readers.advance false 5 ++ .release false :: Readers.advance false 3 ++
    .close true :: Readers.advance true 3

theorem connections_released_at_rest :
    (run writerStep (.new Bool) writerAtRest).slot = false ∧
      (run (readerStep 1) (.new Bool) readersAtRest).pool = 0 := by
  obtain ⟨-, -, -, hslot, hpool, -⟩ := connections_released 1 writerAtRest readersAtRest
  exact ⟨hslot (by decide) (by decide) (by decide), hpool (by decide) (by decide) (by decide)⟩

/-- A release that has read `closed` before the close puts its connection back after it, and slot and
pool keep it with every call returned. -/
theorem closed_keeps_connection :
    let w := run writerStep (.new Bool) (.acquire false :: Writer.advance false 3 ++
      .release false :: Writer.advance false 1 ++ .close true :: Writer.advance true 3 ++
      Writer.advance false 2)
    let r := run (readerStep 1) (.new Bool) (.acquire false :: Readers.advance false 5 ++
      .release false :: Readers.advance false 1 ++ .close true :: Readers.advance true 3 ++
      Readers.advance false 2)
    (w.closed = true ∧ (∀ i, w.th i = .running .idle) ∧ w.held = 0 ∧ w.slot = true) ∧
      r.closed = true ∧ (∀ i, r.th i = .running .idle) ∧ r.checkedOut = 0 ∧ r.pool = 1 := by
  decide

end Both

end Honker
