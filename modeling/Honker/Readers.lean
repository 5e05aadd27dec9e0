import Honker.Library.Interleaving
import Honker.Library.Monitor

namespace Honker

open Interleaving Monitor

/-- The next statement of a thread in `Readers::acquire`, `release` or `close`. At `counting`,
`parking` and `notifying` it holds the mutex of the pool. -/
inductive ReaderPc
  | idle
  | entering
  | locking
  | counting
  | parking
  | opening
  | opened
  | refunding
  | releasing
  | pushing
  | notifying
  | closing
  | clearing
  | notifyingAll
deriving DecidableEq

/-- The reader pool with its threads. `lock` is the holder of the mutex of the pool between two
steps, `checkedOut` the number of connections handed out. `cleared` records that a `close` has
emptied the pool. -/
structure ReaderSys (ι : Type) where
  pool : ℕ
  outstanding : ℕ
  closed : Bool
  lock : Option ι
  checkedOut : ℕ
  cleared : Bool
  th : ι → Thread ReaderPc

def ReaderSys.new (ι : Type) : ReaderSys ι := ⟨0, 0, false, none, 0, false, fun _ ↦ .running .idle⟩

/-- A call of a thread that is in none, or the next statement of a thread. `opens` tells whether
`open_conn` succeeds, `j` which waiting thread `notify_one` picks. -/
inductive ReaderAction (ι : Type)
  | acquire (i : ι)
  | release (i : ι)
  | close (i : ι)
  | next (i : ι) (opens : Bool) (j : ι)

def ReaderSys.go {ι : Type} [DecidableEq ι] (s : ReaderSys ι) (i : ι) (p : ReaderPc) : ReaderSys ι :=
  { s with th := Function.update s.th i (.running p) }

namespace Readers

section System

variable {ι : Type} [DecidableEq ι] [Fintype ι] (max : ℕ)

def readerNext (s : ReaderSys ι) (i : ι) (opens : Bool) (j : ι) : ReaderSys ι :=
  match s.th i with
  | .running .idle => s
  | .running .entering => s.go i (if s.closed then .idle else .locking)
  | .running .locking =>
    if s.lock ≠ none then s
    else if 0 < s.pool then
      { s with pool := s.pool - 1, checkedOut := s.checkedOut + 1 }.go i .idle
    else { s with lock := some i }.go i .counting
  | .running .counting =>
    if s.outstanding < max then
      { s with outstanding := s.outstanding + 1, lock := none }.go i .opening
    else s.go i .parking
  | .running .parking => { s with lock := none, th := Function.update s.th i (.waiting false) }
  | .waiting false => s
  | .waiting true => if s.lock ≠ none then s else s.go i .entering
  | .running .opening => s.go i (if opens then .opened else .refunding)
  | .running .opened =>
    if s.closed then s.go i .refunding else { s with checkedOut := s.checkedOut + 1 }.go i .idle
  | .running .refunding => { s with outstanding := s.outstanding - 1 }.go i .idle
  | .running .releasing => s.go i (if s.closed then .idle else .pushing)
  | .running .pushing =>
    if s.lock ≠ none then s else { s with pool := s.pool + 1, lock := some i }.go i .notifying
  | .running .notifying =>
    if s.th j = .waiting false then { s with lock := none, th := notifyOne s.th j }.go i .idle
    else if ∀ k, s.th k ≠ .waiting false then { s with lock := none }.go i .idle
    else s
  | .running .closing => { s with closed := true }.go i .clearing
  | .running .clearing =>
    if s.lock ≠ none then s else { s with pool := 0, cleared := true }.go i .notifyingAll
  | .running .notifyingAll => { s with th := notifyAll s.th }.go i .idle

def readerStep (s : ReaderSys ι) : ReaderAction ι → ReaderSys ι
  | .acquire i => if s.th i = .running .idle then s.go i .entering else s
  | .release i =>
    if s.th i = .running .idle ∧ 0 < s.checkedOut then
      { s with checkedOut := s.checkedOut - 1 }.go i .releasing
    else s
  | .close i => if s.th i = .running .idle then s.go i .closing else s
  | .next i opens j => readerNext max s i opens j

/-- The next `n` statements of one thread, in which every open succeeds. -/
def advance (i : ι) (n : ℕ) : List (ReaderAction ι) := List.replicate n (.next i true i)

/-- The moves of the threads, one constructor for each way a statement can go. -/
inductive ReaderMove (s : ReaderSys ι) : ReaderAction ι → ReaderSys ι → Prop
  | acquire {i : ι} (here : s.th i = .running .idle) : ReaderMove s (.acquire i) (s.go i .entering)
  | release {i : ι} (here : s.th i = .running .idle) (out : 0 < s.checkedOut) :
      ReaderMove s (.release i) ({ s with checkedOut := s.checkedOut - 1 }.go i .releasing)
  | close {i : ι} (here : s.th i = .running .idle) : ReaderMove s (.close i) (s.go i .closing)
  | refuse {i j : ι} {opens : Bool} (here : s.th i = .running .entering) (closed : s.closed = true) :
      ReaderMove s (.next i opens j) (s.go i .idle)
  | enter {i j : ι} {opens : Bool} (here : s.th i = .running .entering) (closed : s.closed = false) :
      ReaderMove s (.next i opens j) (s.go i .locking)
  | pop {i j : ι} {opens : Bool} (here : s.th i = .running .locking) (free : s.lock = none)
      (pool : 0 < s.pool) : ReaderMove s (.next i opens j)
        ({ s with pool := s.pool - 1, checkedOut := s.checkedOut + 1 }.go i .idle)
  | miss {i j : ι} {opens : Bool} (here : s.th i = .running .locking) (free : s.lock = none)
      (pool : s.pool = 0) : ReaderMove s (.next i opens j) ({ s with lock := some i }.go i .counting)
  | reserve {i j : ι} {opens : Bool} (here : s.th i = .running .counting)
      (room : s.outstanding < max) : ReaderMove s (.next i opens j)
        ({ s with outstanding := s.outstanding + 1, lock := none }.go i .opening)
  | full {i j : ι} {opens : Bool} (here : s.th i = .running .counting) (room : max ≤ s.outstanding) :
      ReaderMove s (.next i opens j) (s.go i .parking)
  | wait {i j : ι} {opens : Bool} (here : s.th i = .running .parking) : ReaderMove s (.next i opens j)
      { s with lock := none, th := Function.update s.th i (.waiting false) }
  | wake {i j : ι} {opens : Bool} (here : s.th i = .waiting true) (free : s.lock = none) :
      ReaderMove s (.next i opens j) (s.go i .entering)
  | opened {i j : ι} {opens : Bool} (here : s.th i = .running .opening) :
      ReaderMove s (.next i opens j) (s.go i (if opens then .opened else .refunding))
  | recheck {i j : ι} {opens : Bool} (here : s.th i = .running .opened) (closed : s.closed = true) :
      ReaderMove s (.next i opens j) (s.go i .refunding)
  | handOut {i j : ι} {opens : Bool} (here : s.th i = .running .opened) (closed : s.closed = false) :
      ReaderMove s (.next i opens j) ({ s with checkedOut := s.checkedOut + 1 }.go i .idle)
  | refund {i j : ι} {opens : Bool} (here : s.th i = .running .refunding) :
      ReaderMove s (.next i opens j) ({ s with outstanding := s.outstanding - 1 }.go i .idle)
  | discard {i j : ι} {opens : Bool} (here : s.th i = .running .releasing) (closed : s.closed = true) :
      ReaderMove s (.next i opens j) (s.go i .idle)
  | keep {i j : ι} {opens : Bool} (here : s.th i = .running .releasing) (closed : s.closed = false) :
      ReaderMove s (.next i opens j) (s.go i .pushing)
  | push {i j : ι} {opens : Bool} (here : s.th i = .running .pushing) (free : s.lock = none) :
      ReaderMove s (.next i opens j) ({ s with pool := s.pool + 1, lock := some i }.go i .notifying)
  | notify {i j : ι} {opens : Bool} (here : s.th i = .running .notifying)
      (sleeper : s.th j = .waiting false) :
      ReaderMove s (.next i opens j) ({ s with lock := none, th := notifyOne s.th j }.go i .idle)
  | notifyNone {i j : ι} {opens : Bool} (here : s.th i = .running .notifying)
      (awake : ∀ k, s.th k ≠ .waiting false) :
      ReaderMove s (.next i opens j) ({ s with lock := none }.go i .idle)
  | store {i j : ι} {opens : Bool} (here : s.th i = .running .closing) :
      ReaderMove s (.next i opens j) ({ s with closed := true }.go i .clearing)
  | clear {i j : ι} {opens : Bool} (here : s.th i = .running .clearing) (free : s.lock = none) :
      ReaderMove s (.next i opens j) ({ s with pool := 0, cleared := true }.go i .notifyingAll)
  | notifyAll {i j : ι} {opens : Bool} (here : s.th i = .running .notifyingAll) :
      ReaderMove s (.next i opens j) ({ s with th := notifyAll s.th }.go i .idle)

variable {max}

theorem readerNext_move (s : ReaderSys ι) (i j : ι) (opens : Bool) :
    readerNext max s i opens j = s ∨
      ReaderMove max s (.next i opens j) (readerNext max s i opens j) := by
  unfold readerNext
  split
  next h => exact Or.inl rfl
  next h =>
    by_cases hc : s.closed = true
    · rw [if_pos hc]
      exact Or.inr (.refuse h hc)
    · rw [if_neg hc]
      exact Or.inr (.enter h (by simpa using hc))
  next h =>
    split_ifs with hl hp
    · exact Or.inl rfl
    · exact Or.inr (.pop h (not_not.mp hl) hp)
    · exact Or.inr (.miss h (not_not.mp hl) (by omega))
  next h =>
    split_ifs with hr
    · exact Or.inr (.reserve h hr)
    · exact Or.inr (.full h (by omega))
  next h => exact Or.inr (.wait h)
  next h => exact Or.inl rfl
  next h =>
    split_ifs with hl
    · exact Or.inl rfl
    · exact Or.inr (.wake h (not_not.mp hl))
  next h => exact Or.inr (.opened h)
  next h =>
    split_ifs with hc
    · exact Or.inr (.recheck h hc)
    · exact Or.inr (.handOut h (by simpa using hc))
  next h => exact Or.inr (.refund h)
  next h =>
    by_cases hc : s.closed = true
    · rw [if_pos hc]
      exact Or.inr (.discard h hc)
    · rw [if_neg hc]
      exact Or.inr (.keep h (by simpa using hc))
  next h =>
    split_ifs with hl
    · exact Or.inl rfl
    · exact Or.inr (.push h (not_not.mp hl))
  next h =>
    split_ifs with hj hk
    · exact Or.inr (.notify h hj)
    · exact Or.inr (.notifyNone h hk)
    · exact Or.inl rfl
  next h => exact Or.inr (.store h)
  next h =>
    split_ifs with hl
    · exact Or.inl rfl
    · exact Or.inr (.clear h (not_not.mp hl))
  next h => exact Or.inr (.notifyAll h)

theorem readerStep_move (s : ReaderSys ι) (a : ReaderAction ι) :
    readerStep max s a = s ∨ ReaderMove max s a (readerStep max s a) := by
  cases a with
  | acquire i =>
    rw [readerStep]
    split_ifs with h
    · exact Or.inr (.acquire h)
    · exact Or.inl rfl
  | release i =>
    rw [readerStep]
    split_ifs with h
    · exact Or.inr (.release h.1 h.2)
    · exact Or.inl rfl
  | close i =>
    rw [readerStep]
    split_ifs with h
    · exact Or.inr (.close h)
    · exact Or.inl rfl
  | next i opens j => exact readerNext_move s i j opens

section Accounting

/-- The threads that hold a connection, or the capacity for one, inside a call. -/
def connections : Thread ReaderPc → ℕ
  | .running .opening => 1
  | .running .opened => 1
  | .running .refunding => 1
  | .running .releasing => 1
  | .running .pushing => 1
  | _ => 0

/-- The connections pooled, handed out and in hand stay within the capacity taken. -/
structure Accounted (max : ℕ) (s : ReaderSys ι) : Prop where
  le : s.pool + s.checkedOut + weigh connections s.th ≤ s.outstanding
  capacity : s.outstanding ≤ max

variable {s t : ReaderSys ι} {i : ι} {x y : Thread ReaderPc}

theorem Accounted.move (h : Accounted max s) (here : s.th i = x)
    (hth : t.th = Function.update s.th i y)
    (hle : t.pool + t.checkedOut + connections y + s.outstanding ≤
      s.pool + s.checkedOut + connections x + t.outstanding)
    (hmax : t.outstanding ≤ max) : Accounted max t := by
  have hw := weigh_update connections s.th i y
  have hx := le_weigh connections s.th i
  have hcap := h.le
  rw [here] at hw hx
  refine ⟨?_, hmax⟩
  rw [hth]
  omega

theorem accounted_move {a : ReaderAction ι} (hm : ReaderMove max s a t) (h : Accounted max s) :
    Accounted max t := by
  have hmax := h.capacity
  cases hm with
  | acquire here | close here | wait here | store here =>
    exact h.move here rfl (by simp [ReaderSys.go, connections]) hmax
  | refuse here _ | enter here _ | full here _ | wake here _ | recheck here _ | discard here _
  | keep here _ | notifyNone here _ | miss here _ _ =>
    exact h.move here rfl (by simp [ReaderSys.go, connections]) hmax
  | release here _ | handOut here _ | push here _ | clear here _ | pop here _ _ =>
    exact h.move here rfl (by simp only [ReaderSys.go, connections]; omega) hmax
  | reserve here room =>
    exact h.move here rfl (by simp only [ReaderSys.go, connections]; omega) room
  | @opened _ _ opens here =>
    refine h.move here rfl ?_ hmax
    cases opens <;> simp [ReaderSys.go, connections]
  | refund here =>
    refine h.move here rfl ?_ ((Nat.sub_le _ _).trans hmax)
    simp only [ReaderSys.go, connections]
    omega
  | @notify _ j _ here sleeper =>
    have hj : Accounted max { s with lock := none, th := notifyOne s.th j } :=
      h.move sleeper rfl (by simp [connections]) hmax
    exact hj.move (notifyOne_of_running here sleeper) rfl (by simp [ReaderSys.go, connections]) hmax
  | notifyAll here =>
    have hall : Accounted max { s with th := notifyAll s.th } :=
      ⟨by rw [weigh_notifyAll rfl]; exact h.le, hmax⟩
    exact hall.move (notifyAll_of_running here) rfl (by simp [ReaderSys.go, connections]) hmax

end Accounting

section Locking

/-- The threads that hold the mutex of the pool. -/
def holders : Thread ReaderPc → ℕ
  | .running .counting => 1
  | .running .parking => 1
  | .running .notifying => 1
  | _ => 0

/-- Those of them that have found the pool empty. -/
def missed : Thread ReaderPc → ℕ
  | .running .counting => 1
  | .running .parking => 1
  | _ => 0

theorem missed_le (x : Thread ReaderPc) : missed x ≤ holders x := by
  cases x with
  | running p => cases p <;> simp [missed, holders]
  | waiting b => rfl

structure Locked (s : ReaderSys ι) : Prop where
  le : weigh holders s.th ≤ lockCount s.lock
  empty : 0 < weigh missed s.th → s.pool = 0

variable {s t : ReaderSys ι} {i : ι} {x y : Thread ReaderPc}

theorem Locked.move (h : Locked s) (here : s.th i = x) (hth : t.th = Function.update s.th i y)
    (hlock : lockCount s.lock + holders y ≤ lockCount t.lock + holders x)
    (hempty : (missed y ≤ missed x ∧ t.pool ≤ s.pool) ∨ t.pool = 0 ∨ (s.lock = none ∧ missed y = 0)) :
    Locked t := by
  have hw := weigh_update holders s.th i y
  have hm := weigh_update missed s.th i y
  have hx := le_weigh holders s.th i
  have hle := weigh_mono missed_le s.th
  rw [here] at hw hm hx
  refine ⟨?_, ?_⟩
  · have := h.le
    rw [hth]
    omega
  · rw [hth]
    intro hpos
    rcases hempty with ⟨hmy, hpool⟩ | hpool | ⟨hfree, hmy⟩
    · have := h.empty (by omega)
      omega
    · exact hpool
    · have := h.le
      rw [hfree, lockCount] at this
      omega

theorem locked_move {a : ReaderAction ι} (hm : ReaderMove max s a t) (h : Locked s) : Locked t := by
  have hone := lockCount_le s.lock
  cases hm with
  | acquire here | release here _ | close here | refuse here _ | enter here _ | pop here _ _
  | full here _ | wake here _ | recheck here _ | handOut here _ | refund here | discard here _
  | keep here _ | store here | clear here _ =>
    exact h.move here rfl (by simp [ReaderSys.go, holders]) (by simp [ReaderSys.go, missed])
  | miss here free pool =>
    refine h.move here rfl ?_ (Or.inr (Or.inl pool))
    simp [ReaderSys.go, holders, lockCount, free]
  | reserve here _ | wait here =>
    exact h.move here rfl (by simpa [ReaderSys.go, holders, lockCount] using hone)
      (by simp [ReaderSys.go, missed])
  | notifyNone here _ =>
    exact h.move here rfl (by simpa [ReaderSys.go, holders, lockCount] using hone)
      (by simp [ReaderSys.go, missed])
  | @opened _ _ opens here =>
    cases opens <;> exact h.move here rfl (by simp [ReaderSys.go, holders])
      (by simp [ReaderSys.go, missed])
  | push here free =>
    refine h.move here rfl ?_ (Or.inr (Or.inr ⟨free, rfl⟩))
    simp [ReaderSys.go, holders, lockCount, free]
  | @notify _ j _ here sleeper =>
    have hj : Locked { s with th := notifyOne s.th j } :=
      h.move sleeper rfl (by simp [holders]) (by simp [missed])
    exact hj.move (notifyOne_of_running here sleeper) rfl
      (by simpa [ReaderSys.go, holders, lockCount] using hone) (by simp [ReaderSys.go, missed])
  | notifyAll here =>
    have hall : Locked { s with th := notifyAll s.th } :=
      ⟨by rw [weigh_notifyAll rfl]; exact h.le, by rw [weigh_notifyAll rfl]; exact h.empty⟩
    exact hall.move (notifyAll_of_running here) rfl (by simp [ReaderSys.go, holders])
      (by simp [ReaderSys.go, missed])

end Locking

section Waking

/-- The releases about to notify and, in the wide sense, the acquires on their way to the pool. -/
def coming (wide : Bool) : Thread ReaderPc → ℕ
  | .running .notifying => 1
  | .running .entering => wide.toNat
  | .running .locking => wide.toNat
  | .waiting true => wide.toNat
  | _ => 0

/-- The closes that have yet to notify. -/
def closers : Thread ReaderPc → ℕ
  | .running .clearing => 1
  | .running .notifyingAll => 1
  | _ => 0

/-- While an acquire sleeps, an open pool has no capacity left and no more connections than threads
coming for them; and a closed one has a close that will notify. -/
structure Quiet (max : ℕ) (wide : Bool) (s : ReaderSys ι) : Prop where
  whileOpen : s.closed = false → 0 < weigh asleep s.th →
    max ≤ s.outstanding ∧ s.pool ≤ weigh (coming wide) s.th
  whileClosed : s.closed = true → 0 < weigh asleep s.th → 0 < weigh closers s.th

/-- Capacity is given back only when nobody sleeps, and an acquire goes to sleep only on a full pool,
or on a closed one whose close has yet to notify. -/
def KeepsAwake (max : ℕ) (s : ReaderSys ι) : ReaderAction ι → Prop
  | .next i _ _ =>
    (s.th i = .running .refunding → s.closed = false → weigh asleep s.th = 0) ∧
      (s.th i = .running .parking → s.closed = false → max ≤ s.outstanding) ∧
      (s.th i = .running .parking → s.closed = true → 0 < weigh closers s.th)
  | _ => True

/-- A release notifies the last sleeping acquire. -/
def NotifiesLast (s : ReaderSys ι) : ReaderAction ι → Prop
  | .next i _ _ => s.th i = .running .notifying → weigh asleep s.th ≤ 1
  | _ => True

instance (max : ℕ) (s : ReaderSys ι) : (a : ReaderAction ι) → Decidable (KeepsAwake max s a)
  | .next _ _ _ => inferInstanceAs (Decidable (_ ∧ _))
  | .acquire _ => .isTrue trivial
  | .release _ => .isTrue trivial
  | .close _ => .isTrue trivial

instance (s : ReaderSys ι) : (a : ReaderAction ι) → Decidable (NotifiesLast s a)
  | .next _ _ _ => inferInstanceAs (Decidable (_ → _))
  | .acquire _ => .isTrue trivial
  | .release _ => .isTrue trivial
  | .close _ => .isTrue trivial

variable {s t : ReaderSys ι} {i : ι} {x y : Thread ReaderPc} {wide : Bool}

theorem Quiet.move (h : Quiet max wide s) (here : s.th i = x)
    (hth : t.th = Function.update s.th i y) (hclosed : t.closed = s.closed)
    (hasleep : asleep y ≤ asleep x) (hout : s.outstanding ≤ t.outstanding)
    (hpool : t.pool + coming wide x ≤ s.pool + coming wide y ∨ t.pool = 0 ∨ s.closed = true)
    (hclosers : closers x ≤ closers y) : Quiet max wide t := by
  have ha := weigh_update asleep s.th i y
  have hc := weigh_update (coming wide) s.th i y
  have hk := weigh_update closers s.th i y
  have hxc := le_weigh (coming wide) s.th i
  rw [here] at ha hc hk hxc
  refine ⟨?_, ?_⟩
  · rw [hclosed, hth]
    intro hopen hpos
    obtain ⟨hmax, hle⟩ := h.whileOpen hopen (by omega)
    refine ⟨hmax.trans hout, ?_⟩
    rcases hpool with hpool | hpool | hshut
    · omega
    · omega
    · simp [hopen] at hshut
  · rw [hclosed, hth]
    intro hshut hpos
    have := h.whileClosed hshut (by omega)
    omega

theorem quiet_move {a : ReaderAction ι} (hm : ReaderMove max s a t) (ha : KeepsAwake max s a)
    (hn : wide = true ∨ NotifiesLast s a) (hl : Locked s) (h : Quiet max wide s) :
    Quiet max wide t := by
  cases hm with
  | acquire here | release here _ | close here | enter here _ | full here _ | wake here _
  | recheck here _ | handOut here _ | discard here _ | keep here _ =>
    exact h.move here rfl rfl (by simp [asleep]) le_rfl (by simp [ReaderSys.go, coming])
      (by simp [closers])
  | refuse here closed =>
    exact h.move here rfl rfl (by simp [asleep]) le_rfl (Or.inr (Or.inr closed)) (by simp [closers])
  | pop here free pool =>
    refine h.move here rfl rfl (by simp [asleep]) le_rfl (Or.inl ?_) (by simp [closers])
    have := Bool.toNat_le wide
    simp only [ReaderSys.go, coming]
    omega
  | miss here free pool =>
    exact h.move here rfl rfl (by simp [asleep]) le_rfl (Or.inr (Or.inl pool)) (by simp [closers])
  | reserve here room =>
    exact h.move here rfl rfl (by simp [asleep]) (Nat.le_succ _) (by simp [ReaderSys.go, coming])
      (by simp [closers])
  | @wait i _ _ here =>
    have hempty : s.pool = 0 := by
      refine hl.empty (lt_of_lt_of_le ?_ (le_weigh missed s.th i))
      rw [here]
      exact Nat.one_pos
    have hk := weigh_update closers s.th i (.waiting false)
    rw [here] at hk
    refine ⟨fun hopen _ ↦ ⟨ha.2.1 here hopen, ?_⟩, fun hshut _ ↦ ?_⟩
    · exact hempty.trans_le (Nat.zero_le _)
    · simp only [closers, add_zero] at hk
      exact lt_of_lt_of_eq (ha.2.2 here hshut) hk.symm
  | @opened _ _ opens here =>
    cases opens <;> exact h.move here rfl rfl (by simp [asleep]) le_rfl (by simp [ReaderSys.go, coming])
      (by simp [closers])
  | @refund i _ _ here =>
    have hs := weigh_update asleep s.th i (.running .idle)
    have hk := weigh_update closers s.th i (.running .idle)
    rw [here] at hs hk
    simp only [asleep, closers, add_zero] at hs hk
    refine ⟨fun hopen hpos ↦ ?_, fun hshut hpos ↦ ?_⟩
    · have := ha.1 here hopen
      exact absurd hpos (by simp only [ReaderSys.go]; omega)
    · simp only [ReaderSys.go] at hpos ⊢
      rw [hk]
      exact h.whileClosed hshut (hs ▸ hpos)
  | push here free =>
    exact h.move here rfl rfl (by simp [asleep]) le_rfl (by simp [ReaderSys.go, coming])
      (by simp [closers])
  | @notify i j _ here sleeper =>
    have hi := notifyOne_of_running here sleeper
    have hs := weigh_update asleep (notifyOne s.th j) i (.running .idle)
    have hc := weigh_update (coming wide) (notifyOne s.th j) i (.running .idle)
    have hk := weigh_update closers (notifyOne s.th j) i (.running .idle)
    have hs' := weigh_update asleep s.th j (.waiting true)
    have hc' := weigh_update (coming wide) s.th j (.waiting true)
    have hk' := weigh_update closers s.th j (.waiting true)
    rw [hi] at hs hc hk
    rw [sleeper] at hs' hc' hk'
    simp only [asleep, coming, closers, notifyOne, add_zero] at hs hc hk hs' hc' hk'
    refine ⟨fun hopen hpos ↦ ?_, fun hshut hpos ↦ ?_⟩ <;>
      simp only [ReaderSys.go, notifyOne] at hpos ⊢
    · obtain ⟨hmax, hle⟩ := h.whileOpen hopen (by omega)
      refine ⟨hmax, ?_⟩
      rcases hn with rfl | hlast
      · simp only [Bool.toNat_true] at hc'
        omega
      · have := hlast here
        omega
    · have := h.whileClosed hshut (by omega)
      omega
  | @notifyNone i _ _ here awake =>
    have hs := weigh_update asleep s.th i (.running .idle)
    have hzero := asleep_eq_zero awake
    rw [here] at hs
    simp only [asleep, add_zero] at hs
    exact ⟨fun _ hpos ↦ absurd hpos (by simp only [ReaderSys.go]; omega),
      fun _ hpos ↦ absurd hpos (by simp only [ReaderSys.go]; omega)⟩
  | @store i _ _ here =>
    refine ⟨fun hopen ↦ absurd hopen (by simp [ReaderSys.go]), fun _ _ ↦ ?_⟩
    refine lt_of_lt_of_le ?_ (le_weigh closers _ i)
    simp [ReaderSys.go, closers]
  | clear here free =>
    exact h.move here rfl rfl (by simp [asleep]) le_rfl (Or.inr (Or.inl rfl)) (by simp [closers])
  | @notifyAll i _ _ here =>
    have hs := weigh_update asleep (notifyAll s.th) i (.running .idle)
    rw [notifyAll_of_running here, asleep_notifyAll] at hs
    simp only [asleep, add_zero] at hs
    exact ⟨fun _ hpos ↦ absurd hpos (by simp only [ReaderSys.go]; omega),
      fun _ hpos ↦ absurd hpos (by simp only [ReaderSys.go]; omega)⟩

theorem quiet_run (as : List (ReaderAction ι))
    (has : Along (readerStep max)
      (fun s a ↦ KeepsAwake max s a ∧ (wide = true ∨ NotifiesLast s a)) (.new ι) as) :
    Quiet max wide (run (readerStep max) (.new ι) as) := by
  suffices h : Locked (run (readerStep max) (.new ι) as) ∧
      Quiet max wide (run (readerStep max) (.new ι) as) from h.2
  refine along_invariant (P := fun s ↦ Locked s ∧ Quiet max wide s) (readerStep max)
    (fun s a ha h ↦ ?_) ?_ has
  · rcases readerStep_move s a with he | hm
    · rwa [he]
    · exact ⟨locked_move hm h.1, quiet_move hm ha.1 ha.2 h.1 h.2⟩
  · refine ⟨⟨?_, ?_⟩, ⟨?_, ?_⟩⟩ <;> simp [ReaderSys.new, weigh, holders, missed, asleep]

/-- The places from which a call goes on to notify. -/
def willNotify : Thread ReaderPc → Bool
  | .running .pushing => true
  | .running .notifying => true
  | .running .clearing => true
  | .running .notifyingAll => true
  | _ => false

/-- A call under way has yet to notify. -/
def Pending (s : ReaderSys ι) : Prop := ∃ k, willNotify (s.th k) = true

instance (s : ReaderSys ι) : Decidable (Pending s) := inferInstanceAs (Decidable (∃ _, _))

/-- An acquire sleeps, no call under way will notify, and yet the pool is closed, or has capacity
left, or more connections than are spoken for. -/
def Stranded (max spoken : ℕ) (s : ReaderSys ι) (i : ι) : Prop :=
  s.th i = .waiting false ∧ ¬ Pending s ∧
    (spoken < s.pool ∨ s.outstanding < max ∨ s.closed = true)

instance (max spoken : ℕ) (s : ReaderSys ι) (i : ι) : Decidable (Stranded max spoken s i) :=
  inferInstanceAs (Decidable (_ ∧ _))

omit [DecidableEq ι] in
theorem pending_of_weight {w : Thread ReaderPc → ℕ} (hw : ∀ x, 0 < w x → willNotify x = true)
    (h : 0 < weigh w s.th) : Pending s := by
  obtain ⟨k, hk⟩ := weigh_pos h
  exact ⟨k, hw _ hk⟩

theorem willNotify_of_closers (x : Thread ReaderPc) (h : 0 < closers x) : willNotify x = true := by
  cases x with
  | waiting b => simp [closers] at h
  | running p => cases p <;> simp_all [closers, willNotify]

theorem willNotify_of_coming (x : Thread ReaderPc) (h : 0 < coming false x) : willNotify x = true := by
  cases x with
  | waiting b => cases b <;> simp [coming] at h
  | running p => cases p <;> simp_all [coming, willNotify]

omit [DecidableEq ι] in
theorem not_stranded (h : Quiet max wide s) {spoken : ℕ}
    (hspoken : ¬ Pending s → weigh (coming wide) s.th ≤ spoken) (i : ι) :
    ¬ Stranded max spoken s i := by
  rintro ⟨hi, hpending, hwhile⟩
  cases hc : s.closed with
  | true => exact hpending (pending_of_weight willNotify_of_closers (h.whileClosed hc (asleep_pos hi)))
  | false =>
    obtain ⟨hmax, hpool⟩ := h.whileOpen hc (asleep_pos hi)
    have := hspoken hpending
    rcases hwhile with hw | hw | hw
    · omega
    · omega
    · simp [hc] at hw

/-- In every run in which capacity is given back only when no acquire sleeps, and no acquire goes to
sleep on capacity given back meanwhile or on a pool that a close has already notified, no acquire is
stranded: the connections in the pool are no more than the acquires on their way to them. If,
besides, each release notifies the last sleeping acquire, no acquire sleeps on a non-empty pool. -/
theorem no_stranded_acquire (max : ℕ) (as : List (ReaderAction ι))
    (has : Along (readerStep max) (KeepsAwake max) (.new ι) as) :
    (∀ i, ¬ Stranded max (weigh (coming true) (run (readerStep max) (.new ι) as).th)
      (run (readerStep max) (.new ι) as) i) ∧
    (Along (readerStep max) (fun s a ↦ KeepsAwake max s a ∧ NotifiesLast s a) (.new ι) as →
      ∀ i, ¬ Stranded max 0 (run (readerStep max) (.new ι) as) i) := by
  refine ⟨fun i ↦ ?_, fun hlast i ↦ ?_⟩
  · have hq : Quiet max true (run (readerStep max) (.new ι) as) :=
      quiet_run as (has.imp fun _ _ h ↦ ⟨h, Or.inl rfl⟩)
    exact not_stranded hq (fun _ ↦ le_rfl) i
  · have hq : Quiet max false (run (readerStep max) (.new ι) as) :=
      quiet_run as (hlast.imp fun _ _ h ↦ ⟨h.1, Or.inr h.2⟩)
    refine not_stranded hq (fun hpending ↦ ?_) i
    exact Nat.le_of_not_lt fun hpos ↦ hpending (pending_of_weight willNotify_of_coming hpos)

end Waking

section Closing

def clearers : Thread ReaderPc → ℕ
  | .running .clearing => 1
  | _ => 0

/-- A release puts its connection back before any close has emptied the pool. -/
def PushesInTime (s : ReaderSys ι) : ReaderAction ι → Prop
  | .next i _ _ => s.th i = .running .pushing → s.cleared = false
  | _ => True

instance (s : ReaderSys ι) : (a : ReaderAction ι) → Decidable (PushesInTime s a)
  | .next _ _ _ => inferInstanceAs (Decidable (_ → _))
  | .acquire _ => .isTrue trivial
  | .release _ => .isTrue trivial
  | .close _ => .isTrue trivial

/-- A pool that was emptied stays empty, and a closed one has been or is about to be. -/
structure Emptied (s : ReaderSys ι) : Prop where
  pool : s.cleared = true → s.pool = 0
  closed : s.closed = true → s.cleared = true ∨ 0 < weigh clearers s.th

variable {s t : ReaderSys ι} {i : ι} {x y : Thread ReaderPc}

theorem Emptied.move (h : Emptied s) (here : s.th i = x) (hth : t.th = Function.update s.th i y)
    (hclosed : t.closed = s.closed) (hcleared : t.cleared = s.cleared)
    (hpool : t.pool ≤ s.pool ∨ s.cleared = false) (hclear : clearers x ≤ clearers y) : Emptied t := by
  have hw := weigh_update clearers s.th i y
  rw [here] at hw
  refine ⟨fun hc ↦ ?_, fun hc ↦ ?_⟩
  · rw [hcleared] at hc
    rcases hpool with hpool | hnot
    · exact Nat.le_zero.mp (hpool.trans (h.pool hc).le)
    · simp [hc] at hnot
  · rw [hclosed] at hc
    rw [hcleared, hth]
    exact (h.closed hc).imp_right fun hpos ↦ by omega

theorem emptied_move {a : ReaderAction ι} (hm : ReaderMove max s a t) (ha : PushesInTime s a)
    (h : Emptied s) : Emptied t := by
  cases hm with
  | acquire here | release here _ | close here | refuse here _ | enter here _ | pop here _ _
  | miss here _ _ | reserve here _ | full here _ | wait here | wake here _ | opened here
  | recheck here _ | handOut here _ | refund here | discard here _ | keep here _
  | notifyNone here _ =>
    exact h.move here rfl rfl rfl (Or.inl (by simp [ReaderSys.go])) (by simp [clearers])
  | push here free => exact h.move here rfl rfl rfl (Or.inr (ha here)) (by simp [clearers])
  | @notify _ j _ here sleeper =>
    have hj : Emptied { s with th := notifyOne s.th j } :=
      h.move sleeper rfl rfl rfl (Or.inl le_rfl) (by simp [clearers])
    exact hj.move (notifyOne_of_running here sleeper) rfl rfl rfl (Or.inl le_rfl) (by simp [clearers])
  | @store i _ _ here =>
    refine ⟨h.pool, fun _ ↦ Or.inr (lt_of_lt_of_le ?_ (le_weigh clearers _ i))⟩
    simp [ReaderSys.go, clearers]
  | clear here free => exact ⟨fun _ ↦ rfl, fun _ ↦ Or.inl rfl⟩
  | notifyAll here =>
    have hall : Emptied { s with th := notifyAll s.th } :=
      ⟨h.pool, fun hc ↦ by rw [weigh_notifyAll rfl]; exact h.closed hc⟩
    exact hall.move (notifyAll_of_running here) rfl rfl rfl (Or.inl le_rfl) (by simp [clearers])

theorem accounted_run (as : List (ReaderAction ι)) :
    Accounted max (run (readerStep max) (.new ι) as) := by
  refine run_invariant (readerStep max) (fun s a h ↦ ?_) ?_ as
  · rcases readerStep_move s a with he | hm
    · rwa [he]
    · exact accounted_move hm h
  · constructor <;> simp [ReaderSys.new, weigh, connections]

theorem emptied_run (as : List (ReaderAction ι))
    (has : Along (readerStep max) PushesInTime (.new ι) as) :
    Emptied (run (readerStep max) (.new ι) as) := by
  refine along_invariant (readerStep max) (fun s a ha h ↦ ?_) ?_ has
  · rcases readerStep_move s a with he | hm
    · rwa [he]
    · exact emptied_move hm ha h
  · constructor <;> simp [ReaderSys.new]

omit [DecidableEq ι] in
theorem Emptied.at_rest (h : Emptied s) (hc : s.closed = true)
    (hrest : ∀ i, s.th i = .running .idle) : s.pool = 0 := by
  rcases h.closed hc with hcleared | hpos
  · exact h.pool hcleared
  · obtain ⟨i, hi⟩ := weigh_pos hpos
    simp [hrest i, clearers] at hi

omit [Fintype ι] in
theorem closed_move {a : ReaderAction ι} (hm : ReaderMove max s a t) (h : s.closed = true) :
    t.closed = true := by
  cases hm with
  | store here => rfl
  | _ => exact h

theorem closed_readerStep (s : ReaderSys ι) (a : ReaderAction ι) (h : s.closed = true) :
    (readerStep max s a).closed = true := by
  have hmove : readerStep max s a = s ∨ ReaderMove max s a (readerStep max s a) :=
    readerStep_move s a
  rcases hmove with he | hm
  · rwa [he]
  · exact closed_move hm h

theorem readerStep_refuses (h : s.closed = true) (hi : s.th i = .running .entering) (opens : Bool)
    (j : ι) : readerStep max s (.next i opens j) = s.go i .idle := by
  simp [readerStep, readerNext, hi, h]

end Closing

end System

/-- Two threads after the only connection; the second sleeps until the first has released it. -/
def takeTurns : List (ReaderAction Bool) :=
  .acquire false :: advance false 5 ++ .acquire true :: advance true 4 ++
    .release false :: advance false 2 ++ [.next false true true]

theorem no_stranded_acquire_takeTurns :
    ¬ Stranded 1 0 (run (readerStep 1) (.new Bool) takeTurns) true :=
  (no_stranded_acquire 1 takeTurns (by decide)).2 (by decide) true

/-- An acquire that has read `closed` before the close goes to sleep after the close has notified; and
an acquire sleeps on while a failed open gives the capacity back without notifying. -/
theorem acquire_stranded :
    Stranded 1 0 (run (readerStep 1) (.new (Fin 3)) (.acquire 0 :: advance 0 5 ++
      .acquire 1 :: advance 1 1 ++ .close 2 :: advance 2 3 ++ advance 1 3)) 1 ∧
    Stranded 1 0 (run (readerStep 1) (.new (Fin 3)) (.acquire 0 :: advance 0 3 ++
      .acquire 1 :: advance 1 4 ++ .next 0 false 0 :: advance 0 1)) 1 := by
  decide

end Readers

end Honker
