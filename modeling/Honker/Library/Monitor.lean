import Mathlib.Algebra.BigOperators.Group.Finset.Basic
import Mathlib.Algebra.Order.BigOperators.Group.Finset
import Mathlib.Data.Fintype.Basic

namespace Monitor

/-- A thread that runs, at a place of its program, or waits on the condition variable, where a
notification may have reached it. -/
inductive Thread (α : Type)
  | running (p : α)
  | waiting (notified : Bool)
deriving DecidableEq

variable {ι α : Type}

/-- A notification of one waiting thread, `j`. -/
def notifyOne [DecidableEq ι] (th : ι → Thread α) (j : ι) : ι → Thread α := Function.update th j (.waiting true)

def notifyAll (th : ι → Thread α) : ι → Thread α := fun i ↦
  match th i with
  | .waiting _ => .waiting true
  | .running p => .running p

/-- How many threads a mutex admits at once, given its holder. -/
def lockCount : Option ι → ℕ
  | none => 0
  | some _ => 1

theorem lockCount_le (l : Option ι) : lockCount l ≤ 1 := by cases l <;> simp [lockCount]

theorem notifyOne_of_running [DecidableEq ι] {th : ι → Thread α} {i j : ι} {p : α} {b : Bool}
    (hi : th i = .running p) (hj : th j = .waiting b) : notifyOne th j i = .running p := by
  have hij : i ≠ j := by
    rintro rfl
    rw [hi] at hj
    cases hj
  rw [notifyOne, Function.update_of_ne hij, hi]

theorem notifyAll_of_running {th : ι → Thread α} {i : ι} {p : α} (hi : th i = .running p) :
    notifyAll th i = .running p := by
  rw [notifyAll, hi]

section Weigh

variable [Fintype ι]

/-- The sum over the threads of a weight given to each place. -/
def weigh (w : Thread α → ℕ) (th : ι → Thread α) : ℕ := ∑ i, w (th i)

theorem weigh_update [DecidableEq ι] (w : Thread α → ℕ) (th : ι → Thread α) (i : ι) (x : Thread α) :
    weigh w (Function.update th i x) + w (th i) = weigh w th + w x := by
  have hrest : ∑ j ∈ Finset.univ.erase i, w (Function.update th i x j) =
      ∑ j ∈ Finset.univ.erase i, w (th j) := by
    refine Finset.sum_congr rfl fun j hj ↦ ?_
    rw [Function.update_of_ne (Finset.ne_of_mem_erase hj)]
  have hnew := Finset.add_sum_erase Finset.univ (fun j ↦ w (Function.update th i x j))
    (Finset.mem_univ i)
  have hold := Finset.add_sum_erase Finset.univ (fun j ↦ w (th j)) (Finset.mem_univ i)
  simp only [Function.update_self] at hnew
  unfold weigh
  omega

theorem weigh_notifyAll {w : Thread α → ℕ} (hw : w (.waiting true) = w (.waiting false))
    (th : ι → Thread α) : weigh w (notifyAll th) = weigh w th := by
  refine Finset.sum_congr rfl fun i _ ↦ ?_
  unfold notifyAll
  cases th i with
  | running p => rfl
  | waiting b => cases b <;> simp [hw]

theorem le_weigh (w : Thread α → ℕ) (th : ι → Thread α) (i : ι) : w (th i) ≤ weigh w th :=
  Finset.single_le_sum (f := fun j ↦ w (th j)) (fun _ _ ↦ Nat.zero_le _) (Finset.mem_univ i)

theorem weigh_mono {w w' : Thread α → ℕ} (h : ∀ x, w x ≤ w' x) (th : ι → Thread α) :
    weigh w th ≤ weigh w' th :=
  Finset.sum_le_sum fun i _ ↦ h (th i)

theorem weigh_pos {w : Thread α → ℕ} {th : ι → Thread α} (h : 0 < weigh w th) : ∃ i, 0 < w (th i) := by
  obtain ⟨i, -, hi⟩ := Finset.exists_ne_zero_of_sum_ne_zero h.ne'
  exact ⟨i, Nat.pos_of_ne_zero hi⟩

/-- The weight that counts the sleeping threads. -/
def asleep : Thread α → ℕ
  | .waiting false => 1
  | _ => 0

theorem asleep_pos {th : ι → Thread α} {i : ι} (h : th i = .waiting false) : 0 < weigh asleep th :=
  lt_of_lt_of_le (by rw [h]; exact Nat.one_pos) (le_weigh asleep th i)

theorem asleep_eq_zero {th : ι → Thread α} (h : ∀ i, th i ≠ .waiting false) : weigh asleep th = 0 := by
  by_contra hpos
  obtain ⟨i, hi⟩ := weigh_pos (Nat.pos_of_ne_zero hpos)
  refine h i ?_
  cases hth : th i with
  | running p => simp [hth, asleep] at hi
  | waiting b =>
    cases b
    · rfl
    · simp [hth, asleep] at hi

theorem asleep_notifyAll (th : ι → Thread α) : weigh asleep (notifyAll th) = 0 := by
  refine Finset.sum_eq_zero fun i _ ↦ ?_
  unfold notifyAll
  cases th i <;> rfl

end Weigh

end Monitor
