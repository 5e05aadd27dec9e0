import Mathlib.Algebra.BigOperators.Group.Finset.Basic
import Mathlib.Algebra.Order.BigOperators.Group.Finset
import Mathlib.Data.Fintype.Basic
import Honker.Library.Transition

namespace Interleaving

section Run

variable {σ α : Type} (step : σ → α → σ)

/-- The state after a sequence of steps, each by whichever thread its action names. -/
def run (s : σ) (as : List α) : σ := as.foldl step s

/-- Every step of the run meets `C`, a condition on the state before it and its action. -/
def Along (C : σ → α → Prop) : σ → List α → Prop
  | _, [] => True
  | s, a :: as => C s a ∧ Along C (step s a) as

instance Along.decidable {C : σ → α → Prop} [∀ s a, Decidable (C s a)] :
    (s : σ) → (as : List α) → Decidable (Along step C s as)
  | _, [] => .isTrue trivial
  | s, a :: as => @instDecidableAnd _ _ _ (Along.decidable (step s a) as)

variable {step} in
theorem Along.imp {C D : σ → α → Prop} (h : ∀ s a, C s a → D s a) {s : σ} {as : List α}
    (has : Along step C s as) : Along step D s as := by
  induction as generalizing s with
  | nil => trivial
  | cons a as ih => exact ⟨h s a has.1, ih has.2⟩

variable {step} in
theorem Along.of_forall {C : α → Prop} {s : σ} {as : List α} (has : ∀ a ∈ as, C a) :
    Along step (fun _ a ↦ C a) s as := by
  induction as generalizing s with
  | nil => trivial
  | cons a as ih => exact ⟨has a (.head as), ih fun b hb ↦ has b (.tail a hb)⟩

theorem run_append (s : σ) (as bs : List α) : run step s (as ++ bs) = run step (run step s as) bs :=
  List.foldl_append

theorem run_invariant {P : σ → Prop} (hstep : ∀ s a, P s → P (step s a)) {s : σ} (h : P s)
    (as : List α) : P (run step s as) := by
  induction as generalizing s with
  | nil => exact h
  | cons a as ih => exact ih (hstep s a h)

/-- What each step that meets a condition keeps holds in every state that is reached by such
steps. -/
theorem along_invariant {C : σ → α → Prop} {P : σ → Prop} (hstep : ∀ s a, C s a → P s → P (step s a))
    {s : σ} (h : P s) {as : List α} (has : Along step C s as) : P (run step s as) := by
  induction as generalizing s with
  | nil => exact h
  | cons a as ih => exact ih (hstep s a has.1 h) has.2

/-- A goal that is at most `n` own steps away is reached once there are that many, and one more for
each other step that puts it off. -/
theorem along_reaches {C : σ → α → Prop} {P : ℕ → σ → Prop} {Q : σ → Prop} {own delay : α → Bool}
    (hzero : ∀ s, P 0 s → Q s)
    (hstep : ∀ n s a, C s a → P n s →
      Q (step s a) ∨ ∃ k, k + (own a).toNat ≤ n + (delay a).toNat ∧ P k (step s a))
    {n : ℕ} {s : σ} (h : P n s) {as : List α} (has : Along step C s as)
    (hsteps : n + as.countP delay ≤ as.countP own) : ∃ bs cs, as = bs ++ cs ∧ Q (run step s bs) := by
  induction as generalizing n s with
  | nil =>
    obtain rfl : n = 0 := by simpa using hsteps
    exact ⟨[], [], rfl, hzero s h⟩
  | cons a as ih =>
    rcases hstep n s a has.1 h with hq | ⟨k, hk, hP⟩
    · exact ⟨[a], as, rfl, hq⟩
    · have hleft : k + as.countP delay ≤ as.countP own := by
        cases ho : own a <;> cases hd : delay a <;> simp [ho, hd] at hsteps hk <;> omega
      obtain ⟨bs, cs, rfl, hq⟩ := ih hP has.2 hleft
      exact ⟨a :: bs, cs, rfl, hq⟩

end Run

section Machine

variable {σ α β : Type} {step : σ → α → β × σ}

theorem run_snd (s : σ) (as : List α) : run (fun s a ↦ (step s a).2) s as = Transition.final step s as := by
  induction as generalizing s with
  | nil => rfl
  | cons a as ih => exact ih _

theorem Along.of_trace {C : σ → α → Prop} {s : σ} {as : List α} (has : Transition.Along step C s as) :
    Along (fun s a ↦ (step s a).2) C s as := by
  induction as generalizing s with
  | nil => trivial
  | cons a as ih => exact ⟨has _ (.head _), ih fun e he ↦ has e (.tail _ he)⟩

end Machine

end Interleaving
