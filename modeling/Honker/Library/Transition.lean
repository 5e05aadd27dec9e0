import Mathlib.Data.List.Induction

namespace Transition

variable {σ α β : Type}

/-- An entry of a history is its last one or one of the history before. -/
theorem exists_split_snoc {Q : List α → α → List α → Prop} (l : List α) (a : α) :
    (∃ l₁ b l₂, l ++ [a] = l₁ ++ b :: l₂ ∧ Q l₁ b l₂) ↔
      Q l a [] ∨ ∃ l₁ b l₂, l = l₁ ++ b :: l₂ ∧ Q l₁ b (l₂ ++ [a]) := by
  constructor
  · rintro ⟨l₁, b, l₂, hl, hq⟩
    rcases List.eq_nil_or_concat l₂ with rfl | ⟨l₂, c, rfl⟩
    · obtain ⟨rfl, hb⟩ := List.append_inj' hl rfl
      cases hb
      exact Or.inl hq
    · have hl : l ++ [a] = (l₁ ++ b :: l₂) ++ [c] := by simpa using hl
      obtain ⟨rfl, hc⟩ := List.append_inj' hl rfl
      cases hc
      exact Or.inr ⟨l₁, b, l₂, rfl, by simpa using hq⟩
  · rintro (hq | ⟨l₁, b, l₂, rfl, hq⟩)
    · exact ⟨l, a, [], rfl, hq⟩
    · exact ⟨l₁, b, l₂ ++ [a], by simp, hq⟩

/-- One input of a machine with the state before it, its output and the state after it. -/
structure Event (σ α β : Type) where
  pre : σ
  input : α
  output : β
  post : σ

variable (step : σ → α → β × σ)

def event (s : σ) (a : α) : Event σ α β := ⟨s, a, (step s a).1, (step s a).2⟩

def trace : σ → List α → List (Event σ α β)
  | _, [] => []
  | s, a :: as => event step s a :: trace (step s a).2 as

def final : σ → List α → σ
  | s, [] => s
  | s, a :: as => final (step s a).2 as

theorem trace_append (s : σ) (as bs : List α) :
    trace step s (as ++ bs) = trace step s as ++ trace step (final step s as) bs := by
  induction as generalizing s with
  | nil => rfl
  | cons a as ih => simp [trace, final, ih]

theorem final_append (s : σ) (as bs : List α) :
    final step s (as ++ bs) = final step (final step s as) bs := by
  induction as generalizing s with
  | nil => rfl
  | cons a as ih => simp [final, ih]

theorem trace_snoc (s : σ) (as : List α) (a : α) :
    trace step s (as ++ [a]) = trace step s as ++ [event step (final step s as) a] := by
  rw [trace_append]
  rfl

theorem final_snoc (s : σ) (as : List α) (a : α) :
    final step s (as ++ [a]) = (step (final step s as) a).2 := by
  rw [final_append]
  rfl

/-- A property of the history and the state reached holds of every run when it holds at the
start and each step keeps it. -/
theorem history_induction {P : List (Event σ α β) → σ → Prop} (s : σ) (h₀ : P [] s)
    (hstep : ∀ h t a, P h t → P (h ++ [event step t a]) (step t a).2) (as : List α) :
    P (trace step s as) (final step s as) := by
  induction as using List.reverseRecOn with
  | nil => exact h₀
  | append_singleton as a ih =>
    rw [trace_snoc, final_snoc]
    exact hstep _ _ a ih

/-- Every step of the run meets `C`, a condition on the state before it and its input. -/
def Along (C : σ → α → Prop) (s : σ) (as : List α) : Prop :=
  ∀ e ∈ trace step s as, C e.pre e.input

variable {step} in
theorem along_snoc {C : σ → α → Prop} {s : σ} {as : List α} {a : α} :
    Along step C s (as ++ [a]) ↔ Along step C s as ∧ C (final step s as) a := by
  unfold Along
  rw [trace_snoc, List.forall_mem_append, List.forall_mem_singleton]
  rfl

/-- `history_induction` for the runs whose steps all meet a condition. -/
theorem along_induction {C : σ → α → Prop} {P : List (Event σ α β) → σ → Prop} (s : σ) (h₀ : P [] s)
    (hstep : ∀ h t a, C t a → P h t → P (h ++ [event step t a]) (step t a).2) (as : List α)
    (has : Along step C s as) : P (trace step s as) (final step s as) := by
  induction as using List.reverseRecOn with
  | nil => exact h₀
  | append_singleton as a ih =>
    obtain ⟨has, ha⟩ := along_snoc.mp has
    rw [trace_snoc, final_snoc]
    exact hstep _ _ a ha (ih has)

theorem final_invariant {P : σ → Prop} (s : σ) (h₀ : P s) (hstep : ∀ t a, P t → P (step t a).2)
    (as : List α) : P (final step s as) :=
  history_induction (P := fun _ t ↦ P t) step s h₀ (fun _ t a ↦ hstep t a) as

theorem mem_trace {s : σ} {as : List α} {e : Event σ α β} (h : e ∈ trace step s as) :
    ∃ bs a cs, as = bs ++ a :: cs ∧ e = event step (final step s bs) a := by
  induction as generalizing s with
  | nil => simp [trace] at h
  | cons a as ih =>
    rcases List.mem_cons.mp h with rfl | h
    · exact ⟨[], a, as, rfl, rfl⟩
    · obtain ⟨bs, b, cs, has, he⟩ := ih h
      exact ⟨a :: bs, b, cs, by rw [has]; rfl, he⟩

/-- An event of a history belongs to a prefix of the run. -/
theorem trace_split {s : σ} {as : List α} {h₁ h₂ : List (Event σ α β)} {e : Event σ α β}
    (h : trace step s as = h₁ ++ e :: h₂) :
    ∃ bs a cs, as = bs ++ a :: cs ∧ h₁ = trace step s bs ∧ e = event step (final step s bs) a := by
  induction h₁ generalizing s as with
  | nil =>
    cases as with
    | nil => cases h
    | cons a as =>
      cases h
      exact ⟨[], a, as, rfl, rfl, rfl⟩
  | cons e' h₁ ih =>
    cases as with
    | nil => cases h
    | cons a as =>
      obtain ⟨rfl, htail⟩ := List.cons.inj h
      obtain ⟨bs, b, cs, rfl, rfl, rfl⟩ := ih htail
      exact ⟨a :: bs, b, cs, rfl, rfl, rfl⟩

variable {step} in
theorem along_split {C : σ → α → Prop} {s : σ} {bs : List α} {a : α} {cs : List α}
    (h : Along step C s (bs ++ a :: cs)) : Along step C s bs ∧ C (final step s bs) a := by
  unfold Along at *
  rw [trace_append] at h
  refine ⟨fun e he ↦ h e (List.mem_append_left _ he), ?_⟩
  exact h (event step (final step s bs) a) (List.mem_append_right _ List.mem_cons_self)

/-- What holds at a time, and is kept by each step to the step's own time, holds in every run with
non-decreasing times, at a time no later than the next step's. -/
theorem timed_invariant {τ : Type} [LE τ] {time : α → τ} {P : τ → σ → Prop}
    (hstep : ∀ t s a, P t s → t ≤ time a → P (time a) (step s a).2) {s : σ} {t : τ} (h₀ : P t s)
    {as : List α} (hle : ∀ a ∈ as, t ≤ time a) (hmono : (as.map time).Pairwise (· ≤ ·))
    {bs : List α} {b : α} {cs : List α} (has : as = bs ++ b :: cs) :
    ∃ u ≤ time b, P u (final step s bs) := by
  induction bs generalizing s t as with
  | nil => exact ⟨t, hle b (by simp [has]), h₀⟩
  | cons a bs ih =>
    subst has
    rw [List.cons_append, List.map_cons, List.pairwise_cons] at hmono
    refine ih (hstep t s a h₀ (hle a (by simp))) (fun c hc ↦ ?_) hmono.2 rfl
    exact hmono.1 _ (List.mem_map_of_mem hc)

/-- `timed_invariant` for the runs whose inputs all meet a condition. -/
theorem timed_invariant_of_forall {τ : Type} [LE τ] {time : α → τ} {C : α → Prop} {P : τ → σ → Prop}
    (hstep : ∀ t s a, C a → P t s → t ≤ time a → P (time a) (step s a).2) {s : σ} {t : τ}
    (h₀ : P t s) {as : List α} (hC : ∀ a ∈ as, C a) (hle : ∀ a ∈ as, t ≤ time a)
    (hmono : (as.map time).Pairwise (· ≤ ·)) {bs : List α} {b : α} {cs : List α}
    (has : as = bs ++ b :: cs) : ∃ u ≤ time b, P u (final step s bs) := by
  induction bs generalizing s t as with
  | nil => exact ⟨t, hle b (by simp [has]), h₀⟩
  | cons a bs ih =>
    subst has
    rw [List.cons_append, List.map_cons, List.pairwise_cons] at hmono
    refine ih (hstep t s a (hC a (by simp)) h₀ (hle a (by simp))) (fun c hc ↦ hC c (.tail a hc))
      (fun c hc ↦ ?_) hmono.2 rfl
    exact hmono.1 _ (List.mem_map_of_mem hc)

end Transition
