import Mathlib.Data.Nat.Notation
import Mathlib.Tactic.TypeStar

namespace Loop

variable {α β ε : Type*}

/-- A `while` loop: `body` fails, goes on with a new state or ends with a result. `none` is a run
that is still going when the fuel is spent. -/
def run (body : α → Except ε (α ⊕ β)) : ℕ → α → Option (Except ε β)
  | 0, _ => none
  | fuel + 1, a =>
    match body a with
    | .error e => some (.error e)
    | .ok (.inl a') => run body fuel a'
    | .ok (.inr b) => some (.ok b)

variable {body : α → Except ε (α ⊕ β)}

/-- How a run ends: in a state that keeps the invariant, where the body fails or delivers. -/
def Ends (body : α → Except ε (α ⊕ β)) (inv : α → Prop) (r : Except ε β) : Prop :=
  ∃ a, inv a ∧ match r with
    | .error e => body a = .error e
    | .ok b => body a = .ok (.inr b)

/-- What a run that has ended keeps, whatever its fuel. -/
theorem run_inv (inv : α → Prop)
    (hstep : ∀ a a', inv a → body a = .ok (.inl a') → inv a') {r : Except ε β}
    (fuel : ℕ) (a : α) (ha : inv a) (h : run body fuel a = some r) : Ends body inv r := by
  induction fuel generalizing a with
  | zero => cases h
  | succ fuel ih =>
    rw [run] at h
    cases hbody : body a with
    | error e =>
      rw [hbody] at h
      cases h
      exact ⟨a, ha, hbody⟩
    | ok x =>
      rw [hbody] at h
      cases x with
      | inl a' => exact ih a' (hstep a a' ha hbody) h
      | inr b =>
        cases h
        exact ⟨a, ha, hbody⟩

/-- A measure that drops with every round bounds the number of rounds. -/
theorem run_total (inv : α → Prop) (measure : α → ℕ)
    (hstep : ∀ a a', inv a → body a = .ok (.inl a') → inv a' ∧ measure a' < measure a)
    (fuel : ℕ) (a : α) (ha : inv a) (hfuel : measure a < fuel) :
    ∃ r, run body fuel a = some r ∧ Ends body inv r := by
  suffices h : ∃ r, run body fuel a = some r by
    obtain ⟨r, hr⟩ := h
    exact ⟨r, hr, run_inv inv (fun a a' ha hbody ↦ (hstep a a' ha hbody).1) fuel a ha hr⟩
  induction fuel generalizing a with
  | zero => omega
  | succ fuel ih =>
    rw [run]
    cases hbody : body a with
    | error e => exact ⟨.error e, rfl⟩
    | ok x =>
      cases x with
      | inl a' =>
        obtain ⟨ha', hlt⟩ := hstep a a' ha hbody
        exact ih a' ha' (by omega)
      | inr b => exact ⟨.ok b, rfl⟩

end Loop
