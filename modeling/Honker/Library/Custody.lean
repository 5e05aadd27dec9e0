import Mathlib.Logic.Function.Basic
import Mathlib.Tactic.SplitIfs

namespace Custody

variable {κ τ : Type} [DecidableEq κ] {slots : κ → Option τ} {x y : κ} {a b : τ}

/-- No token is in two slots. -/
def Unique (slots : κ → Option τ) : Prop := ∀ x y a, slots x = some a → slots y = some a → x = y

/-- The token is in a slot. -/
def Has (slots : κ → Option τ) (a : τ) : Prop := ∃ x, slots x = some a

theorem update_some {o : Option τ} :
    Function.update slots y o x = some b ↔ (x = y ∧ o = some b) ∨ (x ≠ y ∧ slots x = some b) := by
  rw [Function.update_apply]
  split_ifs with h <;> simp [h]

theorem Unique.drop (h : Unique slots) (x : κ) : Unique (Function.update slots x none) := by
  intro y z b hy hz
  rw [update_some] at hy hz
  obtain ⟨-, hy⟩ | ⟨-, hy⟩ := hy
  · cases hy
  obtain ⟨-, hz⟩ | ⟨-, hz⟩ := hz
  · cases hz
  exact h y z b hy hz

/-- A token that is nowhere may be put into any slot. -/
theorem Unique.put (h : Unique slots) (hnew : ¬ Has slots a) (y : κ) :
    Unique (Function.update slots y (some a)) := by
  intro x z b hx hz
  rw [update_some] at hx hz
  obtain ⟨rfl, hx⟩ | ⟨-, hx⟩ := hx
  · cases hx
    obtain ⟨rfl, -⟩ | ⟨-, hz⟩ := hz
    · rfl
    · exact absurd ⟨z, hz⟩ hnew
  · obtain ⟨rfl, hz⟩ | ⟨-, hz⟩ := hz
    · cases hz
      exact absurd ⟨x, hx⟩ hnew
    · exact h x z b hx hz

theorem has_drop (h : Unique slots) (hx : slots x = some a) :
    Has (Function.update slots x none) b ↔ Has slots b ∧ b ≠ a := by
  constructor
  · rintro ⟨y, hy⟩
    obtain ⟨-, hy⟩ | ⟨hne, hy⟩ := update_some.mp hy
    · cases hy
    · refine ⟨⟨y, hy⟩, ?_⟩
      rintro rfl
      exact hne (h y x b hy hx)
  · rintro ⟨⟨y, hy⟩, hne⟩
    refine ⟨y, update_some.mpr (Or.inr ⟨?_, hy⟩)⟩
    rintro rfl
    exact hne (Option.some.inj (hy.symm.trans hx))

theorem has_put (hy : slots y = none) :
    Has (Function.update slots y (some a)) b ↔ Has slots b ∨ b = a := by
  constructor
  · rintro ⟨x, hx⟩
    obtain ⟨-, hx⟩ | ⟨-, hx⟩ := update_some.mp hx
    · exact Or.inr (Option.some.inj hx).symm
    · exact Or.inl ⟨x, hx⟩
  · rintro (⟨x, hx⟩ | rfl)
    · refine ⟨x, update_some.mpr (Or.inr ⟨?_, hx⟩)⟩
      rintro rfl
      cases hy.symm.trans hx
    · exact ⟨y, update_some.mpr (Or.inl ⟨rfl, rfl⟩)⟩

theorem Unique.move (h : Unique slots) (hx : slots x = some a) (y : κ) :
    Unique (Function.update (Function.update slots x none) y (some a)) := by
  refine (h.drop x).put ?_ y
  rw [has_drop h hx]
  exact fun hhas ↦ hhas.2 rfl

/-- Moving a token to an empty slot loses no token. -/
theorem has_move (h : Unique slots) (hx : slots x = some a) (hy : slots y = none) :
    Has (Function.update (Function.update slots x none) y (some a)) b ↔ Has slots b := by
  have hempty : Function.update slots x none y = none := by
    rw [Function.update_apply]
    split_ifs
    · rfl
    · exact hy
  rw [has_put hempty, has_drop h hx]
  constructor
  · rintro (⟨hb, -⟩ | rfl)
    · exact hb
    · exact ⟨x, hx⟩
  · intro hb
    by_cases hba : b = a
    · exact Or.inr hba
    · exact Or.inl ⟨hb, hba⟩

end Custody
