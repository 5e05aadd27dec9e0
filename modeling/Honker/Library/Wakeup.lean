import Mathlib.Order.Nat

namespace Wakeup

/-- A shared state with the number of changes it has seen, and how many of them had been made at the
last announcement. -/
structure Board (σ : Type) where
  cur : σ
  changes : ℕ
  announced : ℕ

/-- What a waiter found when it looked, and how many changes had been made then. -/
structure Look (σ : Type) where
  found : σ
  seen : ℕ

section Board

variable {σ : Type}

def Board.new (x : σ) : Board σ := ⟨x, 0, 0⟩

def Board.put [DecidableEq σ] (b : Board σ) (x : σ) : Board σ :=
  if x = b.cur then b else { b with cur := x, changes := b.changes + 1 }

def Board.announce (b : Board σ) : Board σ := { b with announced := b.changes }

def Board.look (b : Board σ) : Look σ := ⟨b.cur, b.changes⟩

/-- A look that nothing has gone past: unless the waiter has been ticked, no change since the look has
been announced. -/
structure Look.Guarded (b : Board σ) (tick : Bool) (l : Look σ) : Prop where
  seen : l.seen ≤ b.changes
  found : l.seen = b.changes → l.found = b.cur
  tick : tick = true ∨ b.announced ≤ l.seen

variable {b : Board σ} {tick : Bool} {l : Look σ}

@[simp]
theorem Board.cur_put [DecidableEq σ] (x : σ) : (b.put x).cur = x := by
  unfold put
  split_ifs with h
  · exact h.symm
  · rfl

theorem Board.changes_le_put [DecidableEq σ] (x : σ) : b.changes ≤ (b.put x).changes := by
  unfold put
  split_ifs
  · exact le_rfl
  · exact Nat.le_succ _

@[simp]
theorem Board.announced_put [DecidableEq σ] (x : σ) : (b.put x).announced = b.announced := by
  unfold put
  split_ifs <;> rfl

theorem Look.Guarded.look (h : b.announced ≤ b.changes) : (b.look).Guarded b tick :=
  ⟨le_rfl, fun _ ↦ rfl, Or.inr h⟩

theorem Look.Guarded.put [DecidableEq σ] (h : l.Guarded b tick) (x : σ) : l.Guarded (b.put x) tick where
  seen := h.seen.trans (b.changes_le_put x)
  found := by
    unfold Board.put
    split_ifs
    · exact h.found
    · intro hseen
      have hle := h.seen
      dsimp only at hseen
      omega
  tick := by
    rw [Board.announced_put]
    exact h.tick

theorem Look.Guarded.mono {tick' : Bool} (h : l.Guarded b tick) (htick : tick = true → tick' = true) :
    l.Guarded b tick' :=
  ⟨h.seen, h.found, h.tick.imp_left htick⟩

theorem Look.Guarded.announce (h : l.Guarded b tick) : l.Guarded b.announce true :=
  ⟨h.seen, h.found, Or.inl rfl⟩

/-- A waiter that has not been ticked, when all has been announced, knows the current state. -/
theorem Look.Guarded.current (h : l.Guarded b false) (hall : b.announced = b.changes) :
    l.seen = b.changes ∧ l.found = b.cur := by
  have hseen : l.seen = b.changes := by
    rcases h.tick with htick | hle
    · cases htick
    · exact le_antisymm h.seen (hall ▸ hle)
  exact ⟨hseen, h.found hseen⟩

end Board

end Wakeup
