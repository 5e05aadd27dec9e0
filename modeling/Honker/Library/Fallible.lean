import Mathlib.Data.List.Forall2
import Mathlib.Tactic.TypeStar

namespace Fallible

variable {ε α β : Type}

theorem bind_ok {x : Except ε α} {f : α → Except ε β} {b : β} :
    x >>= f = .ok b ↔ ∃ a, x = .ok a ∧ f a = .ok b := by
  cases x <;> simp [bind, Except.bind]

theorem bind_total {x : Except ε α} {f : α → Except ε β} (hx : ∃ a, x = .ok a)
    (hf : ∀ a, ∃ b, f a = .ok b) : ∃ b, x >>= f = .ok b := by
  obtain ⟨a, rfl⟩ := hx
  exact hf a

theorem map_ok {x : Except ε α} {f : α → β} {b : β} :
    x.map f = .ok b ↔ ∃ a, x = .ok a ∧ f a = b := by
  cases x <;> simp [Except.map]

theorem bind_error {x : Except ε α} {f : α → Except ε β} {e : ε} :
    x >>= f = .error e ↔ x = .error e ∨ ∃ a, x = .ok a ∧ f a = .error e := by
  cases x <;> simp [bind, Except.bind]

theorem mapM_ok {f : α → Except ε β} {l : List α} {l' : List β}
    (h : l.mapM f = .ok l') : List.Forall₂ (fun a b ↦ f a = .ok b) l l' := by
  induction l generalizing l' with
  | nil =>
    cases h
    exact .nil
  | cons a l ih =>
    rw [List.mapM_cons] at h
    obtain ⟨b, ha, h⟩ := bind_ok.mp h
    obtain ⟨bs, hl, h⟩ := bind_ok.mp h
    cases h
    exact .cons ha (ih hl)

theorem exists_of_forall₂ {R : α → β → Prop} {l : List α} {l' : List β} (h : List.Forall₂ R l l')
    {a : α} (ha : a ∈ l) : ∃ b ∈ l', R a b := by
  induction h with
  | nil => simp at ha
  | @cons b c l l' hbc _ ih =>
    rcases List.mem_cons.mp ha with rfl | ha
    · exact ⟨c, List.mem_cons_self, hbc⟩
    · obtain ⟨d, hd, had⟩ := ih ha
      exact ⟨d, List.mem_cons_of_mem c hd, had⟩

theorem mapM_error {f : α → Except ε β} {l : List α} {e : ε}
    (h : l.mapM f = .error e) : ∃ a ∈ l, f a = .error e := by
  induction l with
  | nil => cases h
  | cons a l ih =>
    rw [List.mapM_cons] at h
    cases ha : f a with
    | error e' =>
      simp only [ha, bind, Except.bind] at h
      cases h
      exact ⟨a, by simp, ha⟩
    | ok b =>
      cases hl : l.mapM f with
      | ok bs => simp [ha, hl, bind, Except.bind, pure, Except.pure] at h
      | error e' =>
        simp only [ha, hl, bind, Except.bind] at h
        cases h
        obtain ⟨x, hx, hfx⟩ := ih hl
        exact ⟨x, List.mem_cons_of_mem a hx, hfx⟩

theorem mapM_option_error {f : α → Except ε β} {o : Option α} {err : ε}
    (h : o.mapM f = .error err) : ∃ a, o = some a ∧ f a = .error err := by
  cases o with
  | none => cases h
  | some a =>
    refine ⟨a, rfl, ?_⟩
    change (f a).map some = _ at h
    cases hf : f a with
    | ok b => simp [hf, Except.map] at h
    | error e => simpa [hf, Except.map] using h

theorem mapM_some {f : α → Except ε β} {o : Option α} {x : Option β}
    (h : o.mapM f = .ok x) : (o = none ∧ x = none) ∨ ∃ a b, o = some a ∧ x = some b ∧ f a = .ok b := by
  cases o with
  | none =>
    cases h
    exact Or.inl ⟨rfl, rfl⟩
  | some a =>
    obtain ⟨b, hb, rfl⟩ := map_ok.mp (show (f a).map some = .ok x from h)
    exact Or.inr ⟨a, b, rfl, rfl, hb⟩

theorem mapM_option_total {f : α → Except ε β} {o : Option α}
    (h : ∀ a, o = some a → ∃ b, f a = .ok b) : ∃ x, o.mapM f = .ok x := by
  cases o with
  | none => exact ⟨none, rfl⟩
  | some a =>
    obtain ⟨b, hb⟩ := h a rfl
    refine ⟨some b, ?_⟩
    change (f a).map some = _
    rw [hb]
    rfl

/-- An invariant of the accumulator of a fold whose steps may fail. -/
theorem foldlM_inv {f : β → α → Except ε β} {inv : β → Prop}
    (hstep : ∀ b a b', inv b → f b a = .ok b' → inv b') {l : List α} {b b' : β} (hb : inv b)
    (h : l.foldlM f b = .ok b') : inv b' := by
  induction l generalizing b with
  | nil =>
    cases h
    exact hb
  | cons a l ih =>
    rw [List.foldlM_cons] at h
    obtain ⟨b₁, hfirst, hrest⟩ := bind_ok.mp h
    exact ih (hstep b a b₁ hb hfirst) hrest

end Fallible
