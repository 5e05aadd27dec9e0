import Mathlib.Algebra.Order.Group.Int
import Mathlib.Data.List.Chain

namespace Replay

section CatchUp

variable {ε : Type} (next : ℤ → Except ε ℤ) (t : ℤ)

/-- A clock that is late at `t` replays the boundaries it has missed, from `f` on, `fuel` of them at
most; at the cap it goes on from `t`. The list holds the boundaries it replays, the last number is
where it goes on. -/
inductive CatchUp : ℕ → ℤ → List ℤ → ℤ → Prop
  | idle {fuel f} : t < f → CatchUp fuel f [] f
  | capped {f last} : f ≤ t → next t = .ok last → CatchUp 0 f [] last
  | fire {fuel f v fs last} : f ≤ t → next f = .ok v → CatchUp fuel v fs last →
      CatchUp (fuel + 1) f (f :: fs) last

/-- The times whose next boundary the clock asks for. -/
def asks : ℕ → ℤ → List ℤ
  | 0, f => if f ≤ t then [t] else []
  | fuel + 1, f =>
    if f ≤ t then
      f :: match next f with
        | .ok v => asks fuel v
        | .error _ => []
    else []

variable {next} {t}

/-- The boundaries that are replayed, and where the clock goes on, are determined. -/
theorem CatchUp.unique {fuel : ℕ} {f last last' : ℤ} {fs fs' : List ℤ}
    (h : CatchUp next t fuel f fs last) (h' : CatchUp next t fuel f fs' last') :
    fs = fs' ∧ last = last' := by
  induction h generalizing fs' last' with
  | idle hlt =>
    cases h' with
    | idle => exact ⟨rfl, rfl⟩
    | capped hle => exact absurd hlt hle.not_gt
    | fire hle => exact absurd hlt hle.not_gt
  | capped hle hnext =>
    cases h' with
    | idle hlt => exact absurd hlt hle.not_gt
    | capped _ hnext' => exact ⟨rfl, Except.ok.inj (hnext.symm.trans hnext')⟩
  | fire hle hnext h ih =>
    cases h' with
    | idle hlt => exact absurd hlt hle.not_gt
    | fire _ hnext' h' =>
      cases hnext.symm.trans hnext'
      obtain ⟨rfl, rfl⟩ := ih h'
      exact ⟨rfl, rfl⟩

/-- Where each boundary asked for is strictly later, the replayed ones go up and the clock ends after
`t`. -/
theorem CatchUp.increasing {fuel : ℕ} {f last : ℤ} {fs : List ℤ} (h : CatchUp next t fuel f fs last)
    (hs : ∀ u ∈ asks next t fuel f, ∀ v, next u = .ok v → u < v) :
    t < last ∧ f ≤ last ∧ fs.Pairwise (· < ·) ∧ ∀ u ∈ fs, f ≤ u ∧ u ≤ t := by
  induction h with
  | idle hlt => exact ⟨hlt, le_rfl, .nil, by simp⟩
  | capped hle hnext =>
    have hlt := hs t (by simp [asks, hle]) _ hnext
    exact ⟨hlt, by omega, .nil, by simp⟩
  | @fire fuel f v fs last hle hnext h ih =>
    have hlt := hs f (by simp [asks, hle]) v hnext
    obtain ⟨hlast, hv, hup, hbounds⟩ := ih fun u hu ↦ hs u (by simp [asks, hle, hnext, hu])
    refine ⟨hlast, by omega, List.pairwise_cons.mpr ⟨fun u hu ↦ ?_, hup⟩, fun u hu ↦ ?_⟩
    · have hb := hbounds u hu
      omega
    · rcases List.mem_cons.mp hu with rfl | hu
      · exact ⟨le_rfl, hle⟩
      · have hb := hbounds u hu
        exact ⟨by omega, hb.2⟩

end CatchUp

section Runs

/-- A boundary that was replayed, the time of the clock then, and its place in that replay. -/
structure Firing where
  fireAt : ℤ
  tickAt : ℤ
  index : ℕ
deriving DecidableEq

def stamped (t : ℤ) (i : ℕ) : List ℤ → List Firing
  | [] => []
  | f :: fs => ⟨f, t, i⟩ :: stamped t (i + 1) fs

variable {ε : Type} (next : ℤ → Except ε ℤ) (cap : ℕ)

/-- What follows a firing: the next boundary, except that a replay stopped by the cap goes on after
the time of its clock. -/
def Leads (a : Firing) (f : ℤ) : Prop :=
  ∃ v, next a.fireAt = .ok v ∧
    if a.index + 1 = cap ∧ v ≤ a.tickAt then next a.tickAt = .ok f else f = v

/-- The firings lead from `f` to `last`, one to the next. -/
def Linked : ℤ → List Firing → ℤ → Prop
  | f, [], last => f = last
  | f, a :: l, last => a.fireAt = f ∧ ∃ v, Leads next cap a v ∧ Linked v l last

variable {next} {cap} {t f m last : ℤ}

theorem Linked.append {l l' : List Firing} (h : Linked next cap f l m)
    (h' : Linked next cap m l' last) : Linked next cap f (l ++ l') last := by
  induction l generalizing f with
  | nil => exact h.symm ▸ h'
  | cons a l ih =>
    obtain ⟨ha, v, hv, hl⟩ := h
    exact ⟨ha, v, hv, ih hl⟩

theorem Linked.chain {l : List Firing} (h : Linked next cap f l last) :
    (∀ a ∈ l.head?, a.fireAt = f) ∧ l.IsChain (fun a b ↦ Leads next cap a b.fireAt) := by
  induction l generalizing f with
  | nil => exact ⟨by simp, .nil⟩
  | cons a l ih =>
    obtain ⟨ha, v, hv, hl⟩ := h
    obtain ⟨hhead, hchain⟩ := ih hl
    refine ⟨by simpa using ha, List.IsChain.cons hchain fun b hb ↦ ?_⟩
    rw [hhead b hb]
    exact hv

theorem CatchUp.linked {fuel : ℕ} {fs : List ℤ} (h : CatchUp next t fuel f fs last) (i : ℕ)
    (hi : i + fuel = cap) (hopen : 0 < fuel ∨ t < f) :
    Linked next cap f (stamped t i fs) last := by
  induction h generalizing i with
  | idle hlt => rfl
  | capped hle hnext =>
    rcases hopen with hopen | hopen
    · omega
    · omega
  | @fire fuel f v fs last hle hnext h ih =>
    refine ⟨rfl, ?_⟩
    by_cases hopen' : 0 < fuel ∨ t < v
    · refine ⟨v, ⟨v, hnext, ?_⟩, ih (i + 1) (by omega) hopen'⟩
      rw [if_neg (by dsimp only; omega)]
    · cases h with
      | idle hlt => exact absurd (Or.inr hlt) hopen'
      | capped hle' hskip =>
        refine ⟨last, ⟨v, hnext, ?_⟩, rfl⟩
        rw [if_pos ⟨by dsimp only; omega, hle'⟩]
        exact hskip
      | fire => exact absurd (Or.inl (by omega)) hopen'

theorem map_fireAt_stamped (t : ℤ) (i : ℕ) (fs : List ℤ) :
    (stamped t i fs).map Firing.fireAt = fs := by
  induction fs generalizing i with
  | nil => rfl
  | cons f fs ih => rw [stamped, List.map_cons, ih]

end Runs

end Replay
