import Mathlib.Data.List.Sort
import Mathlib.Data.Prod.Lex
import Mathlib.Order.WithBot

namespace Relational

variable {α κ : Type} [LinearOrder κ]

/-- `ORDER BY key`. -/
def orderBy (key : α → κ) (l : List α) : List α := l.insertionSort (fun a b ↦ key a ≤ key b)

/-- `LIMIT n`, where a negative `n` stands for no limit. -/
def limit (n : ℤ) (l : List α) : List α := if n < 0 then l else l.take n.toNat

theorem orderBy_perm (key : α → κ) (l : List α) : (orderBy key l).Perm l :=
  List.perm_insertionSort _ l

@[simp]
theorem mem_orderBy {key : α → κ} {l : List α} {a : α} : a ∈ orderBy key l ↔ a ∈ l :=
  (orderBy_perm key l).mem_iff

@[simp]
theorem length_orderBy (key : α → κ) (l : List α) : (orderBy key l).length = l.length :=
  (orderBy_perm key l).length_eq

theorem orderBy_sorted (key : α → κ) (l : List α) :
    (orderBy key l).Pairwise (fun a b ↦ key a ≤ key b) := by
  have : Std.Total (fun a b : α ↦ key a ≤ key b) := ⟨fun a b ↦ le_total (key a) (key b)⟩
  have : IsTrans α (fun a b ↦ key a ≤ key b) := ⟨fun _ _ _ ↦ le_trans⟩
  exact List.pairwise_insertionSort _ l

theorem orderBy_strict {key : α → κ} {l : List α} (hl : (l.map key).Nodup) :
    (orderBy key l).Pairwise (fun a b ↦ key a < key b) := by
  have hn : ((orderBy key l).map key).Nodup := (((orderBy_perm key l).map key).nodup_iff).mpr hl
  have hne : (orderBy key l).Pairwise (fun a b ↦ key a ≠ key b) := List.pairwise_map.mp hn
  exact ((orderBy_sorted key l).and hne).imp (fun h ↦ lt_of_le_of_ne h.1 h.2)

theorem eq_of_strict_of_mem {key : α → κ} {l l' : List α}
    (hl : l.Pairwise (fun a b ↦ key a < key b)) (hl' : l'.Pairwise (fun a b ↦ key a < key b))
    (h : ∀ a, a ∈ l ↔ a ∈ l') : l = l' := by
  have hnd {m : List α} (hm : m.Pairwise (fun a b ↦ key a < key b)) : m.Nodup :=
    hm.imp (fun hab he ↦ (he ▸ hab).false)
  have hp : l.Perm l' := (List.perm_ext_iff_of_nodup (hnd hl) (hnd hl')).mpr h
  exact hp.eq_of_pairwise (fun a b _ _ hab hba ↦ absurd hab hba.asymm) hl hl'

/-- In a strictly sorted list the first `n` elements are those with fewer than `n` elements below. -/
theorem mem_take_iff_countP {key : α → κ} {l : List α}
    (hl : l.Pairwise (fun a b ↦ key a < key b)) (n : ℕ) (z : α) :
    z ∈ l.take n ↔ z ∈ l ∧ l.countP (fun a ↦ key a < key z) < n := by
  induction l generalizing n with
  | nil => simp
  | cons a l ih =>
    obtain ⟨ha, hl⟩ := List.pairwise_cons.mp hl
    cases n with
    | zero => simp
    | succ n =>
      rw [List.take_succ_cons, List.mem_cons, List.mem_cons, ih hl]
      by_cases hz : z = a
      · subst hz
        have h0 : l.countP (fun b ↦ key b < key z) = 0 := by
          rw [List.countP_eq_zero]
          intro b hb
          simpa using (ha b hb).le
        simp [h0]
      · simp only [hz, false_or, List.countP_cons]
        refine and_congr_right (fun hzl ↦ ?_)
        simp [ha z hzl]

theorem mem_take_orderBy {key : α → κ} {l : List α} (hl : (l.map key).Nodup) (n : ℕ) (z : α) :
    z ∈ (orderBy key l).take n ↔ z ∈ l ∧ l.countP (fun a ↦ key a < key z) < n := by
  rw [mem_take_iff_countP (orderBy_strict hl), mem_orderBy, (orderBy_perm key l).countP_eq]

theorem take_orderBy_strict {key : α → κ} {l : List α} (hl : (l.map key).Nodup) (n : ℕ) :
    ((orderBy key l).take n).Pairwise (fun a b ↦ key a < key b) :=
  (orderBy_strict hl).sublist (List.take_sublist _ _)

/-- The elements of `l` below `z` that survive a cut to the first `n`. -/
theorem countP_take_orderBy {key : α → κ} {l : List α} (hl : (l.map key).Nodup) (n : ℕ) (z : α) :
    ((orderBy key l).take n).countP (fun a ↦ key a < key z) =
      min n (l.countP (fun a ↦ key a < key z)) := by
  have hs := orderBy_strict hl
  rw [← (orderBy_perm key l).countP_eq]
  generalize orderBy key l = s at hs
  induction s generalizing n with
  | nil => simp
  | cons a s ih =>
    obtain ⟨ha, hs⟩ := List.pairwise_cons.mp hs
    cases n with
    | zero => simp
    | succ n =>
      rw [List.take_succ_cons, List.countP_cons, List.countP_cons, ih n hs]
      by_cases haz : key a < key z
      · simp only [haz, decide_true, if_true]
        omega
      · have h0 : s.countP (fun b ↦ key b < key z) = 0 := by
          rw [List.countP_eq_zero]
          intro b hb
          simpa using (not_lt.mp haz).trans (ha b hb).le
        simp [haz, h0]

/-- Cutting one operand to its own first `n` does not change the first `n` of the whole. -/
theorem take_orderBy_append {key : α → κ} {l m : List α} (h : ((l ++ m).map key).Nodup) (n : ℕ) :
    (orderBy key ((orderBy key l).take n ++ m)).take n = (orderBy key (l ++ m)).take n := by
  have hl : (l.map key).Nodup := h.sublist (by simp)
  have hp : ((orderBy key l).map key).Perm (l.map key) := (orderBy_perm key l).map key
  have hc : ((((orderBy key l).take n) ++ m).map key).Nodup := by
    rw [List.map_append] at h ⊢
    have hsub : (((orderBy key l).take n).map key).Sublist ((orderBy key l).map key) :=
      (List.take_sublist _ _).map key
    exact ((((hp.append_right _).nodup_iff).mpr h).sublist (hsub.append_right _))
  refine eq_of_strict_of_mem (take_orderBy_strict hc n) (take_orderBy_strict h n) (fun z ↦ ?_)
  rw [mem_take_orderBy hc, mem_take_orderBy h, List.countP_append, List.countP_append,
    countP_take_orderBy hl, List.mem_append, List.mem_append, mem_take_orderBy hl]
  constructor
  · rintro ⟨hz | hz, hn⟩
    · exact ⟨Or.inl hz.1, by omega⟩
    · exact ⟨Or.inr hz, by omega⟩
  · rintro ⟨hz | hz, hn⟩
    · exact ⟨Or.inl ⟨hz, by omega⟩, by omega⟩
    · exact ⟨Or.inr hz, by omega⟩

theorem orderBy_congr {key : α → κ} {l l' : List α} (hl : (l.map key).Nodup) (h : l.Perm l') :
    orderBy key l = orderBy key l' := by
  have hl' : (l'.map key).Nodup := ((h.map key).nodup_iff).mp hl
  exact eq_of_strict_of_mem (orderBy_strict hl) (orderBy_strict hl') (fun a ↦ by simp [h.mem_iff])

theorem mem_of_mem_limit {n : ℤ} {l : List α} {a : α} (h : a ∈ limit n l) : a ∈ l := by
  unfold limit at h
  split_ifs at h
  · exact h
  · exact List.mem_of_mem_take h

theorem length_limit_le_one {n : ℤ} {l : List α} :
    (limit n l).length ≤ 1 ↔ n = 0 ∨ n = 1 ∨ l.length ≤ 1 := by
  unfold limit
  split_ifs with hn
  · omega
  · rw [List.length_take]
    omega

/-- A list that is sorted both ways has no two elements. -/
theorem length_le_one_of_reverse {key : α → κ} {l : List α}
    (hl : l.Pairwise (fun a b ↦ key a < key b))
    (hr : l.reverse.Pairwise (fun a b ↦ key a < key b)) : l.length ≤ 1 := by
  rw [List.pairwise_reverse] at hr
  cases l with
  | nil => simp
  | cons a l =>
    cases l with
    | nil => simp
    | cons b l =>
      have hab := (List.pairwise_cons.mp hl).1 b (by simp)
      have hba := (List.pairwise_cons.mp hr).1 b (by simp)
      exact absurd hab hba.asymm

end Relational
