import Mathlib.Data.List.Nodup
import Mathlib.Data.List.Basic
import Mathlib.Algebra.Order.BigOperators.Group.List
import Mathlib.Algebra.Order.Group.Nat
import Mathlib.Algebra.GroupWithZero.Nat

namespace Relational

variable {ρ κ : Type}

/-- Rows under a primary key. No two rows of a table share their key. -/
structure Table (key : ρ → κ) where
  rows : List ρ
  nodup : (rows.map key).Nodup

namespace Table

variable {key : ρ → κ}

@[ext]
theorem ext {t t' : Table key} (h : t.rows = t'.rows) : t = t' := by
  cases t; cases t'; cases h; rfl

instance [DecidableEq ρ] : DecidableEq (Table key) := fun t t' ↦
  decidable_of_iff (t.rows = t'.rows) ⟨ext, congrArg rows⟩

def empty : Table key := ⟨[], by simp⟩

/-- `DELETE FROM t WHERE p`. -/
def delete (t : Table key) (p : ρ → Bool) : Table key :=
  ⟨t.rows.filter (fun r ↦ !p r), (t.nodup.sublist ((List.filter_sublist).map key))⟩

/-- `UPDATE t SET f WHERE p`, for an assignment that leaves the key alone. -/
def update (t : Table key) (p : ρ → Bool) (f : ρ → ρ) (hf : ∀ r, key (f r) = key r) : Table key where
  rows := t.rows.map (fun r ↦ if p r then f r else r)
  nodup := by
    have h : (t.rows.map (fun r ↦ if p r then f r else r)).map key = t.rows.map key := by
      rw [List.map_map]
      refine List.map_congr_left (fun r _ ↦ ?_)
      by_cases hp : p r <;> simp [hp, hf]
    exact h ▸ t.nodup

/-- `INSERT` of a row whose key is known to be new. -/
def insert (t : Table key) (r : ρ) (h : key r ∉ t.rows.map key) : Table key :=
  ⟨t.rows ++ [r], by
    rw [List.map_append]
    exact t.nodup.append (by simp) (by simpa using h)⟩

theorem key_inj {t : Table key} {r r' : ρ} (hr : r ∈ t.rows) (hr' : r' ∈ t.rows)
    (h : key r = key r') : r = r' :=
  List.inj_on_of_nodup_map t.nodup hr hr' h

theorem delete_of_forall_not {t : Table key} {p : ρ → Bool} (h : ∀ r ∈ t.rows, p r = false) :
    t.delete p = t :=
  ext (List.filter_eq_self.mpr fun r hr ↦ by simp [h r hr])

theorem update_of_forall_not {t : Table key} {p : ρ → Bool} {f : ρ → ρ} {hf : ∀ r, key (f r) = key r}
    (h : ∀ r ∈ t.rows, p r = false) : t.update p f hf = t := by
  refine ext ?_
  have hid : t.rows.map (fun r ↦ if p r then f r else r) = t.rows.map id :=
    List.map_congr_left fun r hr ↦ by simp [h r hr]
  exact hid.trans (List.map_id _)

theorem delete_delete (t : Table key) (p q : ρ → Bool) :
    (t.delete p).delete q = t.delete fun r ↦ p r || q r := by
  refine ext ?_
  simp only [delete, List.filter_filter]
  refine List.filter_congr fun r _ ↦ ?_
  rw [Bool.not_or, Bool.and_comm]

/-- A row that two deletes in a row could both remove is removed, and counted, once. -/
theorem length_filter_delete (t : Table key) (p q : ρ → Bool) :
    (t.rows.filter p).length + ((t.delete p).rows.filter q).length =
      (t.rows.filter fun r ↦ p r || q r).length := by
  simp only [delete]
  induction t.rows with
  | nil => rfl
  | cons r l ih =>
    cases hp : p r with
    | true =>
      simp only [List.filter_cons, hp, Bool.true_or, Bool.not_true, if_true, Bool.false_eq_true,
        if_false, List.length_cons, ← ih]
      omega
    | false =>
      cases hq : q r with
      | true =>
        simp only [List.filter_cons, hp, hq, Bool.or_true, Bool.not_false, if_true,
          Bool.false_eq_true, if_false, List.length_cons, ← ih]
        omega
      | false => simpa [hp, hq] using ih

theorem countP_delete_le (t : Table key) (q p : ρ → Bool) :
    (t.delete q).rows.countP p ≤ t.rows.countP p :=
  List.filter_sublist.countP_le

theorem countP_delete_of_disjoint (t : Table key) {q p : ρ → Bool}
    (h : ∀ r ∈ t.rows, q r = true → p r = false) :
    (t.delete q).rows.countP p = t.rows.countP p := by
  rw [delete, List.countP_filter]
  refine List.countP_congr fun r hr ↦ ?_
  cases hq : q r with
  | false => simp
  | true => simp [h r hr hq]

theorem countP_update_le (t : Table key) {q p : ρ → Bool} {f : ρ → ρ}
    (hf : ∀ r, key (f r) = key r) (h : ∀ r ∈ t.rows, q r = true → p (f r) = true → p r = true) :
    (t.update q f hf).rows.countP p ≤ t.rows.countP p := by
  simp only [update, List.countP_map]
  refine List.countP_mono_left fun r hr hp ↦ ?_
  simp only [Function.comp_apply] at hp
  split_ifs at hp with hq
  · exact h r hr hq hp
  · exact hp

/-- The sum of a weight over the rows. -/
def weight (t : Table key) (w : ρ → ℕ) : ℕ := (t.rows.map w).sum

theorem weight_delete_le (t : Table key) (q : ρ → Bool) (w : ρ → ℕ) :
    (t.delete q).weight w ≤ t.weight w :=
  (List.filter_sublist.map w).sum_le_sum fun _ _ ↦ Nat.zero_le _

theorem weight_update (t : Table key) (q : ρ → Bool) {f : ρ → ρ} (hf : ∀ r, key (f r) = key r)
    (w : ρ → ℕ) :
    (t.update q f hf).weight w = (t.rows.map fun r ↦ w (if q r then f r else r)).sum := by
  simp only [weight, update, List.map_map]
  rfl

theorem weight_update_le (t : Table key) {q : ρ → Bool} {f : ρ → ρ} (hf : ∀ r, key (f r) = key r)
    {w : ρ → ℕ} (h : ∀ r ∈ t.rows, q r = true → w (f r) ≤ w r) :
    (t.update q f hf).weight w ≤ t.weight w := by
  rw [weight_update, weight]
  refine List.sum_le_sum fun r hr ↦ ?_
  split_ifs with hq
  · exact h r hr hq
  · exact le_rfl

theorem weight_update_lt (t : Table key) {q : ρ → Bool} {f : ρ → ρ} (hf : ∀ r, key (f r) = key r)
    {w : ρ → ℕ} (h : ∀ r ∈ t.rows, q r = true → w (f r) < w r) (hsome : ∃ r ∈ t.rows, q r = true) :
    (t.update q f hf).weight w < t.weight w := by
  rw [weight_update, weight]
  refine List.sum_lt_sum _ _ (fun r hr ↦ ?_) ?_
  · split_ifs with hq
    · exact (h r hr hq).le
    · exact le_rfl
  · obtain ⟨r, hr, hq⟩ := hsome
    exact ⟨r, hr, by simpa [hq] using h r hr hq⟩

variable [DecidableEq κ]

/-- `INSERT` of several rows in one statement. It fails as a whole when a key is taken. -/
def insertAll? (t : Table key) (rs : List ρ) : Option (Table key) :=
  if h : ((t.rows ++ rs).map key).Nodup then some ⟨t.rows ++ rs, h⟩ else none

/-- `INSERT ... ON CONFLICT DO NOTHING`. -/
def insertNew (t : Table key) (r : ρ) : Table key :=
  if h : key r ∈ t.rows.map key then t else t.insert r h

def find? (t : Table key) (k : κ) : Option ρ := t.rows.find? (fun r ↦ key r = k)

theorem find?_eq_some {t : Table key} {k : κ} {r : ρ} :
    t.find? k = some r ↔ r ∈ t.rows ∧ key r = k := by
  have hsome {s : ρ} (hs : t.find? k = some s) : s ∈ t.rows ∧ key s = k :=
    ⟨List.mem_of_find?_eq_some hs, by simpa using List.find?_some hs⟩
  refine ⟨hsome, fun ⟨hr, hk⟩ ↦ ?_⟩
  cases hs : t.find? k with
  | none => exact absurd (decide_eq_true hk) (by simpa using List.find?_eq_none.mp hs r hr)
  | some s => rw [key_inj (hsome hs).1 hr ((hsome hs).2.trans hk.symm)]

theorem find?_eq_none {t : Table key} {k : κ} : t.find? k = none ↔ k ∉ t.rows.map key := by
  simp [find?]

theorem find?_of_mem {t : Table key} {r : ρ} (h : r ∈ t.rows) : t.find? (key r) = some r :=
  find?_eq_some.mpr ⟨h, rfl⟩

theorem find?_isSome {t : Table key} {k : κ} : (t.find? k).isSome ↔ k ∈ t.rows.map key := by
  rw [← not_iff_not, ← find?_eq_none]
  simp

/-- A condition that fixes the key selects at most one row. -/
theorem filter_key (t : Table key) {p : ρ → Bool} {k : κ} (hp : ∀ r, p r = true → key r = k) :
    t.rows.filter p = ((t.find? k).filter p).toList := by
  have hmem (r : ρ) : r ∈ t.rows.filter p ↔ (t.find? k).filter p = some r := by
    rw [List.mem_filter, Option.filter_eq_some_iff, find?_eq_some]
    exact ⟨fun h ↦ ⟨⟨h.1, hp r h.2⟩, h.2⟩, fun h ↦ ⟨h.1.1, h.2⟩⟩
  have hnd : ((t.rows.filter p).map key).Nodup := t.nodup.sublist (List.filter_sublist.map key)
  cases hl : t.rows.filter p with
  | nil =>
    cases ho : (t.find? k).filter p with
    | none => rfl
    | some r => exact absurd ((hmem r).mpr ho) (by simp [hl])
  | cons r l =>
    have hr := (hmem r).mp (by simp [hl])
    have hnil : l = [] := by
      refine List.eq_nil_iff_forall_not_mem.mpr fun s hs ↦ ?_
      have hsr : s = r := Option.some.inj (((hmem s).mp (by simp [hl, hs])).symm.trans hr)
      rw [hl, List.map_cons, List.nodup_cons] at hnd
      exact hnd.1 (hsr ▸ List.mem_map_of_mem hs)
    rw [hr, hnil]
    rfl

@[simp]
theorem find?_empty (k : κ) : (empty : Table key).find? k = none := rfl

theorem find?_delete (t : Table key) (p : ρ → Bool) (k : κ) :
    (t.delete p).find? k = (t.find? k).filter (fun r ↦ !p r) := by
  ext r
  rw [Option.filter_eq_some_iff, find?_eq_some, find?_eq_some]
  simp only [delete, List.mem_filter]
  tauto

theorem find?_update (t : Table key) (p : ρ → Bool) (f : ρ → ρ) (hf : ∀ r, key (f r) = key r)
    (k : κ) : (t.update p f hf).find? k = (t.find? k).map (fun r ↦ if p r then f r else r) := by
  have hkey (r : ρ) : key (if p r then f r else r) = key r := by by_cases hp : p r <;> simp [hp, hf]
  ext r
  rw [Option.map_eq_some_iff, find?_eq_some]
  simp only [update, List.mem_map, find?_eq_some]
  constructor
  · rintro ⟨⟨s, hs, rfl⟩, hk⟩
    exact ⟨s, ⟨hs, by rw [← hk, hkey]⟩, rfl⟩
  · rintro ⟨s, ⟨hs, hk⟩, rfl⟩
    exact ⟨⟨s, hs, rfl⟩, by rw [hkey, hk]⟩

theorem find?_insert (t : Table key) (r : ρ) (h : key r ∉ t.rows.map key) (k : κ) :
    (t.insert r h).find? k = if key r = k then some r else t.find? k := by
  ext s
  rw [find?_eq_some]
  simp only [insert, List.mem_append, List.mem_singleton]
  split_ifs with hk
  · subst hk
    constructor
    · rintro ⟨hs | rfl, he⟩
      · exact absurd (he ▸ List.mem_map_of_mem hs) h
      · rfl
    · rintro ⟨⟩
      exact ⟨Or.inr rfl, rfl⟩
  · rw [find?_eq_some]
    constructor
    · rintro ⟨hs | rfl, he⟩
      · exact ⟨hs, he⟩
      · exact absurd he hk
    · rintro ⟨hs, he⟩
      exact ⟨Or.inl hs, he⟩

theorem find?_insertNew {t : Table key} {r : ρ} (h : t.find? (key r) = none) :
    (t.insertNew r).find? (key r) = some r := by
  rw [insertNew, dif_neg (find?_eq_none.mp h), find?_insert, if_pos rfl]

theorem find?_insertNew_of_ne {t : Table key} {r : ρ} {k : κ} (h : key r ≠ k) :
    (t.insertNew r).find? k = t.find? k := by
  unfold insertNew
  split_ifs with hmem
  · rfl
  · rw [find?_insert, if_neg h]

theorem insertAll?_eq_some {t t' : Table key} {rs : List ρ} (h : t.insertAll? rs = some t') :
    t'.rows = t.rows ++ rs := by
  unfold insertAll? at h
  split_ifs at h with hn
  cases h
  rfl

theorem insertAll?_eq_none {t : Table key} {rs : List ρ} (hrs : (rs.map key).Nodup)
    (h : t.insertAll? rs = none) : ∃ r ∈ rs, key r ∈ t.rows.map key := by
  unfold insertAll? at h
  split_ifs at h with hn
  by_contra! hd
  refine hn ?_
  rw [List.map_append]
  refine t.nodup.append hrs (fun k hk hk' ↦ ?_)
  obtain ⟨r, hr, rfl⟩ := List.mem_map.mp hk'
  exact hd r hr hk

theorem find?_insertAll? {t t' : Table key} {rs : List ρ} (h : t.insertAll? rs = some t') (k : κ) :
    t'.find? k = (t.find? k).or (rs.find? (fun r ↦ key r = k)) := by
  unfold find?
  rw [insertAll?_eq_some h, List.find?_append]

end Table

end Relational
