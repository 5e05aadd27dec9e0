import Honker.Schema
import Honker.Library.Transition

namespace Honker

open Relational Numeric Transition

/-- A row of `_honker_rate_limits`. -/
structure RateRow where
  name : String
  windowStart : ℤ
  count : ℤ
deriving DecidableEq

def RateRow.key (r : RateRow) : String × ℤ := (r.name, r.windowStart)

theorem RateRow.key_mk (name : String) (window count : ℤ) :
    (RateRow.mk name window count).key = (name, window) := rfl

def RateRow.counted (r : RateRow) : RateRow := { r with count := r.count + 1 }

theorem RateRow.key_counted (r : RateRow) : r.counted.key = r.key := rfl

abbrev RateTable := Table RateRow.key

section Statements

/-- The `SELECT` of `rate_limit_try`. -/
def windowStart (per : ℤ) (now : Clock) : ℤ := Int.tdiv now per * per

/-- The upsert of `rate_limit_try`, with its result. -/
def countTry (name : String) (window limit : ℤ) (rates : RateTable) : ℤ × RateTable :=
  let row : RateRow := ⟨name, window, 1⟩
  if h : row.key ∈ rates.rows.map RateRow.key then
    let below (r : RateRow) : Bool := r.key = (name, window) ∧ r.count < limit
    let changed := (rates.rows.filter below).length
    (if 0 < changed then 1 else 0, rates.update below RateRow.counted RateRow.key_counted)
  else (1, rates.insert row h)

/-- The condition of `rate_limit_sweep` on a window. -/
def Swept (olderThanS : I64) (now : Clock) (window : ℤ) : Prop := window < (add now (-olderThanS)).val

instance (olderThanS : I64) (now : Clock) (window : ℤ) : Decidable (Swept olderThanS now window) :=
  inferInstanceAs (Decidable (_ < _))

def rateLimitSweep (olderThanS : I64) (now : Clock) (rates : RateTable) : ℤ × RateTable :=
  let old (r : RateRow) : Bool := Swept olderThanS now r.windowStart
  ((rates.rows.filter old).length, rates.delete old)

/-- The count of a window, zero where it has no row. -/
def countOf (rates : RateTable) (name : String) (window : ℤ) : ℤ :=
  ((rates.find? (name, window)).map RateRow.count).getD 0

variable {name : String} {window limit : ℤ} {rates : RateTable}

theorem countOf_of_find? {r : RateRow} (h : rates.find? (name, window) = some r) :
    countOf rates name window = r.count := by
  rw [countOf, h]
  rfl

theorem countOf_of_not_mem (h : (name, window) ∉ rates.rows.map RateRow.key) :
    countOf rates name window = 0 := by
  rw [countOf, Table.find?_eq_none.mpr h]
  rfl

theorem countTry_result (hlimit : 0 < limit) :
    (countTry name window limit rates).1 = if countOf rates name window < limit then 1 else 0 := by
  by_cases h : (RateRow.mk name window 1).key ∈ rates.rows.map RateRow.key
  · obtain ⟨r, hr⟩ := Option.isSome_iff_exists.mp (Table.find?_isSome.mpr h)
    rw [RateRow.key_mk] at hr
    have hkey := (Table.find?_eq_some.mp hr).2
    rw [countTry, dif_pos h, countOf_of_find? hr]
    dsimp only
    rw [rates.filter_key (k := (name, window)) (fun r hr ↦ (of_decide_eq_true hr).1), hr]
    by_cases hc : r.count < limit <;> simp [Option.filter, hkey, hc]
  · rw [countTry, dif_neg h, countOf_of_not_mem h, if_pos hlimit]

theorem countOf_countTry (hlimit : 0 < limit) :
    countOf (countTry name window limit rates).2 name window =
      if countOf rates name window < limit then countOf rates name window + 1
      else countOf rates name window := by
  by_cases h : (RateRow.mk name window 1).key ∈ rates.rows.map RateRow.key
  · obtain ⟨r, hr⟩ := Option.isSome_iff_exists.mp (Table.find?_isSome.mpr h)
    rw [RateRow.key_mk] at hr
    have hkey := (Table.find?_eq_some.mp hr).2
    rw [countTry, dif_pos h, countOf_of_find? hr]
    dsimp only
    rw [countOf, Table.find?_update, hr]
    by_cases hc : r.count < limit <;> simp [hkey, hc, RateRow.counted]
  · rw [countTry, dif_neg h]
    dsimp only
    rw [countOf, Table.find?_insert, RateRow.key_mk, if_pos rfl, countOf_of_not_mem h,
      if_pos hlimit]
    rfl

theorem countOf_countTry_of_ne {n : String} {w : ℤ} (hne : (n, w) ≠ (name, window)) :
    countOf (countTry name window limit rates).2 n w = countOf rates n w := by
  by_cases h : (RateRow.mk name window 1).key ∈ rates.rows.map RateRow.key
  · rw [countTry, dif_pos h]
    dsimp only
    rw [countOf, Table.find?_update, countOf]
    cases hr : rates.find? (n, w) with
    | none => rfl
    | some r =>
      have hkey := (Table.find?_eq_some.mp hr).2
      simp only [hkey, hne, false_and, decide_false, Bool.false_eq_true, if_false, Option.map_some]
  · rw [countTry, dif_neg h]
    dsimp only
    rw [countOf, Table.find?_insert, RateRow.key_mk, if_neg (Ne.symm hne)]
    rfl

theorem countOf_rateLimitSweep (olderThanS : I64) (now : Clock) :
    countOf (rateLimitSweep olderThanS now rates).2 name window =
      if Swept olderThanS now window then 0 else countOf rates name window := by
  rw [rateLimitSweep, countOf, Table.find?_delete]
  cases hr : rates.find? (name, window) with
  | none => simp [countOf, hr]
  | some r =>
    have hw : r.windowStart = window := congrArg Prod.snd (Table.find?_eq_some.mp hr).2
    by_cases hs : Swept olderThanS now window <;> simp [countOf, hr, Option.filter, hw, hs]

theorem windowStart_eq_iff {per : ℤ} (hper : 0 < per) (now : Clock) (k : ℤ) :
    windowStart per now = k * per ↔ k * per ≤ now ∧ now < (k + 1) * per := by
  have hdiv : Int.tdiv now per = now / per := Int.tdiv_eq_ediv_of_nonneg now.pos.le
  rw [windowStart, hdiv, mul_left_inj' hper.ne', Int.ediv_eq_iff_of_pos hper, add_one_mul]

end Statements

/-- Where a connection stands in `rate_limit_try`: `readAt` is the clock reading that gave the
window. -/
inductive Trying
  | idle
  | counting (name : String) (limit : ℤ) (readAt : Clock) (window : ℤ)

structure RateSys (ι : Type) where
  rates : RateTable
  pc : ι → Trying

def RateSys.fresh (ι : Type) : RateSys ι := ⟨.empty, fun _ ↦ .idle⟩

/-- The steps of the connections. `abort` is an upsert that fails. -/
inductive RateAction (ι : Type)
  | window (i : ι) (now : Clock) (name : String) (limit per : I64)
  | count (i : ι)
  | abort (i : ι)
  | sweep (now : Clock) (olderThanS : I64)

inductive RateRet
  | running
  | refused (name : String) (e : SqlError)
  | tried (name : String) (readAt : Clock) (got : ℤ)
  | swept (deleted : ℤ)

section System

variable {ι : Type} [DecidableEq ι]

def rateStep (s : RateSys ι) : RateAction ι → RateRet × RateSys ι
  | .window i now name limit per =>
    match s.pc i with
    | .idle =>
      if limit.val ≤ 0 ∨ per.val ≤ 0 then
        (.refused name (.statement "limit and per must be positive"), s)
      else (.running, ⟨s.rates,
        Function.update s.pc i (.counting name limit now (windowStart per now))⟩)
    | _ => (.running, s)
  | .count i =>
    match s.pc i with
    | .counting name limit readAt window =>
      (.tried name readAt (countTry name window limit s.rates).1,
        ⟨(countTry name window limit s.rates).2, Function.update s.pc i .idle⟩)
    | .idle => (.running, s)
  | .abort i => (.running, ⟨s.rates, Function.update s.pc i .idle⟩)
  | .sweep now olderThanS =>
    (.swept (rateLimitSweep olderThanS now s.rates).1,
      ⟨(rateLimitSweep olderThanS now s.rates).2, s.pc⟩)

end System

section Window

variable {ι : Type} (name : String) (per k : ℤ)

abbrev RateEvent (ι : Type) := Transition.Event (RateSys ι) (RateAction ι) RateRet

/-- The result of a try of `name` whose clock reading lies in the window from `k * per`. -/
def RateRet.triedIn : RateRet → Bool
  | .tried n readAt _ => n = name ∧ k * per ≤ readAt ∧ readAt < (k + 1) * per
  | _ => false

def RateRet.granted : RateRet → Bool
  | .tried _ _ got => got = 1
  | _ => false

def RateAction.sweeps (window : ℤ) : RateAction ι → Bool
  | .sweep now olderThanS => Swept olderThanS now window
  | _ => false

def tries (h : List (RateEvent ι)) : ℕ := h.countP fun e ↦ e.output.triedIn name per k

def grants (h : List (RateEvent ι)) : ℕ :=
  h.countP fun e ↦ e.output.triedIn name per k && e.output.granted

/-- A sweep that covers the window comes after a try in it. -/
def SweptAfter (h : List (RateEvent ι)) : Prop :=
  ∃ h₁ e h₂, h = h₁ ++ e :: h₂ ∧ e.input.sweeps (k * per) ∧ 0 < tries name per k h₁

/-- A sweep that covers the window comes between two tries in it. -/
def SweptBetween (h : List (RateEvent ι)) : Prop :=
  ∃ h₁ e h₂, h = h₁ ++ e :: h₂ ∧ e.input.sweeps (k * per) ∧ 0 < tries name per k h₁ ∧
    0 < tries name per k h₂

/-- The tries since the last sweep that covers the window. -/
def triesSinceSweep (h : List (RateEvent ι)) : ℕ :=
  h.foldl (fun n e ↦ if e.input.sweeps (k * per) then 0
    else if e.output.triedIn name per k then n + 1 else n) 0

/-- Every call on `name` passes the same `limit` and `per`. -/
def RateAction.Passes (limit per : I64) : RateAction ι → Prop
  | .window _ _ n l p => n = name → l = limit ∧ p = per
  | _ => True

variable (h : List (RateEvent ι)) (e : RateEvent ι)

theorem tries_snoc : tries name per k (h ++ [e]) =
    tries name per k h + if e.output.triedIn name per k then 1 else 0 := by
  simp [tries, List.countP_append, List.countP_singleton]

theorem grants_snoc : grants name per k (h ++ [e]) =
    grants name per k h + if e.output.triedIn name per k && e.output.granted then 1 else 0 := by
  simp [grants, List.countP_append, List.countP_singleton]

theorem triesSinceSweep_snoc : triesSinceSweep name per k (h ++ [e]) =
    if e.input.sweeps (k * per) then 0
    else if e.output.triedIn name per k then triesSinceSweep name per k h + 1
    else triesSinceSweep name per k h := by
  simp [triesSinceSweep, List.foldl_append]

theorem sweptAfter_snoc : SweptAfter name per k (h ++ [e]) ↔
    SweptAfter name per k h ∨ (e.input.sweeps (k * per) ∧ 0 < tries name per k h) := by
  unfold SweptAfter
  rw [exists_split_snoc, or_comm]

theorem sweptBetween_snoc : SweptBetween name per k (h ++ [e]) ↔
    SweptBetween name per k h ∨ (e.output.triedIn name per k ∧ SweptAfter name per k h) := by
  unfold SweptBetween SweptAfter
  rw [exists_split_snoc]
  simp only [tries_snoc]
  constructor
  · rintro (⟨-, -, hnil⟩ | ⟨h₁, c, h₂, rfl, hc, hbefore, hafter⟩)
    · simp [tries] at hnil
    · by_cases he : e.output.triedIn name per k
      · exact Or.inr ⟨he, h₁, c, h₂, rfl, hc, hbefore⟩
      · exact Or.inl ⟨h₁, c, h₂, rfl, hc, hbefore, by simpa [he] using hafter⟩
  · rintro (⟨h₁, c, h₂, rfl, hc, hbefore, hafter⟩ | ⟨he, h₁, c, h₂, rfl, hc, hbefore⟩)
    · exact Or.inr ⟨h₁, c, h₂, rfl, hc, hbefore, by omega⟩
    · exact Or.inr ⟨h₁, c, h₂, rfl, hc, hbefore, by simp [he]⟩

end Window

section Tally

variable {ι : Type} [DecidableEq ι] {name : String} {limit per : I64}

/-- The connections inside a try of `name` hold the common limit and the window of their reading. -/
def TriesAgree (name : String) (limit per : I64) (s : RateSys ι) : Prop :=
  ∀ i l readAt window, s.pc i = .counting name l readAt window →
    l = limit.val ∧ window = windowStart per readAt

theorem triesAgree_rateStep {s : RateSys ι} {a : RateAction ι} (ha : a.Passes name limit per)
    (h : TriesAgree name limit per s) : TriesAgree name limit per (rateStep s a).2 := by
  intro i l readAt window hpc
  cases a with
  | window j now n l' p =>
    cases hj : s.pc j with
    | idle =>
      simp only [rateStep, hj] at hpc
      split_ifs at hpc
      · exact h i l readAt window hpc
      · simp only [Function.update_apply] at hpc
        split_ifs at hpc
        · cases hpc
          obtain ⟨rfl, rfl⟩ := ha rfl
          exact ⟨rfl, rfl⟩
        · exact h i l readAt window hpc
    | counting => exact h i l readAt window (by simpa [rateStep, hj] using hpc)
  | count j =>
    cases hj : s.pc j with
    | idle => exact h i l readAt window (by simpa [rateStep, hj] using hpc)
    | counting =>
      simp only [rateStep, hj, Function.update_apply] at hpc
      split_ifs at hpc
      exact h i l readAt window hpc
  | abort j =>
    simp only [rateStep, Function.update_apply] at hpc
    split_ifs at hpc
    exact h i l readAt window hpc
  | sweep now olderThanS => exact h i l readAt window hpc

/-- What one step means for one window: a try in it, which is granted below the limit and then
counted; a sweep that covers it; or nothing. -/
theorem rateStep_cases {s : RateSys ι} (a : RateAction ι) (hlimit : 0 < limit.val)
    (hper : 0 < per.val) (h : TriesAgree name limit per s) (k : ℤ) :
    ((rateStep s a).1.triedIn name per k = true ∧ a.sweeps (k * per) = false ∧
      (rateStep s a).1.granted = decide (countOf s.rates name (k * per) < limit) ∧
      countOf (rateStep s a).2.rates name (k * per) =
        if countOf s.rates name (k * per) < limit then countOf s.rates name (k * per) + 1
        else countOf s.rates name (k * per)) ∨
    ((rateStep s a).1.triedIn name per k = false ∧ a.sweeps (k * per) = true ∧
      countOf (rateStep s a).2.rates name (k * per) = 0) ∨
    ((rateStep s a).1.triedIn name per k = false ∧ a.sweeps (k * per) = false ∧
      countOf (rateStep s a).2.rates name (k * per) = countOf s.rates name (k * per)) := by
  cases a with
  | window i now n l p =>
    refine Or.inr (Or.inr ?_)
    cases hi : s.pc i with
    | idle =>
      by_cases hc : l.val ≤ 0 ∨ p.val ≤ 0 <;>
        simp [rateStep, hi, hc, RateRet.triedIn, RateAction.sweeps]
    | counting => simp [rateStep, hi, RateRet.triedIn, RateAction.sweeps]
  | count i =>
    cases hi : s.pc i with
    | idle => simp [rateStep, hi, RateRet.triedIn, RateAction.sweeps]
    | counting n l readAt window =>
      by_cases hn : n = name
      · subst hn
        obtain ⟨rfl, rfl⟩ := h i l readAt window hi
        by_cases hw : windowStart per readAt = k * per
        · refine Or.inl ?_
          have hin := (windowStart_eq_iff hper readAt k).mp hw
          simp only [rateStep, hi, RateRet.triedIn, RateRet.granted, RateAction.sweeps, hw,
            countTry_result hlimit, countOf_countTry hlimit, hin]
          split_ifs with hc <;> simp [hc]
        · refine Or.inr (Or.inr ?_)
          have hout := mt (windowStart_eq_iff hper readAt k).mpr hw
          have hne : (n, k * per.val) ≠ (n, windowStart per readAt) := by simpa using Ne.symm hw
          simp only [rateStep, hi, RateRet.triedIn, RateAction.sweeps, countOf_countTry_of_ne hne, hout]
          simp
      · refine Or.inr (Or.inr ?_)
        have hne : (name, k * per.val) ≠ (n, window) := by simpa using fun he ↦ absurd he.symm hn
        simp only [rateStep, hi, RateRet.triedIn, RateAction.sweeps, countOf_countTry_of_ne hne, hn]
        simp
  | abort i => simp [rateStep, RateRet.triedIn, RateAction.sweeps]
  | sweep now olderThanS =>
    by_cases hs : Swept olderThanS now (k * per)
    · refine Or.inr (Or.inl ?_)
      simp [rateStep, RateRet.triedIn, RateAction.sweeps, hs, countOf_rateLimitSweep]
    · refine Or.inr (Or.inr ?_)
      simp [rateStep, RateRet.triedIn, RateAction.sweeps, hs, countOf_rateLimitSweep]

/-- The books of one window, up to a history. -/
structure Tally (name : String) (limit per : I64) (k : ℤ) (h : List (RateEvent ι)) (s : RateSys ι) :
    Prop where
  agree : TriesAgree name limit per s
  count : countOf s.rates name (k * per) = min limit.val (triesSinceSweep name per k h)
  since : triesSinceSweep name per k h ≤ tries name per k h
  after : SweptAfter name per k h ↔ triesSinceSweep name per k h < tries name per k h
  once : ¬ SweptBetween name per k h →
    (grants name per k h : ℤ) = min limit.val (tries name per k h) ∧
      (triesSinceSweep name per k h = tries name per k h ∨ triesSinceSweep name per k h = 0)
  again : SweptBetween name per k h →
    min (limit.val + 1) (tries name per k h) ≤ grants name per k h ∧
      grants name per k h ≤ tries name per k h ∧
      min limit.val (triesSinceSweep name per k h) + 1 ≤ grants name per k h

theorem tally_rateStep (hlimit : 0 < limit.val) (hper : 0 < per.val) (k : ℤ)
    (h : List (RateEvent ι)) (s : RateSys ι) (a : RateAction ι) (ha : a.Passes name limit per)
    (ht : Tally name limit per k h s) :
    Tally name limit per k (h ++ [event rateStep s a]) (rateStep s a).2 := by
  have hagree := triesAgree_rateStep ha ht.agree
  have hstep := rateStep_cases a hlimit hper ht.agree k
  obtain ⟨-, hcount, hsince, hafter, honce, hagain⟩ := ht
  rcases hstep with ⟨htried, hsweep, hgrant, hpost⟩ | ⟨htried, hsweep, hpost⟩ | ⟨htried, hsweep, hpost⟩
  · -- A try: it is granted while the tries since the last sweep are below the limit.
    rw [hcount] at hgrant hpost
    refine ⟨hagree, ?_, ?_, ?_, ?_, ?_⟩ <;>
      simp only [tries_snoc, grants_snoc, triesSinceSweep_snoc, sweptAfter_snoc, sweptBetween_snoc,
        event, htried, hsweep, hgrant, hpost, Bool.false_eq_true, if_false, if_true, Bool.true_and,
        decide_eq_true_eq, false_and, or_false, true_and]
    · split_ifs <;> push_cast <;> omega
    · omega
    · rw [hafter]
      omega
    · intro hb
      rw [not_or, hafter] at hb
      obtain ⟨hg, hs⟩ := honce hb.1
      split_ifs <;> push_cast <;> omega
    · rw [hafter]
      rintro (hb | hb)
      · obtain ⟨hlow, hup, hmore⟩ := hagain hb
        split_ifs <;> push_cast <;> omega
      · by_cases hbetween : SweptBetween name per k h
        · obtain ⟨hlow, hup, hmore⟩ := hagain hbetween
          split_ifs <;> push_cast <;> omega
        · obtain ⟨hg, hs⟩ := honce hbetween
          split_ifs <;> push_cast <;> omega
  · refine ⟨hagree, ?_, ?_, ?_, ?_, ?_⟩ <;>
      simp only [tries_snoc, grants_snoc, triesSinceSweep_snoc, sweptAfter_snoc, sweptBetween_snoc,
        event, htried, hsweep, hpost, Bool.false_eq_true, if_false, if_true, Bool.false_and,
        false_and, or_false, true_and, add_zero]
    · push_cast
      omega
    · omega
    · rw [hafter]
      omega
    · exact fun hb ↦ ⟨(honce hb).1, Or.inr trivial⟩
    · intro hb
      obtain ⟨hlow, hup, hmore⟩ := hagain hb
      push_cast
      omega
  · refine ⟨hagree, ?_, ?_, ?_, ?_, ?_⟩ <;>
      simp only [tries_snoc, grants_snoc, triesSinceSweep_snoc, sweptAfter_snoc, sweptBetween_snoc,
        event, htried, hsweep, hpost, Bool.false_eq_true, if_false, Bool.false_and,
        false_and, or_false, add_zero]
    · exact hcount
    · exact hsince
    · exact hafter
    · exact honce
    · exact hagain

theorem tally_trace (hlimit : 0 < limit.val) (hper : 0 < per.val) (k : ℤ) (as : List (RateAction ι))
    (has : ∀ a ∈ as, a.Passes name limit per) :
    Tally name limit per k (trace rateStep (.fresh ι) as) (final rateStep (.fresh ι) as) := by
  refine along_induction (C := fun _ a ↦ a.Passes name limit per) rateStep (.fresh ι) ?_
    (tally_rateStep hlimit hper k) as (fun e he ↦ ?_)
  · refine ⟨by simp [TriesAgree, RateSys.fresh], ?_, le_rfl, ?_, ?_, ?_⟩
    · simp [countOf, RateSys.fresh, triesSinceSweep, hlimit.le]
    · simp [SweptAfter, triesSinceSweep, tries]
    · simp [grants, tries, triesSinceSweep, hlimit.le]
    · simp [SweptBetween]
  · obtain ⟨bs, a, cs, rfl, rfl⟩ := mem_trace rateStep he
    exact has a (by simp)

/-- In every run of interleaved tries and sweeps, the tries granted in a window are the first
`limit` of them exactly when no more than `limit` are made in it or no sweep that covers the window
comes between two of them. -/
theorem grants_eq_min_iff (as : List (RateAction ι)) (hlimit : 0 < limit.val) (hper : 0 < per.val)
    (has : ∀ a ∈ as, a.Passes name limit per) (k : ℤ) :
    (grants name per k (trace rateStep (.fresh ι) as) : ℤ) =
        min limit.val (tries name per k (trace rateStep (.fresh ι) as)) ↔
      tries name per k (trace rateStep (.fresh ι) as) ≤ limit.val ∨
        ¬ SweptBetween name per k (trace rateStep (.fresh ι) as) := by
  have ht := tally_trace hlimit hper k as has
  by_cases hb : SweptBetween name per k (trace rateStep (.fresh ι) as)
  · obtain ⟨hlow, hup, -⟩ := ht.again hb
    simp only [hb, not_true_eq_false, or_false]
    omega
  · simp only [hb, not_false_eq_true, or_true, iff_true]
    exact (ht.once hb).1

end Tally

/-- A limit of one call in two hours: a call, a sweep of what is older than an hour, another call. -/
def sweptHour : List (RateAction Unit) :=
  [.window () (.near 7300) "api" (.near 1) (.near 7200), .count (),
    .sweep (.near 11000) (.near 3600),
    .window () (.near 11001) "api" (.near 1) (.near 7200), .count ()]

theorem sweptHour_passes : ∀ a ∈ sweptHour, a.Passes "api" (.near 1) (.near 7200) := by
  simp [sweptHour, RateAction.Passes]

/-- The sweep deletes the count of the window in use, and both calls are let through. -/
theorem sweptHour_grants :
    (grants "api" 7200 1 (trace rateStep (.fresh Unit) sweptHour) : ℤ) = 2 ∧
      min 1 (tries "api" 7200 1 (trace rateStep (.fresh Unit) sweptHour)) = 1 := by
  decide

theorem grants_eq_min_iff_sweptHour :
    (grants "api" (I64.near 7200).val 1 (trace rateStep (.fresh Unit) sweptHour) : ℤ) =
        min (I64.near 1).val (tries "api" (I64.near 7200).val 1
          (trace rateStep (.fresh Unit) sweptHour)) ↔
      tries "api" (I64.near 7200).val 1 (trace rateStep (.fresh Unit) sweptHour) ≤ (I64.near 1).val ∨
        ¬ SweptBetween "api" (I64.near 7200).val 1 (trace rateStep (.fresh Unit) sweptHour) :=
  grants_eq_min_iff sweptHour (by decide) (by decide) sweptHour_passes 1

end Honker
