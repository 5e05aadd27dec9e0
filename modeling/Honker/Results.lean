import Honker.Timestamps

namespace Honker

open Relational Numeric Transition

def resultGet (job : ℤ) (now : Clock) (results : ResultTable) : Except SqlError (Option String) :=
  match results.find? job with
  | none => .ok none
  | some r =>
    match r.expiresAt with
    | none => .ok (some r.value)
    | some x => do
      let exp ← decodeInt 1 "expires_at" x
      return if exp ≤ now then none else some r.value

def resultSweep (now : Clock) (results : ResultTable) : ℤ × ResultTable :=
  let expired (r : ResultRow) : Bool := r.expiresAt.any fun x ↦ x.val ≤ now.secs
  ((results.rows.filter expired).length, results.delete expired)

/-- A call of `result_save`, with the clock reading of its statement. -/
structure Save where
  job : ℤ
  value : String
  ttlS : I64
  now : Clock

/-- A committed write to `_honker_results`. -/
inductive ResultWrite
  | save (e : Save)
  | sweep (now : Clock)

def resultStep (results : ResultTable) : ResultWrite → ℤ × ResultTable
  | .save e => resultSave e.job e.value e.ttlS e.now results
  | .sweep now => resultSweep now results

/-- The last save of a job. -/
def lastSave (job : ℤ) : List ResultWrite → Option Save
  | [] => none
  | .save e :: ws => (lastSave job ws).or (if e.job = job then some e else none)
  | .sweep _ :: ws => lastSave job ws

/-- What a save stands for at `now`: its value until its time is over, and from the first an error if
that time is past the 64-bit range. -/
def Save.answer (e : Save) (now : ℤ) : Except SqlError (Option String) :=
  if e.ttlS.val ≤ 0 then .ok (some e.value)
  else if InRange (e.now.secs + e.ttlS.val) then
    .ok (if e.now.secs + e.ttlS.val ≤ now then none else some e.value)
  else .error (.columnType 1 "expires_at" "Real")

/-- The answer to a get at `now`, had nothing ever been swept. -/
def resultAnswer (job : ℤ) (ws : List ResultWrite) (now : ℤ) : Except SqlError (Option String) :=
  match lastSave job ws with
  | none => .ok none
  | some e => e.answer now

section Statements

variable {results : ResultTable} {job : ℤ}

theorem row_upsertResult (row : ResultRow) (results : ResultTable) (job : ℤ) :
    (upsertResult row results).find? job = if row.jobId = job then some row else results.find? job := by
  unfold upsertResult
  split_ifs with hmem hjob hjob
  · obtain ⟨r, hr⟩ := Option.isSome_iff_exists.mp (Table.find?_isSome.mpr hmem)
    have hid := (Table.find?_eq_some.mp hr).2
    rw [Table.find?_update, ← hjob, hr, Option.map_some, if_pos (decide_eq_true hid)]
    simp only [hid]
  · rw [Table.find?_update]
    cases hr : results.find? job with
    | none => rfl
    | some r =>
      have hid := (Table.find?_eq_some.mp hr).2
      rw [Option.map_some, if_neg (by simpa [hid] using Ne.symm hjob)]
  · rw [Table.find?_insert, if_pos hjob]
  · rw [Table.find?_insert, if_neg hjob]

/-- The row that a save leaves. -/
def Save.row (e : Save) : ResultRow :=
  ⟨e.job, e.value, if 0 < e.ttlS.val then some (add e.now e.ttlS) else none⟩

theorem find?_resultSave (e : Save) (results : ResultTable) (job : ℤ) :
    (resultStep results (.save e)).2.find? job = if e.job = job then some e.row else results.find? job := by
  simp only [resultStep, resultSave, Save.row]
  split_ifs <;> simp_all [row_upsertResult]

theorem find?_resultSweep (now : Clock) (results : ResultTable) (job : ℤ) :
    (resultStep results (.sweep now)).2.find? job =
      (results.find? job).filter fun r ↦ !r.expiresAt.any fun x ↦ x.val ≤ now.secs :=
  Table.find?_delete _ _ _

/-- The time of a save is over. -/
def Save.Expired (e : Save) (now : ℤ) : Prop := 0 < e.ttlS.val ∧ (add e.now e.ttlS).val ≤ now

theorem Save.Expired.inRange {e : Save} {now : Clock} (h : e.Expired now) : InRange (e.now.secs + e.ttlS.val) := by
  by_contra hr
  have hover : 2 ^ 63 ≤ e.now.secs + e.ttlS.val := by
    have hpos := h.1
    have hnow := e.now.pos
    unfold InRange at hr
    omega
  exact absurd h.2 (not_le.mpr (now.lt.trans_le (le_val_add e.now.inRange e.ttlS.inRange hover)))

theorem Save.expired_iff {e : Save} {now : Clock} : e.Expired now ↔ e.answer now = .ok none := by
  constructor
  · intro h
    have hr := h.inRange
    have hle := h.2
    rw [add_of_inRange hr, Number.val] at hle
    rw [Save.answer, if_neg (by have := h.1; omega), if_pos hr, if_pos hle]
  · intro h
    unfold Save.answer at h
    split_ifs at h with httl hr hle
    · cases h
    · exact ⟨not_le.mp httl, by rwa [add_of_inRange hr, Number.val]⟩
    · cases h

theorem Save.expired_row {e : Save} {now : Clock} :
    (e.row.expiresAt.any fun x ↦ x.val ≤ now.secs) = true ↔ e.Expired now := by
  unfold Save.row Save.Expired
  split_ifs with h <;> simp [h]

theorem resultGet_row {e : Save} {now : Clock} (h : results.find? job = some e.row) :
    resultGet job now results = e.answer now := by
  rw [resultGet, h]
  simp only [Save.row, Save.answer]
  by_cases hpos : 0 < e.ttlS.val
  · rw [if_pos hpos, if_neg (not_le.mpr hpos)]
    by_cases hr : InRange (e.now.secs + e.ttlS.val)
    · rw [if_pos hr, add_of_inRange hr]
      rfl
    · rw [if_neg hr, add, if_neg hr]
      rfl
  · rw [if_neg hpos, if_pos (not_lt.mp hpos)]

end Statements

section Run

theorem lastSave_append (job : ℤ) (ws ws' : List ResultWrite) :
    lastSave job (ws ++ ws') = (lastSave job ws').or (lastSave job ws) := by
  induction ws with
  | nil => simp [lastSave]
  | cons w ws ih => cases w <;> simp [lastSave, ih, Option.or_assoc]

/-- A job has the row of its last save, unless that has been swept after its time. -/
def Stored (ws : List ResultWrite) (now : ℤ) (results : ResultTable) (job : ℤ) : Prop :=
  results.find? job = (lastSave job ws).map Save.row ∨
    results.find? job = none ∧ ∃ e, lastSave job ws = some e ∧ e.Expired now

theorem stored_step {ws : List ResultWrite} {now : Clock} {results : ResultTable} {job : ℤ}
    (h : Stored ws now results job) (w : ResultWrite) (hw : ∀ t, w = .sweep t → t.secs ≤ now.secs) :
    Stored (ws ++ [w]) now (resultStep results w).2 job := by
  unfold Stored at h ⊢
  cases w with
  | save e =>
    rw [find?_resultSave, lastSave_append]
    simp only [lastSave, Option.none_or]
    split_ifs
    · exact Or.inl rfl
    · exact h
  | sweep t =>
    rw [find?_resultSweep, lastSave_append]
    simp only [lastSave, Option.none_or]
    rcases h with h | ⟨hnone, hexp⟩
    · rw [h]
      cases hlast : lastSave job ws with
      | none => exact Or.inl rfl
      | some e =>
        by_cases he : e.Expired t
        · refine Or.inr ⟨?_, e, rfl, he.1, he.2.trans (hw t rfl)⟩
          rw [Option.map_some, Option.filter_some, Save.expired_row.mpr he]
          rfl
        · left
          rw [Option.map_some, Option.filter_some, if_pos]
          simpa using mt Save.expired_row.mp he
    · rw [hnone]
      exact Or.inr ⟨rfl, hexp⟩

theorem stored_run (ws : List ResultWrite) {now : Clock} (hws : ∀ t, .sweep t ∈ ws → t.secs ≤ now.secs)
    (job : ℤ) : Stored ws now (final resultStep .empty ws) job := by
  induction ws using List.reverseRecOn with
  | nil => exact Or.inl rfl
  | append_singleton ws w ih =>
    rw [final_snoc]
    refine stored_step (ih fun t ht ↦ hws t (List.mem_append_left _ ht)) w fun t ht ↦ hws t ?_
    simp [ht]

theorem resultGet_final (ws : List ResultWrite) {now : Clock}
    (hws : ∀ t, .sweep t ∈ ws → t.secs ≤ now.secs) (job : ℤ) :
    resultGet job now (final resultStep .empty ws) = resultAnswer job ws now := by
  rcases stored_run ws hws job with hrow | ⟨hnone, e, hlast, hexp⟩
  · cases hlast : lastSave job ws with
    | none =>
      rw [hlast, Option.map_none] at hrow
      rw [resultAnswer, hlast, resultGet, hrow]
    | some e =>
      rw [hlast, Option.map_some] at hrow
      rw [resultAnswer, hlast, resultGet_row hrow]
  · rw [resultAnswer, hlast, resultGet, hnone]
    exact (Save.expired_iff.mp hexp).symm

theorem find?_resultSweep_final (ws : List ResultWrite) {now : Clock}
    (hws : ∀ t, .sweep t ∈ ws → t.secs ≤ now.secs) (job : ℤ) :
    ((resultSweep now (final resultStep .empty ws)).2.find? job).isSome ↔
      resultAnswer job ws now ≠ .ok none := by
  have hsweep : (resultSweep now (final resultStep .empty ws)).2.find? job = _ :=
    find?_resultSweep now _ job
  rcases stored_run ws hws job with hrow | ⟨hnone, e, hlast, hexp⟩
  · cases hlast : lastSave job ws with
    | none =>
      rw [hlast, Option.map_none] at hrow
      simp [hsweep, hrow, resultAnswer, hlast]
    | some e =>
      have hanswer : resultAnswer job ws now = e.answer now := by rw [resultAnswer, hlast]
      rw [hlast, Option.map_some] at hrow
      rw [hsweep, hrow, hanswer, ne_eq, ← Save.expired_iff, ← Save.expired_row]
      simp [Option.filter_some]
  · have hanswer : resultAnswer job ws now = .ok none := by
      rw [resultAnswer, hlast]
      exact Save.expired_iff.mp hexp
    simp [hsweep, hnone, hanswer]

/-- A result that is not there stays away until the next save. -/
theorem resultGet_later {job : ℤ} {now t : Clock} {results : ResultTable}
    (h : resultGet job now results = .ok none) (hle : now.secs ≤ t.secs) :
    resultGet job t results = .ok none := by
  unfold resultGet at h ⊢
  cases hr : results.find? job with
  | none => rfl
  | some r =>
    rw [hr] at h
    cases hx : r.expiresAt with
    | none => simp [hx] at h
    | some x =>
      cases x with
      | int v =>
        have hv : v ≤ now.secs := by simpa [hx, decodeInt] using h
        simpa [hx, decodeInt] using hv.trans hle
      | real v => simp [hx, decodeInt] at h

/-- After any saves and sweeps, with no sweep at a later time than the get: a get answers with the
last save of its job, as if nothing had been swept; and a sweep keeps the jobs whose last save has not
expired, and no others. -/
theorem result_store_exact (ws : List ResultWrite) (now : Clock)
    (hws : ∀ t, .sweep t ∈ ws → t.secs ≤ now.secs) (job : ℤ) :
    resultGet job now (final resultStep .empty ws) = resultAnswer job ws now ∧
      (((resultSweep now (final resultStep .empty ws)).2.find? job).isSome ↔
        resultAnswer job ws now ≠ .ok none) :=
  ⟨resultGet_final ws hws job, find?_resultSweep_final ws hws job⟩

/-- A save whose time is over is swept, one without a time stays, and one for the longest time there is
cannot be read. -/
def sweptOnce : List ResultWrite :=
  [.save ⟨7, "1", .near 10, .near 100⟩, .save ⟨8, "2", .near 0, .near 101⟩, .sweep (.near 120),
    .save ⟨9, "3", .near (2 ^ 63), .near 121⟩]

theorem result_store_exact_sweptOnce :
    resultGet 7 (.near 130) (final resultStep .empty sweptOnce) = .ok none ∧
      resultGet 8 (.near 130) (final resultStep .empty sweptOnce) = .ok (some "2") ∧
      resultGet 9 (.near 130) (final resultStep .empty sweptOnce) =
        .error (.columnType 1 "expires_at" "Real") := by
  have hws (t : Clock) (ht : .sweep t ∈ sweptOnce) : t.secs ≤ (Clock.near 130).secs := by
    simp only [sweptOnce, List.mem_cons, ResultWrite.sweep.injEq, reduceCtorEq, List.not_mem_nil, false_or,
      or_false] at ht
    rw [ht]
    decide
  have hget (job : ℤ) := (result_store_exact sweptOnce (.near 130) hws job).1
  exact ⟨(hget 7).trans rfl, (hget 8).trans rfl, (hget 9).trans rfl⟩

end Run

end Honker
