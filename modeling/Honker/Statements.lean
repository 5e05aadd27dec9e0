import Honker.Calls

namespace Honker

open Relational Numeric Fallible

theorem mem_selectIds {κ : Type} [LinearOrder κ] {live : LiveTable} {p : LiveRow → Bool}
    {key : LiveRow → κ} {lim : ℤ} {r : LiveRow} (hr : r ∈ live.rows)
    (h : r.id ∈ selectIds live p key lim) : p r = true := by
  obtain ⟨s, hs, hid⟩ := List.mem_map.mp h
  have hmem := mem_orderBy.mp (mem_of_mem_limit hs)
  obtain ⟨hslive, hp⟩ := List.mem_filter.mp hmem
  exact Table.key_inj hslive hr hid ▸ hp

theorem mem_claimIds {live : LiveTable} {queue : String} {now n : ℤ} {r : LiveRow}
    (hr : r ∈ live.rows) (h : r.id ∈ claimIds live queue now n) :
    r.ready queue now ∨ r.reclaimable queue now := by
  obtain ⟨s, hs, hid⟩ := List.mem_map.mp h
  have hmem := mem_orderBy.mp (mem_of_mem_limit hs)
  rcases List.mem_append.mp hmem with hdue | hlapsed
  · obtain ⟨hslive, hp⟩ := List.mem_filter.mp (mem_orderBy.mp (mem_of_mem_limit hdue))
    exact Or.inl (Table.key_inj hslive hr hid ▸ hp)
  · obtain ⟨hslive, hp⟩ := List.mem_filter.mp hlapsed
    exact Or.inr (Table.key_inj hslive hr hid ▸ hp)

section Move

variable {p : LiveRow → Bool} {error : String} {diedAt : ℤ} {db db' : Db}

def copies (p : LiveRow → Bool) (error : String) (diedAt : ℤ) (live : LiveTable) : List DeadRow :=
  (live.rows.filter p).map (LiveRow.toDead error diedAt)

theorem map_id_copies (p : LiveRow → Bool) (error : String) (diedAt : ℤ) (live : LiveTable) :
    (copies p error diedAt live).map DeadRow.id = (live.rows.filter p).map LiveRow.id := by
  rw [copies, List.map_map]
  rfl

theorem nodup_copies (p : LiveRow → Bool) (error : String) (diedAt : ℤ) (live : LiveTable) :
    ((copies p error diedAt live).map DeadRow.id).Nodup := by
  rw [map_id_copies]
  exact live.nodup.sublist (List.filter_sublist.map LiveRow.id)

theorem find?_copies (p : LiveRow → Bool) (error : String) (diedAt : ℤ) (live : LiveTable) (j : ℤ) :
    (copies p error diedAt live).find? (fun d ↦ d.id = j) =
      ((live.find? j).filter p).map (LiveRow.toDead error diedAt) := by
  ext d
  refine (Table.find?_eq_some (t := (⟨_, nodup_copies p error diedAt live⟩ : DeadTable))).trans ?_
  simp only [copies, List.mem_map, List.mem_filter, Option.map_eq_some_iff,
    Option.filter_eq_some_iff, Table.find?_eq_some]
  constructor
  · intro h
    obtain ⟨⟨r, ⟨hr, hsel⟩, rfl⟩, hid⟩ := h
    exact ⟨r, ⟨⟨hr, hid⟩, hsel⟩, rfl⟩
  · intro h
    obtain ⟨r, ⟨⟨hr, hid⟩, hsel⟩, rfl⟩ := h
    exact ⟨⟨r, ⟨hr, hsel⟩, rfl⟩, hid⟩

/-- `db'` is `db` with the rows of `p` moved from `_honker_live` to `_honker_dead`. -/
structure Moved (p : LiveRow → Bool) (error : String) (diedAt : ℤ) (db db' : Db) : Prop where
  live : db'.live = db.live.delete p
  dead : db.dead.insertAll? (copies p error diedAt db.live) = some db'.dead
  tasks : db'.tasks = db.tasks
  seq : db'.seq = db.seq

theorem Moved.kept (h : Moved p error diedAt db db') {j : ℤ}
    (hj : ∀ r, db.live.find? j = some r → p r = false) :
    db'.live.find? j = db.live.find? j ∧ db'.dead.find? j = db.dead.find? j := by
  have hlive := Table.find?_delete db.live p j
  have hdead := Table.find?_insertAll? h.dead j
  rw [find?_copies] at hdead
  rw [h.live, hlive, hdead]
  cases hr : db.live.find? j with
  | none => simp
  | some r => simp [Option.filter, hj r hr]

theorem Moved.gone (h : Moved p error diedAt db db') {j : ℤ} {r : LiveRow}
    (hr : db.live.find? j = some r) (hp : p r = true) :
    db'.live.find? j = none ∧ db.dead.find? j = none ∧
      db'.dead.find? j = some (r.toDead error diedAt) := by
  have hlive := Table.find?_delete db.live p j
  have hdead := Table.find?_insertAll? h.dead j
  rw [find?_copies, hr] at hdead
  have hnone : db.dead.find? j = none := by
    rw [Table.find?_eq_none]
    intro hmem
    have hnd := db'.dead.nodup
    rw [Table.insertAll?_eq_some h.dead, List.map_append, map_id_copies] at hnd
    obtain ⟨hrow, hid⟩ := Table.find?_eq_some.mp hr
    have hcopy : r.id ∈ (db.live.rows.filter p).map LiveRow.id :=
      List.mem_map_of_mem (List.mem_filter.mpr ⟨hrow, hp⟩)
    exact (List.nodup_append'.mp hnd).2.2 hmem (hid ▸ hcopy)
  refine ⟨?_, hnone, ?_⟩
  · rw [h.live, hlive, hr]
    simp [Option.filter, hp]
  · rw [hdead, hnone]
    simp [Option.filter, hp]

/-- The second statement of a move selects what the first one copied, so the counts agree. -/
theorem moveToDead_eq (idsSql : LiveTable → String → ℤ → ℤ → List ℤ) (queue : String) (now lim : ℤ)
    (error : String) (db : Db) :
    let p (r : LiveRow) : Bool := r.id ∈ idsSql db.live queue now lim
    moveToDead idsSql queue now lim error db =
      match db.dead.insertAll? (copies p error now db.live) with
      | none => .error (.unique "_honker_dead.id")
      | some dead => .ok ((db.live.rows.filter p).length,
          { db with dead := dead, live := db.live.delete p }) := by
  intro p
  unfold moveToDead
  change (match db.dead.insertAll? (copies p error now db.live) with
      | none => _ | some dead => _) = _
  cases hins : db.dead.insertAll? (copies p error now db.live) with
  | none => rfl
  | some dead =>
    change (if (db.live.rows.filter p).length = 0 then _ else _) = _
    split_ifs with h0
    · have hnil := List.filter_eq_nil_iff.mp (List.eq_nil_of_length_eq_zero h0)
      rw [Table.delete_of_forall_not (fun r hr ↦ by simpa using hnil r hr), h0]
    · simp only [ne_eq, not_true_eq_false, if_false]
      rfl

theorem moveToDead_ok {idsSql : LiveTable → String → ℤ → ℤ → List ℤ} {queue : String} {now lim : ℤ}
    {n : ℕ} (h : moveToDead idsSql queue now lim error db = .ok (n, db')) :
    Moved (fun r ↦ r.id ∈ idsSql db.live queue now lim) error now db db' ∧
      n = (db.live.rows.filter (fun r ↦ r.id ∈ idsSql db.live queue now lim)).length := by
  have heq := h.symm.trans (moveToDead_eq idsSql queue now lim error db)
  cases hins : db.dead.insertAll? (copies (fun r ↦ r.id ∈ idsSql db.live queue now lim) error now
    db.live) with
  | none => simp [hins] at heq
  | some dead =>
    simp only [hins] at heq
    cases heq
    exact ⟨⟨rfl, hins, rfl, rfl⟩, rfl⟩

theorem buryWhere_eq {j : ℤ} (hp : ∀ r, p r = true → r.id = j) (error : String) (diedAt : ℤ)
    (db : Db) :
    buryWhere p error diedAt db =
      match (db.live.find? j).filter p with
      | none => .ok (0, db)
      | some r => do
        let d ← DeadRow.fromRow r error diedAt
        let db ← insertDead d { db with live := db.live.delete p }
        return (1, db) := by
  unfold buryWhere deleteLive
  rw [db.live.filter_key hp]
  cases hr : (db.live.find? j).filter p with
  | some r => rfl
  | none =>
    have hkeep : db.live.delete p = db.live := by
      refine Table.delete_of_forall_not fun r hrow ↦ ?_
      by_contra hc
      have hpr : p r = true := by simpa using hc
      have hfind : db.live.find? j = some r := Table.find?_eq_some.mpr ⟨hrow, hp r hpr⟩
      simp [hfind, Option.filter, hpr] at hr
    rw [hkeep]
    rfl

theorem buryWhere_ok {j n : ℤ} (hp : ∀ r, p r = true → r.id = j)
    (h : buryWhere p error diedAt db = .ok (n, db')) :
    ((∀ r, db.live.find? j = some r → p r = false) ∧ n = 0 ∧ db' = db) ∨
      (∃ r, db.live.find? j = some r ∧ p r = true ∧ n = 1) ∧ Moved p error diedAt db db' := by
  rw [buryWhere_eq hp] at h
  cases hr : (db.live.find? j).filter p with
  | none =>
    left
    simp only [hr] at h
    cases h
    refine ⟨fun r hfind ↦ ?_, rfl, rfl⟩
    rw [hfind] at hr
    simpa [Option.filter] using hr
  | some r =>
    right
    obtain ⟨hfind, hpr⟩ := Option.filter_eq_some_iff.mp hr
    have hcopies : copies p error diedAt db.live = [r.toDead error diedAt] := by
      rw [copies, db.live.filter_key hp, hr]
      rfl
    simp only [hr] at h
    obtain ⟨d, hd, h⟩ := bind_ok.mp h
    obtain ⟨db₁, hins, h⟩ := bind_ok.mp h
    cases h
    cases hrun : r.runAt with
    | real v => simp [DeadRow.fromRow, hrun] at hd
    | int v =>
      simp only [DeadRow.fromRow, hrun] at hd
      cases hd
      cases hdead : db.dead.insertAll? [r.toDead error diedAt] with
      | none => simp [insertDead, hdead] at hins
      | some dead =>
        simp only [insertDead, hdead] at hins
        cases hins
        exact ⟨⟨r, hfind, hpr, rfl⟩, rfl, hcopies ▸ hdead, rfl, rfl⟩

theorem buryWhere_miss {j : ℤ} (hp : ∀ r, p r = true → r.id = j)
    (hmiss : ∀ r, db.live.find? j = some r → p r = false) (error : String) (diedAt : ℤ) :
    buryWhere p error diedAt db = .ok (0, db) := by
  have hnone : (db.live.find? j).filter p = none := by
    cases hr : db.live.find? j with
    | none => rfl
    | some r => simp [Option.filter, hmiss r hr]
  rw [buryWhere_eq hp, hnone]

theorem buryWhere_hit {j : ℤ} {r : LiveRow} (hp : ∀ r, p r = true → r.id = j)
    (hfind : db.live.find? j = some r) (hpr : p r = true) (hdead : db.dead.find? j = none)
    (error : String) (diedAt : ℤ) :
    (∃ v, r.runAt = .int v) ∧ (∃ db', buryWhere p error diedAt db = .ok (1, db')) ∨
      (∃ v, r.runAt = .real v) ∧
        buryWhere p error diedAt db = .error (.columnType 4 "run_at" "Real") := by
  have hr : (db.live.find? j).filter p = some r := Option.filter_eq_some_iff.mpr ⟨hfind, hpr⟩
  rw [buryWhere_eq hp, hr]
  cases hrun : r.runAt with
  | real v => exact Or.inr ⟨⟨v, rfl⟩, by simp [DeadRow.fromRow, hrun, bind, Except.bind]⟩
  | int v =>
    refine Or.inl ⟨⟨v, rfl⟩, ?_⟩
    cases hins : db.dead.insertAll? [r.toDead error diedAt] with
    | none =>
      obtain ⟨d, hd, hmem⟩ := Table.insertAll?_eq_none (by simp) hins
      rw [List.mem_singleton.mp hd] at hmem
      obtain ⟨-, rfl⟩ := Table.find?_eq_some.mp hfind
      exact absurd hmem (Table.find?_eq_none.mp hdead)
    | some dead => simp [DeadRow.fromRow, hrun, bind, Except.bind, insertDead, hins, pure, Except.pure]

section Retry

variable {job : ℤ} {worker : String} {attempt : Option ℤ} {now : ℤ} {r : LiveRow}

theorem retryGuard_id (h : retryGuard job worker attempt now r = true) : r.id = job := by
  cases attempt <;> simp_all [retryGuard, LiveRow.processingFor, LiveRow.tokenFor]

theorem failGuard_id (h : failGuard job worker attempt now r = true) : r.id = job := by
  cases attempt <;> simp_all [failGuard, LiveRow.heldBy, LiveRow.tokenFor]

/-- The database after `RETRY_PENDING_SQL`. -/
def requeueLive (job : ℤ) (worker : String) (delay : ℤ) (attempt : Option ℤ) (now : ℤ) (db : Db) : Db :=
  (updateLive (fun r ↦ retryGuard job worker attempt now r && r.hasAttempts)
    (LiveRow.requeued delay now) (LiveRow.id_requeued delay now) db).2

/-- The three ways a retry ends: requeued, moved to `_honker_dead`, or refused without effect. -/
theorem retryWith_cases (job : ℤ) (worker : String) (delay : I64) (error : String)
    (attempt : Option ℤ) (clk : ℕ → Clock) (db : Db) :
    (∃ r, db.live.find? job = some r ∧ retryGuard job worker attempt (clk 0) r ∧ r.hasAttempts ∧
      retryWith job worker delay error attempt clk db =
        (.ok 1, requeueLive job worker delay attempt (clk 0) db)) ∨
    (∃ r db', db.live.find? job = some r ∧ retryGuard job worker attempt (clk 2) r ∧
      r.hasAttempts = false ∧ retryWith job worker delay error attempt clk db = (.ok 1, db') ∧
      Moved (fun r ↦ retryGuard job worker attempt (clk 2) r && !r.hasAttempts) error (clk 3) db db') ∨
    ((retryWith job worker delay error attempt clk db).2 = db ∧
      (∀ r, db.live.find? job = some r → retryGuard job worker attempt (clk 0) r →
        r.hasAttempts = false) ∧
      ((retryWith job worker delay error attempt clk db).1 = .ok 0 ∧
          (∀ r, db.live.find? job = some r → retryGuard job worker attempt (clk 1) r →
            retryGuard job worker attempt (clk 2) r → r.hasAttempts = true) ∨
        ∃ e, (retryWith job worker delay error attempt clk db).1 = .error e ∧ buryWhere
          (fun r ↦ retryGuard job worker attempt (clk 2) r && !r.hasAttempts) error (clk 3) db =
            .error e)) := by
  set p : LiveRow → Bool := fun r ↦ retryGuard job worker attempt (clk 0) r && r.hasAttempts with hp
  have hpid : ∀ r, p r = true → r.id = job := fun r hr ↦ retryGuard_id (Bool.and_eq_true_iff.mp hr).1
  by_cases hupd : 0 < (db.live.rows.filter p).length
  · left
    obtain ⟨r, hr⟩ := List.exists_mem_of_length_pos hupd
    obtain ⟨hrow, hpr⟩ := List.mem_filter.mp hr
    obtain ⟨hg, ha⟩ := Bool.and_eq_true_iff.mp hpr
    refine ⟨r, Table.find?_eq_some.mpr ⟨hrow, hpid r hpr⟩, hg, ha, ?_⟩
    simp only [retryWith, updateLive, ← hp, if_pos hupd, requeueLive]
  · right
    have hnone : ∀ r ∈ db.live.rows, p r = false := by
      intro r hr
      by_contra hc
      exact hupd (List.length_pos_of_mem (List.mem_filter.mpr ⟨hr, by simpa using hc⟩))
    have hspent : ∀ r, db.live.find? job = some r → retryGuard job worker attempt (clk 0) r →
        r.hasAttempts = false := by
      intro r hr hg
      simpa [hp, hg] using hnone r (Table.find?_eq_some.mp hr).1
    simp only [retryWith, updateLive, ← hp, if_neg hupd, Table.update_of_forall_not hnone]
    split_ifs with hread
    · generalize hq : (fun r ↦ retryGuard job worker attempt (clk 2) r && !r.hasAttempts) = q
      cases hbury : buryWhere q error (clk 3) db with
      | error e => exact Or.inr ⟨rfl, hspent, Or.inr ⟨e, rfl, rfl⟩⟩
      | ok x =>
        obtain ⟨n, db'⟩ := x
        have hqid : ∀ r, q r = true → r.id = job := by
          intro r hr
          rw [← hq] at hr
          exact retryGuard_id (Bool.and_eq_true_iff.mp hr).1
        rcases buryWhere_ok hqid hbury with ⟨hmiss, rfl, rfl⟩ | ⟨⟨r, hr, hqr, rfl⟩, hmoved⟩
        · refine Or.inr ⟨rfl, hspent, Or.inl ⟨rfl, fun r hr _ hg ↦ ?_⟩⟩
          simpa [← hq, hg] using hmiss r hr
        · rw [← hq] at hqr
          obtain ⟨hg, ha⟩ := Bool.and_eq_true_iff.mp hqr
          exact Or.inl ⟨r, db', hr, hg, by simpa using ha, rfl, hmoved⟩
    · refine Or.inr ⟨rfl, hspent, Or.inl ⟨rfl, fun r hr hg _ ↦ ?_⟩⟩
      by_contra hc
      refine hread (List.any_eq_true.mpr ⟨r, (Table.find?_eq_some.mp hr).1, ?_⟩)
      simpa [hg] using hc

end Retry

end Move

section Claim

variable {emit : Emission LiveRow} {queue worker : String} {n timeout now : ℤ} {db db' : Db}
  {jobs : List ClaimedJob}

/-- What a claimed row must look like for the decoder to accept it. -/
theorem ofRow_ok {r : LiveRow} {job : ClaimedJob} (h : ClaimedJob.ofRow r = .ok job) :
    job.id = r.id ∧ job.queue = r.queue ∧ job.payload = r.payload ∧
      r.workerId = some job.workerId ∧ job.attempts = r.attempts ∧
      r.claimExpiresAt = some (.int job.claimExpiresAt) ∧ r.claimedAt = some job.claimedAt := by
  unfold ClaimedJob.ofRow at h
  split at h <;> simp_all
  cases h
  simp

theorem ofRow_claimed_error {r : LiveRow} {e : SqlError}
    (h : ClaimedJob.ofRow (r.claimed worker timeout now) = .error e) :
    ¬ InRange (now + timeout) ∧ e = .columnType 5 "claim_expires_at" "Real" := by
  by_cases hrange : InRange (now + timeout)
  · simp [ClaimedJob.ofRow, LiveRow.claimed, add_of_inRange hrange] at h
  · refine ⟨hrange, ?_⟩
    simp only [ClaimedJob.ofRow, LiveRow.claimed, add, if_neg hrange] at h
    cases h
    rfl

theorem find?_promote (queue : String) (now lim : ℤ) (db : Db) (j : ℤ) :
    (promote queue now lim db).live.find? j = db.live.find? j ∨
      ∃ r, db.live.find? j = some r ∧ r.promotable queue now ∧
        (promote queue now lim db).live.find? j = some r.promoted := by
  simp only [promote, Table.find?_update]
  cases hr : db.live.find? j with
  | none => exact Or.inl rfl
  | some r =>
    by_cases hsel : r.id ∈ promoteIds db.live queue now lim
    · exact Or.inr ⟨r, rfl, mem_selectIds (Table.find?_eq_some.mp hr).1 hsel, by simp [hsel]⟩
    · exact Or.inl (by simp [hsel])

theorem housekeep_ok (h : housekeep queue now db = .ok db') :
    ∃ db₁, Moved (fun r ↦ r.id ∈ expireIds (promote queue now claimHousekeepingLimit db).live queue
        now claimHousekeepingLimit) "expired" now (promote queue now claimHousekeepingLimit db) db₁ ∧
      Moved (fun r ↦ r.id ∈ exhaustedIds db₁.live queue now claimHousekeepingLimit)
        "max attempts exceeded" now db₁ db' := by
  obtain ⟨⟨n₁, db₁⟩, hexp, h⟩ := bind_ok.mp h
  obtain ⟨⟨n₂, db₂⟩, hexh, h⟩ := bind_ok.mp h
  cases h
  exact ⟨db₁, (moveToDead_ok hexp).1, (moveToDead_ok hexh).1⟩

theorem promoted_of_promotable {r : LiveRow} (h : r.promotable queue now) :
    r.promoted.expirable queue now = r.expirable queue now ∧ r.promoted.exhausted queue now = false := by
  simp only [LiveRow.promotable, Bool.and_eq_true, decide_eq_true_eq] at h
  simp [LiveRow.expirable, LiveRow.exhausted, LiveRow.promoted, LiveRow.expired, LiveRow.lapsed, h]

/-- What steps 1 to 3 of a claim can do to one job. -/
theorem housekeep_job (h : housekeep queue now db = .ok db') (j : ℤ) :
    (db'.dead.find? j = db.dead.find? j ∧
      (db'.live.find? j = db.live.find? j ∨
        ∃ r, db.live.find? j = some r ∧ r.promotable queue now ∧ db'.live.find? j = some r.promoted)) ∨
    (∃ r error, db.live.find? j = some r ∧ db'.live.find? j = none ∧ db.dead.find? j = none ∧
      db'.dead.find? j = some (r.toDead error now) ∧
      (error = "expired" ∧ r.expirable queue now ∨
        error = "max attempts exceeded" ∧ r.exhausted queue now)) := by
  obtain ⟨db₁, hexp, hexh⟩ := housekeep_ok h
  have hlive₀ := find?_promote queue now claimHousekeepingLimit db j
  have hdead₀ : (promote queue now claimHousekeepingLimit db).dead = db.dead := rfl
  generalize hdb₀ : promote queue now claimHousekeepingLimit db = db₀ at hexp hlive₀ hdead₀
  by_cases h₁ : ∃ s, db₀.live.find? j = some s ∧
      s.id ∈ expireIds db₀.live queue now claimHousekeepingLimit
  · obtain ⟨s, hs, hsel⟩ := h₁
    have hexpirable : s.expirable queue now := mem_selectIds (Table.find?_eq_some.mp hs).1 hsel
    obtain ⟨hgone, hnone, hdied⟩ := hexp.gone hs (by simpa using hsel)
    obtain ⟨hlive₂, hdead₂⟩ := hexh.kept (j := j) (by simp [hgone])
    rw [hgone] at hlive₂
    rw [hdied] at hdead₂
    rw [hdead₀] at hnone
    rcases hlive₀ with hkeep | ⟨r, hr, hprom, hpost⟩
    · exact Or.inr ⟨s, "expired", by rw [← hkeep, hs], hlive₂, hnone, hdead₂, Or.inl ⟨rfl, hexpirable⟩⟩
    · cases hs.symm.trans hpost
      rw [(promoted_of_promotable hprom).1] at hexpirable
      exact Or.inr ⟨r, "expired", hr, hlive₂, hnone, hdead₂, Or.inl ⟨rfl, hexpirable⟩⟩
  · obtain ⟨hlive₁, hdead₁⟩ := hexp.kept (j := j) (fun s hs ↦ by
      by_contra hc
      exact h₁ ⟨s, hs, by simpa using hc⟩)
    by_cases h₂ : ∃ s, db₁.live.find? j = some s ∧
        s.id ∈ exhaustedIds db₁.live queue now claimHousekeepingLimit
    · obtain ⟨s, hs, hsel⟩ := h₂
      have hexhausted : s.exhausted queue now := mem_selectIds (Table.find?_eq_some.mp hs).1 hsel
      obtain ⟨hgone, hnone, hdied⟩ := hexh.gone hs (by simpa using hsel)
      rw [hdead₁, hdead₀] at hnone
      rw [hlive₁] at hs
      rcases hlive₀ with hkeep | ⟨r, hr, hprom, hpost⟩
      · exact Or.inr ⟨s, _, by rw [← hkeep, hs], hgone, hnone, hdied, Or.inr ⟨rfl, hexhausted⟩⟩
      · cases hs.symm.trans hpost
        simp [(promoted_of_promotable hprom).2] at hexhausted
    · obtain ⟨hlive₂, hdead₂⟩ := hexh.kept (j := j) (fun s hs ↦ by
        by_contra hc
        exact h₂ ⟨s, hs, by simpa using hc⟩)
      refine Or.inl ⟨by rw [hdead₂, hdead₁, hdead₀], ?_⟩
      rw [hlive₂, hlive₁]
      exact hlive₀

theorem housekeep_frame (h : housekeep queue now db = .ok db') :
    db'.tasks = db.tasks ∧ db'.seq = db.seq := by
  obtain ⟨db₁, hexp, hexh⟩ := housekeep_ok h
  exact ⟨hexh.tasks.trans hexp.tasks, hexh.seq.trans hexp.seq⟩

/-- The table after the `UPDATE` of `CLAIM_SQL`. -/
def claimUpdate (queue worker : String) (n timeout now : ℤ) (live : LiveTable) : LiveTable :=
  live.update (fun r ↦ r.id ∈ claimIds live queue now n) (LiveRow.claimed worker timeout now)
    (LiveRow.id_claimed worker timeout now)

/-- The rows of `live` that `CLAIM_SQL` selects, as they were before it. -/
def claimRows (queue : String) (n now : ℤ) (live : LiveTable) : List LiveRow :=
  live.rows.filter (fun r ↦ r.id ∈ claimIds live queue now n)

theorem claimSql_eq (emit : Emission LiveRow) (queue worker : String) (n timeout now : ℤ) (db : Db) :
    claimSql emit queue worker n timeout now db =
      ((emit.order ((claimRows queue n now db.live).map (LiveRow.claimed worker timeout now))).mapM
        ClaimedJob.ofRow).map
        (fun jobs ↦ (jobs, { db with live := claimUpdate queue worker n timeout now db.live })) := by
  have hrows : (claimUpdate queue worker n timeout now db.live).rows.filter
      (fun r ↦ r.id ∈ claimIds db.live queue now n) =
        (claimRows queue n now db.live).map (LiveRow.claimed worker timeout now) := by
    simp only [claimUpdate, claimRows, Table.update, decide_eq_true_eq]
    induction db.live.rows with
    | nil => rfl
    | cons r l ih => by_cases hr : r.id ∈ claimIds db.live queue now n <;> simp [hr, ih]
  rw [← hrows]
  simp only [claimSql, claimUpdate, bind, Except.bind]
  cases (emit.order _).mapM ClaimedJob.ofRow <;> rfl

theorem mapM_ofRow_ids {rows : List LiveRow} (h : rows.mapM ClaimedJob.ofRow = .ok jobs) :
    jobs.map ClaimedJob.id = rows.map LiveRow.id := by
  have hall := mapM_ok h
  clear h
  induction hall with
  | nil => rfl
  | cons ha _ ih => rw [List.map_cons, List.map_cons, (ofRow_ok ha).1, ih]

theorem claimSql_ids (h : claimSql emit queue worker n timeout now db = .ok (jobs, db')) :
    jobs.map ClaimedJob.id = (emit.order ((claimRows queue n now db.live).map
      (LiveRow.claimed worker timeout now))).map LiveRow.id := by
  rw [claimSql_eq] at h
  obtain ⟨l, hl, heq⟩ := map_ok.mp h
  cases heq
  exact mapM_ofRow_ids hl

theorem claimSql_ok (h : claimSql emit queue worker n timeout now db = .ok (jobs, db')) :
    db' = { db with live := claimUpdate queue worker n timeout now db.live } ∧
      (∀ job, job ∈ jobs ↔ ∃ r ∈ claimRows queue n now db.live,
        ClaimedJob.ofRow (r.claimed worker timeout now) = .ok job) ∧
      (jobs.map ClaimedJob.id).Perm ((claimRows queue n now db.live).map LiveRow.id) ∧
      (jobs ≠ [] → InRange (now + timeout)) := by
  rw [claimSql_eq] at h
  generalize hrows : (claimRows queue n now db.live).map (LiveRow.claimed worker timeout now) = rows
    at h
  cases hjobs : (emit.order rows).mapM ClaimedJob.ofRow with
  | error e => simp [hjobs, Except.map] at h
  | ok l =>
    simp only [hjobs, Except.map] at h
    cases h
    have hall := mapM_ok hjobs
    have hperm := emit.perm rows
    have hids := mapM_ofRow_ids hjobs
    have hmem (job : ClaimedJob) : job ∈ jobs ↔ ∃ r ∈ rows, ClaimedJob.ofRow r = .ok job := by
      refine Iff.trans ?_ (exists_congr fun r ↦ and_congr_left fun _ ↦ hperm.mem_iff)
      clear hjobs hperm hids
      generalize emit.order rows = l at hall
      induction hall with
      | nil => simp
      | cons ha _ ih => simp [ih, ha, eq_comm]
    refine ⟨rfl, fun job ↦ ?_, ?_, fun hne ↦ ?_⟩
    · rw [hmem, ← hrows]
      simp only [List.mem_map, exists_exists_and_eq_and]
    · rw [hids]
      refine (hperm.map LiveRow.id).trans ?_
      rw [← hrows, List.map_map]
      exact List.Perm.refl _
    · obtain ⟨job, hjob⟩ := List.exists_mem_of_ne_nil _ hne
      obtain ⟨r, hr, hdec⟩ := (hmem job).mp hjob
      rw [← hrows] at hr
      obtain ⟨s, -, rfl⟩ := List.mem_map.mp hr
      have hexp := (ofRow_ok hdec).2.2.2.2.2.1
      exact (add_eq_int (Option.some.inj hexp)).1

end Claim

section ClaimJob

variable {emit : Emission LiveRow} {queue worker : String} {n timeout now : ℤ} {db db' : Db}
  {jobs : List ClaimedJob}

/-- What `CLAIM_SQL` does to one job: it claims its row and returns it once, or neither. -/
theorem claimSql_job (h : claimSql emit queue worker n timeout now db = .ok (jobs, db')) (j : ℤ) :
    (∃ r job, db.live.find? j = some r ∧ r.id ∈ claimIds db.live queue now n ∧
      db'.live.find? j = some (r.claimed worker timeout now) ∧
      ClaimedJob.ofRow (r.claimed worker timeout now) = .ok job ∧
      jobs.filter (fun job ↦ job.id = j) = [job] ∧ InRange (now + timeout)) ∨
    ((∀ r, db.live.find? j = some r → r.id ∉ claimIds db.live queue now n) ∧
      db'.live.find? j = db.live.find? j ∧ jobs.filter (fun job ↦ job.id = j) = []) := by
  obtain ⟨rfl, hjobs, hids, hrange⟩ := claimSql_ok h
  have hfind := Table.find?_update db.live (fun r ↦ r.id ∈ claimIds db.live queue now n)
    (LiveRow.claimed worker timeout now) (LiveRow.id_claimed worker timeout now) j
  have hnd : (jobs.map ClaimedJob.id).Nodup :=
    hids.nodup_iff.mpr (db.live.nodup.sublist (List.filter_sublist.map LiveRow.id))
  by_cases hsel : ∃ r, db.live.find? j = some r ∧ r.id ∈ claimIds db.live queue now n
  · obtain ⟨r, hr, hmem⟩ := hsel
    obtain ⟨hrow, hid⟩ := Table.find?_eq_some.mp hr
    have hj : j ∈ jobs.map ClaimedJob.id := by
      rw [hids.mem_iff, ← hid]
      exact List.mem_map_of_mem (List.mem_filter.mpr ⟨hrow, by simpa using hmem⟩)
    obtain ⟨job, hjob, hjid⟩ := List.mem_map.mp hj
    obtain ⟨s, hs, hdec⟩ := (hjobs job).mp hjob
    have hsr : s = r := by
      refine Table.key_inj (List.mem_filter.mp hs).1 hrow ?_
      rw [hid, ← hjid, (ofRow_ok hdec).1, LiveRow.id_claimed]
    subst hsr
    have hfilter := Table.filter_key (⟨jobs, hnd⟩ : Table ClaimedJob.id)
      (p := fun job ↦ job.id = j) (k := j) (fun _ hk ↦ of_decide_eq_true hk)
    have hone : (⟨jobs, hnd⟩ : Table ClaimedJob.id).find? j = some job :=
      Table.find?_eq_some.mpr ⟨hjob, hjid⟩
    refine Or.inl ⟨s, job, hr, hmem, ?_, hdec, ?_, hrange (List.ne_nil_of_mem hjob)⟩
    · simp [claimUpdate, hfind, hr, hmem]
    · simpa [hone, Option.filter, hjid] using hfilter
  · push Not at hsel
    refine Or.inr ⟨hsel, ?_, List.filter_eq_nil_iff.mpr fun job hjob ↦ ?_⟩
    · change (claimUpdate queue worker n timeout now db.live).find? j = _
      rw [claimUpdate, hfind]
      cases hr : db.live.find? j with
      | none => rfl
      | some r => simp [hsel r hr]
    · obtain ⟨r, hr, hdec⟩ := (hjobs job).mp hjob
      obtain ⟨hrow, hmem⟩ := List.mem_filter.mp hr
      have hid : job.id = r.id := (ofRow_ok hdec).1
      intro hj
      have hj : r.id = j := hid ▸ of_decide_eq_true hj
      exact hsel r (Table.find?_eq_some.mpr ⟨hrow, hj⟩) (of_decide_eq_true hmem)

end ClaimJob

section Enqueue

variable {now : Clock} {rows rows' : List LiveRow} {db db' db'' : Db}

/-- A row as `enqueue_at` inserts it. -/
structure LiveRow.Fresh (now : ℤ) (r : LiveRow) : Prop where
  attempts : r.attempts = 0
  maxAttempts : 1 ≤ r.maxAttempts
  workerId : r.workerId = none
  claimExpiresAt : r.claimExpiresAt = none
  claimedAt : r.claimedAt = none
  state : r.state = if r.runAt.val > now then .scheduled else .pending
  runAt : ∃ v, r.runAt = .int v

/-- `db'` is `db` with new rows, whose ids go up from the counter. -/
structure Enqueued (now : ℤ) (rows : List LiveRow) (db db' : Db) : Prop where
  live : db'.live.rows = db.live.rows ++ rows
  dead : db'.dead = db.dead
  fresh : ∀ r ∈ rows, r.Fresh now
  above : ∀ r ∈ rows, db.seq < r.id ∧ r.id ≤ db'.seq
  ids : (rows.map LiveRow.id).Pairwise (· < ·)
  seq : db.seq ≤ db'.seq

theorem Enqueued.refl (now : ℤ) (db : Db) : Enqueued now [] db db :=
  ⟨by simp, rfl, by simp, by simp, by simp, le_rfl⟩

theorem Enqueued.append {now : ℤ} (h : Enqueued now rows db db') (h' : Enqueued now rows' db' db'') :
    Enqueued now (rows ++ rows') db db'' where
  live := by rw [h'.live, h.live, List.append_assoc]
  dead := h'.dead.trans h.dead
  fresh := by
    intro r hr
    rcases List.mem_append.mp hr with hr | hr
    · exact h.fresh r hr
    · exact h'.fresh r hr
  above := by
    intro r hr
    have hseq := h.seq
    have hseq' := h'.seq
    rcases List.mem_append.mp hr with hr | hr
    · have hr := h.above r hr
      omega
    · have hr := h'.above r hr
      omega
  ids := by
    rw [List.map_append, List.pairwise_append]
    refine ⟨h.ids, h'.ids, fun i hi k hk ↦ ?_⟩
    obtain ⟨r, hr, rfl⟩ := List.mem_map.mp hi
    obtain ⟨r', hr', rfl⟩ := List.mem_map.mp hk
    exact lt_of_le_of_lt (h.above r hr).2 (h'.above r' hr').1
  seq := h.seq.trans h'.seq

theorem Enqueued.withTasks {now : ℤ} (h : Enqueued now rows db db') (tasks : TaskTable) :
    Enqueued now rows db { db' with tasks := tasks } :=
  ⟨h.live, h.dead, h.fresh, h.above, h.ids, h.seq⟩

theorem enqueueAt_enqueued (now created : Clock) (queue payload : String) (runAt : Option ℤ)
    (delay : Option I64) (priority : ℤ) (expires : Option I64) {maxAttempts : ℤ}
    (hmax : 1 ≤ maxAttempts) (db : Db) :
    ∃ r, r.id = db.autoId ∧ Enqueued now [r] db (enqueueAt now created queue payload runAt delay
      priority maxAttempts expires db).2 := by
  refine ⟨_, ?_, rfl, rfl, ?_, ?_, by simp, le_of_lt db.seq_lt_autoId⟩
  · rfl
  · intro r hr
    rw [List.mem_singleton.mp hr]
    exact ⟨rfl, hmax, rfl, rfl, rfl, rfl, _, rfl⟩
  · intro r hr
    rw [List.mem_singleton.mp hr]
    exact ⟨db.seq_lt_autoId, le_rfl⟩

theorem Enqueued.find? {now : ℤ} (h : Enqueued now rows db db') (j : ℤ) :
    db'.dead.find? j = db.dead.find? j ∧
      ((∃ r ∈ rows, r.id = j ∧ db.live.find? j = none ∧ db'.live.find? j = some r) ∨
        (∀ r ∈ rows, r.id ≠ j) ∧ db'.live.find? j = db.live.find? j) := by
  refine ⟨by rw [h.dead], ?_⟩
  by_cases hj : ∃ r ∈ rows, r.id = j
  · obtain ⟨r, hr, rfl⟩ := hj
    have hmem : r ∈ db'.live.rows := by
      rw [h.live]
      exact List.mem_append_right _ hr
    refine Or.inl ⟨r, hr, rfl, ?_, Table.find?_of_mem hmem⟩
    rw [Table.find?_eq_none]
    intro hold
    have hnd := db'.live.nodup
    rw [h.live, List.map_append] at hnd
    exact (List.nodup_append'.mp hnd).2.2 hold (List.mem_map_of_mem hr)
  · push Not at hj
    refine Or.inr ⟨hj, ?_⟩
    have hnone : rows.find? (fun r ↦ r.id = j) = none := List.find?_eq_none.mpr (by simpa using hj)
    unfold Table.find?
    rw [h.live, List.find?_append, hnone, Option.or_none]

end Enqueue

section Tick

variable {next : String → ℤ → Except String ℤ} {now : Clock} {created : ℤ → Clock} {tickAt : ℤ}
  {faults : TickFaults} {db db' : Db}

theorem checkMaxAttempts_ok {func : String} {m : ℤ} (h : checkMaxAttempts func m = .ok ()) : 1 ≤ m := by
  unfold checkMaxAttempts at h
  split_ifs at h with hm
  omega

section Fired

variable (next now created tickAt)

/-- The completed runs of the catch-up loop over `task`: from the fires left, the next boundary and
the database to where the task goes on, its fires and the database after them. -/
inductive Fired (task : Task) : ℕ → ℤ → Db → ℤ → List Fire → Db → Prop
  | idle {fuel at_} {db : Db} : tickAt < at_ → Fired task fuel at_ db at_ [] db
  | capped {at_ last} {db : Db} : at_ ≤ tickAt → boundary next task.cronExpr tickAt = .ok last →
      Fired task 0 at_ db last [] db
  | fire {fuel at_ later last fires} {db db' : Db} : at_ ≤ tickAt → 1 ≤ task.maxAttempts →
      boundary next task.cronExpr at_ = .ok later →
      Fired task fuel later (enqueueAt now (created db.autoId) task.queue task.payload none none
        task.priority task.maxAttempts task.expiresS db).2 last fires db' →
      Fired task (fuel + 1) at_ db last (⟨task.name, task.queue, at_, db.autoId⟩ :: fires) db'

/-- The completed runs of the loop over the due tasks. -/
inductive FiredAll : List Task → Db → List Fire → Db → Prop
  | nil {db : Db} : FiredAll [] db [] db
  | cons {task tasks last fires rest} {db db₁ db' : Db} :
      Fired next now created tickAt task schedulerMaxCatchupFires task.nextFireAt db last fires db₁ →
      FiredAll tasks (setNextFireAt task.name last db₁) rest db' →
      FiredAll (task :: tasks) db (fires ++ rest) db'

end Fired

theorem fireLoop_fired {task : Task} {fuel : ℕ} {at_ last : ℤ} {fires : List Fire}
    (h : fireLoop next now created tickAt faults task fuel at_ db = .ok (last, fires, db')) :
    Fired next now created tickAt task fuel at_ db last fires db' := by
  induction fuel generalizing at_ last fires db db' with
  | zero =>
    unfold fireLoop at h
    split_ifs at h with hdue
    · obtain ⟨v, hb, h⟩ := bind_ok.mp h
      cases h
      exact .capped hdue hb
    · cases h
      exact .idle (not_le.mp hdue)
  | succ fuel ih =>
    unfold fireLoop at h
    split_ifs at h with hdue
    · obtain ⟨_, hmax, h⟩ := bind_ok.mp h
      obtain ⟨-, hfault, h⟩ := bind_ok.mp h
      obtain ⟨later, hb, h⟩ := bind_ok.mp h
      obtain ⟨⟨last', fires', db''⟩, hrec, h⟩ := bind_ok.mp h
      cases h
      exact .fire hdue (checkMaxAttempts_ok hmax) hb (ih hrec)
    · cases h
      exact .idle (not_le.mp hdue)

theorem fireTasks_fired {tasks : List Task} {fires : List Fire}
    (h : fireTasks next now created tickAt faults tasks db = .ok (fires, db')) :
    FiredAll next now created tickAt tasks db fires db' := by
  induction tasks generalizing fires db db' with
  | nil =>
    cases h
    exact .nil
  | cons task tasks ih =>
    obtain ⟨⟨last, fires₁, db₁⟩, hloop, h⟩ := bind_ok.mp h
    obtain ⟨-, hfault, h⟩ := bind_ok.mp h
    obtain ⟨⟨fires₂, db₂⟩, hrest, h⟩ := bind_ok.mp h
    cases h
    exact .cons (fireLoop_fired hloop) (ih hrest)

theorem schedulerTickInner_fired {emit : Emission Task} {fires : List Fire}
    (h : schedulerTickInner next now created tickAt faults emit db = .ok (fires, db')) :
    FiredAll next now created tickAt (orderBy Task.name (tickDue tickAt emit db)) db fires db' := by
  obtain ⟨-, hdue, h⟩ := bind_ok.mp h
  dsimp only at h
  split_ifs at h with hnil
  · rw [List.isEmpty_iff.mp hnil]
    cases h
    exact .nil
  · obtain ⟨-, hclock, h⟩ := bind_ok.mp h
    exact fireTasks_fired h

theorem Fired.enqueued {task : Task} {fuel : ℕ} {at_ last : ℤ} {fires : List Fire}
    (h : Fired next now created tickAt task fuel at_ db last fires db') :
    db'.tasks = db.tasks ∧
      ∃ rows, Enqueued now rows db db' ∧ rows.map LiveRow.id = fires.map Fire.jobId := by
  induction h with
  | idle hlate => exact ⟨rfl, [], .refl now _, rfl⟩
  | capped hdue hb => exact ⟨rfl, [], .refl now _, rfl⟩
  | @fire fuel at_ later last fires db db' hdue hmax hb hrec ih =>
    obtain ⟨r, hid, henq⟩ := enqueueAt_enqueued now (created db.autoId) task.queue task.payload none
      none task.priority task.expiresS hmax db
    obtain ⟨htasks, rows, hrows, hids⟩ := ih
    exact ⟨htasks, r :: rows, henq.append hrows, by simp [hid, hids]⟩

theorem FiredAll.enqueued {tasks : List Task} {fires : List Fire}
    (h : FiredAll next now created tickAt tasks db fires db') :
    ∃ rows, Enqueued now rows db db' ∧ rows.map LiveRow.id = fires.map Fire.jobId := by
  induction h with
  | nil => exact ⟨[], .refl now _, rfl⟩
  | @cons task tasks last fires rest db db₁ db' hloop hrest ih =>
    obtain ⟨-, rows₁, henq₁, hids₁⟩ := hloop.enqueued
    obtain ⟨rows₂, henq₂, hids₂⟩ := ih
    have henq := (henq₁.withTasks (setNextFireAt task.name last db₁).tasks).append henq₂
    exact ⟨rows₁ ++ rows₂, henq, by rw [List.map_append, List.map_append, hids₁, hids₂]⟩

/-- The row that a fire of the task enqueues. -/
def Task.job (task : Task) (now created : Clock) (id : ℤ) : LiveRow where
  id := id
  queue := task.queue
  payload := task.payload
  state := .pending
  priority := task.priority
  runAt := .int now
  workerId := none
  claimExpiresAt := none
  attempts := 0
  maxAttempts := task.maxAttempts
  createdAt := created
  expiresAt := task.expiresS.map (fun e ↦ wrap (now + e))
  claimedAt := none

theorem enqueueAt_job (task : Task) (now created : Clock) (db : Db) :
    (enqueueAt now created task.queue task.payload none none task.priority task.maxAttempts
      task.expiresS db).2.live.rows = db.live.rows ++ [task.job now created db.autoId] := by
  simp [enqueueAt, Table.insert, Task.job]

/-- A fire of the task and the row it enqueued. -/
def Task.Enqueues (task : Task) (now : Clock) (f : Fire) (r : LiveRow) : Prop :=
  f.name = task.name ∧ f.queue = task.queue ∧ ∃ created, r = task.job now created f.jobId

theorem Fired.rows {task : Task} {fuel : ℕ} {at_ last : ℤ} {fires : List Fire}
    (h : Fired next now created tickAt task fuel at_ db last fires db') :
    ∃ rows, db'.live.rows = db.live.rows ++ rows ∧ List.Forall₂ (task.Enqueues now) fires rows := by
  induction h with
  | idle hlate => exact ⟨[], by simp, .nil⟩
  | capped hdue hb => exact ⟨[], by simp, .nil⟩
  | @fire fuel at_ later last fires db db' hdue hmax hb hrec ih =>
    obtain ⟨rows, hrows, hjobs⟩ := ih
    refine ⟨task.job now (created db.autoId) db.autoId :: rows, ?_, .cons ⟨rfl, rfl, _, rfl⟩ hjobs⟩
    rw [hrows, enqueueAt_job, List.append_assoc]
    rfl

theorem FiredAll.rows {tasks : List Task} {fires : List Fire}
    (h : FiredAll next now created tickAt tasks db fires db') :
    ∃ rows, db'.live.rows = db.live.rows ++ rows ∧
      List.Forall₂ (fun f r ↦ ∃ task ∈ tasks, task.Enqueues now f r) fires rows := by
  induction h with
  | nil => exact ⟨[], by simp, .nil⟩
  | @cons task tasks last fires rest db db₁ db' hloop hrest ih =>
    obtain ⟨rows₁, hrows₁, hjobs₁⟩ := hloop.rows
    obtain ⟨rows₂, hrows₂, hjobs₂⟩ := ih
    refine ⟨rows₁ ++ rows₂, ?_, List.rel_append ?_ ?_⟩
    · rw [hrows₂, ← List.append_assoc, ← hrows₁]
      rfl
    · exact hjobs₁.imp fun f r hf ↦ ⟨task, List.mem_cons_self, hf⟩
    · refine hjobs₂.imp fun f r hf ↦ ?_
      obtain ⟨other, hmem, hjob⟩ := hf
      exact ⟨other, List.mem_cons_of_mem task hmem, hjob⟩

theorem FiredAll.each {tasks : List Task} {fires : List Fire}
    (h : FiredAll next now created tickAt tasks db fires db') {task : Task} (ht : task ∈ tasks)
    (hdue : task.nextFireAt ≤ tickAt) : ∃ f ∈ fires, f.name = task.name := by
  induction h with
  | nil => simp at ht
  | @cons other tasks last fires rest db db₁ db' hloop hrest ih =>
    rcases List.mem_cons.mp ht with rfl | ht
    · cases hloop with
      | idle hlate => omega
      | fire => exact ⟨_, List.mem_append_left _ List.mem_cons_self, rfl⟩
    · obtain ⟨f, hf, hname⟩ := ih ht
      exact ⟨f, List.mem_append_right _ hf, hname⟩

def SqlError.isConflict : SqlError → Bool
  | .unique _ => true
  | _ => false

theorem checkMaxAttempts_conflict {func : String} {m : ℤ} {e : SqlError}
    (h : checkMaxAttempts func m = .error e) : e.isConflict = false := by
  unfold checkMaxAttempts at h
  split_ifs at h
  cases h
  rfl

theorem failIf_conflict {fault : Bool} {text : String} {e : SqlError}
    (h : failIf fault text = .error e) : e.isConflict = false := by
  unfold failIf at h
  split_ifs at h
  cases h
  rfl

theorem boundary_conflict {expr : String} {u : ℤ} {e : SqlError}
    (h : boundary next expr u = .error e) : e.isConflict = false := by
  unfold boundary at h
  cases hn : next expr u with
  | ok v => simp [hn, Except.mapError] at h
  | error t =>
    simp only [hn, Except.mapError] at h
    cases h
    rfl

theorem fireLoop_conflict {task : Task} {fuel : ℕ} {at_ : ℤ} {e : SqlError}
    (h : fireLoop next now created tickAt faults task fuel at_ db = .error e) :
    e.isConflict = false := by
  induction fuel generalizing at_ db with
  | zero =>
    unfold fireLoop at h
    split_ifs at h with hdue
    · rcases bind_error.mp h with hb | ⟨v, -, h⟩
      · exact boundary_conflict hb
      · cases h
    · cases h
  | succ fuel ih =>
    unfold fireLoop at h
    split_ifs at h with hdue
    · rcases bind_error.mp h with hmax | ⟨_, -, h⟩
      · exact checkMaxAttempts_conflict hmax
      rcases bind_error.mp h with hfault | ⟨_, -, h⟩
      · exact failIf_conflict hfault
      rcases bind_error.mp h with hb | ⟨later, -, h⟩
      · exact boundary_conflict hb
      rcases bind_error.mp h with hrec | ⟨x, -, h⟩
      · exact ih hrec
      · cases h
    · cases h

theorem fireTasks_conflict {tasks : List Task} {e : SqlError}
    (h : fireTasks next now created tickAt faults tasks db = .error e) : e.isConflict = false := by
  induction tasks generalizing db with
  | nil => cases h
  | cons task tasks ih =>
    rcases bind_error.mp h with hloop | ⟨x, -, h⟩
    · exact fireLoop_conflict hloop
    rcases bind_error.mp h with hfault | ⟨_, -, h⟩
    · exact failIf_conflict hfault
    rcases bind_error.mp h with hrest | ⟨y, -, h⟩
    · exact ih hrest
    · cases h

theorem schedulerTickInner_conflict {emit : Emission Task} {e : SqlError}
    (h : schedulerTickInner next now created tickAt faults emit db = .error e) :
    e.isConflict = false := by
  rcases bind_error.mp h with hdue | ⟨_, -, h⟩
  · exact failIf_conflict hdue
  dsimp only at h
  split_ifs at h with hnil
  · cases h
  rcases bind_error.mp h with hclock | ⟨_, -, h⟩
  · exact failIf_conflict hclock
  · exact fireTasks_conflict h

end Tick

end Honker
