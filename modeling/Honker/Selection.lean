import Honker.Conservation

namespace Honker

open Relational Numeric Transition Fallible

/-- A row that a claim on `queue` at `now` may hand out. -/
def LiveRow.claimable (queue : String) (now : ℤ) (r : LiveRow) : Bool :=
  r.queue = queue &&
    ((r.state = .pending && r.runAt.val ≤ now) || (r.state = .processing && r.lapsed now)) &&
    r.hasAttempts && r.unexpired now

/-- One unlimited scan, sort and take. -/
def naiveClaim (queue : String) (now : ℤ) (n : ℕ) (live : LiveTable) : List LiveRow :=
  (orderBy LiveRow.claimOrder (live.rows.filter (LiveRow.claimable queue now))).take n

section Naive

variable {live : LiveTable} {queue : String} {now : ℤ} {n : ℕ}

theorem nodup_claimOrder (live : LiveTable) : (live.rows.map LiveRow.claimOrder).Nodup := by
  have hids : ((live.rows.map LiveRow.claimOrder).map (fun k ↦ (ofLex (ofLex k).2).2)).Nodup := by
    rw [List.map_map]
    exact live.nodup
  exact hids.of_map

/-- The arms of `CLAIM_SQL` split the claimable rows between them. -/
theorem arms_perm (live : LiveTable) (queue : String) (now : ℤ) :
    (live.rows.filter (LiveRow.ready queue now) ++ live.rows.filter (LiveRow.reclaimable queue now)).Perm
      (live.rows.filter (LiveRow.claimable queue now)) := by
  have hready : live.rows.filter (LiveRow.ready queue now) =
      (live.rows.filter (LiveRow.claimable queue now)).filter (fun r ↦ r.state = .pending) := by
    rw [List.filter_filter]
    refine List.filter_congr fun r _ ↦ ?_
    cases hst : r.state <;> simp [LiveRow.ready, LiveRow.claimable, hst]
  have hlapsed : live.rows.filter (LiveRow.reclaimable queue now) =
      (live.rows.filter (LiveRow.claimable queue now)).filter (fun r ↦ !decide (r.state = .pending)) := by
    rw [List.filter_filter]
    refine List.filter_congr fun r _ ↦ ?_
    cases hst : r.state <;> simp [LiveRow.reclaimable, LiveRow.claimable, hst]
  rw [hready, hlapsed]
  exact List.filter_append_perm _ _

theorem claimIds_eq_naive :
    claimIds live queue now n = (naiveClaim queue now n live).map LiveRow.id := by
  have hperm := arms_perm live queue now
  have hnodup : ((live.rows.filter (LiveRow.claimable queue now)).map LiveRow.claimOrder).Nodup :=
    (nodup_claimOrder live).sublist (List.filter_sublist.map _)
  have harms : ((live.rows.filter (LiveRow.ready queue now) ++
      live.rows.filter (LiveRow.reclaimable queue now)).map LiveRow.claimOrder).Nodup :=
    ((hperm.map _).nodup_iff).mpr hnodup
  have hmerge := take_orderBy_append harms n
  rw [orderBy_congr harms hperm] at hmerge
  simp only [claimIds, naiveClaim, limit, if_neg (show ¬ (n : ℤ) < 0 by omega), Int.toNat_natCast]
  rw [hmerge]

theorem mem_naiveClaim {r : LiveRow} (h : r ∈ naiveClaim queue now n live) : r ∈ live.rows :=
  (List.mem_filter.mp (mem_orderBy.mp (List.mem_of_mem_take h))).1

theorem mem_claimIds_iff {r : LiveRow} (hr : r ∈ live.rows) :
    r.id ∈ claimIds live queue now n ↔ r ∈ naiveClaim queue now n live := by
  rw [claimIds_eq_naive, List.mem_map]
  constructor
  · intro h
    obtain ⟨s, hs, hid⟩ := h
    rwa [← Table.key_inj (mem_naiveClaim hs) hr hid]
  · exact fun h ↦ ⟨r, h, rfl⟩

theorem nodup_naiveClaim : ((naiveClaim queue now n live).map LiveRow.id).Nodup := by
  have hperm := orderBy_perm LiveRow.claimOrder (live.rows.filter (LiveRow.claimable queue now))
  have hrows : ((live.rows.filter (LiveRow.claimable queue now)).map LiveRow.id).Nodup :=
    live.nodup.sublist (List.filter_sublist.map _)
  exact (((hperm.map LiveRow.id).nodup_iff).mpr hrows).sublist ((List.take_sublist _ _).map _)

theorem claimRows_perm (live : LiveTable) (queue : String) (now : ℤ) (n : ℕ) :
    (claimRows queue n now live).Perm (naiveClaim queue now n live) := by
  have hleft : (claimRows queue n now live).Nodup := (live.nodup.of_map).filter _
  have hright : (naiveClaim queue now n live).Nodup := nodup_naiveClaim.of_map
  refine (List.perm_ext_iff_of_nodup hleft hright).mpr fun r ↦ ?_
  rw [claimRows, List.mem_filter]
  constructor
  · intro h
    exact (mem_claimIds_iff h.1).mp (of_decide_eq_true h.2)
  · intro h
    have hr := mem_naiveClaim h
    exact ⟨hr, decide_eq_true ((mem_claimIds_iff hr).mpr h)⟩

theorem claimRows_eq_nil :
    claimRows queue n now live = [] ↔ naiveClaim queue now n live = [] := by
  have hlen := (claimRows_perm live queue now n).length_eq
  rw [← List.length_eq_zero_iff, ← List.length_eq_zero_iff, hlen]

end Naive

section Claim

variable {emit : Emission LiveRow} {queue worker : String} {n : ℤ} {timeout : I64} {now : Clock}

theorem claimSql_total {timeout now : ℤ} (emit : Emission LiveRow) (queue worker : String) (n : ℤ)
    (db : Db) (h : InRange (now + timeout) ∨ claimRows queue n now db.live = []) :
    ∃ jobs db', claimSql emit queue worker n timeout now db = .ok (jobs, db') := by
  cases hsql : claimSql emit queue worker n timeout now db with
  | ok x => exact ⟨x.1, x.2, rfl⟩
  | error e =>
    obtain ⟨hrange, hne, -⟩ := claimSql_error hsql
    rcases h with h | h
    · exact absurd h hrange
    · exact absurd h hne

theorem claimBatch_housekeep_error {db : Db} {e : SqlError} (h : housekeep queue now db = .error e) :
    claimBatch emit queue worker n timeout now db = (.error e, db) := by
  have hinner : claimBatchInner emit queue worker n timeout now db = .error e :=
    bind_error.mpr (Or.inl h)
  rw [claimBatch, hinner]
  rfl

theorem claimBatch_eq (emit : Emission LiveRow) (worker : String) (n : ℤ) (timeout : I64) {db T : Db}
    (h : housekeep queue now db = .ok T) :
    claimBatch emit queue worker n timeout now db =
      atomically db (claimSql emit queue worker n timeout now T) := by
  rw [claimBatch, claimBatchInner, h]
  rfl

end Claim

/-- The effect of a claim on the housekept tables `T`: the rows of the naive query, and only they,
become claims of `worker`, and their ids are returned once each. -/
structure ClaimsNaively (queue worker : String) (n : ℕ) (timeout now : ℤ) (T db' : Db)
    (jobs : List ClaimedJob) : Prop where
  selected : ∀ r ∈ naiveClaim queue now n T.live, db'.live.find? r.id = some { r with
    state := .processing
    workerId := some worker
    attempts := r.attempts + 1
    claimedAt := some now
    claimExpiresAt := some (.int (now + timeout)) }
  others : ∀ r ∈ T.live.rows, r ∉ naiveClaim queue now n T.live → db'.live.find? r.id = some r
  rows : db'.live.rows.map LiveRow.id = T.live.rows.map LiveRow.id
  rest : db'.dead = T.dead ∧ db'.tasks = T.tasks ∧ db'.seq = T.seq
  array : (jobs.map ClaimedJob.id).Perm ((naiveClaim queue now n T.live).map LiveRow.id)
  once : (jobs.map ClaimedJob.id).Nodup

theorem claimSql_naively {emit : Emission LiveRow} {queue worker : String} {n : ℕ} {timeout now : ℤ}
    {T db' : Db} {jobs : List ClaimedJob}
    (h : claimSql emit queue worker n timeout now T = .ok (jobs, db')) :
    ClaimsNaively queue worker n timeout now T db' jobs := by
  obtain ⟨hdb', -, hids, -⟩ := claimSql_ok h
  have harray := hids.trans ((claimRows_perm T.live queue now n).map LiveRow.id)
  refine ⟨fun r hr ↦ ?_, fun r hr hnot ↦ ?_, ?_, ?_, harray, harray.nodup_iff.mpr nodup_naiveClaim⟩
  · have hrow := mem_naiveClaim hr
    rcases claimSql_job h r.id with ⟨s, job, hs, -, hpost, -, -, hrange⟩ | ⟨hout, -, -⟩
    · cases hs.symm.trans (Table.find?_of_mem hrow)
      rw [hpost, LiveRow.claimed, add_of_inRange hrange]
    · exact absurd ((mem_claimIds_iff hrow).mpr hr) (hout r (Table.find?_of_mem hrow))
  · rcases claimSql_job h r.id with ⟨s, job, hs, hsel, -⟩ | ⟨-, hpost, -⟩
    · cases hs.symm.trans (Table.find?_of_mem hr)
      exact absurd ((mem_claimIds_iff hr).mp hsel) hnot
    · exact hpost.trans (Table.find?_of_mem hr)
  · rw [hdb']
    simp only [claimUpdate, Table.update, List.map_map]
    refine List.map_congr_left fun r _ ↦ ?_
    simp only [Function.comp_apply]
    split_ifs <;> rfl
  · rw [hdb']
    exact ⟨rfl, rfl, rfl⟩

/-- A claim whose lease ends in the 64-bit range, or that finds no row, carries out the naive query. -/
theorem claimBatch_naively {queue : String} {now : Clock} (emit : Emission LiveRow) (worker : String)
    (n : ℕ) (timeout : I64) {db T : Db} (hkeep : housekeep queue now db = .ok T)
    (hok : InRange (now + timeout) ∨ naiveClaim queue now n T.live = []) :
    ∃ jobs db', claimBatch emit queue worker n timeout now db = (.ok jobs, db') ∧
      ClaimsNaively queue worker n timeout now T db' jobs := by
  obtain ⟨jobs, db', hsql⟩ :=
    claimSql_total emit queue worker n T (hok.imp_right claimRows_eq_nil.mpr)
  refine ⟨jobs, db', ?_, claimSql_naively hsql⟩
  rw [claimBatch_eq emit worker n timeout hkeep, hsql]
  rfl

/-- In every table state a claim with `n ≥ 0` acts on the rows that a naive query selects after
housekeeping; when the lease would end past the 64-bit range it fails and changes nothing. -/
theorem claim_selection (emit : Emission LiveRow) (queue worker : String) (n : ℕ) (timeout : I64)
    (now : Clock) (db : Db) :
    match housekeep queue now db with
    | .error e => claimBatch emit queue worker n timeout now db = (.error e, db)
    | .ok T =>
      if InRange (now + timeout) ∨ naiveClaim queue now n T.live = [] then
        ∃ jobs db', claimBatch emit queue worker n timeout now db = (.ok jobs, db') ∧
          ClaimsNaively queue worker n timeout now T db' jobs
      else claimBatch emit queue worker n timeout now db =
        (.error (.columnType 5 "claim_expires_at" "Real"), db) := by
  cases hkeep : housekeep queue now db with
  | error e => exact claimBatch_housekeep_error hkeep
  | ok T =>
    dsimp only
    by_cases hok : InRange (now + timeout) ∨ naiveClaim queue now n T.live = []
    · rw [if_pos hok]
      exact claimBatch_naively emit worker n timeout hkeep hok
    · rw [if_neg hok, claimBatch_eq emit worker n timeout hkeep]
      cases hsql : claimSql emit queue worker n timeout now T with
      | ok x =>
        obtain ⟨hrange, hne⟩ := not_or.mp hok
        have hjobs : x.1 ≠ [] := by
          intro hnil
          have harray := (claimSql_naively hsql).array
          rw [hnil, List.map_nil, List.nil_perm] at harray
          exact hne (List.map_eq_nil_iff.mp harray)
        exact absurd ((claimSql_ok hsql).2.2.2 hjobs) hrange
      | error e =>
        obtain ⟨-, -, rfl⟩ := claimSql_error hsql
        rfl

/-- The table of one enqueued job that is due from time 100 on. -/
def oneDue : Db :=
  (exec (fun _ u ↦ .ok (u + 1)) Db.fresh
    (.at_ (.near 100) (.enqueue "q" "p" none none 0 3 none))).2

/-- A claim that asks for a lease past the 64-bit range hands out no job, though one is due. -/
theorem claim_selection_overflow :
    (naiveClaim "q" 100 1 oneDue.live).map LiveRow.id = [1] ∧ housekeep "q" 100 oneDue = .ok oneDue ∧
    claimBatch .inOrder "q" "w" 1 (.near (2 ^ 63 - 1)) (.near 100) oneDue =
      (.error (.columnType 5 "claim_expires_at" "Real"), oneDue) := by
  decide

/-- The ids are those of rows of the table in claim order. -/
def Db.InClaimOrder (db : Db) (ids : List ℤ) : Prop :=
  ids.Pairwise fun i j ↦ ∃ r s, db.live.find? i = some r ∧ db.live.find? j = some s ∧
    r.claimOrder < s.claimOrder

/-- Whatever order `RETURNING` emits its rows in, the array lists the claimed jobs in claim order. -/
def ReturnsInOrder (queue worker : String) (n : ℤ) (timeout : I64) (now : Clock) (db : Db) : Prop :=
  ∀ (emit : Emission LiveRow) (jobs : List ClaimedJob) (db' : Db),
    claimBatch emit queue worker n timeout now db = (.ok jobs, db') →
      db'.InClaimOrder (jobs.map ClaimedJob.id)

/-- A row of `db` that a claim on `queue` at `now` may hand out, promoting it first if need be. -/
def Db.offers (db : Db) (queue : String) (now : ℤ) (r : LiveRow) : Bool :=
  r.claimable queue now || (r.id ∈ promoteIds db.live queue now claimHousekeepingLimit &&
    r.hasAttempts && r.unexpired now)

/-- The rows against claim order. -/
def Emission.descending : Emission LiveRow where
  order l := (orderBy LiveRow.claimOrder l).reverse
  perm l := (List.reverse_perm _).trans (orderBy_perm _ l)

section Order

variable {emit : Emission LiveRow} {queue worker : String} {n : ℤ} {timeout : I64} {now : Clock}
  {db T : Db}

theorem claimRows_of_neg {live : LiveTable} (hn : n < 0) :
    claimRows queue n now live = live.rows.filter (LiveRow.claimable queue now) := by
  refine List.filter_congr fun r hr ↦ ?_
  rw [Bool.eq_iff_iff, decide_eq_true_eq]
  simp only [claimIds, limit, if_pos hn, List.mem_map, mem_orderBy, List.mem_append]
  have harms := (arms_perm live queue now).mem_iff (a := r)
  rw [List.mem_append, List.mem_filter (p := LiveRow.claimable queue now)] at harms
  constructor
  · intro h
    obtain ⟨s, hs, hid⟩ := h
    have hrow : s ∈ live.rows := by
      rcases hs with hs | hs
      · exact (List.mem_filter.mp hs).1
      · exact (List.mem_filter.mp hs).1
    cases Table.key_inj hrow hr hid
    exact (harms.mp hs).2
  · exact fun h ↦ ⟨r, harms.mpr ⟨hr, h⟩, rfl⟩

theorem length_claimRows (queue : String) (n : ℤ) (now : Clock) (live : LiveTable) :
    (claimRows queue n now live).length =
      (limit n (live.rows.filter (LiveRow.claimable queue now))).length := by
  by_cases hn : n < 0
  · rw [claimRows_of_neg hn, limit, if_pos hn]
  · obtain ⟨m, rfl⟩ := Int.eq_ofNat_of_zero_le (by omega : 0 ≤ n)
    rw [(claimRows_perm live queue now m).length_eq, naiveClaim, limit, if_neg hn]
    simp only [List.length_take, length_orderBy, Int.toNat_natCast]

theorem unexpired_eq (r : LiveRow) (t : ℤ) : r.unexpired t = !r.expired t := by
  cases hexp : r.expiresAt with
  | none => simp [LiveRow.unexpired, LiveRow.expired, hexp]
  | some x =>
    rw [Bool.eq_iff_iff]
    simp [LiveRow.unexpired, LiveRow.expired, hexp]

theorem not_claimable_of_expirable {r : LiveRow} (h : r.expirable queue now = true) :
    r.claimable queue now = false := by
  simp only [LiveRow.expirable, Bool.and_eq_true] at h
  simp [LiveRow.claimable, unexpired_eq, h.1.2]

theorem not_claimable_of_exhausted {r : LiveRow} (h : r.exhausted queue now = true) :
    r.claimable queue now = false := by
  simp only [LiveRow.exhausted, Bool.and_eq_true, Bool.not_eq_true'] at h
  simp [LiveRow.claimable, h.2]

theorem claimable_promoted {r : LiveRow} (h : r.promotable queue now = true) :
    r.promoted.claimable queue now = (r.hasAttempts && r.unexpired now) := by
  simp only [LiveRow.promotable, Bool.and_eq_true, decide_eq_true_eq] at h
  have hq : r.promoted.queue = queue := h.1.1
  have hst : r.promoted.state = .pending := rfl
  have hrun : r.promoted.runAt.val ≤ now := h.2
  have ha : r.promoted.hasAttempts = r.hasAttempts := rfl
  have hu : r.promoted.unexpired now = r.unexpired now := rfl
  simp [LiveRow.claimable, hq, hst, hrun, ha, hu]

/-- After housekeeping as many rows are claimable as were on offer before it. -/
theorem housekeep_claimable (hkeep : housekeep queue now db = .ok T) :
    T.live.rows.countP (LiveRow.claimable queue now) = db.live.rows.countP (db.offers queue now) := by
  obtain ⟨db₁, hexp, hexh⟩ := housekeep_ok hkeep
  rw [hexh.live, Table.countP_delete_of_disjoint, hexp.live, Table.countP_delete_of_disjoint]
  · simp only [promote, Table.update, List.countP_map]
    refine List.countP_congr fun r hr ↦ ?_
    rw [Function.comp_apply, Db.offers]
    by_cases hsel : r.id ∈ promoteIds db.live queue now claimHousekeepingLimit
    · have hprom := mem_selectIds hr hsel
      have hnot : r.claimable queue now = false := by
        simp only [LiveRow.promotable, Bool.and_eq_true, decide_eq_true_eq] at hprom
        simp [LiveRow.claimable, hprom.1.2]
      simp only [hsel, decide_true, if_true, claimable_promoted hprom, hnot, Bool.false_or,
        Bool.true_and]
    · simp [hsel]
  · exact fun r hr hsel ↦ not_claimable_of_expirable (mem_selectIds hr (of_decide_eq_true hsel))
  · exact fun r hr hsel ↦ not_claimable_of_exhausted (mem_selectIds hr (of_decide_eq_true hsel))

/-- A claim takes two rows or more exactly when it may and two rows are on offer. -/
theorem claimRows_le_one (hkeep : housekeep queue now db = .ok T) (n : ℤ) :
    (claimRows queue n now T.live).length ≤ 1 ↔
      n = 0 ∨ n = 1 ∨ db.live.rows.countP (db.offers queue now) ≤ 1 := by
  rw [length_claimRows, length_limit_le_one, ← List.countP_eq_length_filter,
    housekeep_claimable hkeep]

theorem Db.InClaimOrder.rows {rows : List LiveRow} (h : db.InClaimOrder (rows.map LiveRow.id))
    (hrows : ∀ r ∈ rows, r ∈ db.live.rows) :
    rows.Pairwise (fun r s ↦ r.claimOrder < s.claimOrder) := by
  refine (List.pairwise_map.mp h).imp_of_mem fun hr hs hlt ↦ ?_
  obtain ⟨r, s, hr', hs', hlt⟩ := hlt
  cases hr'.symm.trans (Table.find?_of_mem (hrows _ hr))
  cases hs'.symm.trans (Table.find?_of_mem (hrows _ hs))
  exact hlt

theorem inClaimOrder_of_length {ids : List ℤ} (h : ids.length ≤ 1) : db.InClaimOrder ids := by
  cases ids with
  | nil => exact List.Pairwise.nil
  | cons i ids =>
    have hnil : ids = [] := List.eq_nil_of_length_eq_zero (by simpa using h)
    rw [hnil]
    exact List.pairwise_singleton _ i

/-- Emitted against claim order, a batch that comes back in claim order has one row at most. -/
theorem length_of_descending {jobs : List ClaimedJob} {db' : Db}
    (hsql : claimSql .descending queue worker n timeout now T = .ok (jobs, db'))
    (h : db'.InClaimOrder (jobs.map ClaimedJob.id)) : (claimRows queue n now T.live).length ≤ 1 := by
  obtain ⟨hdb', -⟩ := claimSql_ok hsql
  rw [claimSql_ids hsql] at h
  generalize hrows : (claimRows queue n now T.live).map (LiveRow.claimed worker timeout now) = rows
    at h
  have hmem : ∀ r ∈ rows, r ∈ db'.live.rows := by
    intro r hr
    rw [← hrows] at hr
    obtain ⟨s, hs, rfl⟩ := List.mem_map.mp hr
    obtain ⟨hlive, hsel⟩ := List.mem_filter.mp hs
    rw [hdb']
    exact List.mem_map.mpr ⟨s, hlive, by simp [of_decide_eq_true hsel]⟩
  have hnodup : (rows.map LiveRow.claimOrder).Nodup := by
    rw [← hrows, List.map_map]
    exact (nodup_claimOrder T.live).sublist (List.filter_sublist.map _)
  have hsorted := h.rows fun r hr ↦ hmem r ((Emission.descending.perm rows).mem_iff.mp hr)
  have hlen := length_le_one_of_reverse (orderBy_strict hnodup) hsorted
  rwa [length_orderBy, ← hrows, List.length_map] at hlen

end Order

section Collision

variable {queue : String} {now : ℤ} {db : Db}

/-- A copy into `_honker_dead` fails when it holds one of the ids already. -/
theorem moveToDead_error_iff (idsSql : LiveTable → String → ℤ → ℤ → List ℤ) (queue : String) (now lim : ℤ)
    (error : String) (db : Db) :
    (∃ e, moveToDead idsSql queue now lim error db = .error e) ↔
      ∃ r ∈ db.live.rows, r.id ∈ idsSql db.live queue now lim ∧ (db.dead.find? r.id).isSome := by
  have heq := moveToDead_eq idsSql queue now lim error db
  dsimp only at heq
  cases hins : db.dead.insertAll?
      (copies (fun r ↦ r.id ∈ idsSql db.live queue now lim) error now db.live) with
  | none =>
    obtain ⟨d, hd, hmem⟩ := Table.insertAll?_eq_none (nodup_copies _ error now db.live) hins
    obtain ⟨r, hr, rfl⟩ := List.mem_map.mp hd
    obtain ⟨hlive, hsel⟩ := List.mem_filter.mp hr
    rw [heq, hins]
    exact iff_of_true ⟨_, rfl⟩ ⟨r, hlive, of_decide_eq_true hsel, Table.find?_isSome.mpr hmem⟩
  | some dead =>
    rw [heq, hins]
    refine iff_of_false (by simp) ?_
    rintro ⟨r, hr, hsel, hsome⟩
    have hcopied : r.id ∈ (copies (fun r ↦ r.id ∈ idsSql db.live queue now lim) error now db.live).map
        DeadRow.id := by
      rw [map_id_copies]
      exact List.mem_map_of_mem (List.mem_filter.mpr ⟨hr, by simpa using hsel⟩)
    unfold Table.insertAll? at hins
    split_ifs at hins with hnodup
    rw [List.map_append] at hnodup
    exact List.disjoint_of_nodup_append hnodup (Table.find?_isSome.mp hsome) hcopied

/-- `_honker_dead` holds the id of a row that the claim would bury as expired, or of one of the others
that it would bury as exhausted. -/
def Collides (queue : String) (now : ℤ) (db : Db) : Prop :=
  let live := (promote queue now claimHousekeepingLimit db).live
  let expired := expireIds live queue now claimHousekeepingLimit
  let rest := live.delete fun r ↦ r.id ∈ expired
  (∃ r ∈ live.rows, r.id ∈ expired ∧ (db.dead.find? r.id).isSome) ∨
    ∃ r ∈ rest.rows, r.id ∈ exhaustedIds rest queue now claimHousekeepingLimit ∧
      (db.dead.find? r.id).isSome

theorem housekeep_error_iff : (∃ e, housekeep queue now db = .error e) ↔ Collides queue now db := by
  have hexpire := moveToDead_error_iff expireIds queue now claimHousekeepingLimit "expired"
    (promote queue now claimHousekeepingLimit db)
  cases hexp : moveToDead expireIds queue now claimHousekeepingLimit "expired"
      (promote queue now claimHousekeepingLimit db) with
  | error e =>
    exact iff_of_true ⟨e, bind_error.mpr (Or.inl hexp)⟩ (Or.inl (hexpire.mp ⟨e, hexp⟩))
  | ok x =>
    obtain ⟨n, db₁⟩ := x
    have hmoved := (moveToDead_ok hexp).1
    have hnone := hexpire.not.mp (by simp [hexp])
    have hrest : (∃ e, housekeep queue now db = .error e) ↔ ∃ e, moveToDead exhaustedIds queue now
        claimHousekeepingLimit "max attempts exceeded" db₁ = .error e := by
      simp only [housekeep, hexp, bind, Except.bind]
      cases moveToDead exhaustedIds queue now claimHousekeepingLimit "max attempts exceeded" db₁ <;>
        simp [pure, Except.pure]
    rw [hrest, moveToDead_error_iff, hmoved.live]
    unfold Collides
    refine Iff.trans ?_ (or_iff_right hnone).symm
    refine exists_congr fun r ↦ and_congr_right fun hr ↦ and_congr_right fun _ ↦ ?_
    -- The rows that are left have not been copied.
    obtain ⟨hlive, hsel⟩ := List.mem_filter.mp hr
    have hkept := hmoved.kept (j := r.id) fun s hs ↦ by
      rw [Table.key_inj (Table.find?_eq_some.mp hs).1 hlive (Table.find?_eq_some.mp hs).2]
      simpa using hsel
    rw [hkept.2]
    rfl

end Collision

/-- For every table state, `claim_batch` returns its array in claim order, whatever order `RETURNING`
emits the rows in, if and only if the call fails because a row that it would bury is in `_honker_dead`
already or because its lease is out of range, or it may not claim, or does not find, more than one
row. -/
theorem claim_batch_order_iff (queue worker : String) (n : ℤ) (timeout : I64) (now : Clock) (db : Db) :
    ReturnsInOrder queue worker n timeout now db ↔
      Collides queue now db ∨ ¬ InRange (now + timeout) ∨
        n = 0 ∨ n = 1 ∨ db.live.rows.countP (db.offers queue now) ≤ 1 := by
  rw [← housekeep_error_iff]
  cases hkeep : housekeep queue now db with
  | error e =>
    refine iff_of_true (fun emit jobs db' h ↦ ?_) (Or.inl ⟨e, rfl⟩)
    rw [claimBatch_housekeep_error hkeep] at h
    cases h
  | ok T =>
    rw [← claimRows_le_one hkeep]
    simp only [reduceCtorEq, exists_false, false_or]
    constructor
    · intro h
      by_cases hrange : InRange (now + timeout)
      · right
        obtain ⟨jobs, db', hsql⟩ :=
          claimSql_total .descending queue worker n T (Or.inl hrange)
        refine length_of_descending hsql (h .descending jobs db' ?_)
        rw [claimBatch_eq _ worker n timeout hkeep, hsql]
        rfl
      · exact Or.inl hrange
    · intro h emit jobs db' hclaim
      rw [claimBatch_eq emit worker n timeout hkeep] at hclaim
      cases hsql : claimSql emit queue worker n timeout now T with
      | error e =>
        rw [hsql] at hclaim
        cases hclaim
      | ok x =>
        rw [hsql] at hclaim
        cases hclaim
        obtain ⟨-, -, hids, hrange⟩ := claimSql_ok hsql
        refine inClaimOrder_of_length ?_
        rcases h with h | h
        · have hnil : x.1 = [] := by
            by_contra hne
            exact h (hrange hne)
          simp [hnil]
        · rwa [hids.length_eq, List.length_map]

/-- Two due jobs, the second of the higher priority. -/
def twoDue : Db :=
  (exec (fun _ u ↦ .ok (u + 1)) oneDue (.at_ (.near 100) (.enqueue "q" "p" none none 5 3 none))).2

/-- SQLite may emit the two claimed rows in rowid order: the job of the lower priority comes first. -/
theorem claim_batch_rowid_order :
    (claimBatch .inOrder "q" "w" 2 (.near 60) (.near 100) twoDue).1.map (List.map ClaimedJob.id) =
      .ok [1, 2] ∧
    twoDue.live.rows.map (fun r ↦ (r.id, r.priority)) = [(1, 0), (2, 5)] ∧
    ¬ ReturnsInOrder "q" "w" 2 (.near 60) (.near 100) twoDue := by
  have hids : (claimBatch .inOrder "q" "w" 2 (.near 60) (.near 100) twoDue).1.map
      (List.map ClaimedJob.id) = .ok [1, 2] := by
    decide
  refine ⟨hids, by decide, fun h ↦ ?_⟩
  obtain ⟨jobs, hjobs, hmap⟩ := map_ok.mp hids
  have horder := h .inOrder jobs _ (Prod.ext hjobs rfl)
  rw [hmap] at horder
  obtain ⟨r, s, hr, hs, hlt⟩ := (List.pairwise_cons.mp horder).1 2 (by simp)
  have hlow : ((claimBatch .inOrder "q" "w" 2 (.near 60) (.near 100) twoDue).2.live.find? 1).map
      LiveRow.priority = some 0 := by
    decide
  have hhigh : ((claimBatch .inOrder "q" "w" 2 (.near 60) (.near 100) twoDue).2.live.find? 2).map
      LiveRow.priority = some 5 := by
    decide
  rw [hr] at hlow
  rw [hs] at hhigh
  have hr0 : r.priority = 0 := Option.some.inj hlow
  have hs5 : s.priority = 5 := Option.some.inj hhigh
  simp [LiveRow.claimOrder, Prod.Lex.toLex_lt_toLex, hr0, hs5] at hlt

end Honker
