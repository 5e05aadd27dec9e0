import Honker.Selection
import Honker.RowState

namespace Honker

open Relational Numeric Transition

section Select

variable {κ : Type} [LinearOrder κ] (live : LiveTable) (p : LiveRow → Bool) (key : LiveRow → κ) (n : ℕ)

theorem filter_selectIds_perm :
    (live.rows.filter (fun r ↦ r.id ∈ selectIds live p key n)).Perm
      ((orderBy key (live.rows.filter p)).take n) := by
  have hrows : live.rows.Nodup := live.nodup.of_map
  have hsorted : (orderBy key (live.rows.filter p)).Nodup :=
    (orderBy_perm key _).nodup_iff.mpr (hrows.filter _)
  refine (List.perm_ext_iff_of_nodup (hrows.filter _)
    (hsorted.sublist (List.take_sublist _ _))).mpr fun r ↦ ?_
  have hids : selectIds live p key n =
      ((orderBy key (live.rows.filter p)).take n).map LiveRow.id := by
    rw [selectIds, limit, if_neg (by omega), Int.toNat_natCast]
  rw [List.mem_filter, decide_eq_true_eq, hids, List.mem_map]
  constructor
  · intro h
    obtain ⟨hr, s, hs, hid⟩ := h
    have hslive := (List.mem_filter.mp (mem_orderBy.mp (List.mem_of_mem_take hs))).1
    exact Table.key_inj hslive hr hid ▸ hs
  · intro h
    exact ⟨(List.mem_filter.mp (mem_orderBy.mp (List.mem_of_mem_take h))).1, r, h, rfl⟩

/-- A statement capped at `n` rows leaves all but `n` of the rows it looks for. -/
theorem countP_not_selected :
    live.rows.countP (fun r ↦ p r && !decide (r.id ∈ selectIds live p key n)) =
      live.rows.countP p - n := by
  have hsplit := List.countP_eq_countP_filter_add live.rows p
    (fun r ↦ decide (r.id ∈ selectIds live p key n))
  have hsel : (live.rows.filter (fun r ↦ decide (r.id ∈ selectIds live p key n))).countP p =
      min n (live.rows.countP p) := by
    have hall : (live.rows.filter (fun r ↦ decide (r.id ∈ selectIds live p key n))).countP p =
        (live.rows.filter (fun r ↦ decide (r.id ∈ selectIds live p key n))).length := by
      refine List.countP_eq_length.mpr fun r hr ↦ ?_
      obtain ⟨hr, hmem⟩ := List.mem_filter.mp hr
      exact mem_selectIds hr (of_decide_eq_true hmem)
    rw [hall, (filter_selectIds_perm live p key n).length_eq, List.length_take, length_orderBy,
      List.countP_eq_length_filter]
  have hrest : (live.rows.filter (fun r ↦ !decide (r.id ∈ selectIds live p key n))).countP p =
      live.rows.countP (fun r ↦ p r && !decide (r.id ∈ selectIds live p key n)) := by
    rw [List.countP_filter]
  rw [← hrest]
  omega

end Select

/-- The number of live rows with a property. -/
def Db.backlog (db : Db) (p : LiveRow → Bool) : ℕ := db.live.rows.countP p

def inQueue (queue : String) (r : LiveRow) : Bool := r.queue = queue

section Housekeeping

variable {queue worker : String} {now timeout : ℤ} {db T db' : Db}

theorem Moved.backlog_le {p : LiveRow → Bool} {error : String} {diedAt : ℤ}
    (h : Moved p error diedAt db db') (q : LiveRow → Bool) : db'.backlog q ≤ db.backlog q := by
  unfold Db.backlog
  rw [h.live]
  exact db.live.countP_delete_le p q

/-- A move capped at the housekeeping limit takes that many rows off its backlog. -/
theorem Moved.backlog_drop {κ : Type} [LinearOrder κ] {p : LiveRow → Bool} {key : LiveRow → κ}
    {error : String} {diedAt : ℤ}
    (h : Moved (fun r ↦ r.id ∈ selectIds db.live p key claimHousekeepingLimit) error diedAt db db') :
    db'.backlog p = db.backlog p - 1000 := by
  unfold Db.backlog
  rw [h.live, ← countP_not_selected db.live p key 1000, Table.delete, List.countP_filter]
  rfl

theorem promote_backlog_le (queue : String) (now : ℤ) (db : Db) (q : LiveRow → Bool)
    (h : ∀ r, r.promotable queue now = true → q r.promoted = true → q r = true) :
    (promote queue now claimHousekeepingLimit db).backlog q ≤ db.backlog q := by
  unfold Db.backlog promote
  exact db.live.countP_update_le LiveRow.id_promoted fun r hr hsel ↦
    h r (mem_selectIds hr (of_decide_eq_true hsel))

theorem promote_backlog_drop :
    (promote queue now claimHousekeepingLimit db).backlog (LiveRow.promotable queue now) =
      db.backlog (LiveRow.promotable queue now) - 1000 := by
  unfold Db.backlog
  rw [← countP_not_selected db.live (LiveRow.promotable queue now) LiveRow.runOrder 1000]
  simp only [promote, Table.update, List.countP_map]
  refine List.countP_congr fun r _ ↦ ?_
  change _ ↔ (LiveRow.promotable queue now r &&
    !decide (r.id ∈ promoteIds db.live queue now claimHousekeepingLimit)) = true
  by_cases hsel : r.id ∈ promoteIds db.live queue now claimHousekeepingLimit <;>
    simp [hsel, LiveRow.promotable, LiveRow.promoted]

/-- Each housekeeping step takes a thousand rows off its backlog and adds to none. -/
theorem housekeep_backlog (h : housekeep queue now db = .ok T) :
    T.backlog (LiveRow.promotable queue now) ≤ db.backlog (LiveRow.promotable queue now) - 1000 ∧
      T.backlog (LiveRow.expirable queue now) ≤ db.backlog (LiveRow.expirable queue now) - 1000 ∧
      T.backlog (LiveRow.exhausted queue now) ≤ db.backlog (LiveRow.exhausted queue now) - 1000 ∧
      T.backlog (inQueue queue) ≤ db.backlog (inQueue queue) := by
  obtain ⟨db₁, hexp, hexh⟩ := housekeep_ok h
  have hpromoted (r : LiveRow) (hr : r.promotable queue now = true) := promoted_of_promotable hr
  refine ⟨?_, ?_, ?_, ?_⟩
  · rw [← promote_backlog_drop]
    exact (hexh.backlog_le _).trans (hexp.backlog_le _)
  · have hdrop := hexp.backlog_drop
    have hkeep := promote_backlog_le queue now db (LiveRow.expirable queue now)
      fun r hr hp ↦ by rwa [(hpromoted r hr).1] at hp
    have hrest := hexh.backlog_le (LiveRow.expirable queue now)
    omega
  · have hdrop := hexh.backlog_drop
    have hkeep := promote_backlog_le queue now db (LiveRow.exhausted queue now)
      fun r hr hp ↦ by simp [(hpromoted r hr).2] at hp
    have hrest := hexp.backlog_le (LiveRow.exhausted queue now)
    omega
  · have hkeep := promote_backlog_le queue now db (inQueue queue) fun r _ hp ↦ hp
    exact ((hexh.backlog_le _).trans (hexp.backlog_le _)).trans hkeep

theorem not_lapsed_claimed (r : LiveRow) (worker : String) (hrange : InRange (now + timeout))
    (hpos : 0 ≤ timeout) : (r.claimed worker timeout now).lapsed now = false := by
  have hnot : ¬ now + timeout < now := by omega
  simpa [LiveRow.lapsed, LiveRow.claimed, add_of_inRange hrange, Number.val] using hnot

theorem claimSql_backlog_le {emit : Emission LiveRow} {n : ℤ} {jobs : List ClaimedJob}
    (h : claimSql emit queue worker n timeout now T = .ok (jobs, db')) {q : LiveRow → Bool}
    (hq : ∀ r, q (r.claimed worker timeout now) = true → q r = true) :
    db'.backlog q ≤ T.backlog q := by
  obtain ⟨rfl, -⟩ := claimSql_ok h
  unfold Db.backlog claimUpdate
  exact T.live.countP_update_le (LiveRow.id_claimed worker timeout now) fun r _ _ ↦ hq r

/-- With room for every row of the queue a claim leaves nothing claimable behind. -/
theorem claimSql_exhaustive {emit : Emission LiveRow} {n : ℕ} {jobs : List ClaimedJob}
    (h : claimSql emit queue worker n timeout now T = .ok (jobs, db'))
    (hrange : InRange (now + timeout)) (hpos : 0 ≤ timeout) (hn : T.backlog (inQueue queue) ≤ n) :
    ∀ r ∈ db'.live.rows, r.claimable queue now = false := by
  intro r hr
  by_contra hc
  rw [Bool.not_eq_false] at hc
  rcases claimSql_job h r.id with ⟨s, job, hs, -, hpost, -⟩ | ⟨hout, hpost, -⟩
  · cases (Table.find?_of_mem hr).symm.trans hpost
    have hlapsed := not_lapsed_claimed s worker hrange hpos
    simp [LiveRow.claimable, hlapsed] at hc
    simp [LiveRow.claimed] at hc
  · have hfind := hpost.symm.trans (Table.find?_of_mem hr)
    have hT : r ∈ T.live.rows := (Table.find?_eq_some.mp hfind).1
    refine hout r hfind ((mem_claimIds_iff hT).mpr ?_)
    have hlen : (orderBy LiveRow.claimOrder
        (T.live.rows.filter (LiveRow.claimable queue now))).length ≤ n := by
      rw [length_orderBy, ← List.countP_eq_length_filter]
      refine le_trans (List.countP_mono_left fun s _ hs ↦ ?_) hn
      simp only [LiveRow.claimable, Bool.and_eq_true] at hs
      exact hs.1.1.1
    rw [naiveClaim, List.take_of_length_le hlen, mem_orderBy]
    exact List.mem_filter.mpr ⟨hT, hc⟩

end Housekeeping

section Calls

variable {queue : String} {t : Clock} {B : ℕ} {db : Db} {c : Call}

/-- A claim on `queue` at time `t` that has room for `B` rows and a lease that does not end early. -/
def DrainCall (queue : String) (t : Clock) (B : ℕ) (c : Call) : Prop :=
  c.clk 0 = t ∧ ∃ worker n, ∃ timeout : I64, c.op = .claimBatch queue worker n timeout ∧
    (B : ℤ) ≤ n ∧ 0 ≤ timeout.val ∧ InRange (t + timeout)

/-- Nothing of `queue` is left to claim at `t`. -/
def Unclaimable (queue : String) (t : ℤ) (db : Db) : Prop :=
  ∀ r ∈ db.live.rows, r.claimable queue t = false

theorem drain_step (next : String → ℤ → Except String ℤ) (hl : Ledger db)
    (hc : DrainCall queue t B c) (hB : db.backlog (inQueue queue) ≤ B) :
    let db' := (exec next db c).2
    db'.backlog (LiveRow.promotable queue t) ≤ db.backlog (LiveRow.promotable queue t) - 1000 ∧
      db'.backlog (LiveRow.expirable queue t) ≤ db.backlog (LiveRow.expirable queue t) - 1000 ∧
      db'.backlog (LiveRow.exhausted queue t) ≤ db.backlog (LiveRow.exhausted queue t) - 1000 ∧
      db'.backlog (inQueue queue) ≤ B ∧ Unclaimable queue t db' := by
  obtain ⟨hclk, worker, n, timeout, hop, hn, hpos, hrange⟩ := hc
  obtain ⟨T, hkeep⟩ := housekeep_total hl.apart queue t
  obtain ⟨m, rfl⟩ := Int.eq_ofNat_of_zero_le (le_trans (Int.natCast_nonneg B) hn)
  obtain ⟨jobs, db', hsql⟩ := claimSql_total c.emit queue worker m T (Or.inl hrange)
  have hexec : exec next db c = (.jobs jobs, db') := by
    have hbatch := claimBatch_eq c.emit worker m timeout hkeep
    rw [hsql] at hbatch
    simp only [exec, hop, hclk]
    rw [hbatch]
    rfl
  obtain ⟨hprom, hexp, hexh, hqueue⟩ := housekeep_backlog hkeep
  have hnot (r : LiveRow) := not_lapsed_claimed r worker hrange hpos
  have hnotprom : db'.backlog (LiveRow.promotable queue t) ≤ T.backlog (LiveRow.promotable queue t) :=
    claimSql_backlog_le hsql fun r hr ↦ by simp [LiveRow.promotable, LiveRow.claimed] at hr
  have hnotexp : db'.backlog (LiveRow.expirable queue t) ≤ T.backlog (LiveRow.expirable queue t) :=
    claimSql_backlog_le hsql fun r hr ↦ by
      simp only [LiveRow.expirable, hnot r] at hr
      simp [LiveRow.claimed] at hr
  have hnotexh : db'.backlog (LiveRow.exhausted queue t) ≤ T.backlog (LiveRow.exhausted queue t) :=
    claimSql_backlog_le hsql fun r hr ↦ by simp [LiveRow.exhausted, hnot r] at hr
  have hstay : db'.backlog (inQueue queue) ≤ T.backlog (inQueue queue) :=
    claimSql_backlog_le hsql fun r hr ↦ hr
  rw [hexec]
  refine ⟨hnotprom.trans hprom, hnotexp.trans hexp, hnotexh.trans hexh,
    (hstay.trans hqueue).trans hB, ?_⟩
  exact claimSql_exhaustive hsql hrange hpos (by omega)

theorem drain_run (next : String → ℤ → Except String ℤ) (hl : Ledger db)
    (hB : db.backlog (inQueue queue) ≤ B) {claims : List Call} (hne : claims ≠ [])
    (hclaims : ∀ c ∈ claims, DrainCall queue t B c) :
    let db' := final (exec next) db claims
    db'.backlog (LiveRow.promotable queue t) ≤
        db.backlog (LiveRow.promotable queue t) - 1000 * claims.length ∧
      db'.backlog (LiveRow.expirable queue t) ≤
        db.backlog (LiveRow.expirable queue t) - 1000 * claims.length ∧
      db'.backlog (LiveRow.exhausted queue t) ≤
        db.backlog (LiveRow.exhausted queue t) - 1000 * claims.length ∧ Unclaimable queue t db' := by
  induction claims generalizing db with
  | nil => exact absurd rfl hne
  | cons c claims ih =>
    obtain ⟨hprom, hexp, hexh, hqueue, hnone⟩ :=
      drain_step next hl (hclaims c (by simp)) hB
    by_cases hlast : claims = []
    · subst hlast
      exact ⟨hprom, hexp, hexh, hnone⟩
    · obtain ⟨hprom', hexp', hexh', hnone'⟩ :=
        ih (hl.step c) hqueue hlast fun c' hc' ↦ hclaims c' (by simp [hc'])
      simp only [final, List.length_cons]
      exact ⟨by omega, by omega, by omega, hnone'⟩

end Calls

/-- A row that a claim at `t` should take care of: due, or under a lapsed lease. -/
def LiveRow.dueOrLapsed (t : ℤ) (r : LiveRow) : Bool :=
  (r.state ≠ .processing && r.runAt.val ≤ t) || (r.state = .processing && r.lapsed t)

/-- A row that claims on `queue` at `t` are to hand out. -/
def LiveRow.Eligible (queue : String) (t : ℤ) (r : LiveRow) : Prop :=
  r.queue = queue ∧ r.dueOrLapsed t = true ∧ r.hasAttempts = true ∧ r.unexpired t = true

/-- A claim on `queue` at time `t`. -/
def ClaimAt (queue : String) (t : Clock) (c : Call) : Prop :=
  c.clk 0 = t ∧ ∃ worker n timeout, c.op = .claimBatch queue worker n timeout

/-- What a sequence of claims at `t` has done so far to a job whose row was `r` before them. -/
inductive Fate (queue : String) (t : Clock) (r : LiveRow) (h : List Event) (db : Db) : Prop
  | untouched (row : db.live.find? r.id = some r) (none : claimsOf h r.id = [])
  | promoted (row : db.live.find? r.id = some r.promoted) (none : claimsOf h r.id = [])
      (due : r.promotable queue t = true)
  | claimed (worker : String) (timeout : ℤ)
      (row : db.live.find? r.id = some (r.claimed worker timeout t))
      (once : (claimsOf h r.id).length = 1) (lease : 0 ≤ timeout ∧ InRange (t + timeout))
      (due : r.dueOrLapsed t = true) (attempts : r.hasAttempts = true) (alive : r.unexpired t = true)
  | buried (error : String) (row : db.live.find? r.id = none)
      (dead : db.dead.find? r.id = some (r.toDead error t)) (none : claimsOf h r.id = [])
      (why : error = "expired" ∧ r.expirable queue t = true ∨
        error = "max attempts exceeded" ∧ r.exhausted queue t = true)

section Fates

variable {next : String → ℤ → Except String ℤ} {queue : String} {t : Clock} {B : ℕ} {db : Db}
  {c : Call} {h : List Event} {r : LiveRow}

theorem DrainCall.claimAt (h : DrainCall queue t B c) : ClaimAt queue t c := by
  obtain ⟨hclk, worker, n, timeout, hop, -⟩ := h
  exact ⟨hclk, worker, n, timeout, hop⟩

theorem DrainCall.lease (h : DrainCall queue t B c) {worker : String} {n : ℤ} {timeout : I64}
    (hop : c.op = .claimBatch queue worker n timeout) : 0 ≤ timeout.val ∧ InRange (t + timeout) := by
  obtain ⟨-, worker', n', timeout', hop', -, hlease⟩ := h
  cases hop.symm.trans hop'
  exact hlease

/-- A claim does one of four things to a job. -/
theorem claimAt_job (next : String → ℤ → Except String ℤ) (hc : ClaimAt queue t c)
    (hr : db.live.find? r.id = some r) :
    let ret := returns (event (exec next) db c) r.id
    let live := (exec next db c).2.live.find? r.id
    let dead := (exec next db c).2.dead.find? r.id
    (ret = [] ∧ live = some r) ∨
    (ret = [] ∧ live = some r.promoted ∧ r.promotable queue t = true) ∨
    (∃ worker n timeout job, c.op = .claimBatch queue worker n timeout ∧ ret = [job] ∧
      live = some (r.claimed worker timeout t) ∧ r.Eligible queue t) ∨
    (∃ error, ret = [] ∧ live = none ∧ dead = some (r.toDead error t) ∧
      (error = "expired" ∧ r.expirable queue t = true ∨
        error = "max attempts exceeded" ∧ r.exhausted queue t = true)) := by
  obtain ⟨hclk, worker, n, timeout, hop⟩ := hc
  cases job_step next db c r.id with
  | kept live dead ret => exact Or.inl ⟨ret, live.trans hr⟩
  | enqueued s pre => exact absurd (hr.symm.trans pre) (by simp)
  | promoted s pre post dead ret guard out =>
    cases hr.symm.trans pre
    refine Or.inr (Or.inl ⟨ret, post, ?_⟩)
    simpa [Promotes, event, hop, hclk] using guard
  | claimed s worker' timeout' job pre post dead ret row guard =>
    cases hr.symm.trans pre
    simp only [Claims, event, hop, hclk] at guard post
    obtain ⟨rfl, rfl, hq, ha, hu, hdue, -⟩ := guard
    refine Or.inr (Or.inr (Or.inl ⟨worker', n, timeout, job, hop, ret, post, hq, ?_, ha, hu⟩))
    simpa [LiveRow.dueOrLapsed] using hdue
  | extended s extend pre post dead ret guard => simp [Extends, event, hop] at guard
  | requeued s delay pre post dead ret guard => simp [Requeues, event, hop] at guard
  | removed s pre post dead ret guard => simp [Removes, event, hop] at guard
  | buried s error diedAt pre post free dead ret guard =>
    cases hr.symm.trans pre
    simp only [Buries, event, hop, hclk] at guard
    obtain ⟨rfl, hwhy⟩ := guard
    exact Or.inr (Or.inr (Or.inr ⟨error, ret, post, dead, hwhy⟩))

theorem absent_claim (next : String → ℤ → Except String ℤ) (hc : ClaimAt queue t c) {j : ℤ}
    (hnone : db.live.find? j = none) : (exec next db c).2.live.find? j = none := by
  obtain ⟨-, worker, n, timeout, hop⟩ := hc
  by_contra hne
  have hin : j ∈ issued (event (exec next) db c) :=
    issued_of_enters db c j hnone (Option.isSome_iff_ne_none.mpr hne)
  rw [issued_of_not_enqueue (by simp [hop]) (by simp [hop])] at hin
  cases hin

theorem Fate.step (next : String → ℤ → Except String ℤ) (hc : DrainCall queue t B c)
    (hf : Fate queue t r h db) :
    Fate queue t r (h ++ [event (exec next) db c]) (exec next db c).2 := by
  have hsnoc := claimsOf_snoc h (event (exec next) db c) r.id
  cases hf with
  | untouched row none =>
    rw [none, List.nil_append] at hsnoc
    rcases claimAt_job next hc.claimAt row with ⟨ret, live⟩ | ⟨ret, live, hprom⟩ |
      ⟨w, n, x, job, hop, ret, live, -, hdue, ha, hu⟩ | ⟨error, ret, live, dead, why⟩
    · exact .untouched live (hsnoc.trans ret)
    · exact .promoted live (hsnoc.trans ret) hprom
    · exact .claimed w x live (by rw [hsnoc, ret]; rfl) (hc.lease hop) hdue ha hu
    · exact .buried error live dead (hsnoc.trans ret) why
  | promoted row none due =>
    rw [none, List.nil_append] at hsnoc
    obtain ⟨hexp, hexh⟩ := promoted_of_promotable due
    have hsched : r.state = .scheduled ∧ r.runAt.val ≤ t := by
      simp only [LiveRow.promotable, Bool.and_eq_true, decide_eq_true_eq] at due
      exact ⟨due.1.2, due.2⟩
    rcases claimAt_job next (r := r.promoted) hc.claimAt row with ⟨ret, live⟩ |
      ⟨ret, live, hprom⟩ | ⟨w, n, x, job, hop, ret, live, -, -, ha, hu⟩ |
      ⟨error, ret, live, dead, why⟩
    · exact .promoted live (hsnoc.trans ret) due
    · simp [LiveRow.promotable, LiveRow.promoted] at hprom
    · refine .claimed w x live ?_ (hc.lease hop) (by simp [LiveRow.dueOrLapsed, hsched]) ha hu
      rw [hsnoc, show returns (event (exec next) db c) r.id = [job] from ret]
      rfl
    · rw [hexp, hexh] at why
      exact .buried error live dead (hsnoc.trans ret) (Or.inl (by simpa using why))
  | claimed worker timeout row once lease due attempts alive =>
    have hnot := not_lapsed_claimed r worker lease.2 lease.1
    have hst : (r.claimed worker timeout t).state = .processing := rfl
    rcases claimAt_job next (r := r.claimed worker timeout t) hc.claimAt row with ⟨ret, live⟩ |
      ⟨ret, live, hprom⟩ | ⟨w, n, x, job, hop, ret, live, -, hdue, -⟩ |
      ⟨error, ret, live, dead, why⟩
    · refine .claimed worker timeout live ?_ lease due attempts alive
      rw [hsnoc, show returns (event (exec next) db c) r.id = [] from ret, List.append_nil]
      exact once
    · simp [LiveRow.promotable, hst] at hprom
    · simp [LiveRow.dueOrLapsed, hst, hnot] at hdue
    · simp [LiveRow.expirable, LiveRow.exhausted, hst, hnot] at why
  | buried error row dead none why =>
    rw [none, List.nil_append, returns_new row] at hsnoc
    exact .buried error (absent_claim next hc.claimAt row) (deadKept_step db c r.id _ dead) hsnoc why

theorem fate_run (next : String → ℤ → Except String ℤ) (hr : r ∈ db.live.rows) {claims : List Call}
    (hclaims : ∀ c ∈ claims, DrainCall queue t B c) :
    Fate queue t r (trace (exec next) db claims) (final (exec next) db claims) := by
  induction claims using List.reverseRecOn with
  | nil => exact .untouched (Table.find?_of_mem hr) rfl
  | append_singleton claims c ih =>
    rw [trace_snoc, final_snoc]
    exact (ih fun c' hc' ↦ hclaims c' (by simp [hc'])).step next (hclaims c (by simp))

end Fates

/-- What is true of `queue` after enough claims `h` at time `t` on the tables `db`. -/
structure Drained (queue : String) (t : ℤ) (db : Db) (h : List Event) (db' : Db) : Prop where
  handed : ∀ r ∈ db.live.rows, r.queue = queue → r.dueOrLapsed t → r.hasAttempts → r.unexpired t →
    (claimsOf h r.id).length = 1
  buried : ∀ r ∈ db.live.rows, r.queue = queue → r.dueOrLapsed t →
    ¬ (r.hasAttempts ∧ r.unexpired t) → db'.live.find? r.id = none ∧
      ∃ d, db'.dead.find? r.id = some d ∧ (d.lastError = "expired" ∧ r.expired t ∨
        d.lastError = "max attempts exceeded" ∧ r.maxAttempts ≤ r.attempts)
  expired : ∀ r ∈ db.live.rows, r.queue = queue → r.dueOrLapsed t = false → r.expired t →
    ¬ (r.state = .processing ∧ r.leased t) → db'.live.find? r.id = none ∧
      ∃ d, db'.dead.find? r.id = some d ∧ d.lastError = "expired"
  left : ∀ r' ∈ db'.live.rows, r'.queue = queue → ∃ r ∈ db.live.rows, r.id = r'.id ∧
    ((claimsOf h r.id).length = 1 ∧ (∃ worker timeout, r' = r.claimed worker timeout t) ∨
      r' = r ∧ r.state = .processing ∧ r.leased t ∨
      r' = r ∧ r.state = .scheduled ∧ t < r.runAt.val ∧ r.unexpired t)
  kept : ∀ r ∈ db.live.rows, r.queue = queue →
    ((claimsOf h r.id).length = 1 → ∃ worker timeout,
      db'.live.find? r.id = some (r.claimed worker timeout t)) ∧
    (r.state = .processing → r.leased t → db'.live.find? r.id = some r) ∧
    (r.state = .scheduled → t < r.runAt.val → r.unexpired t → db'.live.find? r.id = some r)

section Drained

variable {queue : String} {t : Clock} {db db' : Db} {h : List Event} {r : LiveRow} {last : ℤ}

theorem LiveRow.Sound.leased_of_not_lapsed (hs : r.Sound last) (hst : r.state = .processing)
    (hnot : r.lapsed t = false) : r.leased t = true := by
  obtain ⟨-, hsome, -⟩ := hs.owned.mp hst
  obtain ⟨x, hx⟩ := Option.isSome_iff_exists.mp hsome
  have hle : t.secs ≤ x.val := by simpa [LiveRow.lapsed, hx] using hnot
  simpa [LiveRow.leased, hx] using hle

/-- The backlogs of the three housekeeping steps and of the claim itself are empty. -/
structure Idle (queue : String) (t : ℤ) (db : Db) : Prop where
  promotable : ∀ r ∈ db.live.rows, r.promotable queue t = false
  expirable : ∀ r ∈ db.live.rows, r.expirable queue t = false
  exhausted : ∀ r ∈ db.live.rows, r.exhausted queue t = false
  claimable : Unclaimable queue t db

theorem not_of_backlog_zero {p : LiveRow → Bool} (hzero : db.backlog p = 0) :
    ∀ r ∈ db.live.rows, p r = false := by
  intro r hr
  simpa using List.countP_eq_zero.mp hzero r hr

/-- A row that claims at `t` leave as it is: under a valid lease, or unexpired and due later. -/
def LiveRow.Resting (t : ℤ) (r : LiveRow) : Prop :=
  r.state = .processing ∧ r.leased t = true ∨
    r.state = .scheduled ∧ t < r.runAt.val ∧ r.unexpired t = true

theorem LiveRow.Resting.not_due (h : r.Resting t) : r.dueOrLapsed t = false := by
  rcases h with ⟨hst, hl⟩ | ⟨hst, hlate, -⟩
  · simp [LiveRow.dueOrLapsed, hst, not_lapsed hl]
  · simp [LiveRow.dueOrLapsed, hst, hlate]

theorem LiveRow.Resting.not_buried (h : r.Resting t) (queue : String) :
    r.expirable queue t = false ∧ r.exhausted queue t = false := by
  rcases h with ⟨hst, hl⟩ | ⟨hst, -, hu⟩
  · simp [LiveRow.expirable, LiveRow.exhausted, hst, not_lapsed hl]
  · rw [unexpired_eq, Bool.not_eq_true'] at hu
    simp [LiveRow.expirable, LiveRow.exhausted, hst, hu]

theorem Idle.untouched (hidle : Idle queue t db') (hs : r.Sound last) (hlast : last ≤ t)
    (hq : r.queue = queue) (hr : r ∈ db'.live.rows) : r.Resting t := by
  have hexp := hidle.expirable r hr
  have hexh := hidle.exhausted r hr
  have hclaim := hidle.claimable r hr
  have hprom := hidle.promotable r hr
  have hun := unexpired_eq r t
  cases hst : r.state with
  | scheduled =>
    right
    simp only [LiveRow.expirable, hq, hst] at hexp
    simp only [LiveRow.promotable, hq, hst] at hprom
    refine ⟨hst, by simpa using hprom, ?_⟩
    rw [hun]
    simpa using hexp
  | pending =>
    exfalso
    have hdue := (hs.due hst).trans hlast
    have hatt : r.hasAttempts = true := by
      simpa [LiveRow.hasAttempts] using hs.spare (Or.inr hst)
    simp only [LiveRow.expirable, hq, hst] at hexp
    have halive : r.unexpired t = true := by
      rw [hun]
      simpa using hexp
    simp [LiveRow.claimable, hq, hst, hdue, hatt, halive] at hclaim
  | processing =>
    left
    refine ⟨hst, hs.leased_of_not_lapsed hst ?_⟩
    by_contra hl
    rw [Bool.not_eq_false] at hl
    simp only [LiveRow.expirable, hq, hst, hl] at hexp
    have halive : r.unexpired t = true := by
      rw [hun]
      simpa using hexp
    simp [LiveRow.exhausted, hq, hst, hl] at hexh
    simp [LiveRow.claimable, hq, hst, hl, hexh, halive] at hclaim

theorem Idle.not_promoted (hidle : Idle queue t db') (hs : r.Sound last)
    (hdue : r.promotable queue t = true) (hr : r.promoted ∈ db'.live.rows) : False := by
  have hexp := hidle.expirable _ hr
  have hclaim := hidle.claimable _ hr
  rw [(promoted_of_promotable hdue).1] at hexp
  simp only [LiveRow.promotable, Bool.and_eq_true, decide_eq_true_eq] at hdue
  obtain ⟨⟨hq, hst⟩, hrun⟩ := hdue
  have hatt : r.hasAttempts = true := by simpa [LiveRow.hasAttempts] using hs.spare (Or.inl hst)
  have halive : r.unexpired t = true := by
    rw [unexpired_eq]
    simpa [LiveRow.expirable, hq, hst] using hexp
  have hsame : r.promoted.hasAttempts = true ∧ r.promoted.unexpired t = true := ⟨hatt, halive⟩
  simp only [LiveRow.claimable, hsame] at hclaim
  have hlate : t < r.runAt.val := by simpa [LiveRow.promoted, hq] using hclaim
  exact absurd hrun (not_le.mpr hlate)

/-- What has become of a job of an idle queue. -/
inductive Settled (queue : String) (t : Clock) (r : LiveRow) (h : List Event) (db : Db) : Prop
  | rests (row : db.live.find? r.id = some r) (none : claimsOf h r.id = []) (rest : r.Resting t)
  | claimed (worker : String) (timeout : ℤ)
      (row : db.live.find? r.id = some (r.claimed worker timeout t))
      (once : (claimsOf h r.id).length = 1) (due : r.dueOrLapsed t = true)
      (attempts : r.hasAttempts = true) (alive : r.unexpired t = true)
  | buried (error : String) (row : db.live.find? r.id = none)
      (dead : db.dead.find? r.id = some (r.toDead error t)) (none : claimsOf h r.id = [])
      (why : error = "expired" ∧ r.expirable queue t = true ∨
        error = "max attempts exceeded" ∧ r.exhausted queue t = true)

theorem Fate.settled (hf : Fate queue t r h db') (hidle : Idle queue t db') (hs : r.Sound last)
    (hlast : last ≤ t) (hq : r.queue = queue) : Settled queue t r h db' := by
  cases hf with
  | untouched row none =>
    exact .rests row none (hidle.untouched hs hlast hq (Table.find?_eq_some.mp row).1)
  | promoted row none due => exact (hidle.not_promoted hs due (Table.find?_eq_some.mp row).1).elim
  | claimed worker timeout row once lease due attempts alive =>
    exact .claimed worker timeout row once due attempts alive
  | buried error row dead none why => exact .buried error row dead none why

theorem Settled.handed (hf : Settled queue t r h db') (hdue : r.dueOrLapsed t = true)
    (ha : r.hasAttempts = true) (hu : r.unexpired t = true) : (claimsOf h r.id).length = 1 := by
  cases hf with
  | rests row none rest => exact absurd (rest.not_due.symm.trans hdue) (by simp)
  | claimed worker timeout row once => exact once
  | buried error row dead none why =>
    rcases why with ⟨-, hexp⟩ | ⟨-, hexh⟩
    · rw [unexpired_eq] at hu
      simp only [LiveRow.expirable, Bool.and_eq_true] at hexp
      simp [hexp.1.2] at hu
    · simp [LiveRow.exhausted, ha] at hexh

theorem Settled.spent (hf : Settled queue t r h db') (hdue : r.dueOrLapsed t = true)
    (hbad : ¬ (r.hasAttempts = true ∧ r.unexpired t = true)) :
    db'.live.find? r.id = none ∧ ∃ d, db'.dead.find? r.id = some d ∧
      (d.lastError = "expired" ∧ r.expired t ∨
        d.lastError = "max attempts exceeded" ∧ r.maxAttempts ≤ r.attempts) := by
  cases hf with
  | rests row none rest => exact absurd (rest.not_due.symm.trans hdue) (by simp)
  | claimed worker timeout row once due attempts alive => exact absurd ⟨attempts, alive⟩ hbad
  | buried error row dead none why =>
    refine ⟨row, _, dead, ?_⟩
    rcases why with ⟨rfl, hexp⟩ | ⟨rfl, hexh⟩
    · simp only [LiveRow.expirable, Bool.and_eq_true] at hexp
      exact Or.inl ⟨rfl, hexp.1.2⟩
    · simp only [LiveRow.exhausted, LiveRow.hasAttempts, Bool.and_eq_true] at hexh
      exact Or.inr ⟨rfl, by simpa using hexh.2⟩

theorem Settled.expired (hf : Settled queue t r h db') (hdue : r.dueOrLapsed t = false)
    (hexp : r.expired t = true) (hlease : ¬ (r.state = .processing ∧ r.leased t = true)) :
    db'.live.find? r.id = none ∧ ∃ d, db'.dead.find? r.id = some d ∧ d.lastError = "expired" := by
  cases hf with
  | rests row none rest =>
    rcases rest with hleased | ⟨-, -, hu⟩
    · exact absurd hleased hlease
    · simp [unexpired_eq, hexp] at hu
  | claimed worker timeout row once due => simp [hdue] at due
  | buried error row dead none why =>
    refine ⟨row, _, dead, ?_⟩
    rcases why with ⟨rfl, -⟩ | ⟨rfl, hexh⟩
    · rfl
    · simp only [LiveRow.exhausted, Bool.and_eq_true, decide_eq_true_eq] at hexh
      simp [LiveRow.dueOrLapsed, hexh] at hdue

theorem Settled.row {r' : LiveRow} (hf : Settled queue t r h db')
    (hfind : db'.live.find? r.id = some r') :
    (claimsOf h r.id).length = 1 ∧ (∃ worker timeout, r' = r.claimed worker timeout t) ∨
      r' = r ∧ r.Resting t := by
  cases hf with
  | rests row none rest =>
    cases hfind.symm.trans row
    exact Or.inr ⟨rfl, rest⟩
  | claimed worker timeout row once =>
    cases hfind.symm.trans row
    exact Or.inl ⟨once, worker, timeout, rfl⟩
  | buried error row => cases hfind.symm.trans row

theorem Settled.claim (hf : Settled queue t r h db') (hone : (claimsOf h r.id).length = 1) :
    ∃ worker timeout, db'.live.find? r.id = some (r.claimed worker timeout t) := by
  cases hf with
  | rests row none => simp [none] at hone
  | claimed worker timeout row => exact ⟨worker, timeout, row⟩
  | buried error row dead none => simp [none] at hone

theorem Settled.stays (hf : Settled queue t r h db') (hrest : r.Resting t) :
    db'.live.find? r.id = some r := by
  cases hf with
  | rests row => exact row
  | claimed worker timeout row once due => exact absurd (hrest.not_due.symm.trans due) (by simp)
  | buried error row dead none why =>
    obtain ⟨hexp, hexh⟩ := hrest.not_buried queue
    simp [hexp, hexh] at why

/-- The rows that an idle queue holds and the fates of the rows it held give the whole picture. -/
theorem drained_of_idle (hidle : Idle queue t db')
    (hsound : ∀ r ∈ db.live.rows, r.Sound last) (hlast : last ≤ t)
    (hfate : ∀ r ∈ db.live.rows, Fate queue t r h db')
    (hfrom : ∀ r' ∈ db'.live.rows, ∃ r ∈ db.live.rows, r.id = r'.id ∧ r.queue = r'.queue) :
    Drained queue t db h db' := by
  have hsettled (r : LiveRow) (hr : r ∈ db.live.rows) (hq : r.queue = queue) :
      Settled queue t r h db' := (hfate r hr).settled hidle (hsound r hr) hlast hq
  refine ⟨?_, ?_, ?_, ?_, ?_⟩
  · intro r hr hq hdue ha hu
    exact (hsettled r hr hq).handed hdue ha hu
  · intro r hr hq hdue hbad
    exact (hsettled r hr hq).spent hdue hbad
  · intro r hr hq hdue hexp hlease
    exact (hsettled r hr hq).expired hdue hexp hlease
  · intro r' hr' hq'
    obtain ⟨r, hr, hid, hq⟩ := hfrom r' hr'
    refine ⟨r, hr, hid, ?_⟩
    rcases (hsettled r hr (hq.trans hq')).row (hid ▸ Table.find?_of_mem hr') with
      hclaimed | ⟨rfl, ⟨hst, hl⟩ | hlater⟩
    · exact Or.inl hclaimed
    · exact Or.inr (Or.inl ⟨rfl, hst, hl⟩)
    · exact Or.inr (Or.inr ⟨rfl, hlater⟩)
  · intro r hr hq
    have hf := hsettled r hr hq
    exact ⟨hf.claim, fun hst hl ↦ hf.stays (Or.inl ⟨hst, hl⟩),
      fun hst hlate hu ↦ hf.stays (Or.inr ⟨hst, hlate, hu⟩)⟩

theorem from_run (next : String → ℤ → Except String ℤ) {B : ℕ} {claims : List Call}
    (hclaims : ∀ c ∈ claims, DrainCall queue t B c) :
    ∀ r' ∈ (final (exec next) db claims).live.rows,
      ∃ r ∈ db.live.rows, r.id = r'.id ∧ r.queue = r'.queue := by
  induction claims using List.reverseRecOn with
  | nil => exact fun r' hr' ↦ ⟨r', hr', rfl, rfl⟩
  | append_singleton claims c ih =>
    intro r' hr'
    obtain ⟨-, worker, n, timeout, hop, -⟩ := hclaims c (by simp)
    rw [final_snoc] at hr'
    rcases row_step next _ c (Table.find?_of_mem hr') with ⟨-, -, hmem⟩ | ⟨s, hs, hstep⟩
    · rw [issued_of_not_enqueue (by simp [hop]) (by simp [hop])] at hmem
      cases hmem
    · obtain ⟨r, hr, hid, hq⟩ := ih (fun c' hc' ↦ hclaims c' (by simp [hc'])) s
        (Table.find?_eq_some.mp hs).1
      refine ⟨r, hr, hid.trans (Table.find?_eq_some.mp hs).2, hq.trans ?_⟩
      cases hstep <;> rfl

end Drained

/-- The number of claims that empties the backlog of `b` rows. -/
def drainCalls (b : ℕ) : ℕ := max 1 ((b + 999) / 1000)

/-- No zombie jobs: in every reachable state, enough claims in a row at one time `t` hand out or bury
every job of the queue that is due, lapsed or expired. -/
theorem no_zombie_jobs (next : String → ℤ → Except String ℤ) (calls : List Call)
    (hclock : Steady (trace (exec next) Db.fresh calls)) (queue : String) (t : Clock)
    (ht : lastReading (trace (exec next) Db.fresh calls) ≤ t) (claims : List Call)
    (hlen : claims.length =
      drainCalls ((final (exec next) Db.fresh calls).backlog (inQueue queue)))
    (hclaims : ∀ c ∈ claims,
      DrainCall queue t ((final (exec next) Db.fresh calls).backlog (inQueue queue)) c) :
    Drained queue t (final (exec next) Db.fresh calls)
      (trace (exec next) (final (exec next) Db.fresh calls) claims)
      (final (exec next) Db.fresh (calls ++ claims)) := by
  have hsound := sound_run next calls hclock
  have hledger := Ledger.run next calls
  rw [final_append]
  generalize final (exec next) Db.fresh calls = db at hlen hclaims hsound hledger
  have hne : claims ≠ [] := by
    intro hnil
    rw [hnil, drainCalls, List.length_nil] at hlen
    omega
  have henough : db.backlog (inQueue queue) ≤ 1000 * claims.length := by
    rw [hlen, drainCalls]
    omega
  have hle {p : LiveRow → Bool} (hp : ∀ r, p r = true → inQueue queue r = true) :
      db.backlog p ≤ db.backlog (inQueue queue) := List.countP_mono_left fun r _ ↦ hp r
  have hprom := hle (p := LiveRow.promotable queue t) fun r hr ↦ by
    simp only [LiveRow.promotable, Bool.and_eq_true] at hr
    exact hr.1.1
  have hexp := hle (p := LiveRow.expirable queue t) fun r hr ↦ by
    simp only [LiveRow.expirable, Bool.and_eq_true] at hr
    exact hr.1.1
  have hexh := hle (p := LiveRow.exhausted queue t) fun r hr ↦ by
    simp only [LiveRow.exhausted, Bool.and_eq_true] at hr
    exact hr.1.1.1
  obtain ⟨hprom', hexp', hexh', hnone⟩ := drain_run next hledger le_rfl hne hclaims
  have hidle : Idle queue t (final (exec next) db claims) :=
    ⟨not_of_backlog_zero (by omega), not_of_backlog_zero (by omega), not_of_backlog_zero (by omega),
      hnone⟩
  exact drained_of_idle hidle hsound ht (fun r hr ↦ fate_run next hr hclaims) (from_run next hclaims)

/-- Jobs that at 110 are under a lapsed lease (1, with no attempt left, and 2), under a lease (3), due
(4), expired (5) and scheduled (6). -/
def mixedCalls : List Call :=
  [.at_ (.near 100) (.enqueue "q" "p" none none 0 1 none),
   .at_ (.near 100) (.enqueue "q" "p" none none 0 3 none),
   .at_ (.near 100) (.claimBatch "q" "v" 2 (.near 5)),
   .at_ (.near 100) (.enqueue "q" "p" none none 0 3 none),
   .at_ (.near 100) (.claimBatch "q" "v" 1 (.near 100)),
   .at_ (.near 100) (.enqueue "q" "p" none none 0 3 none),
   .at_ (.near 100) (.enqueue "q" "p" none none 0 3 (some (.near 5))),
   .at_ (.near 100) (.enqueue "q" "p" none (some (.near 50)) 0 3 none)]

def drainSix : List Call :=
  [.at_ (.near 110) (.claimBatch "q" "w" 6 (.near 5))]

theorem no_zombie_jobs_mixed :
    let db := final (exec fun _ u ↦ .ok (u + 1)) Db.fresh mixedCalls
    (db.live.rows.map fun r ↦ (r.id, r.dueOrLapsed 110, r.hasAttempts, r.unexpired 110)) =
        [(1, true, false, true), (2, true, true, true), (3, false, true, true), (4, true, true, true),
          (5, true, true, false), (6, false, true, true)] ∧
      Drained "q" 110 db (trace (exec fun _ u ↦ .ok (u + 1)) db drainSix)
        (final (exec fun _ u ↦ .ok (u + 1)) Db.fresh (mixedCalls ++ drainSix)) := by
  intro db
  have hclaims : ∀ c ∈ drainSix, DrainCall "q" (.near 110) 6 c := by
    intro c hc
    rw [drainSix, List.mem_singleton] at hc
    rw [hc]
    exact ⟨rfl, "w", 6, (.near 5), rfl, by decide, by decide, by decide⟩
  have hsix : db.backlog (inQueue "q") = 6 := by decide +kernel
  refine ⟨by decide +kernel, ?_⟩
  exact no_zombie_jobs (fun _ u ↦ .ok (u + 1)) mixedCalls (by decide +kernel) "q" (.near 110)
    (by decide +kernel) drainSix (by rw [hsix]; rfl) (by rw [hsix]; exact hclaims)

/-- One job, due from time 100 on. -/
def dueCalls : List Call :=
  [.at_ (.near 100) (.enqueue "q" "p" none none 0 3 none)]

def drainOne (timeout : I64) : List Call :=
  [.at_ (.near 100) (.claimBatch "q" "w" 1 timeout)]

theorem due_rows : ∀ r ∈ (final (exec fun _ u ↦ .ok (u + 1)) Db.fresh dueCalls).live.rows,
    r.id = 1 ∧ r.queue = "q" ∧ r.dueOrLapsed 100 = true ∧ r.hasAttempts = true ∧
      r.unexpired 100 = true := by
  decide

/-- A claim whose lease would end past the 64-bit range drains nothing. -/
theorem no_zombie_jobs_overflow :
    Steady (trace (exec fun _ u ↦ .ok (u + 1)) Db.fresh dueCalls) ∧
    lastReading (trace (exec fun _ u ↦ .ok (u + 1)) Db.fresh dueCalls) ≤ 100 ∧
    drainCalls ((final (exec fun _ u ↦ .ok (u + 1)) Db.fresh dueCalls).backlog (inQueue "q")) = 1 ∧
    (0 : ℤ) ≤ 2 ^ 63 - 1 ∧
    ¬ Drained "q" 100 (final (exec fun _ u ↦ .ok (u + 1)) Db.fresh dueCalls)
      (trace (exec fun _ u ↦ .ok (u + 1)) (final (exec fun _ u ↦ .ok (u + 1)) Db.fresh dueCalls)
        (drainOne (.near (2 ^ 63 - 1))))
      (final (exec fun _ u ↦ .ok (u + 1)) Db.fresh
        (dueCalls ++ drainOne (.near (2 ^ 63 - 1)))) := by
  refine ⟨by decide, by decide, by decide, by decide, fun hdrained ↦ ?_⟩
  have hsome : (final (exec fun _ u ↦ .ok (u + 1)) Db.fresh dueCalls).live.rows ≠ [] := by decide
  obtain ⟨r, hr⟩ := List.exists_mem_of_ne_nil _ hsome
  obtain ⟨hid, hq, hdue, ha, hu⟩ := due_rows r hr
  have hone := hdrained.handed r hr hq hdue ha hu
  rw [hid] at hone
  revert hone
  decide

end Honker
