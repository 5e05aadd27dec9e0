import Honker.Drain

namespace Honker

open Relational Numeric Transition

/-- A claim on `queue` at time `t` that asks for rows, under a lease that ends within the 64-bit
range. A negative `n` asks for all rows there are. -/
def AsksAt (queue : String) (t : Clock) (c : Call) : Prop :=
  c.clk 0 = t ∧ ∃ worker n timeout, c.op = .claimBatch queue worker n timeout ∧ n ≠ 0 ∧
    InRange (t + timeout)

theorem AsksAt.claimAt {queue : String} {t : Clock} {c : Call} (h : AsksAt queue t c) :
    ClaimAt queue t c :=
  ⟨h.1, h.2.imp fun _ h ↦ h.imp fun _ h ↦ h.imp fun _ h ↦ h.1⟩

/-- What claims at `t` have done so far to a job whose row was `r` before them. -/
inductive Turn (queue : String) (t : Clock) (r : LiveRow) (h : List Event) (db : Db) : Prop
  | waits (row : db.live.find? r.id = some r) (none : claimsOf h r.id = [])
  | promoted (row : db.live.find? r.id = some r.promoted) (none : claimsOf h r.id = [])
      (due : r.promotable queue t = true)
  | handed (some : claimsOf h r.id ≠ []) (eligible : r.Eligible queue t)
  | buried (row : db.live.find? r.id = none) (none : claimsOf h r.id = [])
      (why : r.unexpired t = false ∨ r.hasAttempts = false)

section Turns

variable {queue : String} {t : Clock} {db : Db} {c : Call} {h : List Event} {r : LiveRow}

theorem apart_claim (next : String → ℤ → Except String ℤ) (hc : ClaimAt queue t c) (hdb : db.Apart) :
    (exec next db c).2.Apart := by
  intro j s hs
  have hlive : db.live.find? j ≠ none := fun hnone ↦ by
    simp [absent_claim next hc hnone] at hs
  obtain ⟨r, hr⟩ := Option.ne_none_iff_exists'.mp hlive
  rcases dead_step next db c j with hdead | ⟨-, -, -, -, hgone, -⟩
  · rw [hdead]
    exact hdb j r hr
  · exact absurd (hgone.symm.trans hs) (by simp)

theorem not_eligible_of_buried {error : String}
    (h : error = "expired" ∧ r.expirable queue t = true ∨
      error = "max attempts exceeded" ∧ r.exhausted queue t = true) :
    r.unexpired t = false ∨ r.hasAttempts = false := by
  rcases h with ⟨-, hexp⟩ | ⟨-, hexh⟩
  · simp only [LiveRow.expirable, Bool.and_eq_true] at hexp
    exact Or.inl (by rw [unexpired_eq, hexp.1.2]; rfl)
  · simp only [LiveRow.exhausted, Bool.and_eq_true] at hexh
    exact Or.inr (by simpa using hexh.2)

theorem Turn.step (next : String → ℤ → Except String ℤ) (hc : ClaimAt queue t c)
    (hf : Turn queue t r h db) : Turn queue t r (h ++ [event (exec next) db c]) (exec next db c).2 := by
  have hsnoc := claimsOf_snoc h (event (exec next) db c) r.id
  cases hf with
  | waits row none =>
    rw [none, List.nil_append] at hsnoc
    rcases claimAt_job next hc row with ⟨ret, live⟩ | ⟨ret, live, hprom⟩ |
      ⟨-, -, -, job, -, ret, -, hel⟩ | ⟨error, ret, live, -, why⟩
    · exact .waits live (hsnoc.trans ret)
    · exact .promoted live (hsnoc.trans ret) hprom
    · exact .handed (by simp [hsnoc, ret]) hel
    · exact .buried live (hsnoc.trans ret) (not_eligible_of_buried why)
  | promoted row none due =>
    rw [none, List.nil_append] at hsnoc
    have hdue : r.queue = queue ∧ r.dueOrLapsed t = true := by
      simp only [LiveRow.promotable, Bool.and_eq_true, decide_eq_true_eq] at due
      simp [LiveRow.dueOrLapsed, due]
    rcases claimAt_job next (r := r.promoted) hc row with ⟨ret, live⟩ | ⟨ret, live, hprom⟩ |
      ⟨-, -, -, job, -, ret, -, hel⟩ | ⟨error, ret, live, -, why⟩
    · exact .promoted live (hsnoc.trans ret) due
    · simp [LiveRow.promotable, LiveRow.promoted] at hprom
    · refine .handed ?_ ⟨hdue.1, hdue.2, hel.2.2⟩
      rw [hsnoc, show returns (event (exec next) db c) r.id = [job] from ret]
      exact List.cons_ne_nil job []
    · exact .buried live (hsnoc.trans ret) (not_eligible_of_buried (r := r.promoted) why)
  | handed some eligible =>
    refine .handed ?_ eligible
    rw [hsnoc]
    exact List.append_ne_nil_of_left_ne_nil some _
  | buried row none why =>
    rw [none, List.nil_append, returns_new row] at hsnoc
    exact .buried (absent_claim next hc row) hsnoc why

theorem turn_run (next : String → ℤ → Except String ℤ) (hr : r ∈ db.live.rows) {claims : List Call}
    (hclaims : ∀ c ∈ claims, ClaimAt queue t c) :
    Turn queue t r (trace (exec next) db claims) (final (exec next) db claims) := by
  induction claims using List.reverseRecOn with
  | nil => exact .waits (Table.find?_of_mem hr) rfl
  | append_singleton claims c ih =>
    rw [trace_snoc, final_snoc]
    exact (ih fun c' hc' ↦ hclaims c' (by simp [hc'])).step next (hclaims c (by simp))

theorem absent_run (next : String → ℤ → Except String ℤ) {j : ℤ} (hj : db.live.find? j = none)
    {claims : List Call} (hclaims : ∀ c ∈ claims, ClaimAt queue t c) :
    claimsOf (trace (exec next) db claims) j = [] ∧
      (final (exec next) db claims).live.find? j = none := by
  induction claims using List.reverseRecOn with
  | nil => exact ⟨rfl, hj⟩
  | append_singleton claims c ih =>
    obtain ⟨hnone, hgone⟩ := ih fun c' hc' ↦ hclaims c' (by simp [hc'])
    rw [trace_snoc, final_snoc, claimsOf_snoc, hnone, returns_new hgone]
    exact ⟨rfl, absent_claim next (hclaims c (by simp)) hgone⟩

end Turns

/-- Claims on `queue` at `t` have nothing to promote and nothing to hand out. -/
structure Quiet (queue : String) (t : ℤ) (db : Db) : Prop where
  promotable : ∀ r ∈ db.live.rows, r.promotable queue t = false
  claimable : Unclaimable queue t db

/-- A job that a quiet queue owes nothing was handed out exactly when it was eligible. -/
theorem Turn.handed_iff {queue : String} {t : Clock} {r : LiveRow} {h : List Event} {db : Db}
    (hf : Turn queue t r h db) (hquiet : Quiet queue t db) :
    claimsOf h r.id ≠ [] ↔ r.Eligible queue t := by
  cases hf with
  | waits row none =>
    refine iff_of_false (by simp [none]) ?_
    rintro ⟨hq, hdue, ha, hu⟩
    have hr := (Table.find?_eq_some.mp row).1
    have hprom := hquiet.promotable r hr
    have hclaim := hquiet.claimable r hr
    cases hst : r.state with
    | scheduled => simp_all [LiveRow.promotable, LiveRow.dueOrLapsed]
    | pending => simp_all [LiveRow.claimable, LiveRow.dueOrLapsed]
    | processing => simp_all [LiveRow.claimable, LiveRow.dueOrLapsed]
  | promoted row none due =>
    refine iff_of_false (by simp [none]) ?_
    rintro ⟨hq, -, ha, hu⟩
    have hclaim := hquiet.claimable _ (Table.find?_eq_some.mp row).1
    have hsame : r.promoted.hasAttempts = true ∧ r.promoted.unexpired t = true := ⟨ha, hu⟩
    simp only [LiveRow.promotable, Bool.and_eq_true, decide_eq_true_eq] at due
    simp only [LiveRow.claimable, hsame] at hclaim
    simp [LiveRow.promoted, hq, due.2] at hclaim
  | handed some eligible => exact iff_of_true some eligible
  | buried row none why =>
    refine iff_of_false (by simp [none]) ?_
    rintro ⟨-, -, ha, hu⟩
    rcases why with why | why
    · exact absurd (hu.symm.trans why) (by simp)
    · exact absurd (ha.symm.trans why) (by simp)

/-- The attempts that a job of `queue` has left. -/
def LiveRow.budget (queue : String) (r : LiveRow) : ℕ :=
  if r.queue = queue then (r.maxAttempts - r.attempts).toNat else 0

/-- A bound on the number of claims at `t` that still do something. -/
def Db.toGo (queue : String) (t : ℤ) (db : Db) : ℕ :=
  db.backlog (LiveRow.promotable queue t) + db.live.weight (LiveRow.budget queue)

section Measure

variable {queue worker : String} {n timeout now : ℤ} {db T db' : Db} {r : LiveRow}

theorem claimable_eq (r : LiveRow) :
    r.claimable queue now = (r.ready queue now || r.reclaimable queue now) := by
  rw [Bool.eq_iff_iff]
  simp only [LiveRow.claimable, LiveRow.ready, LiveRow.reclaimable, Bool.and_eq_true,
    Bool.or_eq_true]
  tauto

theorem limit_ne_nil {α : Type} {l : List α} (hn : n ≠ 0) (hl : l ≠ []) : limit n l ≠ [] := by
  rw [limit]
  split_ifs with hneg
  · exact hl
  · rw [Ne, List.take_eq_nil_iff, not_or]
    exact ⟨by omega, hl⟩

theorem exists_claimIds (hn : n ≠ 0) (hr : r ∈ db.live.rows) (hc : r.claimable queue now = true) :
    ∃ s ∈ db.live.rows, s.id ∈ claimIds db.live queue now n := by
  have hready : r.ready queue now = true ∨ r.reclaimable queue now = true := by
    simpa [claimable_eq] using hc
  generalize hdue : limit n (orderBy LiveRow.claimOrder
    (db.live.rows.filter (LiveRow.ready queue now))) = due
  generalize hlapsed : db.live.rows.filter (LiveRow.reclaimable queue now) = lapsed
  have hne : due ++ lapsed ≠ [] := by
    rcases hready with h | h
    · have hmem : r ∈ orderBy LiveRow.claimOrder
          (db.live.rows.filter (LiveRow.ready queue now)) :=
        mem_orderBy.mpr (List.mem_filter.mpr ⟨hr, h⟩)
      have hdue' : due ≠ [] := hdue ▸ limit_ne_nil hn (List.ne_nil_of_mem hmem)
      exact List.append_ne_nil_of_left_ne_nil hdue' _
    · have hmem := List.mem_filter.mpr ⟨hr, h⟩
      exact List.append_ne_nil_of_right_ne_nil _ (hlapsed ▸ List.ne_nil_of_mem hmem)
  have hsorted : orderBy LiveRow.claimOrder (due ++ lapsed) ≠ [] := by
    intro hnil
    have hlen := length_orderBy LiveRow.claimOrder (due ++ lapsed)
    rw [hnil, List.length_nil] at hlen
    exact hne (List.eq_nil_of_length_eq_zero hlen.symm)
  obtain ⟨s, hs⟩ := List.exists_mem_of_ne_nil _ (limit_ne_nil hn hsorted)
  refine ⟨s, ?_, ?_⟩
  · rcases List.mem_append.mp (mem_orderBy.mp (mem_of_mem_limit hs)) with h | h
    · rw [← hdue] at h
      exact (List.mem_filter.mp (mem_orderBy.mp (mem_of_mem_limit h))).1
    · rw [← hlapsed] at h
      exact (List.mem_filter.mp h).1
  · rw [claimIds, hdue, hlapsed]
    exact List.mem_map_of_mem hs

theorem promote_budget (queue : String) (now lim : ℤ) (db : Db) :
    (promote queue now lim db).live.weight (LiveRow.budget queue) ≤
      db.live.weight (LiveRow.budget queue) :=
  db.live.weight_update_le LiveRow.id_promoted fun _ _ _ ↦ le_rfl

theorem Moved.budget_le {p : LiveRow → Bool} {error : String} {diedAt : ℤ}
    (h : Moved p error diedAt db db') :
    db'.live.weight (LiveRow.budget queue) ≤ db.live.weight (LiveRow.budget queue) := by
  rw [h.live]
  exact db.live.weight_delete_le p _

theorem housekeep_budget (h : housekeep queue now db = .ok T) :
    T.live.weight (LiveRow.budget queue) ≤ db.live.weight (LiveRow.budget queue) := by
  obtain ⟨db₁, hexp, hexh⟩ := housekeep_ok h
  exact (hexh.budget_le.trans hexp.budget_le).trans (promote_budget ..)

theorem budget_claimed (hr : r ∈ db.live.rows) (h : r.id ∈ claimIds db.live queue now n) :
    (r.claimed worker timeout now).budget queue < r.budget queue := by
  have hguard : r.queue = queue ∧ r.attempts < r.maxAttempts := by
    rcases mem_claimIds hr h with h | h
    · simp only [LiveRow.ready, LiveRow.hasAttempts, Bool.and_eq_true, decide_eq_true_eq] at h
      exact ⟨h.1.1.1.1, h.1.2⟩
    · simp only [LiveRow.reclaimable, LiveRow.hasAttempts, Bool.and_eq_true, decide_eq_true_eq] at h
      exact ⟨h.1.1.1.1, h.1.2⟩
  simp only [LiveRow.budget, LiveRow.claimed, hguard.1, if_true]
  omega

variable {emit : Emission LiveRow} {jobs : List ClaimedJob}

theorem claimSql_budget (h : claimSql emit queue worker n timeout now T = .ok (jobs, db')) :
    db'.live.weight (LiveRow.budget queue) ≤ T.live.weight (LiveRow.budget queue) ∧
      ((∃ r ∈ T.live.rows, r.id ∈ claimIds T.live queue now n) →
        db'.live.weight (LiveRow.budget queue) < T.live.weight (LiveRow.budget queue)) := by
  obtain ⟨rfl, -⟩ := claimSql_ok h
  have hlt : ∀ r ∈ T.live.rows, decide (r.id ∈ claimIds T.live queue now n) = true →
      (r.claimed worker timeout now).budget queue < r.budget queue :=
    fun r hr hsel ↦ budget_claimed hr (of_decide_eq_true hsel)
  constructor
  · exact T.live.weight_update_le (LiveRow.id_claimed worker timeout now)
      fun r hr hsel ↦ (hlt r hr hsel).le
  · rintro ⟨r, hr, hsel⟩
    exact T.live.weight_update_lt (LiveRow.id_claimed worker timeout now) hlt
      ⟨r, hr, decide_eq_true hsel⟩

theorem claimSql_unclaimable (h : claimSql emit queue worker n timeout now T = .ok (jobs, db'))
    (hnone : Unclaimable queue now T) : db'.live = T.live := by
  obtain ⟨rfl, -⟩ := claimSql_ok h
  change T.live.update _ _ (LiveRow.id_claimed worker timeout now) = T.live
  refine Table.update_of_forall_not fun r hr ↦ ?_
  by_contra hsel
  have hsel : r.id ∈ claimIds T.live queue now n := by simpa using hsel
  have hclaim := hnone r hr
  rw [claimable_eq] at hclaim
  rcases mem_claimIds hr hsel with hready | hready
  · simp [hready] at hclaim
  · simp [hready] at hclaim

theorem housekeep_sublist (h : housekeep queue now db = .ok T)
    (hprom : ∀ r ∈ db.live.rows, r.promotable queue now = false) : T.live.rows ⊆ db.live.rows := by
  obtain ⟨db₁, hexp, hexh⟩ := housekeep_ok h
  have hsame : (promote queue now claimHousekeepingLimit db).live = db.live := by
    change db.live.update _ _ LiveRow.id_promoted = db.live
    refine Table.update_of_forall_not fun r hr ↦ ?_
    by_contra hsel
    have hsel : r.id ∈ promoteIds db.live queue now claimHousekeepingLimit := by simpa using hsel
    exact absurd (mem_selectIds hr hsel) (by simp [hprom r hr])
  rw [hexh.live, hexp.live, hsame]
  exact fun r hr ↦ List.mem_of_mem_filter (List.mem_of_mem_filter hr)

end Measure

section Exhaust

variable {queue : String} {t : Clock} {db : Db} {c : Call}

theorem AsksAt.ok (next : String → ℤ → Except String ℤ) (hc : AsksAt queue t c) (hdb : db.Apart) :
    ∃ worker n timeout T jobs, n ≠ 0 ∧ housekeep queue t db = .ok T ∧
      claimSql c.emit queue worker n timeout t T = .ok (jobs, (exec next db c).2) := by
  obtain ⟨hclk, worker, n, timeout, hop, hn, hrange⟩ := hc
  obtain ⟨T, hkeep⟩ := housekeep_total hdb queue t
  obtain ⟨jobs, db', hsql⟩ := claimSql_total c.emit queue worker n T (Or.inl hrange)
  refine ⟨worker, n, timeout, T, jobs, hn, hkeep, ?_⟩
  simp only [exec, hop, hclk]
  rw [claimBatch_eq c.emit worker n timeout hkeep, hsql]
  rfl

theorem Quiet.step (next : String → ℤ → Except String ℤ) (hc : AsksAt queue t c) (hdb : db.Apart)
    (hq : Quiet queue t db) : Quiet queue t (exec next db c).2 := by
  obtain ⟨worker, n, timeout, T, jobs, -, hkeep, hsql⟩ := hc.ok next hdb
  have hsub := housekeep_sublist hkeep hq.promotable
  have hT : Unclaimable queue t T := fun r hr ↦ hq.claimable r (hsub hr)
  have hlive := claimSql_unclaimable hsql hT
  constructor
  · rw [hlive]
    exact fun r hr ↦ hq.promotable r (hsub hr)
  · unfold Unclaimable
    rw [hlive]
    exact hT

/-- A claim brings the end closer, unless the queue is quiet after it. -/
theorem toGo_step (next : String → ℤ → Except String ℤ) (hc : AsksAt queue t c) (hdb : db.Apart) :
    (exec next db c).2.toGo queue t < db.toGo queue t ∨ Quiet queue t (exec next db c).2 := by
  obtain ⟨worker, n, timeout, T, jobs, hn, hkeep, hsql⟩ := hc.ok next hdb
  have hprom := (housekeep_backlog hkeep).1
  have hprom' : (exec next db c).2.backlog (LiveRow.promotable queue t) ≤
      T.backlog (LiveRow.promotable queue t) :=
    claimSql_backlog_le hsql fun r hr ↦ by simp [LiveRow.promotable, LiveRow.claimed] at hr
  have hbudget := housekeep_budget hkeep
  obtain ⟨hle, hlt⟩ := claimSql_budget hsql
  unfold Db.toGo
  by_cases hzero : db.backlog (LiveRow.promotable queue t) = 0
  · by_cases hsel : ∃ r ∈ T.live.rows, r.id ∈ claimIds T.live queue t n
    · have hlt := hlt hsel
      left
      omega
    · right
      have hnone : Unclaimable queue t T := by
        intro r hr
        by_contra hclaim
        exact hsel (exists_claimIds hn hr (by simpa using hclaim))
      refine ⟨not_of_backlog_zero (by omega), ?_⟩
      unfold Unclaimable
      rw [claimSql_unclaimable hsql hnone]
      exact hnone
  · left
    omega

theorem quiet_run (next : String → ℤ → Except String ℤ) (hdb : db.Apart) {claims : List Call}
    (hclaims : ∀ c ∈ claims, AsksAt queue t c)
    (hlen : Quiet queue t db ∨ db.toGo queue t < claims.length) :
    Quiet queue t (final (exec next) db claims) := by
  induction claims generalizing db with
  | nil =>
    rcases hlen with hq | hlt
    · exact hq
    · exact absurd hlt (Nat.not_lt_zero _)
  | cons c claims ih =>
    have hc := hclaims c (.head claims)
    refine ih (apart_claim next hc.claimAt hdb) (fun c' hc' ↦ hclaims c' (.tail c hc')) ?_
    rcases hlen with hq | hlt
    · exact Or.inl (hq.step next hc hdb)
    · rcases toGo_step next hc hdb with hstep | hq
      · rw [List.length_cons] at hlt
        exact Or.inr (by omega)
      · exact Or.inl hq

/-- Claims on `queue` at one time hand out eligible jobs only. Enough of them that ask for rows hand
out every eligible job. -/
theorem handed_out (next : String → ℤ → Except String ℤ) (hdb : db.Apart) {claims : List Call}
    (hclaims : ∀ c ∈ claims, ClaimAt queue t c) (j : ℤ) :
    (claimsOf (trace (exec next) db claims) j ≠ [] →
      ∃ r ∈ db.live.rows, r.id = j ∧ r.Eligible queue t) ∧
    ((∀ c ∈ claims, AsksAt queue t c) → db.toGo queue t < claims.length →
      ∀ r ∈ db.live.rows, r.id = j → r.Eligible queue t →
      claimsOf (trace (exec next) db claims) j ≠ []) := by
  constructor
  · intro hne
    cases hj : db.live.find? j with
    | none => exact absurd (absent_run next hj hclaims).1 hne
    | some r =>
      obtain ⟨hr, rfl⟩ := Table.find?_eq_some.mp hj
      refine ⟨r, hr, rfl, ?_⟩
      cases turn_run next hr hclaims with
      | waits row none => exact absurd none hne
      | promoted row none due => exact absurd none hne
      | handed some eligible => exact eligible
      | buried row none why => exact absurd none hne
  · intro hasks hlen r hr hid heligible
    have hquiet := quiet_run next hdb hasks (Or.inr hlen)
    rw [← hid]
    exact ((turn_run next hr hclaims).handed_iff hquiet).mpr heligible

end Exhaust

end Honker
