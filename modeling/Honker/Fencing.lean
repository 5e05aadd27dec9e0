import Honker.RowState

namespace Honker

open Relational Numeric Transition

def Op.retries (j : ℤ) : Op → Bool
  | .retry job .. | .retryFenced job .. => job = j
  | _ => false

/-- The call handed `j` out again, took its row out of `_honker_live`, or retried it. -/
def ends (e : Event) (j : ℤ) : Bool :=
  decide (returns e j ≠ []) || ((e.pre.live.find? j).isSome && (e.post.live.find? j).isNone) ||
    (e.input.op.retries j && decide (e.output = .count 1))

/-- The row of `j` is under the claim `a` of `w`. -/
def Held (db : Db) (j : ℤ) (w : String) (a : ℤ) : Prop :=
  ∃ r, db.live.find? j = some r ∧ r.tokenFor j w a = true

/-- The claim `a` of `j` is over for good. -/
def Past (db : Db) (j a : ℤ) : Prop :=
  j ≤ db.seq ∧ ∀ r, db.live.find? j = some r → a < r.attempts ∨ a = r.attempts ∧ r.state ≠ .processing

/-- A due time that is not an integer lies past every clock reading. -/
def LiveRow.Dated (r : LiveRow) : Prop :=
  (∃ v, r.runAt = .int v) ∨ r.state = .scheduled ∧ 2 ^ 63 ≤ r.runAt.val

section Dated

variable {next : String → ℤ → Except String ℤ} {db : Db} {e : Event} {r r' : LiveRow}

theorem LiveRow.Dated.int (h : r.Dated) {now : Clock} (hle : r.runAt.val ≤ now) :
    ∃ v, r.runAt = .int v := by
  rcases h with h | ⟨-, hlate⟩
  · exact h
  · have hlt := now.lt
    omega

theorem LiveRow.Dated.int_of_processing (h : r.Dated) (hst : r.state = .processing) :
    ∃ v, r.runAt = .int v := by
  rcases h with h | ⟨hs, -⟩
  · exact h
  · exact absurd (hst.symm.trans hs) (by simp)

theorem LiveRow.Dated.step (h : r.Dated) (hstep : RowStep e r r') : r'.Dated := by
  cases hstep with
  | kept ret => exact h
  | promoted ret guard out => exact Or.inl (h.int guard.scheduled.2)
  | claimed worker timeout job ret row guard =>
    obtain ⟨-, -, hdue, -⟩ := guard.eligible
    rcases hdue with ⟨-, hrun⟩ | ⟨hst, -⟩
    · exact Or.inl (h.int hrun)
    · exact Or.inl (h.int_of_processing hst)
  | extended extend ret guard out => exact Or.inl (h.int_of_processing guard.processing)
  | requeued delay ret guard out =>
    obtain ⟨-, -, hrange⟩ := guard.processing
    have hpos := (e.input.clk 0).pos
    have hlow := hrange.1
    by_cases hr : InRange (e.input.clk 0 + delay)
    · exact Or.inl ⟨_, add_of_inRange hr⟩
    · have hover : (2 : ℤ) ^ 63 ≤ e.input.clk 0 + delay := by
        by_contra hlt
        exact hr ⟨by omega, by omega⟩
      have hclk := (e.input.clk 0).inRange
      have hdelay : delay > 0 := by
        have hlt := hclk.2
        omega
      exact Or.inr ⟨by simp [LiveRow.requeued, hdelay], le_val_add hclk hrange hover⟩

theorem dated_run (next : String → ℤ → Except String ℤ) (calls : List Call) :
    ∀ r ∈ (final (exec next) Db.fresh calls).live.rows, r.Dated :=
  final_invariant (P := fun db ↦ ∀ r ∈ db.live.rows, r.Dated) (exec next) Db.fresh
    (fun r hr ↦ by simp [Db.fresh, Table.empty] at hr)
    (fun db c hdb ↦ rows_step next db c (fun _ hfresh _ ↦ Or.inl hfresh.runAt)
      (fun _ _ hr hstep ↦ hr.step hstep) hdb) calls

end Dated

section Token

variable {next : String → ℤ → Except String ℤ} {db : Db} {c : Call} {j a : ℤ} {w : String}
  {r : LiveRow}

theorem tokenFor_iff : r.tokenFor j w a = true ↔
    r.id = j ∧ r.workerId = some w ∧ r.attempts = a ∧ r.state = .processing := by
  simp only [LiveRow.tokenFor, Bool.and_eq_true, decide_eq_true_eq]
  tauto

theorem retried_row (hop : c.op.retries j = true) (hout : (exec next db c).1 = .count 1)
    (hr : (exec next db c).2.live.find? j = some r) :
    r.state ≠ .processing ∧ r.workerId = none ∧
      ∃ s, db.live.find? j = some s ∧ r.attempts = s.attempts := by
  have hretry {worker error : String} {delay : I64} {attempt : Option ℤ}
      (hexec : exec next db c = (.ofCount (retryWith j worker delay error attempt c.clk db).1,
        (retryWith j worker delay error attempt c.clk db).2)) :
      r.state ≠ .processing ∧ r.workerId = none ∧
        ∃ s, db.live.find? j = some s ∧ r.attempts = s.attempts := by
    rw [hexec] at hr hout
    rcases retryWith_cases j worker delay error attempt c.clk db with
      ⟨s, hs, hg, ha, heq⟩ | ⟨s, db', hs, hg, ha, heq, hmoved⟩ | ⟨-, -, ⟨hzero, -⟩ | ⟨err, herr, -⟩⟩
    · rw [heq] at hr
      have hfind := Table.find?_update db.live
        (fun r ↦ retryGuard j worker attempt (c.clk 0) r && r.hasAttempts)
        (LiveRow.requeued delay (c.clk 0)) (LiveRow.id_requeued delay (c.clk 0)) j
      have hnew : r = s.requeued delay (c.clk 0) := by
        have hsome := hr.symm.trans hfind
        simpa [hs, hg, ha] using hsome
      rw [hnew]
      refine ⟨?_, rfl, s, hs, rfl⟩
      simp only [LiveRow.requeued]
      split_ifs <;> simp
    · rw [heq] at hr
      obtain ⟨hgone, -⟩ := hmoved.gone hs (by simp [hg, ha])
      exact absurd (hgone.symm.trans hr) (by simp)
    · simp [hzero, Ret.ofCount] at hout
    · simp [herr, Ret.ofCount] at hout
  cases hc : c.op with
  | retry job worker delay error =>
    obtain rfl : job = j := by simpa [hc, Op.retries] using hop
    exact hretry (by simp only [exec, hc, retry]; rfl)
  | retryFenced job worker delay error attempt =>
    obtain rfl : job = j := by simpa [hc, Op.retries] using hop
    exact hretry (by simp only [exec, hc, retryFenced]; rfl)
  | _ => simp [hc, Op.retries] at hop

theorem retries_of_requeues {delay : ℤ} (h : Requeues c r delay) : c.op.retries r.id = true := by
  unfold Requeues at h
  split at h
  · simp_all [Op.retries, LiveRow.processingFor]
  · simp_all [Op.retries, LiveRow.tokenFor]
  · exact h.elim

theorem Held.step (h : Held db j w a) (c : Call) (hend : ends (event (exec next) db c) j = false) :
    Held (exec next db c).2 j w a := by
  obtain ⟨r, hr, htok⟩ := h
  obtain ⟨hid, hw, ha, hst⟩ := tokenFor_iff.mp htok
  simp only [ends, Bool.or_eq_false_iff, decide_eq_false_iff_not, not_not] at hend
  obtain ⟨⟨hret, hleft⟩, hretry⟩ := hend
  have hstays : ∃ r', (exec next db c).2.live.find? j = some r' := by
    cases hpost : (exec next db c).2.live.find? j with
    | some r' => exact ⟨r', rfl⟩
    | none => simp [event, hr, hpost] at hleft
  obtain ⟨r', hr'⟩ := hstays
  refine ⟨r', hr', tokenFor_iff.mpr ?_⟩
  rcases row_step next db c hr' with ⟨hnone, -⟩ | ⟨s, hs, hrow⟩
  · exact absurd (hnone.symm.trans hr) (by simp)
  cases hs.symm.trans hr
  cases hrow with
  | kept ret => exact ⟨hid, hw, ha, hst⟩
  | promoted ret guard out => exact absurd (guard.scheduled.1.symm.trans hst) (by simp)
  | claimed worker timeout job ret row guard =>
    rw [hid] at ret
    exact absurd (ret.symm.trans hret) (by simp)
  | extended extend ret guard out => exact ⟨hid, hw, ha, hst⟩
  | requeued delay ret guard out =>
    have hop := retries_of_requeues guard
    rw [hid] at hop
    simp [hop, out] at hretry

theorem Past.step (h : Past db j a) (c : Call) : Past (exec next db c).2 j a := by
  obtain ⟨hseq, hrow⟩ := h
  refine ⟨hseq.trans (seq_mono next db c), fun r' hr' ↦ ?_⟩
  rcases row_step next db c hr' with ⟨-, -, hmem⟩ | ⟨r, hr, hstep⟩
  · exact absurd hseq (not_le.mpr (mem_issued hmem).1)
  have hold := hrow r hr
  cases hstep with
  | kept ret => exact hold
  | promoted ret guard out =>
    rcases hold with hlt | ⟨heq, -⟩
    · exact Or.inl hlt
    · exact Or.inr ⟨heq, by simp [LiveRow.promoted]⟩
  | claimed worker timeout job ret row guard =>
    left
    change a < r.attempts + 1
    rcases hold with hlt | ⟨heq, -⟩ <;> omega
  | extended extend ret guard out => exact hold
  | requeued delay ret guard out =>
    rcases hold with hlt | ⟨heq, hst⟩
    · exact Or.inl hlt
    · exact absurd guard.processing.1 hst

theorem Held.past (hl : Ledger db) (h : Held db j w a) (c : Call)
    (hend : ends (event (exec next) db c) j = true) : Past (exec next db c).2 j a := by
  obtain ⟨r, hr, htok⟩ := h
  obtain ⟨hid, hw, ha, hst⟩ := tokenFor_iff.mp htok
  refine ⟨(hl.live j r hr).trans (seq_mono next db c), fun r' hr' ↦ ?_⟩
  simp only [ends, Bool.or_eq_true, decide_eq_true_eq, Bool.and_eq_true] at hend
  rcases hend with (hret | ⟨-, hleft⟩) | ⟨hop, hout⟩
  · rcases return_step next db c j with hnil | ⟨s, worker, timeout, job, hs, hpost, -⟩
    · exact absurd hnil hret
    · cases hs.symm.trans hr
      cases hr'.symm.trans hpost
      left
      change a < r.attempts + 1
      omega
  · simp [event, hr'] at hleft
  · obtain ⟨hne, -, s, hs, hatt⟩ := retried_row hop hout hr'
    cases hs.symm.trans hr
    exact Or.inr ⟨by omega, hne⟩

theorem Past.not_token (h : Past db j a) (hr : db.live.find? j = some r) (w : String) :
    r.tokenFor j w a = false := by
  by_contra hc
  obtain ⟨-, -, ha, hst⟩ := tokenFor_iff.mp (by simpa using hc)
  rcases h.2 r hr with hlt | ⟨-, hne⟩
  · omega
  · exact hne hst

end Token

section Present

variable {next : String → ℤ → Except String ℤ} {db : Db} {c : Call} {j a : ℤ} {w : String}
  {p : LiveRow → Bool}

/-- The fenced calls, when they carry the token `a` of job `j` and worker `w`. -/
def Op.presents (j : ℤ) (w : String) (a : ℤ) : Op → Prop
  | .ackFenced job worker attempt | .retryFenced job worker _ _ attempt
  | .failFenced job worker _ attempt | .heartbeatFenced job worker _ attempt =>
    job = j ∧ worker = w ∧ attempt = a
  | _ => False

theorem filter_hit {r : LiveRow} (hp : ∀ r, p r = true → r.id = j) (hr : db.live.find? j = some r)
    (hpr : p r = true) : db.live.rows.filter p = [r] := by
  rw [db.live.filter_key hp, hr]
  simp [Option.filter, hpr]

theorem filter_miss (hp : ∀ r, p r = true → r.id = j)
    (hmiss : ∀ r, db.live.find? j = some r → p r = false) : ∀ r ∈ db.live.rows, p r = false := by
  intro r hr
  by_contra hc
  have hid := hp r (by simpa using hc)
  exact hc (hmiss r (hid ▸ Table.find?_of_mem hr))

theorem deleteCount_miss (h : ∀ r ∈ db.live.rows, p r = false) : deleteCount p db = (.ok 0, db) := by
  have hnil : db.live.rows.filter p = [] := List.filter_eq_nil_iff.mpr fun r hr ↦ by simp [h r hr]
  simp only [deleteCount, deleteLive, hnil, Table.delete_of_forall_not h]
  rfl

theorem updateLive_miss {f : LiveRow → LiveRow} {hf : ∀ r, (f r).id = r.id}
    (h : ∀ r ∈ db.live.rows, p r = false) : updateLive p f hf db = (0, db) := by
  have hnil : db.live.rows.filter p = [] := List.filter_eq_nil_iff.mpr fun r hr ↦ by simp [h r hr]
  simp only [updateLive, hnil, Table.update_of_forall_not h]
  rfl

theorem tokenFor_id (r : LiveRow) (h : r.tokenFor j w a = true) : r.id = j := (tokenFor_iff.mp h).1

theorem held_runAt {r : LiveRow} (hdated : ∀ r ∈ db.live.rows, r.Dated)
    (hr : db.live.find? j = some r) (htok : r.tokenFor j w a = true) : ∃ v, r.runAt = .int v :=
  (hdated r (Table.find?_eq_some.mp hr).1).int_of_processing (tokenFor_iff.mp htok).2.2.2

theorem retryFenced_held (hdb : db.Apart) (hdated : ∀ r ∈ db.live.rows, r.Dated) (h : Held db j w a)
    (delay : I64) (error : String) (clk : ℕ → Clock) :
    (retryFenced j w delay error a clk db).1 = .ok 1 := by
  obtain ⟨r, hr, htok⟩ := h
  rcases retryWith_cases j w delay error (some a) clk db with
    ⟨-, -, -, -, heq⟩ | ⟨-, db', -, -, -, heq, -⟩ | ⟨-, hspent, hend⟩
  · rw [retryFenced, heq]
  · rw [retryFenced, heq]
  · have hnone : r.hasAttempts = false := hspent r hr htok
    rcases hend with ⟨-, hleft⟩ | ⟨err, -, hbury⟩
    · exact absurd (hleft r hr htok htok) (by simp [hnone])
    · have hpr : (retryGuard j w (some a) (clk 2) r && !r.hasAttempts) = true := by
        simpa [retryGuard, hnone] using htok
      rcases buryWhere_hit (p := fun r ↦ retryGuard j w (some a) (clk 2) r && !r.hasAttempts)
        (fun r hr ↦ retryGuard_id (Bool.and_eq_true_iff.mp hr).1) hr hpr (hdb j r hr) error (clk 3)
        with ⟨-, db', hok⟩ | ⟨⟨v, hv⟩, -⟩
      · exact absurd (hok.symm.trans hbury) (by simp)
      · obtain ⟨x, hx⟩ := held_runAt hdated hr htok
        exact absurd (hv.symm.trans hx) (by simp)

theorem failFenced_held (hdb : db.Apart) (hdated : ∀ r ∈ db.live.rows, r.Dated) (h : Held db j w a)
    (error : String) (clk : ℕ → Clock) : (failFenced j w error a clk db).1 = .ok 1 := by
  obtain ⟨r, hr, htok⟩ := h
  rcases buryWhere_hit (fun r ↦ failGuard_id) hr (p := failGuard j w (some a) (clk 0)) htok
    (hdb j r hr) error (clk 1) with ⟨-, db', hok⟩ | ⟨⟨v, hv⟩, -⟩
  · rw [failFenced, failInner, hok]
    rfl
  · obtain ⟨x, hx⟩ := held_runAt hdated hr htok
    exact absurd (hv.symm.trans hx) (by simp)

theorem Held.accepted (hdb : db.Apart) (hdated : ∀ r ∈ db.live.rows, r.Dated) (h : Held db j w a)
    (hop : c.op.presents j w a) : (exec next db c).1 = .count 1 := by
  obtain ⟨r, hr, htok⟩ := id h
  have hfilter := filter_hit tokenFor_id hr htok
  cases hc : c.op with
  | ackFenced job worker attempt =>
    obtain ⟨rfl, rfl, rfl⟩ : job = j ∧ worker = w ∧ attempt = a := by simpa [hc, Op.presents] using hop
    simp [exec, hc, ackFenced, deleteCount, deleteLive, hfilter, Ret.ofCount]
  | retryFenced job worker delay error attempt =>
    obtain ⟨rfl, rfl, rfl⟩ : job = j ∧ worker = w ∧ attempt = a := by simpa [hc, Op.presents] using hop
    simp only [exec, hc, retryFenced_held hdb hdated h, Ret.ofCount]
  | failFenced job worker error attempt =>
    obtain ⟨rfl, rfl, rfl⟩ : job = j ∧ worker = w ∧ attempt = a := by simpa [hc, Op.presents] using hop
    simp only [exec, hc, failFenced_held hdb hdated h, Ret.ofCount]
  | heartbeatFenced job worker extend attempt =>
    obtain ⟨rfl, rfl, rfl⟩ : job = j ∧ worker = w ∧ attempt = a := by simpa [hc, Op.presents] using hop
    simp [exec, hc, heartbeatFenced, updateLive, hfilter, Ret.ofCount]
  | _ => simp [hc, Op.presents] at hop

theorem Past.refused (h : Past db j a) (hop : c.op.presents j w a) :
    exec next db c = (.count 0, db) := by
  have hnot : ∀ r, db.live.find? j = some r → r.tokenFor j w a = false := fun r hr ↦ h.not_token hr w
  have hmiss := filter_miss tokenFor_id hnot
  cases hc : c.op with
  | ackFenced job worker attempt =>
    obtain ⟨rfl, rfl, rfl⟩ : job = j ∧ worker = w ∧ attempt = a := by simpa [hc, Op.presents] using hop
    simp [exec, hc, ackFenced, deleteCount_miss hmiss, Ret.ofCount]
  | retryFenced job worker delay error attempt =>
    obtain ⟨rfl, rfl, rfl⟩ : job = j ∧ worker = w ∧ attempt = a := by simpa [hc, Op.presents] using hop
    simp only [exec, hc, retryFenced]
    rcases retryWith_cases job worker delay error (some attempt) c.clk db with
      ⟨r, hr, hg, -⟩ | ⟨r, db', hr, hg, -⟩ | ⟨hsame, -, ⟨hzero, -⟩ | ⟨err, -, hbury⟩⟩
    · exact absurd hg (by simp [retryGuard, hnot r hr])
    · exact absurd hg (by simp [retryGuard, hnot r hr])
    · rw [hsame, hzero]
      rfl
    · rw [buryWhere_miss (fun r hr ↦ retryGuard_id (Bool.and_eq_true_iff.mp hr).1)
        (fun r hr ↦ by simp [retryGuard, hnot r hr])] at hbury
      cases hbury
  | failFenced job worker error attempt =>
    obtain ⟨rfl, rfl, rfl⟩ : job = j ∧ worker = w ∧ attempt = a := by simpa [hc, Op.presents] using hop
    have hbury : failInner job worker error (some attempt) c.clk db = .ok (0, db) :=
      buryWhere_miss (fun r ↦ failGuard_id) hnot error (c.clk 1)
    simp only [exec, hc, failFenced, hbury]
    rfl
  | heartbeatFenced job worker extend attempt =>
    obtain ⟨rfl, rfl, rfl⟩ : job = j ∧ worker = w ∧ attempt = a := by simpa [hc, Op.presents] using hop
    simp [exec, hc, heartbeatFenced, updateLive_miss hmiss, Ret.ofCount]
  | _ => simp [hc, Op.presents] at hop

/-- The pair `[j, a]` in the array of `ack_batch`. -/
def AckElem.token (j a : ℤ) : AckElem := .pair (some j) (some a)

theorem Held.acked (hdb : db.Apart) (h : Held db j w a) {elems : List AckElem}
    (hop : c.op = .ackBatch (some elems) w) (hmem : AckElem.token j a ∈ elems) :
    j ∈ removed (event (exec next) db c) ∧
      (exec next db c).1 = .count (removed (event (exec next) db c)).length := by
  obtain ⟨r, hr, htok⟩ := h
  obtain ⟨hid, hw, ha, hst⟩ := tokenFor_iff.mp htok
  have hsel : AckElem.selects elems w (c.clk 0) r = true := by
    have hhead : some r.id ∈ elems.map AckElem.head := by
      rw [hid]
      exact List.mem_map.mpr ⟨_, hmem, rfl⟩
    have hpair : AckElem.pair (some r.id) (some r.attempts) ∈ elems := by
      rw [hid, ha]
      exact hmem
    simp [AckElem.selects, hhead, hpair, hw, hst]
  have hrem := removed_of_delete (e := event (exec next) db c)
    (p := AckElem.selects elems w (c.clk 0)) hdb
    (by simp only [event, exec, hop, ackBatch, deleteCount, deleteLive])
    (by simp only [event, exec, hop, ackBatch, deleteCount, deleteLive])
  refine ⟨?_, ?_⟩
  · rw [hrem, ← hid]
    exact List.mem_map_of_mem (List.mem_filter.mpr ⟨(Table.find?_eq_some.mp hr).1, hsel⟩)
  · have hkind : c.op.isRemoval = true := by simp [hop, Op.isRemoval]
    rcases (removal_output hdb hkind : (exec next db c).1 = _ ∨ _) with hout | ⟨hout, -⟩
    · exact hout
    · simp [exec, hop, ackBatch, deleteCount, Ret.ofCount] at hout

theorem selects_iff {elems : List AckElem} {now : ℤ} {r : LiveRow} :
    AckElem.selects elems w now r = true ↔ r.workerId = some w ∧
      (r.leased now ∧ AckElem.id (some r.id) ∈ elems ∨
        r.state = .processing ∧ AckElem.token r.id r.attempts ∈ elems) := by
  simp only [AckElem.selects, Bool.and_eq_true, Bool.or_eq_true, decide_eq_true_eq]
  refine ⟨fun h ↦ ⟨h.1.2, h.2⟩, fun h ↦ ⟨⟨?_, h.1⟩, h.2⟩⟩
  rcases h.2 with ⟨-, hmem⟩ | ⟨-, hmem⟩
  · exact List.mem_map.mpr ⟨_, hmem, rfl⟩
  · exact List.mem_map.mpr ⟨_, hmem, rfl⟩

/-- A spent pair in the array of `ack_batch` contributes nothing. -/
theorem Past.unacked (h : Past db j a) {elems : List AckElem} (hop : c.op = .ackBatch (some elems) w) :
    exec next db c =
      exec next db ⟨.ackBatch (some (elems.filter (fun x ↦ x ≠ AckElem.token j a))) w, c.clk, c.emit,
        c.emitTasks, c.faults⟩ := by
  have hsel : ∀ r ∈ db.live.rows, AckElem.selects elems w (c.clk 0) r =
      AckElem.selects (elems.filter (fun x ↦ x ≠ AckElem.token j a)) w (c.clk 0) r := by
    intro r hr
    rw [Bool.eq_iff_iff, selects_iff, selects_iff]
    refine and_congr_right fun hw ↦ or_congr (and_congr_right fun _ ↦ ?_) (and_congr_right fun hst ↦ ?_)
    · simp [AckElem.token]
    · have hne : AckElem.token r.id r.attempts ≠ AckElem.token j a := by
        intro heq
        obtain ⟨hid, ha⟩ : r.id = j ∧ r.attempts = a := by simpa [AckElem.token] using heq
        have hfind : db.live.find? j = some r := hid ▸ Table.find?_of_mem hr
        have htok : r.tokenFor j w a = true := tokenFor_iff.mpr ⟨hid, hw, ha, hst⟩
        exact absurd htok (by simp [h.not_token hfind w])
      simp [hne]
  have hfilter : db.live.rows.filter (AckElem.selects elems w (c.clk 0)) =
      db.live.rows.filter
        (AckElem.selects (elems.filter (fun x ↦ x ≠ AckElem.token j a)) w (c.clk 0)) :=
    List.filter_congr hsel
  have hdelete : db.live.delete (AckElem.selects elems w (c.clk 0)) =
      db.live.delete
        (AckElem.selects (elems.filter (fun x ↦ x ≠ AckElem.token j a)) w (c.clk 0)) :=
    Table.ext (List.filter_congr fun r hr ↦ by rw [hsel r hr])
  simp only [exec, hop, ackBatch, deleteCount, deleteLive]
  rw [hfilter, hdelete]

end Present

section Run

variable {next : String → ℤ → Except String ℤ} {db : Db} {c : Call} {j a : ℤ} {w : String}

theorem held_of_returned {job : ClaimedJob} (h : job ∈ returned (event (exec next) db c)) :
    Held (exec next db c).2 job.id job.workerId job.attempts := by
  have hmem : job ∈ returns (event (exec next) db c) job.id :=
    List.mem_filter.mpr ⟨h, by simp⟩
  rcases return_step next db c job.id with ret | ⟨r, worker, timeout, job', -, post, ret, row, -⟩
  · simp [ret] at hmem
  · rw [ret, List.mem_singleton] at hmem
    subst hmem
    obtain ⟨hid, -, -, hw, ha, -, -⟩ := ofRow_ok row
    exact ⟨_, post, tokenFor_iff.mpr ⟨hid.symm, hw, ha.symm, rfl⟩⟩

theorem Past.run (next : String → ℤ → Except String ℤ) (h : Past db j a) (calls : List Call) :
    Past (final (exec next) db calls) j a :=
  final_invariant (P := fun t ↦ Past t j a) (exec next) db h (fun _ c ht ↦ ht.step c) calls

/-- A claim is held until a call ends it, and over from then on. -/
theorem held_run (next : String → ℤ → Except String ℤ) (hl : Ledger db) (h : Held db j w a)
    (calls : List Call) :
    if (trace (exec next) db calls).any (fun e ↦ ends e j) then Past (final (exec next) db calls) j a
    else Held (final (exec next) db calls) j w a := by
  induction calls generalizing db with
  | nil => simpa [trace, final] using h
  | cons c calls ih =>
    cases hend : ends (event (exec next) db c) j with
    | true =>
      have hpast := (h.past hl c hend).run next calls
      simpa [trace, final, hend] using hpast
    | false =>
      have hrest := ih (hl.step c) (h.step c hend)
      simpa [trace, final, hend] using hrest

/-- The call finished, retried or failed the claim `a` of `j` by its token. -/
def succeeds (e : Event) (j a : ℤ) : Bool :=
  match e.input.op with
  | .ackFenced job _ attempt | .retryFenced job _ _ _ attempt | .failFenced job _ _ attempt =>
    decide (job = j ∧ attempt = a ∧ e.output = .count 1)
  | .ackBatch (some elems) worker =>
    decide (AckElem.token j a ∈ elems) && (e.pre.live.find? j).any (fun r ↦ r.tokenFor j worker a)
  | _ => false

theorem left_of_delete {p : LiveRow → Bool} {r : LiveRow}
    (hexec : exec next db c = (.ofCount (deleteCount p db).1, (deleteCount p db).2))
    (hr : db.live.find? j = some r) (hp : p r = true) : ends (event (exec next) db c) j = true := by
  have hpost : (exec next db c).2.live.find? j = none := by
    rw [hexec]
    exact (Table.find?_delete db.live p j).trans (by simp [hr, Option.filter, hp])
  simp [ends, event, hr, hpost]

theorem held_of_succeeds (h : succeeds (event (exec next) db c) j a = true) :
    ∃ w, Held db j w a ∧ ends (event (exec next) db c) j = true := by
  cases hop : c.op with
  | ackFenced job worker attempt =>
    simp only [succeeds, event, hop] at h
    obtain ⟨rfl, rfl, hout⟩ := of_decide_eq_true h
    have hlen : (db.live.rows.filter (LiveRow.tokenFor job worker attempt)).length = 1 := by
      simpa [exec, hop, ackFenced, deleteCount, deleteLive, Ret.ofCount] using hout
    obtain ⟨r, hr⟩ := List.length_eq_one_iff.mp hlen
    obtain ⟨hrow, htok⟩ := List.mem_filter.mp (hr ▸ List.mem_singleton_self r)
    have hfind : db.live.find? job = some r :=
      Table.find?_eq_some.mpr ⟨hrow, tokenFor_id r htok⟩
    exact ⟨worker, ⟨r, hfind, htok⟩, left_of_delete (by simp only [exec, hop]; rfl) hfind htok⟩
  | retryFenced job worker delay error attempt =>
    simp only [succeeds, event, hop] at h
    obtain ⟨rfl, rfl, hout⟩ := of_decide_eq_true h
    have hend : ends (event (exec next) db c) job = true := by
      simp [ends, event, hop, Op.retries, hout]
    simp only [exec, hop, retryFenced] at hout
    rcases retryWith_cases job worker delay error (some attempt) c.clk db with
      ⟨r, hr, hg, -⟩ | ⟨r, db', hr, hg, -⟩ | ⟨-, -, ⟨hzero, -⟩ | ⟨err, herr, -⟩⟩
    · exact ⟨worker, ⟨r, hr, hg⟩, hend⟩
    · exact ⟨worker, ⟨r, hr, hg⟩, hend⟩
    · simp [hzero, Ret.ofCount] at hout
    · simp [herr, Ret.ofCount] at hout
  | failFenced job worker error attempt =>
    simp only [succeeds, event, hop] at h
    obtain ⟨rfl, rfl, hout⟩ := of_decide_eq_true h
    cases hfail : failInner job worker error (some attempt) c.clk db with
    | error err => simp [exec, hop, failFenced, hfail, atomically, Ret.ofCount] at hout
    | ok x =>
      obtain ⟨n, db'⟩ := x
      rcases buryWhere_ok (fun r ↦ failGuard_id) hfail with ⟨-, rfl, -⟩ | ⟨⟨r, hr, hg, -⟩, hmoved⟩
      · simp [exec, hop, failFenced, hfail, atomically, Ret.ofCount] at hout
      · have hpost : (exec next db c).2.live.find? job = none := by
          simpa [exec, hop, failFenced, hfail, atomically] using (hmoved.gone hr hg).1
        exact ⟨worker, ⟨r, hr, hg⟩, by simp [ends, event, hr, hpost]⟩
  | ackBatch elems worker =>
    cases elems with
    | none => simp [succeeds, event, hop] at h
    | some elems =>
      simp only [succeeds, event, hop, Bool.and_eq_true, decide_eq_true_eq] at h
      obtain ⟨hmem, htok⟩ := h
      obtain ⟨r, hr, htok⟩ := (Option.any_eq_true _ _).mp htok
      obtain ⟨hid, hw, ha, hst⟩ := tokenFor_iff.mp htok
      have hsel : AckElem.selects elems worker (c.clk 0) r = true :=
        selects_iff.mpr ⟨hw, Or.inr ⟨hst, hid ▸ ha ▸ hmem⟩⟩
      exact ⟨worker, ⟨r, hr, htok⟩, left_of_delete (by simp only [exec, hop]; rfl) hr hsel⟩
  | _ => simp [succeeds, event, hop] at h

theorem Past.not_succeeds (h : Past db j a) : succeeds (event (exec next) db c) j a = false := by
  by_contra hc
  obtain ⟨w, ⟨r, hr, htok⟩, -⟩ := held_of_succeeds (by simpa using hc)
  exact absurd htok (by simp [h.not_token hr w])

theorem succeeds_once (next : String → ℤ → Except String ℤ) (calls : List Call) (j a : ℤ) :
    (trace (exec next) Db.fresh calls).countP (fun e ↦ succeeds e j a) ≤ 1 := by
  let count (h : List Event) : ℕ := h.countP (fun e ↦ succeeds e j a)
  have hrun : Ledger (final (exec next) Db.fresh calls) ∧
      (count (trace (exec next) Db.fresh calls) = 0 ∨
        count (trace (exec next) Db.fresh calls) = 1 ∧ Past (final (exec next) Db.fresh calls) j a) := by
    refine history_induction (P := fun h db ↦ Ledger db ∧ (count h = 0 ∨ count h = 1 ∧ Past db j a))
      (exec next) Db.fresh ⟨Ledger.fresh, Or.inl rfl⟩ ?_ calls
    intro h db c ih
    refine ⟨ih.1.step c, ?_⟩
    have hsnoc : count (h ++ [event (exec next) db c]) =
        count h + if succeeds (event (exec next) db c) j a then 1 else 0 := by
      simp [count, List.countP_append, List.countP_cons]
    rcases ih.2 with hzero | ⟨hone, hpast⟩
    · cases hs : succeeds (event (exec next) db c) j a with
      | false => exact Or.inl (by simp [hsnoc, hzero, hs])
      | true =>
        obtain ⟨w, hheld, hend⟩ := held_of_succeeds hs
        exact Or.inr ⟨by simp [hsnoc, hzero, hs], hheld.past ih.1 c hend⟩
    · exact Or.inr ⟨by simp [hsnoc, hone, hpast.not_succeeds], hpast.step c⟩
  rcases hrun.2 with hzero | ⟨hone, -⟩
  · exact hzero.le.trans (by norm_num)
  · exact hone.le

theorem nodup_pairs {α β γ : Type} [DecidableEq β] {f : α → β} {g : α → γ} {l : List α}
    (h : ∀ b, ((l.filter (fun x ↦ f x = b)).map g).Nodup) : (l.map (fun x ↦ (f x, g x))).Nodup := by
  induction l with
  | nil => simp
  | cons x l ih =>
    rw [List.map_cons, List.nodup_cons]
    refine ⟨fun hmem ↦ ?_, ih fun b ↦ (h b).sublist
      ((List.Sublist.filter _ (List.sublist_cons_self x l)).map g)⟩
    obtain ⟨y, hy, heq⟩ := List.mem_map.mp hmem
    obtain ⟨hf, hg⟩ := Prod.mk.inj heq
    have hx := h (f x)
    rw [List.filter_cons_of_pos (by simp), List.map_cons, List.nodup_cons] at hx
    exact hx.1 (List.mem_map.mpr ⟨y, List.mem_filter.mpr ⟨hy, by simp [hf]⟩, hg⟩)

theorem tokens_nodup (next : String → ℤ → Except String ℤ) (calls : List Call) :
    (((trace (exec next) Db.fresh calls).flatMap returned).map
      (fun job ↦ (job.id, job.attempts))).Nodup := by
  refine nodup_pairs fun j ↦ ?_
  have hfilter : ((trace (exec next) Db.fresh calls).flatMap returned).filter (fun job ↦ job.id = j) =
      claimsOf (trace (exec next) Db.fresh calls) j := by
    rw [List.filter_flatMap]
    rfl
  rw [hfilter, (numbered_run next calls).order j]
  refine List.Nodup.map (fun i k hik ↦ ?_) List.nodup_range
  simpa using hik

end Run

/-- A fencing token is accepted exactly while its claim is current, whatever the interleaving and
the clock, and is refused without effect afterwards; no two claims share a token, and at most one
of the calls that carry a token ever finishes its claim. -/
theorem fencing_token_safety (next : String → ℤ → Except String ℤ) (calls : List Call) :
    (∀ before c middle, calls = before ++ c :: middle →
      ∀ job ∈ returned (event (exec next) (final (exec next) Db.fresh before) c),
        let db := final (exec next) Db.fresh calls
        let since := trace (exec next) (final (exec next) Db.fresh (before ++ [c])) middle
        let ended := since.any (fun e ↦ ends e job.id)
        (∀ c', c'.op.presents job.id job.workerId job.attempts →
          (ended = false → (exec next db c').1 = .count 1) ∧
          (ended = true → exec next db c' = (.count 0, db))) ∧
        ∀ c' elems, c'.op = .ackBatch (some elems) job.workerId →
          AckElem.token job.id job.attempts ∈ elems →
          (ended = false → job.id ∈ removed (event (exec next) db c') ∧
            (exec next db c').1 = .count (removed (event (exec next) db c')).length) ∧
          (ended = true → exec next db c' = exec next db
            ⟨.ackBatch (some (elems.filter (fun x ↦ x ≠ AckElem.token job.id job.attempts)))
              job.workerId, c'.clk, c'.emit, c'.emitTasks, c'.faults⟩)) ∧
    (((trace (exec next) Db.fresh calls).flatMap returned).map
      (fun job ↦ (job.id, job.attempts))).Nodup ∧
    ∀ j a, (trace (exec next) Db.fresh calls).countP (fun e ↦ succeeds e j a) ≤ 1 := by
  refine ⟨?_, tokens_nodup next calls, succeeds_once next calls⟩
  intro before c middle hcalls job hjob db since ended
  have happart : db.Apart := (Ledger.run next calls).apart
  have hdated := dated_run next calls
  have hsplit : db = final (exec next) (final (exec next) Db.fresh (before ++ [c])) middle := by
    rw [← final_append]
    simp [db, hcalls]
  have hheld : Held (final (exec next) Db.fresh (before ++ [c])) job.id job.workerId job.attempts := by
    rw [final_snoc]
    exact held_of_returned hjob
  have hrun := held_run next (Ledger.run next (before ++ [c])) hheld middle
  rw [← hsplit] at hrun
  refine ⟨fun c' hop ↦ ⟨fun hend ↦ ?_, fun hend ↦ ?_⟩,
    fun c' elems hop hmem ↦ ⟨fun hend ↦ ?_, fun hend ↦ ?_⟩⟩
  · rw [if_neg (by simpa [ended, since] using hend)] at hrun
    exact hrun.accepted happart hdated hop
  · rw [if_pos hend] at hrun
    exact hrun.refused hop
  · rw [if_neg (by simpa [ended, since] using hend)] at hrun
    exact hrun.acked happart hop hmem
  · rw [if_pos hend] at hrun
    exact hrun.unacked hop

end Honker
