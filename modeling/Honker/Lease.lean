import Honker.Fencing

namespace Honker

open Relational Numeric Transition

/-- The worker that a call acts for on jobs it holds. -/
def Op.actor : Op → Option String
  | .ack _ worker | .ackFenced _ worker _ | .ackBatch _ worker | .retry _ worker _ _
  | .retryFenced _ worker _ _ _ | .fail _ worker _ | .failFenced _ worker _ _
  | .heartbeat _ worker _ | .heartbeatFenced _ worker _ _ => some worker
  | _ => none

def Op.cancels (j : ℤ) : Op → Bool
  | .cancel job | .cancelInQueue _ job => job = j
  | _ => false

/-- The unfenced calls of worker `w` on job `j`. -/
def Op.unfenced (j : ℤ) (w : String) : Op → Prop
  | .ack job worker | .retry job worker _ _ | .fail job worker _ | .heartbeat job worker _ =>
    job = j ∧ worker = w
  | _ => False

section Guards

variable {c : Call} {r : LiveRow}

theorem Extends.actor {extend : ℤ} (h : Extends c r extend) : c.op.actor = r.workerId := by
  unfold Extends at h
  split at h
  · rename_i hop
    simp only [LiveRow.processingFor, Bool.and_eq_true, decide_eq_true_eq] at h
    rw [hop, h.2.1.1.2]
    rfl
  · rename_i hop
    simp only [LiveRow.tokenFor, Bool.and_eq_true, decide_eq_true_eq] at h
    rw [hop, h.2.1.1.2]
    rfl
  · exact h.elim

theorem Requeues.actor {delay : ℤ} (h : Requeues c r delay) : c.op.actor = r.workerId := by
  unfold Requeues at h
  split at h
  · rename_i hop
    simp only [LiveRow.processingFor, Bool.and_eq_true, decide_eq_true_eq] at h
    rw [hop, h.2.1.1.1.2]
    rfl
  · rename_i hop
    simp only [LiveRow.tokenFor, Bool.and_eq_true, decide_eq_true_eq] at h
    rw [hop, h.2.1.1.1.2]
    rfl
  · exact h.elim

theorem Removes.actor (h : Removes c r) : c.op.actor = r.workerId ∨ c.op.cancels r.id = true := by
  unfold Removes at h
  split at h
  · rename_i hop
    simp only [LiveRow.heldBy, Bool.and_eq_true, decide_eq_true_eq] at h
    rw [hop, h.1.2]
    exact Or.inl rfl
  · rename_i hop
    rw [hop, (tokenFor_iff.mp h).2.1]
    exact Or.inl rfl
  · rename_i hop
    rw [hop, (selects_iff.mp h).1]
    exact Or.inl rfl
  · rename_i hop
    rw [hop]
    exact Or.inr (by simp [Op.cancels, h])
  · rename_i hop
    rw [hop]
    exact Or.inr (by simp [Op.cancels, h.2])
  · exact h.elim

theorem Buries.actor {error : String} {diedAt : ℤ} (h : Buries c r error diedAt)
    (hst : r.state = .processing) : c.op.actor = r.workerId ∨ r.lapsed (c.clk 0) = true := by
  have hexpire {queue : String} (he : r.expirable queue (c.clk 0) = true) :
      r.lapsed (c.clk 0) = true := by
    simp only [LiveRow.expirable, Bool.and_eq_true] at he
    simpa [hst] using he.2
  unfold Buries at h
  split at h
  · right
    rcases h.2 with ⟨-, he⟩ | ⟨-, he⟩
    · exact hexpire he
    · simp only [LiveRow.exhausted, Bool.and_eq_true] at he
      exact he.1.2
  · exact Or.inr (hexpire h.2.2)
  · rename_i hop
    have hg := h.2.2.1
    simp only [LiveRow.processingFor, Bool.and_eq_true, decide_eq_true_eq] at hg
    rw [hop, hg.1.1.2]
    exact Or.inl rfl
  · rename_i hop
    rw [hop, (tokenFor_iff.mp h.2.2.1).2.1]
    exact Or.inl rfl
  · rename_i hop
    have hg := h.2.2
    simp only [LiveRow.heldBy, Bool.and_eq_true, decide_eq_true_eq] at hg
    rw [hop, hg.1.2]
    exact Or.inl rfl
  · rename_i hop
    rw [hop, (tokenFor_iff.mp h.2.2).2.1]
    exact Or.inl rfl
  · exact h.elim

end Guards

section Exclusive

variable {next : String → ℤ → Except String ℤ} {db : Db} {j : ℤ} {r : LiveRow} {w : String}

/-- Under a valid lease a call of anyone but the owner, other than a cancellation, leaves the row. -/
theorem leased_step (next : String → ℤ → Except String ℤ) {c : Call}
    (hr : db.live.find? j = some r) (hst : r.state = .processing) (hw : r.workerId = some w)
    (hlease : r.leased (c.clk 0) = true) (hactor : c.op.actor ≠ some w)
    (hcancel : c.op.cancels j = false) :
    (exec next db c).2.live.find? j = some r ∧
      (exec next db c).2.dead.find? j = db.dead.find? j ∧
      returns (event (exec next) db c) j = [] := by
  have hid : r.id = j := (Table.find?_eq_some.mp hr).2
  have hnot := not_lapsed hlease
  cases job_step next db c j with
  | kept live dead ret => exact ⟨live.trans hr, dead, ret⟩
  | enqueued s pre => exact absurd (hr.symm.trans pre) (by simp)
  | promoted s pre post dead ret guard out =>
    cases hr.symm.trans pre
    exact absurd (guard.scheduled.1.symm.trans hst) (by simp)
  | claimed s worker timeout job pre post dead ret row guard =>
    cases hr.symm.trans pre
    obtain ⟨-, -, ⟨hne, -⟩ | ⟨-, hlapsed⟩, -⟩ := guard.eligible
    · exact absurd hst hne
    · exact absurd (hnot.symm.trans hlapsed) (by simp)
  | extended s extend pre post dead ret guard out =>
    cases hr.symm.trans pre
    exact absurd (guard.actor.trans hw) hactor
  | requeued s delay pre post dead ret guard out =>
    cases hr.symm.trans pre
    exact absurd (guard.actor.trans hw) hactor
  | removed s pre post dead ret guard =>
    cases hr.symm.trans pre
    rcases guard.actor with ha | hc
    · exact absurd (ha.trans hw) hactor
    · exact absurd (hid ▸ hc : c.op.cancels j = true) (by simp [hcancel])
  | buried s error diedAt pre post free dead ret guard =>
    cases hr.symm.trans pre
    rcases guard.actor hst with ha | hlapsed
    · exact absurd (ha.trans hw) hactor
    · exact absurd (hnot.symm.trans hlapsed) (by simp)

theorem leased_run (next : String → ℤ → Except String ℤ) (hr : db.live.find? j = some r)
    (hst : r.state = .processing) (hw : r.workerId = some w) (calls : List Call)
    (hcalls : ∀ c ∈ calls, r.leased (c.clk 0) = true ∧ c.op.actor ≠ some w ∧ c.op.cancels j = false) :
    (final (exec next) db calls).live.find? j = some r ∧
      (final (exec next) db calls).dead.find? j = db.dead.find? j ∧
      ∀ e ∈ trace (exec next) db calls, returns e j = [] := by
  induction calls generalizing db with
  | nil => exact ⟨hr, rfl, by simp [trace]⟩
  | cons c calls ih =>
    obtain ⟨hlease, hactor, hcancel⟩ := hcalls c (by simp)
    obtain ⟨hlive, hdead, hret⟩ := leased_step next hr hst hw hlease hactor hcancel
    obtain ⟨hlive', hdead', hret'⟩ := ih hlive (fun c' hc' ↦ hcalls c' (by simp [hc']))
    refine ⟨hlive', hdead'.trans hdead, fun e he ↦ ?_⟩
    rcases List.mem_cons.mp he with rfl | he
    · exact hret
    · exact hret' e he

end Exclusive

section Owner

variable {next : String → ℤ → Except String ℤ} {db : Db} {j : ℤ} {r : LiveRow} {w : String}

/-- The last claim of `j` in the history was made for `w`, and no call has ended it since. -/
def ClaimedLast (h : List Event) (j : ℤ) (w : String) : Prop :=
  ∃ h₁ e h₂ job, h = h₁ ++ e :: h₂ ∧ job ∈ returned e ∧ job.id = j ∧ job.workerId = w ∧
    ∀ e' ∈ h₂, ends e' j = false

theorem ClaimedLast.snoc {h : List Event} {e : Event} (hc : ClaimedLast h j w)
    (hend : ends e j = false) : ClaimedLast (h ++ [e]) j w := by
  obtain ⟨h₁, e₁, h₂, job, rfl, hjob, hid, hw, hquiet⟩ := hc
  refine ⟨h₁, e₁, h₂ ++ [e], job, by simp, hjob, hid, hw, fun e' he' ↦ ?_⟩
  rcases List.mem_append.mp he' with he' | he'
  · exact hquiet e' he'
  · rw [List.mem_singleton.mp he']
    exact hend

theorem not_ends {c : Call} (hr : (exec next db c).2.live.find? j = some r)
    (hret : returns (event (exec next) db c) j = []) (hw : r.workerId = some w) :
    ends (event (exec next) db c) j = false := by
  by_contra hc
  rw [Bool.not_eq_false] at hc
  simp only [ends, Bool.or_eq_true, decide_eq_true_eq, Bool.and_eq_true] at hc
  rcases hc with (hne | ⟨-, hleft⟩) | ⟨hop, hout⟩
  · exact hne hret
  · simp [event, hr] at hleft
  · obtain ⟨-, hnone, -⟩ := retried_row hop hout hr
    exact absurd (hnone.symm.trans hw) (by simp)

/-- The `worker_id` of a live row is the worker of its job's last claim. -/
theorem owner_run (next : String → ℤ → Except String ℤ) (calls : List Call) :
    ∀ j r w, (final (exec next) Db.fresh calls).live.find? j = some r → r.workerId = some w →
      ClaimedLast (trace (exec next) Db.fresh calls) j w := by
  refine history_induction (P := fun h db ↦ ∀ j r w, db.live.find? j = some r →
    r.workerId = some w → ClaimedLast h j w) (exec next) Db.fresh ?_ ?_ calls
  · intro j r w hr
    simp [Db.fresh] at hr
  · intro h db c ih j r w hr hw
    rcases row_step next db c hr with ⟨-, hfresh, -⟩ | ⟨s, hs, hrow⟩
    · exact absurd (hfresh.workerId.symm.trans hw) (by simp)
    have hid : s.id = j := (Table.find?_eq_some.mp hs).2
    cases hrow with
    | kept ret => exact (ih j r w hs hw).snoc (not_ends hr (hid ▸ ret) hw)
    | promoted ret guard out => exact (ih j s w hs hw).snoc (not_ends hr (hid ▸ ret) hw)
    | extended extend ret guard out => exact (ih j s w hs hw).snoc (not_ends hr (hid ▸ ret) hw)
    | requeued delay ret guard out => cases hw
    | claimed worker timeout job ret row guard =>
      obtain ⟨hjid, -, -, hjw, -⟩ := ofRow_ok row
      refine ⟨h, _, [], job, rfl, ?_, hjid.trans hid, Option.some.inj (hjw.symm.trans hw), by simp⟩
      exact List.mem_of_mem_filter (ret ▸ List.mem_singleton_self job)

theorem unfenced_guard {c : Call} (hop : c.op.unfenced j w) (hout : (exec next db c).1 = .count 1) :
    ∃ r i, db.live.find? j = some r ∧ r.workerId = some w ∧ r.leased (c.clk i) = true ∧
      (i = 0 ∨ c.op.retries j = true ∧ i = 2) := by
  have hcount {p : LiveRow → Bool} (hlen : ((db.live.rows.filter p).length : ℤ) = 1) :
      ∃ r ∈ db.live.rows, p r = true := by
    obtain ⟨r, hr⟩ := List.length_eq_one_iff.mp (by exact_mod_cast hlen)
    exact ⟨r, List.mem_filter.mp (hr ▸ List.mem_singleton_self r)⟩
  have hheld {now : ℤ} {r : LiveRow} (hg : r.heldBy j w now = true) :
      r.id = j ∧ r.workerId = some w ∧ r.leased now = true := by
    simp only [LiveRow.heldBy, Bool.and_eq_true, decide_eq_true_eq] at hg
    exact ⟨hg.1.1, hg.1.2, hg.2⟩
  have hproc {now : ℤ} {r : LiveRow} (hg : r.processingFor j w now = true) :
      r.id = j ∧ r.workerId = some w ∧ r.leased now = true := by
    simp only [LiveRow.processingFor, Bool.and_eq_true, decide_eq_true_eq] at hg
    exact ⟨hg.1.1.1, hg.1.1.2, hg.2⟩
  cases hc : c.op with
  | ack job worker =>
    obtain ⟨rfl, rfl⟩ : job = j ∧ worker = w := by simpa [hc, Op.unfenced] using hop
    obtain ⟨r, hr, hg⟩ := hcount (p := LiveRow.heldBy job worker (c.clk 0))
      (by simpa [exec, hc, ack, deleteCount, deleteLive, Ret.ofCount] using hout)
    obtain ⟨hid, hw, hl⟩ := hheld hg
    exact ⟨r, 0, Table.find?_eq_some.mpr ⟨hr, hid⟩, hw, hl, Or.inl rfl⟩
  | heartbeat job worker extend =>
    obtain ⟨rfl, rfl⟩ : job = j ∧ worker = w := by simpa [hc, Op.unfenced] using hop
    obtain ⟨r, hr, hg⟩ := hcount (p := LiveRow.processingFor job worker (c.clk 0))
      (by simpa [exec, hc, heartbeat, updateLive, Ret.ofCount] using hout)
    obtain ⟨hid, hw, hl⟩ := hproc hg
    exact ⟨r, 0, Table.find?_eq_some.mpr ⟨hr, hid⟩, hw, hl, Or.inl rfl⟩
  | fail job worker error =>
    obtain ⟨rfl, rfl⟩ : job = j ∧ worker = w := by simpa [hc, Op.unfenced] using hop
    cases hfail : failInner job worker error none c.clk db with
    | error err => simp [exec, hc, fail, hfail, atomically, Ret.ofCount] at hout
    | ok x =>
      rcases buryWhere_ok (fun r ↦ failGuard_id) hfail with ⟨-, hzero, -⟩ | ⟨⟨r, hr, hg, -⟩, -⟩
      · simp [exec, hc, fail, hfail, atomically, Ret.ofCount, hzero] at hout
      · obtain ⟨-, hw, hl⟩ := hheld hg
        exact ⟨r, 0, hr, hw, hl, Or.inl rfl⟩
  | retry job worker delay error =>
    obtain ⟨rfl, rfl⟩ : job = j ∧ worker = w := by simpa [hc, Op.unfenced] using hop
    simp only [exec, hc, retry] at hout
    rcases retryWith_cases job worker delay error none c.clk db with
      ⟨r, hr, hg, -⟩ | ⟨r, db', hr, hg, -⟩ | ⟨-, -, ⟨hzero, -⟩ | ⟨err, herr, -⟩⟩
    · obtain ⟨-, hw, hl⟩ := hproc hg
      exact ⟨r, 0, hr, hw, hl, Or.inl rfl⟩
    · obtain ⟨-, hw, hl⟩ := hproc hg
      exact ⟨r, 2, hr, hw, hl, Or.inr ⟨by simp [Op.retries], rfl⟩⟩
    · simp [hzero, Ret.ofCount] at hout
    · simp [herr, Ret.ofCount] at hout
  | _ => simp [hc, Op.unfenced] at hop

end Owner

/-- While the lease of a job's claim is valid nobody else is handed the job and only a cancellation
or its own worker touches the row; conversely an unfenced call that returns 1 comes from the worker
of the job's last claim, before anything ended that claim and within its lease. -/
theorem lease_exclusivity (next : String → ℤ → Except String ℤ) (calls : List Call) :
    (∀ before middle, calls = before ++ middle →
      ∀ j r w, (final (exec next) Db.fresh before).live.find? j = some r →
        r.state = .processing → r.workerId = some w →
        (∀ c ∈ middle, r.leased (c.clk 0) = true ∧ c.op.actor ≠ some w ∧ c.op.cancels j = false) →
        (final (exec next) Db.fresh calls).live.find? j = some r ∧
          (final (exec next) Db.fresh calls).dead.find? j =
            (final (exec next) Db.fresh before).dead.find? j ∧
          ∀ e ∈ trace (exec next) (final (exec next) Db.fresh before) middle, returns e j = []) ∧
    ∀ before c after, calls = before ++ c :: after →
      ∀ j w, c.op.unfenced j w →
        (exec next (final (exec next) Db.fresh before) c).1 = .count 1 →
        ClaimedLast (trace (exec next) Db.fresh before) j w ∧
          ∃ r i, (final (exec next) Db.fresh before).live.find? j = some r ∧ r.workerId = some w ∧
            r.leased (c.clk i) = true ∧ (i = 0 ∨ c.op.retries j = true ∧ i = 2) := by
  refine ⟨?_, ?_⟩
  · intro before middle hcalls j r w hr hst hw hmiddle
    rw [hcalls, final_append]
    exact leased_run next hr hst hw middle hmiddle
  · intro before c after _ j w hop hout
    obtain ⟨r, i, hr, hw, hlease, hi⟩ := unfenced_guard hop hout
    exact ⟨owner_run next before j r w hr hw, r, i, hr, hw, hlease, hi⟩

end Honker
