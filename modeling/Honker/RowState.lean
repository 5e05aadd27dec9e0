import Honker.Conservation

namespace Honker

open Relational Numeric Transition

/-- The clock reading that the statements of a successful call compare with. -/
def reading (e : Event) : Option ℤ :=
  match e.input.op, e.output with
  | _, .error _ => none
  | .enqueue .., _ | .claimBatch .., _ | .ack .., _ | .ackBatch .., _ | .retry .., _
  | .retryFenced .., _ | .fail .., _ | .failFenced .., _ | .heartbeat .., _ | .heartbeatFenced .., _
  | .sweepExpired _, _ => some (e.input.clk 0)
  | .schedulerTick _, .fires (_ :: _) => some (e.input.clk 0)
  | _, _ => none

def readings (h : List Event) : List ℤ := h.filterMap reading

/-- The clock never goes backwards along the history. -/
def Steady (h : List Event) : Prop := (readings h).Pairwise (· ≤ ·)

instance (h : List Event) : Decidable (Steady h) :=
  inferInstanceAs (Decidable ((readings h).Pairwise (· ≤ ·)))

/-- The last reading of a history, zero before the first one. -/
def lastReading (h : List Event) : ℤ := (readings h).getLastD 0

/-- What every row of `_honker_live` satisfies when `last` is the last clock reading. -/
structure LiveRow.Sound (last : ℤ) (r : LiveRow) : Prop where
  budget : 1 ≤ r.maxAttempts
  nonneg : 0 ≤ r.attempts
  within : r.attempts ≤ r.maxAttempts
  owned : r.state = .processing ↔
    r.workerId.isSome ∧ r.claimExpiresAt.isSome ∧ r.claimedAt.isSome
  idle : r.state ≠ .processing →
    r.workerId = none ∧ r.claimExpiresAt = none ∧ r.claimedAt = none
  spare : r.state = .scheduled ∨ r.state = .pending → r.attempts < r.maxAttempts
  started : r.state = .processing → 1 ≤ r.attempts
  due : r.state = .pending → r.runAt.val ≤ last

section Step

variable {next : String → ℤ → Except String ℤ} {db : Db} {c : Call} {e : Event} {r r' : LiveRow}
  {last : ℤ}

theorem not_lapsed {now : ℤ} (h : r.leased now = true) : r.lapsed now = false := by
  cases hexp : r.claimExpiresAt with
  | none => simp [LiveRow.lapsed, hexp]
  | some e =>
    have hle : now ≤ e.val := by simpa [LiveRow.leased, hexp] using h
    simpa [LiveRow.lapsed, hexp] using hle

theorem LiveRow.Sound.mono {last' : ℤ} (h : r.Sound last) (hle : last ≤ last') : r.Sound last' where
  budget := h.budget
  nonneg := h.nonneg
  within := h.within
  owned := h.owned
  idle := h.idle
  spare := h.spare
  started := h.started
  due := fun hs ↦ (h.due hs).trans hle

theorem LiveRow.Fresh.sound {now : ℤ} (h : r.Fresh now) : r.Sound now := by
  have hst := h.state
  have hne : r.state ≠ .processing := by
    rw [hst]
    split_ifs <;> simp
  have hbudget := h.maxAttempts
  have hatt := h.attempts
  refine ⟨h.maxAttempts, by omega, by omega, ?_, ?_, ?_, ?_, ?_⟩
  · simp [hne, h.workerId]
  · exact fun _ ↦ ⟨h.workerId, h.claimExpiresAt, h.claimedAt⟩
  · intro _
    omega
  · exact fun hp ↦ absurd hp hne
  · intro hp
    rw [hst] at hp
    split_ifs at hp with hlate
    omega

theorem val_add_of_nonpos {now : Clock} {delay : ℤ} (hdelay : InRange delay) (h : delay ≤ 0) :
    (add now delay).val ≤ now := by
  have hpos := now.pos
  have hlt := now.lt
  have hlow := hdelay.1
  rw [add_of_inRange ⟨by omega, by omega⟩]
  change now.secs + delay ≤ now.secs
  omega

/-- One step keeps a row sound, with the reading of the call in place of the last one. -/
theorem LiveRow.Sound.step {now : Clock} (h : r.Sound last) (hnow : now = e.input.clk 0)
    (hle : last ≤ now) (hstep : RowStep e r r') : r'.Sound now := by
  subst hnow
  have hnonneg := h.nonneg
  have hwithin := h.within
  cases hstep with
  | kept ret => exact h.mono hle
  | promoted ret guard out =>
    obtain ⟨hst, hrun⟩ := guard.scheduled
    obtain ⟨hw, he, hc⟩ := h.idle (by simp [hst])
    refine ⟨h.budget, h.nonneg, h.within, ?_, ?_, ?_, ?_, ?_⟩
    · simp [LiveRow.promoted, hw]
    · exact fun _ ↦ ⟨hw, he, hc⟩
    · exact fun _ ↦ h.spare (Or.inl hst)
    · simp [LiveRow.promoted]
    · exact fun _ ↦ hrun
  | claimed worker timeout job ret row guard =>
    obtain ⟨hatt, -⟩ := guard.eligible
    have hlt : r.attempts < r.maxAttempts := by simpa [LiveRow.hasAttempts] using hatt
    refine ⟨h.budget, ?_, ?_, ?_, ?_, ?_, ?_, ?_⟩
    · change 0 ≤ r.attempts + 1
      omega
    · change r.attempts + 1 ≤ r.maxAttempts
      omega
    · simp [LiveRow.claimed]
    · simp [LiveRow.claimed]
    · simp [LiveRow.claimed]
    · intro _
      change 1 ≤ r.attempts + 1
      omega
    · simp [LiveRow.claimed]
  | extended extend ret guard out =>
    have hst := guard.processing
    obtain ⟨hw, -, hc⟩ := h.owned.mp hst
    refine ⟨h.budget, h.nonneg, h.within, ?_, ?_, ?_, ?_, ?_⟩
    · simp [LiveRow.extended, hst, hw, hc]
    · exact fun hne ↦ absurd hst hne
    · exact fun hs ↦ h.spare hs
    · exact fun _ ↦ h.started hst
    · intro hs
      exact absurd (hst.symm.trans hs) (by simp)
  | requeued delay ret guard out =>
    obtain ⟨-, hatt, hrange⟩ := guard.processing
    have hlt : r.attempts < r.maxAttempts := by simpa [LiveRow.hasAttempts] using hatt
    have hne : (r.requeued delay (e.input.clk 0)).state ≠ .processing := by
      simp only [LiveRow.requeued]
      split_ifs <;> simp
    refine ⟨h.budget, h.nonneg, h.within, ?_, ?_, ?_, ?_, ?_⟩
    · simp only [hne, false_iff]
      simp [LiveRow.requeued]
    · exact fun _ ↦ ⟨rfl, rfl, rfl⟩
    · exact fun _ ↦ hlt
    · exact fun hp ↦ absurd hp hne
    · intro hp
      have hnot : ¬ delay > 0 := by
        intro hd
        simp [LiveRow.requeued, hd] at hp
      exact val_add_of_nonpos hrange (by omega)

theorem reading_of_op {t : ℤ} (hne : ∀ err, e.output ≠ .error err) (ht : t = e.input.clk 0)
    (hop : (∃ q w n x, e.input.op = .claimBatch q w n x) ∨ (∃ j w x, e.input.op = .heartbeat j w x) ∨
      (∃ j w x a, e.input.op = .heartbeatFenced j w x a) ∨ (∃ j w d x, e.input.op = .retry j w d x) ∨
      (∃ j w d x a, e.input.op = .retryFenced j w d x a)) : reading e = some t := by
  subst ht
  unfold reading
  cases hout : e.output with
  | error err => exact absurd hout (hne err)
  | _ =>
    rcases hop with ⟨q, w, n, x, h⟩ | ⟨j, w, x, h⟩ | ⟨j, w, x, a, h⟩ | ⟨j, w, d, x, h⟩ |
      ⟨j, w, d, x, a, h⟩ <;> simp [h]

/-- A call that changes a row in place reads the clock. -/
theorem RowStep.reading_eq (h : RowStep e r r') : r' = r ∨ reading e = some ↑(e.input.clk 0) := by
  cases h with
  | kept ret => exact Or.inl rfl
  | promoted ret guard out =>
    obtain ⟨jobs, hout⟩ := out
    refine Or.inr (reading_of_op (by simp [hout]) rfl (Or.inl ?_))
    unfold Promotes at guard
    split at guard
    · exact ⟨_, _, _, _, ‹_›⟩
    · exact guard.elim
  | claimed worker timeout job ret row guard =>
    have hout : ∀ err, e.output ≠ .error err := by
      intro err herr
      simp [returns, returned, herr] at ret
    refine Or.inr (reading_of_op hout rfl (Or.inl ?_))
    unfold Claims at guard
    split at guard
    · exact ⟨_, _, _, _, ‹_›⟩
    · exact guard.elim
  | extended extend ret guard out =>
    obtain ⟨n, hout⟩ := out
    refine Or.inr (reading_of_op (by simp [hout]) rfl (Or.inr ?_))
    unfold Extends at guard
    split at guard
    · exact Or.inl ⟨_, _, _, ‹_›⟩
    · exact Or.inr (Or.inl ⟨_, _, _, _, ‹_›⟩)
    · exact guard.elim
  | requeued delay ret guard out =>
    refine Or.inr (reading_of_op (by simp [out]) rfl (Or.inr (Or.inr (Or.inr ?_))))
    unfold Requeues at guard
    split at guard
    · exact Or.inl ⟨_, _, _, _, ‹_›⟩
    · exact Or.inr ⟨_, _, _, _, _, ‹_›⟩
    · exact guard.elim

theorem reading_of_issued {j : ℤ} (h : j ∈ issued e) : reading e = some ↑(e.input.clk 0) := by
  unfold issued at h
  unfold reading
  split at h
  · rename_i hop hout
    simp [hop, hout]
  · rename_i fires hop hout
    cases fires with
    | nil => cases h
    | cons f fs => simp [hop, hout]
  · cases h

theorem reading_pos {t : ℤ} (h : reading e = some t) : 0 < t := by
  have hclk : t = e.input.clk 0 := by
    unfold reading at h
    split at h <;> first | exact (Option.some.inj h).symm | cases h
  rw [hclk]
  exact (e.input.clk 0).pos

end Step

section Run

variable {next : String → ℤ → Except String ℤ} {db : Db} {h : List Event} {e : Event}

theorem readings_snoc (h : List Event) (e : Event) :
    readings (h ++ [e]) = readings h ++ (reading e).toList := by
  cases he : reading e <;> simp [readings, he]

theorem lastReading_snoc (h : List Event) (e : Event) :
    lastReading (h ++ [e]) = (reading e).getD (lastReading h) := by
  unfold lastReading
  rw [readings_snoc]
  cases he : reading e <;> simp

theorem Steady.before (hs : Steady (h ++ [e])) : Steady h := by
  unfold Steady at hs
  rw [readings_snoc] at hs
  exact (List.pairwise_append.mp hs).1

theorem Steady.le {t : ℤ} (hs : Steady (h ++ [e])) (ht : reading e = some t) : lastReading h ≤ t := by
  unfold Steady at hs
  rw [readings_snoc, ht] at hs
  have hall := (List.pairwise_append.mp hs).2.2
  unfold lastReading
  cases hr : readings h using List.reverseRecOn with
  | nil => exact le_of_lt (reading_pos ht)
  | append_singleton l a => simpa using hall a (by simp [hr]) t (by simp)

theorem sound_step {c : Call} (hs : Steady (h ++ [event (exec next) db c]))
    (hdb : ∀ r ∈ db.live.rows, r.Sound (lastReading h)) :
    ∀ r ∈ (exec next db c).2.live.rows, r.Sound (lastReading (h ++ [event (exec next) db c])) := by
  rw [lastReading_snoc]
  refine rows_step next db c (fun r hfresh hmem ↦ ?_) (fun r r' hr hstep ↦ ?_) hdb
  · rw [reading_of_issued hmem]
    exact hfresh.sound
  · rcases hstep.reading_eq with rfl | ht
    · cases ht : reading (event (exec next) db c) with
      | none => exact hr
      | some t => exact hr.mono (hs.le ht)
    · rw [ht]
      exact hr.step rfl (hs.le ht) hstep

theorem sound_run (next : String → ℤ → Except String ℤ) (calls : List Call)
    (hs : Steady (trace (exec next) Db.fresh calls)) :
    ∀ r ∈ (final (exec next) Db.fresh calls).live.rows,
      r.Sound (lastReading (trace (exec next) Db.fresh calls)) :=
  history_induction (P := fun h db ↦ Steady h → ∀ r ∈ db.live.rows, r.Sound (lastReading h))
    (exec next) Db.fresh (fun _ r hr ↦ by simp [Db.fresh, Table.empty] at hr)
    (fun _ _ _ ih hs ↦ sound_step hs (ih hs.before)) calls hs

/-- Every claim of `j` in a history, in order. -/
def claimsOf (h : List Event) (j : ℤ) : List ClaimedJob := h.flatMap (fun e ↦ returns e j)

theorem claimsOf_snoc (h : List Event) (e : Event) (j : ℤ) :
    claimsOf (h ++ [e]) j = claimsOf h j ++ returns e j := by
  simp [claimsOf]

/-- The numbers `1, 2, …, k`. -/
def oneUpTo (k : ℕ) : List ℤ := (List.range k).map (fun i : ℕ ↦ (i : ℤ) + 1)

theorem oneUpTo_succ (k : ℕ) : oneUpTo (k + 1) = oneUpTo k ++ [(k : ℤ) + 1] := by
  simp [oneUpTo, List.range_succ]

/-- The claims of each job are numbered in order, and its row carries the last number. -/
structure Numbered (h : List Event) (db : Db) : Prop where
  order : ∀ j, (claimsOf h j).map ClaimedJob.attempts = oneUpTo (claimsOf h j).length
  row : ∀ j r, db.live.find? j = some r → r.attempts = (claimsOf h j).length
  new : ∀ j, db.seq < j → claimsOf h j = []
  budget : ∀ e ∈ h, ∀ j ∈ issued e, ∀ r₀, e.post.live.find? j = some r₀ →
    ((claimsOf h j).length : ℤ) ≤ r₀.maxAttempts ∧
      ∀ r, db.live.find? j = some r → r.maxAttempts = r₀.maxAttempts

theorem Numbered.fresh : Numbered [] Db.fresh := by
  refine ⟨?_, ?_, ?_, ?_⟩
  · intro j
    simp [claimsOf, oneUpTo]
  · intro j r hr
    simp [Db.fresh] at hr
  · intro j _
    rfl
  · simp

theorem LiveRow.maxAttempts_step {r r' : LiveRow} (h : RowStep e r r') :
    r'.maxAttempts = r.maxAttempts := by
  cases h <;> rfl

/-- Only a claim counts an attempt. -/
theorem LiveRow.attempts_step {r r' : LiveRow} (h : RowStep e r r') (hret : returns e r.id = []) :
    r'.attempts = r.attempts := by
  cases h with
  | claimed worker timeout job ret => exact absurd (hret.symm.trans ret) (by simp)
  | kept => rfl
  | promoted => rfl
  | extended => rfl
  | requeued => rfl

theorem numbered_row {c : Call} (hn : Numbered h db) (j : ℤ) :
    let h' := h ++ [event (exec next) db c]
    (claimsOf h' j).map ClaimedJob.attempts = oneUpTo (claimsOf h' j).length ∧
      ∀ r, (exec next db c).2.live.find? j = some r → r.attempts = (claimsOf h' j).length := by
  intro h'
  rcases return_step next db c j with ret | ⟨s, worker, timeout, job, pre, post, ret, row, guard⟩
  · have hquiet : claimsOf h' j = claimsOf h j := by rw [claimsOf_snoc, ret, List.append_nil]
    rw [hquiet]
    refine ⟨hn.order j, fun r hr ↦ ?_⟩
    rcases row_step next db c hr with ⟨-, fresh, mem⟩ | ⟨s, hs, hrow⟩
    · rw [hn.new j (mem_issued mem).1, fresh.attempts]
      rfl
    · have hid : s.id = j := (Table.find?_eq_some.mp hs).2
      rw [LiveRow.attempts_step hrow (hid.symm ▸ ret)]
      exact hn.row j s hs
  · have hatt : job.attempts = s.attempts + 1 := (ofRow_ok row).2.2.2.2.1
    have hlen := hn.row j s pre
    have hnew : claimsOf h' j = claimsOf h j ++ [job] := by rw [claimsOf_snoc, ret]
    rw [hnew, List.map_append, List.length_append, List.length_singleton, oneUpTo_succ, hn.order j]
    refine ⟨by simp [hatt, hlen], fun r hr ↦ ?_⟩
    cases hr.symm.trans post
    change s.attempts + 1 = _
    rw [hlen]
    push_cast
    rfl

theorem returns_new {c : Call} {j : ℤ} (hnone : db.live.find? j = none) :
    returns (event (exec next) db c) j = [] := by
  rcases return_step next db c j with ret | ⟨s, worker, timeout, job, pre, -⟩
  · exact ret
  · exact absurd (hnone.symm.trans pre) (by simp)

theorem claims_within {c : Call} (hn : Numbered h db) {j m : ℤ}
    (hlen : ((claimsOf h j).length : ℤ) ≤ m)
    (hm : ∀ r, db.live.find? j = some r → r.maxAttempts = m) :
    ((claimsOf (h ++ [event (exec next) db c]) j).length : ℤ) ≤ m := by
  rw [claimsOf_snoc]
  rcases return_step next db c j with ret | ⟨s, worker, timeout, job, pre, -, ret, -, guard⟩
  · rwa [ret, List.append_nil]
  · have hatt : s.attempts < s.maxAttempts := by
      simpa [LiveRow.hasAttempts] using guard.eligible.1
    have hrow := hn.row j s pre
    have hmax := hm s pre
    rw [ret, List.length_append, List.length_singleton]
    push_cast
    omega

theorem Numbered.step (hacc : Account h db) (hn : Numbered h db) (c : Call) :
    Numbered (h ++ [event (exec next) db c]) (exec next db c).2 := by
  have hout {j : ℤ} (hj : db.seq < j) : db.live.find? j = none := by
    cases hr : db.live.find? j with
    | none => rfl
    | some r => exact absurd (hacc.live j r hr) (not_le.mpr hj)
  refine ⟨fun j ↦ (numbered_row hn j).1, fun j ↦ (numbered_row hn j).2, fun j hj ↦ ?_, ?_⟩
  · have hold : db.seq < j := lt_of_le_of_lt (seq_mono next db c) hj
    rw [claimsOf_snoc, hn.new j hold, List.nil_append]
    exact returns_new (hout hold)
  · intro e he j hj r₀ hr₀
    rcases List.mem_append.mp he with he | he
    · obtain ⟨hlen, hmax⟩ := hn.budget e he j hj r₀ hr₀
      refine ⟨claims_within hn hlen hmax, fun r hr ↦ ?_⟩
      rcases row_step next db c hr with ⟨-, -, hmem⟩ | ⟨s, hs, hrow⟩
      · have hbelow := hacc.below j (List.mem_flatMap.mpr ⟨e, he, hj⟩)
        exact absurd hbelow (not_le.mpr (mem_issued hmem).1)
      · rw [LiveRow.maxAttempts_step hrow]
        exact hmax s hs
    · rw [List.mem_singleton.mp he] at hj hr₀
      have hnone := hout (mem_issued hj).1
      refine ⟨?_, fun r hr ↦ by cases hr.symm.trans hr₀; rfl⟩
      rw [← (numbered_row hn j).2 r₀ hr₀]
      rcases row_step next db c hr₀ with ⟨-, hfresh, -⟩ | ⟨s, hs, -⟩
      · rw [hfresh.attempts]
        exact le_trans (by norm_num) hfresh.maxAttempts
      · exact absurd (hnone.symm.trans hs) (by simp)

theorem numbered_run (next : String → ℤ → Except String ℤ) (calls : List Call) :
    Numbered (trace (exec next) Db.fresh calls) (final (exec next) Db.fresh calls) :=
  (history_induction (P := fun h db ↦ Account h db ∧ Numbered h db) (exec next) Db.fresh
    ⟨Account.fresh, Numbered.fresh⟩
    (fun _ _ c ih ↦ ⟨ih.1.step c, ih.2.step ih.1 c⟩) calls).2

end Run

/-- In every state reached with a clock that never goes back, every live row is sound; and over the
whole history each job is handed out with attempts `1, 2, 3, …`, at most `max_attempts` times. -/
theorem row_state_invariant (next : String → ℤ → Except String ℤ) (calls : List Call)
    (hclock : Steady (trace (exec next) Db.fresh calls)) :
    (∀ r ∈ (final (exec next) Db.fresh calls).live.rows,
      r.Sound (lastReading (trace (exec next) Db.fresh calls))) ∧
    ∀ j,
      (claimsOf (trace (exec next) Db.fresh calls) j).map ClaimedJob.attempts =
        oneUpTo (claimsOf (trace (exec next) Db.fresh calls) j).length ∧
      ∀ e ∈ trace (exec next) Db.fresh calls, j ∈ issued e →
        ∀ r₀, e.post.live.find? j = some r₀ →
          ((claimsOf (trace (exec next) Db.fresh calls) j).length : ℤ) ≤ r₀.maxAttempts := by
  have hn := numbered_run next calls
  refine ⟨sound_run next calls hclock, fun j ↦ ⟨hn.order j, fun e he hj r₀ hr₀ ↦ ?_⟩⟩
  exact (hn.budget e he j hj r₀ hr₀).1

/-- A job that is claimed, retried at once and claimed again. -/
def retriedTwice : List Call :=
  [.at_ (.near 100) (.enqueue "q" "p" none none 0 3 none),
   .at_ (.near 100) (.claimBatch "q" "w" 1 (.near 5)),
   .at_ (.near 101) (.retry 1 "w" (.near 0) "e"),
   .at_ (.near 102) (.claimBatch "q" "w" 1 (.near 5))]

theorem row_state_invariant_retried :
    (claimsOf (trace (exec fun _ u ↦ .ok (u + 1)) Db.fresh retriedTwice) 1).map ClaimedJob.attempts =
      [1, 2] ∧
    ∀ r ∈ (final (exec fun _ u ↦ .ok (u + 1)) Db.fresh retriedTwice).live.rows, r.Sound 102 := by
  obtain ⟨hsound, hclaims⟩ := row_state_invariant (fun _ u ↦ .ok (u + 1)) retriedTwice (by decide)
  refine ⟨(hclaims 1).1.trans (by decide), fun r hr ↦ ?_⟩
  exact hsound r hr

end Honker
