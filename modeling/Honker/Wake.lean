import Honker.Drain

namespace Honker

open Relational Numeric Transition Fallible

section First

variable {κ : Type} [LinearOrder κ] {key : LiveRow → κ} {rows : List LiveRow}

theorem firstBy_none (h : firstBy key rows = none) : rows = [] := by
  have hnil : orderBy key rows = [] := List.head?_eq_none_iff.mp h
  have hlen := length_orderBy key rows
  rw [hnil] at hlen
  exact List.eq_nil_of_length_eq_zero hlen.symm

theorem firstBy_some {r : LiveRow} (h : firstBy key rows = some r) :
    r ∈ rows ∧ ∀ s ∈ rows, key r ≤ key s := by
  obtain ⟨l, hl⟩ := List.head?_eq_some_iff.mp h
  have hsorted := orderBy_sorted key rows
  rw [hl] at hsorted
  refine ⟨mem_orderBy.mp (hl ▸ List.mem_cons_self), fun s hs ↦ ?_⟩
  have hs : s ∈ r :: l := hl ▸ mem_orderBy.mpr hs
  rcases List.mem_cons.mp hs with rfl | hs
  · exact le_rfl
  · exact (List.pairwise_cons.mp hsorted).1 s hs

end First

section NextClaim

variable {queue : String} {now : Clock} {db : Db} {v : ℤ}

/-- A `scheduled` row that `queue_next_claim_at` waits for. -/
def LiveRow.awaitsRun (queue : String) (now : ℤ) (r : LiveRow) : Bool :=
  r.queue = queue && r.state = .scheduled && r.hasAttempts && r.unexpired now

/-- A lease that `queue_next_claim_at` waits for. -/
def LiveRow.awaitsLapse (queue : String) (now : ℤ) (r : LiveRow) : Bool :=
  r.queue = queue && r.state = .processing && r.leased now && r.hasAttempts && r.unexpired now

theorem scheduledAt_ok {x : Option ℤ}
    (h : (firstBy (fun r ↦ r.runAt.val) (db.live.rows.filter (LiveRow.awaitsRun queue now))).mapM
      (fun r ↦ decodeInt 1 scheduledColumn r.runAt) = .ok x) :
    (x = none ∧ ∀ r ∈ db.live.rows, r.awaitsRun queue now = false) ∨
      ∃ a, x = some a ∧ (∃ r ∈ db.live.rows, r.awaitsRun queue now = true ∧ r.runAt.val = a) ∧
        ∀ r ∈ db.live.rows, r.awaitsRun queue now = true → a ≤ r.runAt.val := by
  rcases mapM_some h with ⟨hnone, hx⟩ | ⟨r, a, hsome, hx, hdec⟩
  · refine Or.inl ⟨hx, fun r hr ↦ ?_⟩
    simpa using List.filter_eq_nil_iff.mp (firstBy_none hnone) r hr
  · obtain ⟨hr, hmin⟩ := firstBy_some hsome
    obtain ⟨hrow, hawait⟩ := List.mem_filter.mp hr
    have ha : r.runAt.val = a := by
      cases hrun : r.runAt with
      | int v =>
        simp only [hrun, decodeInt] at hdec
        exact Except.ok.inj hdec
      | real v => simp [hrun, decodeInt] at hdec
    refine Or.inr ⟨a, hx, ⟨r, hrow, hawait, ha⟩, fun s hs hsa ↦ ?_⟩
    rw [← ha]
    exact hmin s (List.mem_filter.mpr ⟨hs, hsa⟩)

theorem leaseAt_ok {x : Option ℤ}
    (h : ((firstBy LiveRow.deadline (db.live.rows.filter (LiveRow.awaitsLapse queue now))).bind
      LiveRow.claimExpiresAt).mapM (fun e ↦ match e with
        | .int v => decodeInt 2 leaseColumn (add v 1)
        | .real _ => .error (.columnType 2 leaseColumn "Real")) = .ok x) :
    (x = none ∧ ∀ r ∈ db.live.rows, r.awaitsLapse queue now = false) ∨
      ∃ b, x = some b ∧ (∃ r ∈ db.live.rows, r.awaitsLapse queue now = true ∧
          ∃ e, r.claimExpiresAt = some e ∧ b = e.val + 1) ∧
        ∀ r ∈ db.live.rows, r.awaitsLapse queue now = true →
          ∀ e, r.claimExpiresAt = some e → b ≤ e.val + 1 := by
  cases hfirst : firstBy LiveRow.deadline (db.live.rows.filter (LiveRow.awaitsLapse queue now)) with
  | none =>
    rw [hfirst] at h
    cases h
    refine Or.inl ⟨rfl, fun r hr ↦ ?_⟩
    simpa using List.filter_eq_nil_iff.mp (firstBy_none hfirst) r hr
  | some r =>
    right
    obtain ⟨hr, hmin⟩ := firstBy_some hfirst
    obtain ⟨hrow, hawait⟩ := List.mem_filter.mp hr
    have hlease : r.leased now = true := by
      simp only [LiveRow.awaitsLapse, Bool.and_eq_true] at hawait
      exact hawait.1.1.2
    rw [hfirst, Option.bind_some] at h
    rcases mapM_some h with ⟨hnone, -⟩ | ⟨e, b, he, hx, hdec⟩
    · simp [LiveRow.leased, hnone] at hlease
    · have hb : b = e.val + 1 := by
        cases e with
        | real v => simp at hdec
        | int v =>
          cases hadd : add v 1 with
          | real x => simp [hadd, decodeInt] at hdec
          | int x =>
            simp only [hadd, decodeInt] at hdec
            exact (Except.ok.inj hdec).symm.trans (add_eq_int hadd).2
      refine ⟨b, hx, ⟨r, hrow, hawait, e, he, hb⟩, fun s hs hsa e' he' ↦ ?_⟩
      have hkey := hmin s (List.mem_filter.mpr ⟨hs, hsa⟩)
      rw [LiveRow.deadline, LiveRow.deadline, he, he'] at hkey
      have hval : e.val ≤ e'.val := WithBot.coe_le_coe.mp hkey
      omega

/-- A row that `queue_next_claim_at` waits for, and the time at which it falls due. -/
def LiveRow.FallsDue (queue : String) (now : ℤ) (r : LiveRow) (d : ℤ) : Prop :=
  (r.ready queue now = true ∧ d = now) ∨
    (r.awaitsRun queue now = true ∧ d = max r.runAt.val now) ∨
    (r.awaitsLapse queue now = true ∧ ∃ e, r.claimExpiresAt = some e ∧ d = e.val + 1)

/-- The deadlines of a queue at `now`: of its due rows, its `scheduled` rows and its leases, as far as
they have attempts left and have not expired by `now`. -/
def Db.deadlines (db : Db) (queue : String) (now : ℤ) : Set ℤ :=
  {d | ∃ r ∈ db.live.rows, r.FallsDue queue now d}

theorem lt_of_awaitsLapse {r : LiveRow} (h : r.awaitsLapse queue now = true) {e : Number}
    (he : r.claimExpiresAt = some e) : now < e.val + 1 := by
  simp only [LiveRow.awaitsLapse, Bool.and_eq_true] at h
  have hle : now ≤ e.val := by simpa [LiveRow.leased, he] using h.1.1.2
  omega

theorem now_le_deadline {d : ℤ} (hd : d ∈ db.deadlines queue now) : now ≤ d := by
  obtain ⟨r, -, ⟨-, rfl⟩ | ⟨-, rfl⟩ | ⟨hlapse, e, he, rfl⟩⟩ := hd
  · exact le_rfl
  · exact le_max_right _ _
  · exact (lt_of_awaitsLapse hlapse he).le

/-- `queue_next_claim_at` answers with the least deadline of the queue, with `0` if there is none. -/
theorem queueNextClaimAt_cases (h : queueNextClaimAt queue now db = .ok v) :
    (v = 0 ∧ db.deadlines queue now = ∅) ∨ IsLeast (db.deadlines queue now) v := by
  obtain ⟨sa, hsa, h⟩ := bind_ok.mp h
  obtain ⟨la, hla, h⟩ := bind_ok.mp h
  split_ifs at h with hdue
  · cases h
    obtain ⟨r, hr, hready⟩ := List.any_eq_true.mp hdue
    exact Or.inr ⟨⟨r, hr, Or.inl ⟨hready, rfl⟩⟩, fun d hd ↦ now_le_deadline hd⟩
  have hready {r : LiveRow} (hr : r ∈ db.live.rows) (hc : r.ready queue now = true) : False :=
    hdue (List.any_eq_true.mpr ⟨r, hr, hc⟩)
  rcases scheduledAt_ok hsa with ⟨rfl, hnos⟩ | ⟨a, rfl, ⟨s, hs, hawait, hrun⟩, hmin⟩
  · have hsched {r : LiveRow} (hr : r ∈ db.live.rows) (hc : r.awaitsRun queue now = true) : False := by
      simp [hnos r hr] at hc
    rcases leaseAt_ok hla with ⟨rfl, hnol⟩ | ⟨b, rfl, ⟨l, hl, hlapse, e, he, rfl⟩, hminl⟩
    · cases h
      refine Or.inl ⟨rfl, Set.eq_empty_of_forall_notMem ?_⟩
      rintro d ⟨r, hr, ⟨hc, -⟩ | ⟨hc, -⟩ | ⟨hc, -⟩⟩
      · exact hready hr hc
      · exact hsched hr hc
      · simp [hnol r hr] at hc
    · cases h
      rw [max_eq_left (lt_of_awaitsLapse hlapse he).le]
      refine Or.inr ⟨⟨l, hl, Or.inr (Or.inr ⟨hlapse, e, he, rfl⟩)⟩, ?_⟩
      rintro d ⟨r, hr, ⟨hc, -⟩ | ⟨hc, -⟩ | ⟨hc, e', he', rfl⟩⟩
      · exact (hready hr hc).elim
      · exact (hsched hr hc).elim
      · exact hminl r hr hc e' he'
  · have hattained : max a now ∈ db.deadlines queue now :=
      ⟨s, hs, Or.inr (Or.inl ⟨hawait, by rw [hrun]⟩)⟩
    rcases leaseAt_ok hla with ⟨rfl, hnol⟩ | ⟨b, rfl, ⟨l, hl, hlapse, e, he, rfl⟩, hminl⟩
    · cases h
      refine Or.inr ⟨hattained, ?_⟩
      rintro d ⟨r, hr, ⟨hc, -⟩ | ⟨hc, rfl⟩ | ⟨hc, -⟩⟩
      · exact (hready hr hc).elim
      · exact max_le_max_right _ (hmin r hr hc)
      · simp [hnol r hr] at hc
    · cases h
      have hlt := lt_of_awaitsLapse hlapse he
      refine Or.inr ⟨?_, ?_⟩
      · by_cases hab : a ≤ e.val + 1
        · rw [min_eq_left hab]
          exact hattained
        · rw [min_eq_right (not_le.mp hab).le, max_eq_left hlt.le]
          exact ⟨l, hl, Or.inr (Or.inr ⟨hlapse, e, he, rfl⟩)⟩
      · rintro d ⟨r, hr, ⟨hc, -⟩ | ⟨hc, rfl⟩ | ⟨hc, e', he', rfl⟩⟩
        · exact (hready hr hc).elim
        · exact max_le_max_right _ ((min_le_left _ _).trans (hmin r hr hc))
        · have hle := hminl r hr hc e' he'
          have hlt' := lt_of_awaitsLapse hc he'
          exact max_le ((min_le_right _ _).trans hle) hlt'.le

/-- An answer `v` that tells the worker to wait: no row is due, and no row falls due before `v`. -/
structure Waits (queue : String) (now : Clock) (v : ℤ) (db : Db) : Prop where
  later : v = 0 ∨ now < v
  ready : ∀ r ∈ db.live.rows, r.ready queue now = false
  scheduled : ∀ r ∈ db.live.rows, r.awaitsRun queue now = true →
    now < r.runAt.val ∧ v ≤ r.runAt.val ∧ v ≠ 0
  leased : ∀ r ∈ db.live.rows, r.awaitsLapse queue now = true →
    ∀ e, r.claimExpiresAt = some e → v ≤ e.val + 1 ∧ v ≠ 0

theorem waits_of_least (hv : v = 0 ∨ now < v)
    (hleast : ∀ d ∈ db.deadlines queue now, v ≠ 0 ∧ v ≤ d ∧ now < d) : Waits queue now v db := by
  refine ⟨hv, fun r hr ↦ ?_, fun r hr hc ↦ ?_, fun r hr hc e he ↦ ?_⟩
  · by_contra hc
    have hlt := (hleast now ⟨r, hr, Or.inl ⟨by simpa using hc, rfl⟩⟩).2.2
    omega
  · obtain ⟨hne, hle, hlt⟩ := hleast _ ⟨r, hr, Or.inr (Or.inl ⟨hc, rfl⟩)⟩
    have hrun : now.secs < r.runAt.val := by
      rcases lt_max_iff.mp hlt with hlt | hlt
      · exact hlt
      · omega
    rw [max_eq_left hrun.le] at hle
    exact ⟨hrun, hle, hne⟩
  · obtain ⟨hne, hle, -⟩ := hleast _ ⟨r, hr, Or.inr (Or.inr ⟨hc, e, he, rfl⟩)⟩
    exact ⟨hle, hne⟩

theorem queueNextClaimAt_ok (h : queueNextClaimAt queue now db = .ok v) :
    (v = now ∧ ((∃ r ∈ db.live.rows, r.ready queue now = true) ∨
      ∃ r ∈ db.live.rows, r.awaitsRun queue now = true ∧ r.runAt.val ≤ now)) ∨
    Waits queue now v db := by
  have hpos := now.pos
  rcases queueNextClaimAt_cases h with ⟨rfl, hnone⟩ | ⟨hmem, hleast⟩
  · exact Or.inr (waits_of_least (Or.inl rfl) fun d hd ↦ by simp [hnone] at hd)
  · rcases (now_le_deadline hmem).eq_or_lt with heq | hlt
    · obtain ⟨r, hr, ⟨hc, -⟩ | ⟨hc, hd⟩ | ⟨hc, e, he, hd⟩⟩ := hmem
      · exact Or.inl ⟨heq.symm, Or.inl ⟨r, hr, hc⟩⟩
      · refine Or.inl ⟨heq.symm, Or.inr ⟨r, hr, hc, ?_⟩⟩
        rw [← max_eq_right_iff, ← hd, heq]
      · have hlt := lt_of_awaitsLapse hc he
        omega
    · refine Or.inr (waits_of_least (Or.inr hlt) fun d hd ↦ ?_)
      have hle := hleast hd
      exact ⟨by omega, hle, by omega⟩

end NextClaim

/-- No claim on `queue` between `now` and the announced time `v` hands out a job. -/
def NeverOversleeps (queue : String) (now : Clock) (v : ℤ) (db : Db) : Prop :=
  ∀ (emit : Emission LiveRow) (worker : String) (n : ℤ) (timeout : I64) (t : Clock), 1 ≤ n →
    now.secs ≤ t → v = 0 ∨ t < v → (claimBatch emit queue worker n timeout t db).1 = .ok []

/-- A `pending` or `scheduled` row that a claim at `now` could return. -/
def LiveRow.dueNow (queue : String) (now : ℤ) (r : LiveRow) : Bool :=
  r.queue = queue && r.state ≠ .processing && r.runAt.val ≤ now && r.hasAttempts && r.unexpired now

section Oversleep

variable {queue : String} {now t : Clock} {db T : Db} {v last : ℤ}

theorem unexpired_mono {r : LiveRow} (h : r.unexpired t = true) (hle : now.secs ≤ t) :
    r.unexpired now = true := by
  cases hexp : r.expiresAt with
  | none => simp [LiveRow.unexpired, hexp]
  | some x =>
    have hlt : t.secs < x := by simpa [LiveRow.unexpired, hexp] using h
    have hlt' : now.secs < x := by omega
    simpa [LiveRow.unexpired, hexp] using hlt'

theorem claimable_cases {r : LiveRow} (h : r.claimable queue t = true) :
    r.queue = queue ∧ r.hasAttempts = true ∧ r.unexpired t = true ∧
      (r.state ≠ .processing ∧ r.runAt.val ≤ t ∨ r.state = .processing ∧ r.lapsed t = true) := by
  simp only [LiveRow.claimable, Bool.and_eq_true, Bool.or_eq_true, decide_eq_true_eq] at h
  obtain ⟨⟨⟨hq, hdue⟩, ha⟩, hu⟩ := h
  refine ⟨hq, ha, hu, ?_⟩
  rcases hdue with ⟨hst, hrun⟩ | hlapsed
  · exact Or.inl ⟨by simp [hst], hrun⟩
  · exact Or.inr hlapsed

theorem claim_nil_of_none (hkeep : housekeep queue t db = .ok T)
    (hnone : ∀ r ∈ T.live.rows, r.claimable queue t = false) (emit : Emission LiveRow)
    (worker : String) {n : ℤ} (hn : 1 ≤ n) (timeout : I64) :
    (claimBatch emit queue worker n timeout t db).1 = .ok [] := by
  obtain ⟨m, rfl⟩ := Int.eq_ofNat_of_zero_le (by omega : 0 ≤ n)
  have hfilter : T.live.rows.filter (LiveRow.claimable queue t) = [] :=
    List.filter_eq_nil_iff.mpr fun r hr ↦ by simp [hnone r hr]
  have hnaive : naiveClaim queue t m T.live = [] := by
    rw [naiveClaim, hfilter]
    simp [orderBy]
  obtain ⟨jobs, db', hclaim, hnaively⟩ :=
    claimBatch_naively emit worker m timeout hkeep (Or.inr hnaive)
  have hperm := hnaively.array
  rw [hnaive, List.map_nil, List.perm_nil, List.map_eq_nil_iff] at hperm
  rw [hclaim, hperm]

/-- What is claimable after housekeeping was due, with attempts left and unexpired, before it. -/
theorem eligible_of_claimable (hkeep : housekeep queue t db = .ok T) {s : LiveRow}
    (hs : s ∈ T.live.rows) (hc : s.claimable queue t = true) :
    ∃ r ∈ db.live.rows, r.Eligible queue t := by
  obtain ⟨hq, ha, hu, hdue⟩ := claimable_cases hc
  have hfind := Table.find?_of_mem hs
  rcases housekeep_job hkeep s.id with ⟨-, hlive | ⟨r, hr, hprom, hpost⟩⟩ | ⟨r, error, -, hgone, -⟩
  · refine ⟨s, (Table.find?_eq_some.mp (hlive.symm.trans hfind)).1, hq, ?_, ha, hu⟩
    simpa [LiveRow.dueOrLapsed] using hdue
  · cases hpost.symm.trans hfind
    refine ⟨r, (Table.find?_eq_some.mp hr).1, hq, ?_, ha, hu⟩
    simp only [LiveRow.promotable, Bool.and_eq_true, decide_eq_true_eq] at hprom
    simp [LiveRow.dueOrLapsed, hprom]
  · cases hgone.symm.trans hfind

/-- Housekeeping leaves such a row claimable, if the cap lets it promote a `scheduled` one. -/
theorem claimable_of_eligible (hkeep : housekeep queue t db = .ok T) {r : LiveRow}
    (hr : r ∈ db.live.rows) (he : r.Eligible queue t)
    (hcap : r.state = .scheduled → db.backlog (LiveRow.promotable queue t) ≤ 1000) :
    ∃ s ∈ T.live.rows, s.claimable queue t = true := by
  obtain ⟨hq, hdue, ha, hu⟩ := he
  have hfind := Table.find?_of_mem hr
  rcases housekeep_job hkeep r.id with ⟨-, hlive | ⟨s, hs, hprom, hpost⟩⟩ | ⟨s, error, hs, -, -, -, hwhy⟩
  · have hrow : r ∈ T.live.rows := (Table.find?_eq_some.mp (hlive.trans hfind)).1
    refine ⟨r, hrow, ?_⟩
    cases hst : r.state with
    | scheduled =>
      -- A row that is still to be promoted would be left over from more than a thousand.
      have hrun : r.runAt.val ≤ t := by simpa [LiveRow.dueOrLapsed, hst] using hdue
      have hzero : T.backlog (LiveRow.promotable queue t) = 0 := by
        have hdrop := (housekeep_backlog hkeep).1
        have hle := hcap hst
        omega
      have hnot := not_of_backlog_zero hzero r hrow
      simp [LiveRow.promotable, hq, hst, hrun] at hnot
    | pending =>
      have hrun : r.runAt.val ≤ t := by simpa [LiveRow.dueOrLapsed, hst] using hdue
      simp [LiveRow.claimable, hq, hst, hrun, ha, hu]
    | processing =>
      have hlapsed : r.lapsed t = true := by simpa [LiveRow.dueOrLapsed, hst] using hdue
      simp [LiveRow.claimable, hq, hst, hlapsed, ha, hu]
  · cases hs.symm.trans hfind
    refine ⟨r.promoted, (Table.find?_eq_some.mp hpost).1, ?_⟩
    simp only [LiveRow.promotable, Bool.and_eq_true, decide_eq_true_eq] at hprom
    have hq' : r.promoted.queue = queue := hq
    have hst' : r.promoted.state = .pending := rfl
    have hrun' : r.promoted.runAt.val ≤ t := hprom.2
    have ha' : r.promoted.hasAttempts = true := ha
    have hu' : r.promoted.unexpired t = true := hu
    simp [LiveRow.claimable, hq', hst', hrun', ha', hu']
  · cases hs.symm.trans hfind
    rw [unexpired_eq] at hu
    rcases hwhy with ⟨-, hexp⟩ | ⟨-, hexh⟩
    · simp only [LiveRow.expirable, Bool.and_eq_true] at hexp
      simp [hexp.1.2] at hu
    · simp [LiveRow.exhausted, ha] at hexh

/-- A claim that asks for a row, with a lease that ends in the 64-bit range, hands one out when one
is claimable. -/
theorem claim_cons_of_claimable (hkeep : housekeep queue t db = .ok T) {s : LiveRow}
    (hs : s ∈ T.live.rows) (hc : s.claimable queue t = true) (emit : Emission LiveRow)
    (worker : String) {n : ℤ} (hn : 1 ≤ n) {timeout : I64} (hrange : InRange (t + timeout)) :
    ∃ job jobs, (claimBatch emit queue worker n timeout t db).1 = .ok (job :: jobs) := by
  obtain ⟨m, rfl⟩ := Int.eq_ofNat_of_zero_le (by omega : 0 ≤ n)
  have hmem : s ∈ orderBy LiveRow.claimOrder (T.live.rows.filter (LiveRow.claimable queue t)) :=
    mem_orderBy.mpr (List.mem_filter.mpr ⟨hs, hc⟩)
  have hne : naiveClaim queue t m T.live ≠ [] := by
    intro hnil
    rcases List.take_eq_nil_iff.mp hnil with hzero | hnil
    · omega
    · simp [hnil] at hmem
  obtain ⟨jobs, db', hclaim, hnaively⟩ :=
    claimBatch_naively emit worker m timeout hkeep (Or.inl hrange)
  cases jobs with
  | nil =>
    have hperm := hnaively.array
    rw [List.map_nil, List.nil_perm, List.map_eq_nil_iff] at hperm
    exact absurd hperm hne
  | cons job jobs => exact ⟨job, jobs, by rw [hclaim]⟩

theorem claim_of_reclaimable (hdb : db.Apart) {r : LiveRow} (hr : r ∈ db.live.rows)
    (hrec : r.reclaimable queue t = true) :
    (claimBatch .inOrder queue "w" 1 (.near 0) t db).1 ≠ .ok [] := by
  obtain ⟨T, hkeep⟩ := housekeep_total hdb queue t
  simp only [LiveRow.reclaimable, Bool.and_eq_true, decide_eq_true_eq] at hrec
  obtain ⟨⟨⟨⟨hq, hst⟩, hl⟩, ha⟩, hu⟩ := hrec
  have he : r.Eligible queue t := ⟨hq, by simp [LiveRow.dueOrLapsed, hst, hl], ha, hu⟩
  obtain ⟨s, hs, hc⟩ := claimable_of_eligible hkeep hr he (by simp [hst])
  have hrange : InRange (t + I64.near 0) := by
    have hzero : (I64.near 0).val = 0 := by decide
    rw [hzero, add_zero]
    exact t.inRange
  obtain ⟨job, jobs, hclaim⟩ := claim_cons_of_claimable hkeep hs hc .inOrder "w" le_rfl hrange
  rw [hclaim]
  simp

theorem Waits.not_claimable (h : Waits queue now v db)
    (hsound : ∀ r ∈ db.live.rows, r.Sound last) (hlast : last ≤ now)
    (hlapsed : ∀ r ∈ db.live.rows, r.reclaimable queue now = false) (hle : now.secs ≤ t)
    (hv : v = 0 ∨ t < v) {r : LiveRow} (hr : r ∈ db.live.rows) (he : r.Eligible queue t) :
    False := by
  obtain ⟨hq, hdue, ha, hu⟩ := he
  have hu' := unexpired_mono hu hle
  replace hdue : r.state ≠ .processing ∧ r.runAt.val ≤ t ∨
      r.state = .processing ∧ r.lapsed t = true := by
    simpa [LiveRow.dueOrLapsed] using hdue
  rcases hdue with ⟨hst, hrun⟩ | ⟨hst, hl⟩
  · cases hstate : r.state with
    | processing => exact hst hstate
    | pending =>
      have hrun' := ((hsound r hr).due hstate).trans hlast
      have hnot := h.ready r hr
      simp [LiveRow.ready, hq, hstate, hrun', ha, hu'] at hnot
    | scheduled =>
      obtain ⟨-, hle', hne⟩ := h.scheduled r hr (by simp [LiveRow.awaitsRun, hq, hstate, ha, hu'])
      rcases hv with rfl | hlt
      · exact hne rfl
      · omega
  · obtain ⟨-, hsome, -⟩ := (hsound r hr).owned.mp hst
    obtain ⟨e, he⟩ := Option.isSome_iff_exists.mp hsome
    have hlt : e.val < t := by simpa [LiveRow.lapsed, he] using hl
    have hnot := hlapsed r hr
    have hheld : r.leased now = true := by
      refine (hsound r hr).leased_of_not_lapsed hst ?_
      by_contra hc
      rw [Bool.not_eq_false] at hc
      simp [LiveRow.reclaimable, hq, hst, hc, ha, hu'] at hnot
    obtain ⟨hle', hne⟩ := h.leased r hr (by simp [LiveRow.awaitsLapse, hq, hst, hheld, ha, hu']) e he
    rcases hv with rfl | hlt'
    · exact hne rfl
    · omega

theorem Waits.not_dueNow (h : Waits queue now v db) :
    ∀ r ∈ db.live.rows, r.dueNow queue now = false := by
  intro r hr
  by_contra hc
  rw [Bool.not_eq_false] at hc
  simp only [LiveRow.dueNow, Bool.and_eq_true, decide_eq_true_eq] at hc
  obtain ⟨⟨⟨⟨hq, hst⟩, hrun⟩, ha⟩, hu⟩ := hc
  cases hstate : r.state with
  | processing => exact hst hstate
  | pending =>
    have hnot := h.ready r hr
    simp [LiveRow.ready, hq, hstate, hrun, ha, hu] at hnot
  | scheduled =>
    obtain ⟨hlate, -⟩ := h.scheduled r hr (by simp [LiveRow.awaitsRun, hq, hstate, ha, hu])
    omega

theorem waits_of_not_dueNow (hv : queueNextClaimAt queue now db = .ok v)
    (hnodue : ∀ r ∈ db.live.rows, r.dueNow queue now = false) : Waits queue now v db := by
  rcases queueNextClaimAt_ok hv with ⟨-, ⟨r, hr, hready⟩ | ⟨r, hr, hawait, hrun⟩⟩ | hwaits
  · simp only [LiveRow.ready, Bool.and_eq_true, decide_eq_true_eq] at hready
    exact absurd (hnodue r hr) (by simp [LiveRow.dueNow, hready])
  · simp only [LiveRow.awaitsRun, Bool.and_eq_true, decide_eq_true_eq] at hawait
    exact absurd (hnodue r hr) (by simp [LiveRow.dueNow, hawait, hrun])
  · exact hwaits

theorem Waits.claim_nil (h : Waits queue now v db) (hdb : db.Apart)
    (hsound : ∀ r ∈ db.live.rows, r.Sound last) (hlast : last ≤ now)
    (hlapsed : ∀ r ∈ db.live.rows, r.reclaimable queue now = false) :
    NeverOversleeps queue now v db := by
  intro emit worker n timeout t hn hle hvt
  obtain ⟨T, hkeep⟩ := housekeep_total hdb queue t
  refine claim_nil_of_none hkeep (fun s hs ↦ ?_) emit worker hn timeout
  by_contra hc
  rw [Bool.not_eq_false] at hc
  obtain ⟨r, hr, he⟩ := eligible_of_claimable hkeep hs hc
  exact h.not_claimable hsound hlast hlapsed hle hvt hr he

end Oversleep

/-- In every reachable state, `queue_next_claim_at` lets no worker oversleep if and only if no lapsed
lease of the queue can be reclaimed now, or some other row of it is due now. -/
theorem next_claim_at_iff (next : String → ℤ → Except String ℤ) (calls : List Call)
    (hclock : Steady (trace (exec next) Db.fresh calls)) (queue : String) (now : Clock)
    (hnow : lastReading (trace (exec next) Db.fresh calls) ≤ now) (v : ℤ)
    (hv : queueNextClaimAt queue now (final (exec next) Db.fresh calls) = .ok v) :
    NeverOversleeps queue now v (final (exec next) Db.fresh calls) ↔
      (∀ r ∈ (final (exec next) Db.fresh calls).live.rows, r.reclaimable queue now = false) ∨
        ∃ r ∈ (final (exec next) Db.fresh calls).live.rows, r.dueNow queue now = true := by
  have hsound := sound_run next calls hclock
  have hdb := (Ledger.run next calls).apart
  generalize final (exec next) Db.fresh calls = db at hv hsound hdb
  constructor
  · intro hnever
    by_contra hcond
    push Not at hcond
    obtain ⟨⟨r, hr, hrec⟩, hnodue⟩ := hcond
    have hwaits := waits_of_not_dueNow hv fun s hs ↦ by simpa using hnodue s hs
    exact claim_of_reclaimable hdb hr (by simpa using hrec)
      (hnever .inOrder "w" 1 (.near 0) now le_rfl le_rfl hwaits.later)
  · intro hcond
    rcases queueNextClaimAt_ok hv with ⟨rfl, -⟩ | hwaits
    · -- The answer is the current time: no `t` lies between `now` and it.
      intro emit worker n timeout t hn hle hvt
      have hpos := now.pos
      omega
    · refine hwaits.claim_nil hdb hsound hnow ?_
      rcases hcond with hlapsed | ⟨s, hs, hdue⟩
      · exact hlapsed
      · exact absurd (hwaits.not_dueNow s hs) (by simp [hdue])

/-- A job that a worker claims for five seconds and then lets go. -/
def abandoned : List Call :=
  [.at_ (.near 100) (.enqueue "q" "p" none none 0 3 none),
   .at_ (.near 100) (.claimBatch "q" "w" 1 (.near 5))]

/-- While the lease runs, the announced time is one second after its end. -/
theorem next_claim_at_leased :
    queueNextClaimAt "q" (.near 103)
      (final (exec fun _ u ↦ .ok (u + 1)) Db.fresh abandoned) = .ok 106 ∧
    NeverOversleeps "q" (.near 103) 106
      (final (exec fun _ u ↦ .ok (u + 1)) Db.fresh abandoned) := by
  refine ⟨by decide, ?_⟩
  exact (next_claim_at_iff (fun _ u ↦ .ok (u + 1)) abandoned (by decide) "q"
    (.near 103) (by decide) 106 (by decide)).mpr (Or.inl (by decide))

/-- Once the lease has lapsed, the answer is `0`, though a claim at the same time hands the job out. -/
theorem next_claim_at_lapsed :
    Steady (trace (exec fun _ u ↦ .ok (u + 1)) Db.fresh abandoned) ∧
    queueNextClaimAt "q" (.near 110)
      (final (exec fun _ u ↦ .ok (u + 1)) Db.fresh abandoned) = .ok 0 ∧
    ¬ NeverOversleeps "q" (.near 110) 0
      (final (exec fun _ u ↦ .ok (u + 1)) Db.fresh abandoned) := by
  refine ⟨by decide, by decide, fun hnever ↦ ?_⟩
  have hnil := hnever .inOrder "w" 1 (.near 5) (.near 110) le_rfl le_rfl
    (Or.inl rfl)
  have hjob : (claimBatch .inOrder "q" "w" 1 (.near 5) (.near 110)
      (final (exec fun _ u ↦ .ok (u + 1)) Db.fresh abandoned)).1 ≠ .ok [] := by
    decide
  exact hjob hnil

/-- A `scheduled` row of the queue. -/
def LiveRow.scheduledIn (queue : String) (r : LiveRow) : Bool :=
  r.queue = queue && r.state = .scheduled

/-- A claim on `queue` at `t` returns at least one job. -/
def FindsWork (emit : Emission LiveRow) (queue worker : String) (n : ℤ) (timeout : I64) (t : Clock)
    (db : Db) : Prop :=
  ∃ job jobs, (claimBatch emit queue worker n timeout t db).1 = .ok (job :: jobs)

section Promise

variable {emit : Emission LiveRow} {queue worker : String} {n : ℤ} {timeout : I64} {t : Clock}
  {db : Db}

theorem promotable_backlog_le (h : db.backlog (LiveRow.scheduledIn queue) ≤ 1000) :
    db.backlog (LiveRow.promotable queue t) ≤ 1000 := by
  refine (List.countP_mono_left fun r _ hprom ↦ ?_).trans h
  simp only [LiveRow.promotable, Bool.and_eq_true, decide_eq_true_eq] at hprom
  simp [LiveRow.scheduledIn, hprom]

/-- With the housekeeping cap out of play, a claim finds work exactly when its lease ends in range and
some row with attempts left is due or lapsed, and not expired, at the time of the claim. -/
theorem findsWork_iff (hdb : db.Apart) (hn : 1 ≤ n)
    (hcap : db.backlog (LiveRow.scheduledIn queue) ≤ 1000) :
    FindsWork emit queue worker n timeout t db ↔
      InRange (t + timeout) ∧ ∃ r ∈ db.live.rows, r.Eligible queue t := by
  obtain ⟨T, hkeep⟩ := housekeep_total hdb queue t
  constructor
  · intro h
    obtain ⟨job, jobs, hclaim⟩ := h
    refine ⟨?_, ?_⟩
    · rw [claimBatch_eq emit worker n timeout hkeep] at hclaim
      cases hsql : claimSql emit queue worker n timeout t T with
      | error e => simp [hsql, atomically] at hclaim
      | ok x =>
        have hjobs : x.1 = job :: jobs := by simpa [hsql, atomically] using hclaim
        exact (claimSql_ok hsql).2.2.2 (by simp [hjobs])
    · by_contra hnone
      have hnil : (claimBatch emit queue worker n timeout t db).1 = .ok [] := by
        refine claim_nil_of_none hkeep (fun s hs ↦ ?_) emit worker hn timeout
        by_contra hc
        rw [Bool.not_eq_false] at hc
        exact hnone (eligible_of_claimable hkeep hs hc)
      simp [hnil] at hclaim
  · intro h
    obtain ⟨hrange, r, hr, he⟩ := h
    obtain ⟨s, hs, hc⟩ := claimable_of_eligible hkeep hr he fun _ ↦ promotable_backlog_le hcap
    exact claim_cons_of_claimable hkeep hs hc emit worker hn hrange

/-- A row that the answer at `now` does not wait for, though a claim at `d` takes it: its lease had
lapsed by `now`, or it is `pending` for a time that comes between, after a clock that went back. -/
def LiveRow.Overlooked (queue : String) (now d : ℤ) (r : LiveRow) : Prop :=
  r.reclaimable queue now = true ∨
    (r.queue = queue ∧ r.state = .pending ∧ r.hasAttempts = true ∧ now < r.runAt.val ∧ r.runAt.val ≤ d)

theorem dueOrLapsed_of_fallsDue {now d : ℤ} {r : LiveRow} (h : r.FallsDue queue now d) :
    r.queue = queue ∧ r.dueOrLapsed d = true ∧ r.hasAttempts = true := by
  rcases h with ⟨h, rfl⟩ | ⟨h, rfl⟩ | ⟨h, e, he, rfl⟩
  · simp only [LiveRow.ready, Bool.and_eq_true, decide_eq_true_eq] at h
    simp [LiveRow.dueOrLapsed, h]
  · simp only [LiveRow.awaitsRun, Bool.and_eq_true, decide_eq_true_eq] at h
    simp [LiveRow.dueOrLapsed, h]
  · simp only [LiveRow.awaitsLapse, Bool.and_eq_true, decide_eq_true_eq] at h
    simp [LiveRow.dueOrLapsed, LiveRow.lapsed, h, he]

theorem dueOrLapsed_of_overlooked {now d : ℤ} (hle : now ≤ d) {r : LiveRow}
    (h : r.Overlooked queue now d) : r.queue = queue ∧ r.dueOrLapsed d = true ∧ r.hasAttempts = true := by
  rcases h with h | ⟨hqueue, hstate, hatt, -, hrun⟩
  · simp only [LiveRow.reclaimable, Bool.and_eq_true, decide_eq_true_eq] at h
    obtain ⟨e, he, hlt⟩ := (Option.any_eq_true ..).mp h.1.1.2
    have hlt : e.val < now := by simpa using hlt
    simp [LiveRow.dueOrLapsed, LiveRow.lapsed, h, he, hlt.trans_le hle]
  · simp [LiveRow.dueOrLapsed, hqueue, hstate, hatt, hrun]

/-- At the least deadline of a queue a claim can return the rows whose own deadline it is and the
overlooked ones, if they have not expired by then. -/
theorem eligible_at_deadline_iff {now : Clock} {d : ℤ} (hd : IsLeast (db.deadlines queue now) d) {r : LiveRow}
    (hr : r ∈ db.live.rows) : r.Eligible queue d ↔
      r.unexpired d = true ∧ (r.FallsDue queue now d ∨ r.Overlooked queue now d) := by
  have hle := now_le_deadline hd.1
  constructor
  · rintro ⟨hqueue, hdue, hatt, hunexp⟩
    refine ⟨hunexp, ?_⟩
    have hnow : r.unexpired now = true := by
      cases hexp : r.expiresAt with
      | none => simp [LiveRow.unexpired, hexp]
      | some e =>
        have hlt : d < e := by simpa [LiveRow.unexpired, hexp] using hunexp
        simp [LiveRow.unexpired, hexp, hle.trans_lt hlt]
    -- A row with a deadline of its own by `d` has it at `d`, the least one.
    have hown {d' : ℤ} (hfalls : r.FallsDue queue now d') (hd' : d' ≤ d) : r.FallsDue queue now d := by
      rwa [le_antisymm (hd.2 ⟨r, hr, hfalls⟩) hd']
    cases hstate : r.state with
    | pending =>
      have hrun : r.runAt.val ≤ d := by simpa [LiveRow.dueOrLapsed, hstate] using hdue
      rcases le_or_gt r.runAt.val now with hpast | hlater
      · exact Or.inl (hown (Or.inl ⟨by simp [LiveRow.ready, hqueue, hstate, hpast, hatt, hnow], rfl⟩) hle)
      · exact Or.inr (Or.inr ⟨hqueue, hstate, hatt, hlater, hrun⟩)
    | scheduled =>
      have hrun : r.runAt.val ≤ d := by simpa [LiveRow.dueOrLapsed, hstate] using hdue
      exact Or.inl (hown (Or.inr (Or.inl ⟨by simp [LiveRow.awaitsRun, hqueue, hstate, hatt, hnow], rfl⟩))
        (max_le hrun hle))
    | processing =>
      have hlapsed : r.lapsed d = true := by simpa [LiveRow.dueOrLapsed, hstate] using hdue
      obtain ⟨e, he, hlt⟩ := (Option.any_eq_true ..).mp hlapsed
      have hlt : e.val < d := by simpa using hlt
      rcases lt_or_ge e.val now.secs with hpast | hheld
      · refine Or.inr (Or.inl ?_)
        simp [LiveRow.reclaimable, LiveRow.lapsed, hqueue, hstate, he, hpast, hatt, hnow]
      · refine Or.inl (hown (Or.inr (Or.inr ⟨?_, e, he, rfl⟩)) hlt)
        simp [LiveRow.awaitsLapse, LiveRow.leased, hqueue, hstate, he, hheld, hatt, hnow]
  · rintro ⟨hunexp, h⟩
    obtain ⟨hqueue, hdue, hatt⟩ := h.elim dueOrLapsed_of_fallsDue (dueOrLapsed_of_overlooked hle)
    exact ⟨hqueue, hdue, hatt, hunexp⟩

end Promise

/-- In every reachable state with the housekeeping cap out of play, a claim at the time `v` that
`queue_next_claim_at` announced returns a job if and only if, at the least deadline of the queue, the
lease ends in range and a row whose own deadline it is, or one that the answer overlooks, has not
expired. -/
theorem next_claim_at_promise_iff (next : String → ℤ → Except String ℤ) (calls : List Call)
    (emit : Emission LiveRow) (queue worker : String) (n : ℤ) (timeout : I64) (now v : Clock)
    (hn : 1 ≤ n)
    (hcap : (final (exec next) Db.fresh calls).backlog (LiveRow.scheduledIn queue) ≤ 1000)
    (hv : queueNextClaimAt queue now (final (exec next) Db.fresh calls) = .ok v.secs) :
    FindsWork emit queue worker n timeout v (final (exec next) Db.fresh calls) ↔
      ∃ d, IsLeast ((final (exec next) Db.fresh calls).deadlines queue now) d ∧
        InRange (d + timeout) ∧
        ∃ r ∈ (final (exec next) Db.fresh calls).live.rows, r.unexpired d = true ∧
          (r.FallsDue queue now d ∨ r.Overlooked queue now d) := by
  have hdb := (Ledger.run next calls).apart
  generalize final (exec next) Db.fresh calls = db at hcap hv hdb
  have hpos := v.pos
  have hleast : IsLeast (db.deadlines queue now) v := by
    rcases queueNextClaimAt_cases hv with ⟨hzero, -⟩ | hleast
    · omega
    · exact hleast
  rw [findsWork_iff hdb hn hcap]
  constructor
  · rintro ⟨hrange, r, hr, he⟩
    exact ⟨v, hleast, hrange, r, hr, (eligible_at_deadline_iff hleast hr).mp he⟩
  · rintro ⟨d, hd, hrange, r, hr, he⟩
    cases hleast.unique hd
    exact ⟨hrange, r, hr, (eligible_at_deadline_iff hleast hr).mpr he⟩

/-- At time 103 the job is under a lease until 105: the promise of 106 is kept. -/
theorem next_claim_at_promise_leased :
    FindsWork .inOrder "q" "v" 1 (.near 5) (.near 106)
      (final (exec fun _ u ↦ .ok (u + 1)) Db.fresh abandoned) := by
  have hv : queueNextClaimAt "q" (.near 103)
      (final (exec fun _ u ↦ .ok (u + 1)) Db.fresh abandoned) = .ok (Clock.near 106).secs := by
    decide
  refine (next_claim_at_promise_iff (fun _ u ↦ .ok (u + 1)) abandoned .inOrder "q" "v" 1 (.near 5)
    (.near 103) (.near 106) le_rfl (by decide) hv).mpr ⟨106, ?_, by decide, ?_⟩
  · rcases queueNextClaimAt_cases hv with ⟨hzero, -⟩ | hleast
    · exact absurd hzero (by decide)
    · exact hleast
  · have hrow : ∃ r ∈ (final (exec fun _ u ↦ .ok (u + 1)) Db.fresh abandoned).live.rows,
        r.unexpired 106 = true ∧ r.awaitsLapse "q" 103 = true ∧ r.claimExpiresAt = some (.int 105) := by
      decide
    obtain ⟨r, hr, hunexp, hlapse, he⟩ := hrow
    exact ⟨r, hr, hunexp, Or.inl (Or.inr (Or.inr ⟨hlapse, .int 105, he, rfl⟩))⟩

/-- A job that is to run in ten seconds and expires in five. -/
def expiresFirst : List Call :=
  [.at_ (.near 100) (.enqueue "q" "p" none (some (.near 10)) 0 3 (some (.near 5)))]

/-- The announced time is that of a row that expires first: the claim finds nothing. -/
theorem next_claim_at_broken_promise :
    (final (exec fun _ u ↦ .ok (u + 1)) Db.fresh expiresFirst).backlog
      (LiveRow.scheduledIn "q") ≤ 1000 ∧
    queueNextClaimAt "q" (.near 100)
      (final (exec fun _ u ↦ .ok (u + 1)) Db.fresh expiresFirst) = .ok (Clock.near 110).secs ∧
    ¬ FindsWork .inOrder "q" "w" 1 (.near 60) (.near 110)
      (final (exec fun _ u ↦ .ok (u + 1)) Db.fresh expiresFirst) := by
  refine ⟨by decide, by decide, fun h ↦ ?_⟩
  obtain ⟨job, jobs, hclaim⟩ := h
  have hnil : (claimBatch .inOrder "q" "w" 1 (.near 60) (.near 110)
      (final (exec fun _ u ↦ .ok (u + 1)) Db.fresh expiresFirst)).1 = .ok [] := by
    decide
  simp [hnil] at hclaim

end Honker
