import Honker.Library.Wakeup
import Honker.Wake
import Honker.Watcher

namespace Honker

open Relational Numeric Transition Wakeup

namespace ClaimWaker

/-- The next statement of a `ClaimWaker`, in `claim_waker` or in a call of `next` for a worker. -/
inductive Pc
  | absent
  | registering (id : ℕ)
  | idle
  | claiming (worker : String)
  | asking (worker : String)
  | deciding (worker : String) (nextAt : ℤ)
  | blocked (worker : String) (nextAt : ℤ)
  | draining (worker : String)
  | gone
deriving DecidableEq

/-- A `ClaimWaker`, with what the database was after its last claim, and the clock readings of that
claim and of the `honker_queue_next_claim_at` that followed. -/
structure Waker where
  pc : Pc
  queue : String
  visibilityTimeoutS : I64
  subId : ℕ
  chan : ℕ
  look : Look Db
  claimedAt : Clock
  askedAt : Clock

def Waker.absent : Waker := ⟨.absent, "", .near 0, 0, 0, (Board.new Db.fresh).look, .near 1, .near 1⟩

/-- The database, the watcher's hub and the wakers. `now` is the last clock reading. -/
structure Sys (ι : Type) where
  board : Board Db
  hub : Hub
  now : ℤ
  ws : ι → Waker

def Sys.new (ι : Type) : Sys ι := ⟨.new .fresh, .new, 0, fun _ ↦ .absent⟩

/-- A call by anyone else, a call of the watcher's `on_change`, the end of the watcher, or a step of a
waker. `env` gives the clock readings and the row order of a step's own statement, `wall` the reading of
`chrono_like_now`. -/
inductive Act (ι : Type)
  | call (c : Call)
  | onChange
  | clear
  | claimWaker (i : ι) (queue : String) (visibilityTimeoutS : I64)
  | insert (i : ι)
  | next (i : ι) (worker : String)
  | advance (i : ι) (env : Call) (wall : Clock)
  | drop (i : ι)

section System

variable {ι : Type} [DecidableEq ι] (next : String → ℤ → Except String ℤ)

def Sys.set (s : Sys ι) (i : ι) (w : Waker) : Sys ι := { s with ws := Function.update s.ws i w }

/-- A committed call on the database. -/
def Sys.perform (s : Sys ι) (c : Call) : Sys ι :=
  { s with
    board := s.board.put (exec next s.board.cur c).2
    now := (reading (event (exec next) s.board.cur c)).getD s.now }

def Waker.claim (w : Waker) (worker : String) (env : Call) : Call :=
  { env with op := .claimBatch w.queue worker 1 w.visibilityTimeoutS }

def afterClaim (worker : String) : Ret → Pc
  | .jobs [] => .asking worker
  | _ => .idle

/-- One statement of `next`, with `recv_until` as part of it. -/
def advance (s : Sys ι) (i : ι) (env : Call) (wall : Clock) : Sys ι :=
  let w := s.ws i
  match w.pc with
  | .claiming worker =>
    let s' := s.perform next (w.claim worker env)
    s'.set i { w with
      pc := afterClaim worker (exec next s.board.cur (w.claim worker env)).1
      look := s'.board.look
      claimedAt := env.clk 0 }
  | .asking worker =>
    match queueNextClaimAt w.queue (env.clk 0) s.board.cur with
    | .ok nextAt =>
      { s with now := env.clk 0 }.set i { w with pc := .deciding worker nextAt, askedAt := env.clk 0 }
    | .error _ => s.set i { w with pc := .idle }
  | .deciding worker nextAt =>
    { s with now := wall }.set i { w with
      pc := if 0 < nextAt ∧ nextAt ≤ wall then .claiming worker else .blocked worker nextAt }
  | .blocked worker nextAt =>
    if (s.hub.chan w.chan).tick then
      { s with hub := s.hub.takeTick w.chan }.set i { w with pc := .draining worker }
    else if ¬ s.hub.Connected w.chan then s.set i { w with pc := .idle }
    else if 0 < nextAt ∧ nextAt ≤ wall then s.set i { w with pc := .claiming worker }
    else s
  | .draining worker =>
    if (s.hub.chan w.chan).tick then { s with hub := s.hub.takeTick w.chan }
    else s.set i { w with pc := .claiming worker }
  | _ => s

def step (s : Sys ι) : Act ι → Sys ι
  | .call c => s.perform next c
  | .onChange => { s with hub := s.hub.onChange, board := s.board.announce }
  | .clear => { s with hub := s.hub.clear }
  | .claimWaker i queue visibilityTimeoutS =>
    match (s.ws i).pc with
    | .absent =>
      { s with hub := s.hub.fetchAdd.2 }.set i { Waker.absent with
        pc := .registering s.hub.fetchAdd.1, queue := queue, visibilityTimeoutS := visibilityTimeoutS }
    | _ => s
  | .insert i =>
    match (s.ws i).pc with
    | .registering id =>
      { s with hub := s.hub.insert id }.set i
        { s.ws i with pc := .idle, subId := id, chan := s.hub.made }
    | _ => s
  | .next i worker =>
    match (s.ws i).pc with
    | .idle => s.set i { s.ws i with pc := .claiming worker }
    | _ => s
  | .advance i env wall => advance next s i env wall
  | .drop i =>
    match (s.ws i).pc with
    | .idle =>
      { s with hub := (s.hub.unsubscribe (s.ws i).subId).dropReceiver (s.ws i).chan }.set i
        { s.ws i with pc := .gone }
    | _ => s

/-- The clock reading of a step. -/
def stamp (s : Sys ι) : Act ι → Option ℤ
  | .call c => reading (event (exec next) s.board.cur c)
  | .advance i env wall =>
    match (s.ws i).pc with
    | .claiming _ => some (env.clk 0)
    | .asking _ => some (env.clk 0)
    | .deciding _ _ => some wall
    | _ => none
  | _ => none

/-- The clock does not go back to before an earlier reading. -/
def Timely (s : Sys ι) (a : Act ι) : Prop := ∀ t, stamp next s a = some t → s.now ≤ t

instance (s : Sys ι) (a : Act ι) : Decidable (Timely next s a) :=
  inferInstanceAs (Decidable (∀ t, stamp next s a = some t → s.now ≤ t))

end System

section Nothing

variable {emit : Emission LiveRow} {queue worker : String} {timeout : I64} {now : Clock} {db db' : Db}

/-- A claim that hands nothing out leaves nothing that it could have claimed. -/
theorem none_claimable (h : claimBatch emit queue worker 1 timeout now db = (.ok [], db')) :
    ∀ r ∈ db'.live.rows, r.claimable queue now = false := by
  cases hkeep : housekeep queue now db with
  | error e =>
    rw [claimBatch_housekeep_error hkeep] at h
    cases h
  | ok T =>
    rw [claimBatch_eq emit worker 1 timeout hkeep] at h
    cases hsql : claimSql emit queue worker 1 timeout now T with
    | error e =>
      rw [hsql] at h
      cases h
    | ok x =>
      obtain ⟨jobs, db₁⟩ := x
      rw [hsql] at h
      cases h
      obtain ⟨hdb, -, hids, -⟩ := claimSql_ok hsql
      have hnone : claimRows queue (1 : ℕ) now T.live = [] := by simpa using hids
      have hlive : claimUpdate queue worker 1 timeout now T.live = T.live :=
        Table.update_of_forall_not fun r hr ↦ by simpa using List.filter_eq_nil_iff.mp hnone r hr
      have hnaive := claimRows_eq_nil.mp hnone
      rw [naiveClaim, List.take_eq_nil_iff] at hnaive
      intro r hr
      rw [hdb, hlive] at hr
      by_contra hc
      rw [Bool.not_eq_false] at hc
      have hmem : r ∈ orderBy LiveRow.claimOrder (T.live.rows.filter (LiveRow.claimable queue now)) :=
        mem_orderBy.mpr (List.mem_filter.mpr ⟨hr, hc⟩)
      rw [hnaive.resolve_left (by simp)] at hmem
      cases hmem

theorem exec_claim_nil {next : String → ℤ → Except String ℤ} {w : Waker} {env : Call}
    (h : (exec next db (w.claim worker env)).1 = .jobs []) :
    ∀ r ∈ (exec next db (w.claim worker env)).2.live.rows,
      r.claimable w.queue (env.clk 0) = false := by
  simp only [exec, Waker.claim] at h ⊢
  split at h
  case h_1 jobs db' hclaim =>
    cases h
    exact none_claimable hclaim
  case h_2 => cases h

/-- A lease that can be reclaimed at `t`, though a claim at `now` left the row alone, ran out between the
two. -/
theorem lapses_between {r : LiveRow} {t : Clock} (h : r.reclaimable queue t = true)
    (hnot : r.claimable queue now = false) (hle : now.secs ≤ t) :
    ∃ e, r.claimExpiresAt = some e ∧ now.secs ≤ e.val ∧ e.val < t.secs := by
  simp only [LiveRow.reclaimable, Bool.and_eq_true, decide_eq_true_eq] at h
  obtain ⟨⟨⟨⟨hq, hst⟩, hl⟩, ha⟩, hu⟩ := h
  have hlater : r.lapsed now = false := by
    simpa [LiveRow.claimable, hq, hst, ha, unexpired_mono hu hle] using hnot
  cases he : r.claimExpiresAt with
  | none => simp [LiveRow.lapsed, he] at hl
  | some e =>
    refine ⟨e, rfl, ?_, ?_⟩
    · simpa [LiveRow.lapsed, he] using hlater
    · simpa [LiveRow.lapsed, he] using hl

end Nothing

section Waker

/-- The places of a waker that has registered and not been dropped. -/
def Pc.attached : Pc → Bool
  | .absent => false
  | .registering _ => false
  | .gone => false
  | _ => true

/-- The places between a claim that found nothing and the next one. -/
def Pc.looked : Pc → Bool
  | .asking _ => true
  | .deciding _ _ => true
  | .blocked _ _ => true
  | _ => false

def Pc.nextAt : Pc → Option ℤ
  | .deciding _ v => some v
  | .blocked _ v => some v
  | _ => none

theorem Pc.looked_of_nextAt {pc : Pc} {v : ℤ} (h : pc.nextAt = some v) : pc.looked = true := by
  cases pc <;> first | rfl | cases h

theorem Pc.attached_of_looked {pc : Pc} (h : pc.looked = true) : pc.attached = true := by
  cases pc <;> first | rfl | cases h

/-- What a waker that has found nothing knows: its claim left nothing to claim, the deadline it was told
is that of the database its claim left, unless that has changed since, and it will be ticked about
every change since. -/
structure WakerInv (b : Board Db) (hub : Hub) (now : ℤ) (w : Waker) : Prop where
  channel : w.pc.attached = true → w.chan < hub.made ∧ (hub.chan w.chan).alive = true
  look : w.pc.looked = true → w.look.Guarded b (hub.Ready w.chan)
  empty : w.pc.looked = true → w.claimedAt.secs ≤ now ∧
    ∀ r ∈ w.look.found.live.rows, r.claimable w.queue w.claimedAt = false
  asked : ∀ v, w.pc.nextAt = some v → w.claimedAt.secs ≤ w.askedAt ∧ w.askedAt.secs ≤ now ∧
    (w.look.seen = b.changes → queueNextClaimAt w.queue w.askedAt w.look.found = .ok v ∧
      ∀ r ∈ w.look.found.live.rows, r.Sound w.askedAt)
  sleeps : ∀ worker v, w.pc = .blocked worker v → v ≤ 0 ∨ w.askedAt.secs < v

variable {b : Board Db} {hub hub' : Hub} {now now' : ℤ} {w w' : Waker}

theorem WakerInv.absent (h : w.pc.attached = false) : WakerInv b hub now w := by
  have hlooked : w.pc.looked = false := by
    by_contra hc
    simp [Pc.attached_of_looked (by simpa using hc)] at h
  refine ⟨by simp [h], by simp [hlooked], by simp [hlooked], fun v hv ↦ ?_, fun worker v hpc ↦ ?_⟩
  · simp [Pc.looked_of_nextAt hv] at hlooked
  · simp [hpc, Pc.looked] at hlooked

theorem WakerInv.put (h : WakerInv b hub now w) (db : Db) (hle : now ≤ now') :
    WakerInv (b.put db) hub now' w where
  channel := h.channel
  look hl := (h.look hl).put db
  empty hl := ⟨(h.empty hl).1.trans hle, (h.empty hl).2⟩
  asked v hv := by
    obtain ⟨hclaimed, hnow, hasked⟩ := h.asked v hv
    refine ⟨hclaimed, hnow.trans hle, fun hseen ↦ hasked ?_⟩
    exact le_antisymm (h.look (Pc.looked_of_nextAt hv)).seen (hseen ▸ b.changes_le_put db)
  sleeps := h.sleeps

theorem WakerInv.mono (h : WakerInv b hub now w) (hle : now ≤ now') : WakerInv b hub now' w where
  channel := h.channel
  look := h.look
  empty hl := ⟨(h.empty hl).1.trans hle, (h.empty hl).2⟩
  asked v hv := ⟨(h.asked v hv).1, (h.asked v hv).2.1.trans hle, (h.asked v hv).2.2⟩
  sleeps := h.sleeps

theorem WakerInv.keeps (h : WakerInv b hub now w)
    (hk : w.pc.attached = true → hub.Keeps hub' w.chan) : WakerInv b hub' now w where
  channel hatt :=
    ⟨(h.channel hatt).1.trans_le (hk hatt).made, (hk hatt).alive.trans (h.channel hatt).2⟩
  look hl := (h.look hl).mono (hk (Pc.attached_of_looked hl)).ready
  empty := h.empty
  asked := h.asked
  sleeps := h.sleeps

/-- The waker takes a tick out of its channel where it has not looked. -/
theorem WakerInv.takeTick (h : WakerInv b hub now w) (hlooked : w.pc.looked = false) :
    WakerInv b (hub.takeTick w.chan) now w where
  channel hatt := by
    rw [Hub.chan_takeTick_alive]
    exact h.channel hatt
  look hl := by simp [hlooked] at hl
  empty := h.empty
  asked := h.asked
  sleeps := h.sleeps

theorem WakerInv.onChange (h : WakerInv b hub now w) : WakerInv b.announce hub.onChange now w where
  channel hatt := by
    rw [Hub.chan_onChange_alive]
    exact h.channel hatt
  look hl := by
    rw [Hub.ready_onChange (h.channel (Pc.attached_of_looked hl)).2]
    exact (h.look hl).announce
  empty := h.empty
  asked := h.asked
  sleeps := h.sleeps

/-- A step of the waker to a place where it has not looked. -/
theorem WakerInv.of_pc (h : WakerInv b hub now w)
    (hchan : w'.pc.attached = true → w.pc.attached = true ∧ w'.chan = w.chan)
    (hlooked : w'.pc.looked = false) : WakerInv b hub now w' where
  channel hatt := by
    rw [(hchan hatt).2]
    exact h.channel (hchan hatt).1
  look hl := by simp [hlooked] at hl
  empty hl := by simp [hlooked] at hl
  asked v hv := by simp [Pc.looked_of_nextAt hv] at hlooked
  sleeps worker v hpc := by simp [hpc, Pc.looked] at hlooked

end Waker

section Run

variable {ι : Type} {next : String → ℤ → Except String ℤ}

/-- What holds of the database when `now` is the last clock reading. -/
structure Base (b : Board Db) (now : ℤ) : Prop where
  announced : b.announced ≤ b.changes
  ledger : Ledger b.cur
  sound : ∀ r ∈ b.cur.live.rows, r.Sound now

theorem Base.mono {b : Board Db} {now now' : ℤ} (h : Base b now) (hle : now ≤ now') : Base b now' :=
  ⟨h.announced, h.ledger, fun r hr ↦ (h.sound r hr).mono hle⟩

theorem sound_exec {db : Db} {now : ℤ} {c : Call} (hdb : ∀ r ∈ db.live.rows, r.Sound now)
    (hle : ∀ t, reading (event (exec next) db c) = some t → now ≤ t) :
    ∀ r ∈ (exec next db c).2.live.rows, r.Sound ((reading (event (exec next) db c)).getD now) := by
  refine rows_step next db c (fun r hfresh hmem ↦ ?_) (fun r r' hr hstep ↦ ?_) hdb
  · rw [reading_of_issued hmem]
    exact hfresh.sound
  · rcases hstep.reading_eq with rfl | ht
    · cases ht : reading (event (exec next) db c) with
      | none => exact hr
      | some t => exact hr.mono (hle t ht)
    · rw [ht]
      exact hr.step rfl (hle _ ht) hstep

theorem le_getD {now : ℤ} {x : Option ℤ} (h : ∀ t, x = some t → now ≤ t) : now ≤ x.getD now := by
  cases x with
  | none => exact le_rfl
  | some t => exact h t rfl

theorem Base.exec {b : Board Db} {now : ℤ} (h : Base b now) (c : Call)
    (hle : ∀ t, reading (event (Honker.exec next) b.cur c) = some t → now ≤ t) :
    Base (b.put (Honker.exec next b.cur c).2) ((reading (event (Honker.exec next) b.cur c)).getD now) where
  announced := by
    rw [Board.announced_put]
    exact h.announced.trans (b.changes_le_put _)
  ledger := by
    rw [Board.cur_put]
    exact h.ledger.step c
  sound := by
    rw [Board.cur_put]
    exact sound_exec h.sound hle

structure Inv (s : Sys ι) : Prop where
  base : Base s.board s.now
  waker : ∀ i, WakerInv s.board s.hub s.now (s.ws i)
  distinct : ∀ i j, (s.ws i).pc.attached = true → (s.ws j).pc.attached = true →
    (s.ws i).chan = (s.ws j).chan → i = j

theorem Inv.new : Inv (Sys.new ι) where
  base := ⟨le_rfl, .fresh, by simp [Sys.new, Board.new, Db.fresh, Table.empty]⟩
  waker i := .absent rfl
  distinct i j hi := by cases hi

variable {s s' : Sys ι} {i : ι} {w : Waker}

/-- A tick taken out of one channel, as the other wakers see it. -/
theorem Inv.takeTick (h : Inv s) (hi : (s.ws i).pc.attached = true) (j : ι) (hj : j ≠ i) :
    WakerInv s.board (s.hub.takeTick (s.ws i).chan) s.now (s.ws j) :=
  (h.waker j).keeps fun hatt ↦ s.hub.keeps_takeTick fun he ↦ hj (h.distinct j i hatt hi he)

/-- The end of another waker. -/
theorem Inv.drop (h : Inv s) (hi : (s.ws i).pc.attached = true) (id : ℕ) (j : ι) (hj : j ≠ i) :
    WakerInv s.board ((s.hub.unsubscribe id).dropReceiver (s.ws i).chan) s.now (s.ws j) := by
  refine (h.waker j).keeps fun hatt ↦ (s.hub.keeps_unsubscribe _ _).trans (Hub.keeps_dropReceiver _ ?_)
  exact fun he ↦ hj (h.distinct j i hatt hi he)

theorem Inv.perform (h : Inv s) (c : Call)
    (hle : ∀ t, reading (event (exec next) s.board.cur c) = some t → s.now ≤ t) :
    Inv (s.perform next c) :=
  ⟨h.base.exec c hle, fun j ↦ (h.waker j).put _ (le_getD hle), h.distinct⟩

variable [DecidableEq ι]

/-- A step of one waker, in a system that looks the same to the others. -/
theorem Inv.set (h : Inv s) (hws : s'.ws = s.ws) (hbase : Base s'.board s'.now)
    (hown : WakerInv s'.board s'.hub s'.now w)
    (hothers : ∀ j, j ≠ i → WakerInv s'.board s'.hub s'.now (s.ws j))
    (hdistinct : w.pc.attached = true → ∀ j, j ≠ i → (s.ws j).pc.attached = true →
      w.chan ≠ (s.ws j).chan) : Inv (s'.set i w) := by
  refine ⟨hbase, fun j ↦ ?_, fun j k hj hk hjk ↦ ?_⟩
  · simp only [Sys.set, hws, Function.update_apply]
    split_ifs with hj
    · exact hown
    · exact hothers j hj
  · simp only [Sys.set, hws, Function.update_apply] at hj hk hjk
    split_ifs at hj hk hjk with hji hki hki
    · rw [hji, hki]
    · exact absurd hjk (hdistinct hj k hki hk)
    · exact absurd hjk.symm (hdistinct hk j hji hj)
    · exact h.distinct j k hj hk hjk

theorem Inv.set_own (h : Inv s) (hws : s'.ws = s.ws) (hbase : Base s'.board s'.now)
    (hown : WakerInv s'.board s'.hub s'.now w)
    (hothers : ∀ j, j ≠ i → WakerInv s'.board s'.hub s'.now (s.ws j))
    (hchan : w.pc.attached = true → (s.ws i).pc.attached = true ∧ w.chan = (s.ws i).chan) :
    Inv (s'.set i w) := by
  refine h.set hws hbase hown hothers fun hw j hj hattached he ↦ hj ?_
  obtain ⟨hi, hc⟩ := hchan hw
  exact (h.distinct i j hi hattached (hc.symm.trans he)).symm

theorem Inv.set_local (h : Inv s) (hown : WakerInv s.board s.hub s.now w)
    (hchan : w.pc.attached = true → (s.ws i).pc.attached = true ∧ w.chan = (s.ws i).chan) :
    Inv (s.set i w) := h.set_own rfl h.base hown (fun j _ ↦ h.waker j) hchan

/-- A claim that finds nothing is a look at the database it leaves. -/
theorem inv_claim (h : Inv s) {worker : String} {env : Call} (hpc : (s.ws i).pc = .claiming worker)
    (hle : s.now ≤ env.clk 0) (wall : Clock) : Inv (advance next s i env wall) := by
  simp only [advance, hpc]
  have hread (t : ℤ)
      (ht : reading (event (exec next) s.board.cur ((s.ws i).claim worker env)) = some t) :
      t = env.clk 0 := by
    unfold reading at ht
    split at ht <;> first | exact (Option.some.inj ht).symm | cases ht
  have hperform := h.perform ((s.ws i).claim worker env) fun t ht ↦ (hread t ht).symm ▸ hle
  have hatt : (s.ws i).pc.attached = true := by rw [hpc]; rfl
  refine h.set_own rfl hperform.base ?_ (fun j _ ↦ hperform.waker j) fun _ ↦ ⟨hatt, rfl⟩
  cases hout : (exec next s.board.cur ((s.ws i).claim worker env)).1 with
  | jobs l =>
    cases l with
    | nil =>
      refine ⟨fun _ ↦ (hperform.waker i).channel hatt, fun _ ↦ .look hperform.base.announced,
        fun _ ↦ ⟨?_, ?_⟩, fun v hv ↦ ?_, fun _ v hv ↦ ?_⟩
      · -- The claim succeeded, so that it made a reading.
        have hsome : reading (event (exec next) s.board.cur ((s.ws i).claim worker env)) =
            some ↑(env.clk 0) := by
          simp only [reading, event, hout]
          rfl
        simp [Sys.perform, hsome]
      · have hnone := exec_claim_nil hout
        simpa [Board.look, Sys.perform] using hnone
      · cases hv
      · cases hv
    | cons job l => exact (hperform.waker i).of_pc (fun _ ↦ ⟨hatt, rfl⟩) rfl
  | _ => exact (hperform.waker i).of_pc (fun _ ↦ ⟨hatt, rfl⟩) rfl

theorem inv_ask (h : Inv s) {worker : String} {env : Call} (hpc : (s.ws i).pc = .asking worker)
    (hle : s.now ≤ env.clk 0) (wall : Clock) : Inv (advance next s i env wall) := by
  simp only [advance, hpc]
  have hatt : (s.ws i).pc.attached = true := by rw [hpc]; rfl
  have hlooked : (s.ws i).pc.looked = true := by rw [hpc]; rfl
  cases hask : queueNextClaimAt (s.ws i).queue (env.clk 0) s.board.cur with
  | error e => exact h.set_local ((h.waker i).of_pc (fun _ ↦ ⟨hatt, rfl⟩) rfl) fun _ ↦ ⟨hatt, rfl⟩
  | ok nextAt =>
    have hw := (h.waker i).mono hle
    refine h.set_own rfl (h.base.mono hle) ⟨fun _ ↦ hw.channel hatt, fun _ ↦ hw.look hlooked,
      fun _ ↦ hw.empty hlooked, fun v hv ↦ ?_, fun _ v hv ↦ by cases hv⟩
      (fun j _ ↦ (h.waker j).mono hle) fun _ ↦ ⟨hatt, rfl⟩
    cases hv
    refine ⟨((h.waker i).empty hlooked).1.trans hle, le_rfl, fun hseen ↦ ?_⟩
    rw [(hw.look hlooked).found hseen]
    exact ⟨hask, (h.base.mono hle).sound⟩

theorem inv_decide (h : Inv s) {worker : String} {nextAt : ℤ} {wall : Clock}
    (hpc : (s.ws i).pc = .deciding worker nextAt) (hle : s.now ≤ wall) (env : Call) :
    Inv (advance next s i env wall) := by
  simp only [advance, hpc]
  have hatt : (s.ws i).pc.attached = true := by rw [hpc]; rfl
  have hlooked : (s.ws i).pc.looked = true := by rw [hpc]; rfl
  have hw := (h.waker i).mono hle
  refine h.set_own rfl (h.base.mono hle) ?_ (fun j _ ↦ (h.waker j).mono hle) fun _ ↦ ⟨hatt, rfl⟩
  split_ifs with hdue
  · exact hw.of_pc (fun _ ↦ ⟨hatt, rfl⟩) rfl
  · have hasked := h.waker i |>.asked nextAt (by rw [hpc]; rfl)
    refine ⟨fun _ ↦ hw.channel hatt, fun _ ↦ hw.look hlooked, fun _ ↦ hw.empty hlooked, fun v hv ↦ ?_,
      fun _ v hv ↦ ?_⟩
    · cases hv
      exact hw.asked nextAt (by rw [hpc]; rfl)
    · cases hv
      by_contra hsleeps
      push Not at hsleeps
      exact hdue ⟨hsleeps.1, hsleeps.2.trans (hasked.2.1.trans hle)⟩

theorem inv_step (a : Act ι) (h : Inv s) (ha : Timely next s a) : Inv (step next s a) := by
  cases a with
  | call c => exact h.perform c ha
  | onChange => exact ⟨⟨le_rfl, h.base.ledger, h.base.sound⟩, fun j ↦ (h.waker j).onChange, h.distinct⟩
  | clear => exact ⟨h.base, fun j ↦ (h.waker j).keeps fun _ ↦ s.hub.keeps_clear _, h.distinct⟩
  | claimWaker i queue visibilityTimeoutS =>
    cases hpc : (s.ws i).pc <;> simp only [step, hpc]
    case absent =>
      refine h.set rfl h.base (.absent rfl) (fun j _ ↦ ?_) fun hw ↦ by cases hw
      exact (h.waker j).keeps fun _ ↦ s.hub.keeps_fetchAdd _
    all_goals exact h
  | insert i =>
    cases hpc : (s.ws i).pc <;> simp only [step, hpc]
    case registering id =>
      have hlt (j : ι) (hj : (s.ws j).pc.attached = true) : (s.ws j).chan < s.hub.made :=
        ((h.waker j).channel hj).1
      refine h.set rfl h.base ?_ (fun j _ ↦ ?_) fun _ j _ hj ↦ (hlt j hj).ne'
      · refine ⟨fun _ ↦ ⟨Nat.lt_succ_self _, ?_⟩, ?_, ?_, ?_, ?_⟩
        · simp [Hub.insert]
        · intro hl
          cases hl
        · intro hl
          cases hl
        · intro v hv
          cases hv
        · intro worker v hv
          cases hv
      · exact (h.waker j).keeps fun hj ↦ Hub.keeps_insert (hlt j hj) id
    all_goals exact h
  | next i worker =>
    cases hpc : (s.ws i).pc <;> simp only [step, hpc]
    case idle =>
      have hatt : (s.ws i).pc.attached = true := by rw [hpc]; rfl
      exact h.set_local ((h.waker i).of_pc (fun _ ↦ ⟨hatt, rfl⟩) rfl) fun _ ↦ ⟨hatt, rfl⟩
    all_goals exact h
  | advance i env wall =>
    cases hpc : (s.ws i).pc <;> rw [step]
    case claiming worker => exact inv_claim h hpc (ha _ (by simp [stamp, hpc])) wall
    case asking worker => exact inv_ask h hpc (ha _ (by simp [stamp, hpc])) wall
    case deciding worker nextAt => exact inv_decide h hpc (ha _ (by simp [stamp, hpc])) env
    case blocked worker nextAt =>
      have hatt : (s.ws i).pc.attached = true := by rw [hpc]; rfl
      have hset (pc : Pc) (hl : pc.looked = false) :
          WakerInv s.board s.hub s.now { s.ws i with pc := pc } :=
        (h.waker i).of_pc (fun _ ↦ ⟨hatt, rfl⟩) hl
      simp only [advance, hpc]
      split_ifs
      · exact h.set_own rfl h.base ((hset (.draining worker) rfl).takeTick rfl) (h.takeTick hatt) fun _ ↦
          ⟨hatt, rfl⟩
      · exact h.set_local (hset _ rfl) fun _ ↦ ⟨hatt, rfl⟩
      · exact h
      · exact h.set_local (hset _ rfl) fun _ ↦ ⟨hatt, rfl⟩
    case draining worker =>
      have hatt : (s.ws i).pc.attached = true := by rw [hpc]; rfl
      simp only [advance, hpc]
      split_ifs
      · refine ⟨h.base, fun j ↦ ?_, h.distinct⟩
        by_cases hj : j = i
        · subst hj
          exact (h.waker j).takeTick (by rw [hpc]; rfl)
        · exact h.takeTick hatt j hj
      · exact h.set_local ((h.waker i).of_pc (fun _ ↦ ⟨hatt, rfl⟩) rfl) fun _ ↦ ⟨hatt, rfl⟩
    all_goals
      simp only [advance, hpc]
      exact h
  | drop i =>
    cases hpc : (s.ws i).pc <;> simp only [step, hpc]
    case idle =>
      have hatt : (s.ws i).pc.attached = true := by rw [hpc]; rfl
      exact h.set rfl h.base (.absent rfl) (h.drop hatt _) fun hw ↦ by cases hw
    all_goals exact h

variable (next) in
/-- In every run of wakers beside any other calls, with a clock that does not go back: a waker that is
blocked on an empty channel, once the watcher has announced every change, knows the current database.
It then sleeps through no claimable job if and only if no lease that could be reclaimed has lapsed by the
time it asked for its deadline, so at least if no lease ran out between its claim and that time. -/
theorem waker_never_strands (as : List (Act ι))
    (has : Interleaving.Along (step next) (Timely next) (.new ι) as) (i : ι) {worker : String} {v : ℤ} :
    let s := Interleaving.run (step next) (.new ι) as
    let w := s.ws i
    w.pc = .blocked worker v → s.hub.Ready w.chan = false → s.board.announced = s.board.changes →
    w.look.found = s.board.cur ∧ queueNextClaimAt w.queue w.askedAt s.board.cur = .ok v ∧
      (NeverOversleeps w.queue w.askedAt v s.board.cur ↔
        ∀ r ∈ s.board.cur.live.rows, r.reclaimable w.queue w.askedAt = false) ∧
      ((∀ r ∈ s.board.cur.live.rows, ∀ e, r.claimExpiresAt = some e → e.val < w.claimedAt.secs ∨
          w.askedAt.secs ≤ e.val) →
        NeverOversleeps w.queue w.askedAt v s.board.cur) := by
  intro s w hpc hready hall
  have h : Inv s := Interleaving.along_invariant (step next) (fun s a ha hs ↦ inv_step a hs ha) .new has
  have hw : WakerInv s.board s.hub s.now w := h.waker i
  have hlooked : w.pc.looked = true := by rw [hpc]; rfl
  have hguard := hw.look hlooked
  rw [hready] at hguard
  obtain ⟨hseen, hfound⟩ := hguard.current hall
  obtain ⟨hclaimed, -, hasked⟩ := hw.asked v (by rw [hpc]; rfl)
  obtain ⟨hv, hsound⟩ := hasked hseen
  have hempty := (hw.empty hlooked).2
  rw [hfound] at hv hsound hempty
  have hwaits : Waits w.queue w.askedAt v s.board.cur := by
    rcases queueNextClaimAt_ok hv with ⟨hnow, -⟩ | hwaits
    · have hpos := w.askedAt.pos
      rcases hw.sleeps worker v hpc with hle | hlt <;> omega
    · exact hwaits
  have hiff : NeverOversleeps w.queue w.askedAt v s.board.cur ↔
      ∀ r ∈ s.board.cur.live.rows, r.reclaimable w.queue w.askedAt = false := by
    constructor
    · intro hnever r hr
      by_contra hrec
      refine claim_of_reclaimable h.base.ledger.apart hr (by simpa using hrec) ?_
      exact hnever .inOrder "w" 1 (.near 0) w.askedAt le_rfl le_rfl hwaits.later
    · exact hwaits.claim_nil h.base.ledger.apart hsound le_rfl
  refine ⟨hfound, hv, hiff, fun hlapse ↦ hiff.mpr fun r hr ↦ ?_⟩
  by_contra hrec
  obtain ⟨e, he, hle, hlt⟩ := lapses_between (by simpa using hrec) (hempty r hr) hclaimed
  rcases hlapse r hr e he with hbefore | hafter <;> omega

/-- A job is under a lease until 105 when a waker comes at 103, and blocks until 106. -/
def sleepsOnLease : List (Act Unit) :=
  [.call (.at_ (.near 100) (.enqueue "q" "p" none none 0 3 none)),
   .call (.at_ (.near 100) (.claimBatch "q" "v" 1 (.near 5))), .onChange,
   .claimWaker () "q" (.near 60), .insert (), .next () "w",
   .advance () (.at_ (.near 103) (.cancel 0)) (.near 103),
   .advance () (.at_ (.near 103) (.cancel 0)) (.near 103),
   .advance () (.at_ (.near 103) (.cancel 0)) (.near 103)]

theorem waker_never_strands_sleepsOnLease :
    let s := Interleaving.run (step fun _ u ↦ .ok (u + 1)) (.new Unit) sleepsOnLease
    (s.ws ()).pc = .blocked "w" 106 ∧ NeverOversleeps "q" (.near 103) 106 s.board.cur := by
  intro s
  have hpc : (s.ws ()).pc = .blocked "w" 106 := by decide +kernel
  have hqueue : (s.ws ()).queue = "q" := by decide +kernel
  have hasked : (s.ws ()).askedAt = .near 103 := by decide +kernel
  have htimely : Interleaving.Along (step fun _ u ↦ .ok (u + 1)) (Timely fun _ u ↦ .ok (u + 1)) (.new Unit)
      sleepsOnLease := by decide +kernel
  have hnever := (waker_never_strands (fun _ u ↦ .ok (u + 1)) sleepsOnLease htimely () hpc
    (by decide +kernel) (by decide +kernel)).2.2.2 (by decide +kernel)
  rw [hqueue, hasked] at hnever
  exact ⟨hpc, hnever⟩

end Run

end ClaimWaker

end Honker
