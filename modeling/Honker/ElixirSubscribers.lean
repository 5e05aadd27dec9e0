import Honker.ElixirHub

namespace Honker

open Interleaving

namespace ElixirHub

section Books

variable {ι : Type}

/-- What the hub has written down about a process: its monitors, which have reported it if it is dead,
and what its entries rest on; and what it has sent to a subscriber that is there. -/
structure Books (ms : List (Msg ι)) (s : Sys ι) : Prop where
  monitors : ∀ p m, s.hub.subscribers p = some m ∨ s.hub.waiterMonitors p = some m →
    m < s.fresh ∧ ((s.clients p).alive = true ∨ .down m p ∈ ms)
  apart : ∀ p q m, s.hub.subscribers p = some m →
    s.hub.waiterMonitors q ≠ some m ∧ (s.hub.subscribers q = some m → q = p)
  waiters : ∀ w ∈ s.hub.waiters, (s.hub.waiterMonitors w.pid).isSome
  seen : ∀ p, (s.hub.seen p).isSome → (s.hub.waiterMonitors p).isSome
  updates : ∀ p, (s.hub.subscribers p).isSome → (s.clients p).alive = true →
    (s.clients p).joined ≤ s.hub.generation ∧
      (s.clients p).updates = List.range' ((s.clients p).joined + 1) (s.hub.generation - (s.clients p).joined)
  errors : s.hub.error.isSome → ∀ p, (s.hub.subscribers p).isSome → (s.clients p).alive = true →
    (s.clients p).errors.getLast? = s.hub.error

variable {ms ms' : List (Msg ι)} {s s' : Sys ι}

theorem Books.init : Books [] (Sys.init ι) := by
  constructor <;> simp [Sys.init]

/-- A step that leaves the books, and takes no report of a death away. -/
theorem Books.of_same (h : Books ms s) (hhub : s'.hub = s.hub) (hfresh : s.fresh ≤ s'.fresh)
    (hdowns : ∀ m p, .down m p ∈ ms → .down m p ∈ ms')
    (hclients : ∀ p, (s'.clients p).alive = (s.clients p).alive ∧ (s'.clients p).joined = (s.clients p).joined ∧
      (s'.clients p).updates = (s.clients p).updates ∧ (s'.clients p).errors = (s.clients p).errors) :
    Books ms' s' where
  monitors p m hm := by
    rw [hhub] at hm
    rw [(hclients p).1]
    exact ⟨(h.monitors p m hm).1.trans_le hfresh, (h.monitors p m hm).2.imp_right (hdowns m p)⟩
  apart := hhub ▸ h.apart
  waiters := hhub ▸ h.waiters
  seen := hhub ▸ h.seen
  updates p := by
    rw [hhub, (hclients p).1, (hclients p).2.1, (hclients p).2.2.1]
    exact h.updates p
  errors he p := by
    rw [hhub] at he ⊢
    rw [(hclients p).1, (hclients p).2.2.2]
    exact h.errors he p

theorem Books.answer (h : Books ms s) (tags : List ℕ) (r : Reply) : Books ms (s.answer tags r) :=
  h.of_same rfl le_rfl (fun _ _ hd ↦ hd) fun _ ↦
    ⟨Client.answer_alive, Client.answer_joined, Client.answer_updates, Client.answer_errors⟩

theorem Books.answerWaiters (h : Books ms s) (r : Reply) : Books ms (answerWaiters s r) := by
  refine Books.answer ?_ _ _
  exact ⟨h.monitors, h.apart, nofun, h.seen, h.updates, h.errors⟩

/-- A message that is no report of a death is taken out. -/
theorem Books.pop {m : Msg ι} (h : Books (m :: ms) s) (hm : ∀ monitor p, m ≠ .down monitor p) : Books ms s := by
  refine h.of_same rfl le_rfl (fun monitor p hd ↦ ?_) fun _ ↦ ⟨rfl, rfl, rfl, rfl⟩
  rcases List.mem_cons.mp hd with he | hd
  · exact absurd he.symm (hm monitor p)
  · exact hd

theorem Books.watcherError (h : Books ms s) (reason : Reason) : Books ms (watcherError s reason) := by
  have hend := h.answerWaiters (.error reason)
  have halive (p : ι) : ((ElixirHub.watcherError s reason).clients p).alive =
      ((ElixirHub.answerWaiters s (.error reason)).clients p).alive := by
    simp only [ElixirHub.watcherError, Sys.tellSubscribers]
    split_ifs <;> rfl
  refine ⟨fun p m hm ↦ ?_, hend.apart, fun _ hw ↦ absurd hw List.not_mem_nil, hend.seen, fun p hsub ha ↦ ?_, fun _ p hsub ha ↦ ?_⟩
  · rw [halive]
    exact hend.monitors p m hm
  · rw [halive] at ha
    simp only [ElixirHub.watcherError, Sys.tellSubscribers]
    split_ifs <;> exact hend.updates p hsub ha
  · rw [halive] at ha
    simp only [ElixirHub.watcherError, Sys.tellSubscribers]
    rw [if_pos ⟨hsub, ha⟩]
    simp

theorem mem_monitor {m : ℕ} {p q : ι} (h : .down m q ∈ s.mailbox) : .down m q ∈ (s.monitor p).2.mailbox := by
  simp only [Sys.monitor]
  split_ifs
  · exact h
  · exact List.mem_append_left _ h

/-- A new monitor watches a process that is there, or reports it. -/
theorem monitor_watches (s : Sys ι) (p : ι) :
    (s.clients p).alive = true ∨ .down s.fresh p ∈ (s.monitor p).2.mailbox := by
  by_cases ha : (s.clients p).alive = true
  · exact Or.inl ha
  · simp [Sys.monitor, ha]

theorem Books.waitTimeout (h : Books s.mailbox s) (ref : ℕ) :
    Books (waitTimeout s ref).mailbox (waitTimeout s ref) := by
  unfold ElixirHub.waitTimeout
  split
  · exact h
  · refine Books.answer ?_ _ _
    exact ⟨h.monitors, h.apart, fun w hw ↦ h.waiters w (List.mem_of_mem_filter hw), h.seen, h.updates, h.errors⟩

theorem Books.close (s : Sys ι) (tag : ℕ) : Books (close s tag).mailbox (close s tag) := by
  constructor <;> simp [ElixirHub.close]

/-- A step that leaves the hub and the entries alone, and adds to the mailbox. -/
theorem Books.extend (h : Books s.mailbox s) (hhub : s'.hub = s.hub) (hfresh : s.fresh ≤ s'.fresh)
    (hmailbox : s.mailbox <+: s'.mailbox)
    (hclients : ∀ p, (s'.clients p).alive = (s.clients p).alive ∧ (s'.clients p).joined = (s.clients p).joined ∧
      (s'.clients p).updates = (s.clients p).updates ∧ (s'.clients p).errors = (s.clients p).errors) :
    Books s'.mailbox s' :=
  h.of_same hhub hfresh (fun _ _ hd ↦ hmailbox.subset hd) hclients

variable [DecidableEq ι]

theorem Books.ensureWaiterMonitor (h : Books s.mailbox s) (p : ι) :
    Books (ensureWaiterMonitor s p).mailbox (ensureWaiterMonitor s p) ∧
      ((ensureWaiterMonitor s p).hub.waiterMonitors p).isSome := by
  unfold ElixirHub.ensureWaiterMonitor
  split
  case h_1 hsome => exact ⟨h, by rw [hsome]; rfl⟩
  case h_2 hnone =>
    have hold {q : ι} {m : ℕ} (hm : s.hub.subscribers q = some m ∨ s.hub.waiterMonitors q = some m) :
        m < s.fresh + 1 ∧ ((s.clients q).alive = true ∨ .down m q ∈ (s.monitor p).2.mailbox) :=
      ⟨(h.monitors q m hm).1.trans (Nat.lt_succ_self _), (h.monitors q m hm).2.imp_right mem_monitor⟩
    refine ⟨⟨fun q m hm ↦ ?_, fun q q' m hm ↦ ⟨?_, (h.apart q q' m hm).2⟩, fun w hw ↦ ?_, fun q hq ↦ ?_, h.updates,
      h.errors⟩, by simp⟩
    · rcases hm with hm | hm
      · exact hold (Or.inl hm)
      · simp only [Function.update_apply] at hm
        split_ifs at hm with hqp
        · cases hm
          rw [hqp]
          exact ⟨Nat.lt_succ_self _, monitor_watches s p⟩
        · exact hold (Or.inr hm)
    · simp only [Function.update_apply]
      split_ifs
      · intro he
        exact (h.monitors q m (Or.inl hm)).1.ne (Option.some.inj he).symm
      · exact (h.apart q q' m hm).1
    · simp only [Function.update_apply]
      split_ifs
      · rfl
      · exact h.waiters w hw
    · simp only [Function.update_apply]
      split_ifs
      · rfl
      · exact h.seen q hq

/-- A subscriber joins: it has a monitor of its own and has been sent nothing yet. -/
theorem Books.subscribe (h : Books s.mailbox s) (tag : ℕ) (p : ι) :
    Books (subscribe s tag p).mailbox (subscribe s tag p) := by
  unfold ElixirHub.subscribe
  split
  case h_1 => exact h.answer _ _
  case h_2 herror =>
    split
    case h_1 => exact h.answer _ _
    case h_2 hnone =>
      have hold {q : ι} {m : ℕ} (hm : s.hub.subscribers q = some m ∨ s.hub.waiterMonitors q = some m) :
          m < s.fresh + 1 ∧ ((s.clients q).alive = true ∨ .down m q ∈ (s.monitor p).2.mailbox) :=
        ⟨(h.monitors q m hm).1.trans (Nat.lt_succ_self _), (h.monitors q m hm).2.imp_right mem_monitor⟩
      have hfresh (q : ι) : s.hub.subscribers q ≠ some s.fresh ∧ s.hub.waiterMonitors q ≠ some s.fresh :=
        ⟨fun hq ↦ lt_irrefl _ (h.monitors q _ (Or.inl hq)).1, fun hq ↦ lt_irrefl _ (h.monitors q _ (Or.inr hq)).1⟩
      have halive (q : ι) : (Function.update s.clients p { s.clients p with
          joined := s.hub.generation, updates := [] } q).alive = (s.clients q).alive := by
        simp only [Function.update_apply]
        split_ifs with hqp
        · rw [hqp]
        · rfl
      refine Books.answer ?_ _ _
      refine ⟨fun q m hm ↦ ?_, fun q q' m hm ↦ ?_, h.waiters, h.seen, fun q hq ha ↦ ?_, fun he ↦ ?_⟩
      · have hq : m < s.fresh + 1 ∧ ((s.clients q).alive = true ∨ .down m q ∈ (s.monitor p).2.mailbox) := by
          rcases hm with hm | hm
          · simp only [Function.update_apply] at hm
            split_ifs at hm with hqp
            · cases hm
              rw [hqp]
              exact ⟨Nat.lt_succ_self _, monitor_watches s p⟩
            · exact hold (Or.inl hm)
          · exact hold (Or.inr hm)
        exact ⟨hq.1, hq.2.imp_left (halive q).trans⟩
      · simp only [Function.update_apply] at hm ⊢
        split_ifs at hm with hqp
        · cases hm
          refine ⟨(hfresh q').2, fun he ↦ ?_⟩
          split_ifs at he with hqp'
          · exact hqp'.trans hqp.symm
          · exact absurd he (hfresh q').1
        · refine ⟨(h.apart q q' m hm).1, fun he ↦ ?_⟩
          split_ifs at he with hqp'
          · cases he
            exact absurd hm (hfresh q).1
          · exact (h.apart q q' m hm).2 he
      · simp only [Function.update_apply] at hq ha ⊢
        split_ifs at hq ha ⊢ with hqp
        · simp
        · exact h.updates q hq ha
      · exact absurd he (by simp [herror])

/-- A subscriber leaves, with the reports of its monitor. -/
theorem Books.leave {p : ι} {monitor : ℕ} (h : Books ms s) (hp : s.hub.subscribers p = some monitor)
    (hms : ∀ m q, m ≠ monitor → .down m q ∈ ms → .down m q ∈ s.mailbox) :
    Books (dropSubscriber s p).mailbox (dropSubscriber s p) := by
  have hsub {q : ι} {m : ℕ} (hq : Function.update s.hub.subscribers p none q = some m) :
      s.hub.subscribers q = some m ∧ q ≠ p := by
    rw [Function.update_apply] at hq
    split_ifs at hq with hqp
    exact ⟨hq, hqp⟩
  have hsome {q : ι} (hq : (Function.update s.hub.subscribers p none q).isSome) :
      (s.hub.subscribers q).isSome := by
    obtain ⟨m, hm⟩ := Option.isSome_iff_exists.mp hq
    exact Option.isSome_of_eq_some (hsub hm).1
  unfold ElixirHub.dropSubscriber
  rw [hp]
  refine ⟨fun q m hm ↦ ?_, fun q q' m hm ↦ ⟨(h.apart q q' m (hsub hm).1).1, fun hq' ↦
    (h.apart q q' m (hsub hm).1).2 (hsub hq').1⟩, h.waiters, h.seen, fun q hq ↦ h.updates q (hsome hq),
    fun he q hq ↦ h.errors he q (hsome hq)⟩
  have hm' : s.hub.subscribers q = some m ∨ s.hub.waiterMonitors q = some m := hm.imp_left fun hq ↦ (hsub hq).1
  have hne : m ≠ monitor := by
    rintro rfl
    rcases hm with hq | hq
    · exact (hsub hq).2 ((h.apart p q m hp).2 (hsub hq).1)
    · exact (h.apart p q m hp).1 hq
  refine ⟨(h.monitors q m hm').1, (h.monitors q m hm').2.imp_right fun hd ↦ ?_⟩
  exact List.mem_filter.mpr ⟨hms m q hne hd, by simp [Msg.isDown, hne]⟩

theorem Books.dropSubscriber (h : Books s.mailbox s) (p : ι) :
    Books (dropSubscriber s p).mailbox (dropSubscriber s p) := by
  cases hp : s.hub.subscribers p with
  | none =>
    have heq : ElixirHub.dropSubscriber s p = s := by
      unfold ElixirHub.dropSubscriber
      rw [hp]
    rwa [heq]
  | some monitor => exact h.leave hp fun _ _ _ hd ↦ hd

/-- A waiting process leaves, with all that it has. -/
theorem Books.dropWaiterProcess {p : ι} (h : Books ms s)
    (hms : ∀ m q, (s.hub.subscribers q = some m ∨ q ≠ p) → .down m q ∈ ms → .down m q ∈ s.mailbox) :
    Books (dropWaiterProcess s p).mailbox (dropWaiterProcess s p) := by
  refine ⟨fun q m hm ↦ ?_, fun q q' m hm ↦ ⟨fun hq' ↦ ?_, (h.apart q q' m hm).2⟩, fun w hw ↦ ?_, fun q hq ↦ ?_,
    h.updates, h.errors⟩
  · simp only [ElixirHub.dropWaiterProcess, Function.update_apply] at hm ⊢
    rcases hm with hm | hm
    · exact ⟨(h.monitors q m (Or.inl hm)).1, (h.monitors q m (Or.inl hm)).2.imp_right (hms m q (Or.inl hm))⟩
    · split_ifs at hm with hqp
      exact ⟨(h.monitors q m (Or.inr hm)).1, (h.monitors q m (Or.inr hm)).2.imp_right (hms m q (Or.inr hqp))⟩
  · simp only [ElixirHub.dropWaiterProcess, Function.update_apply] at hq'
    split_ifs at hq' with hqp
    exact (h.apart q q' m hm).1 hq'
  · obtain ⟨hw, hwp⟩ := List.mem_filter.mp hw
    simp only [ElixirHub.dropWaiterProcess, Function.update_apply]
    rw [if_neg (by simpa using hwp)]
    exact h.waiters w hw
  · simp only [ElixirHub.dropWaiterProcess, Function.update_apply] at hq ⊢
    split_ifs at hq ⊢ with hqp
    · simp at hq
    · exact h.seen q hq

theorem Books.wait (h : Books s.mailbox s) (tag : ℕ) (p : ι) (timeoutMs : ℕ) :
    Books (wait s tag p timeoutMs).mailbox (wait s tag p timeoutMs) := by
  obtain ⟨hb, hp⟩ := h.ensureWaiterMonitor p
  simp only [ElixirHub.wait]
  split
  · exact hb.answer _ _
  · split_ifs
    · refine Books.answer ?_ _ _
      refine ⟨hb.monitors, hb.apart, hb.waiters, fun q hq ↦ ?_, hb.updates, hb.errors⟩
      simp only [Function.update_apply] at hq
      split_ifs at hq with hqp
      · rwa [hqp]
      · exact hb.seen q hq
    · exact hb.answer _ _
    · refine ⟨fun q m hm ↦ (hb.monitors q m hm).imp_left (·.trans (Nat.lt_succ_self _)), hb.apart, fun w hw ↦ ?_,
        hb.seen, hb.updates, hb.errors⟩
      rcases List.mem_append.mp hw with hw | hw
      · exact hb.waiters w hw
      · rw [List.mem_singleton.mp hw]
        exact hp

/-- Every subscriber is sent the generation that the change starts. -/
theorem Books.watcherChanged (h : Books s.mailbox s) :
    Books (watcherChanged s).mailbox (watcherChanged s) := by
  refine Books.answerWaiters ?_ _
  have halive (p : ι) : (if (s.hub.subscribers p).isSome ∧ (s.clients p).alive then
      { s.clients p with updates := (s.clients p).updates ++ [s.hub.generation + 1] } else s.clients p).alive =
        (s.clients p).alive := by
    split_ifs <;> rfl
  refine ⟨fun p m hm ↦ ?_, h.apart, h.waiters, fun p hp ↦ ?_, fun p hsub ha ↦ ?_, fun he p hsub ha ↦ ?_⟩
  · exact (h.monitors p m hm).imp_right fun hq ↦ hq.imp_left (halive p).trans
  · simp only at hp
    split_ifs at hp with hw
    · obtain ⟨w, hwaits, rfl⟩ := List.mem_map.mp hw
      exact h.waiters w hwaits
    · exact h.seen p hp
  · have ha' : (s.clients p).alive = true := (halive p).symm.trans ha
    obtain ⟨hle, hsent⟩ := h.updates p hsub ha'
    simp only [if_pos (And.intro hsub ha'), hsent]
    refine ⟨hle.trans (Nat.le_succ _), ?_⟩
    rw [Nat.sub_add_comm hle, List.range'_concat]
    congr 2
    omega
  · have ha' : (s.clients p).alive = true := (halive p).symm.trans ha
    simp only [if_pos (And.intro hsub ha')]
    exact h.errors he p hsub ha'

/-- The report of a death takes out the entry it is about, if there is one. -/
theorem Books.down {monitor : ℕ} {p : ι} (h : Books (.down monitor p :: s.mailbox) s) :
    Books (down s monitor p).mailbox (down s monitor p) := by
  unfold ElixirHub.down
  split_ifs with hsub hwait
  · refine h.leave hsub fun m q hne hd ↦ ?_
    rcases List.mem_cons.mp hd with he | hd
    · cases he
      exact absurd rfl hne
    · exact hd
  · refine h.dropWaiterProcess fun m q hq hd ↦ ?_
    rcases List.mem_cons.mp hd with he | hd
    · cases he
      exact hq.elim (absurd · hsub) (absurd rfl)
    · exact hd
  · refine ⟨fun q m hm ↦ (h.monitors q m hm).imp_right fun hq ↦ hq.imp_right fun hd ↦ ?_, h.apart, h.waiters, h.seen,
      h.updates, h.errors⟩
    rcases List.mem_cons.mp hd with he | hd
    · cases he
      exact hm.elim (absurd · hsub) (absurd · hwait)
    · exact hd

theorem Books.handle {m : Msg ι} (h : Books (m :: s.mailbox) s) : Books (handle s m).mailbox (handle s m) := by
  cases m with
  | call tag p request =>
    have hrest := h.pop (by simp)
    cases request with
    | subscribe q => exact hrest.subscribe tag q
    | unsubscribe q => exact (hrest.dropSubscriber q).answer _ _
    | wait timeoutMs => exact hrest.wait tag p timeoutMs
    | close => exact Books.close s tag
  | watcherChanged => exact (h.pop (by simp)).watcherChanged
  | watcherError reason => exact (h.pop (by simp)).watcherError reason
  | waitTimeout ref => exact (h.pop (by simp)).waitTimeout ref
  | down monitor p => exact h.down
  | exit normal text =>
    simp only [ElixirHub.handle]
    split_ifs
    · exact h.pop (by simp)
    · exact (h.pop (by simp)).watcherError _

/-- The books while the hub runs; a hub that has stopped has none. -/
structure Kept (s : Sys ι) : Prop where
  books : Books s.mailbox s
  ended : s.stopped = true → ∀ p, s.hub.subscribers p = none ∧ s.hub.waiterMonitors p = none

/-- The monitors of a process that dies report it. -/
theorem Kept.die (h : Kept s) (p : ι) : Kept (step s (.die p)) := by
  simp only [ElixirHub.step]
  by_cases halive : (s.clients p).alive = true
  case neg => rwa [if_neg halive]
  case pos =>
    rw [if_pos halive]
    have hb := h.books
    have hsame (q : ι) (hqp : q ≠ p) : Function.update s.clients p { s.clients p with
        alive := false, call := none } q = s.clients q := Function.update_of_ne hqp _ _
    have hdead : (Function.update s.clients p { s.clients p with
        alive := false, call := none } p).alive = false := by
      rw [Function.update_self]
    refine ⟨⟨fun q m hm ↦ ?_, hb.apart, hb.waiters, hb.seen, fun q hq ha ↦ ?_, fun he q hq ha ↦ ?_⟩, h.ended⟩
    · obtain ⟨hlt, hwatched⟩ := hb.monitors q m hm
      refine ⟨hlt, ?_⟩
      by_cases hqp : q = p
      · rw [hqp] at hm ⊢
        refine Or.inr (List.mem_append_right _ ?_)
        split_ifs with hstop
        · obtain ⟨hsub, hwait⟩ := h.ended hstop p
          rw [hsub, hwait] at hm
          exact hm.elim nofun nofun
        · simpa [Hub.downs] using hm
      · simp only [hsame q hqp]
        exact hwatched.imp_right (List.mem_append_left _)
    · have hqp : q ≠ p := by
        rintro rfl
        cases hdead.symm.trans ha
      simp only [hsame q hqp] at ha ⊢
      exact hb.updates q hq ha
    · have hqp : q ≠ p := by
        rintro rfl
        cases hdead.symm.trans ha
      simp only [hsame q hqp] at ha ⊢
      exact hb.errors he q hq ha

theorem Kept.step (h : Kept s) (a : Act ι) : Kept (step s a) := by
  have hkeep (mailbox : List (Msg ι)) (timers : List ℕ) (hm : s.mailbox <+: mailbox) :
      Kept { s with mailbox := mailbox, timers := timers } :=
    ⟨h.books.of_same rfl le_rfl (fun _ _ hd ↦ hm.subset hd) fun _ ↦ ⟨rfl, rfl, rfl, rfl⟩, h.ended⟩
  cases a with
  | call p request =>
    simp only [ElixirHub.step]
    split_ifs
    · refine ⟨h.books.extend rfl (Nat.le_succ _) (List.prefix_append _ _) fun q ↦ ?_, h.ended⟩
      simp only [Function.update_apply]
      split_ifs with hqp
      · rw [hqp]
        exact ⟨rfl, rfl, rfl, rfl⟩
      · exact ⟨rfl, rfl, rfl, rfl⟩
    · exact h
  | giveUp p =>
    simp only [ElixirHub.step]
    split_ifs
    · refine ⟨h.books.extend rfl le_rfl (List.prefix_refl _) fun q ↦ ?_, h.ended⟩
      simp only [Function.update_apply]
      split_ifs with hqp
      · rw [hqp]
        exact ⟨rfl, rfl, rfl, rfl⟩
      · exact ⟨rfl, rfl, rfl, rfl⟩
    · exact h
  | die p => exact h.die p
  | change =>
    simp only [ElixirHub.step]
    split_ifs
    · exact h
    · exact hkeep _ s.timers (List.prefix_append _ _)
  | fail text =>
    simp only [ElixirHub.step]
    split_ifs
    · exact h
    · exact hkeep _ s.timers (List.prefix_append _ _)
  | exit normal text =>
    simp only [ElixirHub.step]
    split_ifs
    · exact h
    · exact hkeep _ s.timers (List.prefix_append _ _)
  | fire ref =>
    simp only [ElixirHub.step]
    split_ifs
    · exact hkeep _ _ (List.prefix_append _ _)
    · exact h
  | handle =>
    simp only [ElixirHub.step]
    split
    case h_1 => exact h
    case h_2 m mailbox hmail =>
      split_ifs with hstop
      · exact h
      · have hb : Books (m :: mailbox) { s with mailbox := mailbox } := by
          have hb := h.books
          rw [hmail] at hb
          exact ⟨hb.monitors, hb.apart, hb.waiters, hb.seen, hb.updates, hb.errors⟩
        refine ⟨hb.handle, fun hend ↦ ?_⟩
        by_cases hm : ∀ tag p, m ≠ .call tag p .close
        · rw [stopped_handle hm] at hend
          exact absurd hend hstop
        · push Not at hm
          obtain ⟨tag, p, rfl⟩ := hm
          exact fun _ ↦ ⟨rfl, rfl⟩

theorem kept_run (as : List (Act ι)) : Kept (run step (.init ι) as) :=
  run_invariant step (fun _ a h ↦ h.step a) ⟨Books.init, nofun⟩ as

/-- In every interleaving of calls, deaths and timeouts of clients, messages of the watcher and timers: once
the reports of its death are handled, the hub keeps nothing of a dead process; a subscriber that is there has
been sent every generation since it joined, once each and in order; and when the hub has failed, the last
error it was sent is the hub's. -/
theorem hub_subscribers (as : List (Act ι)) :
    let s := run step (.init ι) as
    (∀ p, (s.clients p).alive = false → (∀ monitor, .down monitor p ∉ s.mailbox) →
      s.hub.subscribers p = none ∧ s.hub.waiterMonitors p = none ∧ s.hub.seen p = none ∧
        ∀ w ∈ s.hub.waiters, w.pid ≠ p) ∧
      ∀ p, (s.hub.subscribers p).isSome → (s.clients p).alive = true →
        (s.clients p).updates =
          List.range' ((s.clients p).joined + 1) (s.hub.generation - (s.clients p).joined) ∧
        (s.hub.error.isSome → (s.clients p).errors.getLast? = s.hub.error) := by
  intro s
  have hb : Books s.mailbox s := (kept_run as).books
  refine ⟨fun p hdead hdown ↦ ?_, fun p hsub ha ↦ ⟨(hb.updates p hsub ha).2, fun he ↦ hb.errors he p hsub ha⟩⟩
  have hgone (m : ℕ) : ¬ (s.hub.subscribers p = some m ∨ s.hub.waiterMonitors p = some m) := by
    intro hm
    rcases (hb.monitors p m hm).2 with ha | hd
    · cases hdead.symm.trans ha
    · exact hdown m hd
  have hwait : s.hub.waiterMonitors p = none :=
    Option.eq_none_iff_forall_ne_some.mpr fun m hm ↦ hgone m (Or.inr hm)
  refine ⟨Option.eq_none_iff_forall_ne_some.mpr fun m hm ↦ hgone m (Or.inl hm), hwait, ?_, ?_⟩
  · by_contra hseen
    have hsome := hb.seen p (Option.isSome_iff_ne_none.mpr hseen)
    rw [hwait] at hsome
    cases hsome
  · rintro w hw rfl
    have hsome := hb.waiters w hw
    rw [hwait] at hsome
    cases hsome

end Books

end ElixirHub

end Honker
