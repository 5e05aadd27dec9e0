import Honker.ElixirHub

namespace Honker

open Interleaving

namespace ElixirHub

section Calls

variable {ι : Type}

/-- The calls that are open: where the call of a client stands, and whose call a message or a waiter is. -/
structure Calls (ms : List (Msg ι)) (s : Sys ι) : Prop where
  single : ∀ t, tally ms s t ≤ 1
  below : ∀ t, s.fresh ≤ t → tally ms s t = 0
  known : ∀ p tag, (s.clients p).call = some tag → (s.clients p).alive = true ∧
    ((∃ request, .call tag p request ∈ ms) ∨ ∃ w ∈ s.hub.waiters, w.tag = tag ∧ w.pid = p)
  mailOwner : ∀ tag p request q, .call tag p request ∈ ms → (s.clients q).call = some tag → q = p
  waitOwner : ∀ w ∈ s.hub.waiters, ∀ q, (s.clients q).call = some w.tag → q = w.pid
  mail : ∀ p, (s.clients p).alive = true → (s.clients p).gaveUp = false → ∀ tag request,
    .call tag p request ∈ ms → (s.clients p).call = some tag
  waits : ∀ p, (s.clients p).alive = true → (s.clients p).gaveUp = false → ∀ w ∈ s.hub.waiters,
    w.pid = p → (s.clients p).call = some w.tag

/-- What the hub does to the calls when it answers those with the tags. -/
structure Served (ms : List (Msg ι)) (s s' : Sys ι) (tags : List ℕ) : Prop where
  fresh : s.fresh ≤ s'.fresh
  tally : ∀ t, tally s'.mailbox s' t ≤ tally ms s t
  replied : s'.replied = s.replied ++ tags
  alive : ∀ p, (s'.clients p).alive = (s.clients p).alive
  gaveUp : ∀ p, (s'.clients p).gaveUp = (s.clients p).gaveUp
  call : ∀ p t, (s'.clients p).call = some t ↔ (s.clients p).call = some t ∧ t ∉ tags
  mail : ∀ tag p request, .call tag p request ∈ s'.mailbox → .call tag p request ∈ ms
  kept : ∀ tag p request, .call tag p request ∈ ms → .call tag p request ∈ s'.mailbox ∨ tag ∈ tags ∨
    ∃ w ∈ s'.hub.waiters, w.tag = tag ∧ w.pid = p
  waiters : ∀ w ∈ s'.hub.waiters, w ∈ s.hub.waiters ∨ ∃ request, .call w.tag w.pid request ∈ ms
  waiting : ∀ w ∈ s.hub.waiters, w ∈ s'.hub.waiters ∨ w.tag ∈ tags ∨ (s.clients w.pid).alive = false

variable {ms : List (Msg ι)} {s s' : Sys ι} {tags : List ℕ}

theorem tally_mail {tag : ℕ} {p : ι} {request : Request ι} (h : .call tag p request ∈ ms) :
    0 < (ms.filterMap Msg.tag?).count tag :=
  List.count_pos_iff.mpr (List.mem_filterMap.mpr ⟨_, h, rfl⟩)

theorem tally_waiter {w : Waiter ι} (h : w ∈ s.hub.waiters) :
    0 < (s.hub.waiters.map Waiter.tag).count w.tag :=
  List.count_pos_iff.mpr (List.mem_map_of_mem h)

theorem Calls.serve (h : Calls ms s) (hs : Served ms s s' tags) : Calls s'.mailbox s' := by
  have hsingle (t : ℕ) : tally s'.mailbox s' t ≤ 1 := (hs.tally t).trans (h.single t)
  have hreplied {t : ℕ} (ht : t ∈ tags) : 0 < s'.replied.count t := by
    rw [hs.replied]
    exact List.count_pos_iff.mpr (List.mem_append_right _ ht)
  have hmail {tag : ℕ} {p : ι} {request : Request ι} (hm : .call tag p request ∈ s'.mailbox) :
      tag ∉ tags := by
    intro ht
    have h₁ := tally_mail hm
    have h₂ := hreplied ht
    have h₃ := hsingle tag
    unfold tally at h₃
    omega
  have hwait {w : Waiter ι} (hw : w ∈ s'.hub.waiters) : w.tag ∉ tags := by
    intro ht
    have h₁ := tally_waiter hw
    have h₂ := hreplied ht
    have h₃ := hsingle w.tag
    unfold tally at h₃
    omega
  refine ⟨hsingle, fun t ht ↦ ?_, fun p tag hc ↦ ?_, fun tag p request q hm hc ↦ ?_, fun w hw q hc ↦ ?_,
    fun p ha hg tag request hm ↦ ?_, fun p ha hg w hw hp ↦ ?_⟩
  · have hle := hs.tally t
    have hzero := h.below t (hs.fresh.trans ht)
    omega
  · obtain ⟨hc, ht⟩ := (hs.call p tag).mp hc
    obtain ⟨ha, hwhere⟩ := h.known p tag hc
    rw [hs.alive]
    refine ⟨ha, ?_⟩
    rcases hwhere with ⟨request, hm⟩ | ⟨w, hw, rfl, rfl⟩
    · rcases hs.kept tag p request hm with hm | hm | hw
      · exact Or.inl ⟨request, hm⟩
      · exact absurd hm ht
      · exact Or.inr hw
    · rcases hs.waiting w hw with hw | hw | hdead
      · exact Or.inr ⟨w, hw, rfl, rfl⟩
      · exact absurd hw ht
      · cases ha.symm.trans hdead
  · exact h.mailOwner tag p request q (hs.mail tag p request hm) ((hs.call q tag).mp hc).1
  · have hc := ((hs.call q w.tag).mp hc).1
    rcases hs.waiters w hw with hw | ⟨request, hm⟩
    · exact h.waitOwner w hw q hc
    · exact h.mailOwner _ _ request q hm hc
  · rw [hs.alive] at ha
    rw [hs.gaveUp] at hg
    exact (hs.call p tag).mpr ⟨h.mail p ha hg tag request (hs.mail tag p request hm), hmail hm⟩
  · rw [hs.alive] at ha
    rw [hs.gaveUp] at hg
    refine (hs.call p w.tag).mpr ⟨?_, hwait hw⟩
    rcases hs.waiters w hw with hw | ⟨request, hm⟩
    · exact h.waits p ha hg w hw hp
    · rw [hp] at hm
      exact h.mail p ha hg w.tag request hm

/-- A step that adds no call. -/
theorem Calls.of_same {ms' : List (Msg ι)} (h : Calls ms s)
    (htags : ms'.filterMap Msg.tag? = ms.filterMap Msg.tag?)
    (hmail : ∀ tag p request, .call tag p request ∈ ms' ↔ .call tag p request ∈ ms)
    (hwaiters : s'.hub.waiters = s.hub.waiters) (hfresh : s'.fresh = s.fresh)
    (hreplied : s'.replied = s.replied)
    (hcall : ∀ p t, (s'.clients p).call = some t → (s.clients p).call = some t ∧ (s'.clients p).alive = true)
    (hkeep : ∀ p, (s'.clients p).alive = true → (s'.clients p).gaveUp = false →
      (s'.clients p).call = (s.clients p).call ∧ (s.clients p).alive = true ∧ (s.clients p).gaveUp = false) :
    Calls ms' s' := by
  have htally (t : ℕ) : tally ms' s' t = tally ms s t := by
    simp only [tally, htags, hwaiters, hreplied]
  refine ⟨fun t ↦ (htally t).trans_le (h.single t), fun t ht ↦ (htally t).trans (h.below t (hfresh ▸ ht)),
    fun p tag hc ↦ ?_, fun tag p request q hm hc ↦ ?_, fun w hw q hc ↦ ?_, fun p ha hg tag request hm ↦ ?_,
    fun p ha hg w hw hp ↦ ?_⟩
  · obtain ⟨hc, ha⟩ := hcall p tag hc
    refine ⟨ha, (h.known p tag hc).2.imp ?_ ?_⟩
    · exact Exists.imp fun _ ↦ (hmail _ _ _).mpr
    · exact fun hw ↦ hwaiters.symm ▸ hw
  · exact h.mailOwner tag p request q ((hmail _ _ _).mp hm) (hcall q tag hc).1
  · exact h.waitOwner w (hwaiters ▸ hw) q (hcall q w.tag hc).1
  · obtain ⟨hc, ha, hg⟩ := hkeep p ha hg
    rw [hc]
    exact h.mail p ha hg tag request ((hmail _ _ _).mp hm)
  · obtain ⟨hc, ha, hg⟩ := hkeep p ha hg
    rw [hc]
    exact h.waits p ha hg w (hwaiters ▸ hw) hp

/-- A new call. -/
theorem Calls.post [DecidableEq ι] (h : Calls s.mailbox s) {p : ι} (hcall : (s.clients p).call = none)
    (halive : (s.clients p).alive = true) (request : Request ι) :
    Calls (s.mailbox ++ [.call s.fresh p request]) { s with
      fresh := s.fresh + 1
      mailbox := s.mailbox ++ [.call s.fresh p request]
      clients := Function.update s.clients p { s.clients p with call := some s.fresh } } := by
  have hfresh := h.below s.fresh le_rfl
  have hmail {tag : ℕ} {q : ι} {request : Request ι} (hm : .call tag q request ∈ s.mailbox) : tag ≠ s.fresh := by
    rintro rfl
    have hpos := tally_mail hm
    unfold tally at hfresh
    omega
  have hwait {w : Waiter ι} (hw : w ∈ s.hub.waiters) : w.tag ≠ s.fresh := by
    intro he
    have hpos := tally_waiter hw
    rw [he] at hpos
    unfold tally at hfresh
    omega
  have hother {q : ι} {tag : ℕ} (hc : (s.clients q).call = some tag) : tag ≠ s.fresh := by
    rcases (h.known q tag hc).2 with ⟨request, hm⟩ | ⟨w, hw, rfl, -⟩
    · exact hmail hm
    · exact hwait hw
  have htally (t : ℕ) : tally (s.mailbox ++ [.call s.fresh p request]) { s with
      fresh := s.fresh + 1
      mailbox := s.mailbox ++ [.call s.fresh p request]
      clients := Function.update s.clients p { s.clients p with call := some s.fresh } } t =
        tally s.mailbox s t + if s.fresh = t then 1 else 0 := by
    simp only [tally, List.filterMap_append, List.filterMap_cons, Msg.tag?, List.filterMap_nil,
      List.count_append, List.count_cons, List.count_nil, beq_iff_eq]
    omega
  refine ⟨fun t ↦ ?_, fun t ht ↦ ?_, fun q tag hc ↦ ?_, fun tag q request' q' hm hc ↦ ?_, fun w hw q hc ↦ ?_,
    fun q ha hg tag request' hm ↦ ?_, fun q ha hg w hw hp ↦ ?_⟩
  · rw [htally]
    split_ifs with he
    · rw [← he, hfresh]
    · exact h.single t
  · rw [htally, if_neg (by dsimp only at ht; omega), h.below t (by dsimp only at ht; omega)]
  · simp only [Function.update_apply] at hc ⊢
    split_ifs at hc ⊢ with hqp
    · cases hc
      exact ⟨halive, Or.inl ⟨request, List.mem_append_right _ (by rw [hqp]; exact List.mem_cons_self)⟩⟩
    · obtain ⟨ha, hwhere⟩ := h.known q tag hc
      exact ⟨ha, hwhere.imp_left fun ⟨r, hm⟩ ↦ ⟨r, List.mem_append_left _ hm⟩⟩
  · simp only [Function.update_apply] at hc
    rcases List.mem_append.mp hm with hm | hm
    · split_ifs at hc with hqp
      · cases hc
        exact absurd rfl (hmail hm)
      · exact h.mailOwner tag q request' q' hm hc
    · cases List.mem_singleton.mp hm
      split_ifs at hc with hqp
      · exact hqp
      · exact absurd rfl (hother hc)
  · simp only [Function.update_apply] at hc
    split_ifs at hc with hqp
    · exact absurd (Option.some.inj hc).symm (hwait hw)
    · exact h.waitOwner w hw q hc
  · simp only [Function.update_apply] at ha hg ⊢
    split_ifs at ha hg ⊢ with hqp
    · subst hqp
      rcases List.mem_append.mp hm with hm | hm
      · cases hcall.symm.trans (h.mail q ha hg tag request' hm)
      · cases List.mem_singleton.mp hm
        rfl
    · rcases List.mem_append.mp hm with hm | hm
      · exact h.mail q ha hg tag request' hm
      · cases List.mem_singleton.mp hm
        exact absurd rfl hqp
  · simp only [Function.update_apply] at ha hg ⊢
    split_ifs at ha hg ⊢ with hqp
    · subst hqp
      cases hcall.symm.trans (h.waits q ha hg w hw hp)
    · exact h.waits q ha hg w hw hp

end Calls

section Quiet

variable {ι : Type}

/-- Every waiter has its timer and nothing to be told; no client that is there has been told of less than
the hub thinks; and who is reported down is dead. -/
structure Quiet (ms : List (Msg ι)) (s : Sys ι) : Prop where
  refs : (s.hub.waiters.map Waiter.ref).Nodup
  old : ∀ w ∈ s.hub.waiters, w.ref < s.fresh
  timer : ∀ w ∈ s.hub.waiters, w.ref ∈ s.timers ∨ .waitTimeout w.ref ∈ ms
  quiet : ∀ w ∈ s.hub.waiters, s.hub.error = none ∧ (s.hub.seen w.pid).getD 0 = s.hub.generation
  seen : ∀ p, (s.hub.seen p).getD 0 ≤ s.hub.generation
  told : ∀ p, (s.clients p).alive = true → (s.clients p).gaveUp = false →
    (s.clients p).told = (s.hub.seen p).getD 0
  downs : ∀ monitor p, .down monitor p ∈ ms → (s.clients p).alive = false

variable {ms ms' : List (Msg ι)} {s s' : Sys ι} {tags : List ℕ} {r : Reply}

/-- A step that leaves the waiters and their timers. -/
theorem Quiet.of_same (h : Quiet ms s) (hhub : s'.hub.waiters = s.hub.waiters) (hfresh : s.fresh ≤ s'.fresh)
    (htimers : s'.timers = s.timers) (htimeout : ∀ ref, .waitTimeout ref ∈ ms → .waitTimeout ref ∈ ms')
    (herror : s'.hub.error = s.hub.error) (hseen : s'.hub.seen = s.hub.seen)
    (hgeneration : s'.hub.generation = s.hub.generation)
    (hclients : ∀ p, (s'.clients p).alive = (s.clients p).alive ∧
      (s'.clients p).gaveUp = (s.clients p).gaveUp ∧ (s'.clients p).told = (s.clients p).told)
    (hdowns : ∀ monitor p, .down monitor p ∈ ms' → .down monitor p ∈ ms ∨ (s.clients p).alive = false) :
    Quiet ms' s' where
  refs := hhub ▸ h.refs
  old w hw := (h.old w (hhub ▸ hw)).trans_le hfresh
  timer w hw := by
    rw [htimers]
    exact (h.timer w (hhub ▸ hw)).imp_right (htimeout _)
  quiet w hw := by
    rw [herror, hseen, hgeneration]
    exact h.quiet w (hhub ▸ hw)
  seen p := by
    rw [hseen, hgeneration]
    exact h.seen p
  told p := by
    rw [(hclients p).1, (hclients p).2.1, (hclients p).2.2, hseen]
    exact h.told p
  downs monitor p hd := by
    rw [(hclients p).1]
    exact (hdowns monitor p hd).elim (h.downs monitor p) id

theorem Quiet.answer (h : Quiet ms s) (hr : r ≠ .changed) : Quiet ms (s.answer tags r) := by
  refine h.of_same rfl le_rfl rfl (fun _ h ↦ h) rfl rfl rfl (fun p ↦ ?_) fun _ _ hd ↦ Or.inl hd
  exact ⟨Client.answer_alive, Client.answer_gaveUp, Client.told_answer hr⟩

/-- A message that is no timeout is taken out. -/
theorem Quiet.pop {m : Msg ι} (h : Quiet (m :: ms) s) (hm : ∀ ref, m ≠ .waitTimeout ref) : Quiet ms s := by
  refine h.of_same rfl le_rfl rfl (fun ref hmem ↦ ?_) rfl rfl rfl (fun _ ↦ ⟨rfl, rfl, rfl⟩) fun _ _ hd ↦
    Or.inl (List.mem_cons_of_mem _ hd)
  rcases List.mem_cons.mp hmem with he | hmem
  · exact absurd he.symm (hm ref)
  · exact hmem

/-- The end of all waiters, without a change. -/
theorem Quiet.answerWaiters (h : Quiet ms s) (hr : r ≠ .changed) : Quiet ms (answerWaiters s r) := by
  refine Quiet.answer ?_ hr
  exact ⟨List.nodup_nil, nofun, nofun, nofun, h.seen, h.told, h.downs⟩

theorem Quiet.watcherError (h : Quiet s.mailbox s) (reason : Reason) :
    Quiet (watcherError s reason).mailbox (watcherError s reason) := by
  have hend := h.answerWaiters (r := .error reason) nofun
  refine ⟨hend.refs, nofun, nofun, nofun, hend.seen, fun p ↦ ?_, fun monitor p hd ↦ ?_⟩
  · simp only [ElixirHub.watcherError, Sys.tellSubscribers]
    split_ifs
    · exact hend.told p
    · exact hend.told p
  · have hdead := hend.downs monitor p hd
    simp only [ElixirHub.watcherError, Sys.tellSubscribers]
    split_ifs
    · exact hdead
    · exact hdead

theorem Quiet.waitTimeout {ref : ℕ} (h : Quiet (.waitTimeout ref :: s.mailbox) s) :
    Quiet (waitTimeout s ref).mailbox (waitTimeout s ref) := by
  have hpop {w : Waiter ι} (hw : w ∈ s.hub.waiters) (hne : w.ref ≠ ref) :
      w.ref ∈ s.timers ∨ .waitTimeout w.ref ∈ s.mailbox := by
    refine (h.timer w hw).imp_right fun hm ↦ ?_
    rcases List.mem_cons.mp hm with he | hm
    · cases he
      exact absurd rfl hne
    · exact hm
  have hdowns (monitor : ℕ) (q : ι) (hd : .down monitor q ∈ s.mailbox) : (s.clients q).alive = false :=
    h.downs monitor q (List.mem_cons_of_mem _ hd)
  unfold ElixirHub.waitTimeout
  split
  case h_1 hnone =>
    refine ⟨h.refs, h.old, fun w hw ↦ hpop hw ?_, h.quiet, h.seen, h.told, hdowns⟩
    simpa using List.find?_eq_none.mp hnone w hw
  case h_2 w hw =>
    refine Quiet.answer ⟨?_, ?_, ?_, ?_, h.seen, h.told, hdowns⟩ nofun
    · exact h.refs.sublist (List.filter_sublist.map _)
    · exact fun w hw ↦ h.old w (List.mem_filter.mp hw).1
    · exact fun w hw ↦ hpop (List.mem_filter.mp hw).1 (by simpa using (List.mem_filter.mp hw).2)
    · exact fun w hw ↦ h.quiet w (List.mem_filter.mp hw).1

variable [DecidableEq ι]

theorem Quiet.ensureWaiterMonitor (h : Quiet s.mailbox s) (p : ι) :
    Quiet (ensureWaiterMonitor s p).mailbox (ensureWaiterMonitor s p) := by
  unfold ElixirHub.ensureWaiterMonitor
  split
  · exact h
  · simp only [Sys.monitor]
    refine h.of_same rfl (Nat.le_succ _) rfl (fun ref hm ↦ ?_) rfl rfl rfl (fun _ ↦ ⟨rfl, rfl, rfl⟩) ?_
    · split_ifs
      · exact hm
      · exact List.mem_append_left _ hm
    · intro monitor q hd
      split_ifs at hd with ha
      · exact Or.inl hd
      · rcases List.mem_append.mp hd with hd | hd
        · exact Or.inl hd
        · cases List.mem_singleton.mp hd
          exact Or.inr (by simpa using ha)

theorem Quiet.dropSubscriber (h : Quiet s.mailbox s) (p : ι) :
    Quiet (dropSubscriber s p).mailbox (dropSubscriber s p) := by
  unfold ElixirHub.dropSubscriber
  split
  · exact h
  · refine h.of_same rfl le_rfl rfl (fun ref hm ↦ ?_) rfl rfl rfl (fun _ ↦ ⟨rfl, rfl, rfl⟩) fun _ _ hd ↦
      Or.inl (List.mem_filter.mp hd).1
    exact List.mem_filter.mpr ⟨hm, rfl⟩

theorem Quiet.subscribe (h : Quiet s.mailbox s) (tag : ℕ) (p : ι) :
    Quiet (subscribe s tag p).mailbox (subscribe s tag p) := by
  unfold ElixirHub.subscribe
  split
  · exact h.answer nofun
  · split
    · exact h.answer nofun
    · simp only [Sys.monitor]
      refine Quiet.answer (h.of_same rfl (Nat.le_succ _) rfl (fun ref hm ↦ ?_) rfl rfl rfl (fun q ↦ ?_) ?_) nofun
      · rw [answer_mailbox]
        dsimp only
        split_ifs
        · exact hm
        · exact List.mem_append_left _ hm
      · simp only [Function.update_apply]
        split_ifs with hq
        · rw [hq]
          exact ⟨rfl, rfl, rfl⟩
        · exact ⟨rfl, rfl, rfl⟩
      · intro monitor q hd
        rw [answer_mailbox] at hd
        dsimp only at hd
        split_ifs at hd with ha
        · exact Or.inl hd
        · rcases List.mem_append.mp hd with hd | hd
          · exact Or.inl hd
          · cases List.mem_singleton.mp hd
            exact Or.inr (by simpa using ha)

/-- A `:changed` for a caller whose `wait` finds a new generation. -/
theorem Quiet.changed {tag : ℕ} {p : ι} (h : Quiet ms s)
    (hcall : (s.clients p).alive = true → (s.clients p).gaveUp = false → (s.clients p).call = some tag)
    (howner : ∀ q, (s.clients q).call = some tag → q = p) :
    Quiet ms ({ s with hub.seen := Function.update s.hub.seen p (some s.hub.generation) }.answer [tag]
      .changed) where
  refs := h.refs
  old := h.old
  timer := h.timer
  quiet w hw := by
    refine ⟨(h.quiet w hw).1, ?_⟩
    simp only [answer_hub, Function.update_apply]
    split_ifs
    · rfl
    · exact (h.quiet w hw).2
  seen q := by
    simp only [answer_hub, Function.update_apply]
    split_ifs
    · exact le_rfl
    · exact h.seen q
  told q ha hg := by
    simp only [Sys.answer, Client.answer_alive, Client.answer_gaveUp] at ha hg ⊢
    by_cases hq : q = p
    · subst hq
      rw [Client.answer_of_hit ⟨tag, by simp, hcall ha hg⟩, if_pos rfl, Function.update_self]
      rfl
    · have hnot : ¬ (s.clients q).Hit [tag] := by
        rintro ⟨t, ht, hc⟩
        exact hq (howner q (List.mem_singleton.mp ht ▸ hc))
      rw [Client.answer_of_not_hit hnot, Function.update_of_ne hq]
      exact h.told q ha hg
  downs monitor q hd := by
    simp only [Sys.answer, Client.answer_alive]
    exact h.downs monitor q hd

theorem Quiet.wait {tag : ℕ} {p : ι} {request : Request ι} (h : Quiet s.mailbox s)
    (hc : Calls (.call tag p request :: s.mailbox) s) (timeoutMs : ℕ) :
    Quiet (wait s tag p timeoutMs).mailbox (wait s tag p timeoutMs) := by
  have hmon := h.ensureWaiterMonitor p
  obtain ⟨-, -, -, hclients⟩ := ensureWaiterMonitor_frame s p
  simp only [ElixirHub.wait]
  split
  case h_1 => exact hmon.answer (by simp)
  case h_2 herror =>
    split_ifs with hseen hzero
    · refine hmon.changed (fun ha hg ↦ ?_) fun q hq ↦ ?_
      · rw [hclients] at ha hg ⊢
        exact hc.mail p ha hg tag request List.mem_cons_self
      · rw [hclients] at hq
        exact hc.mailOwner tag p request q List.mem_cons_self hq
    · exact hmon.answer (by simp)
    · have hsum := hmon.seen p
      refine ⟨?_, ?_, ?_, ?_, hmon.seen, hmon.told, hmon.downs⟩
      · have hnew : ∀ a ∈ (ElixirHub.ensureWaiterMonitor s p).hub.waiters.map Waiter.ref,
            a ≠ (ElixirHub.ensureWaiterMonitor s p).fresh := by
          intro a ha
          obtain ⟨w, hw, rfl⟩ := List.mem_map.mp ha
          exact (hmon.old w hw).ne
        simp only [List.map_append, List.map_cons, List.map_nil]
        exact hmon.refs.append (List.nodup_singleton _) (by simpa using fun a ha he ↦ hnew a ha he)
      all_goals
        intro w hw
        rcases List.mem_append.mp hw with hw | hw
      · exact (hmon.old w hw).trans (Nat.lt_succ_self _)
      · rw [List.mem_singleton.mp hw]
        exact Nat.lt_succ_self _
      · exact (hmon.timer w hw).imp_left (List.mem_append_left _)
      · rw [List.mem_singleton.mp hw]
        exact Or.inl (by simp)
      · exact hmon.quiet w hw
      · rw [List.mem_singleton.mp hw]
        exact ⟨herror, le_antisymm hsum (not_lt.mp hseen)⟩

theorem Quiet.watcherChanged (h : Quiet s.mailbox s) (hc : Calls ms s) :
    Quiet (watcherChanged s).mailbox (watcherChanged s) := by
  refine ⟨List.nodup_nil, nofun, nofun, nofun, fun q ↦ ?_, fun q ha hg ↦ ?_, fun monitor q hd ↦ ?_⟩
  · simp only [ElixirHub.watcherChanged, ElixirHub.answerWaiters, answer_hub]
    split_ifs
    · exact le_rfl
    · exact (h.seen q).trans (Nat.le_succ _)
  · simp only [ElixirHub.watcherChanged, ElixirHub.answerWaiters, Sys.answer, Client.answer_alive,
      Client.answer_gaveUp] at ha hg ⊢
    set c : Client := if (s.hub.subscribers q).isSome ∧ (s.clients q).alive then
      { s.clients q with updates := (s.clients q).updates ++ [s.hub.generation + 1] }
      else s.clients q with hcdef
    have hcall : c.call = (s.clients q).call := by rw [hcdef]; split_ifs <;> rfl
    have htold : c.told = (s.clients q).told := by rw [hcdef]; split_ifs <;> rfl
    have halive : c.alive = (s.clients q).alive := by rw [hcdef]; split_ifs <;> rfl
    have hgave : c.gaveUp = (s.clients q).gaveUp := by rw [hcdef]; split_ifs <;> rfl
    rw [halive] at ha
    rw [hgave] at hg
    split_ifs with hq
    · obtain ⟨w, hw, hpid⟩ := List.mem_map.mp hq
      have hhit : c.Hit (s.hub.waiters.map Waiter.tag) :=
        ⟨w.tag, List.mem_map_of_mem hw, by rw [hcall]; exact hc.waits q ha hg w hw hpid⟩
      rw [Client.answer_of_hit hhit, if_pos rfl]
      rfl
    · have hnot : ¬ c.Hit (s.hub.waiters.map Waiter.tag) := by
        rintro ⟨t, ht, hct⟩
        obtain ⟨w, hw, rfl⟩ := List.mem_map.mp ht
        rw [hcall] at hct
        exact hq (List.mem_map.mpr ⟨w, hw, (hc.waitOwner w hw q hct).symm⟩)
      rw [Client.answer_of_not_hit hnot, htold]
      exact h.told q ha hg
  · simp only [ElixirHub.watcherChanged, ElixirHub.answerWaiters, Sys.answer, Client.answer_alive]
    have hdead := h.downs monitor q hd
    split_ifs <;> exact hdead

theorem Quiet.dropWaiterProcess (h : Quiet s.mailbox s) {p : ι} (hp : (s.clients p).alive = false) :
    Quiet (dropWaiterProcess s p).mailbox (dropWaiterProcess s p) where
  refs := h.refs.sublist (List.filter_sublist.map _)
  old w hw := h.old w (List.mem_filter.mp hw).1
  timer w hw := by
    obtain ⟨hw, hpid⟩ := List.mem_filter.mp hw
    refine (h.timer w hw).imp_left fun ht ↦ List.mem_filter.mpr ⟨ht, ?_⟩
    simp only [decide_eq_true_eq]
    rintro ⟨w', hw', hp', href⟩
    have he := List.inj_on_of_nodup_map h.refs hw' hw href
    simp [he ▸ hp'] at hpid
  quiet w hw := by
    obtain ⟨hw, hpid⟩ := List.mem_filter.mp hw
    refine ⟨(h.quiet w hw).1, ?_⟩
    rw [ElixirHub.dropWaiterProcess]
    dsimp only
    rw [Function.update_of_ne (by simpa using hpid)]
    exact (h.quiet w hw).2
  seen q := by
    simp only [ElixirHub.dropWaiterProcess, Function.update_apply]
    split_ifs
    · exact Nat.zero_le _
    · exact h.seen q
  told q ha hg := by
    have hq : q ≠ p := by
      rintro rfl
      cases hp.symm.trans ha
    simp only [ElixirHub.dropWaiterProcess, Function.update_of_ne hq]
    exact h.told q ha hg
  downs := h.downs

end Quiet

section Serve

variable {ι : Type} {s s' : Sys ι} {m : Msg ι} {tags : List ℕ}

/-- A change of the state that leaves the calls alone. -/
structure Neutral (s s' : Sys ι) : Prop where
  fresh : s.fresh ≤ s'.fresh
  replied : s'.replied = s.replied
  waiters : s'.hub.waiters = s.hub.waiters
  alive : ∀ p, (s'.clients p).alive = (s.clients p).alive
  gaveUp : ∀ p, (s'.clients p).gaveUp = (s.clients p).gaveUp
  call : ∀ p, (s'.clients p).call = (s.clients p).call
  mail : ∀ tag p request, .call tag p request ∈ s'.mailbox ↔ .call tag p request ∈ s.mailbox

theorem Neutral.refl (s : Sys ι) : Neutral s s :=
  ⟨le_rfl, rfl, rfl, fun _ ↦ rfl, fun _ ↦ rfl, fun _ ↦ rfl, fun _ _ _ ↦ Iff.rfl⟩

theorem Neutral.tellSubscribers (s : Sys ι) (reason : Reason) : Neutral s (s.tellSubscribers reason) := by
  refine ⟨le_rfl, rfl, rfl, fun p ↦ ?_, fun p ↦ ?_, fun p ↦ ?_, fun _ _ _ ↦ Iff.rfl⟩
  all_goals
    simp only [Sys.tellSubscribers]
    split_ifs <;> rfl

theorem call_mem_cons {tag : ℕ} {p : ι} {request : Request ι} (h : .call tag p request ∈ m :: s.mailbox)
    (hm : ∀ tag p request, m ≠ .call tag p request) : .call tag p request ∈ s.mailbox := by
  rcases List.mem_cons.mp h with he | h
  · exact absurd he.symm (hm tag p request)
  · exact h

/-- The call at the head is answered. -/
theorem Neutral.answer {tag : ℕ} {p : ι} {request : Request ι} {r : Reply} (h : Neutral s s')
    (htally : ∀ t, tally (s'.answer [tag] r).mailbox (s'.answer [tag] r) t ≤
      tally (.call tag p request :: s.mailbox) s t) :
    Served (.call tag p request :: s.mailbox) s (s'.answer [tag] r) [tag] where
  fresh := h.fresh
  tally := htally
  replied := by rw [answer_replied, h.replied]
  alive q := Client.answer_alive.trans (h.alive q)
  gaveUp q := Client.answer_gaveUp.trans (h.gaveUp q)
  call q t := by rw [← h.call q]; exact Client.call_answer
  mail tag p request hm := List.mem_cons_of_mem _ ((h.mail tag p request).mp hm)
  kept tag' p' request' hm := by
    rcases List.mem_cons.mp hm with he | hm
    · cases he
      exact Or.inr (Or.inl (by simp))
    · exact Or.inl ((h.mail _ _ _).mpr hm)
  waiters w hw := Or.inl (h.waiters ▸ hw)
  waiting w hw := Or.inl (h.waiters.symm ▸ hw)

/-- The message at the head is no call, and nothing is answered. -/
theorem Neutral.skip (h : Neutral s s') (hm : ∀ tag p request, m ≠ .call tag p request)
    (htally : ∀ t, tally s'.mailbox s' t ≤ tally (m :: s.mailbox) s t) :
    Served (m :: s.mailbox) s s' [] where
  fresh := h.fresh
  tally := htally
  replied := by rw [h.replied, List.append_nil]
  alive := h.alive
  gaveUp := h.gaveUp
  call q t := by simp [h.call q]
  mail tag p request hmem := List.mem_cons_of_mem _ ((h.mail tag p request).mp hmem)
  kept tag p request hmem := Or.inl ((h.mail _ _ _).mpr (call_mem_cons hmem hm))
  waiters w hw := Or.inl (h.waiters ▸ hw)
  waiting w hw := Or.inl (h.waiters.symm ▸ hw)

/-- All waiters are answered. -/
theorem served_waiters (hm : ∀ tag p request, m ≠ .call tag p request) (hwaiters : s'.hub.waiters = [])
    (hfresh : s'.fresh = s.fresh) (hmail : s'.mailbox = s.mailbox)
    (hreplied : s'.replied = s.replied ++ s.hub.waiters.map Waiter.tag)
    (hclients : ∀ p, (s'.clients p).alive = (s.clients p).alive ∧
      (s'.clients p).gaveUp = (s.clients p).gaveUp ∧ ∀ t, (s'.clients p).call = some t ↔
        (s.clients p).call = some t ∧ t ∉ s.hub.waiters.map Waiter.tag)
    (htally : ∀ t, tally s'.mailbox s' t ≤ tally (m :: s.mailbox) s t) :
    Served (m :: s.mailbox) s s' (s.hub.waiters.map Waiter.tag) where
  fresh := hfresh.ge
  tally := htally
  replied := hreplied
  alive q := (hclients q).1
  gaveUp q := (hclients q).2.1
  call q := (hclients q).2.2
  mail tag p request hmem := List.mem_cons_of_mem _ (hmail ▸ hmem)
  kept tag p request hmem := Or.inl (hmail.symm ▸ call_mem_cons hmem hm)
  waiters w hw := by
    rw [hwaiters] at hw
    cases hw
  waiting w hw := Or.inr (Or.inl (List.mem_map_of_mem hw))

theorem served_watcherError {reason : Reason} (hm : ∀ tag p request, m ≠ .call tag p request)
    (htally : ∀ t, tally (watcherError s reason).mailbox (watcherError s reason) t ≤
      tally (m :: s.mailbox) s t) :
    Served (m :: s.mailbox) s (watcherError s reason) (s.hub.waiters.map Waiter.tag) := by
  refine served_waiters hm rfl rfl rfl rfl (fun q ↦ ?_) htally
  have hn := Neutral.tellSubscribers (answerWaiters s (.error reason)) reason
  exact ⟨(hn.alive q).trans Client.answer_alive, (hn.gaveUp q).trans Client.answer_gaveUp,
    fun t ↦ by rw [show ((watcherError s reason).clients q).call = _ from hn.call q]; exact Client.call_answer⟩

theorem Neutral.monitor (s : Sys ι) (p : ι) : Neutral s (s.monitor p).2 := by
  refine ⟨Nat.le_succ _, rfl, rfl, fun _ ↦ rfl, fun _ ↦ rfl, fun _ ↦ rfl, fun tag q request ↦ ?_⟩
  simp only [Sys.monitor]
  split_ifs <;> simp

variable [DecidableEq ι]

theorem Neutral.ensureWaiterMonitor (s : Sys ι) (p : ι) : Neutral s (ensureWaiterMonitor s p) := by
  unfold ElixirHub.ensureWaiterMonitor
  split
  · exact .refl s
  · have hn := Neutral.monitor s p
    exact ⟨hn.fresh, hn.replied, hn.waiters, hn.alive, hn.gaveUp, hn.call, hn.mail⟩

theorem Neutral.dropSubscriber (s : Sys ι) (p : ι) : Neutral s (dropSubscriber s p) := by
  unfold ElixirHub.dropSubscriber
  split
  · exact .refl s
  · refine ⟨le_rfl, rfl, rfl, fun _ ↦ rfl, fun _ ↦ rfl, fun _ ↦ rfl, fun tag q request ↦ ?_⟩
    simp [Sys.demonitor, Msg.isDown]

theorem served_subscribe (tag : ℕ) (p q : ι) :
    Served (.call tag p (.subscribe q) :: s.mailbox) s (subscribe s tag q) [tag] := by
  have htally := tally_handle s (.call tag p (.subscribe q))
  simp only [handle] at htally
  unfold subscribe at htally ⊢
  split
  case h_1 reason herror =>
    simp only [herror] at htally
    exact (Neutral.refl s).answer htally
  case h_2 herror =>
    simp only [herror] at htally
    split
    case h_1 monitor hsub =>
      simp only [hsub] at htally
      exact (Neutral.refl s).answer htally
    case h_2 hsub =>
      simp only [hsub] at htally
      have hn := Neutral.monitor s q
      refine Neutral.answer ⟨hn.fresh, hn.replied, hn.waiters, fun p ↦ ?_, fun p ↦ ?_, fun p ↦ ?_, hn.mail⟩
        htally
      all_goals
        simp only [Function.update_apply]
        split_ifs with hp
        · rw [hp]
        · rfl

theorem served_wait (tag : ℕ) (p : ι) (timeoutMs : ℕ) :
    ∃ tags, Served (.call tag p (.wait timeoutMs) :: s.mailbox) s (wait s tag p timeoutMs) tags := by
  have htally := tally_handle s (.call tag p (.wait timeoutMs))
  have hn := Neutral.ensureWaiterMonitor s p
  simp only [handle] at htally
  simp only [wait] at htally ⊢
  split
  case h_1 reason herror =>
    simp only [herror] at htally
    exact ⟨_, hn.answer htally⟩
  case h_2 herror =>
    simp only [herror] at htally
    split_ifs with hseen hzero
    · rw [if_pos hseen] at htally
      exact ⟨_, Neutral.answer ⟨hn.fresh, hn.replied, hn.waiters, hn.alive, hn.gaveUp, hn.call, hn.mail⟩ htally⟩
    · rw [if_neg hseen, if_pos hzero] at htally
      exact ⟨_, hn.answer htally⟩
    · rw [if_neg hseen, if_neg hzero] at htally
      refine ⟨[], hn.fresh.trans (Nat.le_succ _), htally, by simp [hn.replied], hn.alive, hn.gaveUp, fun q t ↦ ?_,
        fun tag q request hm ↦ ?_, fun tag' q request hm ↦ ?_, fun w hw ↦ ?_, fun w hw ↦ ?_⟩
      · simp [hn.call q]
      · exact List.mem_cons_of_mem _ ((hn.mail _ _ _).mp hm)
      · rcases List.mem_cons.mp hm with he | hm
        · cases he
          exact Or.inr (Or.inr ⟨_, List.mem_append_right _ (List.mem_singleton.mpr rfl), rfl, rfl⟩)
        · exact Or.inl ((hn.mail _ _ _).mpr hm)
      · rcases List.mem_append.mp hw with hw | hw
        · exact Or.inl (hn.waiters ▸ hw)
        · rw [List.mem_singleton.mp hw]
          exact Or.inr ⟨_, List.mem_cons_self⟩
      · exact Or.inl (List.mem_append_left _ (hn.waiters.symm ▸ hw))

theorem served_waitTimeout (ref : ℕ) (hrefs : (s.hub.waiters.map Waiter.ref).Nodup) :
    ∃ tags, Served (.waitTimeout ref :: s.mailbox) s (waitTimeout s ref) tags := by
  have htally := tally_handle s (.waitTimeout ref)
  simp only [handle] at htally
  unfold waitTimeout at htally ⊢
  split
  case h_1 hnone =>
    simp only [hnone] at htally
    exact ⟨[], (Neutral.refl s).skip (by simp) htally⟩
  case h_2 w hw =>
    simp only [hw] at htally
    have hmem := List.mem_of_find?_eq_some hw
    have href : w.ref = ref := by simpa using List.find?_some hw
    refine ⟨[w.tag], le_rfl, htally, rfl, fun _ ↦ Client.answer_alive, fun _ ↦ Client.answer_gaveUp,
      fun _ _ ↦ Client.call_answer, fun tag p request hm ↦ List.mem_cons_of_mem _ hm,
      fun tag p request hm ↦ Or.inl (call_mem_cons hm (by simp)), fun x hx ↦ Or.inl (List.mem_filter.mp hx).1,
      fun x hx ↦ ?_⟩
    by_cases hxr : x.ref = ref
    · have he := List.inj_on_of_nodup_map hrefs hx hmem (hxr.trans href.symm)
      exact Or.inr (Or.inl (by simp [he]))
    · exact Or.inl (List.mem_filter.mpr ⟨hx, by simpa using hxr⟩)

theorem served_down (monitor : ℕ) (p : ι) (hp : (s.clients p).alive = false) :
    Served (.down monitor p :: s.mailbox) s (down s monitor p) [] := by
  have htally := tally_handle s (.down monitor p)
  simp only [handle] at htally
  unfold down at htally ⊢
  split_ifs with hsub hwait
  · rw [if_pos hsub] at htally
    exact (Neutral.dropSubscriber s p).skip (by simp) htally
  · rw [if_neg hsub, if_pos hwait] at htally
    refine ⟨le_rfl, htally, by simp [dropWaiterProcess], fun _ ↦ rfl, fun _ ↦ rfl, fun q t ↦ by simp [dropWaiterProcess],
      fun tag q request hm ↦ List.mem_cons_of_mem _ hm, fun tag q request hm ↦ Or.inl (call_mem_cons hm (by simp)),
      fun w hw ↦ Or.inl (List.mem_filter.mp hw).1, fun w hw ↦ ?_⟩
    by_cases hpid : w.pid = p
    · exact Or.inr (Or.inr (hpid.symm ▸ hp))
    · exact Or.inl (List.mem_filter.mpr ⟨hw, by simpa using hpid⟩)
  · rw [if_neg hsub, if_neg hwait] at htally
    exact (Neutral.refl s).skip (by simp) htally

end Serve

section Honest

variable {ι : Type}

/-- No client that has not given up on a call has been told `:timeout` while there was a change it had not
been told of. -/
def Honest (s : Sys ι) : Prop :=
  ∀ p, (s.clients p).gaveUp = false → ∀ x ∈ (s.clients p).got, x.1 = .timeout → x.2 = 0

variable {s s' : Sys ι} {tags : List ℕ} {r : Reply}

theorem Honest.of_same (h : Honest s) (hclients : ∀ p, (s'.clients p).gaveUp = (s.clients p).gaveUp ∧
    (s'.clients p).got = (s.clients p).got) : Honest s' := by
  intro p hg x hx
  rw [(hclients p).1] at hg
  rw [(hclients p).2] at hx
  exact h p hg x hx

theorem Honest.answer (h : Honest s) (hr : r = .timeout → ∀ p, (s.clients p).gaveUp = false →
    (s.clients p).Hit tags → s.hub.generation ≤ (s.clients p).told) : Honest (s.answer tags r) := by
  intro p hg x hx ht
  simp only [Sys.answer, Client.answer_gaveUp] at hg hx
  rcases Client.mem_got_answer hx with hx | ⟨hhit, rfl⟩
  · exact h p hg x hx ht
  · exact Nat.sub_eq_zero_of_le (hr ht p hg hhit)

theorem Honest.answerWaiters (h : Honest s) (hr : r ≠ .timeout) : Honest (answerWaiters s r) :=
  Honest.answer (h.of_same fun _ ↦ ⟨rfl, rfl⟩) fun he ↦ absurd he hr

theorem Honest.tellSubscribers (h : Honest s) (reason : Reason) : Honest (s.tellSubscribers reason) := by
  refine h.of_same fun p ↦ ?_
  simp only [Sys.tellSubscribers]
  split_ifs <;> exact ⟨rfl, rfl⟩

theorem Honest.waitTimeout {ms : List (Msg ι)} (h : Honest s) (hc : Calls ms s) (hq : Quiet ms s) (ref : ℕ) :
    Honest (waitTimeout s ref) := by
  unfold ElixirHub.waitTimeout
  split
  case h_1 => exact h
  case h_2 w hw =>
    refine Honest.answer (h.of_same fun _ ↦ ⟨rfl, rfl⟩) fun _ q hg hhit ↦ ?_
    obtain ⟨t, ht, hcall⟩ := hhit
    cases List.mem_singleton.mp ht
    have hmem := List.mem_of_find?_eq_some hw
    have he := hc.waitOwner w hmem q hcall
    subst he
    show s.hub.generation ≤ (s.clients w.pid).told
    rw [hq.told w.pid (hc.known w.pid w.tag hcall).1 hg, (hq.quiet w hmem).2]

theorem Honest.close (h : Honest s) (tag : ℕ) : Honest (close s tag) := by
  have hend : Honest (((ElixirHub.answerWaiters s (.error .closed)).tellSubscribers .closed).answer [tag]
      .ok) :=
    ((h.answerWaiters (r := .error .closed) nofun).tellSubscribers .closed).answer nofun
  intro p hg x hx ht
  simp only [ElixirHub.close] at hg hx
  split_ifs at hg hx
  · rcases List.mem_append.mp hx with hx | hx
    · exact hend p hg x hx ht
    · rw [List.mem_singleton.mp hx] at ht
      cases ht
  · exact hend p hg x hx ht

variable [DecidableEq ι]

theorem Honest.wait {tag : ℕ} {p : ι} {request : Request ι} (h : Honest s)
    (hc : Calls (.call tag p request :: s.mailbox) s) (hq : Quiet s.mailbox s) (timeoutMs : ℕ) :
    Honest (wait s tag p timeoutMs) := by
  obtain ⟨hseen, -, hgen, hclients⟩ := ensureWaiterMonitor_frame s p
  have hmon : Honest (ensureWaiterMonitor s p) := h.of_same fun q ↦ by rw [hclients]; exact ⟨rfl, rfl⟩
  simp only [ElixirHub.wait]
  split
  · exact hmon.answer (by simp)
  · split_ifs with hlt hzero
    · exact Honest.answer (hmon.of_same fun _ ↦ ⟨rfl, rfl⟩) (by simp)
    · refine hmon.answer fun _ q hg hhit ↦ ?_
      rw [hseen, hgen] at hlt
      rw [hclients] at hg hhit ⊢
      obtain ⟨t, ht, hcall⟩ := hhit
      cases List.mem_singleton.mp ht
      have he := hc.mailOwner tag p request q List.mem_cons_self hcall
      subst he
      rw [hgen, hq.told q (hc.known q tag hcall).1 hg]
      exact not_lt.mp hlt
    · exact hmon.of_same fun _ ↦ ⟨rfl, rfl⟩

theorem Honest.handle {m : Msg ι} (h : Honest s) (hc : Calls (m :: s.mailbox) s)
    (hq : Quiet (m :: s.mailbox) s) : Honest (handle s m) := by
  have herror (reason : Reason) : Honest (watcherError s reason) :=
    ((h.answerWaiters (r := .error reason) (by simp)).tellSubscribers reason).of_same fun _ ↦ ⟨rfl, rfl⟩
  cases m with
  | call tag p request =>
    cases request with
    | subscribe q =>
      simp only [ElixirHub.handle, subscribe]
      split
      · exact h.answer (by simp)
      · split
        · exact h.answer (by simp)
        · refine Honest.answer (h.of_same fun p ↦ ?_) (by simp)
          simp only [Function.update_apply]
          split_ifs with hp
          · rw [hp]
            exact ⟨rfl, rfl⟩
          · exact ⟨rfl, rfl⟩
    | unsubscribe q =>
      refine Honest.answer (h.of_same fun p ↦ ?_) (by simp)
      unfold dropSubscriber
      split <;> exact ⟨rfl, rfl⟩
    | wait timeoutMs => exact h.wait hc (hq.pop (by simp)) timeoutMs
    | close => exact h.close tag
  | watcherChanged =>
    refine Honest.answerWaiters (h.of_same fun p ↦ ?_) (by simp)
    dsimp only
    split_ifs <;> exact ⟨rfl, rfl⟩
  | watcherError reason => exact herror reason
  | waitTimeout ref => exact h.waitTimeout hc hq ref
  | down monitor p =>
    refine h.of_same fun q ↦ ?_
    simp only [ElixirHub.handle, down, dropSubscriber, dropWaiterProcess]
    split_ifs <;> (try split) <;> exact ⟨rfl, rfl⟩
  | exit normal text =>
    simp only [ElixirHub.handle]
    split_ifs
    · exact h
    · exact herror _

end Honest

section Run

variable {ι : Type} {s : Sys ι} {m : Msg ι}

structure Inv (s : Sys ι) : Prop where
  single : ∀ t, tally s.mailbox s t ≤ 1
  honest : Honest s
  running : s.stopped = false → Calls s.mailbox s ∧ Quiet s.mailbox s
  ended : s.stopped = true → ∀ p, (s.clients p).call = none

/-- A message of others. -/
theorem Inv.post (h : Inv s) (extra : List (Msg ι)) (htags : extra.filterMap Msg.tag? = [])
    (hdowns : ∀ monitor p, .down monitor p ∉ extra) : Inv { s with mailbox := s.mailbox ++ extra } := by
  have happend : (s.mailbox ++ extra).filterMap Msg.tag? = s.mailbox.filterMap Msg.tag? := by
    rw [List.filterMap_append, htags, List.append_nil]
  have hmail (tag : ℕ) (p : ι) (request : Request ι) :
      .call tag p request ∈ s.mailbox ++ extra ↔ .call tag p request ∈ s.mailbox := by
    refine ⟨fun hm ↦ (List.mem_append.mp hm).resolve_right fun hm ↦ ?_, List.mem_append_left _⟩
    have hnil : tag ∈ extra.filterMap Msg.tag? := List.mem_filterMap.mpr ⟨_, hm, rfl⟩
    rw [htags] at hnil
    cases hnil
  refine ⟨fun t ↦ ?_, h.honest.of_same fun _ ↦ ⟨rfl, rfl⟩, fun hrun ↦ ?_, h.ended⟩
  · have hsingle := h.single t
    simpa only [tally, happend] using hsingle
  · obtain ⟨hc, hq⟩ := h.running hrun
    refine ⟨hc.of_same happend hmail rfl rfl rfl (fun p t hcall ↦ ⟨hcall, (hc.known p t hcall).1⟩)
      fun p ha hg ↦ ⟨rfl, ha, hg⟩, ?_⟩
    refine hq.of_same rfl le_rfl rfl (fun _ ↦ List.mem_append_left _) rfl rfl rfl (fun _ ↦ ⟨rfl, rfl, rfl⟩) ?_
    exact fun monitor p hd ↦ Or.inl ((List.mem_append.mp hd).resolve_right (hdowns monitor p))

theorem Inv.init : Inv (Sys.init ι) where
  single := by simp [tally, Sys.init]
  honest := by simp [Honest, Sys.init]
  running _ := by
    refine ⟨?_, ?_⟩ <;> constructor <;> simp [tally, Sys.init]
  ended := nofun

theorem Inv.fire (h : Inv s) (hrun : s.stopped = false) (ref : ℕ) :
    Inv { s with timers := s.timers.erase ref, mailbox := s.mailbox ++ [.waitTimeout ref] } := by
  have hpost := h.post [.waitTimeout ref] rfl (by simp)
  obtain ⟨hc, hq⟩ := hpost.running hrun
  refine ⟨hpost.single, hpost.honest, fun _ ↦ ⟨?_, ?_⟩, hpost.ended⟩
  · exact ⟨hc.single, hc.below, hc.known, hc.mailOwner, hc.waitOwner, hc.mail, hc.waits⟩
  · refine ⟨hq.refs, hq.old, fun w hw ↦ ?_, hq.quiet, hq.seen, hq.told, hq.downs⟩
    by_cases href : w.ref = ref
    · rw [href]
      exact Or.inr (List.mem_append_right _ List.mem_cons_self)
    · exact (hq.timer w hw).imp_left (List.mem_erase_of_ne href).mpr

variable [DecidableEq ι]

/-- A message that does not end the hub. -/
theorem calls_handle (hc : Calls (m :: s.mailbox) s) (hq : Quiet (m :: s.mailbox) s)
    (hm : ∀ tag p, m ≠ .call tag p .close) :
    Calls (handle s m).mailbox (handle s m) ∧ Quiet (handle s m).mailbox (handle s m) := by
  have htally := tally_handle s m
  cases m with
  | call tag p request =>
    cases request with
    | subscribe q => exact ⟨hc.serve (served_subscribe tag p q), (hq.pop (by simp)).subscribe tag q⟩
    | unsubscribe q =>
      have hpop := hq.pop (by simp)
      exact ⟨hc.serve ((Neutral.dropSubscriber s q).answer htally), (hpop.dropSubscriber q).answer (by simp)⟩
    | wait timeoutMs =>
      obtain ⟨tags, hserved⟩ := served_wait (s := s) tag p timeoutMs
      exact ⟨hc.serve hserved, (hq.pop (by simp)).wait hc timeoutMs⟩
    | close => exact absurd rfl (hm tag p)
  | watcherChanged =>
    refine ⟨hc.serve (served_waiters (by simp) rfl rfl rfl rfl (fun p ↦ ?_) htally), (hq.pop (by simp)).watcherChanged hc⟩
    simp only [handle, watcherChanged, answerWaiters, Sys.answer, Client.answer_alive, Client.answer_gaveUp,
      Client.call_answer]
    split_ifs <;> exact ⟨rfl, rfl, fun _ ↦ Iff.rfl⟩
  | watcherError reason =>
    exact ⟨hc.serve (served_watcherError (by simp) htally), (hq.pop (by simp)).watcherError reason⟩
  | waitTimeout ref =>
    obtain ⟨tags, hserved⟩ := served_waitTimeout (s := s) ref hq.refs
    exact ⟨hc.serve hserved, hq.waitTimeout⟩
  | down monitor p =>
    have hp := hq.downs monitor p List.mem_cons_self
    refine ⟨hc.serve (served_down monitor p hp), ?_⟩
    have hpop := hq.pop (by simp)
    simp only [handle, down]
    split_ifs
    · exact hpop.dropSubscriber p
    · exact hpop.dropWaiterProcess hp
    · exact hpop
  | exit normal text =>
    have hpop := hq.pop (by simp)
    simp only [handle] at htally ⊢
    split_ifs with hend
    · rw [if_pos hend] at htally
      exact ⟨hc.serve ((Neutral.refl s).skip (by simp) htally), hpop⟩
    · rw [if_neg hend] at htally
      exact ⟨hc.serve (served_watcherError (by simp) htally), hpop.watcherError _⟩

theorem Inv.handle (h : Inv s) {ms : List (Msg ι)} (hms : s.mailbox = m :: ms) (hrun : s.stopped = false) :
    Inv (handle { s with mailbox := ms } m) := by
  obtain ⟨hc, hq⟩ := h.running hrun
  rw [hms] at hc hq
  have hc' : Calls (m :: ms) { s with mailbox := ms } := ⟨hc.single, hc.below, hc.known, hc.mailOwner, hc.waitOwner, hc.mail, hc.waits⟩
  have hq' : Quiet (m :: ms) { s with mailbox := ms } := ⟨hq.refs, hq.old, hq.timer, hq.quiet, hq.seen, hq.told, hq.downs⟩
  have hhonest : Honest (ElixirHub.handle { s with mailbox := ms } m) :=
    Honest.handle (s := { s with mailbox := ms }) h.honest hc' hq'
  have hsingle (t : ℕ) := (tally_handle { s with mailbox := ms } m t).trans (hc'.single t)
  by_cases hm : ∀ tag p, m ≠ .call tag p .close
  · refine ⟨hsingle, hhonest, fun _ ↦ calls_handle hc' hq' hm, fun hstop ↦ ?_⟩
    rw [stopped_handle hm] at hstop
    cases hrun.symm.trans hstop
  · push Not at hm
    obtain ⟨tag, p, rfl⟩ := hm
    refine ⟨hsingle, hhonest, nofun, fun _ q ↦ ?_⟩
    simp only [ElixirHub.handle, close]
    split_ifs with hcall
    · rfl
    · simpa using hcall

theorem Inv.call (h : Inv s) {p : ι} (hrun : s.stopped = false) (halive : (s.clients p).alive = true)
    (hcall : (s.clients p).call = none) (request : Request ι) :
    Inv { s with
      fresh := s.fresh + 1
      mailbox := s.mailbox ++ [.call s.fresh p request]
      clients := Function.update s.clients p { s.clients p with call := some s.fresh } } := by
  obtain ⟨hc, hq⟩ := h.running hrun
  have hpost := hc.post hcall halive request
  have hsame (q : ι) : ((Function.update s.clients p { s.clients p with call := some s.fresh }) q).alive =
      (s.clients q).alive ∧ ((Function.update s.clients p { s.clients p with call := some s.fresh }) q).gaveUp =
      (s.clients q).gaveUp ∧ ((Function.update s.clients p { s.clients p with call := some s.fresh }) q).told =
      (s.clients q).told ∧ ((Function.update s.clients p { s.clients p with call := some s.fresh }) q).got =
      (s.clients q).got := by
    simp only [Function.update_apply]
    split_ifs with hqp
    · rw [hqp]
      exact ⟨rfl, rfl, rfl, rfl⟩
    · exact ⟨rfl, rfl, rfl, rfl⟩
  refine ⟨hpost.single, h.honest.of_same fun q ↦ ⟨(hsame q).2.1, (hsame q).2.2.2⟩, fun _ ↦ ⟨hpost, ?_⟩,
    fun hstop ↦ ?_⟩
  · refine hq.of_same rfl (Nat.le_succ _) rfl (fun _ ↦ List.mem_append_left _) rfl rfl rfl
      (fun q ↦ ⟨(hsame q).1, (hsame q).2.1, (hsame q).2.2.1⟩) fun monitor q hd ↦ ?_
    rcases List.mem_append.mp hd with hd | hd
    · exact Or.inl hd
    · cases List.mem_singleton.mp hd
  · cases hrun.symm.trans hstop

/-- A client that gives up on its call, or dies. -/
theorem Inv.leave (h : Inv s) {p : ι} {c : Client} (extra : List (Msg ι)) (hcall : c.call = none)
    (hleft : c.gaveUp = true ∨ c.alive = false) (hgot : c.gaveUp = (s.clients p).gaveUp ∨ c.gaveUp = true)
    (hsame : c.got = (s.clients p).got) (hdead : c.alive = true → (s.clients p).alive = true)
    (htags : extra.filterMap Msg.tag? = [])
    (hextra : ∀ m ∈ extra, c.alive = false ∧ ∃ monitor, m = .down monitor p) :
    Inv { s with mailbox := s.mailbox ++ extra, clients := Function.update s.clients p c } := by
  have happend : (s.mailbox ++ extra).filterMap Msg.tag? = s.mailbox.filterMap Msg.tag? := by
    rw [List.filterMap_append, htags, List.append_nil]
  have hmail (tag : ℕ) (q : ι) (request : Request ι) :
      .call tag q request ∈ s.mailbox ++ extra ↔ .call tag q request ∈ s.mailbox := by
    refine ⟨fun hm ↦ (List.mem_append.mp hm).resolve_right fun hm ↦ ?_, List.mem_append_left _⟩
    obtain ⟨-, monitor, he⟩ := hextra _ hm
    cases he
  refine ⟨fun t ↦ ?_, fun q hg x hx ↦ ?_, fun hrun ↦ ?_, fun hstop q ↦ ?_⟩
  · have hsingle := h.single t
    simpa only [tally, happend] using hsingle
  · simp only [Function.update_apply] at hg hx
    split_ifs at hg hx with hqp
    · rcases hgot with hgot | hgot
      · exact h.honest p (hgot ▸ hg) x (hsame ▸ hx)
      · cases hg.symm.trans hgot
    · exact h.honest q hg x hx
  · obtain ⟨hc, hq⟩ := h.running hrun
    refine ⟨hc.of_same happend hmail rfl rfl rfl (fun q t hq ↦ ?_) fun q ha hg ↦ ?_, ?_⟩
    · simp only [Function.update_apply] at hq ⊢
      split_ifs at hq ⊢ with hqp
      · cases hcall.symm.trans hq
      · exact ⟨hq, (hc.known q t hq).1⟩
    · simp only [Function.update_apply] at ha hg ⊢
      split_ifs at ha hg ⊢ with hqp
      · rcases hleft with hleft | hleft
        · cases hg.symm.trans hleft
        · cases ha.symm.trans hleft
      · exact ⟨rfl, ha, hg⟩
    · refine ⟨hq.refs, hq.old, fun w hw ↦ (hq.timer w hw).imp_right (List.mem_append_left _), hq.quiet, hq.seen,
        fun q ha hg ↦ ?_, fun monitor q hd ↦ ?_⟩
      · simp only [Function.update_apply] at ha hg ⊢
        split_ifs at ha hg ⊢ with hqp
        · rcases hleft with hleft | hleft
          · cases hg.symm.trans hleft
          · cases ha.symm.trans hleft
        · exact hq.told q ha hg
      · simp only [Function.update_apply]
        rcases List.mem_append.mp hd with hd | hd
        · split_ifs with hqp
          · have hdown := hq.downs monitor q hd
            rw [hqp] at hdown
            by_contra halive
            cases hdown.symm.trans (hdead (by simpa using halive))
          · exact hq.downs monitor q hd
        · obtain ⟨hgone, monitor', he⟩ := hextra _ hd
          cases he
          rw [if_pos rfl]
          exact hgone
  · simp only [Function.update_apply]
    split_ifs
    · exact hcall
    · exact h.ended hstop q

theorem inv_step (s : Sys ι) (a : Act ι) (h : Inv s) : Inv (step s a) := by
  cases a with
  | call p request =>
    simp only [step]
    split_ifs with hok
    · exact h.call hok.1 hok.2.1 hok.2.2 request
    · exact h
  | giveUp p =>
    simp only [step]
    split_ifs
    · simpa using h.leave (p := p) (c := { s.clients p with call := none, gaveUp := true }) [] rfl
        (Or.inl rfl) (Or.inr rfl) rfl id rfl (by simp)
    · exact h
  | die p =>
    simp only [step]
    split_ifs with halive hstop
    · simpa using h.leave (p := p) (c := { s.clients p with alive := false, call := none }) [] rfl
        (Or.inr rfl) (Or.inl rfl) rfl nofun rfl (by simp)
    · refine h.leave _ rfl (Or.inr rfl) (Or.inl rfl) rfl nofun ?_ fun m hm ↦ ⟨rfl, ?_⟩
      · simp [Hub.downs, Function.comp_def]
      · obtain ⟨monitor, -, rfl⟩ := List.mem_map.mp hm
        exact ⟨monitor, rfl⟩
    · exact h
  | change | fail text | exit normal text =>
    simp only [step]
    split_ifs
    · exact h
    · exact h.post _ rfl (by simp)
  | fire ref =>
    simp only [step]
    split_ifs with hok
    · exact h.fire hok.1 ref
    · exact h
  | handle =>
    simp only [step]
    split
    case h_1 => exact h
    case h_2 m ms hms =>
      split_ifs with hstop
      · exact h
      · exact h.handle hms (by simpa using hstop)

theorem inv_run (as : List (Act ι)) : Inv (run step (.init ι) as) := run_invariant step inv_step .init as

/-- In every interleaving of calls, deaths and timeouts of clients, messages of the watcher and timers:
the hub answers no call twice; a client that has never given up on a call is told `:timeout` only when it
has been told of every change; and a client is in a call only while the hub runs, with its message in
the mailbox, or as a waiter whose timer is armed or has fired, with no error, and with no change that it
has not been told of, unless it has given up on a call before. -/
theorem hub_waits (as : List (Act ι)) :
    let s := run step (.init ι) as
    s.replied.Nodup ∧
      (∀ p, (s.clients p).gaveUp = false → ∀ x ∈ (s.clients p).got, x.1 = .timeout → x.2 = 0) ∧
      ∀ p tag, (s.clients p).call = some tag → s.stopped = false ∧
        ((∃ request, .call tag p request ∈ s.mailbox) ∨
          ∃ w ∈ s.hub.waiters, w.tag = tag ∧ w.pid = p ∧
            (w.ref ∈ s.timers ∨ .waitTimeout w.ref ∈ s.mailbox) ∧ s.hub.error = none ∧
            ((s.clients p).gaveUp = false → (s.clients p).told = s.hub.generation)) := by
  intro s
  have h : Inv s := inv_run as
  refine ⟨List.nodup_iff_count_le_one.mpr fun t ↦ ?_, h.honest, fun p tag hcall ↦ ?_⟩
  · have hsingle := h.single t
    unfold tally at hsingle
    omega
  · have hrun : s.stopped = false := by
      by_contra hstop
      cases hcall.symm.trans (h.ended (by simpa using hstop) p)
    obtain ⟨hc, hq⟩ := h.running hrun
    obtain ⟨halive, hwhere⟩ := hc.known p tag hcall
    refine ⟨hrun, hwhere.imp_right ?_⟩
    rintro ⟨w, hw, htag, hpid⟩
    refine ⟨w, hw, htag, hpid, hq.timer w hw, (hq.quiet w hw).1, fun hg ↦ ?_⟩
    rw [hq.told p halive hg, ← hpid]
    exact (hq.quiet w hw).2

/-- A client that gives up on a wait can miss the change that the wait was then answered with. -/
example : ((run step (.init Unit) [.call () (.wait 5), .handle, .giveUp (), .change, .handle,
    .call () (.wait 0), .handle]).clients ()).got = [(.timeout, 1)] := by decide +kernel

end Run

end ElixirHub

end Honker
