import Honker.Library.Interleaving

namespace Honker

open Interleaving

/-- A subscriber's channel of capacity 1: the id it is registered under, whether it holds a tick,
and whether its receiver is still there. -/
structure Channel where
  id : ℕ
  tick : Bool
  alive : Bool
deriving DecidableEq

/-- The sender map of `SharedUpdateWatcher` with the channels made so far. `senders` gives the
channel that a subscriber id sends into. -/
structure Hub where
  nextId : ℕ
  made : ℕ
  chan : ℕ → Channel
  senders : ℕ → Option ℕ

namespace Hub

def new : Hub := ⟨0, 0, fun _ ↦ ⟨0, false, false⟩, fun _ ↦ none⟩

/-- `next_id.fetch_add(1)`. -/
def fetchAdd (hub : Hub) : ℕ × Hub := (hub.nextId, { hub with nextId := (hub.nextId + 1) % 2 ^ 64 })

/-- The locked section of `subscribe`, on a new channel. -/
def insert (id : ℕ) (hub : Hub) : Hub :=
  { hub with
    made := hub.made + 1
    chan := Function.update hub.chan hub.made ⟨id, false, true⟩
    senders := Function.update hub.senders id (some hub.made) }

def unsubscribe (id : ℕ) (hub : Hub) : Hub :=
  { hub with senders := Function.update hub.senders id none }

def clear (hub : Hub) : Hub := { hub with senders := fun _ ↦ none }

def Connected (hub : Hub) (c : ℕ) : Prop := hub.senders (hub.chan c).id = some c

instance (hub : Hub) (c : ℕ) : Decidable (hub.Connected c) := inferInstanceAs (Decidable (_ = _))

/-- The watcher's `on_change`: a tick for every subscriber, none beyond the one a channel holds.
Senders whose receiver is gone are pruned. -/
def onChange (hub : Hub) : Hub :=
  { hub with
    chan := fun c ↦
      if hub.Connected c ∧ (hub.chan c).alive then { hub.chan c with tick := true } else hub.chan c
    senders := fun id ↦ (hub.senders id).filter fun c ↦ (hub.chan c).alive }

/-- A successful receive takes the tick out. -/
def takeTick (c : ℕ) (hub : Hub) : Hub :=
  { hub with chan := Function.update hub.chan c { hub.chan c with tick := false } }

def dropReceiver (c : ℕ) (hub : Hub) : Hub :=
  { hub with chan := Function.update hub.chan c { hub.chan c with alive := false } }

section Connected

variable (hub : Hub) (c : ℕ)

@[simp]
theorem chan_onChange_id : (hub.onChange.chan c).id = (hub.chan c).id := by
  simp only [onChange]
  split_ifs <;> rfl

@[simp]
theorem chan_onChange_alive : (hub.onChange.chan c).alive = (hub.chan c).alive := by
  simp only [onChange]
  split_ifs <;> rfl

@[simp]
theorem chan_dropReceiver_id (d : ℕ) : ((hub.dropReceiver d).chan c).id = (hub.chan c).id := by
  simp only [dropReceiver, Function.update_apply]
  split_ifs with h
  · rw [h]
  · rfl

@[simp]
theorem chan_takeTick_id (d : ℕ) : ((hub.takeTick d).chan c).id = (hub.chan c).id := by
  simp only [takeTick, Function.update_apply]
  split_ifs with h
  · rw [h]
  · rfl

@[simp]
theorem chan_takeTick_alive (d : ℕ) : ((hub.takeTick d).chan c).alive = (hub.chan c).alive := by
  simp only [takeTick, Function.update_apply]
  split_ifs with h
  · rw [h]
  · rfl

theorem chan_takeTick_of_ne {c d : ℕ} (h : c ≠ d) : (hub.takeTick d).chan c = hub.chan c :=
  Function.update_of_ne h _ _

@[simp]
theorem connected_takeTick (d : ℕ) : (hub.takeTick d).Connected c ↔ hub.Connected c := by
  rw [Connected, chan_takeTick_id]
  rfl

theorem chan_dropReceiver_of_ne {c d : ℕ} (h : c ≠ d) : (hub.dropReceiver d).chan c = hub.chan c :=
  Function.update_of_ne h _ _

@[simp]
theorem connected_fetchAdd : hub.fetchAdd.2.Connected c ↔ hub.Connected c := Iff.rfl

@[simp]
theorem connected_clear : ¬ hub.clear.Connected c := by
  simp [Connected, clear]

@[simp]
theorem connected_dropReceiver (d : ℕ) : (hub.dropReceiver d).Connected c ↔ hub.Connected c := by
  rw [Connected, chan_dropReceiver_id]
  rfl

theorem connected_unsubscribe (id : ℕ) :
    (hub.unsubscribe id).Connected c ↔ hub.Connected c ∧ (hub.chan c).id ≠ id := by
  simp only [Connected, unsubscribe, Function.update_apply]
  split_ifs with h <;> simp [h]

theorem connected_onChange :
    hub.onChange.Connected c ↔ hub.Connected c ∧ (hub.chan c).alive = true := by
  rw [Connected, chan_onChange_id, onChange, Option.filter_eq_some_iff]
  rfl

theorem connected_insert_made (id : ℕ) : (hub.insert id).Connected hub.made := by
  simp [Connected, insert]

theorem connected_insert {c : ℕ} (hc : c ≠ hub.made) (id : ℕ) :
    (hub.insert id).Connected c ↔ hub.Connected c ∧ (hub.chan c).id ≠ id := by
  simp only [Connected, insert, Function.update_of_ne hc, Function.update_apply]
  split_ifs with h
  · simp [h, Ne.symm hc]
  · simp [h]

theorem chan_insert {c : ℕ} (hc : c ≠ hub.made) (id : ℕ) : (hub.insert id).chan c = hub.chan c :=
  Function.update_of_ne hc _ _

end Connected

section Ready

variable (hub : Hub) (c : ℕ)

/-- A receive on the channel returns at once. -/
def Ready : Bool := (hub.chan c).tick || !decide (hub.Connected c)

theorem ready_of_not_connected {hub : Hub} {c : ℕ} (h : ¬ hub.Connected c) : hub.Ready c = true := by
  simp [Ready, h]

/-- A change of the hub that leaves the channel as it is and does not connect it anew. -/
theorem Ready.of_chan {hub hub' : Hub} {c : ℕ} (h : hub.Ready c = true) (hchan : hub'.chan c = hub.chan c)
    (hcon : hub'.Connected c → hub.Connected c) : hub'.Ready c = true := by
  simp only [Ready, Bool.or_eq_true, Bool.not_eq_true', decide_eq_false_iff_not] at *
  rw [hchan]
  exact h.imp_right (mt hcon)

theorem ready_onChange {hub : Hub} {c : ℕ} (h : (hub.chan c).alive = true) :
    hub.onChange.Ready c = true := by
  by_cases hcon : hub.Connected c
  · simp [Ready, onChange, hcon, h]
  · exact ready_of_not_connected fun hc ↦ hcon ((hub.connected_onChange c).mp hc).1

theorem Ready.onChange {hub : Hub} {c : ℕ} (h : hub.Ready c = true) : hub.onChange.Ready c = true := by
  by_cases halive : (hub.chan c).alive = true
  · exact ready_onChange halive
  · refine Ready.of_chan h ?_ fun hcon ↦ ((hub.connected_onChange c).mp hcon).1
    simp [Hub.onChange, halive]

/-- A change of the hub that a receiver loses nothing by. -/
structure Keeps (hub hub' : Hub) (c : ℕ) : Prop where
  made : hub.made ≤ hub'.made
  alive : (hub'.chan c).alive = (hub.chan c).alive
  ready : hub.Ready c = true → hub'.Ready c = true

theorem Keeps.of_chan {hub hub' : Hub} {c : ℕ} (hmade : hub.made ≤ hub'.made)
    (hchan : hub'.chan c = hub.chan c) (hcon : hub'.Connected c → hub.Connected c) : hub.Keeps hub' c :=
  ⟨hmade, by rw [hchan], fun h ↦ Ready.of_chan h hchan hcon⟩

theorem keeps_fetchAdd : hub.Keeps hub.fetchAdd.2 c := .of_chan le_rfl rfl id

theorem keeps_insert {hub : Hub} {c : ℕ} (h : c < hub.made) (id : ℕ) : hub.Keeps (hub.insert id) c :=
  .of_chan (Nat.le_succ _) (hub.chan_insert h.ne id) fun hc ↦ ((hub.connected_insert h.ne id).mp hc).1

theorem keeps_clear : hub.Keeps hub.clear c :=
  ⟨le_rfl, rfl, fun _ ↦ ready_of_not_connected (hub.connected_clear c)⟩

theorem keeps_onChange : hub.Keeps hub.onChange c := ⟨le_rfl, hub.chan_onChange_alive c, Ready.onChange⟩

theorem keeps_takeTick {c d : ℕ} (h : c ≠ d) : hub.Keeps (hub.takeTick d) c :=
  .of_chan le_rfl (hub.chan_takeTick_of_ne h) (hub.connected_takeTick c d).mp

theorem keeps_dropReceiver {c d : ℕ} (h : c ≠ d) : hub.Keeps (hub.dropReceiver d) c :=
  .of_chan le_rfl (hub.chan_dropReceiver_of_ne h) (hub.connected_dropReceiver c d).mp

theorem keeps_unsubscribe (id : ℕ) : hub.Keeps (hub.unsubscribe id) c :=
  .of_chan le_rfl rfl fun hc ↦ ((hub.connected_unsubscribe c id).mp hc).1

theorem Keeps.trans {hub hub' hub'' : Hub} {c : ℕ} (h : hub.Keeps hub' c) (h' : hub'.Keeps hub'' c) :
    hub.Keeps hub'' c :=
  ⟨h.made.trans h'.made, h'.alive.trans h.alive, h'.ready ∘ h.ready⟩

end Ready

end Hub

/-- Where a caller stands in `subscribe` or `close`. -/
inductive WatchPc
  | idle
  | inserting (id : ℕ)
  | cleared
  | joining
deriving DecidableEq

/-- The shared watcher with its thread and its callers. `watcher` tells whether the watcher is still
in its mutex, `lock` which `close` holds that mutex while it joins the thread, and `closed` whether a
`close` has returned. `unsubscribed` marks the channels whose sender `unsubscribe` removed. -/
structure WatcherSys (ι : Type) where
  hub : Hub
  exited : Bool
  watcher : Bool
  lock : Option ι
  closed : Bool
  unsubscribed : ℕ → Bool
  pc : ι → WatchPc

def WatcherSys.spawned (ι : Type) : WatcherSys ι :=
  ⟨.new, false, true, none, false, fun _ ↦ false, fun _ ↦ .idle⟩

/-- `exit` is the drop of the thread's closure, with its `WatcherDeathGuard`, whatever ended the
loop. -/
inductive WatcherAction (ι : Type)
  | fetchAdd (i : ι)
  | insert (i : ι)
  | unsubscribe (id : ℕ)
  | dropReceiver (c : ℕ)
  | onChange
  | exit
  | clear (i : ι)
  | take (i : ι)
  | join (i : ι)

section System

variable {ι : Type} [DecidableEq ι]

def watcherStep (s : WatcherSys ι) : WatcherAction ι → WatcherSys ι
  | .fetchAdd i =>
    match s.pc i with
    | .idle => { s with
        hub := s.hub.fetchAdd.2, pc := Function.update s.pc i (.inserting s.hub.fetchAdd.1) }
    | _ => s
  | .insert i =>
    match s.pc i with
    | .inserting id => { s with hub := s.hub.insert id, pc := Function.update s.pc i .idle }
    | _ => s
  | .unsubscribe id => { s with
      hub := s.hub.unsubscribe id
      unsubscribed := fun c ↦ s.unsubscribed c || (s.hub.Connected c ∧ (s.hub.chan c).id = id) }
  | .dropReceiver c => { s with hub := s.hub.dropReceiver c }
  | .onChange => if s.exited then s else { s with hub := s.hub.onChange }
  | .exit => if s.exited then s else { s with hub := s.hub.clear, exited := true }
  | .clear i =>
    match s.pc i with
    | .idle => { s with hub := s.hub.clear, pc := Function.update s.pc i .cleared }
    | _ => s
  | .take i =>
    -- The guard of the watcher's mutex lives as long as the `match`, so over the `join` too.
    match s.pc i, s.lock with
    | .cleared, none =>
      if s.watcher then
        { s with watcher := false, lock := some i, pc := Function.update s.pc i .joining }
      else { s with closed := true, pc := Function.update s.pc i .idle }
    | _, _ => s
  | .join i =>
    match s.pc i, s.exited with
    | .joining, true =>
      { s with lock := none, closed := true, pc := Function.update s.pc i .idle }
    | _, _ => s

/-- A subscriber registers while the watcher's thread lives, under an id that is free. -/
def RegistersInTime (s : WatcherSys ι) : WatcherAction ι → Prop
  | .insert i =>
    match s.pc i with
    | .inserting id => s.exited = false ∧ s.hub.senders id = none
    | _ => True
  | _ => True

def WatchPc.closing : WatchPc → Bool
  | .cleared => true
  | .joining => true
  | _ => false

/-- A `close` is past its first step and has not returned. -/
def WatcherSys.Closing (s : WatcherSys ι) : Prop := ∃ i, (s.pc i).closing

theorem closing_update {pc : ι → WatchPc} {i : ι} {p : WatchPc} (h : p.closing = (pc i).closing) :
    (∃ j, (Function.update pc i p j).closing) ↔ ∃ j, (pc j).closing := by
  refine exists_congr fun j ↦ ?_
  rw [Function.update_apply]
  split_ifs with hj
  · rw [h, hj]
  · rfl

structure WatchInv (s : WatcherSys ι) : Prop where
  returned : s.closed = true → s.exited = true
  taken : s.watcher = false → s.lock = none → s.exited = true
  gone : s.exited = true → ∀ c, ¬ s.hub.Connected c
  kept : s.exited = false → ¬ s.Closing → ∀ c < s.hub.made, (s.hub.chan c).alive = true →
    s.unsubscribed c = false → s.hub.Connected c

omit [DecidableEq ι] in
theorem watchInv_spawned : WatchInv (WatcherSys.spawned ι) := by
  constructor <;> simp [WatcherSys.spawned, Hub.new]

theorem watchInv_insert {s : WatcherSys ι} {i : ι} {id : ℕ} (hpc : s.pc i = .inserting id)
    (hin : s.exited = false) (hfree : s.hub.senders id = none) (h : WatchInv s) :
    WatchInv (watcherStep s (.insert i)) := by
  simp only [watcherStep, hpc]
  refine ⟨h.returned, h.taken, ?_, ?_⟩
  · intro hex
    rw [hin] at hex
    cases hex
  · intro hex hclosing c hc halive hunsub
    have hclosing : ¬ s.Closing := mt (closing_update (by rw [hpc]; rfl)).mpr hclosing
    dsimp only at hunsub halive hc ⊢
    by_cases hcm : c = s.hub.made
    · exact hcm ▸ s.hub.connected_insert_made id
    · have hlt : c < s.hub.made := lt_of_le_of_ne (Nat.lt_succ_iff.mp hc) hcm
      rw [Hub.chan_insert _ hcm] at halive
      have hcon := h.kept hin hclosing c hlt halive hunsub
      refine (s.hub.connected_insert hcm id).mpr ⟨hcon, ?_⟩
      rintro rfl
      rw [Hub.Connected, hfree] at hcon
      cases hcon

theorem watchInv_watcherStep (s : WatcherSys ι) (a : WatcherAction ι) (ha : RegistersInTime s a)
    (h : WatchInv s) : WatchInv (watcherStep s a) := by
  cases a with
  | fetchAdd i =>
    cases hpc : s.pc i with
    | idle =>
      simp only [watcherStep, hpc]
      refine ⟨h.returned, h.taken, h.gone, fun hex hclosing ↦ h.kept hex ?_⟩
      exact mt (closing_update (by rw [hpc]; rfl)).mpr hclosing
    | _ => simpa only [watcherStep, hpc] using h
  | insert i =>
    cases hpc : s.pc i with
    | inserting id =>
      simp only [RegistersInTime, hpc] at ha
      obtain ⟨hin, hfree⟩ := ha
      exact watchInv_insert hpc hin hfree h
    | _ => simpa only [watcherStep, hpc] using h
  | unsubscribe id =>
    refine ⟨h.returned, h.taken, ?_, ?_⟩
    · intro hex c hc
      exact h.gone hex c ((s.hub.connected_unsubscribe c id).mp hc).1
    · intro hex hclosing c hc halive hunsub
      simp only [watcherStep, Bool.or_eq_false_iff, decide_eq_false_iff_not, not_and] at hunsub
      have hcon := h.kept hex hclosing c hc halive hunsub.1
      exact (s.hub.connected_unsubscribe c id).mpr ⟨hcon, hunsub.2 hcon⟩
  | dropReceiver d =>
    refine ⟨h.returned, h.taken, ?_, ?_⟩
    · intro hex c hc
      exact h.gone hex c ((s.hub.connected_dropReceiver c d).mp hc)
    · intro hex hclosing c hc halive hunsub
      refine (s.hub.connected_dropReceiver c d).mpr (h.kept hex hclosing c hc ?_ hunsub)
      simp only [watcherStep, Hub.dropReceiver, Function.update_apply] at halive
      split_ifs at halive
      exact halive
  | onChange =>
    cases hex : s.exited with
    | true => simpa [watcherStep, hex] using h
    | false =>
      rw [watcherStep, if_neg (by simp [hex])]
      refine ⟨h.returned, h.taken, ?_, ?_⟩
      · intro hex'
        rw [hex] at hex'
        cases hex'
      · intro _ hclosing c hc halive hunsub
        rw [Hub.chan_onChange_alive] at halive
        exact (s.hub.connected_onChange c).mpr ⟨h.kept hex hclosing c hc halive hunsub, halive⟩
  | exit =>
    cases hex : s.exited with
    | true => simpa [watcherStep, hex] using h
    | false =>
      simp only [watcherStep, hex, Bool.false_eq_true, if_false]
      exact ⟨fun _ ↦ rfl, fun _ _ ↦ rfl, fun _ c ↦ s.hub.connected_clear c, fun hex ↦ by cases hex⟩
  | clear i =>
    cases hpc : s.pc i with
    | idle =>
      simp only [watcherStep, hpc]
      refine ⟨h.returned, h.taken, fun _ c ↦ s.hub.connected_clear c, fun _ hclosing ↦ ?_⟩
      exact absurd ⟨i, by simp [WatchPc.closing]⟩ hclosing
    | _ => simpa only [watcherStep, hpc] using h
  | take i =>
    cases hpc : s.pc i with
    | cleared =>
      cases hlock : s.lock with
      | some j => simpa only [watcherStep, hpc, hlock] using h
      | none =>
        cases hw : s.watcher with
        | true =>
          simp only [watcherStep, hpc, hlock, hw, if_true]
          refine ⟨h.returned, fun _ hl ↦ absurd hl (by simp), h.gone, fun hex hclosing ↦ h.kept hex ?_⟩
          exact mt (closing_update (by rw [hpc]; rfl)).mpr hclosing
        | false =>
          have hex := h.taken hw hlock
          simp only [watcherStep, hpc, hlock, hw, Bool.false_eq_true, if_false]
          exact ⟨fun _ ↦ hex, fun _ _ ↦ hex, h.gone, fun hex' ↦ by simp [hex] at hex'⟩
    | _ => simpa only [watcherStep, hpc] using h
  | join i =>
    cases hpc : s.pc i with
    | joining =>
      cases hex : s.exited with
      | true =>
        simp only [watcherStep, hpc, hex]
        exact ⟨fun _ ↦ rfl, fun _ _ ↦ rfl, fun _ ↦ h.gone hex, fun hex' ↦ by cases hex'⟩
      | false => simpa only [watcherStep, hpc, hex] using h
    | _ => simpa only [watcherStep, hpc] using h

/-- In every run in which each subscriber registers while the watcher's thread lives, no receiver is
connected once the thread has exited or a `close` has returned; and until then, outside a `close`,
only receivers that were dropped or unsubscribed are disconnected. -/
theorem watcher_disconnects (as : List (WatcherAction ι))
    (has : Along watcherStep RegistersInTime (.spawned ι) as) :
    let s := run watcherStep (.spawned ι) as
    (s.exited = true ∨ s.closed = true → ∀ c < s.hub.made, ¬ s.hub.Connected c) ∧
      (s.exited = false → s.closed = false → ¬ s.Closing → ∀ c < s.hub.made, ¬ s.hub.Connected c →
        (s.hub.chan c).alive = true → s.unsubscribed c = true) := by
  intro s
  have h : WatchInv s := along_invariant watcherStep watchInv_watcherStep watchInv_spawned has
  refine ⟨?_, ?_⟩
  · rintro (hex | hclosed) c -
    · exact h.gone hex c
    · exact h.gone (h.returned hclosed) c
  · intro hex _ hclosing c hc hcon halive
    by_contra hunsub
    exact hcon (h.kept hex hclosing c hc halive (Bool.eq_false_iff.mpr hunsub))

end System

/-- A subscriber registers, another one unsubscribes, and the watcher is closed. -/
def closedInTime : List (WatcherAction Bool) :=
  [.fetchAdd false, .insert false, .fetchAdd true, .insert true, .unsubscribe 1, .clear true, .take true,
    .exit, .join true]

theorem watcher_disconnects_closedInTime :
    ¬ (run watcherStep (.spawned Bool) closedInTime).hub.Connected 0 :=
  (watcher_disconnects closedInTime (by
    simp [closedInTime, Along, RegistersInTime, watcherStep, WatcherSys.spawned, Hub.new, Hub.fetchAdd,
      Hub.insert])).1 (by decide) 0 (by decide)

/-- A subscriber that comes after the thread's exit is registered with nobody left to disconnect
it. -/
theorem late_subscriber_stays_connected :
    let s := run watcherStep (.spawned Unit) [.exit, .fetchAdd (), .insert ()]
    s.exited = true ∧ 0 < s.hub.made ∧ s.hub.Connected 0 := by
  decide

end Honker
