import Honker.Library.Custody
import Honker.Library.Transition
import Mathlib.Data.Int.Lemmas

namespace Honker.SqlWatchers

open Transition

/-- The watcher and the subscription of a `HonkerWatcherHandle`, with the id that its open was
given. -/
structure Watcher where
  id : ℕ
  subscribed : Bool
  closed : Bool
  alive : Bool
deriving DecidableEq

/-- What a connection is in the middle of. -/
inductive Progress
  | opening (id watcher : ℕ)
  | waiting (id watcher : ℕ)
  | received (id watcher : ℕ) (code : ℤ)
deriving DecidableEq

def Progress.id : Progress → ℕ
  | .opening id _ => id
  | .waiting id _ => id
  | .received id _ _ => id

/-- The handle that the call holds. -/
def Progress.watcher : Progress → ℕ
  | .opening _ w => w
  | .waiting _ w => w
  | .received _ w _ => w

/-- The process: `NEXT_SQL_WATCHER_ID`, the watchers made so far, `SQL_WATCHERS` and the call of each
connection. -/
structure Process where
  nextId : ℕ
  made : ℕ
  watchers : ℕ → Watcher
  registry : ℕ → Option ℕ
  calls : ℕ → Option Progress

namespace Process

def start : Process :=
  ⟨1, 0, fun _ ↦ ⟨0, false, false, false⟩, fun _ ↦ none, fun _ ↦ none⟩

def setEntry (id : ℕ) (entry : Option ℕ) (p : Process) : Process :=
  { p with registry := Function.update p.registry id entry }

def setCall (t : ℕ) (call : Option Progress) (p : Process) : Process :=
  { p with calls := Function.update p.calls t call }

/-- `unsubscribe` and `close` on the handle's watcher. -/
def shut (w : ℕ) (p : Process) : Process :=
  { p with
    watchers := Function.update p.watchers w { p.watchers w with subscribed := false, closed := true } }

/-- `open_watcher_handle` and `fetch_add`. -/
def openHandle (t : ℕ) (p : Process) : Process :=
  { p with
    nextId := (p.nextId + 1) % 2 ^ 64
    made := p.made + 1
    watchers := Function.update p.watchers p.made ⟨p.nextId, true, false, true⟩
    calls := Function.update p.calls t (some (.opening p.nextId p.made)) }

def die (w : ℕ) (p : Process) : Process :=
  { p with watchers := Function.update p.watchers w { p.watchers w with alive := false } }

end Process

/-- How `recv_timeout` ends. -/
inductive Received
  | message
  | timeout
  | disconnected
deriving DecidableEq

/-- One step of a connection `t`, or the death of a watcher. An id is an SQL integer. -/
inductive Act
  | openHandle (t : ℕ)
  | openInsert (t : ℕ)
  | wait (t : ℕ) (id : ℤ)
  | recv (t : ℕ) (r : Received)
  | waitEnd (t : ℕ)
  | close (t : ℕ) (id : ℤ)
  | die (w : ℕ)
deriving DecidableEq

/-- What a call returns. -/
inductive Return
  | opened (id : ℕ)
  | waited (id : ℕ) (code : ℤ)
  | closed (id : ℕ)
deriving DecidableEq

/-- `id as u64`. -/
def key (id : ℤ) : ℕ := (id % 2 ^ 64).toNat

/-- A channel whose sender is gone. -/
def Process.Disconnected (p : Process) (w : ℕ) : Prop :=
  (p.watchers w).alive = false ∨ (p.watchers w).subscribed = false

instance (p : Process) (w : ℕ) : Decidable (p.Disconnected w) :=
  inferInstanceAs (Decidable (_ ∨ _))

def waitStep (p : Process) (t : ℕ) (id : ℕ) : Option Return × Process :=
  match p.registry id with
  | none => (some (.waited id (-1)), p)
  | some w => (none, (p.setEntry id none).setCall t (some (.waiting id w)))

def recvStep (p : Process) (t id w : ℕ) : Received → Process
  | .message => p.setCall t (some (.received id w 1))
  | .timeout => p.setCall t (some (.received id w 0))
  | .disconnected =>
    if p.Disconnected w then p.setCall t (some (.received id w (-1))) else p

def waitEndStep (p : Process) (t id w : ℕ) (code : ℤ) : Option Return × Process :=
  if code ≠ -1 then (some (.waited id code), (p.setEntry id (some w)).setCall t none)
  else (some (.waited id code), (p.shut w).setCall t none)

def closeStep (p : Process) (id : ℕ) : Option Return × Process :=
  match p.registry id with
  | some w => (some (.closed id), (p.setEntry id none).shut w)
  | none => (some (.closed id), p)

/-- A step that the connection's own call does not allow does nothing. -/
def step (p : Process) : Act → Option Return × Process
  | .openHandle t => if p.calls t = none then (none, p.openHandle t) else (none, p)
  | .openInsert t =>
    match p.calls t with
    | some (.opening id w) => (some (.opened id), (p.setEntry id (some w)).setCall t none)
    | _ => (none, p)
  | .wait t id => if p.calls t = none then waitStep p t (key id) else (none, p)
  | .recv t r =>
    match p.calls t with
    | some (.waiting id w) => (none, recvStep p t id w r)
    | _ => (none, p)
  | .waitEnd t =>
    match p.calls t with
    | some (.received id w code) => waitEndStep p t id w code
    | _ => (none, p)
  | .close t id => if p.calls t = none then closeStep p (key id) else (none, p)
  | .die w => (none, p.die w)

section Effects

/-- What one step can do. -/
inductive Effect (p : Process) : Act → Option Return → Process → Prop
  | nothing (a : Act) : Effect p a none p
  | opening (t : ℕ) (idle : p.calls t = none) : Effect p (.openHandle t) none (p.openHandle t)
  | inserted (t id w : ℕ) (call : p.calls t = some (.opening id w)) :
      Effect p (.openInsert t) (some (.opened id)) ((p.setEntry id (some w)).setCall t none)
  | missing (t : ℕ) (id : ℤ) (entry : p.registry (key id) = none) :
      Effect p (.wait t id) (some (.waited (key id) (-1))) p
  | taken (t : ℕ) (id : ℤ) (w : ℕ) (idle : p.calls t = none) (entry : p.registry (key id) = some w) :
      Effect p (.wait t id) none
        ((p.setEntry (key id) none).setCall t (some (.waiting (key id) w)))
  | received (t id w : ℕ) (r : Received) (code : ℤ) (call : p.calls t = some (.waiting id w))
      (gone : code = -1 → p.Disconnected w) :
      Effect p (.recv t r) none (p.setCall t (some (.received id w code)))
  | returned (t id w : ℕ) (code : ℤ) (call : p.calls t = some (.received id w code))
      (ok : code ≠ -1) :
      Effect p (.waitEnd t) (some (.waited id code)) ((p.setEntry id (some w)).setCall t none)
  | gaveUp (t id w : ℕ) (call : p.calls t = some (.received id w (-1))) :
      Effect p (.waitEnd t) (some (.waited id (-1))) ((p.shut w).setCall t none)
  | absent (t : ℕ) (id : ℤ) (entry : p.registry (key id) = none) :
      Effect p (.close t id) (some (.closed (key id))) p
  | closed (t : ℕ) (id : ℤ) (w : ℕ) (entry : p.registry (key id) = some w) :
      Effect p (.close t id) (some (.closed (key id))) ((p.setEntry (key id) none).shut w)
  | died (w : ℕ) : Effect p (.die w) none (p.die w)

theorem step_effect (p : Process) (a : Act) : Effect p a (step p a).1 (step p a).2 := by
  cases a with
  | openHandle t =>
    rw [step]
    split_ifs with hidle
    · exact .opening t hidle
    · exact .nothing _
  | openInsert t =>
    rw [step]
    split
    · exact .inserted t _ _ ‹_›
    · exact .nothing _
  | wait t id =>
    rw [step, waitStep]
    split_ifs with hidle
    · split
      · exact .missing t id ‹_›
      · exact .taken t id _ hidle ‹_›
    · exact .nothing _
  | recv t r =>
    rw [step]
    split
    · rename_i id w hcall
      cases r with
      | message => exact .received t id w _ 1 hcall (by omega)
      | timeout => exact .received t id w _ 0 hcall (by omega)
      | disconnected =>
        rw [recvStep]
        split_ifs with hgone
        · exact .received t id w _ (-1) hcall fun _ ↦ hgone
        · exact .nothing _
    · exact .nothing _
  | waitEnd t =>
    rw [step]
    split
    · rename_i id w code hcall
      rw [waitEndStep]
      split_ifs with hcode
      · exact .returned t id w code hcall hcode
      · rw [not_not] at hcode
        subst hcode
        exact .gaveUp t id w hcall
    · exact .nothing _
  | close t id =>
    rw [step, closeStep]
    split_ifs with hidle
    · split
      · exact .closed t id _ ‹_›
      · exact .absent t id ‹_›
    · exact .nothing _
  | die w => exact .died w

end Effects

section Life

/-- A wait is between its two lock sections: it holds the handle of `id`. -/
def Process.Held (p : Process) (id : ℕ) : Prop :=
  ∃ t w, p.calls t = some (.waiting id w) ∨ ∃ code, p.calls t = some (.received id w code)

/-- Where a handle can be: in the registry, or with a call. -/
inductive Slot
  | entry (id : ℕ)
  | call (t : ℕ)
deriving DecidableEq

def Process.slots (p : Process) : Slot → Option ℕ
  | .entry id => p.registry id
  | .call t => (p.calls t).map Progress.watcher

section Slots

variable (p : Process) (id t w : ℕ)

theorem slots_setEntry (e : Option ℕ) :
    (p.setEntry id e).slots = Function.update p.slots (.entry id) e := by
  funext x
  cases x with
  | entry i => simp [Process.slots, Process.setEntry, Function.update_apply]
  | call t => simp [Process.slots, Process.setEntry]

theorem slots_setCall (c : Option Progress) :
    (p.setCall t c).slots = Function.update p.slots (.call t) (c.map Progress.watcher) := by
  funext x
  cases x with
  | entry i => simp [Process.slots, Process.setCall]
  | call u =>
    simp only [Process.slots, Process.setCall, Function.update_apply, Slot.call.injEq]
    split_ifs <;> rfl

theorem slots_openHandle :
    (p.openHandle t).slots = Function.update p.slots (.call t) (some p.made) := by
  funext x
  cases x with
  | entry i => simp [Process.slots, Process.openHandle]
  | call u =>
    simp only [Process.slots, Process.openHandle, Function.update_apply, Slot.call.injEq]
    split_ifs <;> rfl

end Slots

/-- Every handle is under the id that it was opened with. -/
structure Owned (p : Process) : Prop where
  entry : ∀ id w, p.registry id = some w → w < p.made ∧ (p.watchers w).id = id
  call : ∀ t c, p.calls t = some c → c.watcher < p.made ∧ (p.watchers c.watcher).id = c.id

/-- Every handle is in one place until its watcher is closed. `opens` and `closes` are the ids that
an open and a later close have returned. -/
structure Inv (opens closes : ℕ → Prop) (p : Process) : Prop extends Owned p where
  bound : p.nextId < 2 ^ 64
  fresh : ∀ w < p.made, (p.watchers w).id < p.nextId ∨ p.nextId = 0
  ids : ∀ w < p.made, ∀ w' < p.made, (p.watchers w).id = (p.watchers w').id → w = w'
  unique : Custody.Unique p.slots
  live : ∀ w, Custody.Has p.slots w → (p.watchers w).closed = false ∧ (p.watchers w).subscribed = true
  somewhere : ∀ w < p.made, (p.watchers w).closed = true ∨ Custody.Has p.slots w
  dead : ∀ t id w, p.calls t = some (.received id w (-1)) → (p.watchers w).alive = false
  opened : ∀ id, opens id → ∃ w < p.made, (p.watchers w).id = id ∧
    ∀ t, p.calls t ≠ some (.opening id w)
  entering : ∀ w < p.made, opens (p.watchers w).id ∨
    ∃ t, p.calls t = some (.opening (p.watchers w).id w)
  after : ∀ id, closes id → opens id
  closed : ∀ id, closes id → ∀ w < p.made, (p.watchers w).id = id → (p.watchers w).closed = true
  why : ∀ w < p.made, (p.watchers w).closed = true →
    closes (p.watchers w).id ∨ (p.watchers w).alive = false

variable {opens closes : ℕ → Prop} {p : Process} {t id w : ℕ}

theorem Owned.slot_lt (h : Owned p) {x : Slot} (hx : p.slots x = some w) : w < p.made := by
  cases x with
  | entry id => exact (h.entry id w hx).1
  | call t =>
    obtain ⟨c, hc, rfl⟩ := Option.map_eq_some_iff.mp hx
    exact (h.call t c hc).1

theorem Owned.setEntry (h : Owned p) {e : Option ℕ}
    (he : ∀ w, e = some w → w < p.made ∧ (p.watchers w).id = id) : Owned (p.setEntry id e) := by
  refine ⟨fun i w hw ↦ ?_, h.call⟩
  obtain ⟨hi, hw'⟩ | ⟨-, hw'⟩ := Custody.update_some.mp hw
  · rw [hi]
    exact he w hw'
  · exact h.entry i w hw'

theorem Owned.setCall (h : Owned p) {o : Option Progress}
    (ho : ∀ c, o = some c → c.watcher < p.made ∧ (p.watchers c.watcher).id = c.id) :
    Owned (p.setCall t o) := by
  refine ⟨h.entry, fun u c hc ↦ ?_⟩
  obtain ⟨-, hc⟩ | ⟨-, hc⟩ := Custody.update_some.mp hc
  · exact ho c hc
  · exact h.call u c hc

theorem Owned.watchers (h : Owned p) {watchers : ℕ → Watcher}
    (hid : ∀ w, (watchers w).id = (p.watchers w).id) : Owned { p with watchers := watchers } := by
  refine ⟨fun i w hw ↦ ?_, fun u c hc ↦ ?_⟩
  · exact ⟨(h.entry i w hw).1, (hid w).trans (h.entry i w hw).2⟩
  · exact ⟨(h.call u c hc).1, (hid _).trans (h.call u c hc).2⟩

/-- A change to a watcher that keeps one of its fields. -/
theorem watchers_field {α : Type} (field : Watcher → α) {x : Watcher} (hx : field x = field (p.watchers w))
    (v : ℕ) : field (Function.update p.watchers w x v) = field (p.watchers v) := by
  rw [Function.update_apply]
  split_ifs with hv
  · rw [hv, hx]
  · rfl

theorem shut_id (p : Process) (w v : ℕ) : ((p.shut w).watchers v).id = (p.watchers v).id := by
  apply watchers_field Watcher.id
  rfl

theorem die_id (p : Process) (w v : ℕ) : ((p.die w).watchers v).id = (p.watchers v).id := by
  apply watchers_field Watcher.id
  rfl

theorem openHandle_watcher (p : Process) (t : ℕ) {v : ℕ} (hv : v < p.made) :
    (p.openHandle t).watchers v = p.watchers v := Function.update_of_ne (Nat.ne_of_lt hv) _ _

theorem Owned.openHandle (h : Owned p) (t : ℕ) : Owned (p.openHandle t) := by
  refine ⟨fun i w hw ↦ ?_, fun u c hc ↦ ?_⟩
  · obtain ⟨hlt, hid⟩ := h.entry i w hw
    rw [openHandle_watcher p t hlt]
    exact ⟨Nat.lt_succ_of_lt hlt, hid⟩
  · obtain ⟨-, hc⟩ | ⟨-, hc⟩ := Custody.update_some.mp hc
    · cases hc
      refine ⟨Nat.lt_succ_self _, ?_⟩
      simp [Process.openHandle, Progress.watcher, Progress.id]
    · obtain ⟨hlt, hid⟩ := h.call u c hc
      rw [openHandle_watcher p t hlt]
      exact ⟨Nat.lt_succ_of_lt hlt, hid⟩

/-- Handles stay under their ids, whatever the calls do. -/
theorem Effect.owned {a : Act} {r : Option Return} {p' : Process} (heff : Effect p a r p')
    (h : Owned p) : Owned p' := by
  cases heff with
  | nothing => exact h
  | opening t => exact h.openHandle t
  | inserted t id w call =>
    have hown := h.call t _ call
    exact (h.setEntry (e := some w) fun v hv ↦ by cases hv; exact hown).setCall (o := none) (by simp)
  | missing => exact h
  | taken t id w _ entry =>
    have hown := h.entry _ w entry
    exact (h.setEntry (e := none) (by simp)).setCall fun c hc ↦ by cases hc; exact hown
  | received t id w r code call =>
    have hown := h.call t _ call
    exact h.setCall fun c hc ↦ by cases hc; exact hown
  | returned t id w code call =>
    have hown := h.call t _ call
    exact (h.setEntry (e := some w) fun v hv ↦ by cases hv; exact hown).setCall (o := none) (by simp)
  | gaveUp t id w call => exact (h.watchers (shut_id p w)).setCall (o := none) (by simp)
  | absent => exact h
  | closed t id w entry =>
    exact (h.setEntry (e := none) (by simp)).watchers (shut_id (p.setEntry _ none) w)
  | died w => exact h.watchers (die_id p w)

theorem slots_call {c : Progress} (hc : p.calls t = some c) : p.slots (.call t) = some c.watcher := by
  simp [Process.slots, hc]

theorem Inv.entry_none (h : Inv opens closes p) {c : Progress} (hc : p.calls t = some c) :
    p.registry c.id = none := by
  cases hentry : p.registry c.id with
  | none => rfl
  | some w =>
    obtain ⟨hlt, hid⟩ := h.entry _ w hentry
    obtain ⟨hlt', hid'⟩ := h.call t c hc
    have hw : w = c.watcher := h.ids w hlt _ hlt' (hid.trans hid'.symm)
    cases h.unique (.entry c.id) (.call t) w hentry (hw ▸ slots_call hc)

/-- Handles that change places: no watcher changes, no handle is lost, no call is new but a wait's,
and an open that is over has opened its id. -/
theorem Inv.moved (h : Inv opens closes p) {opens' : ℕ → Prop} {registry : ℕ → Option ℕ}
    {calls : ℕ → Option Progress} (hmono : ∀ i, opens i → opens' i)
    (howned : Owned { p with registry := registry, calls := calls })
    (hunique : Custody.Unique { p with registry := registry, calls := calls }.slots)
    (hhas : ∀ w, Custody.Has { p with registry := registry, calls := calls }.slots w ↔
      Custody.Has p.slots w)
    (hcalls : ∀ u c, calls u = some c → p.calls u = some c ∨ (∃ id w, c = .waiting id w) ∨
      ∃ id w code, c = .received id w code ∧ (code = -1 → (p.watchers w).alive = false))
    (hopened : ∀ i, opens' i → opens i ∨ ∃ w < p.made, (p.watchers w).id = i ∧
      ∀ u, calls u ≠ some (.opening i w))
    (hentering : ∀ u i w, p.calls u = some (.opening i w) →
      opens' i ∨ calls u = some (.opening i w)) :
    Inv opens' closes { p with registry := registry, calls := calls } := by
  refine ⟨howned, h.bound, h.fresh, h.ids, hunique, fun w hw ↦ h.live w ((hhas w).mp hw),
    fun w hw ↦ (h.somewhere w hw).imp_right (hhas w).mpr, fun u id w hc ↦ ?_, fun id hid ↦ ?_,
    fun w hw ↦ ?_, fun i hi ↦ hmono i (h.after i hi), h.closed, h.why⟩
  · obtain hold | ⟨_, _, hnew⟩ | ⟨_, _, _, hnew, hdead⟩ := hcalls u _ hc
    · exact h.dead u id w hold
    · cases hnew
    · cases hnew
      exact hdead rfl
  · obtain hid | hnew := hopened id hid
    · obtain ⟨w, hlt, hw, hopening⟩ := h.opened id hid
      refine ⟨w, hlt, hw, fun u hc ↦ ?_⟩
      obtain hold | ⟨_, _, hnew⟩ | ⟨_, _, _, hnew, -⟩ := hcalls u _ hc
      · exact hopening u hold
      · cases hnew
      · cases hnew
    · exact hnew
  · obtain hopen | ⟨u, hc⟩ := h.entering w hw
    · exact Or.inl (hmono _ hopen)
    · exact (hentering u _ w hc).imp_right fun hc ↦ ⟨u, hc⟩

/-- The handle of a call goes into the registry, and the call returns. -/
theorem Inv.putBack (h : Inv opens closes p) (opens' : ℕ → Prop) {c : Progress}
    (hc : p.calls t = some c) (hmono : ∀ i, opens i → opens' i)
    (hopens : ∀ i, opens' i → opens i ∨ i = c.id) (hopening : ∀ i w, c = .opening i w → opens' i) :
    Inv opens' closes ((p.setEntry c.id (some c.watcher)).setCall t none) := by
  have hown := h.call t c hc
  have hslots : ((p.setEntry c.id (some c.watcher)).setCall t none).slots = Function.update
      (Function.update p.slots (.call t) none) (.entry c.id) (some c.watcher) := by
    rw [slots_setCall, slots_setEntry, Function.update_comm (by simp)]
    rfl
  have hold {u : ℕ} {c' : Progress} (hc' : Function.update p.calls t none u = some c') :
      u ≠ t ∧ p.calls u = some c' := by
    obtain ⟨-, hnone⟩ | hold := Custody.update_some.mp hc'
    · cases hnone
    · exact hold
  refine h.moved hmono ?_ ?_ (fun w ↦ ?_) (fun u c' hc' ↦ Or.inl (hold hc').2) (fun i hi ↦ ?_)
    fun u i w hc' ↦ ?_
  · refine (h.toOwned.setEntry (e := some c.watcher) fun v hv ↦ ?_).setCall (o := none) (by simp)
    cases hv
    exact hown
  · change Custody.Unique ((p.setEntry c.id (some c.watcher)).setCall t none).slots
    rw [hslots]
    exact h.unique.move (slots_call hc) _
  · change Custody.Has ((p.setEntry c.id (some c.watcher)).setCall t none).slots w ↔ _
    rw [hslots]
    exact Custody.has_move h.unique (slots_call hc) (h.entry_none hc)
  · obtain hi | rfl := hopens i hi
    · exact Or.inl hi
    · -- Only this call had the handle.
      refine Or.inr ⟨c.watcher, hown.1, hown.2, fun u hc' ↦ ?_⟩
      obtain ⟨hne, hc'⟩ := hold hc'
      have hslot : p.slots (.call u) = some c.watcher := by
        rw [Process.slots, hc']
        rfl
      exact hne (Slot.call.inj (h.unique _ _ _ hslot (slots_call hc)))
  · by_cases hu : u = t
    · rw [hu] at hc'
      exact Or.inl (hopening i w (Option.some.inj (hc.symm.trans hc')))
    · refine Or.inr ?_
      rw [← hc']
      exact Function.update_of_ne hu _ _

theorem setCall_opening {o : Option Progress} {u i v : ℕ}
    (ht : ∀ i v, p.calls t ≠ some (.opening i v)) (hc : p.calls u = some (.opening i v)) :
    Function.update p.calls t o u = some (.opening i v) := by
  have hu : u ≠ t := by
    rintro rfl
    exact ht i v hc
  rw [Function.update_of_ne hu, hc]

theorem Inv.taken (h : Inv opens closes p) (hidle : p.calls t = none)
    (hentry : p.registry id = some w) :
    Inv opens closes ((p.setEntry id none).setCall t (some (.waiting id w))) := by
  have hown := h.entry id w hentry
  have hfrom : p.slots (.entry id) = some w := hentry
  have hslots : ((p.setEntry id none).setCall t (some (.waiting id w))).slots = Function.update
      (Function.update p.slots (.entry id) none) (.call t) (some w) := by
    rw [slots_setCall, slots_setEntry]
    rfl
  refine h.moved (fun _ hi ↦ hi) ?_ ?_ (fun v ↦ ?_) (fun u c hc ↦ ?_) (fun _ hi ↦ Or.inl hi)
    fun u i v hc ↦ Or.inr (setCall_opening (p := p) (by simp [hidle]) hc)
  · refine (h.toOwned.setEntry (e := none) (by simp)).setCall (o := some _) fun c hc ↦ ?_
    cases hc
    exact hown
  · change Custody.Unique ((p.setEntry id none).setCall t (some (.waiting id w))).slots
    rw [hslots]
    exact h.unique.move hfrom _
  · change Custody.Has ((p.setEntry id none).setCall t (some (.waiting id w))).slots v ↔ _
    rw [hslots]
    exact Custody.has_move h.unique hfrom (by simp [Process.slots, hidle])
  · obtain ⟨-, hnew⟩ | ⟨-, hold⟩ := Custody.update_some.mp hc
    · cases hnew
      exact Or.inr (Or.inl ⟨id, w, rfl⟩)
    · exact Or.inl hold

theorem Inv.received (h : Inv opens closes p) {code : ℤ} (hc : p.calls t = some (.waiting id w))
    (hgone : code = -1 → p.Disconnected w) :
    Inv opens closes (p.setCall t (some (.received id w code))) := by
  have hown := h.call t _ hc
  have hslots : (p.setCall t (some (.received id w code))).slots = p.slots := by
    rw [slots_setCall]
    exact Function.update_eq_self_iff.mpr (slots_call hc).symm
  refine h.moved (fun _ hi ↦ hi) ?_ ?_ (fun v ↦ ?_) (fun u c hcall ↦ ?_) (fun _ hi ↦ Or.inl hi)
    fun u i v hcall ↦ Or.inr (setCall_opening (by simp [hc]) hcall)
  · refine h.toOwned.setCall (o := some _) fun c hnew ↦ ?_
    cases hnew
    exact hown
  · change Custody.Unique (p.setCall t (some (.received id w code))).slots
    rw [hslots]
    exact h.unique
  · change Custody.Has (p.setCall t (some (.received id w code))).slots v ↔ _
    rw [hslots]
  · obtain ⟨-, hnew⟩ | ⟨-, hold⟩ := Custody.update_some.mp hcall
    · cases hnew
      refine Or.inr (Or.inr ⟨id, w, code, rfl, fun hcode ↦ ?_⟩)
      -- The subscription is still there, so the watcher itself has gone.
      have hsub := (h.live w ⟨.call t, slots_call hc⟩).2
      obtain halive | hsub' := hgone hcode
      · exact halive
      · cases hsub.symm.trans hsub'
    · exact Or.inl hold

/-- An id that an open has returned, whose handle no wait holds and the registry does not have, is
closed. -/
theorem Inv.closed_of_absent (h : Inv opens closes p) (hopen : opens id) (hentry : p.registry id = none)
    (hfree : ¬ p.Held id) :
    ∀ w < p.made, (p.watchers w).id = id → (p.watchers w).closed = true := by
  obtain ⟨w, hlt, hid, hopening⟩ := h.opened id hopen
  intro v hv hvid
  rw [h.ids v hv w hlt (hvid.trans hid.symm)]
  obtain hclosed | ⟨x, hx⟩ := h.somewhere w hlt
  · exact hclosed
  exfalso
  cases x with
  | entry i =>
    have hi : i = id := (h.entry i w hx).2.symm.trans hid
    rw [hi] at hx
    cases hentry.symm.trans hx
  | call t =>
    obtain ⟨c, hc, rfl⟩ := Option.map_eq_some_iff.mp hx
    have hcid : c.id = id := (h.call t c hc).2.symm.trans hid
    cases c with
    | opening i w =>
      cases hcid
      exact hopening t hc
    | waiting i w =>
      cases hcid
      exact hfree ⟨t, w, Or.inl hc⟩
    | received i w code =>
      cases hcid
      exact hfree ⟨t, w, Or.inr ⟨code, hc⟩⟩

/-- A handle leaves its place for good, and its watcher is closed with a reason. -/
theorem Inv.dropped (h : Inv opens closes p) (closes' : ℕ → Prop) {x : Slot} (hx : p.slots x = some w)
    {registry : ℕ → Option ℕ} {calls : ℕ → Option Progress}
    (howned : Owned { p.shut w with registry := registry, calls := calls })
    (hslots : { p.shut w with registry := registry, calls := calls }.slots =
      Function.update p.slots x none)
    (hcalls : ∀ u c, calls u = some c → p.calls u = some c)
    (hentering : ∀ u i v, p.calls u = some (.opening i v) → calls u = some (.opening i v))
    (hmono : ∀ i, closes i → closes' i) (hafter : ∀ i, closes' i → opens i)
    (hnew : ∀ i, closes' i → closes i ∨ i = (p.watchers w).id)
    (hwhy : closes' (p.watchers w).id ∨ (p.watchers w).alive = false) :
    Inv opens closes' { p.shut w with registry := registry, calls := calls } := by
  have hlt := h.slot_lt hx
  have hid := shut_id p w
  have hsame {v : ℕ} (hv : v ≠ w) : (p.shut w).watchers v = p.watchers v :=
    Function.update_of_ne hv _ _
  have hshut : ((p.shut w).watchers w).closed = true := by simp [Process.shut]
  have halive (v : ℕ) : ((p.shut w).watchers v).alive = (p.watchers v).alive := by
    apply watchers_field Watcher.alive
    rfl
  have hclosed {v : ℕ} (hv : (p.watchers v).closed = true) : ((p.shut w).watchers v).closed = true := by
    by_cases hvw : v = w
    · rw [hvw]
      exact hshut
    · rw [hsame hvw]
      exact hv
  refine ⟨howned, h.bound, fun v hv ↦ ?_, fun v hv v' hv' heq ↦ ?_, ?_, fun v hv ↦ ?_, fun v hv ↦ ?_,
    fun u i v hc ↦ ?_, fun i hi ↦ ?_, fun v hv ↦ ?_, hafter, fun i hi v hv hvi ↦ ?_,
    fun v hv hc ↦ ?_⟩
  · rw [hid]
    exact h.fresh v hv
  · rw [hid, hid] at heq
    exact h.ids v hv v' hv' heq
  · rw [hslots]
    exact h.unique.drop x
  · rw [hslots, Custody.has_drop h.unique hx] at hv
    rw [hsame hv.2]
    exact h.live v hv.1
  · rw [hslots, Custody.has_drop h.unique hx]
    by_cases hvw : v = w
    · rw [hvw]
      exact Or.inl hshut
    · exact (h.somewhere v hv).imp hclosed fun hhas ↦ ⟨hhas, hvw⟩
  · rw [halive]
    exact h.dead u i v (hcalls u _ hc)
  · obtain ⟨v, hv, hvi, hopening⟩ := h.opened i hi
    exact ⟨v, hv, (hid v).trans hvi, fun u hc ↦ hopening u (hcalls u _ hc)⟩
  · rw [hid]
    exact (h.entering v hv).imp_right fun ⟨u, hc⟩ ↦ ⟨u, hentering u _ v hc⟩
  · rw [hid] at hvi
    obtain hi | hi := hnew i hi
    · exact hclosed (h.closed i hi v hv hvi)
    · rw [h.ids v hv w hlt (hvi.trans hi)]
      exact hshut
  · rw [hid, halive]
    by_cases hvw : v = w
    · rw [hvw]
      exact hwhy
    · rw [hsame hvw] at hc
      exact (h.why v hv hc).imp_left (hmono _)

theorem Inv.opening (h : Inv opens closes p) (hid : p.nextId ≠ 0) (hidle : p.calls t = none) :
    Inv opens closes (p.openHandle t) := by
  have hold {v : ℕ} (hv : v < p.made) : (p.openHandle t).watchers v = p.watchers v :=
    openHandle_watcher p t hv
  have hnew : (p.openHandle t).watchers p.made = ⟨p.nextId, true, false, true⟩ := by
    simp [Process.openHandle]
  have hcases {v : ℕ} (hv : v < (p.openHandle t).made) : v < p.made ∨ v = p.made :=
    Nat.lt_succ_iff_lt_or_eq.mp hv
  have hnowhere : ¬ Custody.Has p.slots p.made := fun ⟨x, hx⟩ ↦ Nat.lt_irrefl _ (h.slot_lt hx)
  have hempty : p.slots (.call t) = none := by simp [Process.slots, hidle]
  have hbound := h.bound
  have hlast {v : ℕ} (hv : v < p.made) : (p.watchers v).id < p.nextId :=
    (h.fresh v hv).resolve_right hid
  refine ⟨h.toOwned.openHandle t, Nat.mod_lt _ (by omega), fun v hv ↦ ?_, fun v hv v' hv' heq ↦ ?_, ?_,
    fun v hv ↦ ?_, fun v hv ↦ ?_, fun u i v hc ↦ ?_, fun i hi ↦ ?_,
    fun v hv ↦ ?_, h.after, fun i hi v hv hvi ↦ ?_, fun v hv hc ↦ ?_⟩
  · change _ < (p.nextId + 1) % 2 ^ 64 ∨ (p.nextId + 1) % 2 ^ 64 = 0
    obtain hv | rfl := hcases hv
    · have hlt := hlast hv
      rw [hold hv]
      omega
    · rw [hnew]
      dsimp only
      omega
  · obtain hv | rfl := hcases hv
    · obtain hv' | rfl := hcases hv'
      · rw [hold hv, hold hv'] at heq
        exact h.ids v hv v' hv' heq
      · rw [hold hv, hnew] at heq
        exact absurd heq (Nat.ne_of_lt (hlast hv))
    · obtain hv' | rfl := hcases hv'
      · rw [hold hv', hnew] at heq
        exact absurd heq.symm (Nat.ne_of_lt (hlast hv'))
      · rfl
  · rw [slots_openHandle]
    exact h.unique.put hnowhere _
  · rw [slots_openHandle, Custody.has_put hempty] at hv
    obtain ⟨x, hx⟩ | rfl := hv
    · rw [hold (h.slot_lt hx)]
      exact h.live v ⟨x, hx⟩
    · rw [hnew]
      exact ⟨rfl, rfl⟩
  · rw [slots_openHandle, Custody.has_put hempty]
    obtain hv | rfl := hcases hv
    · rw [hold hv]
      exact (h.somewhere v hv).imp_right Or.inl
    · exact Or.inr (Or.inr rfl)
  · obtain ⟨-, hc⟩ | ⟨-, hc⟩ := Custody.update_some.mp hc
    · cases hc
    · have hlt : v < p.made := (h.call u _ hc).1
      rw [hold hlt]
      exact h.dead u i v hc
  · obtain ⟨v, hv, hvi, hopening⟩ := h.opened i hi
    refine ⟨v, Nat.lt_succ_of_lt hv, by rw [hold hv]; exact hvi, fun u hc ↦ ?_⟩
    obtain ⟨-, hc⟩ | ⟨-, hc⟩ := Custody.update_some.mp hc
    · cases hc
      exact Nat.lt_irrefl _ hv
    · exact hopening u hc
  · obtain hv | rfl := hcases hv
    · rw [hold hv]
      refine (h.entering v hv).imp_right fun ⟨u, hc⟩ ↦ ⟨u, ?_⟩
      exact setCall_opening (by simp [hidle]) hc
    · exact Or.inr ⟨t, by rw [hnew]; simp [Process.openHandle]⟩
  · obtain hv | rfl := hcases hv
    · rw [hold hv] at hvi ⊢
      exact h.closed i hi v hv hvi
    · rw [hnew] at hvi
      obtain ⟨w, hw, hwi, -⟩ := h.opened i (h.after i hi)
      exact absurd (hwi.trans hvi.symm) (Nat.ne_of_lt (hlast hw))
  · obtain hv | rfl := hcases hv
    · rw [hold hv] at hc ⊢
      exact h.why v hv hc
    · rw [hnew] at hc
      cases hc

theorem Inv.died (h : Inv opens closes p) (w : ℕ) : Inv opens closes (p.die w) := by
  have hid := die_id p w
  have hclosed (v : ℕ) : ((p.die w).watchers v).closed = (p.watchers v).closed := by
    apply watchers_field Watcher.closed
    rfl
  have hsub (v : ℕ) : ((p.die w).watchers v).subscribed = (p.watchers v).subscribed := by
    apply watchers_field Watcher.subscribed
    rfl
  have halive {v : ℕ} (hv : (p.watchers v).alive = false) : ((p.die w).watchers v).alive = false := by
    simp only [Process.die, Function.update_apply]
    split_ifs
    · rfl
    · exact hv
  refine ⟨h.toOwned.watchers hid, h.bound, fun v hv ↦ ?_, fun v hv v' hv' heq ↦ ?_, h.unique,
    fun v hv ↦ ?_, fun v hv ↦ ?_, fun u i v hc ↦ halive (h.dead u i v hc), fun i hi ↦ ?_,
    fun v hv ↦ ?_, h.after, fun i hi v hv hvi ↦ ?_, fun v hv hc ↦ ?_⟩
  · rw [hid]
    exact h.fresh v hv
  · rw [hid, hid] at heq
    exact h.ids v hv v' hv' heq
  · rw [hclosed, hsub]
    exact h.live v hv
  · rw [hclosed]
    exact h.somewhere v hv
  · obtain ⟨v, hv, hvi, hopening⟩ := h.opened i hi
    exact ⟨v, hv, (hid v).trans hvi, hopening⟩
  · rw [hid]
    exact h.entering v hv
  · rw [hid] at hvi
    rw [hclosed]
    exact h.closed i hi v hv hvi
  · rw [hclosed] at hc
    rw [hid]
    exact (h.why v hv hc).imp_right halive

theorem Inv.start : Inv (fun _ ↦ False) (fun _ ↦ False) Process.start := by
  have hnone : ∀ x, Process.start.slots x = none := by
    intro x
    cases x <;> rfl
  refine ⟨⟨by simp [Process.start], by simp [Process.start]⟩, by decide, by simp [Process.start],
    by simp [Process.start], fun x y w hx ↦ ?_, fun w ⟨x, hx⟩ ↦ ?_, by simp [Process.start],
    by simp [Process.start], fun _ h ↦ h.elim, by simp [Process.start], fun _ h ↦ h.elim,
    fun _ h ↦ h.elim, ?_⟩
  · cases (hnone x).symm.trans hx
  · cases (hnone x).symm.trans hx
  · simp [Process.start]

/-- A step of which no wait or close takes the lock on an id while a wait holds its handle, before
the counter has gone round. -/
def Exclusive (p : Process) : Act → Prop
  | .openHandle _ => p.nextId ≠ 0
  | .wait _ id => ¬ p.Held (key id)
  | .close _ id => ¬ p.Held (key id)
  | _ => True

/-- The ids that are open or closed after a step. -/
def opensAfter (opens : ℕ → Prop) (r : Option Return) (id : ℕ) : Prop :=
  opens id ∨ r = some (.opened id)

def closesAfter (opens closes : ℕ → Prop) (r : Option Return) (id : ℕ) : Prop :=
  closes id ∨ opens id ∧ r = some (.closed id)

theorem Inv.congr (h : Inv opens closes p) {opens' closes' : ℕ → Prop} (ho : ∀ i, opens' i ↔ opens i)
    (hc : ∀ i, closes' i ↔ closes i) : Inv opens' closes' p := by
  obtain rfl : opens' = opens := funext fun i ↦ propext (ho i)
  obtain rfl : closes' = closes := funext fun i ↦ propext (hc i)
  exact h

theorem Inv.addClose (h : Inv opens closes p)
    (hw : opens id → ∀ w < p.made, (p.watchers w).id = id → (p.watchers w).closed = true) :
    Inv (opensAfter opens (some (.closed id))) (closesAfter opens closes (some (.closed id))) p := by
  have hopens : ∀ i, opensAfter opens (some (.closed id)) i ↔ opens i := by simp [opensAfter]
  suffices hcloses : Inv opens (closesAfter opens closes (some (.closed id))) p from
    hcloses.congr hopens fun _ ↦ Iff.rfl
  refine { h with after := fun i hi ↦ ?_, closed := fun i hi ↦ ?_, why := fun w hlt hc ↦ ?_ }
  · obtain hi | ⟨hi, -⟩ := hi
    · exact h.after i hi
    · exact hi
  · obtain hi | ⟨hopen, hi⟩ := hi
    · exact h.closed i hi
    · cases hi
      exact hw hopen
  · exact (h.why w hlt hc).imp_left Or.inl

/-- Steps that no other call on the same id gets in the way of keep every handle in its place. -/
theorem Effect.inv {a : Act} {r : Option Return} {p' : Process} (heff : Effect p a r p')
    (hex : Exclusive p a) (h : Inv opens closes p) :
    Inv (opensAfter opens r) (closesAfter opens closes r) p' := by
  have hquiet {p' : Process} {r : Option Return} (ho : ∀ i, r ≠ some (.opened i))
      (hc : ∀ i, r ≠ some (.closed i)) (h : Inv opens closes p') :
      Inv (opensAfter opens r) (closesAfter opens closes r) p' :=
    h.congr (fun i ↦ by simp [opensAfter, ho]) fun i ↦ by simp [closesAfter, hc]
  cases heff with
  | nothing => exact hquiet (by simp) (by simp) h
  | opening t idle => exact hquiet (by simp) (by simp) (h.opening hex idle)
  | inserted t id w call =>
    refine (h.putBack (opensAfter opens (some (.opened id))) call (fun _ hi ↦ Or.inl hi)
      (fun i hi ↦ hi.imp_right fun hi ↦ ?_) fun i v hc ↦ ?_).congr (fun _ ↦ Iff.rfl)
      fun i ↦ by simp [closesAfter]
    · cases hi
      rfl
    · cases hc
      exact Or.inr rfl
  | missing => exact hquiet (by simp) (by simp) h
  | taken t id w idle entry => exact hquiet (by simp) (by simp) (h.taken idle entry)
  | received t id w r code call gone =>
    exact hquiet (by simp) (by simp) (h.received call gone)
  | returned t id w code call ok =>
    exact hquiet (by simp) (by simp) (h.putBack opens call (fun _ hi ↦ hi) (fun _ hi ↦ Or.inl hi) (by simp))
  | gaveUp t id w call =>
    refine hquiet (by simp) (by simp) (h.dropped closes (slots_call call) ?_ ?_ (fun u c hc ↦ ?_)
      (fun u i v hc ↦ setCall_opening (p := p) (by simp [call]) hc) (fun _ hi ↦ hi) h.after (fun _ hi ↦ Or.inl hi) (Or.inr (h.dead t id w call)))
    · exact (h.toOwned.watchers (shut_id p w)).setCall (o := none) (by simp)
    · exact slots_setCall p t none
    · obtain ⟨-, hnone⟩ | ⟨-, hold⟩ := Custody.update_some.mp hc
      · cases hnone
      · exact hold
  | absent t id entry => exact h.addClose fun hopen ↦ h.closed_of_absent hopen entry hex
  | closed t id w entry =>
    have hslot : p.slots (.entry (key id)) = some w := entry
    have hid := (h.entry _ w entry).2
    refine Inv.congr (h.dropped (closesAfter opens closes (some (.closed (key id)))) hslot ?_
      (slots_setEntry p (key id) none) (fun _ _ hc ↦ hc) (fun _ _ _ hc ↦ hc) (fun _ hi ↦ Or.inl hi)
      (fun i hi ↦ ?_)
      (fun i hi ↦ ?_) ?_) (fun i ↦ by simp [opensAfter]) fun _ ↦ Iff.rfl
    · exact (h.toOwned.setEntry (e := none) (by simp)).watchers (shut_id (p.setEntry _ none) w)
    · obtain hi | ⟨hi, -⟩ := hi
      · exact h.after i hi
      · exact hi
    · obtain hi | ⟨-, hi⟩ := hi
      · exact Or.inl hi
      · cases hi
        exact Or.inr hid.symm
    · rw [hid]
      obtain hopen | ⟨u, hc⟩ := h.entering w (h.entry _ w entry).1
      · exact Or.inl (Or.inr ⟨hid ▸ hopen, rfl⟩)
      · cases h.unique _ _ w hslot (slots_call hc)
  | died w => exact hquiet (by simp) (by simp) (h.died w)

end Life

section Runs

abbrev Event := Transition.Event Process Act (Option Return)

/-- An open has returned the id. -/
def Opened (h : List Event) (id : ℕ) : Prop := ∃ e ∈ h, e.output = some (.opened id)

/-- A close of the id has returned after an open of it. -/
def Closed (h : List Event) (id : ℕ) : Prop :=
  ∃ h₁ e h₂, h = h₁ ++ e :: h₂ ∧ Opened h₁ id ∧ e.output = some (.closed id)

/-- What callers of the SQL functions count on: after a close nothing is left of an id once its waits
have returned, and a wait reports `-1` only for an id that was closed or whose watcher died. -/
structure Honours (h : List Event) (p : Process) : Prop where
  closed : ∀ id, Closed h id → ¬ p.Held id → p.registry id = none ∧
    (∃ w < p.made, (p.watchers w).id = id) ∧
    ∀ w < p.made, (p.watchers w).id = id → (p.watchers w).closed = true
  minusOne : ∀ h₁ e h₂, h = h₁ ++ e :: h₂ → ∀ id, e.output = some (.waited id (-1)) →
    Opened h₁ id → Closed h₁ id ∨
      ∃ w < e.pre.made, (e.pre.watchers w).id = id ∧ (e.pre.watchers w).alive = false

/-- The id that a step works on. -/
def target (p : Process) : Act → Option ℕ
  | .openHandle _ => some p.nextId
  | .openInsert t => (p.calls t).map Progress.id
  | .wait _ id => some (key id)
  | .recv t _ => (p.calls t).map Progress.id
  | .waitEnd t => (p.calls t).map Progress.id
  | .close _ id => some (key id)
  | .die w => some (p.watchers w).id

/-- Nothing that belongs to the id differs. -/
structure Unaffected (id : ℕ) (p p' : Process) : Prop where
  entry : p'.registry id = p.registry id
  watcher : ∀ w < p.made, (p.watchers w).id = id → p'.watchers w = p.watchers w
  call : ∀ t c, c.id = id → (p'.calls t = some c ↔ p.calls t = some c)

variable {h : List Event} {e : Event} {id : ℕ}

theorem opened_snoc : Opened (h ++ [e]) id ↔ Opened h id ∨ e.output = some (.opened id) := by
  simp [Opened, or_and_right, exists_or]

theorem closed_snoc :
    Closed (h ++ [e]) id ↔ Closed h id ∨ (Opened h id ∧ e.output = some (.closed id)) := by
  rw [Closed, exists_split_snoc (Q := fun h₁ e _ ↦ Opened h₁ id ∧ e.output = some (.closed id)),
    or_comm]
  rfl

theorem inv_run (acts : List Act) (hrun : Along step Exclusive Process.start acts) :
    Inv (Opened (trace step Process.start acts)) (Closed (trace step Process.start acts))
      (final step Process.start acts) := by
  refine along_induction step (P := fun h p ↦ Inv (Opened h) (Closed h) p) Process.start ?_
    (fun h p a hex hinv ↦ ?_) acts hrun
  · refine Inv.start.congr (fun i ↦ by simp [Opened]) fun i ↦ ?_
    simp [Closed]
  · refine ((step_effect p a).inv hex hinv).congr (fun i ↦ opened_snoc) fun i ↦ ?_
    rw [closed_snoc]
    rfl

theorem owned_run (acts : List Act) : Owned (final step Process.start acts) := by
  refine final_invariant step Process.start ⟨?_, ?_⟩ (fun p a h ↦ (step_effect p a).owned h) acts
  · simp [Process.start]
  · simp [Process.start]

theorem Inv.minusOne {opens closes : ℕ → Prop} {p p' : Process} {a : Act} (h : Inv opens closes p)
    (hex : Exclusive p a) (heff : Effect p a (some (.waited id (-1))) p') (hopen : opens id) :
    closes id ∨ ∃ w < p.made, (p.watchers w).id = id ∧ (p.watchers w).alive = false := by
  cases heff with
  | missing t id entry =>
    obtain ⟨w, hlt, hid, -⟩ := h.opened _ hopen
    have hclosed := h.closed_of_absent hopen entry hex w hlt hid
    obtain hwhy | hdead := h.why w hlt hclosed
    · exact Or.inl (hid ▸ hwhy)
    · exact Or.inr ⟨w, hlt, hid, hdead⟩
  | returned t id w code call ok => exact absurd rfl ok
  | gaveUp t id w call =>
    obtain ⟨hlt, hid⟩ := h.call t _ call
    exact Or.inr ⟨w, hlt, hid, h.dead t id w call⟩

theorem honours_run (acts : List Act) (hrun : Along step Exclusive Process.start acts) :
    Honours (trace step Process.start acts) (final step Process.start acts) := by
  refine ⟨fun id hclosed _ ↦ ?_, ?_⟩
  · have hinv := inv_run acts hrun
    have hshut := hinv.closed id hclosed
    obtain ⟨w, hlt, hid, -⟩ := hinv.opened id (hinv.after id hclosed)
    refine ⟨?_, ⟨w, hlt, hid⟩, hshut⟩
    cases hentry : (final step Process.start acts).registry id with
    | none => rfl
    | some v =>
      obtain ⟨hv, hvid⟩ := hinv.entry id v hentry
      have hopen := (hinv.live v ⟨.entry id, hentry⟩).1
      cases (hshut v hv hvid).symm.trans hopen
  · intro h₁ e h₂ heq id hout hopen
    obtain ⟨bs, a, cs, hacts, htrace, rfl⟩ := trace_split step heq
    rw [hacts] at hrun
    obtain ⟨hbefore, hex⟩ := along_split hrun
    subst htrace
    have heff := step_effect (final step Process.start bs) a
    rw [show (step (final step Process.start bs) a).1 = some (.waited id (-1)) from hout] at heff
    exact (inv_run bs hbefore).minusOne hex heff hopen

section Frame

variable {p p' p'' : Process} {i t w : ℕ}

theorem Unaffected.refl (id : ℕ) (p : Process) : Unaffected id p p :=
  ⟨rfl, fun _ _ _ ↦ rfl, fun _ _ _ ↦ Iff.rfl⟩

theorem Unaffected.trans (h : Unaffected id p p') (h' : Unaffected id p' p'') (hle : p.made ≤ p'.made) :
    Unaffected id p p'' := by
  refine ⟨h'.entry.trans h.entry, fun w hw hid ↦ ?_, fun t c hc ↦ (h'.call t c hc).trans (h.call t c hc)⟩
  have hsame := h.watcher w hw hid
  rw [h'.watcher w (Nat.lt_of_lt_of_le hw hle) (hsame ▸ hid), hsame]

theorem unaffected_setEntry (hi : i ≠ id) (e : Option ℕ) : Unaffected id p (p.setEntry i e) :=
  ⟨Function.update_of_ne (Ne.symm hi) _ _, fun _ _ _ ↦ rfl, fun _ _ _ ↦ Iff.rfl⟩

theorem unaffected_setCall {o : Option Progress} (ho : ∀ c, o = some c → c.id ≠ id)
    (hp : ∀ c, p.calls t = some c → c.id ≠ id) : Unaffected id p (p.setCall t o) := by
  refine ⟨rfl, fun _ _ _ ↦ rfl, fun u c hc ↦ ?_⟩
  change Function.update p.calls t o u = some c ↔ _
  by_cases hu : u = t
  · rw [hu, Function.update_self]
    exact iff_of_false (fun hnew ↦ ho c hnew hc) fun hold ↦ hp c hold hc
  · rw [Function.update_of_ne hu]

theorem unaffected_watcher (hw : (p.watchers w).id ≠ id) (x : Watcher) :
    Unaffected id p { p with watchers := Function.update p.watchers w x } := by
  refine ⟨rfl, fun v _ hv ↦ Function.update_of_ne ?_ _ _, fun _ _ _ ↦ Iff.rfl⟩
  rintro rfl
  exact hw hv

theorem unaffected_shut (hw : (p.watchers w).id ≠ id) : Unaffected id p (p.shut w) :=
  unaffected_watcher hw _

theorem unaffected_openHandle (hi : p.nextId ≠ id) (hidle : p.calls t = none) :
    Unaffected id p (p.openHandle t) := by
  refine ⟨rfl, fun w hw _ ↦ openHandle_watcher p t hw, fun u c hc ↦ ?_⟩
  change Function.update p.calls t (some (.opening p.nextId p.made)) u = some c ↔ _
  by_cases hu : u = t
  · rw [hu, hidle, Function.update_self]
    refine iff_of_false (fun hnew ↦ ?_) (by simp)
    cases hnew
    exact hi hc
  · rw [Function.update_of_ne hu]

theorem Effect.unaffected {a : Act} {r : Option Return} (heff : Effect p a r p') (h : Owned p)
    (hid : target p a ≠ some id) : Unaffected id p p' := by
  have hcall {t : ℕ} (hid : (p.calls t).map Progress.id ≠ some id) (c : Progress)
      (hc : p.calls t = some c) : c.id ≠ id := by
    intro heq
    exact hid (by rw [hc, Option.map_some, heq])
  cases heff with
  | nothing => exact .refl id p
  | missing => exact .refl id p
  | absent => exact .refl id p
  | opening t idle => exact unaffected_openHandle (fun heq ↦ hid (congrArg some heq)) idle
  | inserted t i w call =>
    have hne := hcall hid
    exact (unaffected_setEntry (hne _ call) _).trans (unaffected_setCall (by simp) hne) (Nat.le_refl _)
  | taken t i w idle entry =>
    have hne : key i ≠ id := fun heq ↦ hid (congrArg some heq)
    refine (unaffected_setEntry hne _).trans (unaffected_setCall (fun c hc ↦ ?_) ?_) (Nat.le_refl _)
    · cases hc
      exact hne
    · intro c hc
      cases idle.symm.trans hc
  | received t i w r code call =>
    have hne := hcall hid
    have hi := hne _ call
    refine unaffected_setCall (fun c hc ↦ ?_) hne
    cases hc
    exact hi
  | returned t i w code call =>
    have hne := hcall hid
    exact (unaffected_setEntry (hne _ call) _).trans (unaffected_setCall (by simp) hne) (Nat.le_refl _)
  | gaveUp t i w call =>
    have hne := hcall hid
    have hown : (p.watchers w).id ≠ id := fun heq ↦ hne _ call ((h.call t _ call).2.symm.trans heq)
    exact (unaffected_shut hown).trans (unaffected_setCall (by simp) hne) (Nat.le_refl _)
  | closed t i w entry =>
    have hne : key i ≠ id := fun heq ↦ hid (congrArg some heq)
    have hown : (p.watchers w).id ≠ id := fun heq ↦ hne ((h.entry _ w entry).2.symm.trans heq)
    exact (unaffected_setEntry hne none).trans (unaffected_shut hown) (Nat.le_refl _)
  | died w => exact unaffected_watcher (fun heq ↦ hid (congrArg some heq)) _

end Frame

/-- In every run in which no wait or close of an id overlaps a wait of the same id, the registry
honours closes; and in every run an operation leaves other ids alone. -/
theorem registry_honours_close (acts : List Act) (hrun : Along step Exclusive Process.start acts) :
    Honours (trace step Process.start acts) (final step Process.start acts) ∧
      ∀ (before : List Act) (a : Act) (id : ℕ),
        target (final step Process.start before) a ≠ some id →
        Unaffected id (final step Process.start before)
          (step (final step Process.start before) a).2 := by
  refine ⟨honours_run acts hrun, fun before a id hid ↦ ?_⟩
  exact (step_effect _ a).unaffected (owned_run before) hid

/-- One connection waits on an id and returns, then another closes it. -/
def waitThenClose : List Act :=
  [.openHandle 1, .openInsert 1, .wait 2 1, .recv 2 .message, .waitEnd 2, .close 1 1, .wait 2 1]

theorem not_held_of_idle {p : Process} (hp : ∀ t, p.calls t = none) (id : ℕ) : ¬ p.Held id := by
  rintro ⟨t, w, hc | ⟨code, hc⟩⟩
  · cases (hp t).symm.trans hc
  · cases (hp t).symm.trans hc

theorem registry_honours_close_inTurn :
    (trace step Process.start waitThenClose).map Event.output =
      [none, some (.opened 1), none, none, some (.waited 1 1), some (.closed 1),
        some (.waited 1 (-1))] ∧
      Honours (trace step Process.start waitThenClose) (final step Process.start waitThenClose) := by
  refine ⟨by decide, (registry_honours_close waitThenClose fun e he ↦ ?_).1⟩
  simp only [waitThenClose, trace, List.mem_cons, List.not_mem_nil, or_false] at he
  rcases he with rfl | rfl | rfl | rfl | rfl | rfl | rfl
  · exact (by decide : (1 : ℕ) ≠ 0)
  · trivial
  · apply not_held_of_idle
    simp [event, step, Process.openHandle, Process.setEntry, Process.setCall, Process.start]
  · trivial
  · trivial
  · apply not_held_of_idle
    simp [event, step, Process.openHandle, Process.setEntry, Process.setCall, Process.start, waitStep,
      recvStep, waitEndStep, key]
  · apply not_held_of_idle
    simp [event, step, Process.openHandle, Process.setEntry, Process.setCall, Process.start, waitStep,
      recvStep, waitEndStep, closeStep, Process.shut, key]

/-- A close during a wait finds no entry, and the wait puts the entry back. -/
def closeDuringWait : List Act :=
  [.openHandle 1, .openInsert 1, .wait 2 1, .close 1 1, .recv 2 .timeout, .waitEnd 2]

/-- A second wait finds no entry while the first one holds the handle. -/
def twoWaits : List Act := [.openHandle 1, .openInsert 1, .wait 2 1, .wait 3 1]

theorem close_during_wait_leaks :
    ¬ Honours (trace step Process.start closeDuringWait) (final step Process.start closeDuringWait) ∧
      ¬ Honours (trace step Process.start twoWaits) (final step Process.start twoWaits) := by
  constructor
  · intro h
    have hclosed := (h.closed 1 ⟨(trace step Process.start closeDuringWait).take 3, _, _,
      (List.take_append_drop 3 _).symm, ⟨_, List.mem_cons_of_mem _ List.mem_cons_self, rfl⟩, rfl⟩ ?_).1
    · exact absurd hclosed (by decide)
    · apply not_held_of_idle
      simp [closeDuringWait, final, step, Process.openHandle, Process.setEntry, Process.setCall,
        Process.start, waitStep, recvStep, waitEndStep, closeStep, key]
  · intro h
    have hminus := h.minusOne ((trace step Process.start twoWaits).take 3) _ _
      (List.take_append_drop 3 _).symm 1 rfl ⟨_, List.mem_cons_of_mem _ List.mem_cons_self, rfl⟩
    obtain ⟨h₁, e, h₂, heq, -, hout⟩ | ⟨w, hw, -, halive⟩ := hminus
    · have hmem : e ∈ (trace step Process.start twoWaits).take 3 := by
        rw [heq]
        exact List.mem_append_right _ List.mem_cons_self
      have hnone : ∀ e ∈ (trace step Process.start twoWaits).take 3, e.output ≠ some (.closed 1) := by
        simp [twoWaits, trace, event, step, Process.openHandle, waitStep, Process.setEntry,
          Process.setCall, Process.start, key]
      exact hnone e hmem hout
    · have hzero : w = 0 := Nat.lt_one_iff.mp hw
      subst hzero
      exact absurd halive (by decide)

end Runs

end Honker.SqlWatchers
