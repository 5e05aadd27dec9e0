import Honker.Watcher

namespace Honker

open Interleaving

namespace UpdateEvents

/-- What the bridge thread puts into the asyncio queue: `None`, or the exception for a watcher that has
died. -/
inductive Item
  | tick
  | died
deriving DecidableEq

/-- The next statement of the bridge thread. In `calling` it has the GIL. -/
inductive BridgePc
  | unborn
  | receiving
  | checking
  | attaching (x : Item)
  | calling (x : Item)
  | failing
  | exited
deriving DecidableEq

/-- Where an `UpdateEvents` stands: in `update_events`, in use, or in one of the statements of `Drop`. -/
inductive Phase
  | absent
  | registering (id : ℕ)
  | live
  | storing
  | unsubscribing
  | detaching
  | joining
  | dropped
deriving DecidableEq

/-- An `UpdateEvents` with its bridge thread. `scheduled` are the callbacks of the event loop that will
put an item into `queue`, and `taken` the items that `__anext__` has given out. -/
structure Iter where
  phase : Phase
  subId : ℕ
  chan : ℕ
  shutdown : Bool
  bridge : BridgePc
  scheduled : List Item
  queue : List Item
  taken : List Item

def Iter.absent : Iter := ⟨.absent, 0, 0, false, .unborn, [], [], []⟩

/-- All items that the bridge has handed to the event loop, in order. -/
def Iter.items (it : Iter) : List Item := it.taken ++ it.queue ++ it.scheduled

/-- The threads that can have the GIL: one in a `Drop`, a bridge, or any other. -/
inductive Holder (ι : Type)
  | drop (i : ι)
  | bridge (i : ι)
  | other
deriving DecidableEq

structure Sys (ι : Type) where
  hub : Hub
  gil : Option (Holder ι)
  iters : ι → Iter

def Sys.new (ι : Type) : Sys ι := ⟨.new, none, fun _ ↦ .absent⟩

/-- A call of the watcher's `on_change`, its end, another Python thread that takes or gives back the
GIL, or a step of an `UpdateEvents`: of the thread that uses it, of its bridge, of its event loop or of
its `Drop`. -/
inductive Act (ι : Type)
  | onChange
  | clear
  | takeGil
  | giveGil
  | updateEvents (i : ι)
  | insert (i : ι)
  | ensureStarted (i : ι)
  | bridge (i : ι)
  | runCallback (i : ι)
  | get (i : ι)
  | drop (i : ι)
deriving DecidableEq

section System

variable {ι : Type} [DecidableEq ι]

def Sys.set (s : Sys ι) (i : ι) (it : Iter) : Sys ι := { s with iters := Function.update s.iters i it }

/-- The end of the bridge thread, which drops its receiver. -/
def Sys.exit (s : Sys ι) (i : ι) (it : Iter) : Sys ι :=
  { s with hub := s.hub.dropReceiver it.chan }.set i { it with bridge := .exited }

/-- One statement of the bridge thread. -/
def bridgeStep (s : Sys ι) (i : ι) : Sys ι :=
  let it := s.iters i
  match it.bridge with
  | .receiving =>
    if (s.hub.chan it.chan).tick then
      { s with hub := s.hub.takeTick it.chan }.set i { it with bridge := .checking }
    else if s.hub.Connected it.chan then s
    else s.set i { it with bridge := .failing }
  | .checking => if it.shutdown then s.exit i it else s.set i { it with bridge := .attaching .tick }
  | .attaching x =>
    if s.gil = none then { s with gil := some (.bridge i) }.set i { it with bridge := .calling x } else s
  | .calling .tick =>
    { s with gil := none }.set i
      { it with bridge := .receiving, scheduled := it.scheduled ++ [Item.tick] }
  | .calling .died =>
    { s with gil := none }.exit i { it with scheduled := it.scheduled ++ [Item.died] }
  | .failing => if it.shutdown then s.exit i it else s.set i { it with bridge := .attaching .died }
  | .unborn | .exited => s

/-- One statement of `Drop`, which has the GIL until it joins the bridge. -/
def dropStep (s : Sys ι) (i : ι) : Sys ι :=
  let it := s.iters i
  match it.phase with
  | .live => if s.gil = none then { s with gil := some (.drop i) }.set i { it with phase := .storing } else s
  | .storing => s.set i { it with shutdown := true, phase := .unsubscribing }
  | .unsubscribing =>
    { s with hub := s.hub.unsubscribe it.subId }.set i { it with phase := .detaching }
  | .detaching =>
    -- without a bridge there is nothing to join, and the receiver goes with the object
    if it.bridge = .unborn then
      { s with gil := none, hub := s.hub.dropReceiver it.chan }.set i { it with phase := .dropped }
    else { s with gil := none }.set i { it with phase := .joining }
  | .joining => if it.bridge = .exited ∧ s.gil = none then s.set i { it with phase := .dropped } else s
  | .absent | .registering _ | .dropped => s

/-- A step of a thread that runs Python code, which can be taken when the GIL is free. -/
def Sys.python (s s' : Sys ι) : Sys ι := if s.gil = none then s' else s

/-- `update_events` as far as `next_id.fetch_add`. -/
def updateEvents (s : Sys ι) (i : ι) : Sys ι :=
  match (s.iters i).phase with
  | .absent =>
    { s with hub := s.hub.fetchAdd.2 }.set i { Iter.absent with phase := .registering s.hub.fetchAdd.1 }
  | _ => s

/-- The rest of `update_events`. -/
def insert (s : Sys ι) (i : ι) : Sys ι :=
  match (s.iters i).phase with
  | .registering id =>
    { s with hub := s.hub.insert id }.set i
      { s.iters i with phase := .live, subId := id, chan := s.hub.made }
  | _ => s

def ensureStarted (s : Sys ι) (i : ι) : Sys ι :=
  if (s.iters i).phase = .live ∧ (s.iters i).bridge = .unborn then
    s.set i { s.iters i with bridge := .receiving }
  else s

/-- The event loop runs the next callback that the bridge has scheduled. -/
def runCallback (s : Sys ι) (i : ι) : Sys ι :=
  match (s.iters i).scheduled with
  | x :: xs => s.set i { s.iters i with scheduled := xs, queue := (s.iters i).queue ++ [x] }
  | [] => s

/-- `queue.get()` returns, in an `__anext__`. -/
def get (s : Sys ι) (i : ι) : Sys ι :=
  match (s.iters i).queue with
  | x :: xs => s.set i { s.iters i with queue := xs, taken := (s.iters i).taken ++ [x] }
  | [] => s

def step (s : Sys ι) : Act ι → Sys ι
  | .onChange => { s with hub := s.hub.onChange }
  | .clear => { s with hub := s.hub.clear }
  | .takeGil => if s.gil = none then { s with gil := some .other } else s
  | .giveGil => if s.gil = some .other then { s with gil := none } else s
  | .updateEvents i => s.python (updateEvents s i)
  | .insert i => s.python (insert s i)
  | .ensureStarted i => s.python (ensureStarted s i)
  | .runCallback i => s.python (runCallback s i)
  | .get i => s.python (get s i)
  | .bridge i => bridgeStep s i
  | .drop i => dropStep s i

end System

section Bridge

variable {ι : Type} [DecidableEq ι]

/-- The bridge has nothing to do, or waits for a tick or for the GIL. -/
def Rests (s : Sys ι) (i : ι) : BridgePc → Prop
  | .unborn | .exited => True
  | .receiving => (s.hub.chan (s.iters i).chan).tick = false ∧ s.hub.Connected (s.iters i).chan
  | .attaching _ => s.gil ≠ none
  | _ => False

/-- What a statement of the bridge does. -/
inductive Bridged (s : Sys ι) (i : ι) : Sys ι → Prop
  | rest (rests : Rests s i (s.iters i).bridge) : Bridged s i s
  | receive (pc : (s.iters i).bridge = .receiving) (tick : (s.hub.chan (s.iters i).chan).tick = true) :
      Bridged s i ({ s with hub := s.hub.takeTick (s.iters i).chan }.set i
        { s.iters i with bridge := .checking })
  | disconnect (pc : (s.iters i).bridge = .receiving) (cut : ¬ s.hub.Connected (s.iters i).chan) :
      Bridged s i (s.set i { s.iters i with bridge := .failing })
  | proceed (x : Item) (pc : (s.iters i).bridge = .checking ∧ x = .tick ∨
      (s.iters i).bridge = .failing ∧ x = .died) (unset : (s.iters i).shutdown = false) :
      Bridged s i (s.set i { s.iters i with bridge := .attaching x })
  | quit (pc : (s.iters i).bridge = .checking ∨ (s.iters i).bridge = .failing)
      (stored : (s.iters i).shutdown = true) : Bridged s i (s.exit i (s.iters i))
  | attach (x : Item) (pc : (s.iters i).bridge = .attaching x) (free : s.gil = none) :
      Bridged s i ({ s with gil := some (.bridge i) }.set i { s.iters i with bridge := .calling x })
  | call (pc : (s.iters i).bridge = .calling .tick) :
      Bridged s i ({ s with gil := none }.set i { s.iters i with
        bridge := .receiving, scheduled := (s.iters i).scheduled ++ [Item.tick] })
  | last (pc : (s.iters i).bridge = .calling .died) :
      Bridged s i ({ s with gil := none }.exit i { s.iters i with
        scheduled := (s.iters i).scheduled ++ [Item.died] })

theorem bridgeStep_bridged (s : Sys ι) (i : ι) : Bridged s i (bridgeStep s i) := by
  cases hb : (s.iters i).bridge with
  | unborn | exited =>
    simp only [bridgeStep, hb]
    exact .rest (by simp [hb, Rests])
  | receiving =>
    simp only [bridgeStep, hb]
    split_ifs with ht hc
    · exact .receive hb ht
    · exact .rest (by simpa [hb, Rests, hc] using ht)
    · exact .disconnect hb hc
  | checking =>
    simp only [bridgeStep, hb]
    split_ifs with hs
    · exact .quit (Or.inl hb) hs
    · exact .proceed .tick (Or.inl ⟨hb, rfl⟩) (by simpa using hs)
  | failing =>
    simp only [bridgeStep, hb]
    split_ifs with hs
    · exact .quit (Or.inr hb) hs
    · exact .proceed .died (Or.inr ⟨hb, rfl⟩) (by simpa using hs)
  | attaching x =>
    simp only [bridgeStep, hb]
    split_ifs with hg
    · exact .attach x hb hg
    · exact .rest (by simpa [hb, Rests] using hg)
  | calling x =>
    cases x <;> simp only [bridgeStep, hb]
    · exact .call hb
    · exact .last hb

end Bridge

section Frame

/-- A change of the hub as the channel `c` sees it: it stays, and is not connected anew. -/
structure Spares (c : ℕ) (hub hub' : Hub) : Prop where
  made : hub.made ≤ hub'.made
  id : (hub'.chan c).id = (hub.chan c).id
  alive : (hub'.chan c).alive = (hub.chan c).alive
  connected : hub'.Connected c → hub.Connected c

variable {hub : Hub} {c : ℕ}

theorem Spares.refl : Spares c hub hub := ⟨le_rfl, rfl, rfl, fun h ↦ h⟩

theorem Spares.onChange : Spares c hub hub.onChange :=
  ⟨le_rfl, by simp, by simp, fun h ↦ ((hub.connected_onChange c).mp h).1⟩

theorem Spares.clear : Spares c hub hub.clear :=
  ⟨le_rfl, rfl, rfl, fun h ↦ absurd h (hub.connected_clear c)⟩

theorem Spares.insert (hc : c < hub.made) (id : ℕ) : Spares c hub (hub.insert id) := by
  have hchan := hub.chan_insert hc.ne id
  exact ⟨Nat.le_succ _, by rw [hchan], by rw [hchan], fun h ↦ ((hub.connected_insert hc.ne id).mp h).1⟩

theorem Spares.unsubscribe (id : ℕ) : Spares c hub (hub.unsubscribe id) :=
  ⟨le_rfl, rfl, rfl, fun h ↦ ((hub.connected_unsubscribe c id).mp h).1⟩

theorem Spares.takeTick (d : ℕ) : Spares c hub (hub.takeTick d) :=
  ⟨le_rfl, by simp, by simp, (hub.connected_takeTick c d).mp⟩

theorem Spares.dropReceiver {d : ℕ} (hcd : c ≠ d) : Spares c hub (hub.dropReceiver d) :=
  ⟨le_rfl, by simp, by rw [hub.chan_dropReceiver_of_ne hcd], (hub.connected_dropReceiver c d).mp⟩

end Frame

section Invariant

/-- The phases with a channel. -/
def Phase.registered : Phase → Bool
  | .live | .storing | .unsubscribing | .detaching | .joining => true
  | _ => false

def Phase.hasGil : Phase → Bool
  | .storing | .unsubscribing | .detaching => true
  | _ => false

/-- The phases after `shutdown` has been stored. -/
def Phase.stored : Phase → Bool
  | .unsubscribing | .detaching | .joining | .dropped => true
  | _ => false

/-- The phases after `unsubscribe`. -/
def Phase.cut : Phase → Bool
  | .detaching | .joining | .dropped => true
  | _ => false

/-- The places of a bridge thread that is there. -/
def BridgePc.running : BridgePc → Bool
  | .unborn | .exited => false
  | _ => true

/-- The bridge states that the phase allows. -/
def Phase.Allows : Phase → BridgePc → Prop
  | .absent, b | .registering _, b => b = .unborn
  | .joining, b => b ≠ .unborn
  | .dropped, b => b = .unborn ∨ b = .exited
  | _, _ => True

theorem Phase.Allows.of_registered {p : Phase} {b : BridgePc} (hr : p.registered = true)
    (hborn : b ≠ .unborn) : p.Allows b := by
  cases p <;> first | exact trivial | exact hborn | cases hr

variable {ι : Type}

/-- What holds of an `UpdateEvents`. A bridge that has exited without a shutdown has told the event loop
that the watcher died. -/
structure IterInv (hub : Hub) (gil : Option (Holder ι)) (i : ι) (it : Iter) : Prop where
  channel : it.phase.registered = true → it.chan < hub.made ∧ (hub.chan it.chan).id = it.subId
  alive : it.phase.registered = true → it.bridge ≠ .exited → (hub.chan it.chan).alive = true
  allowed : it.phase.Allows it.bridge
  shutdown : it.shutdown = it.phase.stored
  cut : it.phase.registered = true → it.phase.cut = true → ¬ hub.Connected it.chan
  dropping : gil = some (.drop i) ↔ it.phase.hasGil = true
  calling : gil = some (.bridge i) ↔ ∃ x, it.bridge = .calling x
  sentinel : it.bridge = .exited → it.shutdown = false → .died ∈ it.items

variable {hub hub' : Hub} {gil gil' : Option (Holder ι)} {i : ι} {it it' : Iter}

theorem IterInv.absent (i : ι) (hub : Hub) : IterInv hub none i .absent := by
  constructor <;> simp [Iter.absent, Phase.registered, Phase.Allows, Phase.stored, Phase.hasGil]

/-- A step of others. -/
theorem IterInv.frame (h : IterInv hub gil i it) (hhub : it.phase.registered = true → Spares it.chan hub hub')
    (hdrop : gil' = some (.drop i) ↔ gil = some (.drop i))
    (hbridge : gil' = some (.bridge i) ↔ gil = some (.bridge i)) : IterInv hub' gil' i it where
  channel hr := by
    rw [(hhub hr).id]
    exact ⟨(h.channel hr).1.trans_le (hhub hr).made, (h.channel hr).2⟩
  alive hr hb := by
    rw [(hhub hr).alive]
    exact h.alive hr hb
  allowed := h.allowed
  shutdown := h.shutdown
  cut hr hc hcon := h.cut hr hc ((hhub hr).connected hcon)
  dropping := hdrop.trans h.dropping
  calling := hbridge.trans h.calling
  sentinel := h.sentinel

theorem IterInv.registered (h : IterInv hub gil i it) (hrun : it.bridge.running = true) :
    it.phase.registered = true := by
  have hallowed := h.allowed
  cases hp : it.phase <;> simp only [hp, Phase.Allows] at hallowed <;> first | rfl | skip
  · simp [hallowed, BridgePc.running] at hrun
  · simp [hallowed, BridgePc.running] at hrun
  · rcases hallowed with hb | hb <;> simp [hb, BridgePc.running] at hrun

/-- A step of the bridge that does not end it. -/
theorem IterInv.to (h : IterInv hub gil i it) (hrun : it.bridge.running = true) (b : BridgePc)
    (hrun' : b.running = true) (scheduled : List Item)
    (hhub : Spares it.chan hub hub') (hdrop : gil' = some (.drop i) ↔ gil = some (.drop i))
    (hcall : gil' = some (.bridge i) ↔ ∃ x, b = .calling x) :
    IterInv hub' gil' i { it with bridge := b, scheduled := scheduled } where
  channel hr := by
    rw [hhub.id]
    exact ⟨(h.channel hr).1.trans_le hhub.made, (h.channel hr).2⟩
  alive hr _ := by
    rw [hhub.alive]
    exact h.alive hr (by rintro he; simp [he, BridgePc.running] at hrun)
  allowed := .of_registered (h.registered hrun) (by rintro rfl; cases hrun')
  shutdown := h.shutdown
  cut hr hc hcon := h.cut hr hc (hhub.connected hcon)
  dropping := hdrop.trans h.dropping
  calling := hcall
  sentinel he := by
    dsimp only at he
    rw [he] at hrun'
    cases hrun'

/-- The end of the bridge, on a shutdown or after its last call. -/
theorem IterInv.exit (h : IterInv hub gil i it) (hrun : it.bridge.running = true)
    {scheduled : List Item} (hend : it.shutdown = true ∨ .died ∈ scheduled)
    (hdrop : gil' = some (.drop i) ↔ gil = some (.drop i)) (hcall : gil' ≠ some (.bridge i)) :
    IterInv (hub.dropReceiver it.chan) gil' i { it with bridge := .exited, scheduled := scheduled } where
  channel hr := by
    rw [Hub.chan_dropReceiver_id]
    exact h.channel hr
  alive _ he := absurd rfl he
  allowed := .of_registered (h.registered hrun) nofun
  shutdown := h.shutdown
  cut hr hc hcon := h.cut hr hc ((hub.connected_dropReceiver _ _).mp hcon)
  dropping := hdrop.trans h.dropping
  calling := iff_of_false hcall nofun
  sentinel _ hs := by
    rcases hend with hend | hdied
    · cases hs.symm.trans hend
    · exact List.mem_append_right _ hdied

/-- A step of `Drop`. -/
theorem IterInv.toPhase (h : IterInv hub gil i it) (hr : it.phase.registered = true) (p : Phase) {b : Bool}
    (hb : b = p.stored) (hstored : it.shutdown = true → b = true) (hallowed : p.Allows it.bridge)
    (hhub : Spares it.chan hub hub') (hcut : p.registered = true → p.cut = true → ¬ hub'.Connected it.chan)
    (hdrop : gil' = some (.drop i) ↔ p.hasGil = true)
    (hcall : gil' = some (.bridge i) ↔ gil = some (.bridge i)) :
    IterInv hub' gil' i { it with phase := p, shutdown := b } where
  channel _ := by
    rw [hhub.id]
    exact ⟨(h.channel hr).1.trans_le hhub.made, (h.channel hr).2⟩
  alive _ hrun := by
    rw [hhub.alive]
    exact h.alive hr hrun
  allowed := hallowed
  shutdown := hb
  cut := hcut
  dropping := hdrop
  calling := hcall.trans h.calling
  sentinel he hs := h.sentinel he (by simpa using mt hstored (by simp only at hs; simp [hs]))

/-- The GIL is free, or in the hands of `i` or of a thread that has no `UpdateEvents`. -/
def Apart (i : ι) (gil : Option (Holder ι)) : Prop :=
  ∀ j ≠ i, gil ≠ some (.drop j) ∧ gil ≠ some (.bridge j)

theorem Apart.none (i : ι) : Apart i none := fun _ _ ↦ ⟨nofun, nofun⟩

theorem Apart.drop (i : ι) : Apart i (some (.drop i)) := by
  intro j hj
  simp [Ne.symm hj]

theorem Apart.bridge (i : ι) : Apart i (some (.bridge i)) := by
  intro j hj
  simp [Ne.symm hj]

structure Inv (s : Sys ι) : Prop where
  iter : ∀ i, IterInv s.hub s.gil i (s.iters i)
  distinct : ∀ i j, (s.iters i).phase.registered = true → (s.iters j).phase.registered = true →
    (s.iters i).chan = (s.iters j).chan → i = j

theorem Inv.new : Inv (Sys.new ι) :=
  ⟨fun i ↦ .absent i _, fun _ _ h ↦ by cases h⟩

variable {s s' : Sys ι}

/-- A step that leaves the iterators as they are. -/
theorem Inv.frame (h : Inv s) (hiters : s'.iters = s.iters) (hhub : ∀ c < s.hub.made, Spares c s.hub s'.hub)
    (hgil : ∀ i, (s'.gil = some (.drop i) ↔ s.gil = some (.drop i)) ∧
      (s'.gil = some (.bridge i) ↔ s.gil = some (.bridge i))) : Inv s' where
  iter i := by
    rw [hiters]
    exact (h.iter i).frame (fun hr ↦ hhub _ ((h.iter i).channel hr).1) (hgil i).1 (hgil i).2
  distinct := by
    rw [hiters]
    exact h.distinct

/-- The channel of another iterator. -/
theorem Inv.chan_ne (h : Inv s) {j : ι} (hj : j ≠ i) (hr : (s.iters i).phase.registered = true)
    (hr' : (s.iters j).phase.registered = true) : (s.iters j).chan ≠ (s.iters i).chan :=
  fun he ↦ hj (h.distinct j i hr' hr he)

theorem inv_python (h : Inv s) (h' : s.gil = none → Inv s') : Inv (s.python s') := by
  unfold Sys.python
  split_ifs with hg
  · exact h' hg
  · exact h

variable [DecidableEq ι]

/-- A step of the iterator `i`. -/
theorem Inv.set (h : Inv s) (hiters : s'.iters = s.iters)
    (hhub : ∀ j ≠ i, (s.iters j).phase.registered = true → Spares (s.iters j).chan s.hub s'.hub)
    (hgil : s'.gil = s.gil ∨ Apart i s.gil ∧ Apart i s'.gil) (hown : IterInv s'.hub s'.gil i it')
    (hchan : ∀ j ≠ i, it'.phase.registered = true → (s.iters j).phase.registered = true →
      it'.chan ≠ (s.iters j).chan) : Inv (s'.set i it') where
  iter j := by
    simp only [Sys.set, Function.update_apply, hiters]
    split_ifs with hj
    · rw [hj]
      exact hown
    · refine (h.iter j).frame (hhub j hj) ?_ ?_
      · rcases hgil with hgil | ⟨hs, hs'⟩
        · rw [hgil]
        · exact iff_of_false (hs' j hj).1 (hs j hj).1
      · rcases hgil with hgil | ⟨hs, hs'⟩
        · rw [hgil]
        · exact iff_of_false (hs' j hj).2 (hs j hj).2
  distinct j k := by
    simp only [Sys.set, Function.update_apply, hiters]
    split_ifs with hj hk hk
    · exact fun _ _ _ ↦ hj.trans hk.symm
    · exact fun hr hr' he ↦ absurd he (hchan k hk hr hr')
    · exact fun hr hr' he ↦ absurd he.symm (hchan j hj hr' hr)
    · exact h.distinct j k

/-- A step of the iterator `i` on its own channel. -/
theorem Inv.set_own (h : Inv s) (hiters : s'.iters = s.iters)
    (hhub : ∀ j ≠ i, (s.iters j).phase.registered = true → Spares (s.iters j).chan s.hub s'.hub)
    (hgil : s'.gil = s.gil ∨ Apart i s.gil ∧ Apart i s'.gil) (hown : IterInv s'.hub s'.gil i it')
    (hkeep : it'.phase.registered = true → (s.iters i).phase.registered = true)
    (hchan : it'.chan = (s.iters i).chan) : Inv (s'.set i it') := by
  refine h.set hiters hhub hgil hown fun j hj hr hr' he ↦ hj ?_
  exact (h.distinct i j (hkeep hr) hr' (hchan.symm.trans he)).symm

theorem Bridged.inv (hb : Bridged s i s') (h : Inv s) : Inv s' := by
  have hi := h.iter i
  have hcall {b : BridgePc} (hb : (s.iters i).bridge = b) (hnot : ∀ x, b ≠ .calling x) :
      s.gil ≠ some (.bridge i) := by
    rw [ne_eq, hi.calling, hb]
    exact fun hx ↦ hx.elim hnot
  have hspares (hrun : (s.iters i).bridge.running = true) (j : ι) (hj : j ≠ i)
      (hr : (s.iters j).phase.registered = true) :
      Spares (s.iters j).chan s.hub (s.hub.dropReceiver (s.iters i).chan) :=
    .dropReceiver (h.chan_ne hj (hi.registered hrun) hr)
  cases hb with
  | rest => exact h
  | receive pc =>
    refine h.set_own rfl (fun j _ _ ↦ .takeTick _) (Or.inl rfl) ?_ id rfl
    exact hi.to (by rw [pc]; rfl) .checking rfl _ (.takeTick _) Iff.rfl
      (iff_of_false (hcall pc nofun) nofun)
  | disconnect pc =>
    refine h.set_own rfl (fun j _ _ ↦ .refl) (Or.inl rfl) ?_ id rfl
    exact hi.to (by rw [pc]; rfl) .failing rfl _ .refl Iff.rfl (iff_of_false (hcall pc nofun) nofun)
  | proceed x pc =>
    refine h.set_own rfl (fun j _ _ ↦ .refl) (Or.inl rfl) ?_ id rfl
    rcases pc with ⟨pc, -⟩ | ⟨pc, -⟩ <;>
      exact hi.to (by rw [pc]; rfl) (.attaching x) rfl _ .refl Iff.rfl
        (iff_of_false (hcall pc nofun) nofun)
  | quit pc stored =>
    rcases pc with pc | pc
    all_goals
      have hrun : (s.iters i).bridge.running = true := by rw [pc]; rfl
      refine h.set_own rfl (hspares hrun) (Or.inl rfl) ?_ id rfl
      exact hi.exit hrun (Or.inl stored) Iff.rfl (hcall pc nofun)
  | attach x pc free =>
    refine h.set_own rfl (fun j _ _ ↦ .refl) (Or.inr ⟨free ▸ .none i, .bridge i⟩) ?_ id rfl
    exact hi.to (by rw [pc]; rfl) (.calling x) rfl _ .refl (by simp [free]) (by simp)
  | call pc =>
    have hg : s.gil = some (.bridge i) := hi.calling.mpr ⟨_, pc⟩
    refine h.set_own rfl (fun j _ _ ↦ .refl) (Or.inr ⟨hg ▸ .bridge i, .none i⟩) ?_ id rfl
    exact hi.to (by rw [pc]; rfl) .receiving rfl _ .refl (by simp [hg]) (by simp)
  | last pc =>
    have hg : s.gil = some (.bridge i) := hi.calling.mpr ⟨_, pc⟩
    have hrun : (s.iters i).bridge.running = true := by rw [pc]; rfl
    refine h.set_own rfl (hspares hrun) (Or.inr ⟨hg ▸ .bridge i, .none i⟩) ?_ id rfl
    exact hi.exit hrun (Or.inr (by simp)) (by simp [hg]) nofun

theorem inv_dropStep (h : Inv s) (i : ι) : Inv (dropStep s i) := by
  have hi := h.iter i
  have hshutdown := hi.shutdown
  cases hp : (s.iters i).phase with
  | absent | registering | dropped =>
    simp only [dropStep, hp]
    exact h
  | live =>
    have hr : (s.iters i).phase.registered = true := by rw [hp]; rfl
    rw [hp] at hshutdown
    simp only [dropStep, hp]
    split_ifs with hg
    · refine h.set_own rfl (fun _ _ _ ↦ .refl) (Or.inr ⟨hg ▸ .none i, .drop i⟩) ?_ (fun _ ↦ hr) rfl
      exact hi.toPhase hr .storing hshutdown id trivial .refl nofun (by simp [Phase.hasGil]) (by simp [hg])
    · exact h
  | storing =>
    have hr : (s.iters i).phase.registered = true := by rw [hp]; rfl
    have hg : s.gil = some (.drop i) := hi.dropping.mpr (by rw [hp]; rfl)
    simp only [dropStep, hp]
    refine h.set_own rfl (fun _ _ _ ↦ .refl) (Or.inl rfl) ?_ (fun _ ↦ hr) rfl
    exact hi.toPhase hr .unsubscribing rfl (fun _ ↦ rfl) trivial .refl nofun (by simp [hg, Phase.hasGil])
      Iff.rfl
  | unsubscribing =>
    have hr : (s.iters i).phase.registered = true := by rw [hp]; rfl
    have hg : s.gil = some (.drop i) := hi.dropping.mpr (by rw [hp]; rfl)
    have hid := (hi.channel hr).2
    rw [hp] at hshutdown
    simp only [dropStep, hp]
    refine h.set_own rfl (fun _ _ _ ↦ .unsubscribe _) (Or.inl rfl) ?_ (fun _ ↦ hr) rfl
    refine hi.toPhase hr .detaching hshutdown id trivial (.unsubscribe _) (fun _ _ hcon ↦ ?_)
      (by simp [hg, Phase.hasGil]) Iff.rfl
    exact ((s.hub.connected_unsubscribe _ _).mp hcon).2 hid
  | detaching =>
    have hr : (s.iters i).phase.registered = true := by rw [hp]; rfl
    have hg : s.gil = some (.drop i) := hi.dropping.mpr (by rw [hp]; rfl)
    have hcut := hi.cut hr (by rw [hp]; rfl)
    rw [hp] at hshutdown
    simp only [dropStep, hp]
    split_ifs with hb
    · refine h.set_own rfl (fun j hj hj' ↦ .dropReceiver (h.chan_ne hj hr hj'))
        (Or.inr ⟨hg ▸ .drop i, .none i⟩) ?_ nofun rfl
      constructor <;> simp [Phase.registered, Phase.Allows, Phase.hasGil, hb, hshutdown, Phase.stored]
    · refine h.set_own rfl (fun _ _ _ ↦ .refl) (Or.inr ⟨hg ▸ .drop i, .none i⟩) ?_ (fun _ ↦ hr) rfl
      exact hi.toPhase hr .joining hshutdown id hb .refl (fun _ _ ↦ hcut) (by simp [Phase.hasGil])
        (by simp [hg])
  | joining =>
    have hr : (s.iters i).phase.registered = true := by rw [hp]; rfl
    rw [hp] at hshutdown
    simp only [dropStep, hp]
    split_ifs with hb
    · refine h.set_own rfl (fun _ _ _ ↦ .refl) (Or.inl rfl) ?_ nofun rfl
      exact hi.toPhase hr .dropped hshutdown id (Or.inr hb.1) .refl nofun (by simp [hb.2, Phase.hasGil])
        Iff.rfl
    · exact h

theorem inv_step (s : Sys ι) (a : Act ι) (h : Inv s) : Inv (step s a) := by
  cases a with
  | onChange => exact h.frame rfl (fun _ _ ↦ .onChange) fun _ ↦ ⟨Iff.rfl, Iff.rfl⟩
  | clear => exact h.frame rfl (fun _ _ ↦ .clear) fun _ ↦ ⟨Iff.rfl, Iff.rfl⟩
  | takeGil =>
    simp only [step]
    split_ifs with hg
    · exact h.frame rfl (fun _ _ ↦ .refl) fun _ ↦ by simp [hg]
    · exact h
  | giveGil =>
    simp only [step]
    split_ifs with hg
    · exact h.frame rfl (fun _ _ ↦ .refl) fun _ ↦ by simp [hg]
    · exact h
  | bridge i => exact (bridgeStep_bridged s i).inv h
  | drop i => exact inv_dropStep h i
  | updateEvents i =>
    refine inv_python h fun hg ↦ ?_
    cases hp : (s.iters i).phase <;> simp only [updateEvents, hp] <;> first | exact h | skip
    refine h.set rfl (fun _ _ _ ↦ ⟨le_rfl, rfl, rfl, fun hc ↦ hc⟩) (Or.inl rfl) ?_ fun _ _ hr ↦ by cases hr
    constructor <;> simp [Iter.absent, Phase.registered, Phase.Allows, Phase.stored, Phase.hasGil, hg]
  | insert i =>
    refine inv_python h fun hg ↦ ?_
    have hi := h.iter i
    cases hp : (s.iters i).phase <;> simp only [insert, hp] <;> first | exact h | skip
    case registering id =>
      have hb : (s.iters i).bridge = .unborn := by simpa [hp, Phase.Allows] using hi.allowed
      have hs : (s.iters i).shutdown = false := by simpa [hp, Phase.stored] using hi.shutdown
      refine h.set rfl (fun j _ hr ↦ .insert ((h.iter j).channel hr).1 id) (Or.inl rfl) ?_ fun j _ _ hr he ↦ ?_
      · constructor <;> simp [hb, hs, hg, Hub.insert, Phase.registered, Phase.Allows, Phase.stored, Phase.cut,
          Phase.hasGil]
      · exact absurd ((h.iter j).channel hr).1 (by rw [← he]; exact lt_irrefl _)
  | ensureStarted i =>
    refine inv_python h fun hg ↦ ?_
    have hi := h.iter i
    unfold ensureStarted
    split_ifs with hp
    · have hr : (s.iters i).phase.registered = true := by rw [hp.1]; rfl
      refine h.set_own rfl (fun _ _ _ ↦ .refl) (Or.inl rfl) ?_ id rfl
      refine ⟨hi.channel, fun hr _ ↦ hi.alive hr (by simp [hp.2]), ?_, hi.shutdown, hi.cut, hi.dropping, ?_, (by simp)⟩
      · exact .of_registered hr (by simp)
      · simp [hg]
    · exact h
  | runCallback i =>
    refine inv_python h fun hg ↦ ?_
    have hi := h.iter i
    unfold runCallback
    split
    case h_1 x xs hq =>
      refine h.set_own rfl (fun _ _ _ ↦ .refl) (Or.inl rfl) ?_ id rfl
      refine ⟨hi.channel, hi.alive, hi.allowed, hi.shutdown, hi.cut, hi.dropping, hi.calling, fun he hs ↦ ?_⟩
      have hdied := hi.sentinel he hs
      simpa [Iter.items, hq, or_assoc] using hdied
    case h_2 => exact h
  | get i =>
    refine inv_python h fun hg ↦ ?_
    have hi := h.iter i
    unfold get
    split
    case h_1 x xs hq =>
      refine h.set_own rfl (fun _ _ _ ↦ .refl) (Or.inl rfl) ?_ id rfl
      refine ⟨hi.channel, hi.alive, hi.allowed, hi.shutdown, hi.cut, hi.dropping, hi.calling, fun he hs ↦ ?_⟩
      have hdied := hi.sentinel he hs
      simpa [Iter.items, hq, or_assoc] using hdied
    case h_2 => exact h

theorem inv_run (as : List (Act ι)) : Inv (run step (.new ι) as) :=
  run_invariant step inv_step .new as

end Invariant

section Drop

variable {ι : Type} {s s' : Sys ι} {i : ι}

theorem iters_python (hs : s'.iters i = s.iters i) : (s.python s').iters i = s.iters i := by
  unfold Sys.python
  split_ifs
  · exact hs
  · rfl

/-- What a step that is not of the bridge leaves of an iterator that is being dropped. -/
structure Drops (it it' : Iter) : Prop where
  stored : it'.phase.stored = true
  cut : it.phase.cut = true → it'.phase.cut = true
  dropped : it.phase = .dropped → it'.phase = .dropped
  bridge : it'.bridge = it.bridge
  items : it'.items = it.items

theorem Drops.refl {it : Iter} (hst : it.phase.stored = true) : Drops it it := ⟨hst, id, id, rfl, rfl⟩

theorem drops_python (hst : (s.iters i).phase.stored = true) (h : Drops (s.iters i) (s'.iters i)) :
    Drops (s.iters i) ((s.python s').iters i) := by
  unfold Sys.python
  split_ifs
  · exact h
  · exact .refl hst

variable [DecidableEq ι]

/-- The statements that a bridge has left once its channel is cut and the shutdown stored. -/
def BridgePc.left : BridgePc → ℕ
  | .unborn | .exited => 0
  | .checking | .failing | .calling .died => 1
  | .receiving | .attaching .died => 2
  | .calling .tick => 3
  | .attaching .tick => 4

/-- The items that a bridge can still hand over once the shutdown is stored. -/
def BridgePc.late : BridgePc → ℕ
  | .attaching _ | .calling _ => 1
  | _ => 0

/-- A step of the bridge of `i` that does not wait for the GIL. -/
def Turn (s : Sys ι) (i : ι) (a : Act ι) : Prop :=
  a = .bridge i ∧ ((s.iters i).bridge.late = 0 ∨ s.gil = none ∨ s.gil = some (.bridge i))

instance (s : Sys ι) (i : ι) (a : Act ι) : Decidable (Turn s i a) := inferInstanceAs (Decidable (_ ∧ _))

def turns (i : ι) : Sys ι → List (Act ι) → ℕ
  | _, [] => 0
  | s, a :: as => (if Turn s i a then 1 else 0) + turns i (step s a) as

/-- The iterator that a step is of. -/
def Act.of : Act ι → Option ι
  | .updateEvents i | .insert i | .ensureStarted i | .bridge i | .runCallback i | .get i | .drop i => some i
  | _ => none

theorem iters_step_of_ne {a : Act ι} (ha : a.of ≠ some i) : (step s a).iters i = s.iters i := by
  have hset {s' : Sys ι} {j : ι} {it : Iter} (hs : s'.iters = s.iters) (hj : j ≠ i) :
      (s'.set j it).iters i = s.iters i := by
    rw [Sys.set, hs]
    exact Function.update_of_ne (Ne.symm hj) _ _
  cases a with
  | onChange | clear => rfl
  | takeGil | giveGil =>
    simp only [step]
    split_ifs <;> rfl
  | updateEvents j =>
    refine iters_python ?_
    unfold updateEvents
    split
    · exact hset rfl (by simpa [Act.of] using ha)
    · rfl
  | insert j =>
    refine iters_python ?_
    unfold insert
    split
    · exact hset rfl (by simpa [Act.of] using ha)
    · rfl
  | ensureStarted j =>
    refine iters_python ?_
    unfold ensureStarted
    split_ifs
    · exact hset rfl (by simpa [Act.of] using ha)
    · rfl
  | runCallback j =>
    refine iters_python ?_
    unfold runCallback
    split
    · exact hset rfl (by simpa [Act.of] using ha)
    · rfl
  | get j =>
    refine iters_python ?_
    unfold get
    split
    · exact hset rfl (by simpa [Act.of] using ha)
    · rfl
  | bridge j =>
    have hj : j ≠ i := by simpa [Act.of] using ha
    have hb := bridgeStep_bridged s j
    simp only [step]
    generalize bridgeStep s j = s' at hb
    cases hb with
    | rest => rfl
    | receive | disconnect | proceed | quit | attach | call | last => exact hset rfl hj
  | drop j =>
    have hj : j ≠ i := by simpa [Act.of] using ha
    simp only [step, dropStep]
    split <;> (try split_ifs) <;> first | rfl | exact hset rfl hj

@[simp]
theorem iters_set_self (s : Sys ι) (i : ι) (it : Iter) : (s.set i it).iters i = it := by simp [Sys.set]

@[simp]
theorem iters_exit_self (s : Sys ι) (i : ι) (it : Iter) :
    (s.exit i it).iters i = { it with bridge := .exited } := by simp [Sys.exit]

theorem drops_dropStep (hst : (s.iters i).phase.stored = true) :
    Drops (s.iters i) ((dropStep s i).iters i) := by
  cases hp : (s.iters i).phase <;> simp only [dropStep, hp] <;> (try split_ifs) <;>
    first
    | exact .refl hst
    | (rw [iters_set_self]; exact ⟨rfl, fun _ ↦ rfl, by simp [hp], rfl, rfl⟩)
    | (rw [hp] at hst; cases hst)

theorem drops_step (hst : (s.iters i).phase.stored = true) {a : Act ι} (ha : a ≠ .bridge i) :
    Drops (s.iters i) ((step s a).iters i) := by
  by_cases hi : a.of = some i
  swap
  · rw [iters_step_of_ne hi]
    exact .refl hst
  cases a with
  | onChange | clear | takeGil | giveGil => cases hi
  | bridge => cases hi; exact absurd rfl ha
  | drop => cases hi; exact drops_dropStep hst
  | updateEvents =>
    cases hi
    refine drops_python hst ?_
    cases hp : (s.iters i).phase <;> simp only [updateEvents, hp] <;> first | exact .refl hst | skip
    rw [hp] at hst
    cases hst
  | insert =>
    cases hi
    refine drops_python hst ?_
    cases hp : (s.iters i).phase <;> simp only [insert, hp] <;> first | exact .refl hst | skip
    rw [hp] at hst
    cases hst
  | ensureStarted =>
    cases hi
    refine drops_python hst ?_
    unfold ensureStarted
    split_ifs with hp
    · rw [hp.1] at hst
      cases hst
    · exact .refl hst
  | runCallback =>
    cases hi
    refine drops_python hst ?_
    unfold runCallback
    split
    case h_1 x xs hq =>
      rw [iters_set_self]
      exact ⟨hst, id, id, rfl, by simp [Iter.items, hq]⟩
    case h_2 => exact .refl hst
  | get =>
    cases hi
    refine drops_python hst ?_
    unfold get
    split
    case h_1 x xs hq =>
      rw [iters_set_self]
      exact ⟨hst, id, id, rfl, by simp [Iter.items, hq]⟩
    case h_2 => exact .refl hst

/-- A step of the bridge after the shutdown has been stored. -/
theorem Bridged.late (hb : Bridged s i s') (hst : (s.iters i).shutdown = true) :
    (s'.iters i).phase = (s.iters i).phase ∧
      ∃ new, (s'.iters i).items = (s.iters i).items ++ new ∧
        new.length + (s'.iters i).bridge.late ≤ (s.iters i).bridge.late := by
  cases hb with
  | rest => exact ⟨rfl, [], by simp⟩
  | receive pc | disconnect pc => exact ⟨by simp, [], by simp [Iter.items, pc, BridgePc.late]⟩
  | proceed x pc unset => cases unset.symm.trans hst
  | quit pc => exact ⟨by simp, [], by simp [Iter.items, BridgePc.late]⟩
  | attach x pc => exact ⟨by simp, [], by simp [Iter.items, pc, BridgePc.late]⟩
  | call pc => exact ⟨by simp, [.tick], by simp [Iter.items, pc, BridgePc.late]⟩
  | last pc => exact ⟨by simp, [.died], by simp [Iter.items, pc, BridgePc.late]⟩

theorem Phase.stored_of_cut {p : Phase} (h : p.cut = true) : p.stored = true := by
  cases p <;> first | rfl | cases h

/-- A step of the bridge after its channel has been cut. -/
theorem Bridged.left (hb : Bridged s i s') (h : Inv s) (hcut : (s.iters i).phase.cut = true) :
    (s'.iters i).bridge.left ≤ (s.iters i).bridge.left - if Turn s i (.bridge i) then 1 else 0 := by
  have hi := h.iter i
  have hst : (s.iters i).shutdown = true := hi.shutdown.trans (Phase.stored_of_cut hcut)
  cases hb with
  | rest rests =>
    cases hbr : (s.iters i).bridge with
    | unborn | exited => simp [BridgePc.left]
    | receiving =>
      rw [hbr] at rests
      exact absurd rests.2 (hi.cut (hi.registered (by rw [hbr]; rfl)) hcut)
    | attaching x =>
      rw [hbr] at rests
      have hcall : s.gil ≠ some (.bridge i) := by simp [hi.calling, hbr]
      have hnot : ¬ Turn s i (.bridge i) := by
        rintro ⟨-, hlate | hfree | hmine⟩
        · rw [hbr] at hlate
          cases hlate
        · exact rests hfree
        · exact hcall hmine
      rw [if_neg hnot]
      exact le_rfl
    | checking | failing | calling =>
      rw [hbr] at rests
      exact rests.elim
  | receive pc | disconnect pc => split_ifs <;> simp [pc, BridgePc.left]
  | proceed x pc unset => cases unset.symm.trans hst
  | quit pc => simp [BridgePc.left]
  | attach x pc => split_ifs <;> cases x <;> simp [pc, BridgePc.left]
  | call pc => split_ifs <;> simp [pc, BridgePc.left]
  | last pc => simp [BridgePc.left]

theorem late_step (h : Inv s) (hst : (s.iters i).phase.stored = true) (a : Act ι) :
    ((step s a).iters i).phase.stored = true ∧
      ((s.iters i).phase.cut = true → ((step s a).iters i).phase.cut = true) ∧
      ((s.iters i).phase = .dropped → ((step s a).iters i).phase = .dropped) ∧
      ∃ new, ((step s a).iters i).items = (s.iters i).items ++ new ∧
        new.length + ((step s a).iters i).bridge.late ≤ (s.iters i).bridge.late := by
  by_cases ha : a = .bridge i
  · cases ha
    obtain ⟨hphase, hnew⟩ := (bridgeStep_bridged s i).late (((h.iter i).shutdown).trans hst)
    simp only [step, hphase]
    exact ⟨hst, id, id, hnew⟩
  · have hd := drops_step hst ha
    exact ⟨hd.stored, hd.cut, hd.dropped, [], by simp [hd.items], by simp [hd.bridge]⟩

theorem late_run (bs : List (Act ι)) (h : Inv s) (hst : (s.iters i).phase.stored = true) :
    ((s.iters i).phase = .dropped → ((run step s bs).iters i).phase = .dropped) ∧
      ∃ new, ((run step s bs).iters i).items = (s.iters i).items ++ new ∧
        new.length + ((run step s bs).iters i).bridge.late ≤ (s.iters i).bridge.late := by
  induction bs generalizing s with
  | nil => exact ⟨id, [], by simp [run]⟩
  | cons a bs ih =>
    obtain ⟨hst', -, hdropped, new, hitems, hlate⟩ := late_step h hst a
    obtain ⟨hdropped', new', hitems', hlate'⟩ := ih (inv_step s a h) hst'
    refine ⟨fun hp ↦ hdropped' (hdropped hp), new ++ new', ?_, ?_⟩
    · rw [run, List.foldl_cons, ← run, hitems', hitems, List.append_assoc]
    · rw [List.length_append, run, List.foldl_cons, ← run]
      omega

theorem left_run (bs : List (Act ι)) (h : Inv s) (hcut : (s.iters i).phase.cut = true) :
    ((run step s bs).iters i).bridge.left ≤ (s.iters i).bridge.left - turns i s bs := by
  induction bs generalizing s with
  | nil => exact le_rfl
  | cons a bs ih =>
    have hst := Phase.stored_of_cut hcut
    have hone : ((step s a).iters i).bridge.left ≤
        (s.iters i).bridge.left - if Turn s i a then 1 else 0 := by
      by_cases ha : a = .bridge i
      · cases ha
        exact (bridgeStep_bridged s i).left h hcut
      · rw [(drops_step hst ha).bridge, if_neg fun ht ↦ ha ht.1]
        exact le_rfl
    have hrest := ih (inv_step s a h) ((late_step h hst a).2.1 hcut)
    rw [run, List.foldl_cons, ← run, turns]
    omega

/-- The next step of the thread that has the GIL. -/
def Holder.act : Holder ι → Act ι
  | .drop i => .drop i
  | .bridge i => .bridge i
  | .other => .giveGil

/-- Whoever has the GIL gives it back without waiting for anyone. -/
theorem gil_released (h : Inv s) {who : Holder ι} (hg : s.gil = some who) :
    ∃ n ≤ 3, (run step s (List.replicate n who.act)).gil = none := by
  cases who with
  | other => exact ⟨1, by omega, by simp [run, Holder.act, step, hg]⟩
  | bridge j =>
    obtain ⟨x, hx⟩ := (h.iter j).calling.mp hg
    refine ⟨1, by omega, ?_⟩
    cases x <;> simp [run, Holder.act, step, bridgeStep, hx, Sys.set, Sys.exit]
  | drop j =>
    have hp := (h.iter j).dropping.mp hg
    cases hph : (s.iters j).phase <;> simp only [hph, Phase.hasGil, Bool.false_eq_true] at hp
    case storing =>
      refine ⟨3, by omega, ?_⟩
      simp only [run, Holder.act, List.replicate, List.foldl_cons, List.foldl_nil, step, dropStep, hph,
        iters_set_self]
      split_ifs <;> rfl
    case unsubscribing =>
      refine ⟨2, by omega, ?_⟩
      simp only [run, Holder.act, List.replicate, List.foldl_cons, List.foldl_nil, step, dropStep, hph,
        iters_set_self]
      split_ifs <;> rfl
    case detaching =>
      refine ⟨1, by omega, ?_⟩
      simp only [run, Holder.act, List.replicate, List.foldl_cons, List.foldl_nil, step, dropStep, hph]
      split_ifs <;> rfl

/-- In every interleaving of `UpdateEvents`, their bridge threads, the watcher and other Python threads:
once `Drop` has stored the shutdown, at most one item more reaches the event loop; while `Drop` joins the
bridge it does not have the GIL, and the bridge has exited after four of its statements that do not wait
for the GIL, whatever the others do; whoever has the GIL gives it back in three steps of its own; and when
`Drop` has returned, the thread is gone and calls into Python no more. -/
theorem update_events_drop (as : List (Act ι)) (i : ι) :
    let s := run step (.new ι) as
    ((s.iters i).phase.stored = true → ∀ bs, ∃ new,
        ((run step s bs).iters i).items = (s.iters i).items ++ new ∧ new.length ≤ 1) ∧
      ((s.iters i).phase = .joining → s.gil ≠ some (.drop i) ∧
        ∀ bs, 4 ≤ turns i s bs → ((run step s bs).iters i).bridge.running = false) ∧
      (∀ who, s.gil = some who → ∃ n ≤ 3, (run step s (List.replicate n who.act)).gil = none) ∧
      ((s.iters i).phase = .dropped → ∀ bs, ((run step s bs).iters i).bridge.running = false ∧
        ((run step s bs).iters i).items = (s.iters i).items) := by
  intro s
  have h : Inv s := inv_run as
  have hleft {b : BridgePc} (hb : b.left = 0) : b.running = false := by
    cases b with
    | unborn | exited => rfl
    | receiving | checking | failing => cases hb
    | attaching x | calling x => cases x <;> cases hb
  refine ⟨fun hst bs ↦ ?_, fun hp ↦ ⟨?_, fun bs hbs ↦ ?_⟩, fun who hg ↦ gil_released h hg, fun hp bs ↦ ?_⟩
  · obtain ⟨-, new, hitems, hlate⟩ := late_run bs h hst
    have hle : (s.iters i).bridge.late ≤ 1 := by cases (s.iters i).bridge <;> simp [BridgePc.late]
    exact ⟨new, hitems, by omega⟩
  · simp [(h.iter i).dropping, hp, Phase.hasGil]
  · have hle : (s.iters i).bridge.left ≤ 4 := by
      cases (s.iters i).bridge with
      | unborn | exited | receiving | checking | failing => simp [BridgePc.left]
      | attaching x | calling x => cases x <;> simp [BridgePc.left]
    have hrun := left_run bs h (by rw [hp]; rfl : (s.iters i).phase.cut = true)
    exact hleft (by omega)
  · obtain ⟨hdropped, new, hitems, hlate⟩ := late_run bs h (by rw [hp]; rfl)
    have hinv : Inv (run step s bs) := run_invariant step inv_step h bs
    have hend {s : Sys ι} (h : Inv s) (hp : (s.iters i).phase = .dropped) :
        (s.iters i).bridge.running = false ∧ (s.iters i).bridge.late = 0 := by
      have hallowed := (h.iter i).allowed
      rw [hp] at hallowed
      rcases hallowed with hb | hb <;> rw [hb] <;> exact ⟨rfl, rfl⟩
    refine ⟨(hend hinv (hdropped hp)).1, ?_⟩
    have hnew : new = [] := List.length_eq_zero_iff.mp (by have := (hend h hp).2; omega)
    rw [hitems, hnew, List.append_nil]

/-- A `Drop` that finds its bridge past the check of the shutdown, on its way to the GIL. -/
def droppedMidway : List (Act Unit) :=
  [.updateEvents (), .insert (), .ensureStarted (), .onChange, .bridge (), .bridge (), .drop (), .drop (),
    .drop (), .drop ()]

theorem update_events_drop_midway :
    ((run step (.new Unit) droppedMidway).iters ()).phase = .joining ∧
      ((run step (run step (.new Unit) droppedMidway) (List.replicate 4 (.bridge ()))).iters
        ()).bridge.running = false :=
  ⟨by decide +kernel, ((update_events_drop droppedMidway ()).2.1 (by decide +kernel)).2 _
    (by decide +kernel)⟩

end Drop

section Pending

variable {ι : Type} {s s' : Sys ι} {i : ι}

/-- The places of the bridge from which it hands an item over, unless there is a shutdown. -/
def BridgePc.carries : BridgePc → Bool
  | .checking | .attaching _ | .calling _ | .failing => true
  | _ => false

/-- An item is on its way to the next `__anext__`. -/
def Pending (s : Sys ι) (i : ι) : Bool :=
  s.hub.Ready (s.iters i).chan || (s.iters i).bridge.carries || !(s.iters i).scheduled.isEmpty ||
    !(s.iters i).queue.isEmpty

/-- A step that leaves the iterator as it is. -/
theorem pending_frame (hp : Pending s i = true) (hiter : s'.iters i = s.iters i)
    (hready : s.hub.Ready (s.iters i).chan = true → s'.hub.Ready (s.iters i).chan = true) :
    Pending s' i = true := by
  simp only [Pending, hiter, Bool.or_eq_true] at hp ⊢
  exact hp.imp_left fun h ↦ h.imp_left fun h ↦ h.imp_left hready

theorem pending_python (hp : Pending s i = true) (h' : Pending s' i = true) :
    Pending (s.python s') i = true := by
  unfold Sys.python
  split_ifs
  · exact h'
  · exact hp

variable [DecidableEq ι]

theorem Bridged.pending (hb : Bridged s i s') (hs : (s.iters i).shutdown = false)
    (hp : Pending s i = true) : Pending s' i = true := by
  cases hb with
  | rest => exact hp
  | receive | disconnect | proceed | attach => simp [Pending, BridgePc.carries]
  | quit pc stored => cases hs.symm.trans stored
  | call | last => simp [Pending]

/-- The steps of other bridges and other objects spare the channel of a live iterator. -/
theorem Bridged.pending_of_ne {j : ι} (hb : Bridged s j s') (h : Inv s) (hji : j ≠ i)
    (hr : (s.iters i).phase.registered = true) (hp : Pending s i = true) : Pending s' i = true := by
  have hiter : s'.iters i = s.iters i := by
    cases hb <;> first | rfl | exact Function.update_of_ne (Ne.symm hji) _ _
  have hne (hrun : (s.iters j).bridge.running = true) : (s.iters i).chan ≠ (s.iters j).chan :=
    h.chan_ne (Ne.symm hji) ((h.iter j).registered hrun) hr
  refine pending_frame hp hiter fun hready ↦ ?_
  cases hb with
  | rest | disconnect | proceed | attach | call => exact hready
  | receive pc => exact (s.hub.keeps_takeTick (hne (by rw [pc]; rfl))).ready hready
  | quit pc =>
    have hrun : (s.iters j).bridge.running = true := by
      rcases pc with pc | pc <;> rw [pc] <;> rfl
    exact (s.hub.keeps_dropReceiver (hne hrun)).ready hready
  | last pc => exact (s.hub.keeps_dropReceiver (hne (by rw [pc]; rfl))).ready hready

theorem ready_dropStep {j : ι} (h : Inv s) (hji : j ≠ i) (hr : (s.iters i).phase.registered = true)
    (hready : s.hub.Ready (s.iters i).chan = true) :
    (dropStep s j).hub.Ready (s.iters i).chan = true := by
  cases hp : (s.iters j).phase <;> simp only [dropStep, hp] <;> (try split_ifs) <;>
    first | exact hready | skip
  case unsubscribing => exact (s.hub.keeps_unsubscribe _ _).ready hready
  case pos =>
    have hne := h.chan_ne (Ne.symm hji) (by rw [hp]; rfl) hr
    exact (s.hub.keeps_dropReceiver hne).ready hready

/-- Nothing but an `__anext__` or the `Drop` of a live iterator takes an item away. -/
theorem pending_step (h : Inv s) (hlive : (s.iters i).phase = .live) {a : Act ι} (hget : a ≠ .get i)
    (hdrop : a ≠ .drop i) (hp : Pending s i = true) : Pending (step s a) i = true := by
  have hr : (s.iters i).phase.registered = true := by rw [hlive]; rfl
  by_cases hi : a.of = some i
  · cases a with
    | onChange | clear | takeGil | giveGil => cases hi
    | get => cases hi; exact absurd rfl hget
    | drop => cases hi; exact absurd rfl hdrop
    | bridge =>
      cases hi
      refine (bridgeStep_bridged s i).pending ?_ hp
      rw [(h.iter i).shutdown, hlive]
      rfl
    | updateEvents =>
      cases hi
      refine pending_python hp ?_
      simpa only [updateEvents, hlive] using hp
    | insert =>
      cases hi
      refine pending_python hp ?_
      simpa only [insert, hlive] using hp
    | ensureStarted =>
      cases hi
      refine pending_python hp ?_
      unfold ensureStarted
      split_ifs with hb
      · simpa [Pending, BridgePc.carries, hb.2, Sys.set] using hp
      · exact hp
    | runCallback =>
      cases hi
      refine pending_python hp ?_
      unfold runCallback
      split
      · simp [Pending]
      · exact hp
  · have hframe (hready : s.hub.Ready (s.iters i).chan = true →
        (step s a).hub.Ready (s.iters i).chan = true) : Pending (step s a) i = true :=
      pending_frame hp (iters_step_of_ne hi) hready
    cases a with
    | onChange => exact hframe (s.hub.keeps_onChange _).ready
    | clear => exact hframe (s.hub.keeps_clear _).ready
    | takeGil | giveGil =>
      refine hframe fun hready ↦ ?_
      simp only [step]
      split_ifs <;> exact hready
    | bridge j =>
      have hji : j ≠ i := by simpa [Act.of] using hi
      exact (bridgeStep_bridged s j).pending_of_ne h hji hr hp
    | drop j =>
      have hji : j ≠ i := by simpa [Act.of] using hi
      exact hframe (ready_dropStep h hji hr)
    | updateEvents j | ensureStarted j | runCallback j | get j =>
      refine hframe fun hready ↦ ?_
      simp only [step, Sys.python, updateEvents, ensureStarted, runCallback, get]
      split_ifs <;> (try split) <;> exact hready
    | insert j =>
      refine hframe fun hready ↦ ?_
      simp only [step, Sys.python, insert]
      split_ifs
      · split
        · exact (Hub.keeps_insert ((h.iter i).channel hr).1 _).ready hready
        · exact hready
      · exact hready

/-- The steps that the user of an iterator does not take leave its phase and what it has given out. -/
theorem user_step {a : Act ι} (hevents : a ≠ .updateEvents i) (hinsert : a ≠ .insert i) (hget : a ≠ .get i)
    (hdrop : a ≠ .drop i) :
    ((step s a).iters i).phase = (s.iters i).phase ∧ ((step s a).iters i).taken = (s.iters i).taken := by
  by_cases hi : a.of = some i
  swap
  · rw [iters_step_of_ne hi]
    exact ⟨rfl, rfl⟩
  cases a with
  | onChange | clear | takeGil | giveGil => cases hi
  | updateEvents => cases hi; exact absurd rfl hevents
  | insert => cases hi; exact absurd rfl hinsert
  | get => cases hi; exact absurd rfl hget
  | drop => cases hi; exact absurd rfl hdrop
  | bridge =>
    cases hi
    have hb := bridgeStep_bridged s i
    simp only [step]
    generalize bridgeStep s i = s' at hb
    cases hb <;> simp
  | ensureStarted =>
    cases hi
    simp only [step, Sys.python, ensureStarted]
    split_ifs <;> simp
  | runCallback =>
    cases hi
    simp only [step, Sys.python, runCallback]
    split_ifs <;> (try split) <;> simp

theorem phase_drop (hr : (s.iters i).phase.registered = true) :
    ((step s (.drop i)).iters i).phase.registered = true ∨ ((step s (.drop i)).iters i).phase = .dropped := by
  cases hp : (s.iters i).phase with
  | absent | registering | dropped =>
    rw [hp] at hr
    cases hr
  | live | joining =>
    simp only [step, dropStep, hp]
    split_ifs
    · simp [Phase.registered]
    · exact Or.inl hr
  | storing | unsubscribing => simp [step, dropStep, hp, Phase.registered]
  | detaching =>
    simp only [step, dropStep, hp]
    split_ifs <;> simp [Phase.registered]

/-- The watcher's call, or its end, reaches every live iterator that has not been told of that end. -/
theorem pending_onChange (h : Inv s) (hlive : (s.iters i).phase = .live)
    (hdied : .died ∉ (s.iters i).taken) : Pending (step s .onChange) i = true := by
  have hr : (s.iters i).phase.registered = true := by rw [hlive]; rfl
  by_cases hb : (s.iters i).bridge = .exited
  · have hs : (s.iters i).shutdown = false := by
      rw [(h.iter i).shutdown, hlive]
      rfl
    have hmem := (h.iter i).sentinel hb hs
    simp only [Iter.items, List.mem_append, hdied, false_or] at hmem
    have hne (l : List Item) (hl : .died ∈ l) : (!l.isEmpty) = true := by
      cases l with
      | nil => cases hl
      | cons => rfl
    simp only [Pending, step, Bool.or_eq_true]
    exact hmem.elim (fun hq ↦ Or.inr (hne _ hq)) fun hq ↦ Or.inl (Or.inr (hne _ hq))
  · have halive := (h.iter i).alive hr hb
    simp [Pending, step, Hub.ready_onChange halive]

end Pending

end UpdateEvents

end Honker
