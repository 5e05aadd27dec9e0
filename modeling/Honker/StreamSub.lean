import Honker.Streams
import Honker.Library.Interleaving
import Mathlib.Data.Rat.Defs
import Mathlib.Algebra.Order.Ring.Unbundled.Rat

namespace Honker

open Interleaving

/-- Where `next` of a subscription stands. In `saving` it has taken an event out of its queue and saves
the event's offset before it returns it. -/
inductive SubPc
  | idle
  | looping
  | saving (e : StreamEvent)
  | waiting
deriving DecidableEq

/-- What a subscription has returned since its start. It is busy while the last event is not
finished: the caller has neither called `next` again nor saved. -/
structure SubAccount where
  start : ℤ
  returned : List StreamEvent
  busy : Bool

namespace SubAccount

def new (start : ℤ) : SubAccount := ⟨start, [], false⟩

def add (a : SubAccount) (e : StreamEvent) : SubAccount := ⟨a.start, a.returned ++ [e], true⟩

def finish (a : SubAccount) : SubAccount := { a with busy := false }

def cursor (a : SubAccount) (offset : ℤ) (pending : List StreamEvent) :
    Consumer.Cursor StreamEvent ℤ :=
  ⟨a.start, offset, pending, a.returned, a.busy⟩

end SubAccount

/-- The tables and the live subscription of a consumer, with the events that were finished. `base` is
the offset the consumer was given: the events past it are its own to finish. -/
structure SubSys (σ : Type) where
  db : StreamDb
  sub : Option σ
  base : ℤ
  finished : List StreamEvent

/-- A committed publish, a `subscribe`, a crash, or a move of the live subscription. -/
inductive SubAction (α μ : Type)
  | publish (topic : String) (key : Option String) (payload : String) (now : Clock)
  | subscribe (a : α)
  | crash
  | move (m : μ)

namespace SubSys

variable {σ α μ : Type}

def new (σ : Type) (consumer topic : String) (db : StreamDb) : SubSys σ :=
  ⟨db, none, db.getOffset consumer topic, []⟩

def put (s : SubSys σ) (sub : σ) : SubSys σ := { s with sub := some sub }

def finish (s : SubSys σ) (a : SubAccount) : SubSys σ :=
  { s with finished := s.finished ++ a.returned.getLast?.toList }

/-- A subscription is made where none lives. -/
def step (subscribe : SubSys σ → α → SubSys σ) (move : SubSys σ → σ → μ → SubSys σ) (s : SubSys σ) :
    SubAction α μ → SubSys σ
  | .publish topic key payload now => { s with db := s.db.publish topic key payload now }
  | .subscribe a =>
    match s.sub with
    | some _ => s
    | none => subscribe s a
  | .crash => { s with sub := none }
  | .move m =>
    match s.sub with
    | some sub => move s sub m
    | none => s

/-- Where the live subscription moves, the move meets `C`. -/
def OnMove (C : σ → μ → Prop) (s : SubSys σ) : SubAction α μ → Prop
  | .move m => ∀ sub ∈ s.sub, C sub m
  | _ => True

instance OnMove.decidable {C : σ → μ → Prop} [∀ sub m, Decidable (C sub m)] (s : SubSys σ) :
    (a : SubAction α μ) → Decidable (s.OnMove C a)
  | .move m => inferInstanceAs (Decidable (∀ sub ∈ s.sub, C sub m))
  | .publish .. | .subscribe _ | .crash => .isTrue trivial

section Invariant

variable (consumer topic : String) (cursor : σ → Consumer.Cursor StreamEvent ℤ)

/-- The subscription as a reader of the topic's log. -/
def view (s : SubSys σ) : Consumer.State StreamEvent ℤ :=
  s.db.view consumer topic s.finished (s.sub.map cursor)

/-- The saved offset covers only finished events. The events a subscription has returned are the topic's
next ones past its start, and all of them once a read of at most `limit` rows finds nothing. -/
def AtLeastOnce (limit : ℕ) (s : SubSys σ) : Prop :=
  (∀ e ∈ s.db.stream.ofTopic topic, s.base < e.offset →
    e.offset ≤ s.db.getOffset consumer topic → e ∈ s.finished) ∧
  ∀ sub, s.sub = some sub →
    let events := Log.ahead StreamEvent.offset (cursor sub).start (s.db.stream.ofTopic topic)
    (cursor sub).yielded <+: events ∧
      ((cursor sub).buffer = [] → s.db.readSince topic (cursor sub).pos limit = [] →
        (cursor sub).yielded = events)

/-- A consumer's state is sound, and its subscription is one of those a run may reach. -/
structure Inv (Calm : StreamDb → σ → Prop) (s : SubSys σ) : Prop where
  sound : Consumer.Sound StreamEvent.offset s.base (s.view consumer topic cursor)
  calm : ∀ sub, s.sub = some sub → Calm s.db sub

variable {consumer topic cursor} {Calm : StreamDb → σ → Prop}

theorem inv_new (db : StreamDb) : Inv consumer topic cursor Calm (.new σ consumer topic db) :=
  ⟨db.sound_view _ _ _, by simp [new]⟩

theorem view_eq {s : SubSys σ} {sub : σ} (hsub : s.sub = some sub) : s.view consumer topic cursor =
    s.db.view consumer topic s.finished (some (cursor sub)) := by
  rw [view, hsub, Option.map_some]

theorem view_cursor {s : SubSys σ} {sub : σ} (hsub : s.sub = some sub) :
    (s.view consumer topic cursor).cursor = some (cursor sub) := by
  rw [view_eq hsub, StreamDb.view]

theorem Inv.atLeastOnce {s : SubSys σ} (h : Inv consumer topic cursor Calm s) {limit : ℕ}
    (hlimit : 0 < limit) : s.AtLeastOnce consumer topic cursor limit := by
  refine ⟨h.sound.covered, fun sub hsub ↦ ?_⟩
  have hr := h.sound.reads _ (view_cursor hsub)
  exact ⟨hr.yielded_ahead, fun _ hnil ↦ hr.yielded_eq h.sound.increasing hlimit hnil⟩

theorem step_inv {subscribe : SubSys σ → α → SubSys σ} {move : SubSys σ → σ → μ → SubSys σ}
    {C : σ → μ → Prop}
    (hpublish : ∀ db sub t key payload now, Calm db sub → Calm (db.publish t key payload now) sub)
    (hsubscribe : ∀ s a, Inv consumer topic cursor Calm s →
      Inv consumer topic cursor Calm (subscribe s a))
    (hmove : ∀ s sub m, C sub m → s.sub = some sub → Inv consumer topic cursor Calm s →
      Inv consumer topic cursor Calm (move s sub m))
    (s : SubSys σ) (a : SubAction α μ) (ha : s.OnMove C a) (h : Inv consumer topic cursor Calm s) :
    Inv consumer topic cursor Calm (s.step subscribe move a) := by
  cases a with
  | publish t key payload now =>
    exact ⟨((s.db.steps_publish consumer topic t key payload now).sound h.sound).1,
      fun sub hsub ↦ hpublish _ _ _ _ _ _ (h.calm sub hsub)⟩
  | subscribe a =>
    rw [step]
    cases s.sub with
    | some sub => exact h
    | none => exact hsubscribe s a h
  | crash =>
    exact ⟨(Consumer.Step.detach (s.view consumer topic cursor)).sound h.sound, by simp [step]⟩
  | move m =>
    rw [step]
    cases hsub : s.sub with
    | some sub => exact hmove s sub m (ha sub hsub) hsub h
    | none => exact h

theorem Inv.of_steps {s s' : SubSys σ} (h : Inv consumer topic cursor Calm s) (hbase : s'.base = s.base)
    (hsteps : Consumer.Steps StreamEvent.offset (s.view consumer topic cursor)
      (s'.view consumer topic cursor))
    (hcalm : ∀ sub, s'.sub = some sub → Calm s'.db sub) : Inv consumer topic cursor Calm s' :=
  ⟨hbase ▸ (hsteps.sound h.sound).1, hcalm⟩

theorem Inv.live {s s' : SubSys σ} {sub : σ} (h : Inv consumer topic cursor Calm s)
    (hsub : s'.sub = some sub) (hbase : s'.base = s.base)
    (hsteps : Consumer.Steps StreamEvent.offset (s.view consumer topic cursor)
      (s'.view consumer topic cursor))
    (hcalm : Calm s'.db sub) : Inv consumer topic cursor Calm s' := by
  refine h.of_steps hbase hsteps fun sub' hsub' ↦ ?_
  cases hsub.symm.trans hsub'
  exact hcalm

theorem Inv.put {s : SubSys σ} {sub sub' : σ} (h : Inv consumer topic cursor Calm s)
    (hsub : s.sub = some sub) (hcursor : cursor sub' = cursor sub) (hcalm : Calm s.db sub') :
    Inv consumer topic cursor Calm (s.put sub') := by
  have hview : (s.put sub').view consumer topic cursor = s.view consumer topic cursor := by
    rw [view_eq hsub, view_eq (s := s.put sub') rfl, hcursor]
    rfl
  exact h.live rfl rfl (hview ▸ .refl) hcalm

end Invariant

end SubSys

/-- The `StreamSubscription` of the Rust binding. -/
structure RustSub where
  lastOffset : ℤ
  lastSaved : ℤ
  pending : List StreamEvent
  pc : SubPc
  account : SubAccount

/-- The moves of a Rust subscription and its caller. `ok` tells whether a statement succeeds, and for
`recv` whether the watcher lives. `saveReturned` is `Stream::save_offset` with the offset of the event
that was returned last. -/
inductive RustMove
  | next
  | popFront
  | saveNext (ok : Bool)
  | refill (ok : Bool)
  | recv (ok : Bool)
  | saveOffset (ok : Bool)
  | saveReturned (ok : Bool)
  | drop (ok : Bool)

namespace RustSub

section Model

variable (consumer topic : String) (saveEveryN : ℤ)

def subscribe (s : SubSys RustSub) (_ : Unit) : SubSys RustSub :=
  let offset := s.db.getOffset consumer topic
  s.put ⟨offset, offset, [], .idle, .new offset⟩

/-- The subscription takes its offset for saved only where the upsert changed the row. -/
def saveOffset (db : StreamDb) (sub : RustSub) (ok : Bool) : Bool × RustSub × StreamDb :=
  if sub.lastSaved < sub.lastOffset then
    if ok then
      let n := (streamSaveOffset consumer topic sub.lastOffset db.consumers).1
      (true, if 0 < n then { sub with lastSaved := sub.lastOffset } else sub,
        db.saveOffset consumer topic sub.lastOffset)
    else (false, sub, db)
  else (true, sub, db)

/-- The test of `next` on the event it has taken. -/
def SaveDue (sub : RustSub) (e : StreamEvent) : Prop :=
  0 < saveEveryN ∧ saveEveryN ≤ e.offset - sub.lastSaved

instance (sub : RustSub) (e : StreamEvent) : Decidable (sub.SaveDue saveEveryN e) :=
  inferInstanceAs (Decidable (_ ∧ _))

def move (s : SubSys RustSub) (sub : RustSub) : RustMove → SubSys RustSub
  | .next =>
    if sub.pc = .idle then
      (s.finish sub.account).put { sub with pc := .looping, account := sub.account.finish }
    else s
  | .popFront =>
    match sub.pc, sub.pending with
    | .looping, e :: rest =>
      if sub.SaveDue saveEveryN e then
        s.put { sub with lastOffset := e.offset, pending := rest, pc := .saving e }
      else
        s.put { sub with
          lastOffset := e.offset, pending := rest, pc := .idle, account := sub.account.add e }
    | _, _ => s
  | .saveNext ok =>
    match sub.pc with
    | .saving e =>
      let r := saveOffset consumer topic s.db sub ok
      { s with db := r.2.2 }.put { r.2.1 with
        pc := .idle, account := if r.1 then sub.account.add e else sub.account }
    | _ => s
  | .refill ok =>
    if sub.pc = .looping ∧ sub.pending = [] then
      if ok then
        match s.db.readSince topic sub.lastOffset 100 with
        | [] => s.put { sub with pc := .waiting }
        | e :: rows => s.put { sub with pending := sub.pending ++ e :: rows }
      else s.put { sub with pc := .idle }
    else s
  | .recv ok =>
    if sub.pc = .waiting then s.put { sub with pc := if ok then .looping else .idle } else s
  | .saveOffset ok =>
    if sub.pc = .idle then
      let r := saveOffset consumer topic s.db sub ok
      if r.1 then
        { s.finish sub.account with db := r.2.2 }.put { r.2.1 with account := sub.account.finish }
      else s
    else s
  | .saveReturned ok =>
    match sub.account.returned.getLast? with
    | some e =>
      if sub.pc = .idle ∧ ok then
        { s.finish sub.account with db := s.db.saveOffset consumer topic e.offset }.put
          { sub with account := sub.account.finish }
      else s
    | none => s
  | .drop ok => { s with db := (saveOffset consumer topic s.db sub ok).2.2, sub := none }

def step : SubSys RustSub → SubAction Unit RustMove → SubSys RustSub :=
  SubSys.step (subscribe consumer topic) (move consumer topic saveEveryN)

def cursor (sub : RustSub) : Consumer.Cursor StreamEvent ℤ :=
  sub.account.cursor sub.lastOffset sub.pending

/-- `next` takes no event whose offset it would save, and no drop saves the offset of an event that is
not finished. -/
def Keeps (sub : RustSub) : RustMove → Prop
  | .popFront => sub.pc = .looping → ∀ e ∈ sub.pending.head?, ¬ sub.SaveDue saveEveryN e
  | .drop ok => ok = true → sub.lastSaved < sub.lastOffset → sub.account.busy = false
  | _ => True

instance (sub : RustSub) : (m : RustMove) → Decidable (sub.Keeps saveEveryN m)
  | .popFront => inferInstanceAs (Decidable (_ → ∀ e ∈ sub.pending.head?, ¬ sub.SaveDue saveEveryN e))
  | .drop ok => inferInstanceAs (Decidable (ok = true → _ → _))
  | .next | .saveNext _ | .refill _ | .recv _ | .saveOffset _ | .saveReturned _ => .isTrue trivial

/-- A subscription between two saves of its own. -/
def Calm (_ : StreamDb) (sub : RustSub) : Prop :=
  (sub.pc = .idle ∨ sub.account.busy = false) ∧ ∀ e, sub.pc ≠ .saving e

end Model

section Invariant

variable {consumer topic : String} {saveEveryN : ℤ} {s : SubSys RustSub} {sub : RustSub}

/-- A save leaves the subscription where it stands. It writes the offset, or nothing. -/
theorem saveOffset_spec (consumer topic : String) (db : StreamDb) (sub : RustSub) (ok : Bool) :
    (∃ lastSaved, (saveOffset consumer topic db sub ok).2.1 = { sub with lastSaved := lastSaved }) ∧
    ((saveOffset consumer topic db sub ok).2.2 = db ∨
      ok = true ∧ sub.lastSaved < sub.lastOffset ∧
        (saveOffset consumer topic db sub ok).2.2 = db.saveOffset consumer topic sub.lastOffset) := by
  rw [saveOffset]
  split_ifs with hlt hok
  · refine ⟨?_, Or.inr ⟨hok, hlt, rfl⟩⟩
    dsimp only
    split_ifs
    · exact ⟨_, rfl⟩
    · exact ⟨_, rfl⟩
  · exact ⟨⟨_, rfl⟩, Or.inl rfl⟩
  · exact ⟨⟨_, rfl⟩, Or.inl rfl⟩

theorem move_inv (s : SubSys RustSub) (sub : RustSub) (m : RustMove) (hm : sub.Keeps saveEveryN m)
    (hsub : s.sub = some sub) (h : s.Inv consumer topic cursor Calm) :
    (move consumer topic saveEveryN s sub m).Inv consumer topic cursor Calm := by
  have hcursor : (s.view consumer topic cursor).cursor = some sub.cursor := SubSys.view_cursor hsub
  obtain ⟨hbusy, hsaving⟩ := h.calm sub hsub
  have hview : s.view consumer topic cursor =
      s.db.view consumer topic s.finished (some sub.cursor) := SubSys.view_eq hsub
  cases m with
  | next =>
    rw [move]
    split_ifs with hpc
    · exact h.live rfl rfl (h.sound.steps_finish hcursor) ⟨Or.inr rfl, by simp⟩
    · exact h
  | popFront =>
    rw [move]
    split
    · next e rest hpc hpending =>
      rw [if_neg (hm hpc e (by simp [hpending]))]
      have hidle : sub.account.busy = false := by simpa [hpc] using hbusy
      exact h.live rfl rfl (.single (.handOut _ sub.cursor e rest hcursor hidle hpending))
        ⟨Or.inl rfl, by simp⟩
    · exact h
  | saveNext ok =>
    rw [move]
    split
    · next e hpc => exact absurd hpc (hsaving e)
    · exact h
  | refill ok =>
    rw [move]
    split_ifs with hpc hok
    · have hidle : sub.account.busy = false := by simpa [hpc.1] using hbusy
      cases hrows : s.db.readSince topic sub.lastOffset 100 with
      | nil => exact h.put hsub rfl ⟨Or.inr hidle, by simp⟩
      | cons e rows =>
        dsimp only
        rw [hpc.2, List.nil_append, ← hrows]
        exact h.live rfl rfl (.single (.refill _ sub.cursor 100 hcursor hpc.2)) ⟨Or.inr hidle, hsaving⟩
    · exact h.put hsub rfl ⟨Or.inl rfl, by simp⟩
    · exact h
  | recv ok =>
    rw [move]
    split_ifs with hpc hok
    · have hidle : sub.account.busy = false := by simpa [hpc] using hbusy
      exact h.put hsub rfl ⟨Or.inr hidle, by simp⟩
    · exact h.put hsub rfl ⟨Or.inl rfl, by simp⟩
    · exact h
  | saveOffset ok =>
    rw [move]
    split_ifs with hpc
    · obtain ⟨⟨lastSaved, hsub'⟩, hdb⟩ := saveOffset_spec consumer topic s.db sub ok
      dsimp only
      split_ifs
      · rw [hsub']
        refine h.live rfl rfl ?_ ?_
        · rcases hdb with hdb | ⟨-, -, hdb⟩
          · rw [hdb]
            exact h.sound.steps_finish hcursor
          · rw [hdb, hview]
            exact StreamDb.steps_finish_saveOffset (hview ▸ h.sound)
        · exact ⟨Or.inl hpc, by simp [hpc]⟩
      · exact h
    · exact h
  | saveReturned ok =>
    rw [move]
    split
    · next e hlast =>
      split_ifs with hpc
      · refine h.live rfl rfl ?_ ?_
        · have hpos : sub.lastOffset = e.offset := (h.sound.reads _ hcursor).pos_of_last hlast
          rw [hview, ← hpos]
          exact StreamDb.steps_finish_saveOffset (hview ▸ h.sound)
        · exact ⟨Or.inl hpc.1, by simp [hpc.1]⟩
      · exact h
    · exact h
  | drop ok =>
    rw [move]
    refine h.of_steps rfl ?_ (by simp)
    rcases (saveOffset_spec consumer topic s.db sub ok).2 with
      hdb | ⟨hok, hlt, hdb⟩
    · rw [hdb]
      exact .single (.detach (s.view consumer topic cursor))
    · rw [hdb, hview]
      have hsave := StreamDb.steps_saveOffset rfl (hm hok hlt) (hview ▸ h.sound)
      exact hsave.tail (.detach _)

theorem subscribe_inv (s : SubSys RustSub) (a : Unit) (h : s.Inv consumer topic cursor Calm) :
    (subscribe consumer topic s a).Inv consumer topic cursor Calm :=
  h.live rfl rfl (.single (.attach (s.view consumer topic cursor))) ⟨Or.inl rfl, by simp⟩

theorem step_inv (s : SubSys RustSub) (a : SubAction Unit RustMove)
    (ha : s.OnMove (Keeps saveEveryN) a) (h : s.Inv consumer topic cursor Calm) :
    (step consumer topic saveEveryN s a).Inv consumer topic cursor Calm :=
  SubSys.step_inv (fun _ _ _ _ _ _ h ↦ h) subscribe_inv move_inv s a ha h

end Invariant

end RustSub

/-- The error that `_resolveCheckpointTx` throws. -/
structure CheckpointMigrationError where
  stream : String
  consumer : String
  legacyOffset : ℤ
deriving DecidableEq

section Checkpoints

variable (consumer topic : String) (db : StreamDb)

/-- `INSERT ... ON CONFLICT(name, topic) DO NOTHING`. -/
def StreamDb.insertCheckpoint (offset : ℤ) : StreamDb :=
  { db with consumers := db.consumers.insertNew ⟨consumer, topic, offset⟩ }

/-- An old release kept its checkpoints under the swapped pair. Such a row is adopted where its offset
is that of an event of the topic. -/
def resolveCheckpointTx (allowUnverifiable : Bool) : Except CheckpointMigrationError (ℤ × StreamDb) :=
  match db.consumers.find? (consumer, topic) with
  | some r => .ok (r.offset, db)
  | none =>
    match db.consumers.find? (topic, consumer) with
    | none => .ok (0, db)
    | some legacy =>
      let eventTopic := (db.stream.rows.find? fun e ↦ e.offset = legacy.offset).map StreamEvent.topic
      if legacy.offset ≠ 0 ∧ eventTopic ≠ some topic then
        if allowUnverifiable then .ok (0, db) else .error ⟨topic, consumer, legacy.offset⟩
      else .ok (legacy.offset, db.insertCheckpoint consumer topic legacy.offset)

/-- `Stream.saveOffset` of the Node binding. -/
def nodeSaveOffset (offset : ℤ) : Except CheckpointMigrationError StreamDb :=
  (resolveCheckpointTx consumer topic db true).map fun r ↦ r.2.saveOffset consumer topic offset

/-- `Stream.getOffset` of the Node binding. -/
def nodeGetOffset : Except CheckpointMigrationError (ℤ × StreamDb) :=
  resolveCheckpointTx consumer topic db false

/-- No checkpoint of the old release is left to adopt. -/
def StreamDb.Settled : Prop :=
  (db.consumers.find? (consumer, topic)).isSome ∨ db.consumers.find? (topic, consumer) = none

variable {consumer topic db}

theorem StreamDb.Settled.saveOffset (offset : ℤ) :
    (db.saveOffset consumer topic offset).Settled consumer topic :=
  Or.inl (isSome_find?_streamSaveOffset ..)

theorem nodeSaveOffset_eq (h : db.Settled consumer topic) (offset : ℤ) :
    nodeSaveOffset consumer topic db offset = .ok (db.saveOffset consumer topic offset) := by
  rw [nodeSaveOffset, resolveCheckpointTx]
  rcases h with h | h
  · obtain ⟨r, hr⟩ := Option.isSome_iff_exists.mp h
    rw [hr]
    rfl
  · rw [h]
    cases db.consumers.find? (consumer, topic) <;> rfl

/-- `getOffset` returns the consumer's own offset, which a checkpoint of the old release has become
where there was none. -/
theorem nodeGetOffset_ok {offset : ℤ} {db' : StreamDb}
    (h : nodeGetOffset consumer topic db = .ok (offset, db')) :
    offset = db'.getOffset consumer topic ∧ db'.Settled consumer topic ∧
      ((db.consumers.find? (consumer, topic)).isSome → db' = db) := by
  rw [nodeGetOffset, resolveCheckpointTx] at h
  cases hown : db.consumers.find? (consumer, topic) with
  | some r =>
    rw [hown] at h
    cases h
    refine ⟨?_, Or.inl (by rw [hown]; rfl), fun _ ↦ rfl⟩
    rw [StreamDb.getOffset, streamGetOffset, hown]
    rfl
  | none =>
    rw [hown] at h
    cases hlegacy : db.consumers.find? (topic, consumer) with
    | none =>
      rw [hlegacy] at h
      cases h
      refine ⟨?_, Or.inr hlegacy, by simp⟩
      rw [StreamDb.getOffset, streamGetOffset, hown]
      rfl
    | some legacy =>
      rw [hlegacy] at h
      dsimp only at h
      rw [if_neg Bool.false_ne_true] at h
      split_ifs at h
      cases h
      have hinsert : (db.insertCheckpoint consumer topic legacy.offset).consumers.find?
          (consumer, topic) = some ⟨consumer, topic, legacy.offset⟩ :=
        Relational.Table.find?_insertNew hown
      refine ⟨?_, Or.inl (by rw [hinsert]; rfl), by simp⟩
      rw [StreamDb.getOffset, streamGetOffset, hinsert]
      rfl

end Checkpoints

/-- The options of `subscribe` in the Node binding. -/
structure NodeOpts where
  saveEveryN : ℤ
  saveEveryS : ℚ

/-- The `StreamSubscription` of the Node binding. -/
structure NodeSub where
  lastSeenOffset : ℤ
  lastSavedOffset : ℤ
  deliveredSinceSave : ℕ
  lastSaveAt : ℤ
  closed : Bool
  pending : List StreamEvent
  pc : SubPc
  account : SubAccount

/-- The moves of a Node subscription and its caller. `now` and `after` are readings of `Date.now()`.
`saveReturned` is `Stream.saveOffset` with the offset of the event that was returned last. -/
inductive NodeMove
  | next
  | loadPending (ok : Bool)
  | shift (now : ℤ)
  | saveNext (after : ℤ) (ok : Bool)
  | wake
  | saveReturned (ok : Bool)
  | close (ok : Bool)

namespace NodeSub

section Model

variable (consumer topic : String) (opts : NodeOpts)

/-- The constructor, at a reading of `Date.now()`. A checkpoint of the old release that it adopts is the
offset the consumer is given. -/
def subscribe (s : SubSys NodeSub) (now : ℤ) : SubSys NodeSub :=
  match nodeGetOffset consumer topic s.db with
  | .error _ => s
  | .ok (offset, db) =>
    let own := (s.db.consumers.find? (consumer, topic)).isSome
    { s with db := db, base := if own then s.base else offset }.put
      ⟨offset, offset, 0, now, false, [], .idle, .new offset⟩

def saveOffset (db : StreamDb) (offset : ℤ) (ok : Bool) : Option StreamDb :=
  if ok then (nodeSaveOffset consumer topic db offset).toOption else none

/-- The test of `_maybeSaveOffset` on the event that `next` has taken. -/
def SaveDue (sub : NodeSub) (now : ℤ) (e : StreamEvent) : Prop :=
  sub.lastSavedOffset < e.offset ∧
    (0 < max 0 opts.saveEveryN ∧ max 0 opts.saveEveryN ≤ sub.deliveredSinceSave + 1 ∨
      0 < max 0 (opts.saveEveryS * 1000) ∧ max 0 (opts.saveEveryS * 1000) ≤ (now - sub.lastSaveAt : ℤ))

instance (sub : NodeSub) (now : ℤ) (e : StreamEvent) : Decidable (sub.SaveDue opts now e) :=
  inferInstanceAs (Decidable (_ ∧ ((_ ∧ _) ∨ (_ ∧ _))))

def move (s : SubSys NodeSub) (sub : NodeSub) : NodeMove → SubSys NodeSub
  | .next =>
    if sub.pc = .idle then
      (s.finish sub.account).put { sub with
        pc := if sub.closed then .idle else .looping, account := sub.account.finish }
    else s
  | .loadPending ok =>
    if sub.pc = .looping ∧ sub.pending = [] then
      if ok then
        match s.db.readSince topic sub.lastSeenOffset 256 with
        | [] => s.put { sub with pc := .waiting }
        | e :: rows => s.put { sub with pending := sub.pending ++ e :: rows }
      else s.put { sub with pc := .idle }
    else s
  | .shift now =>
    match sub.pc, sub.pending with
    | .looping, e :: rest =>
      let sub' := { sub with
        lastSeenOffset := e.offset
        pending := rest
        deliveredSinceSave := sub.deliveredSinceSave + 1 }
      if sub.SaveDue opts now e then s.put { sub' with pc := .saving e }
      else s.put { sub' with pc := .idle, account := sub.account.add e }
    | _, _ => s
  | .saveNext after ok =>
    match sub.pc with
    | .saving e =>
      match saveOffset consumer topic s.db sub.lastSeenOffset ok with
      | some db =>
        { s with db := db }.put { sub with
          lastSavedOffset := sub.lastSeenOffset
          deliveredSinceSave := 0
          lastSaveAt := after
          pc := .idle
          account := sub.account.add e }
      | none => s.put { sub with pc := .idle }
    | _ => s
  | .wake =>
    if sub.pc = .waiting then s.put { sub with pc := if sub.closed then .idle else .looping } else s
  | .saveReturned ok =>
    match sub.account.returned.getLast? with
    | some e =>
      match saveOffset consumer topic s.db e.offset (sub.pc = .idle ∧ ok) with
      | some db =>
        { s.finish sub.account with db := db }.put { sub with account := sub.account.finish }
      | none => s
    | none => s
  | .close ok =>
    -- Nothing else runs between two awaits of `next`.
    if sub.closed ∨ ¬ (sub.pc = .idle ∨ sub.pc = .waiting) then s
    else if sub.lastSavedOffset < sub.lastSeenOffset then
      match saveOffset consumer topic s.db sub.lastSeenOffset ok with
      | some db =>
        { s with db := db }.put { sub with closed := true, lastSavedOffset := sub.lastSeenOffset }
      | none => s.put { sub with closed := true }
    else s.put { sub with closed := true }

def step : SubSys NodeSub → SubAction ℤ NodeMove → SubSys NodeSub :=
  SubSys.step (subscribe consumer topic) (move consumer topic opts)

def cursor (sub : NodeSub) : Consumer.Cursor StreamEvent ℤ :=
  sub.account.cursor sub.lastSeenOffset sub.pending

/-- `next` takes no event whose offset it would save, and no `close` saves the offset of an event that
is not finished. -/
def Keeps (sub : NodeSub) : NodeMove → Prop
  | .shift now => sub.pc = .looping → ∀ e ∈ sub.pending.head?, ¬ sub.SaveDue opts now e
  | .close ok => ok = true → sub.closed = false → sub.lastSavedOffset < sub.lastSeenOffset →
    sub.account.busy = false
  | _ => True

instance (sub : NodeSub) : (m : NodeMove) → Decidable (sub.Keeps opts m)
  | .shift now => inferInstanceAs (Decidable (_ → ∀ e ∈ sub.pending.head?, ¬ sub.SaveDue opts now e))
  | .close ok => inferInstanceAs (Decidable (ok = true → _ → _ → _))
  | .next | .loadPending _ | .saveNext .. | .wake | .saveReturned _ => .isTrue trivial

/-- A subscription between two saves of its own. -/
def Calm (db : StreamDb) (sub : NodeSub) : Prop :=
  (sub.pc = .idle ∨ sub.account.busy = false) ∧ (∀ e, sub.pc ≠ .saving e) ∧ db.Settled consumer topic

end Model

section Invariant

variable {consumer topic : String} {opts : NodeOpts} {s : SubSys NodeSub} {sub : NodeSub}

theorem saveOffset_eq_some {db db' : StreamDb} {offset : ℤ} {ok : Bool}
    (hdb : db.Settled consumer topic) (h : saveOffset consumer topic db offset ok = some db') :
    ok = true ∧ db' = db.saveOffset consumer topic offset := by
  rw [saveOffset, nodeSaveOffset_eq hdb] at h
  split_ifs at h with hok
  exact ⟨hok, (Option.some.inj h).symm⟩

theorem move_inv (s : SubSys NodeSub) (sub : NodeSub) (m : NodeMove) (hm : sub.Keeps opts m)
    (hsub : s.sub = some sub) (h : s.Inv consumer topic cursor (Calm consumer topic)) :
    (move consumer topic opts s sub m).Inv consumer topic cursor (Calm consumer topic) := by
  have hcursor : (s.view consumer topic cursor).cursor = some sub.cursor := SubSys.view_cursor hsub
  obtain ⟨hbusy, hsaving, hdb⟩ := h.calm sub hsub
  have hview : s.view consumer topic cursor =
      s.db.view consumer topic s.finished (some sub.cursor) := SubSys.view_eq hsub
  cases m with
  | next =>
    rw [move]
    split_ifs with hpc hclosed
    · exact h.live rfl rfl (h.sound.steps_finish hcursor) ⟨Or.inr rfl, by simp, hdb⟩
    · exact h.live rfl rfl (h.sound.steps_finish hcursor) ⟨Or.inr rfl, by simp, hdb⟩
    · exact h
  | loadPending ok =>
    rw [move]
    split_ifs with hpc hok
    · have hidle : sub.account.busy = false := by simpa [hpc.1] using hbusy
      cases hrows : s.db.readSince topic sub.lastSeenOffset 256 with
      | nil => exact h.put hsub rfl ⟨Or.inr hidle, by simp, hdb⟩
      | cons e rows =>
        dsimp only
        rw [hpc.2, List.nil_append, ← hrows]
        exact h.live rfl rfl (.single (.refill _ sub.cursor 256 hcursor hpc.2))
          ⟨Or.inr hidle, hsaving, hdb⟩
    · exact h.put hsub rfl ⟨Or.inl rfl, by simp, hdb⟩
    · exact h
  | shift now =>
    rw [move]
    split
    · next e rest hpc hpending =>
      dsimp only
      rw [if_neg (hm hpc e (by simp [hpending]))]
      have hidle : sub.account.busy = false := by simpa [hpc] using hbusy
      exact h.live rfl rfl (.single (.handOut _ sub.cursor e rest hcursor hidle hpending))
        ⟨Or.inl rfl, by simp, hdb⟩
    · exact h
  | saveNext after ok =>
    rw [move]
    split
    · next e hpc => exact absurd hpc (hsaving e)
    · exact h
  | wake =>
    rw [move]
    split_ifs with hpc hclosed
    · exact h.put hsub rfl ⟨Or.inl rfl, by simp, hdb⟩
    · have hidle : sub.account.busy = false := by simpa [hpc] using hbusy
      exact h.put hsub rfl ⟨Or.inr hidle, by simp, hdb⟩
    · exact h
  | saveReturned ok =>
    rw [move]
    split
    · next e hlast =>
      split
      · next db hsave =>
        obtain ⟨hpc, rfl⟩ := saveOffset_eq_some hdb hsave
        have hpc : sub.pc = .idle := (of_decide_eq_true hpc).1
        refine h.live rfl rfl ?_ ?_
        · have hpos : sub.lastSeenOffset = e.offset := (h.sound.reads _ hcursor).pos_of_last hlast
          rw [hview, ← hpos]
          exact StreamDb.steps_finish_saveOffset (hview ▸ h.sound)
        · exact ⟨Or.inl hpc, by simp [hpc], .saveOffset _⟩
      · exact h
    · exact h
  | close ok =>
    rw [move]
    split_ifs with hpc hlt
    · exact h
    · split
      · next db hsave =>
        obtain ⟨hok, rfl⟩ := saveOffset_eq_some hdb hsave
        have hopen : sub.closed = false := by simpa using (not_or.mp hpc).1
        refine h.live rfl rfl ?_ ?_
        · rw [hview]
          have hsave := StreamDb.steps_saveOffset rfl (hm hok hopen hlt) (hview ▸ h.sound)
          exact hsave
        · exact ⟨hbusy, hsaving, .saveOffset _⟩
      · exact h.put hsub rfl ⟨hbusy, hsaving, hdb⟩
    · exact h.put hsub rfl ⟨hbusy, hsaving, hdb⟩

theorem subscribe_inv (s : SubSys NodeSub) (now : ℤ)
    (h : s.Inv consumer topic cursor (Calm consumer topic)) :
    (subscribe consumer topic s now).Inv consumer topic cursor (Calm consumer topic) := by
  rw [subscribe]
  cases hget : nodeGetOffset consumer topic s.db with
  | error e => exact h
  | ok r =>
    obtain ⟨offset, db⟩ := r
    obtain ⟨rfl, hdb, hown⟩ := nodeGetOffset_ok hget
    refine ⟨?_, fun sub hsub ↦ ?_⟩
    · cases own : (s.db.consumers.find? (consumer, topic)).isSome with
      | true =>
        obtain rfl := hown own
        exact (Consumer.Step.attach (s.view consumer topic cursor)).sound h.sound
      | false => exact (Consumer.Step.attach _).sound (db.sound_view consumer topic s.finished)
    · obtain rfl := Option.some.inj hsub
      exact ⟨Or.inl rfl, by simp, hdb⟩

theorem step_inv (s : SubSys NodeSub) (a : SubAction ℤ NodeMove) (ha : s.OnMove (Keeps opts) a)
    (h : s.Inv consumer topic cursor (Calm consumer topic)) :
    (step consumer topic opts s a).Inv consumer topic cursor (Calm consumer topic) :=
  SubSys.step_inv (fun _ _ _ _ _ _ h ↦ h) subscribe_inv move_inv s a ha h

end Invariant

end NodeSub

/-- In every run whose moves are `Keeps`, the subscriptions of either binding, one at a time, are
at-least-once. -/
theorem stream_subscription_at_least_once (consumer topic : String) (db : StreamDb) :
    (∀ (saveEveryN : ℤ) (as : List (SubAction Unit RustMove)),
      Along (RustSub.step consumer topic saveEveryN) (SubSys.OnMove (RustSub.Keeps saveEveryN))
        (.new RustSub consumer topic db) as →
      (run (RustSub.step consumer topic saveEveryN) (.new RustSub consumer topic db) as).AtLeastOnce
        consumer topic RustSub.cursor 100) ∧
    ∀ (opts : NodeOpts) (as : List (SubAction ℤ NodeMove)),
      Along (NodeSub.step consumer topic opts) (SubSys.OnMove (NodeSub.Keeps opts))
        (.new NodeSub consumer topic db) as →
      (run (NodeSub.step consumer topic opts) (.new NodeSub consumer topic db) as).AtLeastOnce
        consumer topic NodeSub.cursor 256 := by
  constructor
  · intro saveEveryN as has
    have h := along_invariant _ RustSub.step_inv (SubSys.inv_new db) has
    exact h.atLeastOnce (by omega)
  · intro opts as has
    have h := along_invariant _ NodeSub.step_inv (SubSys.inv_new db) has
    exact h.atLeastOnce (by omega)

section Runs

/-- Two events of a topic. -/
def twoOrders (α μ : Type) : List (SubAction α μ) :=
  [.publish "orders" none "1" (.near 1), .publish "orders" none "2" (.near 1)]

/-- The caller saves after each event, and drops the subscription after its last `next`. -/
def rustSavesAfter : List (SubAction Unit RustMove) :=
  twoOrders _ _ ++ [.subscribe (), .move .next, .move (.refill true), .move .popFront,
    .move (.saveOffset true), .move .next, .move .popFront, .move .next, .move (.refill true),
    .move (.recv false), .move (.drop true)]

def nodeSavesAfter : List (SubAction ℤ NodeMove) :=
  twoOrders _ _ ++ [.subscribe 0, .move .next, .move (.loadPending true), .move (.shift 0),
    .move (.saveReturned true), .move .next, .move (.shift 0), .move .next, .move (.loadPending true),
    .move (.close true)]

/-- `next` saves the offset of the event it is about to return. `ok` tells whether the first save
succeeds. -/
def rustSavesFirst (ok : Bool) : List (SubAction Unit RustMove) :=
  twoOrders _ _ ++ [.subscribe (), .move .next, .move (.refill true), .move .popFront,
    .move (.saveNext ok), .move .next, .move .popFront, .move (.saveNext true)]

def nodeSavesFirst (ok : Bool) : List (SubAction ℤ NodeMove) :=
  twoOrders _ _ ++ [.subscribe 0, .move .next, .move (.loadPending true), .move (.shift 0),
    .move (.saveNext 0 ok), .move .next, .move (.shift 0), .move (.saveNext 0 true)]

end Runs

theorem stream_subscription_at_least_once_savesAfter :
    ((run (RustSub.step "billing" "orders" 2) (.new RustSub "billing" "orders" .empty)
        rustSavesAfter).db.getOffset "billing" "orders" = 2 ∧
      (run (RustSub.step "billing" "orders" 2) (.new RustSub "billing" "orders" .empty)
        rustSavesAfter).AtLeastOnce "billing" "orders" RustSub.cursor 100) ∧
    (run (NodeSub.step "billing" "orders" ⟨3, 0⟩) (.new NodeSub "billing" "orders" .empty)
        nodeSavesAfter).db.getOffset "billing" "orders" = 2 ∧
      (run (NodeSub.step "billing" "orders" ⟨3, 0⟩) (.new NodeSub "billing" "orders" .empty)
        nodeSavesAfter).AtLeastOnce "billing" "orders" NodeSub.cursor 256 := by
  have h := stream_subscription_at_least_once "billing" "orders" .empty
  exact ⟨⟨by decide +kernel, h.1 2 rustSavesAfter (by decide +kernel)⟩,
    by decide +kernel, h.2 ⟨3, 0⟩ nodeSavesAfter (by decide +kernel)⟩

/-- With a save after each event, `next` saves an event that is not finished, and a `next` whose save
fails skips one. -/
theorem early_save_loses_event :
    (¬ (run (RustSub.step "billing" "orders" 1) (.new RustSub "billing" "orders" .empty)
        (rustSavesFirst true)).AtLeastOnce "billing" "orders" RustSub.cursor 100 ∧
      ((run (RustSub.step "billing" "orders" 1) (.new RustSub "billing" "orders" .empty)
        (rustSavesFirst false)).sub.map fun sub ↦
          (sub.account.start, sub.account.returned.map StreamEvent.offset)) = some (0, [2])) ∧
    ¬ (run (NodeSub.step "billing" "orders" ⟨1, 0⟩) (.new NodeSub "billing" "orders" .empty)
        (nodeSavesFirst true)).AtLeastOnce "billing" "orders" NodeSub.cursor 256 ∧
      ((run (NodeSub.step "billing" "orders" ⟨1, 0⟩) (.new NodeSub "billing" "orders" .empty)
        (nodeSavesFirst false)).sub.map fun sub ↦
          (sub.account.start, sub.account.returned.map StreamEvent.offset)) = some (0, [2]) := by
  refine ⟨⟨fun h ↦ absurd h.1 ?_, ?_⟩, fun h ↦ absurd h.1 ?_, ?_⟩
  all_goals decide +kernel

end Honker
