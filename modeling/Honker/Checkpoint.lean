import Honker.StreamSub
import Honker.Library.Transition

namespace Honker.Checkpoint

open Relational Transition

/-- The calls on the streams of the Node binding, each one transaction. -/
inductive Call
  | getOffset (stream consumer : String)
  | saveOffset (stream consumer : String) (offset : ℤ)
  | publish (stream : String) (key : Option String) (payload : String) (now : Clock)

inductive Reply
  | offset (n : ℤ)
  | saved (changed : Bool)
  | published (r : Except SqlError ℤ)
  | thrown (e : CheckpointMigrationError)

def step (db : StreamDb) : Call → Reply × StreamDb
  | .getOffset stream consumer =>
    match nodeGetOffset consumer stream db with
    | .error e => (.thrown e, db)
    | .ok (offset, db') => (.offset offset, db')
  | .saveOffset stream consumer offset =>
    match resolveCheckpointTx consumer stream db true with
    | .error e => (.thrown e, db)
    | .ok (_, db') =>
      let r := streamSaveOffset consumer stream offset db'.consumers
      (.saved (r.1 = 1), { db' with consumers := r.2 })
  | .publish stream key payload now =>
    let r := streamPublish stream key payload now db.stream
    (.published r.1, { db with stream := r.2 })

abbrev Event := Transition.Event StreamDb Call Reply

/-- The stream and the consumer of a call on a checkpoint. -/
def Call.pair : Call → Option (String × String)
  | .getOffset stream consumer => some (stream, consumer)
  | .saveOffset stream consumer _ => some (stream, consumer)
  | .publish .. => none

/-- The offset is `0`, or that of an event of the stream. -/
def Backed (log : StreamLog) (stream : String) (offset : ℤ) : Prop :=
  offset = 0 ∨ ∃ e ∈ log.ofTopic stream, e.offset = offset

instance (log : StreamLog) (stream : String) (offset : ℤ) : Decidable (Backed log stream offset) :=
  inferInstanceAs (Decidable (_ ∨ ∃ e ∈ log.ofTopic stream, e.offset = offset))

/-- The transaction makes the canonical row of the pair out of the transposed one. -/
def adopts (stream consumer : String) (db : StreamDb) : Bool :=
  (db.consumers.find? (consumer, stream)).isNone &&
    match resolveCheckpointTx consumer stream db true with
    | .error _ => false
    | .ok (_, db') => (db'.consumers.find? (consumer, stream)).isSome

/-- The stream that the checkpoint of each row was consumed from, after a call: a save that moves the
row is one of its own stream, an adopted checkpoint stays what it was. -/
def ownerAfter (owner : String × String → String) (e : Event) : String × String → String :=
  match e.input with
  | .publish .. => owner
  | .getOffset stream consumer =>
    if adopts stream consumer e.pre then
      Function.update owner (consumer, stream) (owner (stream, consumer))
    else owner
  | .saveOffset stream consumer _ =>
    match e.output with
    | .saved true => Function.update owner (consumer, stream) stream
    | _ =>
      if adopts stream consumer e.pre then
        Function.update owner (consumer, stream) (owner (stream, consumer))
      else owner

def owners (owner : String × String → String) (h : List Event) : String × String → String :=
  h.foldl ownerAfter owner

section Resolve

variable {log : StreamLog} {stream consumer : String} {db : StreamDb} {offset : ℤ}

theorem mem_ofTopic {e : StreamEvent} : e ∈ log.ofTopic stream ↔ e ∈ log.rows ∧ e.topic = stream := by
  simp [StreamLog.ofTopic]

/-- No two events have one offset, so the lookup by offset finds the event of the stream. -/
theorem eventTopic_iff :
    (log.rows.find? fun e ↦ e.offset = offset).map StreamEvent.topic = some stream ↔
      ∃ e ∈ log.ofTopic stream, e.offset = offset := by
  constructor
  · intro h
    obtain ⟨e, he, htopic⟩ := Option.map_eq_some_iff.mp h
    have hoffset : e.offset = offset := by simpa using List.find?_some he
    exact ⟨e, mem_ofTopic.mpr ⟨List.mem_of_find?_eq_some he, htopic⟩, hoffset⟩
  · intro h
    obtain ⟨e, he, hoffset⟩ := h
    obtain ⟨he, htopic⟩ := mem_ofTopic.mp he
    cases hfind : log.rows.find? fun e ↦ e.offset = offset with
    | none => exact absurd hoffset (by simpa using List.find?_eq_none.mp hfind e he)
    | some e' =>
      have hoffset' : e'.offset = offset := by simpa using List.find?_some hfind
      have hsame := log.increasing.inj (List.mem_of_find?_eq_some hfind) he (hoffset'.trans hoffset.symm)
      rw [Option.map_some, hsame, htopic]

theorem Backed.unique {t : String} (h : Backed log t offset) (h' : Backed log stream offset)
    (hne : offset ≠ 0) : t = stream := by
  obtain ⟨e, he, hoffset⟩ := h.resolve_left hne
  obtain ⟨e', he', hoffset'⟩ := h'.resolve_left hne
  obtain ⟨hrow, htopic⟩ := mem_ofTopic.mp he
  obtain ⟨hrow', htopic'⟩ := mem_ofTopic.mp he'
  rw [← htopic, ← htopic', log.increasing.inj hrow hrow' (hoffset.trans hoffset'.symm)]

/-- The four ways a checkpoint is resolved. -/
theorem resolve_cases (stream consumer : String) (db : StreamDb) (allow : Bool) :
    (∃ r, db.consumers.find? (consumer, stream) = some r ∧
      resolveCheckpointTx consumer stream db allow = .ok (r.offset, db)) ∨
    (db.consumers.find? (consumer, stream) = none ∧ db.consumers.find? (stream, consumer) = none ∧
      resolveCheckpointTx consumer stream db allow = .ok (0, db)) ∨
    (∃ legacy, db.consumers.find? (consumer, stream) = none ∧
      db.consumers.find? (stream, consumer) = some legacy ∧ Backed db.stream stream legacy.offset ∧
      resolveCheckpointTx consumer stream db allow =
        .ok (legacy.offset, db.insertCheckpoint consumer stream legacy.offset)) ∨
    ∃ legacy, db.consumers.find? (consumer, stream) = none ∧
      db.consumers.find? (stream, consumer) = some legacy ∧ ¬ Backed db.stream stream legacy.offset ∧
      resolveCheckpointTx consumer stream db allow =
        if allow then .ok (0, db) else .error ⟨stream, consumer, legacy.offset⟩ := by
  rw [resolveCheckpointTx]
  cases hown : db.consumers.find? (consumer, stream) with
  | some r => exact Or.inl ⟨r, rfl, rfl⟩
  | none =>
    cases hlegacy : db.consumers.find? (stream, consumer) with
    | none => exact Or.inr (Or.inl ⟨rfl, rfl, rfl⟩)
    | some legacy =>
      have hcheck : (legacy.offset ≠ 0 ∧ (db.stream.rows.find? fun e ↦ e.offset = legacy.offset).map
          StreamEvent.topic ≠ some stream) ↔ ¬ Backed db.stream stream legacy.offset := by
        rw [Backed, not_or, ← eventTopic_iff]
      dsimp only
      by_cases hbacked : Backed db.stream stream legacy.offset
      · refine Or.inr (Or.inr (Or.inl ⟨legacy, rfl, rfl, hbacked, ?_⟩))
        rw [if_neg fun h ↦ hcheck.mp h hbacked]
      · refine Or.inr (Or.inr (Or.inr ⟨legacy, rfl, rfl, hbacked, ?_⟩))
        rw [if_pos (hcheck.mpr hbacked)]

theorem adopts_iff : adopts stream consumer db = true ↔
    db.consumers.find? (consumer, stream) = none ∧
      ∃ legacy, db.consumers.find? (stream, consumer) = some legacy ∧
        Backed db.stream stream legacy.offset := by
  unfold adopts
  rcases resolve_cases stream consumer db true with ⟨r, hown, hres⟩ | ⟨hown, hnone, hres⟩ |
    ⟨legacy, hown, hlegacy, hbacked, hres⟩ | ⟨legacy, hown, hlegacy, hbacked, hres⟩
  · simp [hown]
  · simp [hown, hres, hnone]
  · have hinsert : (db.insertCheckpoint consumer stream legacy.offset).consumers.find?
        (consumer, stream) = some ⟨consumer, stream, legacy.offset⟩ := Table.find?_insertNew hown
    simp [hown, hres, hlegacy, hbacked, hinsert]
  · simp [hown, hres, hlegacy, hbacked]

theorem changed_iff {consumers : ConsumerTable} :
    (streamSaveOffset consumer stream offset consumers).1 = 1 ↔
      ∀ r, consumers.find? (consumer, stream) = some r → r.offset < offset := by
  rw [streamSaveOffset]
  split_ifs with hmem
  · obtain ⟨r, hr⟩ := Option.isSome_iff_exists.mp (Table.find?_isSome.mpr hmem)
    obtain ⟨hrow, hkey⟩ := Table.find?_eq_some.mp hr
    have hbehind : 0 < (consumers.rows.filter fun r ↦
        decide (r.key = (consumer, stream) ∧ r.offset < offset)).length ↔ r.offset < offset := by
      rw [List.length_pos_iff_exists_mem]
      constructor
      · rintro ⟨r', hr'⟩
        obtain ⟨hrow', hr'⟩ := List.mem_filter.mp hr'
        obtain ⟨hkey', hlt⟩ := of_decide_eq_true hr'
        rw [Table.key_inj hrow hrow' (hkey.trans hkey'.symm)]
        exact hlt
      · exact fun hlt ↦ ⟨r, List.mem_filter.mpr ⟨hrow, decide_eq_true ⟨hkey, hlt⟩⟩⟩
    rw [hr]
    simp only [hbehind, Option.some.injEq, forall_eq']
    split_ifs with hlt
    · exact iff_of_true rfl hlt
    · exact iff_of_false (by decide) hlt
  · have hnone : consumers.find? (consumer, stream) = none := Table.find?_eq_none.mpr hmem
    simp [hnone]

end Resolve

/-- What a call does to the row of `key`, and to the stream that its checkpoint was consumed from. -/
inductive Moves (e : Event) (key : String × String) : Prop
  | kept (row : e.post.consumers.find? key = e.pre.consumers.find? key)
      (own : ∀ owner, ownerAfter owner e key = owner key)
  | adopted (stream consumer : String) (legacy : ConsumerRow)
      (pair : e.input.pair = some (stream, consumer)) (here : key = (consumer, stream))
      (absent : e.pre.consumers.find? key = none)
      (found : e.pre.consumers.find? (stream, consumer) = some legacy)
      (row : e.post.consumers.find? key = some ⟨consumer, stream, legacy.offset⟩)
      (own : ∀ owner, ownerAfter owner e key = owner (stream, consumer))
  | saved (stream consumer : String) (offset : ℤ) (input : e.input = .saveOffset stream consumer offset)
      (here : key = (consumer, stream))
      (ahead : ∀ r, e.pre.consumers.find? key = some r → r.offset < offset)
      (row : e.post.consumers.find? key = some ⟨consumer, stream, offset⟩)
      (own : ∀ owner, ownerAfter owner e key = stream)

section Step

variable {stream consumer : String} {db : StreamDb} {offset : ℤ}

theorem find?_insertCheckpoint_of_ne {key : String × String} (h : key ≠ (consumer, stream)) :
    (db.insertCheckpoint consumer stream offset).consumers.find? key = db.consumers.find? key :=
  Table.find?_insertNew_of_ne h.symm

theorem adopts_eq_false (h : ¬ (db.consumers.find? (consumer, stream) = none ∧
      ∃ legacy, db.consumers.find? (stream, consumer) = some legacy ∧
        Backed db.stream stream legacy.offset)) : adopts stream consumer db = false := by
  rw [← Bool.not_eq_true, adopts_iff]
  exact h

theorem moves_getOffset (stream consumer : String) (db : StreamDb) (key : String × String) :
    Moves (event step db (.getOffset stream consumer)) key := by
  have hquiet (hnot : adopts stream consumer db = false)
      (hpost : (step db (.getOffset stream consumer)).2 = db) :
      Moves (event step db (.getOffset stream consumer)) key := by
    refine .kept ?_ fun owner ↦ ?_
    · simp only [event, hpost]
    · simp [ownerAfter, event, hnot]
  rcases resolve_cases stream consumer db false with ⟨r, hown, hres⟩ | ⟨hown, hnone, hres⟩ |
    ⟨legacy, hown, hlegacy, hbacked, hres⟩ | ⟨legacy, hown, hlegacy, hbacked, hres⟩
  · exact hquiet (adopts_eq_false (by simp [hown])) (by simp [step, nodeGetOffset, hres])
  · exact hquiet (adopts_eq_false (by simp [hnone])) (by simp [step, nodeGetOffset, hres])
  · have hadopts : adopts stream consumer db = true := adopts_iff.mpr ⟨hown, legacy, hlegacy, hbacked⟩
    have hpost : (step db (.getOffset stream consumer)).2 =
        db.insertCheckpoint consumer stream legacy.offset := by
      simp [step, nodeGetOffset, hres]
    by_cases hkey : key = (consumer, stream)
    · refine .adopted stream consumer legacy rfl hkey (hkey ▸ hown) hlegacy ?_ fun owner ↦ ?_
      · simp only [event, hpost, hkey]
        exact Table.find?_insertNew hown
      · simp [ownerAfter, event, hadopts, hkey]
    · refine .kept ?_ fun owner ↦ ?_
      · simp only [event, hpost]
        exact find?_insertCheckpoint_of_ne hkey
      · simp [ownerAfter, event, hadopts, hkey]
  · exact hquiet (adopts_eq_false (by simp [hlegacy, hbacked])) (by simp [step, nodeGetOffset, hres])

/-- A save resolves the checkpoint without an error. -/
theorem resolve_allowed (stream consumer : String) (db : StreamDb) :
    ∃ n db', resolveCheckpointTx consumer stream db true = .ok (n, db') ∧
      (adopts stream consumer db = false ∧ db' = db ∨
        ∃ legacy, adopts stream consumer db = true ∧ db.consumers.find? (consumer, stream) = none ∧
          db.consumers.find? (stream, consumer) = some legacy ∧
          db' = db.insertCheckpoint consumer stream legacy.offset) := by
  rcases resolve_cases stream consumer db true with ⟨r, hown, hres⟩ | ⟨hown, hnone, hres⟩ |
    ⟨legacy, hown, hlegacy, hbacked, hres⟩ | ⟨legacy, hown, hlegacy, hbacked, hres⟩
  · exact ⟨_, _, hres, Or.inl ⟨adopts_eq_false (by simp [hown]), rfl⟩⟩
  · exact ⟨_, _, hres, Or.inl ⟨adopts_eq_false (by simp [hnone]), rfl⟩⟩
  · exact ⟨_, _, hres, Or.inr ⟨legacy, adopts_iff.mpr ⟨hown, legacy, hlegacy, hbacked⟩, hown, hlegacy,
      rfl⟩⟩
  · exact ⟨_, _, hres, Or.inl ⟨adopts_eq_false (by simp [hlegacy, hbacked]), rfl⟩⟩

theorem saveOffset_row (stream consumer : String) (offset : ℤ) (consumers : ConsumerTable) :
    (streamSaveOffset consumer stream offset consumers).1 = 1 ∧
      (streamSaveOffset consumer stream offset consumers).2.find? (consumer, stream) =
        some ⟨consumer, stream, offset⟩ ∨
    (streamSaveOffset consumer stream offset consumers).1 ≠ 1 ∧
      (streamSaveOffset consumer stream offset consumers).2.find? (consumer, stream) =
        consumers.find? (consumer, stream) := by
  rw [find?_streamSaveOffset]
  by_cases hchanged : (streamSaveOffset consumer stream offset consumers).1 = 1
  · refine Or.inl ⟨hchanged, ?_⟩
    cases hr : consumers.find? (consumer, stream) with
    | none => rfl
    | some r => rw [Option.map_some, Option.getD_some, max_eq_right (changed_iff.mp hchanged r hr).le]
  · refine Or.inr ⟨hchanged, ?_⟩
    rw [changed_iff] at hchanged
    push Not at hchanged
    obtain ⟨r, hr, hle⟩ := hchanged
    obtain ⟨hname, htopic⟩ := Prod.mk.inj (Table.find?_eq_some.mp hr).2
    rw [hr, Option.map_some, Option.getD_some, max_eq_left hle, ← hname, ← htopic]

theorem moves_saveOffset (stream consumer : String) (offset : ℤ) (db : StreamDb)
    (key : String × String) : Moves (event step db (.saveOffset stream consumer offset)) key := by
  obtain ⟨n, db', hres, hdb'⟩ := resolve_allowed stream consumer db
  have hpost : (step db (.saveOffset stream consumer offset)).2.consumers =
      (streamSaveOffset consumer stream offset db'.consumers).2 := by
    simp [step, hres]
  have hout : (step db (.saveOffset stream consumer offset)).1 =
      .saved (decide ((streamSaveOffset consumer stream offset db'.consumers).1 = 1)) := by
    simp [step, hres]
  by_cases hkey : key = (consumer, stream)
  · subst hkey
    rcases saveOffset_row stream consumer offset db'.consumers with ⟨hchanged, hrow⟩ | ⟨hsame, hrow⟩
    · refine .saved stream consumer offset rfl rfl (fun r hr ↦ ?_) ?_ fun owner ↦ ?_
      · rcases hdb' with ⟨-, heq⟩ | ⟨legacy, -, hnone, -⟩
        · rw [heq] at hchanged
          exact changed_iff.mp hchanged r hr
        · cases hnone.symm.trans hr
      · simp only [event, hpost, hrow]
      · simp [ownerAfter, event, hout, hchanged]
    · rcases hdb' with ⟨hnot, rfl⟩ | ⟨legacy, hadopts, hnone, hlegacy, rfl⟩
      · refine .kept ?_ fun owner ↦ ?_
        · simp only [event, hpost, hrow]
        · simp [ownerAfter, event, hout, hsame, hnot]
      · refine .adopted stream consumer legacy rfl rfl hnone hlegacy ?_ fun owner ↦ ?_
        · simp only [event, hpost, hrow]
          exact Table.find?_insertNew hnone
        · simp [ownerAfter, event, hout, hsame, hadopts]
  · refine .kept ?_ fun owner ↦ ?_
    · simp only [event, hpost]
      rw [find?_streamSaveOffset_of_ne _ _ _ hkey]
      rcases hdb' with ⟨-, rfl⟩ | ⟨legacy, -, -, -, rfl⟩
      · rfl
      · exact find?_insertCheckpoint_of_ne hkey
    · cases hchanged : decide ((streamSaveOffset consumer stream offset db'.consumers).1 = 1) <;>
        cases hadopts : adopts stream consumer db <;>
        simp [ownerAfter, event, hout, hchanged, hadopts, hkey]

theorem moves (db : StreamDb) (c : Call) (key : String × String) : Moves (event step db c) key := by
  cases c with
  | getOffset stream consumer => exact moves_getOffset stream consumer db key
  | saveOffset stream consumer offset => exact moves_saveOffset stream consumer offset db key
  | publish stream k payload now => exact .kept rfl fun _ ↦ rfl

/-- A call on a checkpoint reads the events and leaves them alone. -/
theorem stream_step {c : Call} (hc : c.pair = some (stream, consumer)) :
    (step db c).2.stream = db.stream := by
  cases c with
  | getOffset stream consumer =>
    rcases resolve_cases stream consumer db false with ⟨r, hown, hres⟩ | ⟨hown, hnone, hres⟩ |
      ⟨legacy, hown, hlegacy, hbacked, hres⟩ | ⟨legacy, hown, hlegacy, hbacked, hres⟩ <;>
      simp [step, nodeGetOffset, hres, StreamDb.insertCheckpoint]
  | saveOffset stream consumer offset =>
    obtain ⟨n, db', hres, hdb'⟩ := resolve_allowed stream consumer db
    rcases hdb' with ⟨-, rfl⟩ | ⟨legacy, -, -, -, rfl⟩ <;>
      simp [step, hres, StreamDb.insertCheckpoint]
  | publish => cases hc

theorem exists_ofTopic_step (db : StreamDb) (c : Call) (t : String) :
    ∃ rows, (step db c).2.stream.ofTopic t = db.stream.ofTopic t ++ rows := by
  cases hc : c.pair with
  | some pair => exact ⟨[], by rw [stream_step hc, List.append_nil]⟩
  | none =>
    cases c with
    | getOffset => cases hc
    | saveOffset => cases hc
    | publish stream k payload now => exact db.exists_ofTopic_publish t stream k payload now

theorem Backed.step {t : String} (h : Backed db.stream t offset) (c : Call) :
    Backed (step db c).2.stream t offset := by
  obtain ⟨rows, hrows⟩ := exists_ofTopic_step db c t
  refine h.imp_right fun ⟨e, he, hoffset⟩ ↦ ⟨e, ?_, hoffset⟩
  rw [hrows]
  exact List.mem_append_left _ he

end Step

section Run

variable {db : StreamDb} {owner : String × String → String}

/-- Every checkpoint that is not `0` is the offset of an event of the stream it was consumed from. -/
def Sound (owner : String × String → String) (db : StreamDb) : Prop :=
  ∀ key r, db.consumers.find? key = some r → Backed db.stream (owner key) r.offset

/-- A save is at `0` or at an event of its own stream. -/
def Honest (db : StreamDb) : Call → Prop
  | .saveOffset stream _ offset => Backed db.stream stream offset
  | _ => True

theorem Sound.step (h : Sound owner db) {c : Call} (hc : Honest db c) :
    Sound (ownerAfter owner (event step db c)) (step db c).2 := by
  intro key r hr
  rcases moves db c key with ⟨hrow, hown⟩ | ⟨stream, consumer, legacy, -, -, -, hfound, hrow, hown⟩ |
    ⟨stream, consumer, offset, hinput, -, -, hrow, hown⟩
  · rw [hown]
    exact (h key r (hrow.symm.trans hr)).step c
  · rw [hown]
    cases hrow.symm.trans hr
    exact (h _ legacy hfound).step c
  · rw [hown]
    cases hrow.symm.trans hr
    have hinput : c = .saveOffset stream consumer offset := hinput
    rw [hinput] at hc
    exact Backed.step hc c

theorem sound_run (calls : List Call) (h : Sound owner db) (hcalls : Along step Honest db calls) :
    Sound (owners owner (trace step db calls)) (final step db calls) := by
  refine along_induction (P := fun h db ↦ Sound (owners owner h) db) step db h
    (fun h db c hc hsound ↦ ?_) calls hcalls
  rw [owners, List.foldl_append]
  exact Sound.step hsound hc

/-- A row stays, and its offset never goes down. -/
theorem offset_run (calls : List Call) {key : String × String} {r : ConsumerRow}
    (h : db.consumers.find? key = some r) :
    ∃ r', (final step db calls).consumers.find? key = some r' ∧ r.offset ≤ r'.offset := by
  refine final_invariant (P := fun db' ↦ ∃ r', db'.consumers.find? key = some r' ∧ r.offset ≤ r'.offset)
    step db ⟨r, h, le_rfl⟩ (fun db' c ih ↦ ?_) calls
  obtain ⟨r', hr', hle⟩ := ih
  rcases moves db' c key with ⟨hrow, -⟩ | ⟨-, -, -, -, -, hnone, -⟩ | ⟨_, _, offset, -, -, hahead, hrow, -⟩
  · exact ⟨r', hrow.trans hr', hle⟩
  · cases hnone.symm.trans hr'
  · exact ⟨_, hrow, hle.trans (hahead r' hr').le⟩

/-- The call makes the canonical row of the pair out of the transposed one. -/
def Adopts (stream consumer : String) (e : Event) : Prop :=
  e.input.pair = some (stream, consumer) ∧ adopts stream consumer e.pre = true

theorem Adopts.row {stream consumer : String} {c : Call}
    (h : Adopts stream consumer (event step db c)) :
    ((step db c).2.consumers.find? (consumer, stream)).isSome := by
  obtain ⟨hpair, hadopts⟩ := h
  obtain ⟨hnone, legacy, hlegacy, hbacked⟩ := adopts_iff.mp hadopts
  cases c with
  | publish => cases hpair
  | getOffset s c =>
    cases hpair
    rcases resolve_cases stream consumer db false with ⟨r, hown, -⟩ | ⟨-, habsent, -⟩ |
      ⟨legacy', -, -, -, hres⟩ | ⟨legacy', -, hlegacy', hnot, -⟩
    · cases hnone.symm.trans hown
    · cases habsent.symm.trans hlegacy
    · simp only [step, nodeGetOffset, hres]
      rw [StreamDb.insertCheckpoint, Table.find?_insertNew hnone]
      rfl
    · cases hlegacy.symm.trans hlegacy'
      exact absurd hbacked hnot
  | saveOffset s c offset =>
    cases hpair
    obtain ⟨n, db', hres, -⟩ := resolve_allowed stream consumer db
    simp only [step, hres]
    exact isSome_find?_streamSaveOffset ..

end Run

/-- What `getOffset` answers and leaves. -/
structure Reads (stream consumer : String) (db : StreamDb) : Prop where
  canonical : ∀ r, db.consumers.find? (consumer, stream) = some r →
    step db (.getOffset stream consumer) = (.offset r.offset, db)
  absent : db.consumers.find? (consumer, stream) = none →
    db.consumers.find? (stream, consumer) = none →
    step db (.getOffset stream consumer) = (.offset 0, db)
  adopted : ∀ legacy, db.consumers.find? (consumer, stream) = none →
    db.consumers.find? (stream, consumer) = some legacy → Backed db.stream stream legacy.offset →
    (step db (.getOffset stream consumer)).1 = .offset legacy.offset ∧
      (step db (.getOffset stream consumer)).2.consumers.find? (consumer, stream) =
        some ⟨consumer, stream, legacy.offset⟩
  thrown : ∀ legacy, db.consumers.find? (consumer, stream) = none →
    db.consumers.find? (stream, consumer) = some legacy → ¬ Backed db.stream stream legacy.offset →
    step db (.getOffset stream consumer) = (.thrown ⟨stream, consumer, legacy.offset⟩, db)

theorem reads (stream consumer : String) (db : StreamDb) : Reads stream consumer db := by
  rcases resolve_cases stream consumer db false with ⟨r, hown, hres⟩ | ⟨hown, hnone, hres⟩ |
    ⟨legacy, hown, hlegacy, hbacked, hres⟩ | ⟨legacy, hown, hlegacy, hbacked, hres⟩
  · refine ⟨fun r' hr' ↦ ?_, ?_, ?_, ?_⟩
    · cases hown.symm.trans hr'
      simp [step, nodeGetOffset, hres]
    · simp [hown]
    · simp [hown]
    · simp [hown]
  · refine ⟨?_, fun _ _ ↦ ?_, ?_, ?_⟩
    · simp [hown]
    · simp [step, nodeGetOffset, hres]
    · simp [hnone]
    · simp [hnone]
  · refine ⟨?_, ?_, fun legacy' _ hlegacy' _ ↦ ?_, fun legacy' _ hlegacy' hnot ↦ ?_⟩
    · simp [hown]
    · simp [hlegacy]
    · cases hlegacy.symm.trans hlegacy'
      simp only [step, nodeGetOffset, hres, true_and]
      exact Table.find?_insertNew hown
    · cases hlegacy.symm.trans hlegacy'
      exact absurd hbacked hnot
  · refine ⟨?_, ?_, fun legacy' _ hlegacy' hnot ↦ ?_, fun legacy' _ hlegacy' _ ↦ ?_⟩
    · simp [hown]
    · simp [hlegacy]
    · cases hlegacy.symm.trans hlegacy'
      exact absurd hnot hbacked
    · cases hlegacy.symm.trans hlegacy'
      simp [step, nodeGetOffset, hres]

/-- A call on a pair changes the canonical row of the pair and nothing else. -/
theorem frame_step {stream consumer : String} {db : StreamDb} {c : Call}
    (hc : c.pair = some (stream, consumer)) {key : String × String} (hkey : key ≠ (consumer, stream)) :
    (step db c).2.consumers.find? key = db.consumers.find? key := by
  rcases moves db c key with ⟨hrow, -⟩ | ⟨s, k, -, hpair, here, -⟩ | ⟨s, k, offset, hinput, here, -⟩
  · exact hrow
  · cases hc.symm.trans hpair
    exact absurd here hkey
  · have hinput : c = .saveOffset s k offset := hinput
    rw [hinput] at hc
    cases hc
    exact absurd here hkey

/-- For every contents of the tables, stream, consumer and sequence of calls: `getOffset` answers as
`Reads` says, a call touches the canonical row of its pair only, whose offset never goes down, a
checkpoint is adopted once, and where every checkpoint was saved at an event of the stream it was
consumed from, a non-zero one is adopted by that stream only. -/
theorem checkpoint_migration (db : StreamDb) (calls : List Call) (stream consumer : String) :
    Reads stream consumer db ∧
    (∀ c, c.pair = some (stream, consumer) → (step db c).2.stream = db.stream ∧
      ∀ key, key ≠ (consumer, stream) →
        (step db c).2.consumers.find? key = db.consumers.find? key) ∧
    (∀ r, db.consumers.find? (consumer, stream) = some r →
      ∃ r', (final step db calls).consumers.find? (consumer, stream) = some r' ∧
        r.offset ≤ r'.offset) ∧
    (∀ h₁ e h₂, trace step db calls = h₁ ++ e :: h₂ → Adopts stream consumer e →
      ∀ e' ∈ h₂, ¬ Adopts stream consumer e') ∧
    ∀ owner, Sound owner db → Along step Honest db calls → ∀ h₁ e h₂ legacy,
      trace step db calls = h₁ ++ e :: h₂ → Adopts stream consumer e →
      e.pre.consumers.find? (stream, consumer) = some legacy → legacy.offset ≠ 0 →
      owners owner h₁ (stream, consumer) = stream ∧ stream ≠ consumer := by
  refine ⟨reads stream consumer db, fun c hc ↦ ⟨stream_step hc, fun key ↦ frame_step hc⟩,
    fun r ↦ offset_run calls, fun h₁ e h₂ heq hadopts e' he' hadopts' ↦ ?_,
    fun owner hsound hhonest h₁ e h₂ legacy heq hadopts hlegacy hne ↦ ?_⟩
  · obtain ⟨before, c, after, rfl, rfl, rfl⟩ := trace_split step heq
    rw [trace_append] at heq
    cases List.append_cancel_left heq
    obtain ⟨later, c', -, -, rfl⟩ := mem_trace step he'
    -- The row that the first adoption made is still there.
    obtain ⟨r, hr⟩ := Option.isSome_iff_exists.mp hadopts.row
    obtain ⟨r', hr', -⟩ := offset_run later hr
    cases hr'.symm.trans (adopts_iff.mp hadopts'.2).1
  · obtain ⟨before, c, after, rfl, rfl, rfl⟩ := trace_split step heq
    obtain ⟨hnone, legacy', hlegacy', hbacked⟩ := adopts_iff.mp hadopts.2
    cases hlegacy.symm.trans hlegacy'
    refine ⟨(sound_run before hsound (along_split hhonest).1 _ legacy hlegacy).unique hbacked hne, ?_⟩
    rintro rfl
    cases hnone.symm.trans hlegacy

/-- One event of stream `s`, and the row of an earlier version in which its consumer `c` has saved it. -/
def legacyDb : StreamDb := (StreamDb.empty.publish "s" none "1" (.near 100)).saveOffset "s" "c" 1

/-- Another consumer saves, then the earlier checkpoint is adopted, by the stream it was consumed
from. -/
theorem checkpoint_migration_legacy :
    owners (fun _ ↦ "s") (trace step legacyDb [.saveOffset "c" "d" 0]) ("s", "c") = "s" ∧
      (final step legacyDb [.saveOffset "c" "d" 0, .getOffset "s" "c"]).consumers.find? ("c", "s") =
        some ⟨"c", "s", 1⟩ := by
  have hsound : Sound (fun _ ↦ "s") legacyDb := by
    intro key r hr
    exact (by decide : ∀ r ∈ legacyDb.consumers.rows, Backed legacyDb.stream "s" r.offset) r
      (Table.find?_eq_some.mp hr).1
  have hhonest : Along step Honest legacyDb [.saveOffset "c" "d" 0, .getOffset "s" "c"] := by
    intro e he
    simp only [trace, List.mem_cons, List.not_mem_nil, or_false] at he
    rcases he with rfl | rfl
    · exact Or.inl rfl
    · trivial
  obtain ⟨-, -, -, -, howner⟩ :=
    checkpoint_migration legacyDb [.saveOffset "c" "d" 0, .getOffset "s" "c"] "s" "c"
  exact ⟨(howner _ hsound hhonest [_] _ [] ⟨"s", "c", 1⟩ rfl ⟨rfl, by decide⟩ (by decide) (by decide)).1,
    by decide⟩

/-- A consumer of the reversed pair, with its own stream, saves `0`; then the offset of the pair is
read. -/
def reversedZero : List Call := [.saveOffset "c" "s" 0, .getOffset "s" "c"]

/-- The checkpoint `0` of the reversed pair is adopted. -/
theorem zero_checkpoint_adopted :
    Along step Honest StreamDb.empty reversedZero ∧
    owners Prod.snd (trace step StreamDb.empty [.saveOffset "c" "s" 0]) ("s", "c") = "c" ∧
    Adopts "s" "c" (event step (final step StreamDb.empty [.saveOffset "c" "s" 0])
      (.getOffset "s" "c")) ∧
    (final step StreamDb.empty reversedZero).consumers.find? ("c", "s") = some ⟨"c", "s", 0⟩ := by
  refine ⟨fun e he ↦ ?_, by decide, ⟨rfl, by decide⟩, by decide⟩
  simp only [reversedZero, trace, List.mem_cons, List.not_mem_nil, or_false] at he
  rcases he with rfl | rfl
  · exact Or.inl rfl
  · trivial

end Honker.Checkpoint
