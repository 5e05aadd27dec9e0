import Honker.Schema
import Honker.Library.Consumer

namespace Honker

open Relational

/-- A row of `_honker_stream`. -/
structure StreamEvent where
  offset : ℤ
  topic : String
  key : Option String
  payload : String
  createdAt : ℤ
deriving DecidableEq

/-- `_honker_stream` with its `AUTOINCREMENT` counter, in the order of the offsets. No statement deletes
from it. -/
structure StreamLog where
  rows : List StreamEvent
  seq : ℤ
  increasing : Log.Increasing StreamEvent.offset rows
  pos : ∀ e ∈ rows, 0 < e.offset
  bounded : ∀ e ∈ rows, e.offset ≤ seq
  nonneg : 0 ≤ seq

namespace StreamLog

def empty : StreamLog := ⟨[], 0, List.Pairwise.nil, by simp, by simp, le_rfl⟩

def append (log : StreamLog) (topic : String) (key : Option String) (payload : String) (now : Clock) :
    StreamLog where
  rows := log.rows ++ [⟨log.seq + 1, topic, key, payload, now⟩]
  seq := log.seq + 1
  increasing := by
    refine List.pairwise_append.mpr ⟨log.increasing, List.pairwise_singleton _ _, fun a ha b hb ↦ ?_⟩
    rw [List.mem_singleton.mp hb]
    exact Int.lt_add_one_of_le (log.bounded a ha)
  pos := by
    intro e he
    rcases List.mem_append.mp he with he | he
    · exact log.pos e he
    · rw [List.mem_singleton.mp he]
      exact Int.lt_add_one_of_le log.nonneg
  bounded := by
    intro e he
    rcases List.mem_append.mp he with he | he
    · exact (log.bounded e he).trans (by omega)
    · rw [List.mem_singleton.mp he]
  nonneg := log.nonneg.trans (by omega)

def ofTopic (log : StreamLog) (topic : String) : List StreamEvent :=
  log.rows.filter fun e ↦ e.topic = topic

theorem increasing_ofTopic (log : StreamLog) (topic : String) :
    Log.Increasing StreamEvent.offset (log.ofTopic topic) :=
  log.increasing.sublist List.filter_sublist

theorem pos_ofTopic (log : StreamLog) (topic : String) : ∀ e ∈ log.ofTopic topic, 0 < e.offset :=
  fun e he ↦ log.pos e (List.mem_of_mem_filter he)

theorem ofTopic_append (log : StreamLog) (t topic : String) (key : Option String) (payload : String)
    (now : Clock) : ∃ rows, (log.append topic key payload now).ofTopic t = log.ofTopic t ++ rows :=
  ⟨_, List.filter_append ..⟩

end StreamLog

/-- Past the greatest rowid, `AUTOINCREMENT` refuses the row. -/
def streamPublish (topic : String) (key : Option String) (payload : String) (now : Clock)
    (log : StreamLog) : Except SqlError ℤ × StreamLog :=
  if log.seq + 1 < 2 ^ 63 then (.ok (log.seq + 1), log.append topic key payload now)
  else (.error (.statement "database or disk is full"), log)

def streamReadSince (topic : String) (offset : ℤ) (limit : ℕ) (log : StreamLog) : List StreamEvent :=
  Log.batch StreamEvent.offset limit offset (log.ofTopic topic)

/-- A row of `_honker_stream_consumers`. -/
structure ConsumerRow where
  name : String
  topic : String
  offset : ℤ
deriving DecidableEq

abbrev ConsumerRow.key (r : ConsumerRow) : String × String := (r.name, r.topic)

abbrev ConsumerTable := Table ConsumerRow.key

/-- The upsert moves an offset forward only. -/
def streamSaveOffset (consumer topic : String) (offset : ℤ) (consumers : ConsumerTable) :
    ℤ × ConsumerTable :=
  if h : (consumer, topic) ∈ consumers.rows.map ConsumerRow.key then
    let behind (r : ConsumerRow) : Bool := r.key = (consumer, topic) ∧ r.offset < offset
    let changed := (consumers.rows.filter behind).length
    (if 0 < changed then 1 else 0,
      consumers.update behind (fun r ↦ { r with offset := offset }) fun _ ↦ rfl)
  else (1, consumers.insert ⟨consumer, topic, offset⟩ h)

def streamGetOffset (consumer topic : String) (consumers : ConsumerTable) : ℤ :=
  ((consumers.find? (consumer, topic)).map ConsumerRow.offset).getD 0

section Offsets

variable (consumer topic : String) (consumers : ConsumerTable)

/-- The row that the upsert leaves. -/
theorem find?_streamSaveOffset (offset : ℤ) :
    (streamSaveOffset consumer topic offset consumers).2.find? (consumer, topic) =
      some ⟨consumer, topic, ((consumers.find? (consumer, topic)).map
        fun r ↦ max r.offset offset).getD offset⟩ := by
  rw [streamSaveOffset]
  split_ifs with hmem
  · obtain ⟨r, hr⟩ := Option.isSome_iff_exists.mp (Table.find?_isSome.mpr hmem)
    have hkey : r.key = (consumer, topic) := (Table.find?_eq_some.mp hr).2
    rw [Table.find?_update, hr]
    simp only [Option.map_some, Option.getD_some, hkey, true_and, decide_eq_true_eq]
    obtain ⟨hname, htopic⟩ := Prod.mk.inj hkey
    split_ifs with hlt
    · rw [max_eq_right hlt.le, ← hname, ← htopic]
    · rw [max_eq_left (not_lt.mp hlt), ← hname, ← htopic]
  · have hnone : consumers.find? (consumer, topic) = none := Table.find?_eq_none.mpr hmem
    rw [Table.find?_insert, if_pos rfl, hnone]
    rfl

theorem find?_streamSaveOffset_of_ne {key : String × String} (h : key ≠ (consumer, topic))
    (offset : ℤ) :
    (streamSaveOffset consumer topic offset consumers).2.find? key = consumers.find? key := by
  rw [streamSaveOffset]
  split_ifs with hmem
  · rw [Table.find?_update]
    cases hr : consumers.find? key with
    | none => rfl
    | some r =>
      have hkey : r.key ≠ (consumer, topic) := (Table.find?_eq_some.mp hr).2 ▸ h
      rw [Option.map_some, if_neg (by simp [hkey])]
  · rw [Table.find?_insert, if_neg h.symm]

theorem streamGetOffset_streamSaveOffset {offset : ℤ}
    (h : streamGetOffset consumer topic consumers ≤ offset) :
    streamGetOffset consumer topic (streamSaveOffset consumer topic offset consumers).2 = offset := by
  unfold streamGetOffset at h ⊢
  rw [find?_streamSaveOffset]
  cases hr : consumers.find? (consumer, topic) with
  | none => rfl
  | some r =>
    rw [hr] at h
    exact max_eq_right h

theorem streamGetOffset_streamSaveOffset_of_ne {name t : String} (h : (name, t) ≠ (consumer, topic))
    (offset : ℤ) : streamGetOffset consumer topic (streamSaveOffset name t offset consumers).2 =
      streamGetOffset consumer topic consumers := by
  unfold streamGetOffset
  rw [find?_streamSaveOffset_of_ne _ _ _ h.symm]

theorem isSome_find?_streamSaveOffset (offset : ℤ) :
    ((streamSaveOffset consumer topic offset consumers).2.find? (consumer, topic)).isSome := by
  rw [find?_streamSaveOffset]
  rfl

end Offsets

/-- The tables behind the streams. -/
structure StreamDb where
  stream : StreamLog
  consumers : ConsumerTable

namespace StreamDb

def empty : StreamDb := ⟨.empty, .empty⟩

def publish (db : StreamDb) (topic : String) (key : Option String) (payload : String) (now : Clock) :
    StreamDb :=
  { db with stream := (streamPublish topic key payload now db.stream).2 }

def saveOffset (db : StreamDb) (consumer topic : String) (offset : ℤ) : StreamDb :=
  { db with consumers := (streamSaveOffset consumer topic offset db.consumers).2 }

def getOffset (db : StreamDb) (consumer topic : String) : ℤ :=
  streamGetOffset consumer topic db.consumers

def readSince (db : StreamDb) (topic : String) (offset : ℤ) (limit : ℕ) : List StreamEvent :=
  streamReadSince topic offset limit db.stream

/-- What the tables are to one consumer of a topic and its reader. -/
def view (db : StreamDb) (consumer topic : String) (finished : List StreamEvent)
    (cursor : Option (Consumer.Cursor StreamEvent ℤ)) : Consumer.State StreamEvent ℤ :=
  ⟨db.stream.ofTopic topic, db.getOffset consumer topic, finished, cursor⟩

variable (db : StreamDb) (consumer topic : String) {finished : List StreamEvent}
  {cursor : Option (Consumer.Cursor StreamEvent ℤ)}

theorem exists_ofTopic_publish (t : String) (key : Option String) (payload : String) (now : Clock) :
    ∃ rows, (db.publish t key payload now).stream.ofTopic topic = db.stream.ofTopic topic ++ rows := by
  rw [publish, streamPublish]
  split_ifs
  · exact db.stream.ofTopic_append ..
  · exact ⟨[], (List.append_nil _).symm⟩

theorem steps_publish (t : String) (key : Option String) (payload : String) (now : Clock) :
    Consumer.Steps StreamEvent.offset (db.view consumer topic finished cursor)
      ((db.publish t key payload now).view consumer topic finished cursor) := by
  obtain ⟨rows, hrows⟩ := db.exists_ofTopic_publish topic t key payload now
  have hlog := (db.publish t key payload now).stream.increasing_ofTopic topic
  rw [hrows] at hlog
  unfold view
  rw [hrows]
  exact .single (.append (db.view consumer topic finished cursor) rows hlog)

theorem view_saveOffset_of_ne {name t : String} (h : (name, t) ≠ (consumer, topic)) (offset : ℤ) :
    (db.saveOffset name t offset).view consumer topic finished cursor =
      db.view consumer topic finished cursor := by
  unfold view getOffset saveOffset
  rw [streamGetOffset_streamSaveOffset_of_ne _ _ _ h]

variable {db consumer topic} in
theorem steps_saveOffset {s₀ : ℤ} {k : Consumer.Cursor StreamEvent ℤ} (hk : cursor = some k)
    (hbusy : k.busy = false)
    (h : Consumer.Sound StreamEvent.offset s₀ (db.view consumer topic finished cursor)) :
    Consumer.Steps StreamEvent.offset (db.view consumer topic finished cursor)
      ((db.saveOffset consumer topic k.pos).view consumer topic finished cursor) := by
  have hle : db.getOffset consumer topic ≤ k.pos := (h.reads k hk).saved_le
  have hsave : (db.saveOffset consumer topic k.pos).getOffset consumer topic = k.pos :=
    streamGetOffset_streamSaveOffset _ _ _ hle
  unfold view
  rw [hsave]
  exact .single (.save (db.view consumer topic finished cursor) k hk hbusy)

variable {db consumer topic} in
/-- A reader may finish the event it handed out last and save its offset. -/
theorem steps_finish_saveOffset {s₀ : ℤ} {k : Consumer.Cursor StreamEvent ℤ}
    (h : Consumer.Sound StreamEvent.offset s₀ (db.view consumer topic finished (some k))) :
    Consumer.Steps StreamEvent.offset (db.view consumer topic finished (some k))
      ((db.saveOffset consumer topic k.pos).view consumer topic
        (finished ++ k.yielded.getLast?.toList) (some { k with busy := false })) := by
  have hfinish := h.steps_finish rfl
  have hsave : Consumer.Steps StreamEvent.offset _ _ :=
    steps_saveOffset (k := { k with busy := false }) rfl rfl (hfinish.sound h).1
  exact hfinish.trans hsave

theorem sound_view (finished : List StreamEvent) :
    Consumer.Sound StreamEvent.offset (db.getOffset consumer topic)
      (db.view consumer topic finished none) where
  increasing := db.stream.increasing_ofTopic topic
  le_saved := le_rfl
  saved_mem := Or.inl rfl
  covered := fun _ _ hlt hle ↦ absurd hle hlt.not_ge
  reads := by simp [view]

end StreamDb

end Honker
