import Honker.Streams
import Honker.Library.Interleaving
import Mathlib.Data.Rat.Defs
import Mathlib.Algebra.Order.Ring.Unbundled.Rat

namespace Honker

open Interleaving

/-- The arguments of `subscribe` on the stream of a topic, for a consumer and without `from_offset`. -/
structure SubscribeArgs where
  topic : String
  consumer : String
  saveEveryN : ℤ
  saveEveryS : ℚ

/-- Where `__anext__` stands. In `idle` no call is in progress and no event with its handler: the
iterator is new, or its last call raised. -/
inductive IterPc
  | idle
  | handling
  | looping
  | popping
  | waiting
deriving DecidableEq

/-- A `_StreamIter`, with the offset it started from, the events it has yielded, and those that were
yielded before it was made. -/
structure StreamIter where
  offset : ℤ
  buffer : List StreamEvent
  pendingSaveOffset : ℤ
  eventsSinceSave : ℕ
  lastSaveAt : ℚ
  pc : IterPc
  start : ℤ
  yielded : List StreamEvent
  before : List StreamEvent

def StreamIter.new (fromOffset : ℤ) (now : ℚ) (before : List StreamEvent) : StreamIter where
  offset := fromOffset
  buffer := []
  pendingSaveOffset := 0
  eventsSinceSave := 0
  lastSaveAt := now
  pc := .idle
  start := fromOffset
  yielded := []
  before := before

/-- The tables and the live iterator of a consumer, with every event that was yielded and those after
whose yield `__anext__` was called again. -/
structure IterSys where
  db : StreamDb
  iter : Option StreamIter
  delivered : List StreamEvent
  finished : List StreamEvent

def IterSys.new (db : StreamDb) : IterSys := ⟨db, none, [], []⟩

/-- How a `save_offset` ends. It may raise though its transaction was committed. -/
inductive SaveOutcome
  | saved
  | rolledBack
  | unconfirmed
deriving DecidableEq

/-- What the iterator does next. `ok` tells whether a read succeeds, `now` and `after` are the readings
of `time.monotonic()` before and after a save. -/
inductive IterMove
  | anext
  | readSince (ok : Bool)
  | maybeSaveOffset (now after : ℚ) (outcome : SaveOutcome)
  | popleft
  | wake
  | raise

/-- A committed publish, a save by another consumer, a `subscribe`, a crash, or a move of the live
iterator. -/
inductive IterAction
  | publish (topic : String) (key : Option String) (payload : String) (now : Clock)
  | saveElsewhere (consumer topic : String) (offset : ℤ)
  | subscribe (now : ℚ)
  | crash
  | move (m : IterMove)

section Model

variable (args : SubscribeArgs)

/-- The iterator's own `_save_every_n`. -/
def SubscribeArgs.everyN : ℤ := max 0 args.saveEveryN

def SubscribeArgs.everyS : ℚ := max 0 args.saveEveryS

def countHit (it : StreamIter) : Prop := 0 < args.everyN ∧ args.everyN ≤ it.eventsSinceSave

def timeHit (it : StreamIter) (now : ℚ) : Prop :=
  0 < args.everyS ∧ args.everyS ≤ now - it.lastSaveAt

/-- Whether `_maybe_save_offset` saves. An empty name is no consumer to it. -/
def saveHit (it : StreamIter) (now : ℚ) : Prop :=
  ¬ (args.consumer = "" ∨ it.pendingSaveOffset ≤ 0) ∧ (countHit args it ∨ timeHit args it now)

instance (it : StreamIter) (now : ℚ) : Decidable (saveHit args it now) :=
  inferInstanceAs (Decidable (_ ∧ ((_ ∧ _) ∨ (_ ∧ _))))

def IterSys.put (s : IterSys) (it : StreamIter) : IterSys := { s with iter := some it }

def IterSys.save (s : IterSys) (it : StreamIter) : IterSys :=
  { s with db := s.db.saveOffset args.consumer args.topic it.pendingSaveOffset }

def maybeSaveOffset (s : IterSys) (it : StreamIter) (now after : ℚ) (outcome : SaveOutcome) :
    IterSys :=
  if saveHit args it now then
    match outcome with
    | .saved =>
      (s.save args it).put { it with eventsSinceSave := 0, lastSaveAt := after, pc := .popping }
    | .rolledBack => s.put { it with pc := .idle }
    | .unconfirmed => (s.save args it).put { it with pc := .idle }
  else s.put { it with pc := .popping }

/-- The statements of `__anext__`. A move that is not the next one does nothing. -/
def iterMove (s : IterSys) (it : StreamIter) : IterMove → IterSys
  | .anext =>
    match it.pc with
    | .idle => s.put { it with pc := .looping }
    | .handling =>
      { s with finished := s.finished ++ it.yielded.getLast?.toList }.put { it with pc := .looping }
    | _ => s
  | .readSince ok =>
    if it.pc = .looping ∧ it.buffer = [] then
      if ok then
        match s.db.readSince args.topic it.offset 1000 with
        | [] => s.put { it with pc := .waiting }
        | e :: rows => s.put { it with buffer := it.buffer ++ e :: rows }
      else s.put { it with pc := .idle }
    else s
  | .maybeSaveOffset now after outcome =>
    if it.pc = .looping ∧ it.buffer ≠ [] then maybeSaveOffset args s it now after outcome else s
  | .popleft =>
    match it.pc, it.buffer with
    | .popping, e :: rest =>
      { s with delivered := s.delivered ++ [e] }.put
        { it with
          offset := e.offset
          buffer := rest
          pendingSaveOffset := e.offset
          eventsSinceSave := it.eventsSinceSave + 1
          pc := .handling
          yielded := it.yielded ++ [e] }
    | _, _ => s
  | .wake => if it.pc = .waiting then s.put { it with pc := .looping } else s
  | .raise => if it.pc = .waiting then s.put { it with pc := .idle } else s

def iterStep (s : IterSys) : IterAction → IterSys
  | .publish topic key payload now => { s with db := s.db.publish topic key payload now }
  | .saveElsewhere consumer topic offset =>
    if (consumer, topic) = (args.consumer, args.topic) then s
    else { s with db := s.db.saveOffset consumer topic offset }
  | .subscribe now =>
    match s.iter with
    | some _ => s
    | none => s.put (.new (s.db.getOffset args.consumer args.topic) now s.delivered)
  | .crash => { s with iter := none }
  | .move m =>
    match s.iter with
    | some it => iterMove args s it m
    | none => s

/-- The consumer's saved offset. -/
def IterSys.savedOffset (s : IterSys) : ℤ := s.db.getOffset args.consumer args.topic

/-- The topic's events. -/
def IterSys.events (s : IterSys) : List StreamEvent := s.db.stream.ofTopic args.topic

end Model

/-- What a move of the iterator can do. -/
inductive IterMoved (args : SubscribeArgs) (s : IterSys) (it : StreamIter) : IterSys → Prop
  | stay : IterMoved args s it s
  | goto (pc : IterPc) (hpc : pc ≠ .handling ∧ pc ≠ .popping) (hit : it.pc ≠ .handling) :
      IterMoved args s it (s.put { it with pc := pc })
  | finish (hit : it.pc = .handling) :
      IterMoved args s it ({ s with finished := s.finished ++ it.yielded.getLast?.toList }.put
        { it with pc := .looping })
  | refill (hit : it.pc = .looping) (hbuffer : it.buffer = []) :
      IterMoved args s it (s.put { it with buffer := s.db.readSince args.topic it.offset 1000 })
  | pass (now : ℚ) (hit : it.pc = .looping) (hbuffer : it.buffer ≠ [])
      (hsave : ¬ saveHit args it now) : IterMoved args s it (s.put { it with pc := .popping })
  | save (now after : ℚ) (hit : it.pc = .looping) (hbuffer : it.buffer ≠ [])
      (hsave : saveHit args it now) :
      IterMoved args s it ((s.save args it).put
        { it with eventsSinceSave := 0, lastSaveAt := after, pc := .popping })
  | unconfirmed (now : ℚ) (hit : it.pc = .looping) (hsave : saveHit args it now) :
      IterMoved args s it ((s.save args it).put { it with pc := .idle })
  | popleft (e : StreamEvent) (rest : List StreamEvent) (hit : it.pc = .popping)
      (hbuffer : it.buffer = e :: rest) :
      IterMoved args s it ({ s with delivered := s.delivered ++ [e] }.put
        { it with
          offset := e.offset
          buffer := rest
          pendingSaveOffset := e.offset
          eventsSinceSave := it.eventsSinceSave + 1
          pc := .handling
          yielded := it.yielded ++ [e] })

theorem iterMove_iterMoved (args : SubscribeArgs) (s : IterSys) (it : StreamIter) (m : IterMove) :
    IterMoved args s it (iterMove args s it m) := by
  cases m with
  | anext =>
    rw [iterMove]
    split
    · exact .goto .looping (by simp) (by simp [*])
    · exact .finish ‹_›
    · exact .stay
  | readSince ok =>
    rw [iterMove]
    split_ifs with h hok
    · cases hrows : s.db.readSince args.topic it.offset 1000 with
      | nil => exact .goto .waiting (by simp) (by simp [h.1])
      | cons e rows =>
        have hmoved : IterMoved args s it _ := .refill h.1 h.2
        simpa only [hrows, h.2, List.nil_append] using hmoved
    · exact .goto .idle (by simp) (by simp [h.1])
    · exact .stay
  | maybeSaveOffset now after outcome =>
    rw [iterMove]
    split_ifs with h
    · unfold maybeSaveOffset
      split_ifs with hsave
      · cases outcome with
        | saved => exact .save now after h.1 h.2 hsave
        | rolledBack => exact .goto .idle (by simp) (by simp [h.1])
        | unconfirmed => exact .unconfirmed now h.1 hsave
      · exact .pass now h.1 h.2 hsave
    · exact .stay
  | popleft =>
    rw [iterMove]
    split
    · exact .popleft _ _ ‹_› ‹_›
    · exact .stay
  | wake =>
    rw [iterMove]
    split_ifs with h
    · exact .goto .looping (by simp) (by simp [h])
    · exact .stay
  | raise =>
    rw [iterMove]
    split_ifs with h
    · exact .goto .idle (by simp) (by simp [h])
    · exact .stay

/-- The iterator as a reader of the topic's log. -/
def StreamIter.cursor (it : StreamIter) : Consumer.Cursor StreamEvent ℤ :=
  ⟨it.start, it.offset, it.buffer, it.yielded, it.pc = .handling⟩

def IterSys.view (args : SubscribeArgs) (s : IterSys) : Consumer.State StreamEvent ℤ :=
  s.db.view args.consumer args.topic s.finished (s.iter.map StreamIter.cursor)

/-- The bookkeeping of the automatic saves. -/
structure Paced (args : SubscribeArgs) (s : IterSys) (it : StreamIter) : Prop where
  pending : it.pendingSaveOffset = (it.yielded.getLast?.map StreamEvent.offset).getD 0
  popping : it.pc = .popping → it.buffer ≠ []
  since_le : it.eventsSinceSave ≤ it.yielded.length
  unsaved_le : (Log.ahead StreamEvent.offset (s.savedOffset args) it.yielded).length ≤
    it.eventsSinceSave
  due : it.pc = .popping → 0 < args.saveEveryN → args.consumer ≠ "" →
    it.eventsSinceSave < args.saveEveryN

section Moves

variable {args : SubscribeArgs} {s s' : IterSys} {it : StreamIter} {s₀ : ℤ}

theorem IterSys.view_put (hit : s.iter = some it) {it' : StreamIter}
    (h : it'.cursor = it.cursor) : (s.put it').view args = s.view args := by
  unfold IterSys.view IterSys.put
  rw [hit, Option.map_some, Option.map_some, h]

theorem cursor_goto {pc : IterPc} (hpc : pc ≠ .handling) (hit : it.pc ≠ .handling) :
    { it with pc := pc }.cursor = it.cursor := by
  simp [StreamIter.cursor, hpc, hit]

theorem reads_cursor (hs : Consumer.Sound StreamEvent.offset s₀ (s.view args)) (hit : s.iter = some it) :
    Consumer.Reads StreamEvent.offset (s.view args) it.cursor :=
  hs.reads _ (by rw [IterSys.view, StreamDb.view, hit, Option.map_some])

/-- A save that is due saves the offset where the iterator stands. -/
theorem Paced.pending_eq (hp : Paced args s it)
    (hr : Consumer.Reads StreamEvent.offset (s.view args) it.cursor)
    (hpos : 0 < it.pendingSaveOffset) : it.pendingSaveOffset = it.offset := by
  have hpending := hp.pending
  rcases hr.pos_cases with ⟨hnil, -⟩ | ⟨l, e, hl, he⟩
  · have hnil : it.yielded = [] := hnil
    rw [hnil] at hpending
    exact absurd hpending hpos.ne'
  · have hl : it.yielded = l ++ [e] := hl
    have he : it.offset = e.offset := he
    simpa [hl, he] using hpending

theorem IterMoved.steps (h : IterMoved args s it s') (hit : s.iter = some it)
    (hs : Consumer.Sound StreamEvent.offset s₀ (s.view args)) (hp : Paced args s it) :
    Consumer.Steps StreamEvent.offset (s.view args) (s'.view args) := by
  have hcursor : (s.view args).cursor = some it.cursor := by
    rw [IterSys.view, StreamDb.view, hit, Option.map_some]
  have hr := hs.reads _ hcursor
  have hsaving {now : ℚ} (hsave : saveHit args it now) (hpc : it.pc = .looping) :
      Consumer.Steps StreamEvent.offset (s.view args) ((s.save args it).view args) := by
    rw [IterSys.view, IterSys.view, IterSys.save,
      hp.pending_eq hr (not_le.mp fun hle ↦ hsave.1 (Or.inr hle))]
    refine StreamDb.steps_saveOffset (k := it.cursor) (by rw [hit]; rfl) ?_ hs
    simp [StreamIter.cursor, hpc]
  have hit' : (s.save args it).iter = some it := hit
  cases h with
  | stay => exact .refl
  | goto pc hpc hne =>
    rw [IterSys.view_put hit (cursor_goto hpc.1 hne)]
    exact .refl
  | finish hpc => exact hs.steps_finish hcursor
  | refill hpc hbuffer =>
    exact .single (.refill (s.view args) it.cursor 1000 hcursor hbuffer)
  | pass now hpc hbuffer hsave =>
    rw [IterSys.view_put hit (cursor_goto (by simp) (by simp [hpc]))]
    exact .refl
  | save now after hpc hbuffer hsave =>
    rw [IterSys.view_put hit' (by simp [StreamIter.cursor, hpc])]
    exact hsaving hsave hpc
  | unconfirmed now hpc hsave =>
    rw [IterSys.view_put hit' (cursor_goto (by simp) (by simp [hpc]))]
    exact hsaving hsave hpc
  | popleft e rest hpc hbuffer =>
    have hbusy : it.cursor.busy = false := by simp [StreamIter.cursor, hpc]
    exact .single (.handOut (s.view args) it.cursor e rest hcursor hbusy hbuffer)

theorem savedOffset_save (hs : Consumer.Sound StreamEvent.offset s₀ (s.view args))
    (hit : s.iter = some it) (hp : Paced args s it) {now : ℚ} (hsave : saveHit args it now) :
    (s.save args it).savedOffset args = it.offset := by
  have hr := reads_cursor hs hit
  rw [IterSys.savedOffset, IterSys.save,
    hp.pending_eq hr (not_le.mp fun hle ↦ hsave.1 (Or.inr hle))]
  exact streamGetOffset_streamSaveOffset _ _ _ hr.saved_le

theorem yielded_pos (hs : Consumer.Sound StreamEvent.offset s₀ (s.view args))
    (hit : s.iter = some it) : ∀ e ∈ it.yielded, 0 < e.offset := by
  intro e he
  have hahead := (reads_cursor hs hit).yielded_ahead.subset he
  exact s.db.stream.pos_ofTopic args.topic e (Log.mem_ahead.mp hahead).1

theorem Paced.since_lt (hp : Paced args s it) (hpos : ∀ e ∈ it.yielded, 0 < e.offset) {now : ℚ}
    (hsave : ¬ saveHit args it now) (hn : 0 < args.saveEveryN) (hname : args.consumer ≠ "") :
    it.eventsSinceSave < args.saveEveryN := by
  have hev : args.everyN = args.saveEveryN := max_eq_right hn.le
  by_contra hge
  have hcount : countHit args it := by
    unfold countHit
    rw [hev]
    exact ⟨hn, not_lt.mp hge⟩
  refine hsave ⟨fun hno ↦ ?_, Or.inl hcount⟩
  rcases hno with hno | hno
  · exact hname hno
  · -- Every event has a positive offset, so nothing was yielded.
    have hpending := hp.pending
    have hle := hp.since_le
    rcases List.eq_nil_or_concat it.yielded with hnil | ⟨l, e, hl⟩
    · rw [hnil, List.length_nil] at hle
      omega
    · have he := hpos e (by simp [hl])
      have hlast : it.pendingSaveOffset = e.offset := by simpa [hl] using hpending
      omega

theorem Paced.of_le (hp : Paced args s it) (hle : s.savedOffset args ≤ s'.savedOffset args) :
    Paced args s' it :=
  ⟨hp.pending, hp.popping, hp.since_le, (Log.length_ahead_le hle).trans hp.unsaved_le, hp.due⟩

theorem Paced.goto (hp : Paced args s it) {pc : IterPc} (hpc : pc ≠ .popping) :
    Paced args s { it with pc := pc } :=
  ⟨hp.pending, fun h ↦ absurd h hpc, hp.since_le, hp.unsaved_le, fun h ↦ absurd h hpc⟩

theorem IterMoved.paced (h : IterMoved args s it s') (hit : s.iter = some it)
    (hs : Consumer.Sound StreamEvent.offset s₀ (s.view args)) (hp : Paced args s it) {it' : StreamIter}
    (hit' : s'.iter = some it') : Paced args s' it' := by
  have hle : s.savedOffset args ≤ s'.savedOffset args := ((h.steps hit hs hp).sound hs).2
  cases h with
  | stay =>
    obtain rfl : it = it' := Option.some.inj (hit.symm.trans hit')
    exact hp
  | goto pc hpc hne =>
    obtain rfl := Option.some.inj hit'
    exact (hp.goto hpc.2).of_le hle
  | finish hpc =>
    obtain rfl := Option.some.inj hit'
    exact (hp.goto (by simp)).of_le hle
  | refill hpc hbuffer =>
    obtain rfl := Option.some.inj hit'
    exact ⟨hp.pending, by simp [hpc], hp.since_le, hp.unsaved_le, by simp [hpc]⟩
  | pass now hpc hbuffer hsave =>
    obtain rfl := Option.some.inj hit'
    exact ⟨hp.pending, fun _ ↦ hbuffer, hp.since_le, hp.unsaved_le,
      fun _ ↦ hp.since_lt (yielded_pos hs hit) hsave⟩
  | save now after hpc hbuffer hsave =>
    obtain rfl := Option.some.inj hit'
    have hnil : Log.ahead StreamEvent.offset it.offset it.yielded = [] :=
      Log.ahead_eq_nil ((reads_cursor hs hit).le_pos hs.increasing).2
    refine ⟨hp.pending, fun _ ↦ hbuffer, Nat.zero_le _, ?_, fun _ hn _ ↦ hn⟩
    rw [show ((s.save args it).put _).savedOffset args = it.offset from
      savedOffset_save hs hit hp hsave]
    exact (congrArg List.length hnil).le
  | unconfirmed now hpc hsave =>
    obtain rfl := Option.some.inj hit'
    exact (hp.goto (by simp)).of_le hle
  | popleft e rest hpc hbuffer =>
    obtain rfl := Option.some.inj hit'
    refine ⟨by simp, by simp, ?_, ?_, by simp⟩
    · simpa using hp.since_le
    · have hlen : (Log.ahead StreamEvent.offset (s.savedOffset args) [e]).length ≤ 1 :=
        List.length_filter_le _ _
      have hun := hp.unsaved_le
      dsimp only
      rw [Log.ahead_append, List.length_append]
      exact Nat.add_le_add hun hlen

/-- Of the events that were ever yielded, those past the saved offset are among the topic's next
`save_every_n`. The same held when the live iterator was made. -/
structure Replays (args : SubscribeArgs) (s : IterSys) : Prop where
  delivered : Log.Within StreamEvent.offset args.saveEveryN.toNat (s.savedOffset args) (s.events args)
    s.delivered
  before : ∀ it, s.iter = some it →
    Log.Within StreamEvent.offset args.saveEveryN.toNat it.start (s.events args) it.before

theorem next_within (hs : Consumer.Sound StreamEvent.offset s₀ (s.view args)) (hit : s.iter = some it)
    (hp : Paced args s it) (hpc : it.pc = .popping) {e : StreamEvent} {rest : List StreamEvent}
    (hbuffer : it.buffer = e :: rest) (hn : 0 < args.saveEveryN) (hname : args.consumer ≠ "") :
    e ∈ Log.batch StreamEvent.offset args.saveEveryN.toNat (s.savedOffset args) (s.events args) := by
  have hr := reads_cursor hs hit
  have hpre : it.yielded ++ e :: rest <+: Log.ahead StreamEvent.offset it.start (s.events args) :=
    hbuffer ▸ hr.isPrefix
  rw [List.append_cons] at hpre
  have hnext := (List.prefix_append _ _).trans hpre
  have hlt : s.savedOffset args < e.offset := hr.saved_le.trans_lt (hr.pos_lt hs.increasing hnext)
  have hunsaved : Log.ahead StreamEvent.offset (s.savedOffset args) (it.yielded ++ [e]) <+:
      Log.ahead StreamEvent.offset (s.savedOffset args) (s.events args) := by
    have hstart : it.start ≤ s.savedOffset args := hr.start_le
    rw [← Log.ahead_ahead (l := s.events args) hstart]
    exact hnext.filter _
  refine Log.mem_batch_of_prefix hunsaved (Log.mem_ahead.mpr ⟨by simp, hlt⟩) ?_
  have hlen : (Log.ahead StreamEvent.offset (s.savedOffset args) [e]).length ≤ 1 :=
    List.length_filter_le _ _
  have hun := hp.unsaved_le
  have hdue := hp.due hpc hn hname
  rw [Log.ahead_append, List.length_append]
  omega

theorem IterMoved.replays (h : IterMoved args s it s') (hit : s.iter = some it)
    (hs : Consumer.Sound StreamEvent.offset s₀ (s.view args)) (hp : Paced args s it)
    (hn : 0 < args.saveEveryN) (hname : args.consumer ≠ "") (hr : Replays args s) :
    Replays args s' := by
  have hle : s.savedOffset args ≤ s'.savedOffset args := ((h.steps hit hs hp).sound hs).2
  have hbefore := hr.before it hit
  have hdelivered := hr.delivered.advance hle
  cases h with
  | stay => exact hr
  | popleft e rest hpc hbuffer =>
    refine ⟨fun q hq ↦ ?_, fun it' hit' ↦ ?_⟩
    · rcases List.mem_append.mp hq with hq | hq
      · exact hdelivered q hq
      · rw [List.mem_singleton.mp hq]
        exact Or.inr (next_within hs hit hp hpc hbuffer hn hname)
    · obtain rfl := Option.some.inj hit'
      exact hbefore
  | _ =>
    refine ⟨hdelivered, fun it' hit' ↦ ?_⟩
    obtain rfl := Option.some.inj hit'
    exact hbefore

end Moves

/-- What holds in every state, for a consumer whose saved offset was `s₀`. -/
structure IterInv (args : SubscribeArgs) (s₀ : ℤ) (s : IterSys) : Prop where
  sound : Consumer.Sound StreamEvent.offset s₀ (s.view args)
  paced : ∀ it, s.iter = some it → Paced args s it
  replays : 0 < args.saveEveryN → args.consumer ≠ "" → Replays args s

section Runs

variable (args : SubscribeArgs) {s₀ : ℤ}

theorem iterInv_new (db : StreamDb) :
    IterInv args (db.getOffset args.consumer args.topic) (.new db) where
  sound := db.sound_view _ _ _
  paced := by simp [IterSys.new]
  replays := fun _ _ ↦ ⟨by simp [IterSys.new, Log.Within], by simp [IterSys.new]⟩

theorem iterStep_steps {s : IterSys} (h : IterInv args s₀ s) (a : IterAction) :
    Consumer.Steps StreamEvent.offset (s.view args) ((iterStep args s a).view args) := by
  cases a with
  | publish topic key payload now => exact s.db.steps_publish ..
  | saveElsewhere consumer topic offset =>
    rw [iterStep]
    split_ifs with hown
    · exact .refl
    · unfold IterSys.view
      rw [StreamDb.view_saveOffset_of_ne _ _ _ hown]
      exact .refl
  | subscribe now =>
    rw [iterStep]
    cases s.iter with
    | some it => exact .refl
    | none => exact .single (.attach (s.view args))
  | crash => exact .single (.detach (s.view args))
  | move m =>
    rw [iterStep]
    cases hit : s.iter with
    | some it => exact (iterMove_iterMoved args s it m).steps hit h.sound (h.paced it hit)
    | none => exact .refl

theorem iterStep_inv {s : IterSys} (h : IterInv args s₀ s) (a : IterAction) :
    IterInv args s₀ (iterStep args s a) ∧ s.savedOffset args ≤ (iterStep args s a).savedOffset args := by
  obtain ⟨hsound, hle⟩ := (iterStep_steps args h a).sound h.sound
  refine ⟨⟨hsound, fun it hit ↦ ?_, fun hn hname ↦ ?_⟩, hle⟩
  · cases a with
    | publish topic key payload now => exact (h.paced it hit).of_le hle
    | saveElsewhere consumer topic offset =>
      have hiter : (iterStep args s (.saveElsewhere consumer topic offset)).iter = s.iter := by
        rw [iterStep]
        split_ifs <;> rfl
      exact (h.paced it (hiter ▸ hit)).of_le hle
    | subscribe now =>
      rw [iterStep] at hit ⊢
      cases hs : s.iter with
      | some it' =>
        rw [hs] at hit
        exact h.paced it hit
      | none =>
        rw [hs] at hit
        obtain rfl := Option.some.inj hit
        exact ⟨rfl, by simp [StreamIter.new], le_rfl, le_rfl, by simp [StreamIter.new]⟩
    | crash => exact absurd hit (by simp [iterStep])
    | move m =>
      rw [iterStep] at hit ⊢
      cases hs : s.iter with
      | some it' =>
        rw [hs] at hit
        exact (iterMove_iterMoved args s it' m).paced hs h.sound (h.paced it' hs) hit
      | none =>
        rw [hs] at hit
        exact absurd (hs.symm.trans hit) (by simp)
  · have hr := h.replays hn hname
    cases a with
    | publish topic key payload now =>
      obtain ⟨rows, hrows⟩ := s.db.exists_ofTopic_publish args.topic topic key payload now
      have hevents : (iterStep args s (.publish topic key payload now)).events args =
          s.events args ++ rows := hrows
      refine ⟨?_, fun it hit ↦ ?_⟩
      · rw [hevents]
        exact hr.delivered.append rows
      · rw [hevents]
        exact (hr.before it hit).append rows
    | saveElsewhere consumer topic offset =>
      rw [iterStep] at hle ⊢
      split_ifs at hle ⊢
      · exact hr
      · exact ⟨hr.delivered.advance hle, hr.before⟩
    | subscribe now =>
      rw [iterStep]
      cases hs : s.iter with
      | some it => exact hr
      | none =>
        refine ⟨hr.delivered, fun it hit ↦ ?_⟩
        obtain rfl := Option.some.inj hit
        exact hr.delivered
    | crash => exact ⟨hr.delivered, by simp [iterStep]⟩
    | move m =>
      rw [iterStep]
      cases hs : s.iter with
      | some it =>
        exact (iterMove_iterMoved args s it m).replays hs h.sound (h.paced it hs) hn hname hr
      | none => exact hr

theorem run_iterInv (db : StreamDb) (as : List IterAction) :
    IterInv args (db.getOffset args.consumer args.topic) (run (iterStep args) (.new db) as) :=
  run_invariant (P := IterInv args (db.getOffset args.consumer args.topic)) _
    (fun _ a h ↦ (iterStep_inv args h a).1) (iterInv_new args db) as

end Runs

section Progress

variable {args : SubscribeArgs} {s : IterSys} {it : StreamIter}

/-- A call of `__anext__` in which nothing fails, from wherever the iterator stands. -/
def nextCall (now after : ℚ) : List IterAction :=
  [.move .anext, .move .wake, .move (.readSince true), .move (.maybeSaveOffset now after .saved),
    .move .popleft]

theorem run_move (hit : s.iter = some it) (m : IterMove) (as : List IterAction) :
    run (iterStep args) s (.move m :: as) = run (iterStep args) (iterMove args s it m) as := by
  rw [run, List.foldl_cons, iterStep, hit]
  rfl

theorem popleft_yields (it : StreamIter) (hit : s.iter = some it) (hpc : it.pc = .popping) {e : StreamEvent}
    {rest : List StreamEvent} (hbuffer : it.buffer = e :: rest) :
    (run (iterStep args) s [.move .popleft]).iter.map StreamIter.yielded =
      some (it.yielded ++ [e]) := by
  rw [run_move hit, iterMove, hpc, hbuffer]
  rfl

theorem maybeSaveOffset_yields (it : StreamIter) (hit : s.iter = some it) (hpc : it.pc = .looping)
    {e : StreamEvent} {rest : List StreamEvent} (hbuffer : it.buffer = e :: rest) (now after : ℚ) :
    (run (iterStep args) s [.move (.maybeSaveOffset now after .saved), .move .popleft]).iter.map
      StreamIter.yielded = some (it.yielded ++ [e]) := by
  rw [run_move hit, iterMove, if_pos ⟨hpc, by simp [hbuffer]⟩]
  unfold maybeSaveOffset
  split_ifs
  · exact popleft_yields { it with eventsSinceSave := 0, lastSaveAt := after, pc := .popping } rfl rfl
      hbuffer
  · exact popleft_yields { it with pc := .popping } rfl rfl hbuffer

theorem looping_yields (it : StreamIter) (hit : s.iter = some it) (hpc : it.pc = .looping)
    (now after : ℚ) :
    (run (iterStep args) s [.move (.readSince true), .move (.maybeSaveOffset now after .saved),
      .move .popleft]).iter.map StreamIter.yielded =
        some (it.yielded ++ (it.buffer ++ s.db.readSince args.topic it.offset 1000).take 1) := by
  rw [run_move hit, iterMove]
  cases hbuffer : it.buffer with
  | cons e rest =>
    rw [if_neg (by simp)]
    exact maybeSaveOffset_yields it hit hpc hbuffer now after
  | nil =>
    rw [if_pos ⟨hpc, rfl⟩, if_pos rfl]
    cases hrows : s.db.readSince args.topic it.offset 1000 with
    | cons e rows =>
      exact maybeSaveOffset_yields { it with buffer := [] ++ e :: rows } rfl hpc rfl now after
    | nil =>
      dsimp only
      rw [run_move rfl, iterMove, if_neg (by simp), run_move rfl]
      simp [iterMove, run, IterSys.put]

/-- A call in which nothing fails yields the topic's next event past the start, if there is one. -/
theorem nextCall_yields {s₀ : ℤ} (h : IterInv args s₀ s) (hit : s.iter = some it) (now after : ℚ) :
    (run (iterStep args) s (nextCall now after)).iter.map StreamIter.yielded =
      some ((Log.ahead StreamEvent.offset it.start (s.events args)).take (it.yielded.length + 1)) := by
  have hr := reads_cursor h.sound hit
  have hpaced := h.paced it hit
  have hall : it.yielded ++ Log.ahead StreamEvent.offset it.offset (s.events args) =
      Log.ahead StreamEvent.offset it.start (s.events args) := hr.append_ahead h.sound.increasing
  have hnext : it.yielded ++ (it.buffer ++ s.db.readSince args.topic it.offset 1000).take 1 =
      (Log.ahead StreamEvent.offset it.start (s.events args)).take (it.yielded.length + 1) := by
    cases hbuffer : it.buffer with
    | nil =>
      rw [← hall, List.take_length_add_append, List.nil_append, StreamDb.readSince, streamReadSince,
        Log.batch, List.take_take]
      rfl
    | cons e rest =>
      have hpre : it.yielded ++ it.buffer <+: Log.ahead StreamEvent.offset it.start (s.events args) :=
        hr.isPrefix
      obtain ⟨l, hl⟩ := hpre
      rw [← hl, hbuffer, List.append_assoc, List.take_length_add_append]
      rfl
  rw [← hnext, nextCall, run_move hit, iterMove]
  cases hpc : it.pc with
  | idle | handling =>
    dsimp only
    rw [run_move rfl, iterMove, if_neg (by simp)]
    exact looping_yields { it with pc := .looping } rfl rfl now after
  | looping =>
    rw [run_move hit, iterMove, if_neg (by simp [hpc])]
    exact looping_yields it hit hpc now after
  | waiting =>
    rw [run_move hit, iterMove, if_pos hpc]
    exact looping_yields { it with pc := .looping } rfl rfl now after
  | popping =>
    cases hbuffer : it.buffer with
    | nil => exact absurd hbuffer (hpaced.popping hpc)
    | cons e rest =>
      rw [run_move hit, iterMove, if_neg (by simp [hpc]), run_move hit, iterMove,
        if_neg (by simp [hpc]), run_move hit, iterMove, if_neg (by simp [hpc])]
      exact popleft_yields it hit hpc hbuffer

end Progress

/-- In every run of a consumer's iterators, one at a time, an iterator yields the topic's events past
its start in order, the saved offset moves forward and stays behind the event with the handler, it
covers only events after which `__anext__` was called again, and at most `save_every_n` of the events an
iterator yields had been yielded before. -/
theorem stream_iter_at_least_once (args : SubscribeArgs)
    (hname : 0 < args.saveEveryN → args.consumer ≠ "") (db : StreamDb) (as : List IterAction) :
    let s := run (iterStep args) (.new db) as
    (∀ it, s.iter = some it →
      it.yielded <+: Log.ahead StreamEvent.offset it.start (s.events args) ∧
      (∀ now after, (run (iterStep args) s (nextCall now after)).iter.map StreamIter.yielded =
        some ((Log.ahead StreamEvent.offset it.start (s.events args)).take (it.yielded.length + 1))) ∧
      (it.pc = .handling → ∃ e, it.yielded.getLast? = some e ∧ s.savedOffset args < e.offset) ∧
      (0 < args.saveEveryN →
        ((it.yielded.filter fun e ↦ e ∈ it.before).length : ℤ) ≤ args.saveEveryN)) ∧
    (∀ a, s.savedOffset args ≤ (iterStep args s a).savedOffset args) ∧
    ∀ e ∈ s.events args, db.getOffset args.consumer args.topic < e.offset →
      e.offset ≤ s.savedOffset args → e ∈ s.finished := by
  intro s
  have h : IterInv args (db.getOffset args.consumer args.topic) s := run_iterInv args db as
  refine ⟨fun it hit ↦ ?_, fun a ↦ (iterStep_inv args h a).2, h.sound.covered⟩
  have hr := reads_cursor h.sound hit
  refine ⟨hr.yielded_ahead, fun now after ↦ nextCall_yields h hit now after, fun hpc ↦ ?_, fun hn ↦ ?_⟩
  · have hlt := hr.saved_lt (by simp [StreamIter.cursor, hpc])
    rcases hr.pos_cases with ⟨-, hpos⟩ | ⟨l, e, hl, he⟩
    · exact absurd hpos (hr.start_le.trans_lt hlt).ne'
    · refine ⟨e, ?_, he ▸ hlt⟩
      rw [show it.yielded = l ++ [e] from hl, List.getLast?_append]
      rfl
  · have hbefore := (h.replays hn (hname hn)).before it hit
    have hlen : (it.yielded.filter fun e ↦ e ∈ it.before).length ≤ args.saveEveryN.toNat :=
      hbefore.length_le hr.yielded_ahead h.sound.increasing
    omega

/-- Two events are yielded, the process crashes, and a new iterator yields what is past the saved
offset. -/
def crashAfterTwo : List IterAction :=
  [.publish "orders" none "1" (.near 1), .publish "orders" none "2" (.near 1), .subscribe 0] ++
    nextCall 0 0 ++ nextCall 0 0 ++ [.crash, .subscribe 0] ++ nextCall 0 0 ++ nextCall 0 0

theorem stream_iter_at_least_once_crashAfterTwo :
    let args : SubscribeArgs := ⟨"orders", "billing", 1, 0⟩
    let s := run (iterStep args) (.new .empty) crashAfterTwo
    (s.savedOffset args = 1 ∧
      s.iter.map (fun it ↦ (it.yielded.filter fun e ↦ e ∈ it.before).length) = some 1) ∧
    ∀ e ∈ s.events args, 0 < e.offset → e.offset ≤ s.savedOffset args → e ∈ s.finished :=
  ⟨by decide +kernel,
    (stream_iter_at_least_once ⟨"orders", "billing", 1, 0⟩ (fun _ ↦ by decide) .empty crashAfterTwo).2.2⟩

/-- The offset of a consumer with the empty name is never saved, and both events are yielded again. -/
theorem empty_name_replays_all :
    let args : SubscribeArgs := ⟨"orders", "", 1, 0⟩
    let s := run (iterStep args) (.new .empty) crashAfterTwo
    0 < args.saveEveryN ∧ ∃ it, s.iter = some it ∧
      args.saveEveryN < ((it.yielded.filter fun e ↦ e ∈ it.before).length : ℤ) := by
  intro args s
  have h : s.iter.map (fun it ↦ (it.yielded.filter fun e ↦ e ∈ it.before).length) = some 2 := by
    decide +kernel
  obtain ⟨it, hit, hlen⟩ := Option.map_eq_some_iff.mp h
  refine ⟨by decide, it, hit, ?_⟩
  rw [hlen]
  decide

end Honker
