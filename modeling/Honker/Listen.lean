import Honker.Watcher
import Honker.Library.Log

namespace Honker

open Interleaving

/-- A row of `_honker_notifications`, with the number of the commit that made it. -/
structure Notification where
  id : ℕ
  channel : String
  payload : String
  commit : ℕ
deriving DecidableEq

/-- The rows of one commit. Each takes an id past the last one of the `AUTOINCREMENT` counter, further
on where rows of the same transaction did not survive it. -/
def stamp (commit : ℕ) : ℕ → List (ℕ × String × String) → List Notification
  | _, [] => []
  | seq, (skip, channel, payload) :: l =>
    ⟨seq + skip + 1, channel, payload, commit⟩ :: stamp commit (seq + skip + 1) l

def stampSeq : ℕ → List (ℕ × String × String) → ℕ
  | seq, [] => seq
  | seq, (skip, _, _) :: l => stampSeq (seq + skip + 1) l

theorem le_stampSeq (seq : ℕ) (l : List (ℕ × String × String)) : seq ≤ stampSeq seq l := by
  induction l generalizing seq with
  | nil => exact le_rfl
  | cons x l ih => exact le_trans (by omega) (ih (seq + x.1 + 1))

theorem mem_stamp {commit seq : ℕ} {l : List (ℕ × String × String)} {n : Notification}
    (h : n ∈ stamp commit seq l) : seq < n.id ∧ n.id ≤ stampSeq seq l ∧ n.commit = commit := by
  induction l generalizing seq with
  | nil => simp [stamp] at h
  | cons x l ih =>
    obtain ⟨skip, channel, payload⟩ := x
    rw [stamp, List.mem_cons] at h
    rcases h with rfl | h
    · exact ⟨by dsimp only; omega, le_stampSeq _ l, rfl⟩
    · obtain ⟨hlt, hle, hc⟩ := ih h
      exact ⟨by omega, hle, hc⟩

theorem increasing_stamp (commit seq : ℕ) (l : List (ℕ × String × String)) :
    Log.Increasing Notification.id (stamp commit seq l) := by
  induction l generalizing seq with
  | nil => exact List.Pairwise.nil
  | cons x l ih => exact List.Pairwise.cons (fun n hn ↦ (mem_stamp hn).1) (ih (seq + x.1 + 1))

/-- The table of notifications with its `AUTOINCREMENT` counter, next to every row ever committed. -/
structure Notifications where
  rows : List Notification
  seq : ℕ
  commits : ℕ
  made : List Notification
  increasing : Log.Increasing Notification.id made
  sublist : rows.Sublist made
  bounded : ∀ n ∈ made, n.id ≤ seq ∧ n.commit ≤ commits

namespace Notifications

def empty : Notifications := ⟨[], 0, 0, [], List.Pairwise.nil, List.Sublist.slnil, by simp⟩

/-- A committed transaction: it prunes the rows it does not keep, and notifies. -/
def commit (keep : Notification → Bool) (new : List (ℕ × String × String)) (t : Notifications) :
    Notifications where
  rows := t.rows.filter keep ++ stamp (t.commits + 1) t.seq new
  seq := stampSeq t.seq new
  commits := t.commits + 1
  made := t.made ++ stamp (t.commits + 1) t.seq new
  increasing := List.pairwise_append.mpr ⟨t.increasing, increasing_stamp _ _ _, fun a ha b hb ↦
    (t.bounded a ha).1.trans_lt (mem_stamp hb).1⟩
  sublist := (List.filter_sublist.trans t.sublist).append (List.Sublist.refl _)
  bounded := by
    intro n hn
    rcases List.mem_append.mp hn with hn | hn
    · exact ⟨(t.bounded n hn).1.trans (le_stampSeq _ _), (t.bounded n hn).2.trans (Nat.le_succ _)⟩
    · exact ⟨(mem_stamp hn).2.1, (mem_stamp hn).2.2.le⟩

/-- `SELECT COALESCE(MAX(id), 0)`. -/
def maxId (t : Notifications) : ℕ := (t.rows.map Notification.id).foldr max 0

/-- The `SELECT` of `refill`. The rows are in the order of their ids. -/
def select (t : Notifications) (channel : String) (lastId : ℕ) : List Notification :=
  Log.batch Notification.id 1000 lastId (t.rows.filter fun n ↦ n.channel = channel)

theorem maxId_le (t : Notifications) : t.maxId ≤ t.seq := by
  have h : ∀ l : List ℕ, (∀ x ∈ l, x ≤ t.seq) → l.foldr max 0 ≤ t.seq := by
    intro l hl
    induction l with
    | nil => exact Nat.zero_le _
    | cons x l ih =>
      exact max_le (hl x (.head l)) (ih fun y hy ↦ hl y (.tail x hy))
  refine h _ fun x hx ↦ ?_
  obtain ⟨n, hn, rfl⟩ := List.mem_map.mp hx
  exact (t.bounded n (t.sublist.subset hn)).1

end Notifications

/-- The calls of a `Subscription` that may read. -/
inductive ReadCall
  | recv
  | tryNext
  | recvTimeout
deriving DecidableEq

/-- The next statement of a listener in `Database::listen` or in one of its calls. -/
inductive ListenPc
  | absent
  | attaching (lastId : ℕ)
  | registering (lastId id : ℕ)
  | idle
  | popping (call : ReadCall)
  | refilling (call : ReadCall)
  | blocked (call : ReadCall)
  | draining (call : ReadCall)
  | gone
deriving DecidableEq

/-- A `Subscription`, with the greatest id at the time it attached, what it has yielded, and the number
of commits its last refill saw. -/
structure Listener where
  pc : ListenPc
  channel : String
  lastId : ℕ
  pending : List Notification
  closed : Bool
  subId : ℕ
  chan : ℕ
  attachedAt : ℕ
  yielded : List Notification
  seen : ℕ

def Listener.absent : Listener := ⟨.absent, "", 0, [], false, 0, 0, 0, [], 0⟩

/-- The listeners with the table and the watcher's hub. `announced` is the number of commits at the
last `on_change`. -/
structure ListenSys (ι : Type) where
  notes : Notifications
  hub : Hub
  announced : ℕ
  ls : ι → Listener

def ListenSys.new (ι : Type) : ListenSys ι := ⟨.empty, .new, 0, fun _ ↦ .absent⟩

/-- A commit, a call of the watcher's `on_change`, the end of the watcher, or a step of a listener.
`ok` tells whether a refill succeeds, `expired` whether a deadline is past. -/
inductive ListenAction (ι : Type)
  | commit (keep : Notification → Bool) (new : List (ℕ × String × String))
  | onChange
  | clear
  | listen (i : ι) (channel : String)
  | fetchAdd (i : ι)
  | insert (i : ι)
  | call (i : ι) (call : ReadCall)
  | next (i : ι) (ok expired : Bool)
  | drop (i : ι)

/-- The statement after a `rx.recv()` that has drained its channel. -/
def ReadCall.again : ReadCall → ListenPc
  | .recv => .popping .recv
  | .tryNext => .popping .tryNext
  | .recvTimeout => .refilling .recvTimeout

/-- The statement after a refill that found nothing. -/
def ReadCall.wait (expired : Bool) : ReadCall → ListenPc
  | .recv => .blocked .recv
  | .tryNext => .idle
  | .recvTimeout => if expired then .idle else .blocked .recvTimeout

section System

variable {ι : Type} [DecidableEq ι]

def ListenSys.set (s : ListenSys ι) (i : ι) (l : Listener) : ListenSys ι :=
  { s with ls := Function.update s.ls i l }

def listenNext (s : ListenSys ι) (i : ι) (ok expired : Bool) : ListenSys ι :=
  let l := s.ls i
  match l.pc with
  | .popping call =>
    match l.pending with
    | n :: rest =>
      s.set i { l with pc := .idle, lastId := n.id, pending := rest, yielded := l.yielded ++ [n] }
    | [] => s.set i { l with pc := .refilling call }
  | .refilling call =>
    if ok then
      match s.notes.select l.channel l.lastId with
      | [] => s.set i { l with pc := call.wait expired, seen := s.notes.commits }
      | n :: rest => s.set i { l with pc := .popping call, pending := l.pending ++ n :: rest }
    else s.set i { l with pc := .idle }
  | .blocked call =>
    if (s.hub.chan l.chan).tick then
      { s with hub := s.hub.takeTick l.chan }.set i { l with pc := .draining call }
    else if ¬ s.hub.Connected l.chan then s.set i { l with pc := .idle, closed := true }
    else if call = .recvTimeout ∧ expired then s.set i { l with pc := .idle }
    else s
  | .draining call =>
    if (s.hub.chan l.chan).tick then { s with hub := s.hub.takeTick l.chan }
    else s.set i { l with pc := call.again }
  | _ => s

def listenStep (s : ListenSys ι) : ListenAction ι → ListenSys ι
  | .commit keep new => { s with notes := s.notes.commit keep new }
  | .onChange => { s with hub := s.hub.onChange, announced := s.notes.commits }
  | .clear => { s with hub := s.hub.clear }
  | .listen i channel =>
    match (s.ls i).pc with
    | .absent => s.set i { Listener.absent with pc := .attaching s.notes.maxId, channel := channel }
    | _ => s
  | .fetchAdd i =>
    match (s.ls i).pc with
    | .attaching lastId =>
      { s with hub := s.hub.fetchAdd.2 }.set i
        { s.ls i with pc := .registering lastId s.hub.fetchAdd.1 }
    | _ => s
  | .insert i =>
    match (s.ls i).pc with
    | .registering lastId id =>
      { s with hub := s.hub.insert id }.set i
        { Listener.absent with
          pc := .idle, channel := (s.ls i).channel, lastId := lastId, attachedAt := lastId,
          subId := id, chan := s.hub.made }
    | _ => s
  | .call i call =>
    match (s.ls i).pc with
    | .idle =>
      if call = .recv ∧ (s.ls i).closed then s else s.set i { s.ls i with pc := .popping call }
    | _ => s
  | .next i ok expired => listenNext s i ok expired
  | .drop i =>
    match (s.ls i).pc with
    | .idle =>
      { s with hub := (s.hub.unsubscribe (s.ls i).subId).dropReceiver (s.ls i).chan }.set i
        { s.ls i with pc := .gone }
    | _ => s

end System

section Reading

/-- The id read by a `listen` that has yet to register. -/
def ListenPc.attachId : ListenPc → ℕ
  | .attaching lastId => lastId
  | .registering lastId _ => lastId
  | _ => 0

/-- A listener has read the rows of its channel past `attachedAt` in the order of their ids, and
skipped none of them but those that were pruned before. -/
structure Reading (t : Notifications) (l : Listener) : Prop where
  increasing : Log.Increasing Notification.id (l.yielded ++ l.pending)
  made : ∀ n ∈ l.yielded ++ l.pending, n ∈ t.made ∧ n.channel = l.channel ∧ l.attachedAt < n.id
  passed : ∀ n ∈ l.yielded, n.id ≤ l.lastId
  ahead : ∀ n ∈ l.pending, l.lastId < n.id
  start : l.attachedAt ≤ l.lastId
  bounded : l.lastId ≤ t.seq
  attach : l.pc.attachId ≤ t.seq
  whole : ∀ n ∈ t.made, n.channel = l.channel → l.attachedAt < n.id →
    (n.id ≤ l.lastId ∨ ∃ q ∈ l.pending, n.id ≤ q.id) → n ∈ l.yielded ++ l.pending ∨ n ∉ t.rows

variable {t : Notifications} {l : Listener}

theorem Reading.fresh (hyield : l.yielded = []) (hpending : l.pending = [])
    (hlast : l.lastId = l.attachedAt) (hle : l.attachedAt ≤ t.seq) (hattach : l.pc.attachId ≤ t.seq) :
    Reading t l := by
  refine ⟨?_, ?_, ?_, ?_, hlast.ge, hlast.trans_le hle, hattach, ?_⟩ <;>
    simp only [hyield, hpending, hlast]
  · exact List.Pairwise.nil
  · simp
  · simp
  · simp
  · rintro n - - hlt (hle | ⟨q, hq, -⟩)
    · omega
    · cases hq

theorem Reading.commit (h : Reading t l) (keep : Notification → Bool)
    (new : List (ℕ × String × String)) : Reading (t.commit keep new) l where
  increasing := h.increasing
  made n hn := ⟨List.mem_append_left _ (h.made n hn).1, (h.made n hn).2⟩
  passed := h.passed
  ahead := h.ahead
  start := h.start
  bounded := h.bounded.trans (le_stampSeq _ _)
  attach := h.attach.trans (le_stampSeq _ _)
  whole := by
    intro n hn hchan hpos hread
    rcases List.mem_append.mp hn with hold | hnew
    · refine (h.whole n hold hchan hpos hread).imp_right fun hrows hmem ↦ ?_
      rcases List.mem_append.mp hmem with hkept | hnew
      · exact hrows (List.mem_of_mem_filter hkept)
      · exact absurd (t.bounded n hold).1 (not_le.mpr (mem_stamp hnew).1)
    · -- A new row lies past all that was read.
      have hlt := (mem_stamp hnew).1
      rcases hread with hle | ⟨q, hq, hle⟩
      · exact absurd (hle.trans h.bounded) (not_le.mpr hlt)
      · have hmade := (h.made q (List.mem_append_right _ hq)).1
        exact absurd (hle.trans (t.bounded q hmade).1) (not_le.mpr hlt)

theorem Reading.of_eq {l' : Listener} (h : Reading t l) (hyield : l'.yielded = l.yielded)
    (hpending : l'.pending = l.pending) (hlast : l'.lastId = l.lastId)
    (hstart : l'.attachedAt = l.attachedAt) (hchan : l'.channel = l.channel)
    (hattach : l'.pc.attachId ≤ t.seq) : Reading t l' := by
  refine ⟨?_, ?_, ?_, ?_, ?_, ?_, hattach, ?_⟩ <;>
    simp only [hyield, hpending, hlast, hstart, hchan]
  · exact h.increasing
  · exact h.made
  · exact h.passed
  · exact h.ahead
  · exact h.start
  · exact h.bounded
  · exact h.whole

theorem Reading.pop (h : Reading t l) {n : Notification} {rest : List Notification}
    (hp : l.pending = n :: rest) : Reading t
      { l with pc := .idle, lastId := n.id, pending := rest, yielded := l.yielded ++ [n] } := by
  have hlist : l.yielded ++ [n] ++ rest = l.yielded ++ l.pending := by simp [hp]
  have hsorted := h.increasing
  rw [← hlist] at hsorted
  have hlast : l.lastId < n.id := h.ahead n (by simp [hp])
  have hn := h.made n (by simp [hp])
  refine ⟨hsorted, ?_, ?_, ?_, ?_, ?_, Nat.zero_le _, ?_⟩
  · dsimp only
    rw [hlist]
    exact h.made
  · intro m hm
    rcases List.mem_append.mp hm with hm | hm
    · exact (h.passed m hm).trans hlast.le
    · rw [List.mem_singleton.mp hm]
  · intro m hm
    exact (List.pairwise_append.mp hsorted).2.2 n (by simp) m hm
  · exact h.start.trans hlast.le
  · exact (t.bounded n hn.1).1
  · intro m hm hchan hpos hread
    dsimp only
    rw [hlist]
    refine h.whole m hm hchan hpos ?_
    rcases hread with hle | ⟨q, hq, hle⟩
    · exact Or.inr ⟨n, by simp [hp], hle⟩
    · exact Or.inr ⟨q, by simp [hp, hq], hle⟩

theorem Notifications.increasing_rows (t : Notifications) (p : Notification → Bool) :
    Log.Increasing Notification.id (t.rows.filter p) :=
  List.Pairwise.sublist (List.filter_sublist.trans t.sublist) t.increasing

theorem Reading.refill (h : Reading t l) (hp : l.pending = []) (pc : ListenPc)
    (hpc : pc.attachId ≤ t.seq) :
    Reading t { l with pc := pc, pending := l.pending ++ t.select l.channel l.lastId } := by
  have hmem {n : Notification} (hn : n ∈ t.select l.channel l.lastId) :
      n ∈ t.rows ∧ n.channel = l.channel ∧ l.lastId < n.id := by
    obtain ⟨hrows, hlt⟩ := Log.mem_batch hn
    exact ⟨List.mem_of_mem_filter hrows, by simpa using (List.mem_filter.mp hrows).2, hlt⟩
  have hsorted := h.increasing
  rw [hp, List.append_nil] at hsorted
  rw [hp, List.nil_append]
  refine ⟨?_, ?_, h.passed, fun n hn ↦ (hmem hn).2.2, h.start, h.bounded, hpc, ?_⟩
  · refine List.pairwise_append.mpr ⟨hsorted, (t.increasing_rows _).batch, fun a ha b hb ↦ ?_⟩
    exact (h.passed a ha).trans_lt (hmem hb).2.2
  · intro n hn
    rcases List.mem_append.mp hn with hn | hn
    · exact h.made n (List.mem_append_left _ hn)
    · obtain ⟨hrows, hchan, hlt⟩ := hmem hn
      exact ⟨t.sublist.subset hrows, hchan, h.start.trans_lt hlt⟩
  · intro n hn hchan hpos hread
    by_cases hle : n.id ≤ l.lastId
    · refine (h.whole n hn hchan hpos (Or.inl hle)).imp_left fun hy ↦ ?_
      rw [hp, List.append_nil] at hy
      exact List.mem_append_left _ hy
    · obtain ⟨q, hq, hnq⟩ := hread.resolve_left hle
      by_cases hrows : n ∈ t.rows
      · refine Or.inl (List.mem_append_right _ ?_)
        have hn' : n ∈ t.rows.filter fun n ↦ n.channel = l.channel := by simpa using ⟨hrows, hchan⟩
        exact (t.increasing_rows _).mem_batch_of_le hq hn' (not_le.mp hle) hnq
      · exact Or.inr hrows

end Reading

section Waking

/-- The places at which a listener has emptied its queue. -/
def ListenPc.drained : ListenPc → Bool
  | .refilling _ => true
  | .blocked _ => true
  | .draining _ => true
  | _ => false

/-- The places of a listener that has registered and not yet been dropped. -/
def ListenPc.attached : ListenPc → Bool
  | .absent => false
  | .attaching _ => false
  | .registering _ _ => false
  | .gone => false
  | _ => true

/-- A blocked listener has read all that its last refill could see, and a tick waits for it as soon as
an `on_change` has come since. -/
structure Waking (t : Notifications) (hub : Hub) (announced : ℕ) (l : Listener) : Prop where
  seen : l.seen ≤ t.commits
  empty : l.pc.drained = true → l.pending = []
  channel : l.pc.attached = true → l.chan < hub.made ∧ (hub.chan l.chan).alive = true
  unread : ∀ call, l.pc = .blocked call → ∀ n ∈ t.rows, n.channel = l.channel → l.lastId < n.id →
    l.seen < n.commit
  tick : ∀ call, l.pc = .blocked call → hub.Connected l.chan →
    (hub.chan l.chan).tick = true ∨ announced ≤ l.seen

variable {t : Notifications} {hub : Hub} {announced : ℕ} {l : Listener}

theorem Waking.absent (t : Notifications) (hub : Hub) (announced : ℕ) :
    Waking t hub announced .absent := by
  constructor <;> simp [Listener.absent, ListenPc.attached, ListenPc.drained]

theorem Waking.commit (h : Waking t hub announced l) (keep : Notification → Bool)
    (new : List (ℕ × String × String)) : Waking (t.commit keep new) hub announced l where
  seen := h.seen.trans (Nat.le_succ _)
  empty := h.empty
  channel := h.channel
  unread := by
    intro call hpc n hn hchan hlt
    rcases List.mem_append.mp hn with hold | hnew
    · exact h.unread call hpc n (List.mem_of_mem_filter hold) hchan hlt
    · rw [(mem_stamp hnew).2.2]
      exact Nat.lt_succ_of_le h.seen
  tick := h.tick

/-- A change of the hub that leaves the listener's channel as it is. -/
theorem Waking.of_hub {hub' : Hub} (h : Waking t hub announced l) (hmade : hub.made ≤ hub'.made)
    (hchan : l.pc.attached = true → hub'.chan l.chan = hub.chan l.chan)
    (hcon : l.pc.attached = true → hub'.Connected l.chan → hub.Connected l.chan) :
    Waking t hub' announced l where
  seen := h.seen
  empty := h.empty
  channel hatt := by
    rw [hchan hatt]
    exact ⟨(h.channel hatt).1.trans_le hmade, (h.channel hatt).2⟩
  unread := h.unread
  tick call hpc hc := by
    have hatt : l.pc.attached = true := by rw [hpc]; rfl
    rw [hchan hatt]
    exact h.tick call hpc (hcon hatt hc)

theorem Waking.onChange (h : Waking t hub announced l) (commits : ℕ) :
    Waking t hub.onChange commits l where
  seen := h.seen
  empty := h.empty
  channel hatt := by
    rw [Hub.chan_onChange_alive]
    exact h.channel hatt
  unread := h.unread
  tick call hpc hc := by
    have hcon := (hub.connected_onChange l.chan).mp hc
    refine Or.inl ?_
    simp only [Hub.onChange, if_pos hcon]

theorem Waking.of_pc {l' : Listener} (h : Waking t hub announced l)
    (hchan : l'.pc.attached = true → l.pc.attached = true ∧ l'.chan = l.chan)
    (hempty : l'.pc.drained = true → l'.pending = []) (hblocked : ∀ call, l'.pc ≠ .blocked call)
    (hseen : l'.seen = l.seen) : Waking t hub announced l' where
  seen := hseen ▸ h.seen
  empty := hempty
  channel hatt := by
    rw [(hchan hatt).2]
    exact h.channel (hchan hatt).1
  unread call hpc := absurd hpc (hblocked call)
  tick call hpc := absurd hpc (hblocked call)

theorem Waking.takeTick {l' : Listener} (h : Waking t hub announced l)
    (hchan : l.pc.attached = true ∧ l'.chan = l.chan)
    (hempty : l'.pc.drained = true → l'.pending = []) (hblocked : ∀ call, l'.pc ≠ .blocked call)
    (hseen : l'.seen = l.seen) : Waking t (hub.takeTick l.chan) announced l' where
  seen := hseen ▸ h.seen
  empty := hempty
  channel _ := by
    rw [hchan.2, Hub.chan_takeTick_alive]
    exact h.channel hchan.1
  unread call hpc := absurd hpc (hblocked call)
  tick call hpc := absurd hpc (hblocked call)

theorem Waking.refill (h : Waking t hub announced l) {call : ReadCall}
    (hpc : l.pc = .refilling call) (hnone : t.select l.channel l.lastId = []) (hle : announced ≤ t.commits)
    (expired : Bool) :
    Waking t hub announced { l with pc := call.wait expired, seen := t.commits } where
  seen := le_rfl
  empty _ := h.empty (by rw [hpc]; rfl)
  channel _ := h.channel (by rw [hpc]; rfl)
  unread := by
    intro _ _ n hn hchan hlt
    have hmem : n ∈ Log.ahead Notification.id l.lastId (t.rows.filter fun n ↦ n.channel = l.channel) :=
      Log.mem_ahead.mpr ⟨List.mem_filter.mpr ⟨hn, by simpa using hchan⟩, hlt⟩
    rw [Notifications.select, Log.batch, List.take_eq_nil_iff] at hnone
    rw [hnone.resolve_left (by omega)] at hmem
    cases hmem
  tick _ _ _ := Or.inr hle

end Waking

section Run

variable {ι : Type} [DecidableEq ι]

structure ListenInv (s : ListenSys ι) : Prop where
  announced : s.announced ≤ s.notes.commits
  reading : ∀ i, Reading s.notes (s.ls i)
  waking : ∀ i, Waking s.notes s.hub s.announced (s.ls i)
  distinct : ∀ i j, (s.ls i).pc.attached = true → (s.ls j).pc.attached = true →
    (s.ls i).chan = (s.ls j).chan → i = j

variable {s : ListenSys ι} {i : ι} {l : Listener} {hub : Hub}

/-- A step of one listener, with a hub that looks the same to the others. -/
theorem ListenInv.set (h : ListenInv s) (hread : Reading s.notes l)
    (hwake : Waking s.notes hub s.announced l)
    (hothers : ∀ j, j ≠ i → Waking s.notes hub s.announced (s.ls j))
    (hdistinct : l.pc.attached = true → ∀ j, j ≠ i → (s.ls j).pc.attached = true →
      l.chan ≠ (s.ls j).chan) : ListenInv ({ s with hub := hub }.set i l) := by
  refine ⟨h.announced, fun j ↦ ?_, fun j ↦ ?_, fun j k hj hk hjk ↦ ?_⟩
  · simp only [ListenSys.set, Function.update_apply]
    split_ifs
    · exact hread
    · exact h.reading j
  · simp only [ListenSys.set, Function.update_apply]
    split_ifs with hj
    · exact hwake
    · exact hothers j hj
  · simp only [ListenSys.set, Function.update_apply] at hj hk hjk
    split_ifs at hj hk hjk with hji hki hki
    · rw [hji, hki]
    · exact absurd hjk (hdistinct hj k hki hk)
    · exact absurd hjk.symm (hdistinct hk j hji hj)
    · exact h.distinct j k hj hk hjk

theorem ListenInv.set_own (h : ListenInv s) (hread : Reading s.notes l)
    (hwake : Waking s.notes hub s.announced l)
    (hothers : ∀ j, j ≠ i → Waking s.notes hub s.announced (s.ls j))
    (hchan : l.pc.attached = true → (s.ls i).pc.attached = true ∧ l.chan = (s.ls i).chan) :
    ListenInv ({ s with hub := hub }.set i l) := by
  refine h.set hread hwake hothers fun hl j hj hattached he ↦ hj ?_
  obtain ⟨hi, hc⟩ := hchan hl
  exact (h.distinct i j hi hattached (hc.symm.trans he)).symm

theorem ListenInv.set_local (h : ListenInv s) (hread : Reading s.notes l)
    (hwake : Waking s.notes s.hub s.announced l)
    (hchan : l.pc.attached = true → (s.ls i).pc.attached = true ∧ l.chan = (s.ls i).chan) :
    ListenInv (s.set i l) :=
  h.set_own hread hwake (fun j _ ↦ h.waking j) hchan

omit [DecidableEq ι] in
/-- A tick taken out of one channel, as the other listeners see it. -/
theorem ListenInv.takeTick (h : ListenInv s) (hi : (s.ls i).pc.attached = true) (j : ι) (hj : j ≠ i) :
    Waking s.notes (s.hub.takeTick (s.ls i).chan) s.announced (s.ls j) := by
  refine (h.waking j).of_hub le_rfl (fun hattached ↦ ?_) (fun _ hc ↦ ?_)
  · exact s.hub.chan_takeTick_of_ne fun he ↦ hj (h.distinct j i hattached hi he)
  · exact (s.hub.connected_takeTick _ _).mp hc

theorem listenInv_next (h : ListenInv s) (i : ι) (ok expired : Bool) :
    ListenInv (listenNext s i ok expired) := by
  have hr := h.reading i
  have hw := h.waking i
  cases hpc : (s.ls i).pc with
  | popping call =>
    cases hp : (s.ls i).pending with
    | nil =>
      simp only [listenNext, hpc, hp]
      refine h.set_local (hr.of_eq rfl hp.symm rfl rfl rfl (Nat.zero_le _)) ?_ ?_
      · exact hw.of_pc (fun _ ↦ ⟨by rw [hpc]; rfl, rfl⟩) (fun _ ↦ rfl) (by simp) rfl
      · exact fun _ ↦ ⟨by rw [hpc]; rfl, rfl⟩
    | cons n rest =>
      simp only [listenNext, hpc, hp]
      refine h.set_local (hr.pop hp) ?_ (fun _ ↦ ⟨by rw [hpc]; rfl, rfl⟩)
      exact hw.of_pc (fun _ ↦ ⟨by rw [hpc]; rfl, rfl⟩) (by simp [ListenPc.drained]) (by simp) rfl
  | refilling call =>
    have hatt : (s.ls i).pc.attached = true := by rw [hpc]; rfl
    cases ok with
    | false =>
      simp only [listenNext, hpc]
      refine h.set_local (hr.of_eq rfl rfl rfl rfl rfl (Nat.zero_le _)) ?_ (fun _ ↦ ⟨hatt, rfl⟩)
      exact hw.of_pc (fun _ ↦ ⟨hatt, rfl⟩) (by simp [ListenPc.drained]) (by simp) rfl
    | true =>
      cases hsel : s.notes.select (s.ls i).channel (s.ls i).lastId with
      | nil =>
        simp only [listenNext, hpc, hsel, if_true]
        refine h.set_local (hr.of_eq rfl rfl rfl rfl rfl ?_) (hw.refill hpc hsel h.announced expired)
          (fun _ ↦ ⟨hatt, rfl⟩)
        cases call <;> cases expired <;> exact Nat.zero_le _
      | cons n rest =>
        have hread := hr.refill (hw.empty (by rw [hpc]; rfl)) (.popping call) (Nat.zero_le _)
        rw [hsel] at hread
        simp only [listenNext, hpc, hsel, if_true]
        refine h.set_local hread ?_ (fun _ ↦ ⟨hatt, rfl⟩)
        exact hw.of_pc (fun _ ↦ ⟨hatt, rfl⟩) (by simp [ListenPc.drained]) (by simp) rfl
  | blocked call =>
    have hatt : (s.ls i).pc.attached = true := by rw [hpc]; rfl
    have hempty : (s.ls i).pending = [] := hw.empty (by rw [hpc]; rfl)
    simp only [listenNext, hpc]
    split_ifs with htick hcon hexp
    · refine h.set_own (hr.of_eq rfl rfl rfl rfl rfl (Nat.zero_le _)) ?_ (h.takeTick hatt)
        (fun _ ↦ ⟨hatt, rfl⟩)
      exact hw.takeTick ⟨hatt, rfl⟩ (fun _ ↦ hempty) (by simp) rfl
    · refine h.set_local (hr.of_eq rfl rfl rfl rfl rfl (Nat.zero_le _)) ?_ (fun _ ↦ ⟨hatt, rfl⟩)
      exact hw.of_pc (fun _ ↦ ⟨hatt, rfl⟩) (fun _ ↦ hempty) (by simp) rfl
    · exact h
    · refine h.set_local (hr.of_eq rfl rfl rfl rfl rfl (Nat.zero_le _)) ?_ (fun _ ↦ ⟨hatt, rfl⟩)
      exact hw.of_pc (fun _ ↦ ⟨hatt, rfl⟩) (fun _ ↦ hempty) (by simp) rfl
  | draining call =>
    have hatt : (s.ls i).pc.attached = true := by rw [hpc]; rfl
    have hempty : (s.ls i).pending = [] := hw.empty (by rw [hpc]; rfl)
    simp only [listenNext, hpc]
    split_ifs with htick
    · have hset : { s with hub := s.hub.takeTick (s.ls i).chan } =
          { s with hub := s.hub.takeTick (s.ls i).chan }.set i (s.ls i) := by
        simp [ListenSys.set]
      rw [hset]
      refine h.set_own hr ?_ (h.takeTick hatt) (fun _ ↦ ⟨hatt, rfl⟩)
      exact hw.takeTick ⟨hatt, rfl⟩ (fun _ ↦ hempty) (by simp [hpc]) rfl
    · refine h.set_local (hr.of_eq rfl rfl rfl rfl rfl ?_) ?_ (fun _ ↦ ⟨hatt, rfl⟩)
      · cases call <;> exact Nat.zero_le _
      · refine hw.of_pc (fun _ ↦ ⟨hatt, rfl⟩) (fun _ ↦ hempty) ?_ rfl
        cases call <;> simp [ReadCall.again]
  | _ => simpa only [listenNext, hpc] using h

theorem listenInv_listenStep (s : ListenSys ι) (a : ListenAction ι) (h : ListenInv s) :
    ListenInv (listenStep s a) := by
  cases a with
  | commit keep new =>
    exact ⟨h.announced.trans (Nat.le_succ _), fun i ↦ (h.reading i).commit keep new,
      fun i ↦ (h.waking i).commit keep new, h.distinct⟩
  | onChange => exact ⟨le_rfl, h.reading, fun i ↦ (h.waking i).onChange _, h.distinct⟩
  | clear =>
    refine ⟨h.announced, h.reading, fun i ↦ ?_, h.distinct⟩
    exact (h.waking i).of_hub le_rfl (fun _ ↦ rfl) (fun _ hc ↦ absurd hc (s.hub.connected_clear _))
  | listen i channel =>
    cases hpc : (s.ls i).pc with
    | absent =>
      simp only [listenStep, hpc]
      refine h.set_local (Reading.fresh rfl rfl rfl (Nat.zero_le _) s.notes.maxId_le) ?_ (by simp [ListenPc.attached])
      constructor <;> simp [Listener.absent, ListenPc.attached, ListenPc.drained]
    | _ => simpa only [listenStep, hpc] using h
  | fetchAdd i =>
    cases hpc : (s.ls i).pc with
    | attaching lastId =>
      have hattach : lastId ≤ s.notes.seq := by
        have := (h.reading i).attach
        rwa [hpc] at this
      simp only [listenStep, hpc]
      refine h.set_own ((h.reading i).of_eq rfl rfl rfl rfl rfl hattach) ?_ (fun j _ ↦ ?_)
        (by simp [ListenPc.attached])
      · exact ⟨(h.waking i).seen, by simp [ListenPc.drained], by simp [ListenPc.attached], by simp,
          by simp⟩
      · exact (h.waking j).of_hub le_rfl (fun _ ↦ rfl) (fun _ hc ↦ hc)
    | _ => simpa only [listenStep, hpc] using h
  | insert i =>
    cases hpc : (s.ls i).pc with
    | registering lastId id =>
      have hattach : lastId ≤ s.notes.seq := by
        have := (h.reading i).attach
        rwa [hpc] at this
      simp only [listenStep, hpc]
      refine h.set (Reading.fresh rfl rfl rfl hattach (Nat.zero_le _)) ?_ (fun j _ ↦ ?_) ?_
      · refine ⟨Nat.zero_le _, by simp [ListenPc.drained], fun _ ↦ ⟨Nat.lt_succ_self _, ?_⟩, by simp,
          by simp⟩
        simp [Hub.insert]
      · have hne (hatt : (s.ls j).pc.attached = true) : (s.ls j).chan ≠ s.hub.made :=
          ((h.waking j).channel hatt).1.ne
        exact (h.waking j).of_hub (Nat.le_succ _) (fun hatt ↦ s.hub.chan_insert (hne hatt) id)
          (fun hatt hc ↦ ((s.hub.connected_insert (hne hatt) id).mp hc).1)
      · exact fun _ j _ hatt ↦ ((h.waking j).channel hatt).1.ne'
    | _ => simpa only [listenStep, hpc] using h
  | call i call =>
    cases hpc : (s.ls i).pc with
    | idle =>
      have hatt : (s.ls i).pc.attached = true := by rw [hpc]; rfl
      simp only [listenStep, hpc]
      split_ifs
      · exact h
      · refine h.set_local ((h.reading i).of_eq rfl rfl rfl rfl rfl (Nat.zero_le _)) ?_
          (fun _ ↦ ⟨hatt, rfl⟩)
        exact (h.waking i).of_pc (fun _ ↦ ⟨hatt, rfl⟩) (by simp [ListenPc.drained]) (by simp) rfl
    | _ => simpa only [listenStep, hpc] using h
  | next i ok expired => exact listenInv_next h i ok expired
  | drop i =>
    cases hpc : (s.ls i).pc with
    | idle =>
      have hatt : (s.ls i).pc.attached = true := by rw [hpc]; rfl
      simp only [listenStep, hpc]
      refine h.set_own ((h.reading i).of_eq rfl rfl rfl rfl rfl (Nat.zero_le _)) ?_ (fun j hj ↦ ?_)
        (by simp [ListenPc.attached])
      · exact ⟨(h.waking i).seen, by simp [ListenPc.drained], by simp [ListenPc.attached], by simp,
          by simp⟩
      · refine (h.waking j).of_hub le_rfl (fun hj' ↦ ?_) (fun _ hc ↦ ?_)
        · exact Hub.chan_dropReceiver_of_ne _ fun he ↦ hj (h.distinct j i hj' hatt he)
        · rw [Hub.connected_dropReceiver, Hub.connected_unsubscribe] at hc
          exact hc.1
    | _ => simpa only [listenStep, hpc] using h

theorem listenInv_run (as : List (ListenAction ι)) : ListenInv (run listenStep (.new ι) as) := by
  refine run_invariant listenStep listenInv_listenStep ⟨le_rfl, fun i ↦ ?_, fun i ↦ ?_, ?_⟩ as
  · exact Reading.fresh rfl rfl rfl le_rfl le_rfl
  · exact Waking.absent _ _ _
  · simp [ListenSys.new, Listener.absent, ListenPc.attached]

/-- The places of a listener in one of its calls. -/
def ListenPc.calling : ListenPc → Bool
  | .popping _ => true
  | .refilling _ => true
  | .blocked _ => true
  | .draining _ => true
  | _ => false

/-- A row of the table that a listener is yet to yield. -/
def Unread (s : ListenSys ι) (i : ι) (n : Notification) : Prop :=
  n ∈ s.notes.rows ∧ n.channel = (s.ls i).channel ∧ (s.ls i).attachedAt < n.id ∧ n ∉ (s.ls i).yielded

/-- A refill of listener `i` does not fail, and a commit does not prune `n`. -/
def Unhindered (i : ι) (n : Notification) : ListenAction ι → Prop
  | .commit keep _ => keep n = true
  | .next j ok _ => j = i → ok = true
  | _ => True

def ListenAction.isOnChange : ListenAction ι → Bool
  | .onChange => true
  | _ => false

def ListenAction.isNext (i : ι) : ListenAction ι → Bool
  | .next j _ _ => j = i
  | _ => false

def ListenAction.listener : ListenAction ι → Option ι
  | .listen i _ | .fetchAdd i | .insert i | .call i _ | .next i _ _ | .drop i => some i
  | _ => none

/-- The statements a listener has left before it yields a row, where there is one to read. -/
def Listener.left (hub : Hub) (l : Listener) : ℕ :=
  match l.pc with
  | .popping _ => if l.pending = [] then 3 else 1
  | .refilling _ => 2
  | .blocked _ => 5
  | .draining _ => if (hub.chan l.chan).tick then 5 else 4
  | _ => 0

/-- A listener in a call, with the row `n` unread and `yielded` behind it, is at most `k` statements away
from the next row. -/
structure Nearing (i : ι) (n : Notification) (yielded : List Notification) (k : ℕ) (s : ListenSys ι) :
    Prop where
  inv : ListenInv s
  unread : Unread s i n
  yielded : (s.ls i).yielded = yielded
  calling : (s.ls i).pc.calling = true
  awake : ∀ call, (s.ls i).pc = .blocked call → (s.hub.chan (s.ls i).chan).tick = true
  left : (s.ls i).left s.hub ≤ k

/-- A listener that has yielded past `yielded`, and not past `n`. -/
def Yields (i : ι) (n : Notification) (yielded : List Notification) (s : ListenSys ι) : Prop :=
  ∃ m, (s.ls i).yielded = yielded ++ [m] ∧ m.id ≤ n.id

theorem attached_of_calling {pc : ListenPc} (h : pc.calling = true) : pc.attached = true := by
  cases pc <;> first | rfl | cases h

theorem left_pos {hub : Hub} {l : Listener} (h : l.pc.calling = true) : 0 < l.left hub := by
  cases hpc : l.pc <;> simp only [hpc, ListenPc.calling, Bool.false_eq_true] at h <;>
    simp only [Listener.left, hpc] <;> (try split_ifs) <;> omega

theorem left_le (hub : Hub) (l : Listener) : l.left hub ≤ 5 := by
  unfold Listener.left
  split <;> (try split_ifs) <;> omega

/-- A step of listener `j` changes nothing but `j` and its own channel. -/
theorem listenStep_of_listener {a : ListenAction ι} {j : ι} (ha : a.listener = some j) :
    ∃ hub l, listenStep s a = { s with hub := hub }.set j l ∧ ∀ c < s.hub.made,
      ((s.ls j).pc.attached = true → c ≠ (s.ls j).chan) → hub.chan c = s.hub.chan c := by
  have hself : ∃ hub l, s = { s with hub := hub }.set j l ∧ ∀ c < s.hub.made,
      ((s.ls j).pc.attached = true → c ≠ (s.ls j).chan) → hub.chan c = s.hub.chan c :=
    ⟨s.hub, s.ls j, by simp [ListenSys.set], fun _ _ _ ↦ rfl⟩
  have htake (hatt : (s.ls j).pc.attached = true) : ∀ c < s.hub.made,
      ((s.ls j).pc.attached = true → c ≠ (s.ls j).chan) →
        (s.hub.takeTick (s.ls j).chan).chan c = s.hub.chan c :=
    fun c _ hc ↦ s.hub.chan_takeTick_of_ne (hc hatt)
  cases a with
  | commit | onChange | clear => cases ha
  | next j ok expired =>
    cases ha
    cases hpc : (s.ls j).pc with
    | popping call =>
      cases hp : (s.ls j).pending <;> simp only [listenStep, listenNext, hpc, hp] <;>
        exact ⟨s.hub, _, rfl, fun _ _ _ ↦ rfl⟩
    | refilling call =>
      cases hsel : s.notes.select (s.ls j).channel (s.ls j).lastId <;> cases ok <;>
        simp only [listenStep, listenNext, hpc, hsel, if_true, Bool.false_eq_true, if_false] <;>
        exact ⟨s.hub, _, rfl, fun _ _ _ ↦ rfl⟩
    | blocked call =>
      rw [hpc] at htake
      simp only [listenStep, listenNext, hpc]
      split_ifs
      · exact ⟨_, _, rfl, htake rfl⟩
      · exact ⟨s.hub, _, rfl, fun _ _ _ ↦ rfl⟩
      · exact hpc ▸ hself
      · exact ⟨s.hub, _, rfl, fun _ _ _ ↦ rfl⟩
    | draining call =>
      rw [hpc] at htake
      simp only [listenStep, listenNext, hpc]
      split_ifs
      · exact ⟨_, s.ls j, by simp [ListenSys.set], htake rfl⟩
      · exact ⟨s.hub, _, rfl, fun _ _ _ ↦ rfl⟩
    | _ => simpa only [listenStep, listenNext, hpc] using hself
  | listen j channel =>
    cases ha
    cases hpc : (s.ls j).pc with
    | absent =>
      simp only [listenStep, hpc]
      exact ⟨s.hub, _, rfl, fun _ _ _ ↦ rfl⟩
    | _ => simpa only [listenStep, hpc] using hself
  | fetchAdd j =>
    cases ha
    cases hpc : (s.ls j).pc with
    | attaching lastId =>
      simp only [listenStep, hpc]
      exact ⟨_, _, rfl, fun _ _ _ ↦ rfl⟩
    | _ => simpa only [listenStep, hpc] using hself
  | insert j =>
    cases ha
    cases hpc : (s.ls j).pc with
    | registering lastId id =>
      simp only [listenStep, hpc]
      exact ⟨_, _, rfl, fun c hc _ ↦ s.hub.chan_insert hc.ne id⟩
    | _ => simpa only [listenStep, hpc] using hself
  | call j call =>
    cases ha
    cases hpc : (s.ls j).pc with
    | idle =>
      simp only [listenStep, hpc]
      split_ifs
      · exact hpc ▸ hself
      · exact ⟨s.hub, _, rfl, fun _ _ _ ↦ rfl⟩
    | _ => simpa only [listenStep, hpc] using hself
  | drop j =>
    cases ha
    cases hpc : (s.ls j).pc with
    | idle =>
      simp only [listenStep, hpc]
      exact ⟨_, _, rfl, fun c _ hc ↦ Hub.chan_dropReceiver_of_ne _ (hc rfl)⟩
    | _ => simpa only [listenStep, hpc] using hself

/-- In a call, a listener makes no step but the next statement of the call. -/
theorem listenStep_of_calling {a : ListenAction ι} {j : ι} (ha : a.listener = some j)
    (hnext : a.isNext j = false) (hpc : (s.ls j).pc.calling = true) : listenStep s a = s := by
  cases a with
  | commit | onChange | clear => cases ha
  | next k ok expired =>
    cases ha
    simp [ListenAction.isNext] at hnext
  | listen | fetchAdd | insert | call | drop =>
    cases ha
    cases h : (s.ls j).pc <;> simp only [h, ListenPc.calling, Bool.false_eq_true] at hpc <;>
      simp only [listenStep, h]

variable {n : Notification} {yielded : List Notification} {k : ℕ} {s' : ListenSys ι}

omit [DecidableEq ι] in
theorem Unread.lastId_lt (h : ListenInv s) (hn : Unread s i n) (hp : (s.ls i).pending = []) :
    (s.ls i).lastId < n.id := by
  obtain ⟨hrow, hchan, hpos, hunread⟩ := hn
  by_contra hle
  rcases (h.reading i).whole n (s.notes.sublist.subset hrow) hchan hpos (Or.inl (not_lt.mp hle)) with
    hy | hpruned
  · rw [hp, List.append_nil] at hy
    exact hunread hy
  · exact hpruned hrow

omit [DecidableEq ι] in
/-- The table still has a row that is neither read nor pending. -/
theorem Unread.select_ne_nil (h : ListenInv s) (hn : Unread s i n) (hp : (s.ls i).pending = []) :
    s.notes.select (s.ls i).channel (s.ls i).lastId ≠ [] := by
  have hlt := hn.lastId_lt h hp
  obtain ⟨hrow, hchan, -, -⟩ := hn
  have hmem : n ∈ Log.ahead Notification.id (s.ls i).lastId
      (s.notes.rows.filter fun n ↦ n.channel = (s.ls i).channel) :=
    Log.mem_ahead.mpr ⟨List.mem_filter.mpr ⟨hrow, by simpa using hchan⟩, hlt⟩
  intro hnone
  rw [Notifications.select, Log.batch, List.take_eq_nil_iff] at hnone
  rw [hnone.resolve_left (by omega)] at hmem
  cases hmem

omit [DecidableEq ι] in
/-- The first pending row is not past an unread one. -/
theorem Unread.head_le (h : ListenInv s) (hn : Unread s i n) {m : Notification}
    {rest : List Notification} (hp : (s.ls i).pending = m :: rest) : m.id ≤ n.id := by
  obtain ⟨hrow, hchan, hpos, hunread⟩ := hn
  by_contra hlt
  rcases (h.reading i).whole n (s.notes.sublist.subset hrow) hchan hpos
    (Or.inr ⟨m, by simp [hp], (not_le.mp hlt).le⟩) with hmem | hpruned
  · have hsorted := (List.pairwise_append.mp (h.reading i).increasing).2.1
    rw [hp, List.pairwise_cons] at hsorted
    rcases List.mem_append.mp hmem with hy | hpending
    · exact hunread hy
    · rw [hp] at hpending
      rcases List.mem_cons.mp hpending with rfl | hrest
      · exact hlt le_rfl
      · exact hlt (hsorted.1 n hrest).le
  · exact hpruned hrow

omit [DecidableEq ι] in
/-- A step that the listener does not notice but for a tick. -/
theorem Nearing.frame {d : ℕ} (h : Nearing i n yielded k s) (hinv : ListenInv s')
    (hls : s'.ls i = s.ls i) (hrow : n ∈ s'.notes.rows)
    (htick : (s.hub.chan (s.ls i).chan).tick = true → (s'.hub.chan (s.ls i).chan).tick = true)
    (hleft : (s'.hub.chan (s.ls i).chan).tick = (s.hub.chan (s.ls i).chan).tick ∨ d = 1) :
    Nearing i n yielded (k + d) s' where
  inv := hinv
  unread := by
    rw [Unread, hls]
    exact ⟨hrow, h.unread.2⟩
  yielded := hls ▸ h.yielded
  calling := hls ▸ h.calling
  awake call hpc := by
    rw [hls] at hpc ⊢
    exact htick (h.awake call hpc)
  left := by
    have hk := h.left
    rw [hls]
    rcases hleft with heq | rfl
    · refine le_trans (le_of_eq ?_) (hk.trans (Nat.le_add_right k d))
      unfold Listener.left
      rw [heq]
    · unfold Listener.left at hk ⊢
      split at hk <;> (try split_ifs at hk ⊢) <;> omega

theorem nearing_next (h : Nearing i n yielded k s) (expired : Bool) :
    Yields i n yielded (listenNext s i true expired) ∨
      ∃ k', k' + 1 ≤ k ∧ Nearing i n yielded k' (listenNext s i true expired) := by
  have hinv := listenInv_next h.inv i true expired
  have hatt := attached_of_calling h.calling
  have hleft := h.left
  have hw := h.inv.waking i
  have hown {l : Listener} {hub : Hub} (hy : l.yielded = (s.ls i).yielded)
      (hc : l.channel = (s.ls i).channel) (ha : l.attachedAt = (s.ls i).attachedAt)
      (hinv : ListenInv ({ s with hub := hub }.set i l)) (hcall : l.pc.calling = true)
      (hblocked : ∀ call, l.pc ≠ .blocked call) (hl : l.left hub + 1 ≤ k) :
      ∃ k', k' + 1 ≤ k ∧ Nearing i n yielded k' ({ s with hub := hub }.set i l) := by
    have hls : ({ s with hub := hub }.set i l).ls i = l := Function.update_self _ _ _
    refine ⟨l.left hub, hl, hinv, ?_, ?_, ?_, ?_, ?_⟩
    · rw [Unread, hls, hy, hc, ha]
      exact h.unread
    · rw [hls, hy, h.yielded]
    · rwa [hls]
    · rw [hls]
      exact fun call hpc ↦ absurd hpc (hblocked call)
    · rw [hls]
      exact le_rfl
  cases hpc : (s.ls i).pc with
  | popping call =>
    cases hp : (s.ls i).pending with
    | nil =>
      simp only [Listener.left, hpc, hp, if_true] at hleft
      simp only [listenNext, hpc, hp] at hinv ⊢
      exact Or.inr (hown rfl rfl rfl hinv rfl nofun hleft)
    | cons m rest =>
      refine Or.inl ⟨m, ?_, h.unread.head_le h.inv hp⟩
      simp [listenNext, hpc, hp, ListenSys.set, h.yielded]
  | refilling call =>
    simp only [Listener.left, hpc] at hleft
    cases hsel : s.notes.select (s.ls i).channel (s.ls i).lastId with
    | nil => exact absurd hsel (h.unread.select_ne_nil h.inv (hw.empty (by rw [hpc]; rfl)))
    | cons m rest =>
      simp only [listenNext, hpc, hsel, if_true] at hinv ⊢
      refine Or.inr (hown rfl rfl rfl hinv rfl nofun ?_)
      simpa [Listener.left] using hleft
  | blocked call =>
    simp only [Listener.left, hpc] at hleft
    simp only [listenNext, hpc, h.awake call hpc, if_true] at hinv ⊢
    refine Or.inr (hown rfl rfl rfl hinv rfl nofun ?_)
    simpa [Listener.left, Hub.takeTick] using hleft
  | draining call =>
    cases htick : (s.hub.chan (s.ls i).chan).tick with
    | true =>
      simp only [Listener.left, hpc, htick, if_true] at hleft
      simp only [listenNext, hpc, htick, if_true] at hinv ⊢
      have hset : { s with hub := s.hub.takeTick (s.ls i).chan } =
          { s with hub := s.hub.takeTick (s.ls i).chan }.set i (s.ls i) := by
        simp [ListenSys.set]
      rw [hset] at hinv ⊢
      refine Or.inr (hown rfl rfl rfl hinv (by rw [hpc]; rfl) (by simp [hpc]) ?_)
      simpa [Listener.left, hpc, Hub.takeTick] using hleft
    | false =>
      simp only [Listener.left, hpc, htick, Bool.false_eq_true, if_false] at hleft
      simp only [listenNext, hpc, htick, Bool.false_eq_true, if_false] at hinv ⊢
      have hempty : (s.ls i).pending = [] := hw.empty (by rw [hpc]; rfl)
      refine Or.inr (hown rfl rfl rfl hinv (by cases call <;> rfl) (by cases call <;> simp [ReadCall.again]) ?_)
      cases call <;> simp only [Listener.left, ReadCall.again, hempty, if_true] <;> omega
  | _ => simpa [hpc, ListenPc.calling] using h.calling

theorem nearing_step (a : ListenAction ι) (ha : Unhindered i n a) (h : Nearing i n yielded k s) :
    Yields i n yielded (listenStep s a) ∨
      ∃ k', k' + (a.isNext i).toNat ≤ k + a.isOnChange.toNat ∧ Nearing i n yielded k' (listenStep s a) := by
  have hinv := listenInv_listenStep s a h.inv
  have hatt := attached_of_calling h.calling
  have hrow := h.unread.1
  -- A step that the listener does not notice.
  have hframe (hls : (listenStep s a).ls i = s.ls i) (hrow : n ∈ (listenStep s a).notes.rows)
      (hchan : (listenStep s a).hub.chan (s.ls i).chan = s.hub.chan (s.ls i).chan)
      (hown : a.isNext i = false) : ∃ k', k' + (a.isNext i).toNat ≤ k + a.isOnChange.toNat ∧
        Nearing i n yielded k' (listenStep s a) :=
    ⟨k, by simp [hown], h.frame (d := 0) hinv hls hrow (by rw [hchan]; exact id) (Or.inl (by rw [hchan]))⟩
  cases hl : a.listener with
  | some j =>
    by_cases hj : j = i
    · subst hj
      cases hown : a.isNext j with
      | true =>
        cases a with
        | next k ok expired =>
          obtain rfl : k = j := by simpa [ListenAction.isNext] using hown
          obtain rfl := ha rfl
          simpa [listenStep, ListenAction.isOnChange] using nearing_next h expired
        | _ => cases hown
      | false =>
        rw [listenStep_of_calling hl hown h.calling]
        exact Or.inr ⟨k, by simp, h⟩
    · obtain ⟨hub, l, heq, hchan⟩ := listenStep_of_listener (s := s) hl
      refine Or.inr (hframe ?_ ?_ ?_ ?_)
      · rw [heq]
        exact Function.update_of_ne (Ne.symm hj) _ _
      · rw [heq]
        exact hrow
      · rw [heq]
        refine hchan _ ((h.inv.waking i).channel hatt).1 fun hattj he ↦ hj ?_
        exact h.inv.distinct j i hattj hatt he.symm
      · cases a with
        | next k ok expired =>
          obtain rfl : k = j := Option.some.inj hl
          simpa [ListenAction.isNext] using hj
        | _ => rfl
  | none =>
    cases a with
    | commit keep new =>
      exact Or.inr (hframe rfl (List.mem_append_left _ (List.mem_filter.mpr ⟨hrow, ha⟩)) rfl rfl)
    | onChange =>
      refine Or.inr ⟨k + 1, by simp [ListenAction.isNext, ListenAction.isOnChange], ?_⟩
      refine h.frame hinv rfl hrow (fun htick ↦ ?_) (Or.inr rfl)
      simp only [listenStep, Hub.onChange]
      split_ifs
      · rfl
      · exact htick
    | clear => exact Or.inr (hframe rfl hrow rfl rfl)
    | _ => cases hl

/-- In every run of commits, `on_change` calls and listeners, what a listener has yielded are rows of
its channel past the greatest id at the time it attached, in the order of their ids, with none left
out but those pruned before they were read; and while it is blocked in `rx.recv()` with such a row
unread, its channel holds a tick, or no `on_change` has come since the row's commit. A listener in a
call that is not blocked, or has a tick, and has a row unread yields the next one, whatever happens
beside it: after five of its statements, and one more for each `on_change` that comes between, unless
a refill fails or the row is pruned. -/
theorem listener_complete (as : List (ListenAction ι)) (i : ι) :
    let s := run listenStep (.new ι) as
    let l := s.ls i
    Log.Increasing Notification.id l.yielded ∧
    (∀ n ∈ l.yielded, n ∈ s.notes.made ∧ n.channel = l.channel ∧ l.attachedAt < n.id) ∧
    (∀ n ∈ s.notes.made, n.channel = l.channel → l.attachedAt < n.id →
      (∃ q ∈ l.yielded, n.id ≤ q.id) → n ∈ l.yielded ∨ n ∉ s.notes.rows) ∧
    (∀ call, l.pc = .blocked call → s.hub.Connected l.chan → ∀ n ∈ s.notes.rows,
      n.channel = l.channel → l.attachedAt < n.id → n ∉ l.yielded →
        (s.hub.chan l.chan).tick = true ∨ s.announced < n.commit) ∧
    ∀ n, Unread s i n → l.pc.calling = true →
      (∀ call, l.pc = .blocked call → (s.hub.chan l.chan).tick = true) →
      ∀ bs, (∀ a ∈ bs, Unhindered i n a) →
        5 + bs.countP ListenAction.isOnChange ≤ bs.countP (ListenAction.isNext i) →
        ∃ cs ds, bs = cs ++ ds ∧ ∃ m, ((run listenStep s cs).ls i).yielded = l.yielded ++ [m] ∧
          m.id ≤ n.id := by
  intro s l
  have h : ListenInv s := listenInv_run as
  have hr := h.reading i
  have hw := h.waking i
  refine ⟨?_, ?_, ?_, ?_, ?_⟩
  · exact hr.increasing.sublist (List.sublist_append_left _ _)
  · exact fun n hn ↦ hr.made n (List.mem_append_left _ hn)
  · rintro n hn hchan hpos ⟨q, hq, hle⟩
    have hlast : n.id ≤ l.lastId := hle.trans (hr.passed q hq)
    refine (hr.whole n hn hchan hpos (Or.inl hlast)).imp_left fun hread ↦ ?_
    rcases List.mem_append.mp hread with hy | hp
    · exact hy
    · exact absurd (hr.ahead n hp) (not_lt.mpr hlast)
  · intro call hpc hcon n hn hchan hpos hunread
    have hlt : l.lastId < n.id :=
      Unread.lastId_lt h ⟨hn, hchan, hpos, hunread⟩ (hw.empty (by rw [hpc]; rfl))
    have hseen := hw.unread call hpc n hn hchan hlt
    exact (hw.tick call hpc hcon).imp_right fun hle ↦ hle.trans_lt hseen
  · intro n hn hcall hawake bs hbs hsteps
    have hnear : Nearing i n l.yielded 5 s := ⟨h, hn, rfl, hcall, hawake, left_le _ _⟩
    have hzero (s : ListenSys ι) (hs : Nearing i n l.yielded 0 s) : Yields i n l.yielded s :=
      absurd hs.left (not_le.mpr (left_pos hs.calling))
    have halong : Along listenStep (fun _ a ↦ Unhindered i n a) s bs := Along.of_forall hbs
    exact along_reaches listenStep hzero (fun k s a ha hs ↦ nearing_step a ha hs) hnear halong hsteps

end Run

/-- A listener blocks, and a notification on its channel is committed. -/
def blockThenNotify : List (ListenAction Unit) :=
  [.listen () "orders", .fetchAdd (), .insert (), .call () .recv, .next () true false,
    .next () true false, .commit (fun _ ↦ true) [(0, "orders", "p")], .onChange]

theorem listener_complete_blocked :
    let s := run listenStep (.new Unit) blockThenNotify
    ((s.hub.chan (s.ls ()).chan).tick = true ∨ s.announced < 1) ∧
      ∃ cs ds, List.replicate 5 (.next () true false) = cs ++ ds ∧
        ∃ m, ((run listenStep s cs).ls ()).yielded = [] ++ [m] ∧ m.id ≤ 1 := by
  intro s
  obtain ⟨-, -, -, hwakes, hyields⟩ := listener_complete blockThenNotify ()
  refine ⟨hwakes .recv rfl rfl ⟨1, "orders", "p", 1⟩ (.head _) rfl Nat.one_pos
    (by exact List.not_mem_nil), ?_⟩
  refine hyields ⟨1, "orders", "p", 1⟩ ⟨.head _, rfl, Nat.one_pos, by exact List.not_mem_nil⟩ rfl
    (fun _ _ ↦ rfl) _ (fun a ha ↦ ?_) (by decide)
  rw [List.eq_of_mem_replicate ha]
  exact fun _ ↦ rfl

end Honker
