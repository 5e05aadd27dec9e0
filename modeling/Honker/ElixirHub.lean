import Honker.Library.Interleaving
import Mathlib.Logic.Function.Basic
import Mathlib.Data.List.Nodup

namespace Honker

open Interleaving

namespace ElixirHub

inductive Reason
  | closed
  | watcher (text : String)
deriving DecidableEq

/-- What a `GenServer.call` returns; `exited` stands for a hub that has stopped. -/
inductive Reply
  | ok
  | changed
  | timeout
  | error (reason : Reason)
  | exited
deriving DecidableEq

inductive Request (ι : Type)
  | subscribe (subscriber : ι)
  | unsubscribe (subscriber : ι)
  | wait (timeoutMs : ℕ)
  | close

/-- A message in the mailbox of the hub. A call carries its tag and the process that made it. -/
inductive Msg (ι : Type)
  | call (tag : ℕ) (pid : ι) (request : Request ι)
  | watcherChanged
  | watcherError (reason : Reason)
  | waitTimeout (ref : ℕ)
  | down (monitor : ℕ) (pid : ι)
  | exit (normal : Bool) (text : String)

/-- A pending `wait`, under the reference of its timer. -/
structure Waiter (ι : Type) where
  ref : ℕ
  tag : ℕ
  pid : ι

/-- The state of the `GenServer`. -/
structure Hub (ι : Type) where
  generation : ℕ
  seen : ι → Option ℕ
  waiterMonitors : ι → Option ℕ
  waiters : List (Waiter ι)
  subscribers : ι → Option ℕ
  error : Option Reason
  closed : Bool

/-- A process that uses the hub, with the tag of the call that it is in. `told` is the generation of the
last `:changed` that it has received, `got` the answers to its calls, each with the number of changes it
had not been told of then. `updates` are the generations sent to it since it last subscribed, at
generation `joined`, and `errors` the errors of the hub sent to it as a subscriber. -/
structure Client where
  alive : Bool
  call : Option ℕ
  gaveUp : Bool
  told : ℕ
  got : List (Reply × ℕ)
  joined : ℕ
  updates : List ℕ
  errors : List Reason

/-- The hub with its mailbox and armed timers, and its clients. `fresh` is the next reference, and
`replied` are the tags of the calls that the hub has answered. -/
structure Sys (ι : Type) where
  hub : Hub ι
  stopped : Bool
  mailbox : List (Msg ι)
  timers : List ℕ
  fresh : ℕ
  replied : List ℕ
  clients : ι → Client

def Sys.init (ι : Type) : Sys ι :=
  ⟨⟨0, fun _ ↦ none, fun _ ↦ none, [], fun _ ↦ none, none, false⟩, false, [], [], 0, [],
    fun _ ↦ ⟨true, none, false, 0, [], 0, [], []⟩⟩

/-- A client makes a call, gives up on one that has not returned in time, or dies; the watcher's worker
sends a message or ends; a timer fires; or the hub handles its next message. -/
inductive Act (ι : Type)
  | call (pid : ι) (request : Request ι)
  | giveUp (pid : ι)
  | die (pid : ι)
  | change
  | fail (text : String)
  | exit (normal : Bool) (text : String)
  | fire (ref : ℕ)
  | handle

section System

variable {ι : Type} [DecidableEq ι]

def Client.answer (c : Client) (generation : ℕ) (tags : List ℕ) (r : Reply) : Client :=
  if c.call.any (· ∈ tags) then
    { c with
      call := none
      told := if r = .changed then generation else c.told
      got := c.got ++ [(r, generation - c.told)] }
  else c

/-- `GenServer.reply` to the calls with these tags. A reply to a call that has been given up is lost. -/
def Sys.answer (s : Sys ι) (tags : List ℕ) (r : Reply) : Sys ι :=
  { s with
    replied := s.replied ++ tags
    clients := fun p ↦ (s.clients p).answer s.hub.generation tags r }

/-- `Process.monitor`, which reports a process that is not there at once. -/
def Sys.monitor (s : Sys ι) (p : ι) : ℕ × Sys ι :=
  (s.fresh, { s with
    fresh := s.fresh + 1
    mailbox := if (s.clients p).alive then s.mailbox else s.mailbox ++ [.down s.fresh p] })

def Msg.isDown (monitor : ℕ) : Msg ι → Bool
  | .down m _ => m = monitor
  | _ => false

/-- `Process.demonitor(monitor, [:flush])`. -/
def Sys.demonitor (s : Sys ι) (monitor : ℕ) : Sys ι :=
  { s with mailbox := s.mailbox.filter fun m ↦ !m.isDown monitor }

def ensureWaiterMonitor (s : Sys ι) (p : ι) : Sys ι :=
  match s.hub.waiterMonitors p with
  | some _ => s
  | none =>
    let (monitor, s) := s.monitor p
    { s with hub.waiterMonitors := Function.update s.hub.waiterMonitors p (some monitor) }

def dropSubscriber (s : Sys ι) (p : ι) : Sys ι :=
  match s.hub.subscribers p with
  | none => s
  | some monitor => { s.demonitor monitor with hub.subscribers := Function.update s.hub.subscribers p none }

def dropWaiterProcess (s : Sys ι) (p : ι) : Sys ι :=
  { s with
    hub.seen := Function.update s.hub.seen p none
    hub.waiterMonitors := Function.update s.hub.waiterMonitors p none
    hub.waiters := s.hub.waiters.filter fun w ↦ w.pid ≠ p
    timers := s.timers.filter fun r ↦ ¬ ∃ w ∈ s.hub.waiters, w.pid = p ∧ w.ref = r }

def subscribe (s : Sys ι) (tag : ℕ) (p : ι) : Sys ι :=
  match s.hub.error with
  | some reason => s.answer [tag] (.error reason)
  | none =>
    match s.hub.subscribers p with
    | some _ => s.answer [tag] .ok
    | none =>
      let (monitor, s) := s.monitor p
      { s with
        hub.subscribers := Function.update s.hub.subscribers p (some monitor)
        clients := Function.update s.clients p
          { s.clients p with joined := s.hub.generation, updates := [] } }.answer [tag] .ok

def wait (s : Sys ι) (tag : ℕ) (p : ι) (timeoutMs : ℕ) : Sys ι :=
  let s := ensureWaiterMonitor s p
  match s.hub.error with
  | some reason => s.answer [tag] (.error reason)
  | none =>
    if (s.hub.seen p).getD 0 < s.hub.generation then
      { s with hub.seen := Function.update s.hub.seen p (some s.hub.generation) }.answer [tag] .changed
    else if timeoutMs = 0 then s.answer [tag] .timeout
    else
      { s with
        fresh := s.fresh + 1
        timers := s.timers ++ [s.fresh]
        hub.waiters := s.hub.waiters ++ [⟨s.fresh, tag, p⟩] }

/-- The waiters are answered and their timers cancelled. -/
def answerWaiters (s : Sys ι) (r : Reply) : Sys ι :=
  { s with
    timers := s.timers.filter fun t ↦ t ∉ s.hub.waiters.map Waiter.ref
    hub.waiters := [] }.answer (s.hub.waiters.map Waiter.tag) r

def watcherChanged (s : Sys ι) : Sys ι :=
  let generation := s.hub.generation + 1
  answerWaiters
    { s with
      hub.generation := generation
      hub.seen := fun p ↦ if p ∈ s.hub.waiters.map Waiter.pid then some generation else s.hub.seen p
      clients := fun p ↦
        if (s.hub.subscribers p).isSome ∧ (s.clients p).alive then
          { s.clients p with updates := (s.clients p).updates ++ [generation] }
        else s.clients p } .changed

/-- The subscribers are sent `:honker_update_hub_error`. -/
def Sys.tellSubscribers (s : Sys ι) (reason : Reason) : Sys ι :=
  { s with clients := fun p ↦
      if (s.hub.subscribers p).isSome ∧ (s.clients p).alive then
        { s.clients p with errors := (s.clients p).errors ++ [reason] }
      else s.clients p }

def watcherError (s : Sys ι) (reason : Reason) : Sys ι :=
  let s := (answerWaiters s (.error reason)).tellSubscribers reason
  { s with hub.error := some reason }

def waitTimeout (s : Sys ι) (ref : ℕ) : Sys ι :=
  match s.hub.waiters.find? fun w ↦ w.ref = ref with
  | none => s
  | some w => { s with hub.waiters := s.hub.waiters.filter fun w ↦ w.ref ≠ ref }.answer [w.tag] .timeout

def down (s : Sys ι) (monitor : ℕ) (p : ι) : Sys ι :=
  if s.hub.subscribers p = some monitor then dropSubscriber s p
  else if s.hub.waiterMonitors p = some monitor then dropWaiterProcess s p
  else s

/-- `shutdown` and the end of the hub, which the callers that are left notice. -/
def close (s : Sys ι) (tag : ℕ) : Sys ι :=
  let s := ((answerWaiters s (.error .closed)).tellSubscribers .closed).answer [tag] .ok
  { s with
    hub := { s.hub with
      closed := true
      waiters := []
      subscribers := fun _ ↦ none
      waiterMonitors := fun _ ↦ none
      seen := fun _ ↦ none }
    stopped := true
    mailbox := []
    clients := fun p ↦ if (s.clients p).call.isSome then
        { s.clients p with call := none, got := (s.clients p).got ++ [(.exited, 0)] } else s.clients p }

def handle (s : Sys ι) : Msg ι → Sys ι
  | .call tag _ (.subscribe p) => subscribe s tag p
  | .call tag _ (.unsubscribe p) => (dropSubscriber s p).answer [tag] .ok
  | .call tag p (.wait timeoutMs) => wait s tag p timeoutMs
  | .call tag _ .close => close s tag
  | .watcherChanged => watcherChanged s
  | .watcherError reason => watcherError s reason
  | .waitTimeout ref => waitTimeout s ref
  | .down monitor p => down s monitor p
  | .exit normal text => if s.hub.closed ∨ normal then s else watcherError s (.watcher text)

/-- The `:DOWN` messages that the monitors of a process send when it dies. -/
def Hub.downs (hub : Hub ι) (p : ι) : List (Msg ι) :=
  ((hub.subscribers p).toList ++ (hub.waiterMonitors p).toList).map fun m ↦ .down m p

def step (s : Sys ι) : Act ι → Sys ι
  | .call p request =>
    if s.stopped = false ∧ (s.clients p).alive ∧ (s.clients p).call = none then
      { s with
        fresh := s.fresh + 1
        mailbox := s.mailbox ++ [.call s.fresh p request]
        clients := Function.update s.clients p { s.clients p with call := some s.fresh } }
    else s
  | .giveUp p =>
    if (s.clients p).call.isSome then
      { s with clients := Function.update s.clients p { s.clients p with call := none, gaveUp := true } }
    else s
  | .die p =>
    if (s.clients p).alive then
      { s with
        mailbox := s.mailbox ++ if s.stopped then [] else s.hub.downs p
        clients := Function.update s.clients p { s.clients p with alive := false, call := none } }
    else s
  | .change => if s.stopped then s else { s with mailbox := s.mailbox ++ [.watcherChanged] }
  | .fail text => if s.stopped then s else { s with mailbox := s.mailbox ++ [.watcherError (.watcher text)] }
  | .exit normal text => if s.stopped then s else { s with mailbox := s.mailbox ++ [.exit normal text] }
  | .fire ref =>
    if s.stopped = false ∧ ref ∈ s.timers then
      { s with timers := s.timers.erase ref, mailbox := s.mailbox ++ [.waitTimeout ref] }
    else s
  | .handle =>
    match s.mailbox with
    | [] => s
    | m :: mailbox => if s.stopped then s else handle { s with mailbox := mailbox } m

end System

section Tally

variable {ι : Type} {s : Sys ι} {ms : List (Msg ι)} {t : ℕ}

@[simp]
def Msg.tag? : Msg ι → Option ℕ
  | .call tag _ _ => some tag
  | _ => none

/-- How often a tag stands in the mailbox, among the waiters or among the calls that have been
answered. -/
def tally (ms : List (Msg ι)) (s : Sys ι) (t : ℕ) : ℕ :=
  (ms.filterMap Msg.tag?).count t + (s.hub.waiters.map Waiter.tag).count t + s.replied.count t

theorem count_filter_le (l : List (Msg ι)) (p : Msg ι → Bool) (t : ℕ) :
    ((l.filter p).filterMap Msg.tag?).count t ≤ (l.filterMap Msg.tag?).count t :=
  (List.filter_sublist.filterMap _).count_le t

theorem count_tag_filter_le (l : List (Waiter ι)) (p : Waiter ι → Bool) (t : ℕ) :
    ((l.filter p).map Waiter.tag).count t ≤ (l.map Waiter.tag).count t :=
  (List.filter_sublist.map _).count_le t

/-- A waiter that is taken out by its reference. -/
theorem count_tag_erase (l : List (Waiter ι)) {w : Waiter ι} (h : l.find? (fun x ↦ x.ref = w.ref) = some w)
    (t : ℕ) : ((l.filter fun x ↦ x.ref ≠ w.ref).map Waiter.tag).count t + [w.tag].count t ≤
      (l.map Waiter.tag).count t := by
  induction l with
  | nil => simp at h
  | cons x l ih =>
    rw [List.find?_cons] at h
    by_cases hx : x.ref = w.ref
    · simp only [hx, decide_true, Option.some.injEq] at h
      subst h
      have hle := count_tag_filter_le l (fun y ↦ decide (y.ref ≠ x.ref)) t
      simp only [List.filter_cons, ne_eq, not_true_eq_false, decide_false, Bool.false_eq_true, if_false,
        List.map_cons, List.count_cons, List.count_nil] at hle ⊢
      omega
    · simp only [hx, decide_false] at h
      have hrest := ih h
      simp only [List.filter_cons, ne_eq, hx, not_false_eq_true, decide_true, if_true, List.map_cons,
        List.count_cons, List.count_nil] at hrest ⊢
      omega

section Answer

variable (s : Sys ι) (tags : List ℕ) (r : Reply)

@[simp]
theorem answer_hub : (s.answer tags r).hub = s.hub := rfl

@[simp]
theorem answer_mailbox : (s.answer tags r).mailbox = s.mailbox := rfl

@[simp]
theorem answer_timers : (s.answer tags r).timers = s.timers := rfl

@[simp]
theorem answer_fresh : (s.answer tags r).fresh = s.fresh := rfl

@[simp]
theorem answer_stopped : (s.answer tags r).stopped = s.stopped := rfl

@[simp]
theorem answer_replied : (s.answer tags r).replied = s.replied ++ tags := rfl

end Answer

theorem tally_watcherError (s : Sys ι) (reason : Reason) (t : ℕ) :
    tally (watcherError s reason).mailbox (watcherError s reason) t ≤ tally s.mailbox s t := by
  simp [watcherError, answerWaiters, Sys.tellSubscribers, tally]
  omega

variable [DecidableEq ι]

/-- A monitor adds no call. -/
theorem ensureWaiterMonitor_calls (s : Sys ι) (p : ι) :
    (ensureWaiterMonitor s p).hub.waiters = s.hub.waiters ∧ (ensureWaiterMonitor s p).replied = s.replied ∧
      s.fresh ≤ (ensureWaiterMonitor s p).fresh ∧
      (ensureWaiterMonitor s p).mailbox.filterMap Msg.tag? = s.mailbox.filterMap Msg.tag? := by
  unfold ensureWaiterMonitor
  split
  · exact ⟨rfl, rfl, le_rfl, rfl⟩
  · refine ⟨rfl, rfl, Nat.le_succ _, ?_⟩
    simp only [Sys.monitor]
    split_ifs
    · rfl
    · simp [List.filterMap_append, Msg.tag?]

theorem ensureWaiterMonitor_frame (s : Sys ι) (p : ι) :
    (ensureWaiterMonitor s p).hub.seen = s.hub.seen ∧ (ensureWaiterMonitor s p).hub.error = s.hub.error ∧
      (ensureWaiterMonitor s p).hub.generation = s.hub.generation ∧
      (ensureWaiterMonitor s p).clients = s.clients := by
  unfold ensureWaiterMonitor
  split <;> exact ⟨rfl, rfl, rfl, rfl⟩

theorem tally_dropSubscriber (s : Sys ι) (p : ι) (t : ℕ) :
    tally (dropSubscriber s p).mailbox (dropSubscriber s p) t ≤ tally s.mailbox s t := by
  unfold dropSubscriber
  split
  · exact le_rfl
  · have hle := count_filter_le s.mailbox (fun m ↦ !m.isDown ‹ℕ›) t
    simp only [tally, Sys.demonitor]
    omega

/-- The call at the head of the mailbox is answered, or becomes a waiter, or stays unanswered at the end of
the hub; nothing else is answered but waiters that are taken out. -/
theorem tally_handle (s : Sys ι) (m : Msg ι) (t : ℕ) :
    tally (handle s m).mailbox (handle s m) t ≤ tally (m :: s.mailbox) s t := by
  cases m with
  | call tag p request =>
    cases request with
    | subscribe q =>
      simp only [handle, subscribe]
      split
      · simp [tally, List.count_cons]; omega
      · split
        · simp [tally, List.count_cons]; omega
        · simp only [Sys.monitor]
          split_ifs <;> simp [tally, List.filterMap_cons, List.count_cons] <;> omega
    | unsubscribe q =>
      have hdrop := tally_dropSubscriber s q t
      simp only [handle, tally, answer_hub, answer_mailbox, answer_replied, List.count_append,
        List.filterMap_cons, Msg.tag?, List.count_cons, List.count_nil] at hdrop ⊢
      omega
    | wait timeoutMs =>
      obtain ⟨hw, hr, hf, hm⟩ := ensureWaiterMonitor_calls s p
      simp only [handle, wait]
      split
      · simp [tally, List.count_cons, hw, hr, hm]; omega
      · split_ifs <;> simp [tally, List.count_cons, hw, hr, hm] <;> omega
    | close =>
      simp [handle, close, tally, answerWaiters, Sys.tellSubscribers, List.count_cons]
      omega
  | watcherChanged =>
    simp [handle, watcherChanged, answerWaiters, tally, List.filterMap_cons]
    omega
  | watcherError reason => exact tally_watcherError s reason t
  | waitTimeout ref =>
    simp only [handle, waitTimeout]
    split
    case h_1 => simp [tally, List.filterMap_cons]
    case h_2 w hw =>
      have href : w.ref = ref := by simpa using List.find?_some hw
      subst href
      have hle := count_tag_erase s.hub.waiters hw t
      simp only [tally, answer_hub, answer_mailbox, answer_replied, List.count_append, List.filterMap_cons,
        Msg.tag?]
      omega
  | down monitor p =>
    simp only [handle, down]
    split_ifs
    · exact tally_dropSubscriber s p t
    · have hle := count_tag_filter_le s.hub.waiters (fun w ↦ w.pid ≠ p) t
      simp only [tally, dropWaiterProcess, List.filterMap_cons, Msg.tag?]
      omega
    · simp [tally, List.filterMap_cons]
  | exit normal text =>
    simp only [handle]
    split_ifs
    · simp [tally, List.filterMap_cons]
    · exact tally_watcherError s _ t

/-- Only `:close` stops the hub. -/
theorem stopped_handle {m : Msg ι} (hm : ∀ tag p, m ≠ .call tag p .close) : (handle s m).stopped = s.stopped := by
  cases m with
  | call tag p request =>
    cases request with
    | subscribe q =>
      simp only [handle, subscribe]
      split
      · rfl
      · split <;> rfl
    | unsubscribe q =>
      simp only [handle, answer_stopped, dropSubscriber]
      split <;> rfl
    | wait timeoutMs =>
      have hmon : (ensureWaiterMonitor s p).stopped = s.stopped := by
        unfold ensureWaiterMonitor
        split <;> rfl
      simp only [handle, wait]
      split
      · exact hmon
      · split_ifs <;> exact hmon
    | close => exact absurd rfl (hm tag p)
  | watcherChanged | watcherError => rfl
  | waitTimeout ref =>
    simp only [handle, waitTimeout]
    split <;> rfl
  | down monitor p =>
    simp only [handle, down, dropSubscriber, dropWaiterProcess]
    split_ifs <;> (try split) <;> rfl
  | exit normal text =>
    simp only [handle]
    split_ifs <;> rfl

end Tally

section Answer

/-- One of the calls with these tags is the client's. -/
def Client.Hit (c : Client) (tags : List ℕ) : Prop := ∃ t ∈ tags, c.call = some t

variable {c : Client} {generation : ℕ} {tags : List ℕ} {r : Reply}

theorem Client.answer_of_hit (h : c.Hit tags) :
    c.answer generation tags r = { c with
      call := none
      told := if r = .changed then generation else c.told
      got := c.got ++ [(r, generation - c.told)] } := by
  obtain ⟨t, ht, hc⟩ := h
  rw [Client.answer, if_pos (by simpa [hc] using ht)]

theorem Client.answer_of_not_hit (h : ¬ c.Hit tags) : c.answer generation tags r = c := by
  rw [Client.answer, if_neg]
  rw [Option.any_eq_true]
  rintro ⟨t, hc, ht⟩
  exact h ⟨t, by simpa using ht, hc⟩

@[simp]
theorem Client.answer_alive : (c.answer generation tags r).alive = c.alive := by
  unfold Client.answer
  split_ifs <;> rfl

@[simp]
theorem Client.answer_gaveUp : (c.answer generation tags r).gaveUp = c.gaveUp := by
  unfold Client.answer
  split_ifs <;> rfl

@[simp]
theorem Client.answer_joined : (c.answer generation tags r).joined = c.joined := by
  unfold Client.answer
  split_ifs <;> rfl

@[simp]
theorem Client.answer_updates : (c.answer generation tags r).updates = c.updates := by
  unfold Client.answer
  split_ifs <;> rfl

@[simp]
theorem Client.answer_errors : (c.answer generation tags r).errors = c.errors := by
  unfold Client.answer
  split_ifs <;> rfl

theorem Client.call_answer {t : ℕ} :
    (c.answer generation tags r).call = some t ↔ c.call = some t ∧ t ∉ tags := by
  by_cases h : c.Hit tags
  · rw [Client.answer_of_hit h]
    obtain ⟨t', ht', hc⟩ := h
    refine iff_of_false nofun fun hct ↦ hct.2 ?_
    rwa [← Option.some.inj (hc.symm.trans hct.1)]
  · rw [Client.answer_of_not_hit h]
    exact ⟨fun hc ↦ ⟨hc, fun ht ↦ h ⟨t, ht, hc⟩⟩, And.left⟩

theorem Client.told_answer (hr : r ≠ .changed) : (c.answer generation tags r).told = c.told := by
  by_cases h : c.Hit tags
  · rw [Client.answer_of_hit h, if_neg hr]
  · rw [Client.answer_of_not_hit h]

theorem Client.mem_got_answer {x : Reply × ℕ} (hx : x ∈ (c.answer generation tags r).got) :
    x ∈ c.got ∨ c.Hit tags ∧ x = (r, generation - c.told) := by
  by_cases h : c.Hit tags
  · rw [Client.answer_of_hit h] at hx
    rcases List.mem_append.mp hx with hx | hx
    · exact Or.inl hx
    · exact Or.inr ⟨h, List.mem_singleton.mp hx⟩
  · rw [Client.answer_of_not_hit h] at hx
    exact Or.inl hx

end Answer

end ElixirHub

end Honker
