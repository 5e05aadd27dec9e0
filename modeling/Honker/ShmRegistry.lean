import Honker.Library.FileSystem
import Honker.Library.Transition

namespace Honker.Shm

open FileSystem Relational Transition

abbrev Path := String

/-- `(dev, ino)`. -/
abbrev Id := ℕ × ℕ

abbrev Fd := FileSystem.File Id

def maxRetainedShmFds : ℕ := 256

structure Slot where
  id : Id
  file : Fd
deriving DecidableEq

/-- Where a thread is in `acquire_shm_fd`. -/
inductive Call
  | idle
  | statted (path : Path) (existing : Option Id)
  | reclaiming (path : Path) (existing : Option Id) (todo : List Fd)
  -- `retain` has found the file to be dropped
  | dropping (path : Path) (existing : Option Id) (todo : List Fd) (file : Fd)
  | opening (path : Path)
  | opened (path : Path) (file : Fd)
deriving DecidableEq

/-- The file system with the registry, its lock, the `Arc`s that callers hold, and the calls. -/
structure Process where
  disk : Disk Path Id
  live : Table Slot.id
  extra : List Fd
  held : List (ℕ × Fd)
  calls : ℕ → Call
  lock : Option ℕ

namespace Process

def start : Process := ⟨Disk.empty, Table.empty, [], [], fun _ ↦ .idle, none⟩

def retained (s : Process) : ℕ := s.live.rows.length + s.extra.length

/-- `Arc::strong_count`; the clone that `acquire_shm_fd` has of a file it opened is none of them, and
no descriptor is counted while there is one. -/
def strongCount (s : Process) (f : Fd) : ℕ :=
  s.live.rows.countP (fun r ↦ r.file = f) + s.extra.count f + s.held.countP (fun h ↦ h.2 = f)

def goto (s : Process) (t : ℕ) (c : Call) : Process :=
  { s with calls := Function.update s.calls t c }

theorem calls_goto_self (s : Process) (t : ℕ) (c : Call) : (s.goto t c).calls t = c :=
  Function.update_self ..

theorem calls_goto_of_ne (s : Process) {t u : ℕ} (c : Call) (h : u ≠ t) :
    (s.goto t c).calls u = s.calls u :=
  Function.update_of_ne h ..

/-- The end of a call that holds the lock. -/
def leave (s : Process) (t : ℕ) : Process := { s.goto t .idle with lock := none }

def give (s : Process) (t : ℕ) (f : Fd) : Process := { s.leave t with held := s.held ++ [(t, f)] }

def forget (s : Process) (f : Fd) : Process :=
  { s with
    live := s.live.delete (fun r ↦ r.file = f)
    extra := s.extra.filter (· ≠ f) }

def close (s : Process) (f : Fd) : Process := { s with disk := s.disk.close f }

end Process

/-- One step of a thread or of the file system. A flag says whether the system call succeeds. -/
inductive Act
  | stat (t : ℕ) (path : Path) (ok : Bool)
  | lock (t : ℕ)
  | visit (t : ℕ) (file : Fd) (ok : Bool)
  | drop (t : ℕ)
  | lookup (t : ℕ)
  | openFile (t : ℕ) (ok : Bool)
  | store (t : ℕ) (ok : Bool)
  | release (t : ℕ) (file : Fd)
  | disk (e : FileSystem.Event Path Id)
deriving DecidableEq

inductive Out
  | returned (t : ℕ) (path : Path) (file : Fd)
  | failed (t : ℕ)
  | closed (file : Fd)
deriving DecidableEq

namespace Process

/-- The last `Arc` of a file closes it. -/
def settle (s : Process) (f : Fd) : Option Out × Process :=
  if s.strongCount f = 0 then (some (.closed f), s.close f) else (none, s)

/-- One descriptor of `reclaim_unlinked`, in whatever order the map gives them. -/
def visitStep (s : Process) (t : ℕ) (path : Path) (existing : Option Id) (todo : List Fd) (f : Fd)
    (ok : Bool) : Process :=
  if f ∈ todo then
    let todo := todo.filter (· ≠ f)
    if 1 < s.strongCount f ∨ ¬ (ok ∧ s.disk.links f.inode = 0) then
      s.goto t (.reclaiming path existing todo)
    else s.goto t (.dropping path existing todo f)
  else s

def lookupStep (s : Process) (t : ℕ) (path : Path) (existing : Option Id) : Option Out × Process :=
  match existing.bind s.live.find? with
  | some r => (some (.returned t path r.file), s.give t r.file)
  | none =>
    if maxRetainedShmFds ≤ s.retained then (some (.failed t), s.leave t)
    else (none, s.goto t (.opening path))

def openStep (s : Process) (t : ℕ) (path : Path) (ok : Bool) : Option Out × Process :=
  match s.disk.openFile path, ok with
  | some (f, d), true => (none, { s with disk := d }.goto t (.opened path f))
  | _, _ => (some (.failed t), s.leave t)

def storeStep (s : Process) (t : ℕ) (path : Path) (f : Fd) (ok : Bool) : Option Out × Process :=
  if ok then
    match s.live.find? f.inode.number with
    -- raced with another thread: keep ours alive and hand back the one on file
    | some r => (some (.returned t path r.file), { s with extra := s.extra ++ [f] }.give t r.file)
    | none => (some (.returned t path f),
        { s with live := s.live.insertNew ⟨f.inode.number, f⟩ }.give t f)
  else (some (.returned t path f), { s with extra := s.extra ++ [f] }.give t f)

end Process

open Process

/-- A step that the thread's own call does not allow does nothing. -/
def step (s : Process) : Act → Option Out × Process
  | .stat t path ok =>
    if s.calls t = .idle then
      (none, s.goto t (.statted path (if ok then (s.disk.at? path).map Inode.number else none)))
    else (none, s)
  | .lock t =>
    match s.calls t, s.lock with
    | .statted path existing, none =>
      (none, { s.goto t (.reclaiming path existing (s.live.rows.map Slot.file ++ s.extra)) with
        lock := some t })
    | _, _ => (none, s)
  | .visit t f ok =>
    match s.calls t with
    | .reclaiming path existing todo => (none, s.visitStep t path existing todo f ok)
    | _ => (none, s)
  | .drop t =>
    match s.calls t with
    | .dropping path existing todo f =>
      ((s.forget f).goto t (.reclaiming path existing todo)).settle f
    | _ => (none, s)
  | .lookup t =>
    match s.calls t with
    | .reclaiming path existing [] => s.lookupStep t path existing
    | _ => (none, s)
  | .openFile t ok =>
    match s.calls t with
    | .opening path => s.openStep t path ok
    | _ => (none, s)
  | .store t ok =>
    match s.calls t with
    | .opened path f => s.storeStep t path f ok
    | _ => (none, s)
  | .release t f =>
    if (t, f) ∈ s.held then { s with held := s.held.erase (t, f) }.settle f else (none, s)
  | .disk e => (none, { s with disk := s.disk.apply e })

section Effects

/-- What one step can do. -/
inductive Effect (s : Process) : Act → Option Out → Process → Prop
  | nothing (a : Act) : Effect s a none s
  | statted (t : ℕ) (path : Path) (ok : Bool) (idle : s.calls t = .idle) :
      Effect s (.stat t path ok) none
        (s.goto t (.statted path (if ok then (s.disk.at? path).map Inode.number else none)))
  | locked (t : ℕ) (path : Path) (existing : Option Id) (call : s.calls t = .statted path existing)
      (free : s.lock = none) :
      Effect s (.lock t) none
        { s.goto t (.reclaiming path existing (s.live.rows.map Slot.file ++ s.extra)) with
          lock := some t }
  | kept (t : ℕ) (path : Path) (existing : Option Id) (todo : List Fd) (f : Fd) (ok : Bool)
      (call : s.calls t = .reclaiming path existing todo) :
      Effect s (.visit t f ok) none (s.goto t (.reclaiming path existing (todo.filter (· ≠ f))))
  | doomed (t : ℕ) (path : Path) (existing : Option Id) (todo : List Fd) (f : Fd) (ok : Bool)
      (call : s.calls t = .reclaiming path existing todo) (mem : f ∈ todo)
      (count : s.strongCount f ≤ 1) (unlinked : s.disk.links f.inode = 0) :
      Effect s (.visit t f ok) none (s.goto t (.dropping path existing (todo.filter (· ≠ f)) f))
  | dropped (t : ℕ) (path : Path) (existing : Option Id) (todo : List Fd) (f : Fd) (out : Option Out)
      (s' : Process) (call : s.calls t = .dropping path existing todo f)
      (settled : ((s.forget f).goto t (.reclaiming path existing todo)).settle f = (out, s')) :
      Effect s (.drop t) out s'
  | found (t : ℕ) (path : Path) (id : Id) (r : Slot)
      (call : s.calls t = .reclaiming path (some id) []) (entry : s.live.find? id = some r) :
      Effect s (.lookup t) (some (.returned t path r.file)) (s.give t r.file)
  | refused (t : ℕ) (path : Path) (existing : Option Id)
      (call : s.calls t = .reclaiming path existing []) :
      Effect s (.lookup t) (some (.failed t)) (s.leave t)
  | missed (t : ℕ) (path : Path) (existing : Option Id)
      (call : s.calls t = .reclaiming path existing []) (room : s.retained < maxRetainedShmFds) :
      Effect s (.lookup t) none (s.goto t (.opening path))
  | openedFile (t : ℕ) (path : Path) (f : Fd) (d : Disk Path Id) (call : s.calls t = .opening path)
      (file : s.disk.openFile path = some (f, d)) :
      Effect s (.openFile t true) none ({ s with disk := d }.goto t (.opened path f))
  | unopened (t : ℕ) (path : Path) (ok : Bool) (call : s.calls t = .opening path) :
      Effect s (.openFile t ok) (some (.failed t)) (s.leave t)
  | raced (t : ℕ) (path : Path) (f : Fd) (r : Slot) (call : s.calls t = .opened path f)
      (entry : s.live.find? f.inode.number = some r) :
      Effect s (.store t true) (some (.returned t path r.file))
        ({ s with extra := s.extra ++ [f] }.give t r.file)
  | stored (t : ℕ) (path : Path) (f : Fd) (call : s.calls t = .opened path f)
      (entry : s.live.find? f.inode.number = none) :
      Effect s (.store t true) (some (.returned t path f))
        ({ s with live := s.live.insertNew ⟨f.inode.number, f⟩ }.give t f)
  | unidentified (t : ℕ) (path : Path) (f : Fd) (call : s.calls t = .opened path f) :
      Effect s (.store t false) (some (.returned t path f))
        ({ s with extra := s.extra ++ [f] }.give t f)
  | released (t : ℕ) (f : Fd) (out : Option Out) (s' : Process) (holds : (t, f) ∈ s.held)
      (settled : { s with held := s.held.erase (t, f) }.settle f = (out, s')) :
      Effect s (.release t f) out s'
  | disk (e : FileSystem.Event Path Id) :
      Effect s (.disk e) none { s with disk := s.disk.apply e }

theorem step_effect (s : Process) (a : Act) : Effect s a (step s a).1 (step s a).2 := by
  cases a with
  | stat t path ok =>
    by_cases hidle : s.calls t = .idle
    · rw [step, if_pos hidle]
      exact .statted t path ok hidle
    · rw [step, if_neg hidle]
      exact .nothing _
  | lock t =>
    rw [step]
    split
    · exact .locked t _ _ ‹_› ‹_›
    · exact .nothing _
  | visit t f ok =>
    rw [step]
    split
    · rename_i path existing todo hcall
      dsimp only [visitStep]
      split_ifs with hmem hkeep
      · exact .kept t path existing todo f ok hcall
      · rw [not_or, not_not] at hkeep
        exact .doomed t path existing todo f ok hcall hmem (not_lt.mp hkeep.1) hkeep.2.2
      · exact .nothing _
    · exact .nothing _
  | drop t =>
    rw [step]
    split
    · exact .dropped t _ _ _ _ _ _ ‹_› rfl
    · exact .nothing _
  | lookup t =>
    rw [step]
    split
    · rename_i path existing hcall
      rw [lookupStep]
      split
      · rename_i r hr
        obtain ⟨id, rfl, hentry⟩ := Option.bind_eq_some_iff.mp hr
        exact .found t path id r hcall hentry
      · split_ifs with hfull
        · exact .refused t path existing hcall
        · exact .missed t path existing hcall (not_le.mp hfull)
    · exact .nothing _
  | openFile t ok =>
    rw [step]
    split
    · rename_i path hcall
      unfold openStep
      split
      · exact .openedFile t path _ _ hcall ‹_›
      · exact .unopened t path _ hcall
    · exact .nothing _
  | store t ok =>
    rw [step]
    split
    · rename_i path f hcall
      rw [storeStep]
      split_ifs with hok
      · subst hok
        split
        · exact .raced t path f _ hcall ‹_›
        · exact .stored t path f hcall ‹_›
      · rw [Bool.not_eq_true] at hok
        subst hok
        exact .unidentified t path f hcall
    · exact .nothing _
  | release t f =>
    rw [step]
    split_ifs with hholds
    · exact .released t f _ _ hholds rfl
    · exact .nothing _
  | disk e => exact .disk e

end Effects

section Invariant

variable {s : Process} {t : ℕ} {f g : Fd}

/-- Between the lock and the return. -/
def Call.Inside : Call → Prop
  | .idle | .statted .. => False
  | _ => True

def Process.Registered (s : Process) (f : Fd) : Prop :=
  (∃ r ∈ s.live.rows, r.file = f) ∨ f ∈ s.extra

def Process.Held (s : Process) (f : Fd) : Prop := ∃ t, (t, f) ∈ s.held

/-- What a call under the lock relies on. -/
def CallOk (s : Process) : Call → Prop
  | .idle | .statted .. => True
  | .reclaiming _ _ todo => ∀ g ∈ todo, s.Registered g
  | .dropping _ _ todo f =>
    f ∈ s.disk.files ∧ ¬ s.disk.Named f.inode ∧ ¬ s.Held f ∧ ∀ g ∈ todo, s.Registered g ∧ g ≠ f
  | .opening _ => s.retained < maxRetainedShmFds
  | .opened _ f => f ∈ s.disk.files ∧ s.retained < maxRetainedShmFds

structure Inv (s : Process) : Prop where
  sound : s.disk.Sound
  locked : ∀ t, (s.calls t).Inside → s.lock = some t
  live : ∀ r ∈ s.live.rows, r.file ∈ s.disk.files ∧ r.file.inode.number = r.id
  extra : ∀ f ∈ s.extra, f ∈ s.disk.files
  held : ∀ f, s.Held f → s.Registered f
  retained : s.retained ≤ maxRetainedShmFds
  calls : ∀ t, CallOk s (s.calls t)

theorem callOk_of_not_inside {c : Call} (h : ¬ c.Inside) : CallOk s c := by
  cases c with
  | idle => trivial
  | statted path existing => trivial
  | reclaiming path existing todo => exact absurd trivial h
  | dropping path existing todo f => exact absurd trivial h
  | opening path => exact absurd trivial h
  | opened path f => exact absurd trivial h

/-- What a call relies on survives a change that keeps the descriptors on file and the open ones,
names no descriptor that has no name and gives none out. -/
theorem CallOk.transfer {s' : Process} {c : Call} (hok : CallOk s c)
    (hreg : ∀ g, s.Registered g → s'.Registered g) (hfiles : ∀ g ∈ s.disk.files, g ∈ s'.disk.files)
    (hnamed : ∀ g ∈ s.disk.files, ¬ s.disk.Named g.inode → ¬ s'.disk.Named g.inode)
    (hheld : ∀ g, s'.Held g → s.Held g) (hretained : s'.retained ≤ s.retained) : CallOk s' c := by
  cases c with
  | idle => trivial
  | statted path existing => trivial
  | reclaiming path existing todo => exact fun g hg ↦ hreg g (hok g hg)
  | dropping path existing todo f =>
    obtain ⟨hopen, hunnamed, hunheld, htodo⟩ := hok
    exact ⟨hfiles f hopen, hnamed f hopen hunnamed, fun h ↦ hunheld (hheld f h),
      fun g hg ↦ ⟨hreg g (htodo g hg).1, (htodo g hg).2⟩⟩
  | opening path => exact lt_of_le_of_lt hretained hok
  | opened path f => exact ⟨hfiles f hok.1, lt_of_le_of_lt hretained hok.2⟩

theorem Inv.registered_open (h : Inv s) (hf : s.Registered f) : f ∈ s.disk.files := by
  rcases hf with ⟨r, hr, rfl⟩ | hf
  · exact (h.live r hr).1
  · exact h.extra f hf

/-- Under the lock of one call, every other call is outside. -/
theorem Inv.others (h : Inv s) (hin : (s.calls t).Inside) {u : ℕ} (hu : u ≠ t) :
    ¬ (s.calls u).Inside := by
  intro hu'
  have heq := (h.locked t hin).symm.trans (h.locked u hu')
  exact hu (Option.some.inj heq).symm

theorem Inv.outside (h : Inv s) (hfree : s.lock = none) (u : ℕ) : ¬ (s.calls u).Inside := by
  intro hu
  cases hfree.symm.trans (h.locked u hu)

theorem inv_start : Inv Process.start where
  sound := Disk.sound_empty
  locked _ h := h.elim
  live _ hr := by cases hr
  extra _ hf := by cases hf
  held _ hf := by
    obtain ⟨_, hf⟩ := hf
    cases hf
  retained := Nat.zero_le _
  calls _ := trivial

/-- A step of the call that has the lock changes its own place and what the others do not rely on. -/
theorem Inv.own (h : Inv s) {s' : Process} (hin : (s.calls t).Inside) {c : Call}
    (hcalls : s'.calls = Function.update s.calls t c) (hlock : c.Inside → s'.lock = some t)
    (hsound : s'.disk.Sound)
    (hlive : ∀ r ∈ s'.live.rows, r.file ∈ s'.disk.files ∧ r.file.inode.number = r.id)
    (hextra : ∀ f ∈ s'.extra, f ∈ s'.disk.files) (hheld : ∀ f, s'.Held f → s'.Registered f)
    (hretained : s'.retained ≤ maxRetainedShmFds) (hcall : CallOk s' c) : Inv s' := by
  have hother (u : ℕ) (hu : u ≠ t) : ¬ (s'.calls u).Inside := by
    rw [hcalls, Function.update_of_ne hu]
    exact h.others hin hu
  refine ⟨hsound, fun u hu ↦ ?_, hlive, hextra, hheld, hretained, fun u ↦ ?_⟩
  · by_cases hut : u = t
    · subst hut
      rw [hcalls, Function.update_self] at hu
      exact hlock hu
    · exact absurd hu (hother u hut)
  · by_cases hut : u = t
    · subst hut
      rw [hcalls, Function.update_self]
      exact hcall
    · exact callOk_of_not_inside (hother u hut)

theorem Inv.goto (h : Inv s) (hin : (s.calls t).Inside) {c : Call} (hcall : CallOk s c) :
    Inv (s.goto t c) :=
  h.own hin rfl (fun _ ↦ h.locked t hin) h.sound h.live h.extra h.held h.retained hcall

theorem Inv.leave (h : Inv s) (hin : (s.calls t).Inside) : Inv (s.leave t) :=
  h.own hin rfl False.elim h.sound h.live h.extra h.held h.retained trivial

/-- The end of a call that returns a descriptor on file. -/
theorem Inv.give (h : Inv s) (hin : (s.calls t).Inside) {live : Table Slot.id} {extra : List Fd}
    (hlive : ∀ r ∈ live.rows, r.file ∈ s.disk.files ∧ r.file.inode.number = r.id)
    (hextra : ∀ f ∈ extra, f ∈ s.disk.files)
    (hkeep : ∀ f, s.Registered f → { s with live := live, extra := extra }.Registered f)
    (hg : { s with live := live, extra := extra }.Registered g)
    (hretained : live.rows.length + extra.length ≤ maxRetainedShmFds) :
    Inv ({ s with live := live, extra := extra }.give t g) := by
  refine h.own hin rfl False.elim h.sound hlive hextra ?_ hretained trivial
  rintro f ⟨u, hu⟩
  rcases List.mem_append.mp hu with hu | hu
  · exact hkeep f (h.held f ⟨u, hu⟩)
  · cases List.mem_singleton.mp hu
    exact hg

theorem Inv.statted (h : Inv s) (t : ℕ) (path : Path) (existing : Option Id) :
    Inv (s.goto t (.statted path existing)) := by
  refine ⟨h.sound, fun u hu ↦ ?_, h.live, h.extra, h.held, h.retained, fun u ↦ ?_⟩
  · by_cases hut : u = t
    · rw [hut, calls_goto_self] at hu
      exact hu.elim
    · rw [calls_goto_of_ne s _ hut] at hu
      exact h.locked u hu
  · by_cases hut : u = t
    · rw [hut, calls_goto_self]
      trivial
    · rw [calls_goto_of_ne s _ hut]
      exact h.calls u

theorem Inv.locking (h : Inv s) (hfree : s.lock = none) (path : Path) (existing : Option Id) :
    Inv { s.goto t (.reclaiming path existing (s.live.rows.map Slot.file ++ s.extra)) with
      lock := some t } := by
  have hother (u : ℕ) (hu : u ≠ t) :
      ¬ (Function.update s.calls t
        (.reclaiming path existing (s.live.rows.map Slot.file ++ s.extra)) u).Inside := by
    rw [Function.update_of_ne hu]
    exact h.outside hfree u
  refine ⟨h.sound, fun u hu ↦ ?_, h.live, h.extra, h.held, h.retained, fun u ↦ ?_⟩
  · by_cases hut : u = t
    · rw [hut]
    · exact absurd hu (hother u hut)
  · by_cases hut : u = t
    · subst hut
      simp only [Process.goto, Function.update_self]
      intro g hg
      rcases List.mem_append.mp hg with hg | hg
      · obtain ⟨r, hr, rfl⟩ := List.mem_map.mp hg
        exact Or.inl ⟨r, hr, rfl⟩
      · exact Or.inr hg
    · exact callOk_of_not_inside (hother u hut)

theorem strongCount_eq_zero : s.strongCount f = 0 ↔ ¬ s.Registered f ∧ ¬ s.Held f := by
  unfold strongCount Process.Registered Process.Held
  rw [Nat.add_eq_zero_iff, Nat.add_eq_zero_iff, List.countP_eq_zero, List.countP_eq_zero,
    List.count_eq_zero]
  simp only [decide_eq_true_eq, not_or, not_exists, not_and]
  constructor
  · rintro ⟨⟨hlive, hextra⟩, hheld⟩
    exact ⟨⟨hlive, hextra⟩, fun u hu ↦ hheld _ hu rfl⟩
  · rintro ⟨⟨hlive, hextra⟩, hheld⟩
    refine ⟨⟨hlive, hextra⟩, ?_⟩
    rintro ⟨u, g⟩ hu rfl
    exact hheld u hu

theorem registered_forget : (s.forget f).Registered g ↔ s.Registered g ∧ g ≠ f := by
  unfold Process.Registered Process.forget Table.delete
  simp only [List.mem_filter, decide_eq_true_eq, Bool.not_eq_true', decide_eq_false_iff_not]
  constructor
  · rintro (⟨r, ⟨hr, hne⟩, rfl⟩ | ⟨hg, hne⟩)
    · exact ⟨Or.inl ⟨r, hr, rfl⟩, hne⟩
    · exact ⟨Or.inr hg, hne⟩
  · rintro ⟨⟨r, hr, rfl⟩ | hg, hne⟩
    · exact Or.inl ⟨r, ⟨hr, hne⟩, rfl⟩
    · exact Or.inr ⟨hg, hne⟩

/-- Two clones of a descriptor that is held are counted as two. -/
theorem two_le_strongCount (hreg : s.Registered f) (hheld : s.Held f) : 1 < s.strongCount f := by
  obtain ⟨u, hu⟩ := hheld
  have hclone : 0 < s.held.countP (fun h ↦ h.2 = f) := List.countP_pos_iff.mpr ⟨(u, f), hu, by simp⟩
  unfold strongCount
  rcases hreg with ⟨r, hr, rfl⟩ | hextra
  · have hslot : 0 < s.live.rows.countP (fun r' ↦ r'.file = r.file) :=
      List.countP_pos_iff.mpr ⟨r, hr, by simp⟩
    omega
  · have hslot := List.count_pos_iff.mpr hextra
    omega

theorem Inv.doomed (h : Inv s) {path : Path} {existing : Option Id} {todo : List Fd}
    (hcall : s.calls t = .reclaiming path existing todo) (hmem : f ∈ todo)
    (hcount : s.strongCount f ≤ 1) (hlinks : s.disk.links f.inode = 0) :
    Inv (s.goto t (.dropping path existing (todo.filter (· ≠ f)) f)) := by
  have htodo : ∀ g ∈ todo, s.Registered g := by
    have hok := h.calls t
    rw [hcall] at hok
    exact hok
  refine h.goto (by rw [hcall]; trivial) ⟨h.registered_open (htodo f hmem),
    Disk.links_eq_zero.mp hlinks, fun hheld ↦ ?_, fun g hg ↦ ?_⟩
  · have htwo := two_le_strongCount (htodo f hmem) hheld
    omega
  · obtain ⟨hg, hne⟩ := List.mem_filter.mp hg
    exact ⟨htodo g hg, of_decide_eq_true hne⟩

theorem inUse_close {d : Disk Path Id} {i : Inode Id} (h : (d.close f).InUse i) : d.InUse i := by
  rcases h with hnamed | ⟨g, hg, rfl⟩
  · exact Or.inl hnamed
  · exact Or.inr ⟨g, List.mem_of_mem_filter hg, rfl⟩

/-- The drop that ends the reclaiming of a descriptor: nobody has it, so it is closed. -/
theorem Inv.dropped (h : Inv s) {path : Path} {existing : Option Id} {todo : List Fd}
    (hcall : s.calls t = .dropping path existing todo f) :
    ((s.forget f).goto t (.reclaiming path existing todo)).settle f =
        (some (.closed f), ((s.forget f).goto t (.reclaiming path existing todo)).close f) ∧
      Inv (((s.forget f).goto t (.reclaiming path existing todo)).close f) := by
  obtain ⟨-, -, hheld, htodo⟩ : CallOk s (.dropping path existing todo f) := hcall ▸ h.calls t
  have hunreg : ¬ (s.forget f).Registered f := fun hreg ↦ (registered_forget.mp hreg).2 rfl
  refine ⟨?_, ?_⟩
  · exact if_pos (strongCount_eq_zero.mpr ⟨hunreg, hheld⟩)
  · have hopen {g : Fd} (hg : (s.forget f).Registered g) : g ∈ (s.disk.close f).files := by
      obtain ⟨hg, hne⟩ := registered_forget.mp hg
      exact List.mem_filter.mpr ⟨h.registered_open hg, by simpa using hne⟩
    refine h.own (c := .reclaiming path existing todo) (t := t) (by rw [hcall]; trivial) rfl
      (fun _ ↦ h.locked t (by rw [hcall]; trivial)) (h.sound.of_inUse fun i ↦ inUse_close)
      (fun r hr ↦ ⟨hopen (Or.inl ⟨r, hr, rfl⟩), (h.live r (List.mem_of_mem_filter hr)).2⟩)
      (fun g hg ↦ hopen (Or.inr hg)) (fun g hg ↦ ?_) ?_ fun g hg ↦ ?_
    · exact registered_forget.mpr ⟨h.held g hg, fun heq ↦ hheld (heq ▸ hg)⟩
    · exact (Nat.add_le_add (List.length_filter_le _ _) (List.length_filter_le _ _)).trans h.retained
    · exact registered_forget.mpr (htodo g hg)

theorem Inv.released (h : Inv s) (hholds : (t, f) ∈ s.held) :
    { s with held := s.held.erase (t, f) }.settle f = (none, { s with held := s.held.erase (t, f) }) ∧
      Inv { s with held := s.held.erase (t, f) } := by
  have hsub {g : Fd} (hg : { s with held := s.held.erase (t, f) }.Held g) : s.Held g := by
    obtain ⟨u, hu⟩ := hg
    exact ⟨u, List.mem_of_mem_erase hu⟩
  refine ⟨?_, h.sound, h.locked, h.live, h.extra, fun g hg ↦ h.held g (hsub hg), h.retained,
    fun u ↦ ?_⟩
  · rw [settle, if_neg]
    intro hzero
    exact (strongCount_eq_zero.mp hzero).1 (h.held f ⟨t, hholds⟩)
  · exact (h.calls u).transfer (fun _ hg ↦ hg) (fun _ hg ↦ hg) (fun _ _ hg ↦ hg) (fun _ ↦ hsub) le_rfl

theorem Inv.disk (h : Inv s) (e : FileSystem.Event Path Id) :
    Inv { s with disk := s.disk.apply e } := by
  have hfiles := (Disk.apply_cases s.disk e).1
  refine ⟨h.sound.apply e, h.locked, fun r hr ↦ ?_, fun g hg ↦ ?_, h.held, h.retained, fun u ↦ ?_⟩
  · rw [hfiles]
    exact h.live r hr
  · rw [hfiles]
    exact h.extra g hg
  · exact (h.calls u).transfer (fun _ hg ↦ hg) (fun _ hg ↦ hfiles.symm ▸ hg)
      (fun _ hg ↦ Disk.not_named_apply hg) (fun _ hg ↦ hg) le_rfl

theorem inUse_openFile {d d' : Disk Path Id} {path : Path} (hopen : d.openFile path = some (f, d'))
    {i : Inode Id} (hi : d'.InUse i) : d.InUse i := by
  obtain ⟨hat, hfiles, hnames⟩ := Disk.openFile_eq_some hopen
  rcases hi with ⟨p, hp⟩ | ⟨g, hg, rfl⟩
  · rw [Disk.at?, hnames] at hp
    exact Or.inl ⟨p, hp⟩
  · rw [hfiles] at hg
    rcases List.mem_append.mp hg with hg | hg
    · exact Or.inr ⟨g, hg, rfl⟩
    · rw [List.mem_singleton.mp hg]
      exact Or.inl ⟨path, hat⟩

theorem Inv.openedFile (h : Inv s) {path : Path} {d : Disk Path Id}
    (hcall : s.calls t = .opening path) (hopen : s.disk.openFile path = some (f, d)) :
    Inv ({ s with disk := d }.goto t (.opened path f)) := by
  obtain ⟨-, hfiles, -⟩ := Disk.openFile_eq_some hopen
  have hin : (s.calls t).Inside := by rw [hcall]; trivial
  have hroom : CallOk s (.opening path) := hcall ▸ h.calls t
  have hmem {g : Fd} (hg : g ∈ s.disk.files) : g ∈ d.files := by
    rw [hfiles]
    exact List.mem_append_left _ hg
  refine h.own hin rfl (fun _ ↦ h.locked t hin) (h.sound.of_inUse fun i ↦ inUse_openFile hopen)
    (fun r hr ↦ ⟨hmem (h.live r hr).1, (h.live r hr).2⟩) (fun g hg ↦ hmem (h.extra g hg)) h.held
    h.retained ⟨?_, hroom⟩
  change f ∈ d.files
  rw [hfiles]
  simp

/-- The descriptor that could not be filed is kept beside the others. -/
theorem Inv.giveExtra (h : Inv s) {path : Path} (hcall : s.calls t = .opened path f)
    (hg : { s with extra := s.extra ++ [f] }.Registered g) :
    Inv ({ s with extra := s.extra ++ [f] }.give t g) := by
  obtain ⟨hopen, hroom⟩ : CallOk s (.opened path f) := hcall ▸ h.calls t
  refine h.give (by rw [hcall]; trivial) h.live (fun f' hf' ↦ ?_) (fun f' hf' ↦ ?_) hg ?_
  · rcases List.mem_append.mp hf' with hf' | hf'
    · exact h.extra f' hf'
    · exact List.mem_singleton.mp hf' ▸ hopen
  · exact hf'.imp_right (List.mem_append_left _)
  · unfold Process.retained at hroom
    rw [List.length_append, List.length_singleton]
    omega

theorem Inv.giveLive (h : Inv s) {path : Path} (hcall : s.calls t = .opened path f)
    (hentry : s.live.find? f.inode.number = none) :
    Inv ({ s with live := s.live.insertNew ⟨f.inode.number, f⟩ }.give t f) := by
  obtain ⟨hopen, hroom⟩ : CallOk s (.opened path f) := hcall ▸ h.calls t
  have hrows : (s.live.insertNew ⟨f.inode.number, f⟩).rows = s.live.rows ++ [⟨f.inode.number, f⟩] := by
    rw [Table.insertNew, dif_neg (Table.find?_eq_none.mp hentry)]
    rfl
  refine h.give (by rw [hcall]; trivial) (fun r hr ↦ ?_) h.extra (fun f' hf' ↦ ?_)
    (Or.inl ⟨⟨f.inode.number, f⟩, ?_, rfl⟩) ?_
  · rw [hrows] at hr
    rcases List.mem_append.mp hr with hr | hr
    · exact h.live r hr
    · rw [List.mem_singleton.mp hr]
      exact ⟨hopen, rfl⟩
  · refine hf'.imp_left fun hex ↦ ?_
    obtain ⟨r, hr, hrf⟩ := hex
    exact ⟨r, hrows ▸ List.mem_append_left _ hr, hrf⟩
  · change _ ∈ (s.live.insertNew ⟨f.inode.number, f⟩).rows
    rw [hrows]
    simp
  · unfold Process.retained at hroom
    rw [hrows, List.length_append, List.length_singleton]
    omega

theorem Inv.effect (h : Inv s) {a : Act} {out : Option Out} {s' : Process} (he : Effect s a out s') :
    Inv s' := by
  cases he with
  | nothing => exact h
  | statted t path ok => exact h.statted t path _
  | locked t path existing _ hfree => exact h.locking hfree path existing
  | kept t path existing todo f ok hcall =>
    have htodo : CallOk s (.reclaiming path existing todo) := hcall ▸ h.calls t
    exact h.goto (by rw [hcall]; trivial) fun g hg ↦ htodo g (List.mem_of_mem_filter hg)
  | doomed t path existing todo f ok hcall hmem hcount hlinks => exact h.doomed hcall hmem hcount hlinks
  | dropped t path existing todo f out s' hcall hsettled =>
    obtain ⟨hclosed, hinv⟩ := h.dropped hcall
    cases hclosed.symm.trans hsettled
    exact hinv
  | found t path id r hcall hentry =>
    exact h.give (by rw [hcall]; trivial) h.live h.extra (fun _ hf ↦ hf)
      (Or.inl ⟨r, (Table.find?_eq_some.mp hentry).1, rfl⟩) h.retained
  | refused t path existing hcall => exact h.leave (by rw [hcall]; trivial)
  | missed t path existing hcall hroom => exact h.goto (by rw [hcall]; trivial) hroom
  | openedFile t path f d hcall hopen => exact h.openedFile hcall hopen
  | unopened t path ok hcall => exact h.leave (by rw [hcall]; trivial)
  | raced t path f r hcall hentry =>
    exact h.giveExtra hcall (Or.inl ⟨r, (Table.find?_eq_some.mp hentry).1, rfl⟩)
  | stored t path f hcall hentry => exact h.giveLive hcall hentry
  | unidentified t path f hcall => exact h.giveExtra hcall (Or.inr (by simp))
  | released t f out s' hholds hsettled =>
    obtain ⟨hkept, hinv⟩ := h.released hholds
    cases hkept.symm.trans hsettled
    exact hinv
  | disk e => exact h.disk e

/-- The `Arc` that a call hands out. -/
def given : Option Out → List (ℕ × Fd)
  | some (.returned t _ f) => [(t, f)]
  | _ => []

theorem held_settle (s : Process) (f : Fd) :
    (s.settle f).2.held = s.held ∧ given (s.settle f).1 = [] := by
  unfold settle
  split_ifs
  · exact ⟨rfl, rfl⟩
  · exact ⟨rfl, rfl⟩

theorem held_step {a : Act} (ha : ∀ t f, a ≠ .release t f) :
    (step s a).2.held = s.held ++ given (step s a).1 := by
  have he := step_effect s a
  generalize (step s a).1 = out, (step s a).2 = s' at he ⊢
  cases he with
  | dropped t path existing todo f out s' hcall hsettled =>
    obtain ⟨hheld, hgiven⟩ := held_settle ((s.forget f).goto t (.reclaiming path existing todo)) f
    rw [hsettled] at hheld hgiven
    rw [hheld, hgiven, List.append_nil]
    rfl
  | released t f => exact absurd rfl (ha t f)
  | found t path id r => rfl
  | raced t path f r => rfl
  | stored t path f => rfl
  | unidentified t path f => rfl
  | _ => exact (List.append_nil _).symm

theorem Inv.release (h : Inv s) (hholds : (t, f) ∈ s.held) :
    (step s (.release t f)).2 = { s with held := s.held.erase (t, f) } := by
  rw [step, if_pos hholds, (h.released hholds).1]

theorem inv_step (h : Inv s) (a : Act) : Inv (step s a).2 := h.effect (step_effect s a)

theorem inv_run (as : List Act) : Inv (final step Process.start as) :=
  final_invariant step _ inv_start (fun _ a h ↦ inv_step h a) as

end Invariant

end Honker.Shm
