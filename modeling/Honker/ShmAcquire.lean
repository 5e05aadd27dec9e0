import Honker.ShmRegistry

namespace Honker.Shm

open FileSystem Relational Transition Process

section History

abbrev Moment := Transition.Event Process Act (Option Out)

variable {s : Process} {t : ℕ} {p : Path} {i : Inode Id} {f : Fd} {a : Act} {h : List Moment}

/-- The event begins a call of the thread. -/
def begins (t : ℕ) (e : Moment) : Bool :=
  match e.input with
  | .stat u _ _ => u = t ∧ e.pre.calls t = .idle
  | _ => false

/-- The events of a history since the thread's last call began. -/
def since (t : ℕ) (h : List Moment) : List Moment :=
  h.foldl (fun call e ↦ if begins t e then [e] else call ++ [e]) []

/-- At some moment since the call began, the path named the inode. -/
def WasAt (h : List Moment) (t : ℕ) (p : Path) (i : Inode Id) : Prop :=
  ∃ e ∈ since t h, e.pre.disk.at? p = some i ∨ e.post.disk.at? p = some i

instance (h : List Moment) (t : ℕ) (p : Path) (i : Inode Id) : Decidable (WasAt h t p i) :=
  inferInstanceAs (Decidable (∃ e ∈ since t h,
    e.pre.disk.at? p = some i ∨ e.post.disk.at? p = some i))

theorem since_snoc (t : ℕ) (h : List Moment) (e : Moment) :
    since t (h ++ [e]) = if begins t e then [e] else since t h ++ [e] := by
  rw [since, List.foldl_append]
  rfl

theorem wasAt_last (e : Moment) (he : e.pre.disk.at? p = some i ∨ e.post.disk.at? p = some i) :
    WasAt (h ++ [e]) t p i := by
  refine ⟨e, ?_, he⟩
  rw [since_snoc]
  split_ifs <;> simp

theorem WasAt.snoc (hw : WasAt h t p i) {e : Moment} (he : begins t e = false) :
    WasAt (h ++ [e]) t p i := by
  obtain ⟨e', hmem, hat⟩ := hw
  refine ⟨e', ?_, hat⟩
  rw [since_snoc, he]
  exact List.mem_append_left _ hmem

/-- The number that a call has read and not yet looked up. -/
def Call.pending : Call → Option (Path × Id)
  | .statted path existing => existing.map (path, ·)
  | .reclaiming path existing _ => existing.map (path, ·)
  | .dropping path existing _ _ => existing.map (path, ·)
  | _ => none

/-- No new file gets, at another path, the inode number that a call has read and not yet looked
up. -/
def NoReuse (s : Process) : Act → Prop
  | .disk e => ∀ t p n q, (s.calls t).pending = some (p, n) → e.Makes q n → q = p
  | _ => True

/-- Whatever bears a pending number, and whatever a call has opened, has been at the call's path
since the call began. -/
structure Current (h : List Moment) (s : Process) : Prop where
  pending : ∀ t p n, (s.calls t).pending = some (p, n) → ∀ i, s.disk.InUse i → i.number = n →
    WasAt h t p i
  opened : ∀ t p f, s.calls t = .opened p f → WasAt h t p f.inode

theorem begins_of_busy {e : Moment} (h : e.pre.calls t ≠ .idle) : begins t e = false := by
  unfold begins
  split
  · simp [h]
  · rfl

theorem busy_of_pending {c : Call} {x : Path × Id} (h : c.pending = some x) : c ≠ .idle := by
  rintro rfl
  cases h

/-- A step that puts no new inode into use, and moves the calls so that no number is pending that
was not. -/
theorem Current.keep {s' : Process} {e : Moment} (hc : Current h s) (hpre : e.pre = s)
    (huse : ∀ i, s'.disk.InUse i → s.disk.InUse i)
    (hpending : ∀ u x, (s'.calls u).pending = some x → (s.calls u).pending = some x)
    (hopened : ∀ u p f, s'.calls u = .opened p f → s.calls u = .opened p f ∨
      WasAt (h ++ [e]) u p f.inode) : Current (h ++ [e]) s' := by
  subst hpre
  constructor
  · intro u p n hu i hi hin
    have hold := hpending u (p, n) hu
    exact (hc.pending u p n hold i (huse i hi) hin).snoc (begins_of_busy (busy_of_pending hold))
  · intro u p f hu
    rcases hopened u p f hu with hold | hnew
    · refine (hc.opened u p f hold).snoc (begins_of_busy ?_)
      rw [hold]
      exact Call.noConfusion
    · exact hnew

/-- `Current.keep` for a step that changes the place of one call. -/
theorem Current.move {s' : Process} {e : Moment} (hc : Current h s) (hpre : e.pre = s) {c : Call}
    (hcalls : s'.calls = Function.update s.calls t c)
    (huse : ∀ i, s'.disk.InUse i → s.disk.InUse i)
    (hpending : ∀ x, c.pending = some x → (s.calls t).pending = some x)
    (hopened : ∀ p f, c = .opened p f → WasAt (h ++ [e]) t p f.inode) : Current (h ++ [e]) s' := by
  refine hc.keep hpre huse (fun u x hu ↦ ?_) fun u p f hu ↦ ?_
  · rw [hcalls] at hu
    by_cases hut : u = t
    · subst hut
      rw [Function.update_self] at hu
      exact hpending x hu
    · rwa [Function.update_of_ne hut] at hu
  · rw [hcalls] at hu
    by_cases hut : u = t
    · subst hut
      rw [Function.update_self] at hu
      exact Or.inr (hopened p f hu)
    · rw [Function.update_of_ne hut] at hu
      exact Or.inl hu

theorem Current.statted {e : Moment} (hc : Current h s) (hs : s.disk.Sound) (hpre : e.pre = s)
    (path : Path) (ok : Bool) :
    Current (h ++ [e])
      (s.goto t (.statted path (if ok then (s.disk.at? path).map Inode.number else none))) := by
  subst hpre
  constructor
  · intro u p n hu i hi hin
    by_cases hut : u = t
    · rw [hut, calls_goto_self] at hu
      obtain ⟨m, hm, heq⟩ := Option.map_eq_some_iff.mp hu
      cases heq
      split_ifs at hm
      obtain ⟨j, hj, hjn⟩ := Option.map_eq_some_iff.mp hm
      rw [hs i j hi (Or.inl ⟨path, hj⟩) (hin.trans hjn.symm)]
      exact wasAt_last e (Or.inl hj)
    · rw [calls_goto_of_ne _ _ hut] at hu
      exact (hc.pending u p n hu i hi hin).snoc (begins_of_busy (busy_of_pending hu))
  · intro u p f hu
    by_cases hut : u = t
    · rw [hut, calls_goto_self] at hu
      cases hu
    · rw [calls_goto_of_ne _ _ hut] at hu
      refine (hc.opened u p f hu).snoc (begins_of_busy ?_)
      rw [hu]
      exact Call.noConfusion

theorem Current.disk {e : Moment} (hc : Current h s) {d : FileSystem.Event Path Id}
    (hd : NoReuse s (.disk d)) (hpre : e.pre = s) (hpost : e.post = { s with disk := s.disk.apply d }) :
    Current (h ++ [e]) { s with disk := s.disk.apply d } := by
  subst hpre
  constructor
  · intro u p n hu i hi hin
    rcases Disk.inUse_apply hi with hold | ⟨q, m, hmakes, -, hat, rfl⟩
    · exact (hc.pending u p n hu i hold hin).snoc (begins_of_busy (busy_of_pending hu))
    · cases hin
      have hqp := hd u p m q hu hmakes
      subst hqp
      exact wasAt_last e (Or.inr (by rw [hpost]; exact hat))
  · intro u p f hu
    refine (hc.opened u p f hu).snoc (begins_of_busy ?_)
    rw [show e.pre.calls u = .opened p f from hu]
    exact Call.noConfusion

theorem Current.effect {e : Moment} {out : Option Out} {s' : Process} (hc : Current h s) (hi : Inv s)
    (he : Effect s a out s') (hr : NoReuse s a) (hpre : e.pre = s) (hpost : e.post = s') :
    Current (h ++ [e]) s' := by
  cases he with
  | nothing => exact hc.keep hpre (fun _ h ↦ h) (fun _ _ h ↦ h) (fun _ _ _ h ↦ Or.inl h)
  | statted t path ok => exact hc.statted hi.sound hpre path ok
  | locked t path existing hcall =>
    exact hc.move hpre rfl (fun _ h ↦ h) (fun x hx ↦ by rwa [hcall]) nofun
  | kept t path existing todo f ok hcall =>
    exact hc.move hpre rfl (fun _ h ↦ h) (fun x hx ↦ by rwa [hcall]) nofun
  | doomed t path existing todo f ok hcall =>
    exact hc.move hpre rfl (fun _ h ↦ h) (fun x hx ↦ by rwa [hcall]) nofun
  | dropped t path existing todo f out s' hcall hsettled =>
    cases (hi.dropped hcall).1.symm.trans hsettled
    exact hc.move hpre rfl (fun _ ↦ inUse_close) (fun x hx ↦ by rwa [hcall]) nofun
  | found t path id r hcall => exact hc.move hpre rfl (fun _ h ↦ h) nofun nofun
  | refused t path existing hcall => exact hc.move hpre rfl (fun _ h ↦ h) nofun nofun
  | missed t path existing hcall hroom => exact hc.move hpre rfl (fun _ h ↦ h) nofun nofun
  | openedFile t path f d hcall hopen =>
    refine hc.move hpre rfl (fun _ ↦ inUse_openFile hopen) nofun fun p g hg ↦ ?_
    cases hg
    exact wasAt_last e (Or.inl (by rw [hpre]; exact (Disk.openFile_eq_some hopen).1))
  | unopened t path ok hcall => exact hc.move hpre rfl (fun _ h ↦ h) nofun nofun
  | raced t path f r hcall => exact hc.move hpre rfl (fun _ h ↦ h) nofun nofun
  | stored t path f hcall => exact hc.move hpre rfl (fun _ h ↦ h) nofun nofun
  | unidentified t path f hcall => exact hc.move hpre rfl (fun _ h ↦ h) nofun nofun
  | released t f out s' hholds hsettled =>
    cases (hi.released hholds).1.symm.trans hsettled
    exact hc.keep hpre (fun _ h ↦ h) (fun _ _ h ↦ h) (fun _ _ _ h ↦ Or.inl h)
  | disk d => exact hc.disk hr hpre hpost

theorem current_run {as : List Act} (has : Along step NoReuse Process.start as) :
    Inv (final step Process.start as) ∧
      Current (trace step Process.start as) (final step Process.start as) := by
  refine along_induction (P := fun h s ↦ Inv s ∧ Current h s) step Process.start
    ⟨inv_start, nofun, nofun⟩ (fun h s a hr hs ↦ ?_) as has
  exact ⟨inv_step hs.1 a, hs.2.effect hs.1 (step_effect s a) hr rfl rfl⟩

/-- A descriptor is closed only when its inode has no name and no caller has it. -/
theorem closed_unlinked (hi : Inv s) (hout : (step s a).1 = some (.closed f)) :
    ¬ s.disk.Named f.inode ∧ ¬ s.Held f := by
  have he := step_effect s a
  rw [hout] at he
  generalize (step s a).2 = s' at he
  cases he with
  | dropped t path existing todo g out s' hcall hsettled =>
    cases (hi.dropped hcall).1.symm.trans hsettled
    obtain ⟨-, hunnamed, hunheld, -⟩ : CallOk s (.dropping path existing todo f) := hcall ▸ hi.calls t
    exact ⟨hunnamed, hunheld⟩
  | released t g out s' hholds hsettled => cases (hi.released hholds).1.symm.trans hsettled

theorem returned_current (hc : Current h s) (hi : Inv s) {e : Moment} (hpre : e.pre = s)
    (hout : (step s a).1 = some (.returned t p f)) : WasAt (h ++ [e]) t p f.inode := by
  have hbusy (hne : s.calls t ≠ .idle) : begins t e = false := begins_of_busy (hpre ▸ hne)
  have he := step_effect s a
  rw [hout] at he
  generalize (step s a).2 = s' at he
  cases he with
  | dropped t path existing todo g out s' hcall hsettled =>
    cases (hi.dropped hcall).1.symm.trans hsettled
  | found t path id r hcall hentry =>
    obtain ⟨hr, hid⟩ := Table.find?_eq_some.mp hentry
    obtain ⟨hopen, hnumber⟩ := hi.live r hr
    have hpending : (s.calls t).pending = some (p, id) := by
      rw [hcall]
      rfl
    exact (hc.pending t p id hpending _ (Or.inr ⟨r.file, hopen, rfl⟩) (hnumber.trans hid)).snoc
      (hbusy (busy_of_pending hpending))
  | raced t path g r hcall hentry =>
    obtain ⟨hr, hid⟩ := Table.find?_eq_some.mp hentry
    obtain ⟨hopen, hnumber⟩ := hi.live r hr
    obtain ⟨hours, -⟩ : CallOk s (.opened p g) := hcall ▸ hi.calls t
    have hsame : r.file.inode = g.inode :=
      hi.sound _ _ (Or.inr ⟨r.file, hopen, rfl⟩) (Or.inr ⟨g, hours, rfl⟩) (hnumber.trans hid)
    rw [hsame]
    exact (hc.opened t p g hcall).snoc (hbusy (by rw [hcall]; exact Call.noConfusion))
  | stored t path g hcall hentry =>
    exact (hc.opened t p f hcall).snoc (hbusy (by rw [hcall]; exact Call.noConfusion))
  | unidentified t path g hcall =>
    exact (hc.opened t p f hcall).snoc (hbusy (by rw [hcall]; exact Call.noConfusion))
  | released t g out s' hholds hsettled => cases (hi.released hholds).1.symm.trans hsettled

end History

section Safety

/-- No descriptor is closed while its inode has a directory entry or a caller has it. -/
def ClosesUnlinked (h : List Moment) : Prop :=
  ∀ e ∈ h, ∀ f, e.output = some (.closed f) → ¬ e.pre.disk.Named f.inode ∧ ¬ e.pre.Held f

/-- Every descriptor returned is one of an inode that was at the path during the call. -/
def ReturnsCurrent (h : List Moment) : Prop :=
  ∀ h₁ e h₂, h = h₁ ++ e :: h₂ → ∀ t p f, e.output = some (.returned t p f) →
    WasAt (h₁ ++ [e]) t p f.inode

/-- At most one live entry per inode, under the inode's own number. -/
def Keyed (s : Process) : Prop :=
  (∀ r ∈ s.live.rows, r.file.inode.number = r.id) ∧
    ∀ r ∈ s.live.rows, ∀ r' ∈ s.live.rows, r.file.inode = r'.file.inode → r = r'

theorem closes_run (as : List Act) : ClosesUnlinked (trace step Process.start as) := by
  intro e he f hout
  obtain ⟨bs, a, cs, -, rfl⟩ := mem_trace step he
  exact closed_unlinked (inv_run bs) hout

theorem Inv.keyed {s : Process} (h : Inv s) : Keyed s := by
  refine ⟨fun r hr ↦ (h.live r hr).2, fun r hr r' hr' heq ↦ ?_⟩
  refine Table.key_inj hr hr' ?_
  rw [← (h.live r hr).2, heq, (h.live r' hr').2]

/-- In every run the registry closes no lockable descriptor, has one entry per inode and stays within
its limit; and while no file made at another path takes over a number that a call has read and not yet
looked up, it returns descriptors of the path. -/
theorem shm_registry_safe (as : List Act) :
    ClosesUnlinked (trace step Process.start as) ∧
      (Along step NoReuse Process.start as → ReturnsCurrent (trace step Process.start as)) ∧
      Keyed (final step Process.start as) ∧
      (final step Process.start as).retained ≤ maxRetainedShmFds := by
  refine ⟨closes_run as, ?_, (inv_run as).keyed, (inv_run as).retained⟩
  intro has h₁ e h₂ htrace t p f hout
  obtain ⟨bs, a, cs, rfl, rfl, rfl⟩ := trace_split step htrace
  obtain ⟨hinv, hcurrent⟩ := current_run (along_split has).1
  exact returned_current hcurrent hinv rfl hout

/-- The file is made again at the path, with its old number, while the call waits for the lock. -/
def remadeRun : List Act :=
  [.disk (.create "a-shm" (1, 7)), .stat 0 "a-shm" true, .disk (.unlink "a-shm"),
    .disk (.create "a-shm" (1, 7)), .lock 0, .lookup 0, .openFile 0 true, .store 0 true]

theorem shm_registry_safe_remade :
    ReturnsCurrent (trace step Process.start remadeRun) ∧
      (final step Process.start remadeRun).retained = 1 := by
  refine ⟨(shm_registry_safe remadeRun).2.1 fun e he ↦ ?_, by decide⟩
  simp only [remadeRun, trace, List.mem_cons, List.not_mem_nil, or_false] at he
  rcases he with rfl | rfl | rfl | rfl | rfl | rfl | rfl | rfl
  · intro t p n q hpending
    cases hpending
  · trivial
  · rintro t p n q - (hmakes | hmakes) <;> cases hmakes
  · intro t p n q hpending hmakes
    by_cases ht : t = 0
    · subst ht
      cases hpending
      rcases hmakes with hmakes | hmakes <;> cases hmakes
      rfl
    · change (Function.update (fun _ ↦ Call.idle) 0 _ t).pending = _ at hpending
      rw [Function.update_of_ne ht] at hpending
      cases hpending
  · trivial
  · trivial
  · trivial
  · trivial

/-- The number is taken over by a file at another path, which a second call files meanwhile. -/
def reusedRun : List Act :=
  [.disk (.create "a-shm" (1, 7)), .stat 0 "a-shm" true, .disk (.unlink "a-shm"),
    .disk (.create "b-shm" (1, 7)), .stat 1 "b-shm" true, .lock 1, .lookup 1, .openFile 1 true,
    .store 1 true, .lock 0, .visit 0 ⟨0, 1, 1, 7⟩ true]

theorem stale_number_returned :
    ¬ ReturnsCurrent (trace step Process.start (reusedRun ++ [.lookup 0])) := by
  intro hcurrent
  have hwas := hcurrent _ _ [] (trace_snoc step Process.start reusedRun (.lookup 0)) 0 "a-shm"
    ⟨0, 1, 1, 7⟩ (by decide)
  revert hwas
  decide

end Safety

end Honker.Shm
