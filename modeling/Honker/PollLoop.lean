import Honker.Library.Interleaving

namespace Honker

open Interleaving

/-- The errors of `PRAGMA data_version` that the loop tells apart. -/
inductive PollFault
  | databaseBusy
  | databaseLocked
  | other
deriving DecidableEq

def isTransientLockError : PollFault → Bool
  | .databaseBusy => true
  | .databaseLocked => true
  | .other => false

/-- The next statement of `run_poll_loop`. -/
inductive PollPc
  | opening
  | baseline
  | identity
  | signal
  | head
  | body
  | rebase (c : ℕ)
  | wake
  | check
  | wakeCheck
  | ended
deriving DecidableEq

/-- The loop, with the database it watches: `commits` counts the commits of other connections, `opens`
the connections the loop has opened. `readyAt` is the number of commits at the ready signal, and
`wakes` records it at each `on_change`. -/
structure PollState where
  commits : ℕ
  opens : ℕ
  conn : Option ℕ
  lastVersion : ℕ
  initialIdentity : ℕ × ℕ
  pc : PollPc
  readyAt : Option ℕ
  wakes : List ℕ

def PollState.start : PollState := ⟨0, 0, none, 0, (0, 0), .opening, none, []⟩

/-- A foreign commit, or a statement of the loop with what its surroundings decide. -/
inductive PollAction
  | commit
  | openConn (ok : Bool)
  | baseline (ok : Bool)
  | statIdentity (id : Option (ℕ × ℕ))
  | ready
  | loadStop (stop : Bool)
  | poll (fault : Option PollFault)
  | onChange
  | check (due : Bool) (id : Option (ℕ × ℕ))

section Loop

-- `version c n` is what `PRAGMA data_version` answers on connection `c` after `n` commits.
variable (version : ℕ → ℕ → ℕ)

/-- `poll_data_version(..).unwrap_or(0)`. -/
def pollDataVersion (s : PollState) (c : ℕ) (ok : Bool) : ℕ := if ok then version c s.commits else 0

def pollStep (s : PollState) (a : PollAction) : PollState :=
  match s.pc, a with
  | _, .commit => { s with commits := s.commits + 1 }
  | .opening, .openConn ok =>
    if ok then { s with conn := some s.opens, opens := s.opens + 1, pc := .baseline }
    else { s with pc := .baseline }
  | .baseline, .baseline ok =>
    { s with
      lastVersion := (s.conn.map fun c ↦ pollDataVersion version s c ok).getD 0
      pc := .identity }
  | .identity, .statIdentity id => { s with initialIdentity := id.getD (0, 0), pc := .signal }
  | .signal, .ready => { s with readyAt := some s.commits, pc := .head }
  | .head, .loadStop stop => { s with pc := if stop then .ended else .body }
  | .body, .poll fault =>
    match s.conn, fault with
    | some c, none =>
      if version c s.commits ≠ s.lastVersion then
        { s with lastVersion := version c s.commits, pc := .wake }
      else { s with pc := .check }
    | some _, some e =>
      if isTransientLockError e then { s with pc := .check }
      else { s with conn := none, pc := .wake }
    | none, _ => s
  | .body, .openConn ok =>
    match s.conn with
    | some _ => s
    | none =>
      if ok then { s with opens := s.opens + 1, pc := .rebase s.opens } else { s with pc := .check }
  | .rebase c, .baseline ok =>
    { s with lastVersion := pollDataVersion version s c ok, conn := some c, pc := .check }
  | .wake, .onChange => { s with wakes := s.commits :: s.wakes, pc := .check }
  | .check, .check due id =>
    if due then
      match id with
      -- The dead-man's switch panics on a replaced file.
      | some current => { s with pc := if current ≠ s.initialIdentity then .ended else .head }
      | none => { s with conn := none, pc := .wakeCheck }
    else { s with pc := .head }
  | .wakeCheck, .onChange => { s with wakes := s.commits :: s.wakes, pc := .head }
  | _, _ => s

/-- The `n`th commit was made before the ready signal, or an `on_change` has come after it. -/
def PollState.Announced (s : PollState) (n : ℕ) : Prop :=
  (∃ r ∈ s.readyAt, n ≤ r) ∨ ∃ w ∈ s.wakes, n ≤ w

/-- A reconnect reads its baseline only when no commit is left to announce; and a baseline read fails
only on a connection whose `data_version` is not the default 0 from then on. -/
def BaselineSafe (s : PollState) : PollAction → Prop
  | .baseline ok =>
    match s.pc with
    | .baseline => ok = false → ∀ c ∈ s.conn, ∀ n ≥ s.commits, version c n ≠ 0
    | .rebase c => if ok then ∀ n ≤ s.commits, s.Announced n else ∀ n ≥ s.commits, version c n ≠ 0
    | _ => True
  | _ => True

/-- The ready signal or an `on_change` is the next thing the loop does about what it has read. -/
def PollPc.owes : PollPc → Bool
  | .identity => true
  | .signal => true
  | .wake => true
  | _ => false

/-- What the loop compares with is the version of its connection at a commit that is announced, or
about to be; or the default, on a connection that no longer shows it. -/
def Known (s : PollState) : Prop :=
  ∀ c ∈ s.conn,
    (∃ n ≤ s.commits, s.lastVersion = version c n ∧ (s.pc.owes = true ∨ s.Announced n)) ∨
      (s.lastVersion = 0 ∧ ∃ m ≤ s.commits, ∀ n ≥ m, version c n ≠ 0)

def PollInv (s : PollState) : Prop := s.pc = .opening ∨ s.pc = .baseline ∨ Known version s

variable {version} {s : PollState}

theorem Known.of_eq {t : PollState} (h : Known version s) (hconn : t.conn = s.conn)
    (hlast : t.lastVersion = s.lastVersion) (hcommits : s.commits ≤ t.commits)
    (howes : ∀ n ≤ s.commits, s.pc.owes = true ∨ s.Announced n → t.pc.owes = true ∨ t.Announced n) :
    Known version t := by
  intro c hc
  rcases h c (hconn ▸ hc) with ⟨n, hn, hv, ho⟩ | ⟨hzero, m, hm, hne⟩
  · exact Or.inl ⟨n, hn.trans hcommits, hlast.trans hv, howes n hn ho⟩
  · exact Or.inr ⟨hlast.trans hzero, m, hm.trans hcommits, hne⟩

theorem known_of_conn_none (h : s.conn = none) : Known version s := by
  intro c hc
  rw [h] at hc
  cases hc

theorem PollInv.known (h : PollInv version s) (h₁ : s.pc ≠ .opening) (h₂ : s.pc ≠ .baseline) :
    Known version s :=
  (h.resolve_left h₁).resolve_left h₂

theorem PollInv.of_pc (h : PollInv version s) (h₁ : s.pc ≠ .opening) (h₂ : s.pc ≠ .baseline)
    {pc : PollPc} (howes : s.pc.owes = true → pc.owes = true) {ident : ℕ × ℕ} :
    PollInv version { s with pc := pc, initialIdentity := ident } :=
  Or.inr (Or.inr ((h.known h₁ h₂).of_eq rfl rfl le_rfl fun _ _ ↦ Or.imp_left howes))

theorem PollInv.of_wake (h : PollInv version s) (h₁ : s.pc ≠ .opening) (h₂ : s.pc ≠ .baseline)
    {pc : PollPc} : PollInv version { s with wakes := s.commits :: s.wakes, pc := pc } :=
  Or.inr (Or.inr ((h.known h₁ h₂).of_eq rfl rfl le_rfl fun _ hn _ ↦
    Or.inr (Or.inr ⟨s.commits, List.mem_cons_self, hn⟩)))

theorem pollInv_baseline (ok : Bool) (ha : BaselineSafe version s (.baseline ok))
    (h : PollInv version s) : PollInv version (pollStep version s (.baseline ok)) := by
  obtain ⟨commits, opens, conn, last, ident, pc, readyAt, wakes⟩ := s
  cases pc with
  | baseline =>
    refine Or.inr (Or.inr fun c hc ↦ ?_)
    obtain rfl : conn = some c := hc
    cases ok with
    | true => exact Or.inl ⟨commits, le_rfl, rfl, Or.inl rfl⟩
    | false => exact Or.inr ⟨rfl, commits, le_rfl, ha rfl c rfl⟩
  | rebase d =>
    refine Or.inr (Or.inr fun c hc ↦ ?_)
    cases hc
    cases ok with
    | true => exact Or.inl ⟨commits, le_rfl, rfl, Or.inr (ha commits le_rfl)⟩
    | false => exact Or.inr ⟨rfl, commits, le_rfl, ha⟩
  | _ => exact h

theorem pollInv_poll (fault : Option PollFault) (h : PollInv version s) :
    PollInv version (pollStep version s (.poll fault)) := by
  obtain ⟨commits, opens, conn, last, ident, pc, readyAt, wakes⟩ := s
  cases pc with
  | body =>
    have hcheck : PollInv version ⟨commits, opens, conn, last, ident, .check, readyAt, wakes⟩ :=
      h.of_pc (by simp) (by simp) (fun ho ↦ absurd ho (by simp [PollPc.owes]))
    cases conn with
    | none => exact h
    | some c =>
      cases fault with
      | none =>
        simp only [pollStep]
        split_ifs with hv
        · refine Or.inr (Or.inr fun d hd ↦ ?_)
          cases hd
          exact Or.inl ⟨commits, le_rfl, rfl, Or.inl rfl⟩
        · exact hcheck
      | some e =>
        simp only [pollStep]
        split_ifs with he
        · exact hcheck
        · exact Or.inr (Or.inr (known_of_conn_none rfl))
  | _ => exact h

theorem pollInv_openConn (ok : Bool) (h : PollInv version s) :
    PollInv version (pollStep version s (.openConn ok)) := by
  obtain ⟨commits, opens, conn, last, ident, pc, readyAt, wakes⟩ := s
  cases pc with
  | opening => cases ok <;> exact Or.inr (Or.inl rfl)
  | body =>
    cases conn with
    | none => cases ok <;> exact Or.inr (Or.inr (known_of_conn_none rfl))
    | some c => exact h
  | _ => exact h

theorem pollInv_check (due : Bool) (id : Option (ℕ × ℕ)) (h : PollInv version s) :
    PollInv version (pollStep version s (.check due id)) := by
  cases hpc : s.pc with
  | check =>
    cases due with
    | false =>
      simp only [pollStep, hpc]
      exact h.of_pc (by simp [hpc]) (by simp [hpc]) (by simp [hpc, PollPc.owes])
    | true =>
      cases id with
      | none =>
        simp only [pollStep, hpc, if_true]
        exact Or.inr (Or.inr (known_of_conn_none rfl))
      | some current =>
        simp only [pollStep, hpc, if_true]
        exact h.of_pc (by simp [hpc]) (by simp [hpc]) (by simp [hpc, PollPc.owes])
  | _ => simpa only [pollStep, hpc] using h

theorem pollInv_pollStep (s : PollState) (a : PollAction) (ha : BaselineSafe version s a)
    (h : PollInv version s) : PollInv version (pollStep version s a) := by
  cases a with
  | commit =>
    rcases h with h | h | h
    · exact Or.inl (by simpa [pollStep] using h)
    · exact Or.inr (Or.inl (by simpa [pollStep] using h))
    · exact Or.inr (Or.inr (h.of_eq (by simp [pollStep]) (by simp [pollStep]) (by simp [pollStep])
        fun n _ hn ↦ by simpa [pollStep, PollState.Announced] using hn))
  | openConn ok => exact pollInv_openConn ok h
  | baseline ok => exact pollInv_baseline ok ha h
  | statIdentity id =>
    cases hpc : s.pc with
    | identity =>
      simp only [pollStep, hpc]
      exact h.of_pc (by simp [hpc]) (by simp [hpc]) (fun _ ↦ rfl)
    | _ => simpa only [pollStep, hpc] using h
  | ready =>
    cases hpc : s.pc with
    | signal =>
      simp only [pollStep, hpc]
      refine Or.inr (Or.inr ((h.known (by simp [hpc]) (by simp [hpc])).of_eq rfl rfl le_rfl
        fun n hn _ ↦ Or.inr (Or.inl ⟨s.commits, rfl, hn⟩)))
    | _ => simpa only [pollStep, hpc] using h
  | loadStop stop =>
    cases hpc : s.pc with
    | head =>
      simp only [pollStep, hpc]
      exact h.of_pc (by simp [hpc]) (by simp [hpc]) (by simp [hpc, PollPc.owes])
    | _ => simpa only [pollStep, hpc] using h
  | poll fault => exact pollInv_poll fault h
  | onChange =>
    cases hpc : s.pc with
    | wake =>
      simp only [pollStep, hpc]
      exact h.of_wake (by simp [hpc]) (by simp [hpc])
    | wakeCheck =>
      simp only [pollStep, hpc]
      exact h.of_wake (by simp [hpc]) (by simp [hpc])
    | _ => simpa only [pollStep, hpc] using h
  | check due id => exact pollInv_check due id h

variable (version)

/-- In every run of the loop, among any commits of other connections, in which no reconnect reads its
baseline past an unannounced commit: at each loop head at which the loop is up to date with its
connection, every commit made after the ready signal has been followed by an `on_change`. -/
theorem poll_announces (hversion : ∀ c, Function.Injective (version c)) (as : List PollAction)
    (has : Along (pollStep version) (BaselineSafe version) .start as) :
    let s := run (pollStep version) .start as
    s.pc = .head → ∀ c ∈ s.conn, s.lastVersion = version c s.commits →
      ∀ r ∈ s.readyAt, ∀ n, r < n → n ≤ s.commits → ∃ w ∈ s.wakes, n ≤ w := by
  intro s hpc c hc hlast r hr n hrn hn
  have hinv : PollInv version s :=
    along_invariant (pollStep version) pollInv_pollStep (Or.inl rfl) has
  rcases hinv.known (by simp [hpc]) (by simp [hpc]) c hc with ⟨m, hm, hv, ho⟩ | ⟨hzero, m, hm, hne⟩
  · obtain rfl : m = s.commits := hversion c (hv.symm.trans hlast)
    rcases ho with ho | ⟨q, hq, hle⟩ | ⟨w, hw, hle⟩
    · simp [hpc, PollPc.owes] at ho
    · cases hr.symm.trans hq
      omega
    · exact ⟨w, hw, hn.trans hle⟩
  · exact absurd (hlast.symm.trans hzero) (hne s.commits hm)

end Loop

/-- A first open and one round of the loop, a failing query and a reconnect with no commit in between,
and a round on the new connection. -/
def reconnectRound : List PollAction :=
  [.openConn true, .baseline true, .statIdentity (some (1, 1)), .ready, .commit, .loadStop false,
    .poll none, .onChange, .check false none, .loadStop false, .poll (some .other), .onChange,
    .check false none, .loadStop false, .openConn true, .baseline true, .check false none, .commit,
    .loadStop false, .poll none, .onChange, .check false none]

theorem poll_announces_reconnectRound :
    let s := run (pollStep fun _ n ↦ n + 1) .start reconnectRound
    s.conn = some 1 ∧ s.commits = 2 ∧ ∃ w ∈ s.wakes, 2 ≤ w := by
  have hsafe : Along (pollStep fun _ n ↦ n + 1) (BaselineSafe fun _ n ↦ n + 1) .start reconnectRound := by
    simp [reconnectRound, Along, BaselineSafe, pollStep, pollDataVersion, PollState.start,
      isTransientLockError, PollState.Announced]
    exact fun n hn ↦ Or.inr hn
  refine ⟨by decide, by decide, ?_⟩
  exact poll_announces (fun _ n ↦ n + 1) (fun _ _ _ h ↦ Nat.succ_injective h) reconnectRound hsafe
    (by decide) 1 (by decide) (by decide) 0 (by decide) 2 (by decide) (by decide)

/-- The query fails, the loop drops its connection and wakes everyone; a commit falls before it has
reconnected, and the new baseline hides it. -/
theorem reconnect_hides_commit :
    let s := run (pollStep fun _ n ↦ n + 1) .start
      [.openConn true, .baseline true, .statIdentity (some (1, 1)), .ready, .loadStop false,
        .poll (some .other), .onChange, .check false none, .commit, .loadStop false, .openConn true,
        .baseline true, .check false none]
    s.pc = .head ∧ s.conn = some 1 ∧ s.lastVersion = s.commits + 1 ∧ s.readyAt = some 0 ∧
      s.commits = 1 ∧ ¬ ∃ w ∈ s.wakes, 1 ≤ w := by
  decide

end Honker
