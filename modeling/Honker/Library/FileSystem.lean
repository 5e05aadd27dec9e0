import Honker.Library.Table

namespace FileSystem

open Relational

variable {π ν : Type}

/-- An inode. Its number may be given out again once nothing names it and nothing has it open; the
place in the order of all inodes ever made may not. -/
structure Inode (ν : Type) where
  birth : ℕ
  number : ν
deriving DecidableEq

structure Entry (π ν : Type) where
  path : π
  inode : Inode ν
deriving DecidableEq

/-- An open file; `fd` tells apart two opens of one inode. -/
structure File (ν : Type) where
  fd : ℕ
  inode : Inode ν
deriving DecidableEq

/-- The directory entries, the files a process has open, and how many inodes and open files there
have been. -/
structure Disk (π ν : Type) where
  names : Table (Entry.path : Entry π ν → π)
  files : List (File ν)
  made : ℕ
  opened : ℕ

/-- What other processes do to the directory. A replacement brings in a new file in one step. -/
inductive Event (π ν : Type)
  | create (p : π) (n : ν)
  | replace (p : π) (n : ν)
  | unlink (p : π)
  | rename (q p : π)
  | link (q p : π)
deriving DecidableEq

/-- The event puts a new inode with the number at the path. -/
def Event.Makes (e : Event π ν) (p : π) (n : ν) : Prop := e = .create p n ∨ e = .replace p n

namespace Disk

variable [DecidableEq π]

def empty : Disk π ν := ⟨Table.empty, [], 0, 0⟩

def at? (d : Disk π ν) (p : π) : Option (Inode ν) := (d.names.find? p).map Entry.inode

def unbind (d : Disk π ν) (p : π) : Disk π ν := { d with names := d.names.delete (fun e ↦ e.path = p) }

def bind (d : Disk π ν) (p : π) (i : Inode ν) : Disk π ν :=
  { d with names := (d.unbind p).names.insertNew ⟨p, i⟩ }

def new (d : Disk π ν) (n : ν) : Inode ν := ⟨d.made, n⟩

/-- A new inode under the path. -/
def make (d : Disk π ν) (p : π) (n : ν) : Disk π ν := { d.bind p (d.new n) with made := d.made + 1 }

def openFile (d : Disk π ν) (p : π) : Option (File ν × Disk π ν) :=
  (d.at? p).map fun i ↦
    (⟨d.opened, i⟩, { d with files := d.files ++ [⟨d.opened, i⟩], opened := d.opened + 1 })

def Named (d : Disk π ν) (i : Inode ν) : Prop := ∃ p, d.at? p = some i

def InUse (d : Disk π ν) (i : Inode ν) : Prop := d.Named i ∨ ∃ f ∈ d.files, f.inode = i

section Names

variable {d : Disk π ν} {p q : π} {i : Inode ν}

theorem at?_eq_some : d.at? p = some i ↔ ⟨p, i⟩ ∈ d.names.rows := by
  unfold at?
  rw [Option.map_eq_some_iff]
  constructor
  · rintro ⟨⟨p', i'⟩, he, rfl⟩
    obtain ⟨hmem, rfl⟩ := Table.find?_eq_some.mp he
    exact hmem
  · intro hmem
    exact ⟨⟨p, i⟩, Table.find?_of_mem hmem, rfl⟩

theorem at?_unbind (d : Disk π ν) (p q : π) :
    (d.unbind p).at? q = if q = p then none else d.at? q := by
  ext i
  rw [at?_eq_some]
  simp only [unbind, Table.delete, List.mem_filter]
  split_ifs with hq
  · simp [hq]
  · simp [hq, at?_eq_some]

theorem at?_bind (d : Disk π ν) (p q : π) (i : Inode ν) :
    (d.bind p i).at? q = if q = p then some i else d.at? q := by
  have hfree : (d.unbind p).names.find? p = none := by
    have hnone := at?_unbind d p p
    rw [if_pos rfl, at?, Option.map_eq_none_iff] at hnone
    exact hnone
  have hself := Table.find?_insertNew (r := (⟨p, i⟩ : Entry π ν)) hfree
  change (((d.unbind p).names.insertNew ⟨p, i⟩).find? q).map Entry.inode = _
  by_cases hq : q = p
  · subst hq
    rw [if_pos rfl]
    exact congrArg (Option.map Entry.inode) hself
  · rw [Table.find?_insertNew_of_ne (fun h ↦ hq h.symm), if_neg hq]
    exact (at?_unbind d p q).trans (if_neg hq)

theorem named_unbind {p : π} (h : (d.unbind p).Named i) : d.Named i := by
  obtain ⟨q, hq⟩ := h
  rw [at?_unbind] at hq
  split_ifs at hq
  exact ⟨q, hq⟩

theorem named_bind {p : π} {j : Inode ν} (h : (d.bind p j).Named i) : d.Named i ∨ i = j := by
  obtain ⟨q, hq⟩ := h
  rw [at?_bind] at hq
  split_ifs at hq
  · exact Or.inr (Option.some.inj hq).symm
  · exact Or.inl ⟨q, hq⟩

theorem at?_make (d : Disk π ν) (p q : π) (n : ν) :
    (d.make p n).at? q = if q = p then some (d.new n) else d.at? q :=
  at?_bind d p q (d.new n)

theorem openFile_eq_some {f : File ν} {d' : Disk π ν} (h : d.openFile p = some (f, d')) :
    d.at? p = some f.inode ∧ d'.files = d.files ++ [f] ∧ d'.names = d.names := by
  obtain ⟨i, hi, heq⟩ := Option.map_eq_some_iff.mp h
  cases heq
  exact ⟨hi, rfl, rfl⟩

/-- No two inodes in use share their number. -/
def Sound (d : Disk π ν) : Prop := ∀ i j, d.InUse i → d.InUse j → i.number = j.number → i = j

theorem sound_empty : (empty : Disk π ν).Sound := by
  rintro i j (⟨p, hp⟩ | ⟨f, hf, -⟩)
  · cases hp
  · cases hf

theorem Sound.of_inUse {d' : Disk π ν} (h : d.Sound) (hsub : ∀ i, d'.InUse i → d.InUse i) :
    d'.Sound :=
  fun i j hi hj ↦ h i j (hsub i hi) (hsub j hj)

end Names

variable [DecidableEq ν]

def links (d : Disk π ν) (i : Inode ν) : ℕ := d.names.rows.countP (fun e ↦ e.inode = i)

/-- Whether an inode that has a name or is open bears the number. -/
def taken (d : Disk π ν) (n : ν) : Bool :=
  d.names.rows.any (fun e ↦ e.inode.number = n) || d.files.any (fun f ↦ f.inode.number = n)

def close (d : Disk π ν) (f : File ν) : Disk π ν := { d with files := d.files.filter (· ≠ f) }

def apply (d : Disk π ν) : Event π ν → Disk π ν
  | .create p n => if d.at? p = none ∧ d.taken n = false then d.make p n else d
  | .replace p n => if d.taken n = false then d.make p n else d
  | .unlink p => d.unbind p
  | .rename q p =>
    match d.at? q with
    | none => d
    -- two names of one inode are left as they are
    | some i => if d.at? p = some i then d else (d.unbind q).bind p i
  | .link q p =>
    match d.at? q with
    | none => d
    | some i => if d.at? p = none then d.bind p i else d

variable {d : Disk π ν} {i j : Inode ν} {n : ν} {f : File ν} {e : Event π ν}

theorem links_eq_zero : d.links i = 0 ↔ ¬ d.Named i := by
  unfold links Named
  rw [List.countP_eq_zero]
  constructor
  · rintro hall ⟨p, hp⟩
    exact hall _ (at?_eq_some.mp hp) (by simp)
  · intro hnot e he hei
    refine hnot ⟨e.path, at?_eq_some.mpr ?_⟩
    rw [← of_decide_eq_true hei]
    exact he

theorem taken_eq_false : d.taken n = false ↔ ∀ i, d.InUse i → i.number ≠ n := by
  unfold taken InUse Named
  rw [Bool.or_eq_false_iff, List.any_eq_false, List.any_eq_false]
  constructor
  · rintro ⟨hnames, hfiles⟩ i (⟨p, hp⟩ | ⟨f, hf, rfl⟩)
    · simpa using hnames _ (at?_eq_some.mp hp)
    · simpa using hfiles f hf
  · intro hall
    constructor
    · intro e he
      simpa using hall e.inode (Or.inl ⟨e.path, at?_eq_some.mpr he⟩)
    · intro f hf
      simpa using hall f.inode (Or.inr ⟨f, hf, rfl⟩)

/-- What an event does to the names: it moves names among inodes that have one, or it names one new
inode with a number that is not taken. -/
theorem apply_cases (d : Disk π ν) (e : Event π ν) :
    (d.apply e).files = d.files ∧
      ((∀ i, (d.apply e).Named i → d.Named i) ∨
        ∃ p n, e.Makes p n ∧ d.taken n = false ∧ (d.apply e).at? p = some (d.new n) ∧
          ∀ i, (d.apply e).Named i → d.Named i ∨ i = d.new n) := by
  have hmake (p : π) (n : ν) : (d.make p n).at? p = some (d.new n) ∧
      ∀ i, (d.make p n).Named i → d.Named i ∨ i = d.new n :=
    ⟨by rw [at?_make, if_pos rfl], fun _ ↦ named_bind⟩
  -- a name given to an inode that has one already
  have hbind {d' : Disk π ν} {q p : π} {j : Inode ν} (hq : d.at? q = some j)
      (hd' : ∀ i, d'.Named i → d.Named i) (i : Inode ν) (hi : (d'.bind p j).Named i) : d.Named i := by
    rcases named_bind hi with hi | rfl
    · exact hd' i hi
    · exact ⟨q, hq⟩
  cases e with
  | create p n =>
    simp only [apply]
    split_ifs with h
    · exact ⟨rfl, Or.inr ⟨p, n, Or.inl rfl, h.2, hmake p n⟩⟩
    · exact ⟨rfl, Or.inl fun i hi ↦ hi⟩
  | replace p n =>
    simp only [apply]
    split_ifs with h
    · exact ⟨rfl, Or.inr ⟨p, n, Or.inr rfl, h, hmake p n⟩⟩
    · exact ⟨rfl, Or.inl fun i hi ↦ hi⟩
  | unlink p => exact ⟨rfl, Or.inl fun _ ↦ named_unbind⟩
  | rename q p =>
    simp only [apply]
    cases hq : d.at? q with
    | none => exact ⟨rfl, Or.inl fun i hi ↦ hi⟩
    | some j =>
      dsimp only
      split_ifs
      · exact ⟨rfl, Or.inl fun i hi ↦ hi⟩
      · exact ⟨rfl, Or.inl (hbind hq fun _ ↦ named_unbind)⟩
  | link q p =>
    simp only [apply]
    cases hq : d.at? q with
    | none => exact ⟨rfl, Or.inl fun i hi ↦ hi⟩
    | some j =>
      dsimp only
      split_ifs
      · exact ⟨rfl, Or.inl (hbind hq fun _ hi ↦ hi)⟩
      · exact ⟨rfl, Or.inl fun i hi ↦ hi⟩

theorem inUse_apply (h : (d.apply e).InUse i) :
    d.InUse i ∨ ∃ p n, e.Makes p n ∧ d.taken n = false ∧ (d.apply e).at? p = some i ∧ i = d.new n := by
  obtain ⟨hfiles, hnames⟩ := apply_cases d e
  rcases h with hnamed | ⟨f, hf, rfl⟩
  · rcases hnames with hold | ⟨p, n, hmakes, htaken, hat, hnew⟩
    · exact Or.inl (Or.inl (hold i hnamed))
    · rcases hnew i hnamed with hold | rfl
      · exact Or.inl (Or.inl hold)
      · exact Or.inr ⟨p, n, hmakes, htaken, hat, rfl⟩
  · rw [hfiles] at hf
    exact Or.inl (Or.inr ⟨f, hf, rfl⟩)

/-- An inode that is open and has no name never gets one again. -/
theorem not_named_apply (hf : f ∈ d.files) (h : ¬ d.Named f.inode) :
    ¬ (d.apply e).Named f.inode := by
  intro hnamed
  rcases (apply_cases d e).2 with hold | ⟨p, n, -, htaken, -, hnew⟩
  · exact h (hold _ hnamed)
  · rcases hnew _ hnamed with hold | heq
    · exact h hold
    · exact taken_eq_false.mp htaken _ (Or.inr ⟨f, hf, rfl⟩) (congrArg Inode.number heq)

theorem Sound.apply (h : d.Sound) (e : Event π ν) : (d.apply e).Sound := by
  intro i j hi hj hij
  rcases inUse_apply hi with hi | ⟨p, n, -, htaken, -, rfl⟩
  · rcases inUse_apply hj with hj | ⟨p, n, -, htaken, -, rfl⟩
    · exact h i j hi hj hij
    · exact absurd hij (taken_eq_false.mp htaken i hi)
  · rcases inUse_apply hj with hj | ⟨p', n', -, -, -, rfl⟩
    · exact absurd hij.symm (taken_eq_false.mp htaken j hj)
    · exact congrArg d.new hij

end Disk

end FileSystem
