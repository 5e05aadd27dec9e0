import Honker.Library.Log
import Mathlib.Logic.Relation

namespace Consumer

open Log

/-- A reader of a log from a position on, with the rows it has handed out. It is busy while the last
one is not finished. -/
structure Cursor (ρ κ : Type) where
  start : κ
  pos : κ
  buffer : List ρ
  yielded : List ρ
  busy : Bool

/-- A log with the saved position of one consumer, the rows that were finished by any of its readers,
and the reader that lives now. -/
structure State (ρ κ : Type) where
  log : List ρ
  saved : κ
  finished : List ρ
  cursor : Option (Cursor ρ κ)

variable {ρ κ : Type} [LinearOrder κ]

/-- A consumer that finishes a row before it saves its position past it. A reader starts at the saved
position, reads in batches and hands out one row at a time. It may end anywhere. -/
inductive Step (key : ρ → κ) : State ρ κ → State ρ κ → Prop
  | append (c : State ρ κ) (rows : List ρ) (h : Increasing key (c.log ++ rows)) :
      Step key c { c with log := c.log ++ rows }
  | attach (c : State ρ κ) : Step key c { c with cursor := some ⟨c.saved, c.saved, [], [], false⟩ }
  | detach (c : State ρ κ) : Step key c { c with cursor := none }
  | refill (c : State ρ κ) (k : Cursor ρ κ) (limit : ℕ) (hk : c.cursor = some k)
      (hbuffer : k.buffer = []) :
      Step key c { c with cursor := some { k with buffer := batch key limit k.pos c.log } }
  | handOut (c : State ρ κ) (k : Cursor ρ κ) (r : ρ) (rest : List ρ) (hk : c.cursor = some k)
      (hbusy : k.busy = false) (hbuffer : k.buffer = r :: rest) :
      Step key c { c with
        cursor := some ⟨k.start, key r, rest, k.yielded ++ [r], true⟩ }
  | finish (c : State ρ κ) (k : Cursor ρ κ) (r : ρ) (l : List ρ) (hk : c.cursor = some k)
      (hyielded : k.yielded = l ++ [r]) :
      Step key c { c with
        finished := c.finished ++ [r], cursor := some { k with busy := false } }
  | save (c : State ρ κ) (k : Cursor ρ κ) (hk : c.cursor = some k) (hbusy : k.busy = false) :
      Step key c { c with saved := k.pos }

/-- Where a reader stands between the log and the saved position. -/
structure Reads (key : ρ → κ) (c : State ρ κ) (k : Cursor ρ κ) : Prop where
  isPrefix : k.yielded ++ k.buffer <+: ahead key k.start c.log
  pos_eq : k.pos = (k.yielded.getLast?.map key).getD k.start
  start_le : k.start ≤ c.saved
  saved_le : c.saved ≤ k.pos
  saved_lt : k.busy = true → c.saved < k.pos
  finished : ∀ r ∈ k.yielded, k.busy = true ∧ key r = k.pos ∨ r ∈ c.finished

/-- No row past `s₀` that the saved position covers is unfinished. -/
structure Sound (key : ρ → κ) (s₀ : κ) (c : State ρ κ) : Prop where
  increasing : Increasing key c.log
  le_saved : s₀ ≤ c.saved
  saved_mem : c.saved = s₀ ∨ ∃ r ∈ c.log, key r = c.saved
  covered : ∀ r ∈ c.log, s₀ < key r → key r ≤ c.saved → r ∈ c.finished
  reads : ∀ k, c.cursor = some k → Reads key c k

section Reads

variable {key : ρ → κ} {c : State ρ κ} {k : Cursor ρ κ}

theorem Reads.yielded_ahead (h : Reads key c k) : k.yielded <+: ahead key k.start c.log :=
  (List.prefix_append _ _).trans h.isPrefix

theorem Reads.pos_of_last (h : Reads key c k) {r : ρ} (hr : k.yielded.getLast? = some r) :
    k.pos = key r := by
  rw [h.pos_eq, hr]
  rfl

theorem Reads.pos_cases (h : Reads key c k) :
    k.yielded = [] ∧ k.pos = k.start ∨ ∃ l r, k.yielded = l ++ [r] ∧ k.pos = key r := by
  rcases List.eq_nil_or_concat k.yielded with hnil | ⟨l, r, hl⟩
  · refine Or.inl ⟨hnil, ?_⟩
    rw [h.pos_eq, hnil]
    rfl
  · rw [List.concat_eq_append] at hl
    exact Or.inr ⟨l, r, hl, h.pos_of_last (by simp [hl])⟩

theorem Reads.le_pos (h : Reads key c k) (hlog : Increasing key c.log) :
    k.start ≤ k.pos ∧ ∀ r ∈ k.yielded, key r ≤ k.pos := by
  refine ⟨h.start_le.trans h.saved_le, fun r hr ↦ ?_⟩
  rcases h.pos_cases with ⟨hnil, -⟩ | ⟨l, q, hl, hq⟩
  · rw [hnil] at hr
    exact absurd hr List.not_mem_nil
  · have hsorted : Increasing key (l ++ [q]) := hl ▸ hlog.ahead.sublist h.yielded_ahead.sublist
    rw [hl] at hr
    rcases List.mem_append.mp hr with hr | hr
    · exact hq ▸ ((List.pairwise_append.mp hsorted).2.2 r hr q (.head [])).le
    · rw [hq, List.mem_singleton.mp hr]

/-- The row after those handed out lies past the reader's position. -/
theorem Reads.pos_lt (h : Reads key c k) (hlog : Increasing key c.log) {r : ρ}
    (hr : k.yielded ++ [r] <+: ahead key k.start c.log) : k.pos < key r := by
  rcases h.pos_cases with ⟨-, hpos⟩ | ⟨l, q, hl, hq⟩
  · rw [hpos]
    exact (mem_ahead.mp (hr.subset (List.mem_append_right _ (.head [])))).2
  · have hsorted := hlog.ahead.sublist hr.sublist
    rw [hq]
    exact (List.pairwise_append.mp hsorted).2.2 q (by simp [hl]) r (.head [])

theorem Reads.append_ahead (h : Reads key c k) (hlog : Increasing key c.log) :
    k.yielded ++ ahead key k.pos c.log = ahead key k.start c.log := by
  have hle := h.le_pos hlog
  rw [← ahead_ahead hle.1]
  exact Log.append_ahead h.yielded_ahead hle.2 (fun r ↦ h.pos_lt hlog) hlog.ahead

/-- A read that finds nothing comes after the whole log was handed out. -/
theorem Reads.yielded_eq (h : Reads key c k) (hlog : Increasing key c.log) {limit : ℕ}
    (hlimit : 0 < limit) (hnil : batch key limit k.pos c.log = []) :
    k.yielded = ahead key k.start c.log := by
  rcases List.take_eq_nil_iff.mp hnil with hzero | hnil
  · omega
  · rw [← h.append_ahead hlog, hnil, List.append_nil]

/-- Past the start, the rows up to the reader's position are those it has handed out. -/
theorem Reads.mem_yielded (h : Reads key c k) (hlog : Increasing key c.log) {r : ρ} (hr : r ∈ c.log)
    (hstart : k.start < key r) (hle : key r ≤ k.pos) : r ∈ k.yielded := by
  have hmem : r ∈ k.yielded ++ ahead key k.pos c.log := by
    rw [h.append_ahead hlog]
    exact mem_ahead.mpr ⟨hr, hstart⟩
  rcases List.mem_append.mp hmem with hmem | hmem
  · exact hmem
  · exact absurd (mem_ahead.mp hmem).2 hle.not_gt

end Reads

section Step

variable {key : ρ → κ} {s₀ : κ} {c c' : State ρ κ}

theorem Sound.append (h : Sound key s₀ c) (rows : List ρ) (hlog : Increasing key (c.log ++ rows)) :
    Sound key s₀ { c with log := c.log ++ rows } where
  increasing := hlog
  le_saved := h.le_saved
  saved_mem := h.saved_mem.imp_right fun ⟨r, hr, hkey⟩ ↦ ⟨r, List.mem_append_left _ hr, hkey⟩
  covered := by
    intro r hr hlt hle
    rcases List.mem_append.mp hr with hr | hr
    · exact h.covered r hr hlt hle
    · -- A new row lies past every saved position that an older row gave.
      rcases h.saved_mem with hsaved | ⟨q, hq, hkey⟩
      · exact absurd (hsaved ▸ hle) hlt.not_ge
      · have hqr := (List.pairwise_append.mp hlog).2.2 q hq r hr
        exact absurd (hkey ▸ hqr) (not_lt.mpr hle)
  reads := by
    intro k hk
    have hreads := h.reads k hk
    refine ⟨?_, hreads.pos_eq, hreads.start_le, hreads.saved_le, hreads.saved_lt, hreads.finished⟩
    rw [ahead_append]
    exact hreads.isPrefix.trans (List.prefix_append _ _)

theorem Sound.withCursor (h : Sound key s₀ c) (k : Cursor ρ κ)
    (hk : Reads key { c with cursor := some k } k) : Sound key s₀ { c with cursor := some k } :=
  ⟨h.increasing, h.le_saved, h.saved_mem, h.covered, fun k' hk' ↦ by
    obtain rfl := Option.some.inj hk'
    exact hk⟩

theorem Sound.handOut (h : Sound key s₀ c) {k : Cursor ρ κ} (hk : c.cursor = some k) {r : ρ}
    {rest : List ρ} (hbusy : k.busy = false) (hbuffer : k.buffer = r :: rest) :
    Sound key s₀ { c with cursor := some ⟨k.start, key r, rest, k.yielded ++ [r], true⟩ } := by
  have hreads := h.reads k hk
  have hpre := hreads.isPrefix
  rw [hbuffer, List.append_cons] at hpre
  have hlt := hreads.pos_lt h.increasing ((List.prefix_append _ _).trans hpre)
  refine h.withCursor _ ⟨hpre, by simp, hreads.start_le, (hreads.saved_le.trans_lt hlt).le,
    fun _ ↦ hreads.saved_le.trans_lt hlt, fun q hq ↦ ?_⟩
  rcases List.mem_append.mp hq with hq | hq
  · rcases hreads.finished q hq with ⟨hb, -⟩ | hq
    · exact absurd hb (by simp [hbusy])
    · exact Or.inr hq
  · exact Or.inl ⟨rfl, by rw [List.mem_singleton.mp hq]⟩

theorem Sound.finish (h : Sound key s₀ c) {k : Cursor ρ κ} (hk : c.cursor = some k) {r : ρ}
    {l : List ρ} (hyielded : k.yielded = l ++ [r]) :
    Sound key s₀ { c with
      finished := c.finished ++ [r], cursor := some { k with busy := false } } := by
  have hreads := h.reads k hk
  have hc : Sound key s₀ { c with finished := c.finished ++ [r] } :=
    ⟨h.increasing, h.le_saved, h.saved_mem,
      fun q hq hlt hle ↦ List.mem_append_left _ (h.covered q hq hlt hle), fun k hk ↦
        let hr := h.reads k hk
        ⟨hr.isPrefix, hr.pos_eq, hr.start_le, hr.saved_le, hr.saved_lt, fun q hq ↦
          (hr.finished q hq).imp_right (List.mem_append_left _)⟩⟩
  refine hc.withCursor _ ⟨hreads.isPrefix, hreads.pos_eq, hreads.start_le, hreads.saved_le, by simp,
    fun q hq ↦ Or.inr ?_⟩
  rcases hreads.finished q hq with ⟨-, hkey⟩ | hq'
  · -- Only the last row that was handed out has the key at the reader's position.
    have hsorted : Increasing key (l ++ [r]) :=
      hyielded ▸ h.increasing.ahead.sublist hreads.yielded_ahead.sublist
    have hpos : k.pos = key r := by simpa [hyielded] using hreads.pos_eq
    rw [hyielded] at hq
    rcases List.mem_append.mp hq with hq | hq
    · have hlt := (List.pairwise_append.mp hsorted).2.2 q hq r (.head [])
      exact absurd (hkey.trans hpos) hlt.ne
    · exact List.mem_append_right _ hq
  · exact List.mem_append_left _ hq'

theorem Sound.save (h : Sound key s₀ c) {k : Cursor ρ κ} (hk : c.cursor = some k)
    (hbusy : k.busy = false) : Sound key s₀ { c with saved := k.pos } := by
  have hreads := h.reads k hk
  refine ⟨h.increasing, h.le_saved.trans hreads.saved_le, ?_, fun r hr hlt hle ↦ ?_, fun k' hk' ↦ ?_⟩
  · rcases hreads.pos_cases with ⟨-, hpos⟩ | ⟨l, r, hl, hr⟩
    · have hsaved : c.saved = k.pos := hreads.saved_le.antisymm (hpos ▸ hreads.start_le)
      exact hsaved ▸ h.saved_mem
    · have hmem : r ∈ k.yielded := by simp [hl]
      exact Or.inr ⟨r, (mem_ahead.mp (hreads.yielded_ahead.subset hmem)).1, hr.symm⟩
  · rcases lt_or_ge k.start (key r) with hstart | hstart
    · rcases hreads.finished r (hreads.mem_yielded h.increasing hr hstart hle) with ⟨hb, -⟩ | hr
      · exact absurd hb (by simp [hbusy])
      · exact hr
    · exact h.covered r hr hlt (hstart.trans hreads.start_le)
  · obtain rfl : k = k' := Option.some.inj (hk.symm.trans hk')
    exact ⟨hreads.isPrefix, hreads.pos_eq, hreads.start_le.trans hreads.saved_le, le_rfl,
      by simp [hbusy], hreads.finished⟩

theorem Step.sound (hs : Step key c c') (h : Sound key s₀ c) : Sound key s₀ c' := by
  cases hs with
  | append rows hlog => exact h.append rows hlog
  | attach =>
    exact h.withCursor _ ⟨List.nil_prefix, rfl, le_rfl, le_rfl, by simp, by simp⟩
  | detach => exact ⟨h.increasing, h.le_saved, h.saved_mem, h.covered, by simp⟩
  | refill k limit hk hbuffer =>
    have hreads := h.reads k hk
    refine h.withCursor _ ⟨?_, hreads.pos_eq, hreads.start_le, hreads.saved_le, hreads.saved_lt,
      hreads.finished⟩
    rw [← hreads.append_ahead h.increasing]
    exact List.prefix_append_right_inj _ |>.mpr (List.take_prefix limit _)
  | handOut k r rest hk hbusy hbuffer => exact h.handOut hk hbusy hbuffer
  | finish k r l hk hyielded => exact h.finish hk hyielded
  | save k hk hbusy => exact h.save hk hbusy

theorem Step.saved_le (hs : Step key c c') (h : Sound key s₀ c) : c.saved ≤ c'.saved := by
  cases hs with
  | save k hk hbusy => exact (h.reads k hk).saved_le
  | _ => exact le_rfl

/-- Several steps at once. -/
def Steps (key : ρ → κ) : State ρ κ → State ρ κ → Prop := Relation.ReflTransGen (Step key)

theorem Steps.sound (hs : Steps key c c') (h : Sound key s₀ c) :
    Sound key s₀ c' ∧ c.saved ≤ c'.saved := by
  induction hs with
  | refl => exact ⟨h, le_rfl⟩
  | tail _ hstep ih => exact ⟨hstep.sound ih.1, ih.2.trans (hstep.saved_le ih.1)⟩

/-- A reader may finish whatever it handed out last. -/
theorem Sound.steps_finish (h : Sound key s₀ c) {k : Cursor ρ κ} (hk : c.cursor = some k) :
    Steps key c { c with
      finished := c.finished ++ k.yielded.getLast?.toList
      cursor := some { k with busy := false } } := by
  have hreads := h.reads k hk
  rcases hreads.pos_cases with ⟨hnil, hpos⟩ | ⟨l, r, hl, -⟩
  · have hbusy : k.busy = false := by
      by_contra hbusy
      have hlt := hreads.start_le.trans_lt (hreads.saved_lt (by simpa using hbusy))
      exact hlt.ne hpos.symm
    obtain ⟨log, saved, finished, cursor⟩ := c
    obtain ⟨start, pos, buffer, yielded, busy⟩ := k
    simp only at hnil hbusy hk
    subst hnil hbusy hk
    simp only [List.getLast?_nil, Option.toList_none, List.append_nil]
    exact .refl
  · have hlast : k.yielded.getLast?.toList = [r] := by
      rw [hl, List.getLast?_append]
      rfl
    rw [hlast]
    exact .single (.finish c k r l hk hl)

end Step

end Consumer
