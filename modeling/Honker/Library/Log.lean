import Mathlib.Data.List.Basic
import Mathlib.Data.List.Infix
import Mathlib.Data.List.Nodup
import Mathlib.Data.List.Perm.Subperm
import Mathlib.Order.Lattice

namespace Log

variable {ρ κ : Type} [LinearOrder κ]

/-- The rows of an append-only log, in the order of their strictly increasing keys. -/
def Increasing (key : ρ → κ) (l : List ρ) : Prop := l.Pairwise fun a b ↦ key a < key b

/-- The rows of a log past a position. -/
def ahead (key : ρ → κ) (pos : κ) (l : List ρ) : List ρ := l.filter fun r ↦ pos < key r

/-- At most `limit` rows of a log past a position, in order. -/
def batch (key : ρ → κ) (limit : ℕ) (pos : κ) (l : List ρ) : List ρ := (ahead key pos l).take limit

variable {key : ρ → κ} {l d : List ρ} {limit : ℕ} {pos pos' : κ} {r q : ρ}

@[simp]
theorem mem_ahead : r ∈ ahead key pos l ↔ r ∈ l ∧ pos < key r := by
  simp [ahead]

theorem mem_batch (h : r ∈ batch key limit pos l) : r ∈ l ∧ pos < key r :=
  mem_ahead.mp (List.mem_of_mem_take h)

theorem ahead_append (l m : List ρ) : ahead key pos (l ++ m) = ahead key pos l ++ ahead key pos m :=
  List.filter_append ..

theorem ahead_ahead (h : pos ≤ pos') : ahead key pos' (ahead key pos l) = ahead key pos' l := by
  unfold ahead
  rw [List.filter_filter]
  refine List.filter_congr fun r _ ↦ ?_
  have hle : pos' < key r → pos < key r := fun hr ↦ h.trans_lt hr
  simpa using hle

theorem length_ahead_le (h : pos ≤ pos') : (ahead key pos' l).length ≤ (ahead key pos l).length := by
  rw [← ahead_ahead h]
  exact List.length_filter_le _ _

theorem ahead_eq_nil (h : ∀ r ∈ l, key r ≤ pos) : ahead key pos l = [] := by
  refine List.filter_eq_nil_iff.mpr fun r hr ↦ ?_
  simpa using h r hr

theorem ahead_eq_self (h : ∀ r ∈ l, pos < key r) : ahead key pos l = l := by
  refine List.filter_eq_self.mpr fun r hr ↦ ?_
  simpa using h r hr

namespace Increasing

theorem sublist (h : Increasing key l) (hd : d.Sublist l) : Increasing key d :=
  List.Pairwise.sublist hd h

theorem ahead (h : Increasing key l) : Increasing key (ahead key pos l) :=
  h.sublist List.filter_sublist

theorem batch (h : Increasing key l) : Increasing key (batch key limit pos l) :=
  h.ahead.sublist (List.take_sublist limit _)

theorem nodup (h : Increasing key l) : l.Nodup :=
  List.Pairwise.imp (fun hlt he ↦ absurd (congrArg key he) hlt.ne) h

theorem inj (h : Increasing key l) (hr : r ∈ l) (hq : q ∈ l) (he : key r = key q) : r = q := by
  have hkeys : (l.map key).Nodup := List.pairwise_map.mpr (List.Pairwise.imp (fun hlt ↦ hlt.ne) h)
  exact List.inj_on_of_nodup_map hkeys hr hq he

/-- A beginning of a log leaves out no row before one of its own. -/
theorem mem_of_prefix (h : Increasing key l) (hd : d <+: l) (hq : q ∈ d) (hr : r ∈ l)
    (hle : key r ≤ key q) : r ∈ d := by
  obtain ⟨rest, rfl⟩ := hd
  rcases List.mem_append.mp hr with hr | hr
  · exact hr
  · have hlt := (List.pairwise_append.mp h).2.2 q hq r hr
    exact absurd hle hlt.not_ge

/-- A batch leaves out no row between the position and one of its own. -/
theorem mem_batch_of_le (h : Increasing key l) (hq : q ∈ Log.batch key limit pos l) (hr : r ∈ l)
    (hpos : pos < key r) (hle : key r ≤ key q) : r ∈ Log.batch key limit pos l :=
  h.ahead.mem_of_prefix (List.take_prefix limit _) hq (mem_ahead.mpr ⟨hr, hpos⟩) hle

end Increasing

theorem append_ahead (hd : d <+: l) (hpos : ∀ r ∈ d, key r ≤ pos)
    (hrest : ∀ r, d ++ [r] <+: l → pos < key r) (h : Increasing key l) :
    d ++ ahead key pos l = l := by
  obtain ⟨rest, rfl⟩ := hd
  have hahead : ∀ r ∈ rest, pos < key r := by
    cases rest with
    | nil => simp
    | cons a rest =>
      have ha : pos < key a := hrest a ⟨rest, by simp⟩
      intro r hr
      rcases List.mem_cons.mp hr with rfl | hr
      · exact ha
      · have hsorted : (a :: rest).Pairwise fun a b ↦ key a < key b :=
          (List.pairwise_append.mp h).2.1
        exact ha.trans ((List.pairwise_cons.mp hsorted).1 r hr)
  rw [ahead_append, ahead_eq_nil hpos, ahead_eq_self hahead, List.nil_append]

theorem mem_batch_of_prefix (hd : d <+: ahead key pos l) (hr : r ∈ d) (hlen : d.length ≤ limit) :
    r ∈ batch key limit pos l :=
  (List.prefix_take_iff.mpr ⟨hd, hlen⟩).subset hr

theorem mem_batch_append (h : r ∈ batch key limit pos l) (m : List ρ) :
    r ∈ batch key limit pos (l ++ m) := by
  refine mem_batch_of_prefix ?_ h (List.length_take_le _ _)
  rw [ahead_append]
  exact (List.take_prefix limit _).trans (List.prefix_append _ _)

theorem mem_batch_of_lt (h : r ∈ batch key limit pos l) (hle : pos ≤ pos') (hlt : pos' < key r) :
    r ∈ batch key limit pos' l := by
  have hpre : ahead key pos' (batch key limit pos l) <+: ahead key pos' (ahead key pos l) :=
    (List.take_prefix limit _).filter _
  rw [ahead_ahead hle] at hpre
  exact mem_batch_of_prefix hpre (mem_ahead.mpr ⟨h, hlt⟩)
    ((List.length_filter_le _ _).trans (List.length_take_le _ _))

/-- Of some rows, those past a position are among the next `limit` rows of the log. -/
def Within (key : ρ → κ) (limit : ℕ) (pos : κ) (l d : List ρ) : Prop :=
  ∀ r ∈ d, key r ≤ pos ∨ r ∈ batch key limit pos l

theorem Within.append (h : Within key limit pos l d) (m : List ρ) :
    Within key limit pos (l ++ m) d :=
  fun r hr ↦ (h r hr).imp_right fun hr ↦ mem_batch_append hr m

theorem Within.advance (h : Within key limit pos l d) (hle : pos ≤ pos') :
    Within key limit pos' l d := by
  intro r hr
  rcases le_or_gt (key r) pos' with hpos | hpos
  · exact Or.inl hpos
  · rcases h r hr with hr | hr
    · exact absurd (hr.trans hle) hpos.not_ge
    · exact Or.inr (mem_batch_of_lt hr hle hpos)

/-- Of the rows past the position, at most `limit` are among those rows. -/
theorem Within.length_le [DecidableEq ρ] (h : Within key limit pos l d) {m : List ρ}
    (hm : m <+: ahead key pos l) (hl : Increasing key l) :
    (m.filter fun r ↦ r ∈ d).length ≤ limit := by
  have hsub : m.filter (fun r ↦ r ∈ d) ⊆ batch key limit pos l := by
    intro r hr
    obtain ⟨hrm, hrd⟩ := List.mem_filter.mp hr
    have hpos := (mem_ahead.mp (hm.subset hrm)).2
    rcases h r (of_decide_eq_true hrd) with hle | hr
    · exact absurd hpos hle.not_gt
    · exact hr
  have hnodup : (m.filter fun r ↦ r ∈ d).Nodup :=
    hl.ahead.nodup.sublist (List.filter_sublist.trans hm.sublist)
  exact (List.subperm_of_subset hnodup hsub).length_le.trans (List.length_take_le _ _)

end Log
