import Honker.Jobs

namespace Honker

open Relational Numeric

/-- An element of the array of `ack_batch`: a plain id, or an id with its attempt token. -/
inductive AckItem
  | id (job : ℤ)
  | pair (job attempt : ℤ)
deriving DecidableEq

namespace AckItem

def elem : AckItem → AckElem
  | .id job => .id (some job)
  | .pair job attempt => .pair (some job) (some attempt)

/-- The single call that an element stands for. -/
def ackOne (worker : String) (now : Clock) : AckItem → Db → Except SqlError ℤ × Db
  | .id job => ack job worker now
  | .pair job attempt => ackFenced job worker attempt

/-- The guard of that call. -/
def guard (worker : String) (now : ℤ) : AckItem → LiveRow → Bool
  | .id job => LiveRow.heldBy job worker now
  | .pair job attempt => LiveRow.tokenFor job worker attempt

end AckItem

/-- The single calls one after the other, with the sum of their returns. -/
def ackEach (worker : String) (now : Clock) : List AckItem → Db → Except SqlError ℤ × Db
  | [], db => (.ok 0, db)
  | item :: items, db =>
    match item.ackOne worker now db with
    | (.error e, db) => (.error e, db)
    | (.ok k, db) =>
      match ackEach worker now items db with
      | (.error e, db) => (.error e, db)
      | (.ok m, db) => (.ok (k + m), db)

/-- `k` rows are gone, those that some element guards, and everything else is as it was. -/
structure Acked (items : List AckItem) (worker : String) (now : ℤ) (k : ℤ) (db db' : Db) : Prop where
  gone : ∀ r ∈ db.live.rows,
    r ∉ db'.live.rows ↔ ∃ item ∈ items, item.guard worker now r = true
  kept : db'.live.rows.Sublist db.live.rows
  count : k + db'.live.rows.length = db.live.rows.length
  rest : db'.dead = db.dead ∧ db'.tasks = db.tasks ∧ db'.seq = db.seq

section Batch

variable {worker : String} {now : Clock} {items : List AckItem}

theorem ackOne_eq (item : AckItem) (worker : String) (now : Clock) (db : Db) :
    item.ackOne worker now db = deleteCount (item.guard worker now) db := by
  cases item with
  | id job => rfl
  | pair job attempt => rfl

theorem deleteCount_or (p q : LiveRow → Bool) (db : Db) :
    deleteCount (fun r ↦ p r || q r) db =
      (.ok ((deleteLive p db).1.length + (deleteLive q (deleteLive p db).2).1.length),
        (deleteLive q (deleteLive p db).2).2) := by
  simp only [deleteCount, deleteLive, Table.delete_delete, ← Table.length_filter_delete]
  push_cast
  rfl

/-- The single calls delete, all together, the rows that some element guards. -/
theorem ackEach_eq (items : List AckItem) (worker : String) (now : Clock) (db : Db) :
    ackEach worker now items db =
      deleteCount (fun r ↦ items.any fun item ↦ item.guard worker now r) db := by
  induction items generalizing db with
  | nil =>
    have hnone : db.live.delete (fun _ ↦ false) = db.live :=
      Table.delete_of_forall_not fun _ _ ↦ rfl
    simp [ackEach, deleteCount, deleteLive, hnone]
  | cons item items ih =>
    simp only [ackEach, ackOne_eq, deleteCount, ih, List.any_cons]
    exact (deleteCount_or (item.guard worker now) _ db).symm

theorem selects_elem (items : List AckItem) (worker : String) (now : ℤ) (r : LiveRow) :
    AckElem.selects (items.map AckItem.elem) worker now r =
      items.any fun item ↦ item.guard worker now r := by
  rw [Bool.eq_iff_iff, List.any_eq_true]
  simp only [AckElem.selects, Bool.and_eq_true, Bool.or_eq_true, decide_eq_true_eq, List.mem_map]
  constructor
  · intro h
    obtain ⟨⟨-, hworker⟩, ⟨hlease, item, hitem, helem⟩ | ⟨hstate, item, hitem, helem⟩⟩ := h
    · refine ⟨item, hitem, ?_⟩
      cases item with
      | id job =>
        cases helem
        simp [AckItem.guard, LiveRow.heldBy, hworker, hlease]
      | pair job attempt => cases helem
    · refine ⟨item, hitem, ?_⟩
      cases item with
      | id job => cases helem
      | pair job attempt =>
        cases helem
        simp [AckItem.guard, LiveRow.tokenFor, hworker, hstate]
  · intro h
    obtain ⟨item, hitem, hguard⟩ := h
    cases item with
    | id job =>
      simp only [AckItem.guard, LiveRow.heldBy, Bool.and_eq_true, decide_eq_true_eq] at hguard
      obtain ⟨⟨rfl, hworker⟩, hlease⟩ := hguard
      exact ⟨⟨⟨_, ⟨_, hitem, rfl⟩, rfl⟩, hworker⟩, Or.inl ⟨hlease, _, hitem, rfl⟩⟩
    | pair job attempt =>
      simp only [AckItem.guard, LiveRow.tokenFor, Bool.and_eq_true, decide_eq_true_eq] at hguard
      obtain ⟨⟨⟨rfl, hworker⟩, rfl⟩, hstate⟩ := hguard
      exact ⟨⟨⟨_, ⟨_, hitem, rfl⟩, rfl⟩, hworker⟩, Or.inr ⟨hstate, _, hitem, rfl⟩⟩

theorem ackBatch_eq (items : List AckItem) (worker : String) (now : Clock) (db : Db) :
    ackBatch (some (items.map AckItem.elem)) worker now db =
      deleteCount (fun r ↦ items.any fun item ↦ item.guard worker now r) db := by
  simp only [ackBatch, funext (selects_elem items worker now)]

theorem ackBatch_perm {items' : List AckItem} (h : items'.Perm items) (worker : String) (now : Clock)
    (db : Db) :
    ackBatch (some (items'.map AckItem.elem)) worker now db =
      ackBatch (some (items.map AckItem.elem)) worker now db := by
  rw [ackBatch_eq, ackBatch_eq]
  congr 1
  funext r
  rw [Bool.eq_iff_iff, List.any_eq_true, List.any_eq_true]
  exact exists_congr fun item ↦ and_congr_left fun _ ↦ h.mem_iff

theorem deleteCount_acked (items : List AckItem) (worker : String) (now : ℤ) (db : Db) :
    Acked items worker now
      (deleteLive (fun r ↦ items.any fun item ↦ item.guard worker now r) db).1.length db
      (deleteLive (fun r ↦ items.any fun item ↦ item.guard worker now r) db).2 := by
  refine ⟨fun r hr ↦ ?_, List.filter_sublist, ?_, rfl, rfl, rfl⟩
  · simp only [deleteLive, Table.delete, List.mem_filter, hr, true_and, Bool.not_eq_true',
      Bool.not_eq_false, List.any_eq_true]
  · have hlen := List.length_eq_length_filter_add (l := db.live.rows)
      (fun r ↦ items.any fun item ↦ item.guard worker now r)
    simp only [deleteLive, Table.delete]
    omega

end Batch

/-- `ack_batch` does what its elements do one by one, in any order: it returns the sum of their
returns, and deletes each of the rows that they delete once and no other. -/
theorem ack_batch_is_each (items : List AckItem) (worker : String) (now : Clock) (db : Db) :
    ∃ k db', ackBatch (some (items.map AckItem.elem)) worker now db = (.ok k, db') ∧
      ackEach worker now items db = (.ok k, db') ∧ Acked items worker now k db db' ∧
      ∀ items' : List AckItem, items'.Perm items →
        ackBatch (some (items'.map AckItem.elem)) worker now db = (.ok k, db') := by
  refine ⟨_, _, ackBatch_eq items worker now db, ackEach_eq items worker now db,
    deleteCount_acked items worker now db, fun items' hperm ↦ ?_⟩
  rw [ackBatch_perm hperm]
  exact ackBatch_eq items worker now db

end Honker
