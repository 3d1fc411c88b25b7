import MyFS.Storage
import MyFS.Store

/-!
# The changes the storage operations make

What a program can send at all, whatever the replies it gets: `Program.Only`. The blocks of a
file are filled and removed without a statement on `files`.
-/

namespace MyFS

open Sql Database

variable {db : Database} {f : ℕ}

/-! ## Changes of blocks -/

/-- The statements on `file_data`. -/
def Change.OnBlocks : Change → Prop
  | .spliceBlock .. | .concatBlock .. | .setBlock .. | .insertBlock .. | .deleteBlock .. => True
  | _ => False

theorem files_updateBlock {db' : Database} {id : ℕ} {g : List Byte → List Byte}
    (h : db.updateBlock id g = some db') : db'.files = db.files := by
  rw [updateBlock] at h
  split at h
  · cases h
    rfl
  · split at h
    · cases h
      rfl
    · cases h

theorem files_of_onBlocks {c : Change} {db' : Database} (hc : c.OnBlocks)
    (h : c.exec db = some db') : db'.files = db.files := by
  cases c with
  | spliceBlock id pos len new =>
    rw [Change.exec] at h
    exact files_updateBlock h
  | concatBlock id new =>
    rw [Change.exec] at h
    exact files_updateBlock h
  | setBlock id data =>
    rw [Change.exec] at h
    exact files_updateBlock h
  | insertBlock f i d =>
    obtain ⟨-, -, rfl⟩ := insertBlock_cases h
    rfl
  | deleteBlock id =>
    cases h
    rfl
  | _ => cases hc

theorem only_dbQuery {P : Change → Prop} {c : Change} (h : P c) : (dbQuery c).Only P :=
  ⟨fun _ hc => (by cases hc; exact h), fun _ => trivial⟩

theorem only_dbSelect (P : Change → Prop) (q : Query) : (dbSelect q).Only P :=
  ⟨fun _ hc => (by cases hc), fun _ => trivial⟩

theorem only_insertBlocks {P : Change → Prop} (hP : ∀ i d, P (.insertBlock f i d))
    (fuel index : ℕ) (left : List Byte) : (insertBlocks f fuel index left).Only P := by
  induction fuel generalizing index left with
  | zero => trivial
  | succ fuel ih =>
    rw [insertBlocks]
    split
    · exact (only_dbQuery (hP _ _)).andThen fun _ => ih _ _
    · trivial

theorem only_insertSpaces {P : Change → Prop} (hP : ∀ i d, P (.insertBlock f i d))
    (fuel index left : ℕ) : (insertSpaces f fuel index left).Only P := by
  induction fuel generalizing index left with
  | zero => trivial
  | succ fuel ih =>
    rw [insertSpaces]
    split
    · exact (only_dbQuery (hP _ _)).andThen fun _ => ih _ _
    · trivial

theorem only_appendBlocks {P : Change → Prop} {last : Option BlockInfo}
    (hconcat : ∀ b ∈ last, ∀ d, P (.concatBlock b.fileDataId d))
    (hinsert : ∀ i d, P (.insertBlock f i d)) (data : List Byte) :
    (appendBlocks f data last).Only P := by
  have hins := only_insertBlocks hinsert
  cases last with
  | none => exact hins _ _ _
  | some b =>
    rw [appendBlocks]
    split
    · split
      · exact (only_dbQuery (hconcat b rfl _)).andThen fun _ => hins _ _ _
      · exact hins _ _ _
    · exact hins _ _ _

theorem only_appendBody {P : Change → Prop} (hconcat : ∀ id d, P (.concatBlock id d))
    (hinsert : ∀ i d, P (.insertBlock f i d)) (hsize : ∀ n, P (.addSize f n)) (data : List Byte) :
    (appendBody f data).Only P :=
  (only_dbSelect _ _).andThen fun _ =>
    (only_dbQuery (hsize _)).andThen fun _ => only_appendBlocks (fun _ _ => hconcat _) hinsert _

theorem only_growBlocks (left : ℕ) (last : Option BlockInfo) :
    (growBlocks f left last).Only Change.OnBlocks := by
  have hins := only_insertSpaces (f := f) (P := Change.OnBlocks) fun _ _ => trivial
  cases last with
  | none => exact hins _ _ _
  | some b =>
    rw [growBlocks]
    split
    · exact (only_dbQuery trivial).andThen fun _ => hins _ _ _
    · exact hins _ _ _

theorem only_shrinkBlocks (fuel left : ℕ) :
    (shrinkBlocks f fuel left).Only Change.OnBlocks := by
  induction fuel generalizing left with
  | zero => trivial
  | succ fuel ih =>
    rw [shrinkBlocks]
    split
    · refine (only_dbSelect _ _).andThen fun last => ?_
      cases last with
      | none => trivial
      | some b =>
        dsimp only
        split
        · trivial
        · split
          · exact (only_dbQuery trivial).andThen fun _ => ih _
          · exact (only_dbQuery trivial).andThen fun _ => ih _
    · trivial

/-- A positional write overwrites as many bytes as it sends. -/
theorem only_writeBlocks {P : Change → Prop} {rows : List BlockInfo}
    (hsplice : ∀ b ∈ rows, ∀ pos new, P (.spliceBlock b.fileDataId pos new.length new))
    (index pageOffset written : ℕ) (left : List Byte) :
    (writeBlocks rows index pageOffset written left).Only P := by
  induction rows generalizing index pageOffset written left with
  | nil => trivial
  | cons b rows ih =>
    rw [writeBlocks]
    split
    · refine Program.Only.andThen (only_dbQuery ?_) fun _ =>
        ih (fun b' hb' => hsplice b' (List.mem_cons_of_mem _ hb')) _ _ _ _
      have hlen : ∀ n ≤ left.length, P (.spliceBlock b.fileDataId (pageOffset + 1) n (left.take n)) := by
        intro n hn
        have h := hsplice b List.mem_cons_self (pageOffset + 1) (left.take n)
        rwa [List.length_take_of_le hn] at h
      split
      · exact hlen _ (min_le_left _ _)
      · exact hlen _ (min_le_left _ _)
    · trivial

theorem only_writeNewBlocks {P : Change → Prop} (hinsert : ∀ i d, P (.insertBlock f i d))
    (hsize : ∀ n, P (.addSize f n)) (index : ℕ) (left : List Byte) :
    (writeNewBlocks f index left).Only P := by
  rw [writeNewBlocks]
  split
  · exact (only_dbQuery (hsize _)).andThen fun _ => only_insertBlocks hinsert _ _ _
  · trivial

theorem only_writeBody {P : Change → Prop}
    (hsplice : ∀ id pos new, P (.spliceBlock id pos new.length new))
    (hinsert : ∀ i d, P (.insertBlock f i d)) (hsize : ∀ n, P (.addSize f n)) (data : List Byte)
    (offset : ℕ) : (writeBody f data offset).Only P :=
  (only_dbSelect _ _).andThen fun _ =>
    (only_writeBlocks (fun _ _ => hsplice _) _ _ _ _).andThen fun _ =>
      only_writeNewBlocks hinsert hsize _ _

end MyFS
