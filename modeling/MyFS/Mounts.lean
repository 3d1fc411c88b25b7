import MyFS.Store
import MyFS.Sql.Interference

/-!
# Several mounts

The rows of the MyFS database as transactions of several mounts see and lock them. A change locks
the rows that it changes, with the keys `(parent_id,name)` and `(file_id,index)` if it changes them,
and shares the row that a foreign key refers to. A change of a row that is not there locks nothing.
-/

namespace MyFS

open Sql

/-- A row, or an entry of a unique key. -/
inductive Key
  /-- A row of `files`. -/
  | file (fileId : ℕ)
  | name (parentId : ℕ) (name : List Byte)
  /-- A row of `file_data`. -/
  | block (fileDataId : ℕ)
  | index (fileId index : ℕ)
deriving DecidableEq, Repr

namespace Database

/-- The row of a file. -/
def fileKeys (db : Database) (id : ℕ) : List Key :=
  if (db.files.row id).isSome then [.file id] else []

/-- The row of a file, and its name. -/
def fileNameKeys (db : Database) (id : ℕ) : List Key :=
  match db.files.row id with
  | some r => [.file id, .name r.parentId r.name]
  | none => []

/-- The row of a block. -/
def blockKeys (db : Database) (id : ℕ) : List Key :=
  if (db.fileData.row id).isSome then [.block id] else []

/-- The row of a block, and its index. -/
def blockIndexKeys (db : Database) (id : ℕ) : List Key :=
  match db.fileData.row id with
  | some r => [.block id, .index r.fileId r.index]
  | none => []

/-- Everything that the cascade removes with a file. -/
def cascadeKeys (db : Database) (id : ℕ) : List Key :=
  ((List.range db.files.next).filter fun x => db.cascade id x).flatMap db.fileNameKeys ++
    ((List.range db.fileData.next).filter fun x =>
      ((db.fileData.row x).map fun b => db.cascade id b.fileId).getD false).flatMap
        db.blockIndexKeys

/-- `base`, with the rows under the keys `ks` as they are in `own`. -/
def merge (ks : List Key) (base own : Database) : Database where
  files := Table.overlay (fun id => Key.file id ∈ ks) base.files own.files
  fileData := Table.overlay (fun id => Key.block id ∈ ks) base.fileData own.fileData
  unixTimestamp := base.unixTimestamp

/-- `base`, with the counters of both tables at least where they are in `own`. -/
def advance (base own : Database) : Database where
  files := base.files.advance own.files.next
  fileData := base.fileData.advance own.fileData.next
  unixTimestamp := base.unixTimestamp

end Database

/-- What a change locks. -/
def Change.locks : Change → Database → List Key
  | .insertFile p name _ _ _ _, db => [.file db.files.next, .name p name]
  | .deleteFile id, db => db.cascadeKeys id
  | .addSize id _, db | .setSize id _, db | .setTimes id _ _, db | .setOwner id _ _, db
  | .setMode id _, db => db.fileKeys id
  | .setParent id p, db =>
    match db.files.row id with
    | some r => db.fileNameKeys id ++ [.name p r.name]
    | none => []
  | .setParentName id p name, db =>
    match db.files.row id with
    | some _ => db.fileNameKeys id ++ [.name p name]
    | none => []
  | .spliceBlock id _ _ _, db | .concatBlock id _, db | .setBlock id _, db => db.blockKeys id
  | .insertBlock f index _, db => [.block db.fileData.next, .index f index]
  | .deleteBlock id, db => db.blockIndexKeys id

/-- What a change refers to by a foreign key. -/
def Change.shares : Change → Database → List Key
  | .insertFile p _ _ _ _ _, db | .setParent _ p, db | .setParentName _ p _, db => db.fileKeys p
  | .insertBlock f _ _, db => db.fileKeys f
  | .deleteFile _, _ | .addSize _ _, _ | .setSize _ _, _ | .setTimes _ _ _, _ | .setOwner _ _ _, _
  | .setMode _ _, _ | .spliceBlock _ _ _ _, _ | .concatBlock _ _, _ | .setBlock _ _, _
  | .deleteBlock _, _ => []

/-- The rows of MariaDB with the schema of `create.c`. -/
def versions : Versions Change Database Key where
  locks := Change.locks
  shares := Change.shares
  merge := Database.merge
  advance := Database.advance

/-! ## A change touches what it locks -/

namespace Database

variable {db db' : Database} {id : ℕ} {ks : List Key}

/-- Only the rows under the keys `ks` are different, and generated keys are not given back. -/
structure Touches (ks : List Key) (db db' : Database) : Prop where
  file : ∀ x, Key.file x ∉ ks → db'.files.row x = db.files.row x
  block : ∀ x, Key.block x ∉ ks → db'.fileData.row x = db.fileData.row x
  filesNextLe : db.files.next ≤ db'.files.next
  dataNextLe : db.fileData.next ≤ db'.fileData.next
  unixTimestamp : db'.unixTimestamp = db.unixTimestamp

theorem Touches.refl (ks : List Key) (db : Database) : Touches ks db db :=
  ⟨fun _ _ => rfl, fun _ _ => rfl, le_rfl, le_rfl, rfl⟩

theorem touches_updateFile {ok : FileRow → Bool} {u : FileRow → FileRow}
    (hks : ∀ r, db.files.row id = some r → Key.file id ∈ ks)
    (he : db.updateFile id ok u = some db') : Touches ks db db' := by
  obtain rfl := eq_of_updateFile he
  refine ⟨fun x hx => ?_, fun _ _ => rfl, le_rfl, le_rfl, rfl⟩
  show (db.files.modify id u).row x = db.files.row x
  rw [Table.row_modify]
  split
  · rename_i hid
    cases hr : db.files.row x with
    | none => rfl
    | some r => exact absurd (hid ▸ hks r (hid ▸ hr)) hx
  · rfl

theorem touches_updateBlock {g : List Byte → List Byte}
    (hks : ∀ r, db.fileData.row id = some r → Key.block id ∈ ks)
    (he : db.updateBlock id g = some db') : Touches ks db db' := by
  cases hr : db.fileData.row id with
  | none =>
    rw [updateBlock, hr] at he
    cases he
    exact .refl ks db
  | some r =>
    obtain ⟨-, rfl⟩ := updateBlock_cases hr he
    refine ⟨fun _ _ => rfl, fun x hx => ?_, le_rfl, le_rfl, rfl⟩
    show (db.fileData.modify id _).row x = db.fileData.row x
    rw [Table.row_modify, if_neg]
    rintro rfl
    exact hx (hks r hr)

theorem mem_fileKeys {r : FileRow} (hr : db.files.row id = some r) : Key.file id ∈ db.fileKeys id := by
  rw [fileKeys, hr]
  exact List.mem_singleton_self _

theorem mem_fileNameKeys {r : FileRow} (hr : db.files.row id = some r) :
    Key.file id ∈ db.fileNameKeys id := by
  rw [fileNameKeys, hr]
  exact List.mem_cons_self

theorem mem_blockKeys {b : BlockRow} (hb : db.fileData.row id = some b) :
    Key.block id ∈ db.blockKeys id := by
  rw [blockKeys, hb]
  exact List.mem_singleton_self _

theorem mem_blockIndexKeys {b : BlockRow} (hb : db.fileData.row id = some b) :
    Key.block id ∈ db.blockIndexKeys id := by
  rw [blockIndexKeys, hb]
  exact List.mem_cons_self

theorem mem_cascadeKeys_file {x : ℕ} {r : FileRow} (hr : db.files.row x = some r)
    (hx : db.cascade id x = true) : Key.file x ∈ db.cascadeKeys id := by
  refine List.mem_append_left _ (List.mem_flatMap.mpr ⟨x, ?_, mem_fileNameKeys hr⟩)
  exact List.mem_filter.mpr ⟨List.mem_range.mpr (Table.lt_next hr), hx⟩

theorem mem_cascadeKeys_block {x : ℕ} {b : BlockRow} (hb : db.fileData.row x = some b)
    (hx : db.cascade id b.fileId = true) : Key.block x ∈ db.cascadeKeys id := by
  refine List.mem_append_right _ (List.mem_flatMap.mpr ⟨x, ?_, mem_blockIndexKeys hb⟩)
  refine List.mem_filter.mpr ⟨List.mem_range.mpr (Table.lt_next hb), ?_⟩
  rw [hb]
  exact hx

theorem touches_exec {c : Change} (he : c.exec db = some db') : Touches (c.locks db) db db' := by
  cases c with
  | insertFile p name type user group mode =>
    obtain ⟨r, -, -, -, -, -, -, -, -, rfl⟩ := insertFile_cases he
    refine ⟨fun x hx => ?_, fun _ _ => rfl, Nat.le_succ _, le_rfl, rfl⟩
    show (db.files.insert r).row x = db.files.row x
    rw [Table.row_insert, if_neg]
    rintro rfl
    exact hx List.mem_cons_self
  | deleteFile id =>
    simp only [Change.exec] at he
    split at he
    · cases he
      exact .refl _ db
    · split at he
      · cases he
      · cases he
        refine ⟨fun x hx => ?_, fun x hx => ?_, le_rfl, le_rfl, rfl⟩
        · show (db.files.keep _).row x = db.files.row x
          rw [Table.row_keep]
          cases hr : db.files.row x with
          | none => rfl
          | some r =>
            have hnot : db.cascade id x ≠ true := fun h => hx (mem_cascadeKeys_file hr h)
            rw [Option.filter_some, if_pos (by simpa using hnot)]
        · show (db.fileData.keep _).row x = db.fileData.row x
          rw [Table.row_keep]
          cases hb : db.fileData.row x with
          | none => rfl
          | some b =>
            have hnot : db.cascade id b.fileId ≠ true := fun h => hx (mem_cascadeKeys_block hb h)
            rw [Option.filter_some, if_pos (by simpa using hnot)]
  | addSize id len | setSize id size | setTimes id accessed modified | setOwner id user group
  | setMode id mode =>
    rw [Change.exec] at he
    exact touches_updateFile (fun r hr => mem_fileKeys hr) he
  | setParent id p | setParentName id p name =>
    rw [Change.exec] at he
    refine touches_updateFile (fun r hr => ?_) he
    rw [Change.locks, hr]
    exact List.mem_append_left _ (mem_fileNameKeys hr)
  | spliceBlock id pos len new | concatBlock id new | setBlock id data =>
    rw [Change.exec] at he
    exact touches_updateBlock (fun b hb => mem_blockKeys hb) he
  | insertBlock f index data =>
    obtain ⟨-, -, rfl⟩ := insertBlock_cases he
    refine ⟨fun _ _ => rfl, fun x hx => ?_, le_rfl, Nat.le_succ _, rfl⟩
    show (db.fileData.insert _).row x = db.fileData.row x
    rw [Table.row_insert, if_neg]
    rintro rfl
    exact hx List.mem_cons_self
  | deleteBlock id =>
    cases he
    refine ⟨fun _ _ => rfl, fun x hx => ?_, le_rfl, le_rfl, rfl⟩
    show (db.fileData.keep _).row x = db.fileData.row x
    rw [Table.row_keep]
    cases hb : db.fileData.row x with
    | none => rfl
    | some b =>
      have hne : x ≠ id := by
        rintro rfl
        exact hx (mem_blockIndexKeys hb)
      rw [Option.filter_some, if_pos (decide_eq_true hne)]

theorem row_files_merge (ks : List Key) (base own : Database) (x : ℕ) :
    (merge ks base own).files.row x =
      if Key.file x ∈ ks then own.files.row x else base.files.row x := by
  simp [merge, Table.row_overlay]

theorem row_fileData_merge (ks : List Key) (base own : Database) (x : ℕ) :
    (merge ks base own).fileData.row x =
      if Key.block x ∈ ks then own.fileData.row x else base.fileData.row x := by
  simp [merge, Table.row_overlay]

theorem merge_nil (base own : Database) : merge [] base own = base := by
  have hfiles : (merge [] base own).files = base.files :=
    Table.overlay_of_none (fun _ => decide_eq_false List.not_mem_nil) _ _
  have hdata : (merge [] base own).fileData = base.fileData :=
    Table.overlay_of_none (fun _ => decide_eq_false List.not_mem_nil) _ _
  cases base
  exact congrArg₂ (fun files fileData => Database.mk files fileData _) hfiles hdata

/-- What a change makes of the rows that a transaction sees is what it sees from then on. -/
theorem merge_exec {c : Change} {store own : Database} (he : c.exec (merge ks store own) = some db') :
    merge (ks ++ c.locks (merge ks store own)) (advance store db') db' = db' := by
  have htouch := touches_exec he
  have hfilesNext : store.files.next ≤ db'.files.next :=
    (Table.next_le_overlay ..).trans htouch.filesNextLe
  have hdataNext : store.fileData.next ≤ db'.fileData.next :=
    (Table.next_le_overlay ..).trans htouch.dataNextLe
  have hfiles : (merge (ks ++ c.locks (merge ks store own)) (advance store db') db').files
      = db'.files := by
    refine Table.ext (funext fun x => ?_) (Table.next_overlay_of_eq (max_eq_right hfilesNext))
    rw [row_files_merge]
    split
    · rfl
    · -- the row is neither locked nor changed
      rename_i hx
      rw [List.mem_append, not_or] at hx
      rw [htouch.file x hx.2, row_files_merge, if_neg hx.1]
      rfl
  have hdata : (merge (ks ++ c.locks (merge ks store own)) (advance store db') db').fileData
      = db'.fileData := by
    refine Table.ext (funext fun x => ?_) (Table.next_overlay_of_eq (max_eq_right hdataNext))
    rw [row_fileData_merge]
    split
    · rfl
    · rename_i hx
      rw [List.mem_append, not_or] at hx
      rw [htouch.block x hx.2, row_fileData_merge, if_neg hx.1]
      rfl
  have htime : store.unixTimestamp = db'.unixTimestamp := htouch.unixTimestamp.symm
  cases db'
  cases htime
  exact congrArg₂ (fun files fileData => Database.mk files fileData _) hfiles hdata

/-! ## Generated keys -/

theorem blocks_advance (base own : Database) : (advance base own).blocks = base.blocks := by
  funext f
  rw [blocks, blocks]
  show orderBy _ (((base.fileData.advance _).entries.filter _).map _) = _
  rw [Table.entries_advance]

theorem Valid.advance {base own : Database} (h : base.Valid) (h' : own.Valid) :
    (advance base own).Valid :=
  ⟨lt_max_of_lt_left h.filesNextPos, max_le h.filesNextLe h'.filesNextLe,
    lt_max_of_lt_left h.dataNextPos, max_le h.dataNextLe h'.dataNextLe, h.keyPos, h.indexLt,
    h.lengthLe, h.fileExists, h.unique⟩

end Database

theorem lawful_versions : versions.Lawful engine where
  merge_nil := Database.merge_nil
  merge_exec he := Database.merge_exec he

/-- The mounts `ι` of one database, each with a call that it makes. -/
abbrev Mounts (ι α : Type) := Cluster Query Query.Answer Change Database Key ι α

namespace Mounts

variable {ι α : Type} [Fintype ι] [DecidableEq ι]

/-- The states that interleavings of the calls lead to whose steps all meet `Ok`. -/
abbrev Reaches (Ok : Mounts ι α → ι → Bool → Prop) (db : Database) (prog : ι → Prog α)
    (st : Mounts ι α) : Prop :=
  Cluster.Reaches engine versions Ok (Cluster.start db prog) st

/-- Let the mounts take the turns that the schedule says, no statement failing. -/
def follow (turns : List ι) (st : Mounts ι α) : Mounts ι α :=
  Cluster.follow engine versions (turns.map fun i => (i, false)) st

end Mounts

end MyFS
