import MyFS.Sql.Session
import MyFS.Sql.Table
import Mathlib.Algebra.Group.Int.Defs
import Mathlib.Algebra.Group.Nat.Defs

/-!
# The MyFS database

The tables `files` and `file_data` as `create.c` declares them, and every statement that
`myfs_db.c` sends, with the meaning MariaDB gives it under a strict `sql_mode`: a value
that does not fit its column, a duplicate key and a missing parent row are errors, and an
`UPDATE` or `DELETE` that matches no row is not. The root row is protected by
`file_protection`, so a `DELETE` that would reach it is rejected.
-/

namespace MyFS

open Sql

abbrev Byte := UInt8

/-! ## Limits -/

/-- `MYFS_FILE_BLOCK_SIZE`. -/
def myfsFileBlockSize : ℕ := 4096

/-- `MYFS_FILE_NAME_MAX_LEN`. -/
def myfsFileNameMaxLen : ℕ := 64

/-- `MYFS_PATH_NAME_MAX_LEN`. -/
def myfsPathNameMaxLen : ℕ := 1024

/-- `MYFS_FILES_OPEN_MAX`. -/
def myfsFilesOpenMax : ℕ := 128

/-- `MYFS_USER_NAME_MAX_LEN` and `MYFS_GROUP_NAME_MAX_LEN`. -/
def myfsUserNameMaxLen : ℕ := 32

/-- The number of values of an `int(10) unsigned` column, and of an `unsigned int`. -/
def uintRange : ℕ := 2 ^ 32

/-- The number of values of a `bigint(20) unsigned` column. -/
def bigintRange : ℕ := 2 ^ 64

/-! ## Rows -/

/-- `myfs_file_type_t`. -/
inductive FileType
  | invalid
  | file
  | directory
  | softLink
deriving DecidableEq, Repr

/-- A row of `files`, without its key `file_id`. -/
structure FileRow where
  parentId : ℕ
  name : List Byte
  type : FileType
  user : List Byte
  group : List Byte
  mode : ℕ
  size : ℕ
  createdOn : ℤ
  lastAccessedOn : ℤ
  lastModifiedOn : ℤ
  lastStatusChangedOn : ℤ
deriving DecidableEq, Repr

/-- Whether the values fit their columns. -/
def FileRow.fits (r : FileRow) : Bool :=
  r.type ≠ .invalid && r.name.length ≤ myfsFileNameMaxLen && r.user.length ≤ myfsUserNameMaxLen
    && r.group.length ≤ myfsUserNameMaxLen && r.mode < 2 ^ 16

/-- A row of `file_data`, without its key `file_data_id`. -/
structure BlockRow where
  fileId : ℕ
  index : ℕ
  data : List Byte
deriving DecidableEq, Repr

structure Database where
  files : Table FileRow
  fileData : Table BlockRow
  /-- What `UNIX_TIMESTAMP()` returns. -/
  unixTimestamp : ℕ

/-- A block of one file, with its key. -/
structure Block where
  fileDataId : ℕ
  index : ℕ
  data : List Byte
deriving DecidableEq, Repr

/-- What the block queries select: the key, the index and `LENGTH(data)`. -/
structure BlockInfo where
  fileDataId : ℕ
  index : ℕ
  length : ℕ
deriving DecidableEq, Repr

def Block.info (b : Block) : BlockInfo := ⟨b.fileDataId, b.index, b.data.length⟩

namespace Database

/-- The blocks of a file in the order of their indices. -/
def blocks (db : Database) (fileId : ℕ) : List Block :=
  orderBy (fun b : Block => b.index)
    ((db.fileData.entries.filter fun e => e.2.fileId = fileId).map fun e =>
      ⟨e.1, e.2.index, e.2.data⟩)

/-- Whether another row than `except` already has the key `(parent_id, name)`. -/
def nameTaken (db : Database) (except : ℕ → Bool) (parentId : ℕ) (name : List Byte) : Bool :=
  db.files.entries.any fun e => !except e.1 && e.2.parentId == parentId && e.2.name == name

/-- Whether the key `(file_id, index)` is taken. -/
def indexTaken (db : Database) (fileId index : ℕ) : Bool :=
  db.fileData.entries.any fun e => e.2.fileId == fileId && e.2.index == index

/-- Whether the foreign key on `parent_id` leads from `x` to `id` in at most `fuel` steps. -/
def under (db : Database) (id : ℕ) : (fuel : ℕ) → (x : ℕ) → Bool
  | 0, x => x == id
  | fuel + 1, x => x == id ||
    match db.files.row x with
    | some r => db.under id fuel r.parentId
    | none => false

/-- The rows that `ON DELETE CASCADE` removes with the file `id`. -/
def cascade (db : Database) (id x : ℕ) : Bool := db.under id db.files.next x

end Database

/-! ## SQL functions -/

/-- `INSERT(str,pos,len,new)`: a position outside the string leaves it alone, a length that
reaches past its end replaces the rest. -/
def sqlInsert (str : List Byte) (pos len : ℕ) (new : List Byte) : List Byte :=
  if pos < 1 ∨ str.length < pos then str
  else str.take (pos - 1) ++ new ++ str.drop (pos - 1 + len)

/-- `REPEAT(' ',n)`. -/
def spaces (n : ℕ) : List Byte := List.replicate n 32

/-! ## Statements -/

inductive Query
  /-- `SELECT file_data_id,index,LENGTH(data) .. AND index>=? ORDER BY index ASC LIMIT ?` -/
  | blockInfos (fileId index limit : ℕ)
  /-- `SELECT file_data_id,index,LENGTH(data) .. ORDER BY index DESC LIMIT 1` -/
  | lastBlock (fileId : ℕ)
  /-- `SELECT data,LENGTH(data) .. AND index>=? ORDER BY index ASC LIMIT ?` -/
  | blockData (fileId index limit : ℕ)
  /-- `SELECT size FROM files WHERE file_id=?` -/
  | fileSize (fileId : ℕ)
  /-- The row of a file. -/
  | file (fileId : ℕ)
  /-- `SELECT file_id FROM files WHERE parent_id=? AND name=?` -/
  | fileByName (parentId : ℕ) (name : List Byte)
  /-- `SELECT file_id FROM files WHERE parent_id=? AND file_id!=0 ORDER BY name ASC` -/
  | children (parentId : ℕ)

/-- The rows a query selects. -/
abbrev Query.Answer : Query → Type
  | .blockInfos _ _ _ => List BlockInfo
  | .lastBlock _ => Option BlockInfo
  | .blockData _ _ _ => List (List Byte)
  | .fileSize _ => Option ℕ
  | .file _ => Option FileRow
  | .fileByName _ _ => List ℕ
  | .children _ => List ℕ

def Query.ask : (q : Query) → Database → q.Answer
  | .blockInfos f index limit, db =>
    (((db.blocks f).filter fun b => index ≤ b.index).take limit).map Block.info
  | .lastBlock f, db => (db.blocks f).getLast?.map Block.info
  | .blockData f index limit, db =>
    (((db.blocks f).filter fun b => index ≤ b.index).take limit).map fun b => b.data
  | .fileSize f, db => (db.files.row f).map fun r => r.size
  | .file f, db => db.files.row f
  | .fileByName p name, db =>
    (db.files.entries.filter fun e => e.2.parentId = p ∧ e.2.name = name).map fun e => e.1
  | .children p, db =>
    (orderBy (fun e : ℕ × FileRow => e.2.name.map UInt8.toNat)
      (db.files.entries.filter fun e => e.2.parentId = p ∧ e.1 ≠ 0)).map fun e => e.1

inductive Change
  /-- `INSERT INTO files`, with the timestamps the server fills in. -/
  | insertFile (parentId : ℕ) (name : List Byte) (type : FileType) (user group : List Byte)
      (mode : ℕ)
  /-- `DELETE FROM files WHERE file_id=?` -/
  | deleteFile (fileId : ℕ)
  /-- `UPDATE files SET size=size+?` -/
  | addSize (fileId len : ℕ)
  /-- `UPDATE files SET size=?` -/
  | setSize (fileId size : ℕ)
  /-- `UPDATE files SET parent_id=?` -/
  | setParent (fileId parentId : ℕ)
  /-- `UPDATE files SET parent_id=?,name=?` -/
  | setParentName (fileId parentId : ℕ) (name : List Byte)
  /-- `UPDATE files SET last_accessed_on=?,last_modified_on=?` -/
  | setTimes (fileId : ℕ) (lastAccessedOn lastModifiedOn : ℤ)
  /-- `UPDATE files SET user=?,group=?`, or only one of the two -/
  | setOwner (fileId : ℕ) (user group : Option (List Byte))
  /-- `UPDATE files SET mode=?` -/
  | setMode (fileId mode : ℕ)
  /-- `UPDATE file_data SET data=INSERT(data,?,?,?)` -/
  | spliceBlock (fileDataId pos len : ℕ) (new : List Byte)
  /-- `UPDATE file_data SET data=CONCAT(data,?)` -/
  | concatBlock (fileDataId : ℕ) (new : List Byte)
  /-- `UPDATE file_data SET data=?` -/
  | setBlock (fileDataId : ℕ) (data : List Byte)
  /-- `INSERT INTO file_data` -/
  | insertBlock (fileId index : ℕ) (data : List Byte)
  /-- `DELETE FROM file_data WHERE file_data_id=?` -/
  | deleteBlock (fileDataId : ℕ)
deriving DecidableEq, Repr

namespace Database

/-- Change the row of a file, if it exists; `none` when `ok` rejects the new row. -/
def updateFile (db : Database) (id : ℕ) (ok : FileRow → Bool) (g : FileRow → FileRow) :
    Option Database :=
  match db.files.row id with
  | none => some db
  | some r => if ok (g r) then some { db with files := db.files.modify id g } else none

/-- Change the data of a block, if it exists; `none` when the result is too long. -/
def updateBlock (db : Database) (id : ℕ) (g : List Byte → List Byte) : Option Database :=
  match db.fileData.row id with
  | none => some db
  | some r =>
    if (g r.data).length ≤ myfsFileBlockSize then
      some { db with fileData := db.fileData.modify id fun r => { r with data := g r.data } }
    else none

end Database

/-- Make a change, or reject it. -/
def Change.exec : Change → Database → Option Database
  | .insertFile p name type user group mode, db =>
    let t : ℤ := db.unixTimestamp
    let r : FileRow := ⟨p, name, type, user, group, mode, 0, t, t, t, t⟩
    if r.fits ∧ (db.files.row p).isSome ∧ ¬ db.nameTaken (fun _ => false) p name
        ∧ db.files.next < uintRange then
      some { db with files := db.files.insert r }
    else none
  | .deleteFile id, db =>
    if (db.files.row id).isNone then some db
    else if db.cascade id 0 then none
    else some { db with
      files := db.files.keep fun x _ => !db.cascade id x
      fileData := db.fileData.keep fun _ b => !db.cascade id b.fileId }
  | .addSize id len, db =>
    db.updateFile id (fun r => r.size < bigintRange) fun r => { r with size := r.size + len }
  | .setSize id size, db =>
    db.updateFile id (fun r => r.size < bigintRange) fun r => { r with size := size }
  | .setParent id p, db =>
    db.updateFile id
      (fun r => (db.files.row p).isSome && !db.nameTaken (· == id) p r.name)
      fun r => { r with parentId := p }
  | .setParentName id p name, db =>
    db.updateFile id
      (fun r => r.fits && (db.files.row p).isSome && !db.nameTaken (· == id) p name)
      fun r => { r with parentId := p, name := name }
  | .setTimes id accessed modified, db =>
    db.updateFile id (fun _ => true)
      fun r => { r with lastAccessedOn := accessed, lastModifiedOn := modified }
  | .setOwner id user group, db =>
    db.updateFile id FileRow.fits
      fun r => { r with user := user.getD r.user, group := group.getD r.group }
  | .setMode id mode, db => db.updateFile id FileRow.fits fun r => { r with mode := mode }
  | .spliceBlock id pos len new, db => db.updateBlock id fun d => sqlInsert d pos len new
  | .concatBlock id new, db => db.updateBlock id fun d => d ++ new
  | .setBlock id data, db => db.updateBlock id fun _ => data
  | .insertBlock f index data, db =>
    if index < uintRange ∧ data.length ≤ myfsFileBlockSize ∧ (db.files.row f).isSome
        ∧ ¬ db.indexTaken f index ∧ db.fileData.next < uintRange then
      some { db with fileData := db.fileData.insert ⟨f, index, data⟩ }
    else none
  | .deleteBlock id, db => some { db with fileData := db.fileData.keep fun x _ => x ≠ id }

/-- The key that a change generates: `mysql_insert_id`. -/
def Change.newId : Change → Database → ℕ
  | .insertFile _ _ _ _ _ _, db => db.files.next
  | .insertBlock _ _ _, db => db.fileData.next
  | _, _ => 0

/-- MariaDB with the schema of `create.c`. -/
def engine : Engine Query Query.Answer Change Database where
  ask := Query.ask
  exec := Change.exec
  newId := Change.newId

/-- A client program of `myfs_db.c`. -/
abbrev Prog := Program Query Query.Answer Change

/-- The connection of one mount. -/
abbrev Conn := Session Database Change

/-! ## The database after setup -/

/-- The root row that `create_get_sql_database_insert2` inserts, owned by nobody. -/
def rootRow : FileRow := ⟨0, [], .directory, [], [], 16893, 0, 0, 0, 0, 0⟩

/-- The store that setup leaves: the root directory and no data. -/
def emptyStore : Database where
  files :=
    { row := fun id => if id = 0 then some rootRow else none
      next := 1
      bound := fun id h => if_neg (by omega) }
  fileData :=
    { row := fun _ => none
      next := 1
      bound := fun _ _ => rfl }
  unixTimestamp := 0

end MyFS
