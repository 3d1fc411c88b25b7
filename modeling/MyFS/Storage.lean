import MyFS.Sql.Transaction
import MyFS.Schema

/-!
# Storage operations

The functions of `myfs_db.c` that create, delete and fill files, as programs over the
statements of `Schema.lean`. `len`, `left` and `written` are `size_t`, block indices are
`unsigned int`; the data that is still to be written is carried as the list `left`, of
which C keeps only the length and a position in the caller's buffer.

A loop that runs until `left` is used up takes its number of rounds as fuel; running out
of it is a failure of its own, `Failure.outOfFuel`, and never happens.
-/

namespace MyFS

open Sql

/-! ## Files in memory -/

/-- The fields of `struct stat` that MyFS fills in. -/
structure Stat where
  stMode : ℕ
  stNlink : ℕ
  stSize : ℤ
  stIno : ℕ
  stUid : ℕ
  stGid : ℕ
  stAtime : ℤ
  stMtime : ℤ
  stCtime : ℤ
deriving DecidableEq, Repr

/-- `myfs_file_t`. The root has no parent; `children` is filled for directories on request,
with `none` for a child that could not be queried. -/
structure MyfsFile where
  fileId : ℕ
  name : List Byte
  type : FileType
  st : Stat
  parent : Option MyfsFile
  children : List (Option MyfsFile)

/-- What MyFS takes from its host: the configured owner, the user and group databases, which
find the id of a name and the name of an id or an error, and the ids of the mounting
process. -/
structure Env where
  user : List Byte
  group : List Byte
  userId : List Byte → Option ℕ
  groupId : List Byte → Option ℕ
  userName : ℕ → Except ℤ (List Byte)
  groupName : ℕ → Except ℤ (List Byte)
  fuseUid : ℕ
  fuseGid : ℕ

/-! ## Block arithmetic -/

def myfsDbFileBlockIndex (offset : ℕ) : ℕ := offset / myfsFileBlockSize

def myfsDbFileBlockOffset (offset : ℕ) : ℕ := offset % myfsFileBlockSize

def myfsDbFileBlockCount (len : ℕ) : ℕ :=
  if len % myfsFileBlockSize ≠ 0 then len / myfsFileBlockSize + 1 else len / myfsFileBlockSize

/-- The value of an `off_t` that is assigned an `unsigned long`. -/
def offT (n : ℕ) : ℤ := if n % 2 ^ 64 < 2 ^ 63 then n % 2 ^ 64 else n % 2 ^ 64 - 2 ^ 64

/-! ## Statements inside a transaction -/

/-- Why the work inside a transaction was given up. -/
inductive Failure
  /-- A statement failed. -/
  | query
  /-- The file has no row. -/
  | notFound
  /-- Bytes are left to truncate, but no block is. -/
  | noMoreBlocks
  | outOfFuel
deriving DecidableEq, Repr

/-- `db_queryf` with `goto done` on failure. -/
def dbQuery (c : Change) : Prog (Except Failure Unit) :=
  .call (.change c) fun success => .ret (if success then .ok () else .error .query)

/-- `db_selectf` with `goto done` on failure. -/
def dbSelect (q : Query) : Prog (Except Failure q.Answer) :=
  .call (.query q) fun res => .ret (match res with | some rows => .ok rows | none => .error .query)

/-! ## `myfs_db_file_create` and `myfs_db_file_delete` -/

/-- The `S_IF` bits of a file type. -/
def FileType.sIf : FileType → ℕ
  | .file => 0o100000
  | .directory => 0o040000
  | .softLink => 0o120000
  | .invalid => 0

/-- Returns the new file id, or 0. -/
def myfsDbFileCreate (env : Env) (name : List Byte) (type : FileType) (parentId mode : ℕ) :
    Prog ℕ :=
  let mode := if mode &&& type.sIf = 0 then mode ||| type.sIf else mode
  .call (.change (.insertFile parentId name type env.user env.group mode)) fun success =>
    if success then .call .insertId fun id => .ret (id % uintRange) else .ret 0

def myfsDbFileDelete (fileId : ℕ) : Prog Bool := Program.send (.change (.deleteFile fileId))

/-! ## `myfs_db_file_write` -/

/-- Insert the blocks of `left` from `index` on. -/
def insertBlocks (fileId : ℕ) : (fuel index : ℕ) → (left : List Byte) → Prog (Except Failure Unit)
  | 0, _, left => .ret (if left.length > 0 then .error .outOfFuel else .ok ())
  | fuel + 1, index, left =>
    if left.length > 0 then
      let writeSize := min left.length myfsFileBlockSize
      (dbQuery (.insertBlock fileId index (left.take writeSize))).andThen fun _ =>
        insertBlocks fileId fuel ((index + 1) % uintRange) (left.drop writeSize)
    else .ret (.ok ())

/-- Overwrite the fetched blocks one after the other. Only the first write starts inside
its block. Returns the index after the last block written, and what is left. -/
def writeBlocks : List BlockInfo → (index pageOffset written : ℕ) → (left : List Byte) →
    Prog (Except Failure (ℕ × List Byte))
  | [], index, _, _, left => .ret (.ok (index, left))
  | b :: rows, index, pageOffset, written, left =>
    if left.length > 0 then
      let writeSize :=
        if written = 0 then min left.length (myfsFileBlockSize - pageOffset)
        else min left.length myfsFileBlockSize
      (dbQuery (.spliceBlock b.fileDataId (pageOffset + 1) writeSize
        (left.take writeSize))).andThen fun _ =>
        writeBlocks rows ((b.index + 1) % uintRange) 0 (written + writeSize)
          (left.drop writeSize)
    else .ret (.ok (index, left))

/-- What is left after the existing blocks goes into new ones, and makes the file larger. -/
def writeNewBlocks (fileId index : ℕ) (left : List Byte) : Prog (Except Failure Unit) :=
  if left.length > 0 then
    (dbQuery (.addSize fileId left.length)).andThen fun _ =>
      insertBlocks fileId left.length index left
  else .ret (.ok ())

def writeBody (fileId : ℕ) (data : List Byte) (offset : ℕ) : Prog (Except Failure Unit) :=
  let index := myfsDbFileBlockIndex offset % uintRange
  let pageOffset := myfsDbFileBlockOffset offset
  let limit := myfsDbFileBlockCount data.length % uintRange
  (dbSelect (.blockInfos fileId index limit)).andThen fun rows =>
    (writeBlocks rows index pageOffset 0 data).andThen fun (index, left) =>
      writeNewBlocks fileId index left

def myfsDbFileWrite (fileId : ℕ) (data : List Byte) (offset : ℕ) : Prog Bool :=
  transaction (writeBody fileId data offset)

/-! ## `myfs_db_file_append` -/

/-- Fill up the last block, if there is one with room in it, then add new ones. -/
def appendBlocks (fileId : ℕ) (data : List Byte) : Option BlockInfo → Prog (Except Failure Unit)
  | none => insertBlocks fileId data.length 0 data
  | some b =>
    if b.fileDataId > 0 then
      if b.length < myfsFileBlockSize then
        let writeSize := min data.length (myfsFileBlockSize - b.length)
        (dbQuery (.concatBlock b.fileDataId (data.take writeSize))).andThen fun _ =>
          insertBlocks fileId data.length ((b.index + 1) % uintRange) (data.drop writeSize)
      else insertBlocks fileId data.length ((b.index + 1) % uintRange) data
    else insertBlocks fileId data.length b.index data

def appendBody (fileId : ℕ) (data : List Byte) : Prog (Except Failure Unit) :=
  (dbSelect (.lastBlock fileId)).andThen fun last =>
    (dbQuery (.addSize fileId data.length)).andThen fun _ =>
      appendBlocks fileId data last

def myfsDbFileAppend (fileId : ℕ) (data : List Byte) : Prog Bool :=
  transaction (appendBody fileId data)

/-! ## `myfs_db_file_truncate` -/

/-- Insert blocks with `left` spaces from `index` on. -/
def insertSpaces (fileId : ℕ) : (fuel index left : ℕ) → Prog (Except Failure Unit)
  | 0, _, left => .ret (if left > 0 then .error .outOfFuel else .ok ())
  | fuel + 1, index, left =>
    if left > 0 then
      let writeSize := min left myfsFileBlockSize
      (dbQuery (.insertBlock fileId index (spaces writeSize))).andThen fun _ =>
        insertSpaces fileId fuel ((index + 1) % uintRange) (left - writeSize)
    else .ret (.ok ())

/-- Fill up the last block with spaces, if there is one with room in it, then add new ones. -/
def growBlocks (fileId left : ℕ) : Option BlockInfo → Prog (Except Failure Unit)
  | none => insertSpaces fileId left 0 left
  | some b =>
    if b.fileDataId > 0 ∧ b.length < myfsFileBlockSize then
      let writeSize := min left (myfsFileBlockSize - b.length)
      (dbQuery (.concatBlock b.fileDataId (spaces writeSize))).andThen fun _ =>
        insertSpaces fileId left ((b.index + 1) % uintRange) (left - writeSize)
    else insertSpaces fileId left ((b.index + 1) % uintRange) left

/-- Take `left` bytes off the end, block by block. A block that is only shortened keeps its
length in spaces. -/
def shrinkBlocks (fileId : ℕ) : (fuel left : ℕ) → Prog (Except Failure Unit)
  | 0, left => .ret (if left > 0 then .error .outOfFuel else .ok ())
  | fuel + 1, left =>
    if left > 0 then
      let writeSize := min left myfsFileBlockSize
      (dbSelect (.lastBlock fileId)).andThen fun last =>
        match last with
        | none => .ret (.error .noMoreBlocks)
        | some b =>
          if b.fileDataId = 0 then .ret (.error .noMoreBlocks)
          else if writeSize ≥ b.length then
            (dbQuery (.deleteBlock b.fileDataId)).andThen fun _ =>
              shrinkBlocks fileId fuel (left - b.length)
          else
            (dbQuery (.setBlock b.fileDataId (spaces (b.length - writeSize)))).andThen fun _ =>
              shrinkBlocks fileId fuel (left - writeSize)
    else .ret (.ok ())

/-- The number of rounds allowed to the shrinking loop. Every round but the last removes a
block, and the keys of blocks are `unsigned int`. -/
def shrinkFuel : ℕ := uintRange

/-- `current_size`, which stays -1 when the file has no row. -/
def currentSize : Option ℕ → ℤ
  | some n => offT n
  | none => -1

/-- Bring a file of size `currentSize` to `size`. -/
def truncateFrom (fileId size : ℕ) (currentSize : ℤ) : Prog (Except Failure Unit) :=
  if currentSize = -1 then .ret (.error .notFound)
  else
    let diff : ℤ := size - currentSize
    (if diff ≠ 0 then dbQuery (.setSize fileId size) else .ret (.ok ())).andThen fun _ =>
      if diff > 0 then
        (dbSelect (.lastBlock fileId)).andThen fun last => growBlocks fileId diff.toNat last
      else if diff < 0 then shrinkBlocks fileId shrinkFuel (-diff).toNat
      else .ret (.ok ())

def truncateBody (fileId size : ℕ) : Prog (Except Failure Unit) :=
  (dbSelect (.fileSize fileId)).andThen fun row =>
    truncateFrom fileId size (currentSize row)

def myfsDbFileTruncate (fileId size : ℕ) : Prog Bool := transaction (truncateBody fileId size)

/-! ## `myfs_db_file_set_times`, `myfs_db_file_chown` and `myfs_db_file_chmod` -/

def myfsDbFileSetTimes (fileId : ℕ) (lastAccessedOn lastModifiedOn : ℤ) : Prog Bool :=
  Program.send (.change (.setTimes fileId lastAccessedOn lastModifiedOn))

/-- An empty name stands for an owner that stays. -/
def myfsDbFileChown (fileId : ℕ) (user group : List Byte) : Prog Bool :=
  if user = [] ∧ group = [] then .ret false
  else
    Program.send (.change (.setOwner fileId (if user = [] then none else some user)
      (if group = [] then none else some group)))

def myfsDbFileChmod (fileId mode : ℕ) : Prog Bool :=
  Program.send (.change (.setMode fileId mode))

/-! ## `myfs_db_file_swap` and `myfs_db_file_rename` -/

/-- The id of a file's parent, 0 for the root. -/
def MyfsFile.parentId (file : MyfsFile) : ℕ :=
  match file.parent with
  | some parent => parent.fileId
  | none => 0

def swapBody (file1 file2 : MyfsFile) : Prog (Except Failure Unit) :=
  (dbQuery (.setParent file1.fileId file2.parentId)).andThen fun _ =>
    dbQuery (.setParent file2.fileId file1.parentId)

def myfsDbFileSwap (file1 file2 : MyfsFile) : Prog Bool := transaction (swapBody file1 file2)

def myfsDbFileRename (fileId parentId : ℕ) (name : List Byte) : Prog Bool :=
  Program.send (.change (.setParentName fileId parentId name))

/-! ## `myfs_db_file_read` -/

/-- One `memcpy` from a fetched row into the caller's buffer. -/
structure Copy where
  row : List Byte
  pageOffset : ℕ
  count : ℕ
  dataLen : ℕ
deriving DecidableEq, Repr

/-- The fetch loop: the number of bytes copied and the copies made. `size` is a `size_t`
from which the running total is subtracted. -/
def readBlocks : List (List Byte) → (size pageOffset count : ℕ) → ℕ × List Copy
  | [], _, _, count => (count, [])
  | data :: rows, size, pageOffset, count =>
    let dataLen := if data.length > size then size else data.length
    let r := readBlocks rows ((size + 2 ^ 64 - (count + dataLen)) % 2 ^ 64) 0 (count + dataLen)
    (r.1, ⟨data, pageOffset, count, dataLen⟩ :: r.2)

/-- `none` stands for the result -1. -/
def myfsDbFileRead (fileId size offset : ℕ) : Prog (Option (ℕ × List Copy)) :=
  let index := myfsDbFileBlockIndex offset % uintRange
  let pageOffset := myfsDbFileBlockOffset offset
  let limit := myfsDbFileBlockCount size % uintRange
  .call (.query (.blockData fileId index limit)) fun res =>
    .ret (res.map fun rows => readBlocks rows size pageOffset 0)

/-! ## The operations that run in a transaction -/

inductive TxnOp
  | write (fileId : ℕ) (data : List Byte) (offset : ℕ)
  | append (fileId : ℕ) (data : List Byte)
  | truncate (fileId size : ℕ)
  | swap (file1 file2 : MyfsFile)

def TxnOp.body : TxnOp → Prog (Except Failure Unit)
  | .write fileId data offset => writeBody fileId data offset
  | .append fileId data => appendBody fileId data
  | .truncate fileId size => truncateBody fileId size
  | .swap file1 file2 => swapBody file1 file2

def TxnOp.prog : TxnOp → Prog Bool
  | .write fileId data offset => myfsDbFileWrite fileId data offset
  | .append fileId data => myfsDbFileAppend fileId data
  | .truncate fileId size => myfsDbFileTruncate fileId size
  | .swap file1 file2 => myfsDbFileSwap file1 file2

theorem TxnOp.prog_eq (op : TxnOp) : op.prog = transaction op.body := by
  cases op <;> rfl

end MyFS
