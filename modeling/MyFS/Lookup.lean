import MyFS.Path
import MyFS.Storage

/-!
# Finding files

`myfs_db_file_query` fetches the row of a file and then, one by one, those of its ancestors;
`myfs_file_get` walks down a path with one `myfs_db_file_query_name` for each component.

`Fault` stands for the program's own crash: `myfs_file_get` uses the file of a component
before it looks whether there is one, `myfs_db_file_query_children` the rows of a query
that may have failed, and `myfs_file_free` the children of a directory, of which one may be
missing. A cycle of parents is followed for as long as the stack lasts.
-/

namespace MyFS

open Sql

inductive Fault
  /-- A file is used, or the `fuse_file_info` of a call, and there is none. -/
  | nullPointer
  /-- The result set of a query that has failed. -/
  | missingResult
  /-- An entry of an array of children. -/
  | missingChild
  | stackOverflow
deriving DecidableEq, Repr

/-! ## `myfs_db_file_query` -/

/-- `st_uid`: the owner, or the configured user, or the user of the process. -/
def Env.stUid (env : Env) (user : List Byte) : ℕ :=
  match env.userId user with
  | some uid => uid
  | none =>
    match env.userId env.user with
    | some uid => uid
    | none => env.fuseUid

def Env.stGid (env : Env) (group : List Byte) : ℕ :=
  match env.groupId group with
  | some gid => gid
  | none =>
    match env.groupId env.group with
    | some gid => gid
    | none => env.fuseGid

def FileType.stNlink : FileType → ℕ
  | .file => 1
  | .directory => 2
  | .softLink => 1
  | .invalid => 0

/-- Only files and soft links have a size. -/
def FileRow.stSize (row : FileRow) : ℤ :=
  match row.type with
  | .file => offT row.size
  | .softLink => offT row.size
  | .directory => 0
  | .invalid => 0

/-- The file that a row describes, under its parent. -/
def fileOfRow (env : Env) (fileId : ℕ) (row : FileRow) (parent : Option MyfsFile) : MyfsFile where
  fileId := fileId
  name := strlcpy row.name (myfsFileNameMaxLen + 1)
  type := row.type
  st :=
    { stMode := row.mode
      stNlink := row.type.stNlink
      stSize := row.stSize
      stIno := fileId
      stUid := env.stUid row.user
      stGid := env.stGid row.group
      stAtime := row.lastAccessedOn
      stMtime := row.lastModifiedOn
      stCtime := row.lastStatusChangedOn }
  parent := parent
  children := []

/-- How deep the parents of a file can be followed: there are no more ids than this. -/
def queryDepth : ℕ := uintRange

/-- A file without its children; `none` when its row cannot be had. -/
def queryFile (env : Env) : (fuel fileId : ℕ) → Prog (Except Fault (Option MyfsFile))
  | 0, _ => .ret (.error .stackOverflow)
  | fuel + 1, fileId =>
    .call (.query (.file fileId)) fun res =>
      match res with
      | none => .ret (.ok none)
      | some none => .ret (.ok none)
      | some (some row) =>
        (if fileId > 0 then queryFile env fuel row.parentId else .ret (.ok none)).andThen
          fun parent => .ret (.ok (some (fileOfRow env fileId row parent)))

def queryFiles (env : Env) : List ℕ → Prog (Except Fault (List (Option MyfsFile)))
  | [] => .ret (.ok [])
  | id :: ids =>
    (queryFile env queryDepth id).andThen fun child =>
      (queryFiles env ids).andThen fun children => .ret (.ok (child :: children))

def myfsDbFileQueryChildren (env : Env) (file : MyfsFile) : Prog (Except Fault MyfsFile) :=
  if file.type ≠ .directory then .ret (.ok file)
  else
    .call (.query (.children file.fileId)) fun res =>
      match res with
      | none => .ret (.error .missingResult)
      | some ids =>
        (queryFiles env ids).andThen fun children =>
          .ret (.ok { file with children := children })

def myfsDbFileQuery (env : Env) (fileId : ℕ) (includeChildren : Bool) :
    Prog (Except Fault (Option MyfsFile)) :=
  (queryFile env queryDepth fileId).andThen fun file =>
    match file with
    | none => .ret (.ok none)
    | some file =>
      if includeChildren then
        (myfsDbFileQueryChildren env file).andThen fun file => .ret (.ok (some file))
      else .ret (.ok (some file))

def myfsDbFileQueryName (env : Env) (name : List Byte) (parentId : ℕ) (includeChildren : Bool) :
    Prog (Except Fault (Option MyfsFile)) :=
  .call (.query (.fileByName parentId name)) fun res =>
    match res with
    | none => .ret (.ok none)
    | some [] => .ret (.ok none)
    | some (id :: _) => myfsDbFileQuery env id includeChildren

/-! ## `myfs_file_free` -/

mutual

/-- `myfs_file_free` comes to a missing child. -/
def freesMissing : MyfsFile → Bool
  | ⟨_, _, _, _, parent, children⟩ => parentFreesMissing parent || childrenFreeMissing children

/-- A file may have no parent. -/
def parentFreesMissing : Option MyfsFile → Bool
  | none => false
  | some parent => freesMissing parent

def childrenFreeMissing : List (Option MyfsFile) → Bool
  | [] => false
  | child :: children => childFreesMissing child || childrenFreeMissing children

def childFreesMissing : Option MyfsFile → Bool
  | none => true
  | some child => freesMissing child

end

/-- Free a file, and go on. -/
def myfsFileFree {β : Type} (file : MyfsFile) (next : Prog (Except Fault β)) :
    Prog (Except Fault β) :=
  if freesMissing file then .ret (.error .missingChild) else next

/-! ## `myfs_file_get` -/

/-- The loop over the components of a path, which frees each directory that it has passed. -/
def walk (env : Env) (includeChildren : Bool) :
    List (List Byte) → Option MyfsFile → Prog (Except Fault (Option MyfsFile))
  | [], file => .ret (.ok file)
  | _ :: _, none => .ret (.error .nullPointer)
  | name :: names, some file =>
    myfsFileFree file <|
      (myfsDbFileQueryName env name file.fileId includeChildren).andThen fun file =>
        walk env includeChildren names file

def myfsFileGet (env : Env) (path : List Byte) (includeChildren : Bool) :
    Prog (Except Fault (Option MyfsFile)) :=
  (myfsDbFileQueryName env [] 0 includeChildren).andThen fun root =>
    walk env includeChildren (strtok (path.drop 1)) root

end MyFS
