import MyFS.Schema
import MyFS.Setup
import MyFS.Sql.Catalog
import MyFS.Sql.Script

/-!
# Setting up a file system

What `create_run` does once `create_run_prompt` has accepted the parameters: it writes the config
file, creates the database with its three tables, inserts the root row and its protection, creates
the account if one is to be created, grants it the database, and undoes some of this if a step
fails. The file system and the server are one `World`; every effect on it may fail.

Strings go into the statements as they are, so the parameters are taken to need no quoting.
-/

namespace MyFS

open Sql Text

/-! ## Parameters -/

/-- `create_params_t`, as far as it is used after the prompts. -/
structure CreateRunParams extends CreateParams where
  configPath : Field 1024
  mariadbUserHost : Field 512
  mariadbPassword1 : Field 128
  createDatabaseUser : Bool

/-- `config_created` and `database_created`. -/
structure Created where
  config : Bool
  database : Bool

/-- `'user'@'host'` -/
structure Account where
  user : List Byte
  host : List Byte
deriving DecidableEq

inductive TableName
  | files
  | fileData
  | fileProtection
deriving DecidableEq

/-- The columns that the statements of `create.c` and `myfs_db.c` name. -/
inductive ColumnName
  | fileId
  | parentId
  | name
  | type
  | user
  | group
  | mode
  | size
  | content
  | createdOn
  | lastAccessedOn
  | lastModifiedOn
  | lastStatusChangedOn
  | fileDataId
  | index
  | data
deriving DecidableEq

abbrev MariaDb := Server (List Byte) TableName ColumnName Account

abbrev SetupStatement := Statement (List Byte) TableName ColumnName Account

/-! ## Statements -/

/-- ``CREATE DATABASE `name` `` -/
def createGetSqlDatabase (name : List Byte) : SetupStatement :=
  .createDatabase ⟨.backquotes, name⟩

/-- `int(10) unsigned` -/
def uintType : ColumnType := .integer 0 (2 ^ 32 - 1)

/-- `bigint(20)` -/
def bigintType : ColumnType := .integer (-2 ^ 63) (2 ^ 63 - 1)

def createGetSqlDatabaseTable1 : TableSchema TableName ColumnName where
  name := .files
  columns :=
    [⟨.fileId, uintType, true⟩,
      ⟨.parentId, uintType, false⟩,
      ⟨.name, .string myfsFileNameMaxLen, false⟩,
      ⟨.type, .enum [ascii "File", ascii "Directory", ascii "Soft Link"], false⟩,
      ⟨.user, .string myfsUserNameMaxLen, false⟩,
      ⟨.group, .string myfsUserNameMaxLen, false⟩,
      ⟨.mode, .integer 0 (2 ^ 16 - 1), false⟩,
      ⟨.size, .integer 0 (2 ^ 64 - 1), false⟩,
      ⟨.createdOn, bigintType, false⟩,
      ⟨.lastAccessedOn, bigintType, false⟩,
      ⟨.lastModifiedOn, bigintType, false⟩,
      ⟨.lastStatusChangedOn, bigintType, false⟩]
  primaryKey := .fileId
  uniqueKeys := [[.parentId, .name]]
  foreignKeys := [⟨.parentId, .files, .fileId⟩]

def createGetSqlDatabaseTable2 : TableSchema TableName ColumnName where
  name := .fileData
  columns :=
    [⟨.fileDataId, uintType, true⟩,
      ⟨.fileId, uintType, false⟩,
      ⟨.index, uintType, false⟩,
      ⟨.data, .string myfsFileBlockSize, false⟩]
  primaryKey := .fileDataId
  uniqueKeys := [[.fileId, .index]]
  foreignKeys := [⟨.fileId, .files, .fileId⟩]

def createGetSqlDatabaseTable3 : TableSchema TableName ColumnName where
  name := .fileProtection
  columns := [⟨.fileId, uintType, false⟩]
  primaryKey := .fileId
  uniqueKeys := []
  foreignKeys := [⟨.fileId, .files, .fileId⟩]

def createGetSqlDatabaseInsert1 : SetupStatement := .noAutoValueOnZero

/-- The root row. -/
def createGetSqlDatabaseInsert2 (user group : List Byte) : SetupStatement :=
  .insert .files
    [.fileId, .parentId, .name, .type, .user, .group, .mode, .content, .createdOn,
      .lastAccessedOn, .lastModifiedOn, .lastStatusChangedOn]
    [.int 0, .int 0, .text [], .text (ascii "Directory"), .text user, .text group, .int 16893,
      .text [], .unixTimestamp, .unixTimestamp, .unixTimestamp, .unixTimestamp]

/-- Its protection. -/
def createGetSqlDatabaseInsert3 : SetupStatement := .insert .fileProtection [.fileId] [.int 0]

def createGetSqlDatabaseUserCreate (user host password : List Byte) : SetupStatement :=
  .createUser ⟨user, host⟩ password

def createGetSqlDatabaseUserGrant1 (user host database : List Byte) : SetupStatement :=
  .grantUsage ⟨.backquotes, database⟩ ⟨user, host⟩

def createGetSqlDatabaseUserGrant2 (user host database : List Byte) : SetupStatement :=
  .grantAll ⟨.backquotes, database⟩ ⟨user, host⟩

/-! ## The world -/

/-- The files by their paths, and the server. -/
structure World where
  files : List Byte → Option (List Byte)
  server : MariaDb

inductive Effect
  /-- `fopen` for writing, `fprintf` and `fclose`. -/
  | writeFile (path contents : List Byte)
  | unlink (path : List Byte)
  /-- `db_queryf` -/
  | statement (st : SetupStatement)

/-- What an effect does that does not fail, on a server that takes the statements for valid that
`valid` says. -/
def Effect.exec (valid : SetupStatement → MariaDb → Bool) : Effect → World → Option World
  | .writeFile path contents, w =>
    some { w with files := Function.update w.files path (some contents) }
  | .unlink path, w =>
    if (w.files path).isSome then some { w with files := Function.update w.files path none }
    else none
  | .statement st, w => (st.execIf valid w.server).map fun server => { w with server := server }

abbrev NoAnswer : Empty → Type := fun q => q.elim

def setupEngine (valid : SetupStatement → MariaDb → Bool) :
    Engine Empty NoAnswer Effect World where
  ask := fun q => q.elim
  exec := Effect.exec valid
  newId := fun _ _ => 0

abbrev SetupProg := Program Empty NoAnswer Effect

/-! ## `create_run` -/

/-- `create_run_create_config`, which fails only if the file cannot be opened. -/
def createRunCreateConfigFile (configs : List Config) (params : CreateRunParams) (created : Created) :
    SetupProg (Bool × Created) :=
  .call (.change (.writeFile params.configPath.val
      (createRunCreateConfig configs params.toCreateParams))) fun opened =>
    if opened then .ret (true, { created with config := true }) else .ret (false, created)

/-- What `create_run_create_database` sends once the database is there. Each of these statements
ends the function if it fails. The account is created for `mariadb_user_host`, the grants are for
`mariadb_host`. -/
def databaseStatements (params : CreateRunParams) : List SetupStatement :=
  [.useDatabase ⟨.backquotes, params.mariadbDatabase.val⟩,
    .createTable createGetSqlDatabaseTable1,
    .createTable createGetSqlDatabaseTable2,
    .createTable createGetSqlDatabaseTable3,
    createGetSqlDatabaseInsert1,
    createGetSqlDatabaseInsert2 params.user.val params.group.val,
    createGetSqlDatabaseInsert3] ++
  (if params.createDatabaseUser then
    [createGetSqlDatabaseUserCreate params.mariadbUser.val params.mariadbUserHost.val
      params.mariadbPassword1.val]
  else []) ++
  [createGetSqlDatabaseUserGrant1 params.mariadbUser.val params.mariadbHost.val
      params.mariadbDatabase.val,
    createGetSqlDatabaseUserGrant2 params.mariadbUser.val params.mariadbHost.val
      params.mariadbDatabase.val]

def createRunCreateDatabase (params : CreateRunParams) (created : Created) :
    SetupProg (Bool × Created) :=
  .call (.change (.statement (createGetSqlDatabase params.mariadbDatabase.val))) fun success =>
    if success then
      script ((databaseStatements params).map .statement) >>= fun success =>
        if success then
          -- that the privileges could not be flushed is only reported
          .call (.change (.statement .flushPrivileges)) fun _ =>
            .ret (true, { created with database := true })
        else .ret (false, { created with database := true })
    else .ret (false, created)

/-- The name of the database is in single quotes here. -/
def createCleanup (params : CreateRunParams) (created : Created) (success : Bool) :
    SetupProg Unit :=
  if success then .ret ()
  else do
    if created.config then
      let _ ← Program.send (.change (.unlink params.configPath.val))
    if created.database then
      let _ ← Program.send (.change (.statement (.dropDatabase
        ⟨.quotes, params.mariadbDatabase.val⟩)))

/-- `create_run`, once `create_run_prompt` has returned true. -/
def createRun (configs : List Config) (params : CreateRunParams) : SetupProg Bool :=
  createRunCreateConfigFile configs params ⟨false, false⟩ >>= fun (opened, created) =>
    (if opened then createRunCreateDatabase params created else .ret (false, created)) >>=
      fun (success, created) =>
        createCleanup params created success >>= fun _ => .ret success

end MyFS
