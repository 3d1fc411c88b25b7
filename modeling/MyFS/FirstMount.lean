import MyFS.Cleanup
import MyFS.Hierarchy
import MyFS.Resolution

/-!
# The first mount

What `create_run_create_database` should leave for the first mount: a root row that
`myfs_file_get` finds, all columns that the statements of `myfs_db.c` name, and the privileges of
the account that mounts. On a server that goes by its schemas and accounts it leaves nothing of the
kind, for the root row has a value for a column that `files` does not have, and none for `size`.
-/

namespace MyFS

open Sql Text

/-! ## The columns that are named at run time -/

def Query.columns : Query → TableName × List ColumnName
  | .blockInfos _ _ _ | .lastBlock _ => (.fileData, [.fileDataId, .index, .data, .fileId])
  | .blockData _ _ _ => (.fileData, [.data, .fileId, .index])
  | .fileSize _ => (.files, [.size, .fileId])
  | .file _ =>
    (.files, [.fileId, .name, .parentId, .type, .user, .group, .mode, .size, .lastAccessedOn,
      .lastModifiedOn, .lastStatusChangedOn])
  | .fileByName _ _ | .children _ => (.files, [.fileId, .parentId, .name])

def Change.columns : Change → TableName × List ColumnName
  | .insertFile _ _ _ _ _ _ =>
    (.files, [.parentId, .name, .type, .user, .group, .mode, .size, .createdOn, .lastAccessedOn,
      .lastModifiedOn, .lastStatusChangedOn])
  | .deleteFile _ => (.files, [.fileId])
  | .addSize _ _ | .setSize _ _ => (.files, [.size, .fileId])
  | .setParent _ _ => (.files, [.parentId, .fileId])
  | .setParentName _ _ _ => (.files, [.parentId, .name, .fileId])
  | .setTimes _ _ _ => (.files, [.lastAccessedOn, .lastModifiedOn, .fileId])
  | .setOwner _ _ _ => (.files, [.user, .group, .fileId])
  | .setMode _ _ => (.files, [.mode, .fileId])
  | .spliceBlock _ _ _ _ | .concatBlock _ _ | .setBlock _ _ => (.fileData, [.data, .fileDataId])
  | .insertBlock _ _ _ => (.fileData, [.fileId, .index, .data])
  | .deleteBlock _ => (.fileData, [.fileDataId])

def hasColumns (s : MariaDb) (named : TableName × List ColumnName) : Bool :=
  (s.table named.1).any fun stored => named.2.all stored.schema.hasColumn

/-! ## The rows as a mount reads them -/

/-- `myfs_file_type` -/
def myfsFileType (type : List Byte) : FileType :=
  if type = ascii "File" then .file
  else if type = ascii "Directory" then .directory
  else if type = ascii "Soft Link" then .softLink
  else .invalid

def intOf (row : Record ColumnName) (column : ColumnName) : Option ℤ :=
  match row column with
  | some (.int n) => some n
  | _ => none

def textOf (row : Record ColumnName) (column : ColumnName) : Option (List Byte) :=
  match row column with
  | some (.text s) => some s
  | _ => none

def fileRow (row : Record ColumnName) : Option FileRow := do
  let parentId ← intOf row .parentId
  let name ← textOf row .name
  let type ← textOf row .type
  let user ← textOf row .user
  let group ← textOf row .group
  let mode ← intOf row .mode
  let size ← intOf row .size
  let createdOn ← intOf row .createdOn
  let lastAccessedOn ← intOf row .lastAccessedOn
  let lastModifiedOn ← intOf row .lastModifiedOn
  let lastStatusChangedOn ← intOf row .lastStatusChangedOn
  return ⟨parentId.toNat, name, myfsFileType type, user, group, mode.toNat, size.toNat, createdOn,
    lastAccessedOn, lastModifiedOn, lastStatusChangedOn⟩

def blockRow (row : Record ColumnName) : Option BlockRow := do
  let fileId ← intOf row .fileId
  let index ← intOf row .index
  let data ← textOf row .data
  return ⟨fileId.toNat, index.toNat, data⟩

/-- The rows of a table by their primary key. -/
def readTable {ρ : Type} (read : Record ColumnName → Option ρ)
    (stored : StoredTable TableName ColumnName) : Table ρ where
  row id :=
    if id < stored.next then
      (stored.rows.find? fun row => row stored.schema.primaryKey = some (.int id)).bind read
    else none
  next := stored.next
  bound id h := if_neg (by omega)

/-- The store that a mount of the database in use works on. -/
def storeOf (s : MariaDb) : Option Database := do
  let files ← s.table .files
  let fileData ← s.table .fileData
  return ⟨readTable fileRow files, readTable blockRow fileData, s.unixTimestamp⟩

/-! ## What setup should leave -/

/-- The server as the connection of a mount sees it. -/
def mountedServer (params : CreateRunParams) (w : World) : MariaDb :=
  { w.server with current := some params.mariadbDatabase.val }

/-- The path `/` leads to the root directory. -/
def RootResolves (db : Database) : Prop :=
  ∀ env includeChildren, ∃ file,
    ((myfsFileGet env (ascii "/") includeChildren).eval engine db).1 = .ok (some file) ∧
      file.type = .directory ∧ file.fileId = 0

structure Mountable (params : CreateRunParams) (success : Bool) (w : World) : Prop where
  success : success = true
  root : ∃ db, storeOf (mountedServer params w) = some db ∧ RootResolves db
  queries : ∀ q : Query, hasColumns (mountedServer params w) q.columns = true
  changes : ∀ c : Change, hasColumns (mountedServer params w) c.columns = true
  privileges : w.server.privileges params.account params.mariadbDatabase.val = true

/-- What `create_run_prompt` has checked. -/
structure Prompted (params : CreateRunParams) (w : World) : Prop where
  config : w.files params.configPath.val = none
  account : (w.server.accounts params.account).isSome = !params.createDatabaseUser
  database : w.server.databases params.mariadbDatabase.val = none

/-- `create_run_create_database` on a server that goes by its schemas and accounts. -/
def runCreateDatabase (params : CreateRunParams) (w : World) :
    Outcome (Bool × Created) Empty Effect World Unit :=
  Sql.run (setupEngine Statement.valid) () (createRunCreateDatabase params ⟨true, false⟩) noFailure
    (Session.idle w)

/-! ## Statements one after the other -/

variable {params : CreateRunParams} {w w' : World} {s : MariaDb}

theorem execAll_statement_cons {valid : SetupStatement → MariaDb → Bool} {st : SetupStatement}
    {es : List Effect} :
    execAll (setupEngine valid) (.statement st :: es) w = some w' ↔
      (st.wellFormed = true ∧ valid st w.server = true) ∧
        execAll (setupEngine valid) es { w with server := st.effect w.server } = some w' := by
  show (((st.execIf valid w.server).map fun server => { w with server := server }).bind _) = _ ↔ _
  rw [Statement.execIf]
  by_cases h : (st.wellFormed && valid st w.server) = true
  · rw [if_pos h, Option.map_some, Option.bind_some, Bool.and_eq_true] at *
    exact (and_iff_right h).symm
  · rw [if_neg h, Option.map_none, Option.bind_none, ← Bool.and_eq_true]
    exact iff_of_false (Option.some_ne_none w').symm fun h' => h h'.1

/-- The three tables, which are empty. -/
def newTables (tables : TableName → Option (StoredTable TableName ColumnName)) :
    TableName → Option (StoredTable TableName ColumnName) :=
  [createGetSqlDatabaseTable1, createGetSqlDatabaseTable2, createGetSqlDatabaseTable3].foldl
    (fun tables schema => Function.update tables schema.name (some ⟨schema, [], 1⟩)) tables

/-- The table has no column `content`. -/
theorem not_valid_insert2 {user group : List Byte} {rows : List (Record ColumnName)} {next : ℕ}
    (h : s.table .files = some ⟨createGetSqlDatabaseTable1, rows, next⟩) :
    (createGetSqlDatabaseInsert2 user group).valid s = false := by
  rw [createGetSqlDatabaseInsert2, Statement.valid, h, Option.any_some]
  rfl

/-- Whatever server it is run on, `create_run_create_database` gets no further than the root row. -/
theorem execAll_databaseStatements :
    execAll (setupEngine Statement.valid) ((databaseStatements params).map .statement) w = none := by
  rw [Option.eq_none_iff_forall_ne_some]
  intro w' h
  simp only [databaseStatements, List.map_append, List.map_cons, List.cons_append,
    execAll_statement_cons] at h
  obtain ⟨⟨-, huse⟩, -, -, -, -, ⟨-, hinsert⟩, -⟩ := h
  obtain ⟨tables, htables⟩ := Option.isSome_iff_exists.mp huse
  rw [Statement.effect_useDatabase htables, Statement.effect_createTable,
    Statement.effect_createTable, Statement.effect_createTable] at hinsert
  -- none of the statements in between is about `files`
  have hinvalid := @not_valid_insert2 _ params.user.val params.group.val _ _
    (Server.table_opened { w.server with autoValueOnZero := false } params.mariadbDatabase.val
      (newTables tables) .files)
  exact absurd (hinvalid.symm.trans hinsert) Bool.false_ne_true

theorem result_runCreateDatabase (params : CreateRunParams) (w : World) :
    (runCreateDatabase params w).result.1 = false := by
  obtain ⟨success, s, hs, -, hres, -⟩ := run_change_closed (setupEngine Statement.valid) ()
    (databaseEffect params) _ noFailure (Session.working_idle w)
  have hrun : (runCreateDatabase params w).result = _ := hres
  rw [hrun]
  cases success with
  | false => rfl
  | true =>
    obtain ⟨success, fails, s', -, hexec, hres', -⟩ := run_script_bind
      (setupEngine Statement.valid) () ((databaseStatements params).map .statement) _ noFailure hs
    refine (congrArg Prod.fst hres').trans ?_
    cases success with
    | false => rfl
    | true =>
      rw [execAll_databaseStatements] at hexec
      exact absurd (hexec rfl) nofun

/-- Setup never leaves a file system that can be mounted. -/
theorem not_mountable (params : CreateRunParams) (w : World) :
    ¬Mountable params (runCreateDatabase params w).result.1
      (runCreateDatabase params w).sess.committed := by
  intro h
  have hsuccess := h.success
  rw [result_runCreateDatabase] at hsuccess
  cases hsuccess

/-- What the prompts propose is not set up either. -/
theorem proposed_not_mountable :
    Prompted proposed newWorld ∧
      ¬Mountable proposed (runCreateDatabase proposed newWorld).result.1
        (runCreateDatabase proposed newWorld).sess.committed := by
  refine ⟨⟨rfl, rfl, rfl⟩, fun h => ?_⟩
  have hfails : (runCreateDatabase proposed newWorld).result.1 = false := by decide
  exact absurd (h.success.symm.trans hfails) nofun

/-! ## The statements that would do -/

theorem rootResolves_of_tree {db : Database} (htree : db.Tree) (hnext : db.files.next ≤ uintRange)
    (hroot : ∃ r, db.files.row 0 = some r ∧ r.type = .directory) : RootResolves db := by
  intro env includeChildren
  obtain ⟨file, heval, hfile⟩ :=
    eval_myfsDbFileQueryName_fetched env htree hnext 0 [] includeChildren
  rw [htree.lookup_root] at hfile
  obtain ⟨file, rfl, hfetched⟩ := hfile
  refine ⟨file, ?_, ?_, hfetched.fileId_eq⟩
  · have hget : (myfsFileGet env (ascii "/") includeChildren).eval engine db =
        (.ok (some file), db) := by
      rw [myfsFileGet, Program.eval_andThen_ok]
      exact ⟨_, _, heval, rfl⟩
    exact congrArg Prod.fst hget
  · obtain ⟨bare, children, hbare, -, rfl⟩ := hfetched
    obtain ⟨r, parent, hr, rfl⟩ := hbare.exists_row
    obtain ⟨r', hr', htype⟩ := hroot
    rw [hr, Option.some.injEq] at hr'
    rw [← htype, ← hr']
    rfl

/-- The root row, with a value for `size` in place of the one for `content`. -/
def repairedInsert2 (user group : List Byte) : SetupStatement :=
  .insert .files
    [.fileId, .parentId, .name, .type, .user, .group, .mode, .size, .createdOn,
      .lastAccessedOn, .lastModifiedOn, .lastStatusChangedOn]
    [.int 0, .int 0, .text [], .text (ascii "Directory"), .text user, .text group, .int 16893,
      .int 0, .unixTimestamp, .unixTimestamp, .unixTimestamp, .unixTimestamp]

/-- The root row as `files` has it, and the grants for the account that mounts. -/
def repair (params : CreateRunParams) : SetupStatement → SetupStatement
  | .insert .files _ _ => repairedInsert2 params.user.val params.group.val
  | .grantUsage database _ => .grantUsage database params.account
  | .grantAll database _ => .grantAll database params.account
  | st => st

def rootRecord (user group : List Byte) (now : ℕ) : Record ColumnName
  | .fileId | .parentId | .size => some (.int 0)
  | .name => some (.text [])
  | .type => some (.text (ascii "Directory"))
  | .user => some (.text user)
  | .group => some (.text group)
  | .mode => some (.int 16893)
  | .createdOn | .lastAccessedOn | .lastModifiedOn | .lastStatusChangedOn => some (.int now)
  | .content | .fileDataId | .index | .data => none

def protectionRecord : Record ColumnName
  | .fileId => some (.int 0)
  | _ => none

/-- The tables with the root row and its protection. -/
def seededTables (user group : List Byte) (now : ℕ) :
    TableName → Option (StoredTable TableName ColumnName)
  | .files => some ⟨createGetSqlDatabaseTable1, [rootRecord user group now], 1⟩
  | .fileData => some ⟨createGetSqlDatabaseTable2, [], 1⟩
  | .fileProtection => some ⟨createGetSqlDatabaseTable3, [protectionRecord], 1⟩

theorem execAll_cons_of_valid {valid : SetupStatement → MariaDb → Bool} {st : SetupStatement}
    {es : List Effect} {s' : MariaDb} (hwf : st.wellFormed = true)
    (hvalid : valid st w.server = true) (heffect : st.effect w.server = s') :
    execAll (setupEngine valid) (.statement st :: es) w =
      execAll (setupEngine valid) es { w with server := s' } := by
  ext w'
  rw [← heffect]
  exact execAll_statement_cons.trans (and_iff_right ⟨hwf, hvalid⟩)

theorem newRecord_root (s : MariaDb) (user group : List Byte) :
    Statement.newRecord { s with autoValueOnZero := false } ⟨createGetSqlDatabaseTable1, [], 1⟩
        [.fileId, .parentId, .name, .type, .user, .group, .mode, .size, .createdOn,
          .lastAccessedOn, .lastModifiedOn, .lastStatusChangedOn]
        [.int 0, .int 0, .text [], .text (ascii "Directory"), .text user, .text group, .int 16893,
          .int 0, .unixTimestamp, .unixTimestamp, .unixTimestamp, .unixTimestamp] =
      rootRecord user group s.unixTimestamp := by
  funext column
  cases column <;> rfl

theorem newRecord_protection (s : MariaDb) :
    Statement.newRecord s ⟨createGetSqlDatabaseTable3, [], 1⟩ [.fileId] [.int 0] =
      protectionRecord := by
  funext column
  cases column <;> rfl

theorem fits_rootRecord {user group : List Byte} {now : ℕ}
    (huser : user.length ≤ myfsUserNameMaxLen) (hgroup : group.length ≤ myfsUserNameMaxLen)
    (hnow : now < 2 ^ 63) :
    (⟨createGetSqlDatabaseTable1, [], 1⟩ : StoredTable TableName ColumnName).fits
      (rootRecord user group now) = true := by
  have hnow' : bigintType.admits (.int now) = true := by
    simp only [bigintType, ColumnType.admits, Bool.and_eq_true, decide_eq_true_eq]
    omega
  simp only [StoredTable.fits, createGetSqlDatabaseTable1, List.all_cons, List.all_nil, rootRecord,
    Option.any_some, hnow']
  simp only [ColumnType.admits, huser, hgroup, decide_true]
  decide

theorem seededTables_eq (user group : List Byte) (now : ℕ) :
    Function.update (Function.update (newTables fun _ => none) .files
        (some ⟨createGetSqlDatabaseTable1, [rootRecord user group now], 1⟩)) .fileProtection
      (some ⟨createGetSqlDatabaseTable3, [protectionRecord], 1⟩) = seededTables user group now := by
  funext t
  cases t <;> rfl

/-- The server accepts the root row and its protection. -/
theorem execAll_seeds (files : List Byte → Option (List Byte)) (d : List Byte) {s : MariaDb}
    {user group : List Byte} (huser : user.length ≤ myfsUserNameMaxLen)
    (hgroup : group.length ≤ myfsUserNameMaxLen) (hclock : s.unixTimestamp < 2 ^ 63)
    (hzero : s.autoValueOnZero = false) :
    execAll (setupEngine Statement.valid)
        ([repairedInsert2 user group, createGetSqlDatabaseInsert3].map .statement)
        ⟨files, s.opened d (newTables fun _ => none)⟩ =
      some ⟨files, s.opened d (seededTables user group s.unixTimestamp)⟩ := by
  have hs : { s with autoValueOnZero := false } = s := by rw [← hzero]
  have hrow := newRecord_root s user group
  rw [hs] at hrow
  have hroot : (repairedInsert2 user group).valid (s.opened d (newTables fun _ => none)) = true := by
    rw [repairedInsert2, Statement.valid_insert rfl hrow, fits_rootRecord huser hgroup hclock]
    rfl
  have hrootEffect : (repairedInsert2 user group).effect (s.opened d (newTables fun _ => none)) =
      s.opened d (Function.update (newTables fun _ => none) .files
        (some ⟨createGetSqlDatabaseTable1, [rootRecord user group s.unixTimestamp], 1⟩)) := by
    rw [repairedInsert2, Statement.effect_insert rfl, hrow]
    rfl
  have hprotection := newRecord_protection s
  simp only [List.map_cons, List.map_nil]
  rw [execAll_cons_of_valid rfl hroot hrootEffect,
    execAll_cons_of_valid rfl (by
      rw [createGetSqlDatabaseInsert3, Statement.valid_insert rfl hprotection]
      rfl) (Statement.effect_insert rfl _ _), hprotection]
  show some _ = some _
  rw [← seededTables_eq]
  rfl

/-- On a server without the database all statements up to the protection of the root are
accepted. -/
theorem execAll_seeded {d user group : List Byte} (hd : w.server.databases d = none)
    (huser : user.length ≤ myfsUserNameMaxLen) (hgroup : group.length ≤ myfsUserNameMaxLen)
    (hclock : w.server.unixTimestamp < 2 ^ 63) :
    execAll (setupEngine Statement.valid) ([createGetSqlDatabase d, .useDatabase ⟨.backquotes, d⟩,
        .createTable createGetSqlDatabaseTable1, .createTable createGetSqlDatabaseTable2,
        .createTable createGetSqlDatabaseTable3, createGetSqlDatabaseInsert1,
        repairedInsert2 user group, createGetSqlDatabaseInsert3].map .statement) w =
      some { w with
        server := Server.opened { w.server with autoValueOnZero := false } d
          (seededTables user group w.server.unixTimestamp) } := by
  have hcreate : (createGetSqlDatabase d).valid w.server = true := by
    show (w.server.databases d).isNone = true
    rw [hd]
    rfl
  have hnew : ((createGetSqlDatabase d).effect w.server).databases d = some fun _ => none :=
    Function.update_self ..
  simp only [List.map_cons, List.map_nil]
  rw [execAll_cons_of_valid rfl hcreate rfl,
    execAll_cons_of_valid rfl (by exact congrArg Option.isSome hnew)
      (Statement.effect_useDatabase hnew),
    execAll_cons_of_valid rfl (by rw [Statement.valid_createTable]; rfl)
      (Statement.effect_createTable ..),
    execAll_cons_of_valid rfl (by rw [Statement.valid_createTable]; rfl)
      (Statement.effect_createTable ..),
    execAll_cons_of_valid rfl (by rw [Statement.valid_createTable]; rfl)
      (Statement.effect_createTable ..),
    execAll_cons_of_valid rfl rfl rfl]
  have hseeds := execAll_seeds w.files d
    (s := { (createGetSqlDatabase d).effect w.server with autoValueOnZero := false })
    huser hgroup hclock rfl
  refine Eq.trans hseeds ?_
  have hopened := Statement.opened_createDatabase { w.server with autoValueOnZero := false }
    ⟨.backquotes, d⟩ (seededTables user group w.server.unixTimestamp)
  rw [← hopened]
  rfl

/-- With the account there, the grants are accepted. -/
theorem exists_execAll_grants (files : List Byte → Option (List Byte)) (d : List Byte) {a : Account}
    (ha : (s.accounts a).isSome = true) :
    ∃ s', execAll (setupEngine Statement.valid)
        [.statement (.grantUsage ⟨.backquotes, d⟩ a), .statement (.grantAll ⟨.backquotes, d⟩ a)]
        ⟨files, s⟩ = some ⟨files, s'⟩ ∧
      s'.databases = s.databases ∧ s'.unixTimestamp = s.unixTimestamp ∧ s'.privileges a d = true := by
  refine ⟨Statement.effect (.grantAll ⟨.backquotes, d⟩ a) s, ?_, rfl, rfl, ?_⟩
  · rw [execAll_cons_of_valid rfl ha rfl, execAll_cons_of_valid rfl ha rfl]
    rfl
  · show ((decide (a = a) && decide (d = d)) || _) = true
    rw [decide_eq_true rfl, decide_eq_true rfl]
    rfl

/-- The account is created if need be, and gets the database. -/
def accountStatements (d password : List Byte) (a : Account) (create : Bool) : List SetupStatement :=
  (if create then [.createUser a password] else []) ++
    [.grantUsage ⟨.backquotes, d⟩ a, .grantAll ⟨.backquotes, d⟩ a]

theorem exists_execAll_accounts (files : List Byte → Option (List Byte)) (d password : List Byte)
    {a : Account} {create : Bool} (ha : (s.accounts a).isSome = !create) :
    ∃ s', execAll (setupEngine Statement.valid)
        ((accountStatements d password a create).map .statement) ⟨files, s⟩ = some ⟨files, s'⟩ ∧
      s'.databases = s.databases ∧ s'.unixTimestamp = s.unixTimestamp ∧ s'.privileges a d = true := by
  cases create with
  | false => exact exists_execAll_grants files d ha
  | true =>
    have hvalid : (Statement.createUser a password : SetupStatement).valid s = true := by
      show (s.accounts a).isNone = true
      rw [← Option.not_isSome, ha]
      rfl
    have ha' : (Statement.effect (.createUser a password) s).accounts a = some password :=
      Function.update_self ..
    obtain ⟨s', hexec, hs'⟩ := exists_execAll_grants files d (a := a)
      (s := Statement.effect (.createUser a password) s) (by rw [ha']; rfl)
    refine ⟨s', ?_, hs'⟩
    rw [← hexec]
    exact execAll_cons_of_valid (w := ⟨files, s⟩) rfl hvalid rfl

/-- The statements of `create_run_create_database`, repaired. -/
def repairedStatements (params : CreateRunParams) : List SetupStatement :=
  createGetSqlDatabase params.mariadbDatabase.val :: (databaseStatements params).map (repair params)

theorem repairedStatements_eq (params : CreateRunParams) :
    repairedStatements params =
      [createGetSqlDatabase params.mariadbDatabase.val,
        .useDatabase ⟨.backquotes, params.mariadbDatabase.val⟩,
        .createTable createGetSqlDatabaseTable1, .createTable createGetSqlDatabaseTable2,
        .createTable createGetSqlDatabaseTable3, createGetSqlDatabaseInsert1,
        repairedInsert2 params.user.val params.group.val, createGetSqlDatabaseInsert3] ++
      accountStatements params.mariadbDatabase.val params.mariadbPassword1.val params.account
        params.createDatabaseUser := by
  rw [repairedStatements, databaseStatements, accountStatements]
  split <;> rfl

theorem exists_execAll_repaired (hp : Prompted params w) (hclock : w.server.unixTimestamp < 2 ^ 63) :
    ∃ s', execAll (setupEngine Statement.valid) ((repairedStatements params).map .statement) w =
        some { w with server := s' } ∧
      s'.databases params.mariadbDatabase.val =
        some (seededTables params.user.val params.group.val w.server.unixTimestamp) ∧
      s'.unixTimestamp = w.server.unixTimestamp ∧
      s'.privileges params.account params.mariadbDatabase.val = true := by
  have huser : params.user.val.length ≤ myfsUserNameMaxLen := Nat.le_of_lt_succ params.user.2.1
  have hgroup : params.group.val.length ≤ myfsUserNameMaxLen := Nat.le_of_lt_succ params.group.2.1
  have hseeded := execAll_seeded hp.database huser hgroup hclock
  rw [repairedStatements_eq, List.map_append, execAll_append, hseeded, Option.bind_some]
  obtain ⟨s', hexec, hdatabases, hclock', hprivileges⟩ := exists_execAll_accounts w.files
    params.mariadbDatabase.val params.mariadbPassword1.val (a := params.account)
    (s := Server.opened { w.server with autoValueOnZero := false } params.mariadbDatabase.val
      (seededTables params.user.val params.group.val w.server.unixTimestamp)) hp.account
  refine ⟨s', hexec, ?_, hclock', hprivileges⟩
  rw [hdatabases, Server.databases_opened]

/-- The root row, as a mount reads it. -/
def seededRoot (user group : List Byte) (now : ℕ) : FileRow :=
  ⟨0, [], .directory, user, group, 16893, 0, now, now, now, now⟩

/-- What a mount reads of these tables is a store with nothing but the root. -/
theorem storeOf_seeded {d user group : List Byte} {now : ℕ} (hcurrent : s.current = some d)
    (hd : s.databases d = some (seededTables user group now)) :
    storeOf s = some (rootStore (seededRoot user group now) s.unixTimestamp) := by
  have htable : s.table = seededTables user group now := by
    funext t
    rw [Server.table, hcurrent, Option.bind_some, hd, Option.bind_some]
  rw [storeOf, htable]
  show some (Database.mk (readTable fileRow _) (readTable blockRow _) _) = some _
  have hfiles : readTable fileRow ⟨createGetSqlDatabaseTable1, [rootRecord user group now], 1⟩ =
      emptyStore.files.modify 0 fun _ => seededRoot user group now := by
    refine Table.ext (funext fun id => ?_) rfl
    rcases id with - | id
    · rfl
    · rw [Table.row_modify, if_neg (Nat.succ_ne_zero id), Table.bound _ _ (Nat.le_add_left 1 id)]
      rfl
  have hdata : readTable blockRow ⟨createGetSqlDatabaseTable2, [], 1⟩ = emptyStore.fileData :=
    Table.ext (funext fun id => ite_self _) rfl
  rw [hfiles, hdata]
  rfl

/-- With the two repairs, setup leaves what the first mount needs: a store with the root directory
and nothing else. -/
theorem mountable_repaired (hp : Prompted params w) (hclock : w.server.unixTimestamp < 2 ^ 63) :
    let o := Sql.run (setupEngine Statement.valid) ()
      (script ((repairedStatements params).map .statement)) noFailure (Session.idle w)
    Mountable params o.result o.sess.committed := by
  obtain ⟨s', hexec, hdatabase, hclock', hprivileges⟩ := exists_execAll_repaired hp hclock
  have htables : ∀ t, (mountedServer params { w with server := s' }).table t =
      seededTables params.user.val params.group.val w.server.unixTimestamp t := by
    intro t
    show (s'.databases params.mariadbDatabase.val).bind _ = _
    rw [hdatabase, Option.bind_some]
  obtain ⟨hres, hcom⟩ := run_script_noFailure (setupEngine Statement.valid) () _
    (Session.working_idle w) hexec
  dsimp only
  rw [hcom]
  refine ⟨hres, ⟨_, storeOf_seeded rfl hdatabase, ?_⟩, fun q => ?_, fun c => ?_, hprivileges⟩
  · have hroot : (seededRoot params.user.val params.group.val w.server.unixTimestamp).type =
        .directory := rfl
    have h := hierarchy_rootStore (t := s'.unixTimestamp) rfl rfl hroot
    exact rootResolves_of_tree h.tree h.valid.filesNextLe ⟨_, rfl, hroot⟩
  · rw [hasColumns, htables]
    cases q <;> rfl
  · rw [hasColumns, htables]
    cases c <;> rfl

end MyFS
