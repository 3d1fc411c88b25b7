import Mathlib.Data.Int.Notation
import Mathlib.Data.Nat.Notation
import Mathlib.Logic.Function.Basic

/-!
# Databases, tables and accounts

The statements that define databases and fill them, on a server that keeps schemas, rows,
accounts and privileges. The names of databases, tables, columns and accounts are parameters.

* `Statement.wellFormed`: a name in quotes is a string, and no identifier.
* `Statement.valid`: all that the statement names exists (or does not, if it is to be created),
  every column without a value of its own gets one, the values fit their columns, and the keys and
  foreign keys hold.
* `Statement.effect`: what the statement does when it is accepted. No statement but
  `DROP DATABASE` removes a database (`isSome_databases_effect`).
-/

namespace Sql

variable {D T K U : Type}

/-! ## Identifiers and values -/

inductive Quoting
  | bare
  | backquotes
  | quotes
deriving DecidableEq

/-- A name as a statement writes it. -/
structure Ident (D : Type) where
  quoting : Quoting
  name : D

def Ident.wellFormed (i : Ident D) : Bool := i.quoting != .quotes

inductive Value
  | int (n : ℤ)
  | text (s : List UInt8)
deriving DecidableEq

/-- What stands in a `VALUES` list. -/
inductive Expr
  | int (n : ℤ)
  | text (s : List UInt8)
  | unixTimestamp

def Expr.eval (now : ℕ) : Expr → Value
  | .int n => .int n
  | .text s => .text s
  | .unixTimestamp => .int now

/-! ## Tables -/

inductive ColumnType
  | integer (min max : ℤ)
  | string (maxLength : ℕ)
  | enum (values : List (List UInt8))

def ColumnType.admits : ColumnType → Value → Bool
  | .integer min max, .int n => min ≤ n && n ≤ max
  | .string maxLength, .text s => s.length ≤ maxLength
  | .enum values, .text s => values.contains s
  | .integer _ _, .text _ | .string _, .int _ | .enum _, .int _ => false

/-- A column that is `NOT NULL` and has no default. -/
structure Column (K : Type) where
  name : K
  type : ColumnType
  autoIncrement : Bool

/-- `FOREIGN KEY (column) REFERENCES table (referenced)` -/
structure ForeignKey (T K : Type) where
  column : K
  table : T
  referenced : K

structure TableSchema (T K : Type) where
  name : T
  columns : List (Column K)
  primaryKey : K
  uniqueKeys : List (List K)
  foreignKeys : List (ForeignKey T K)

/-- A row, as the values of its columns. -/
abbrev Record (K : Type) := K → Option Value

structure StoredTable (T K : Type) where
  schema : TableSchema T K
  rows : List (Record K)
  /-- The next value of an `AUTO_INCREMENT` column. -/
  next : ℕ

namespace TableSchema

/-- All keys, by their columns. -/
def keys (t : TableSchema T K) : List (List K) := [t.primaryKey] :: t.uniqueKeys

variable [DecidableEq K]

def column? (t : TableSchema T K) (k : K) : Option (Column K) :=
  t.columns.find? fun column => column.name = k

def hasColumn (t : TableSchema T K) (k : K) : Bool := (t.column? k).isSome

/-- A foreign key refers to a column with which a key begins. -/
def hasKey (t : TableSchema T K) (k : K) : Bool := t.keys.any fun key => key.head? = some k

/-- The keys and foreign keys are about columns of the table, and no two columns share a name. -/
def wellFormed (t : TableSchema T K) : Bool :=
  (t.columns.map Column.name).Nodup && t.keys.flatten.all t.hasColumn &&
    t.foreignKeys.all fun key => t.hasColumn key.column

end TableSchema

namespace StoredTable

variable [DecidableEq K]

/-- The row that an `INSERT` makes. An `AUTO_INCREMENT` column takes the next key if it gets no
value, and also if it gets a zero, unless zeros are kept. -/
def record (t : StoredTable T K) (autoValueOnZero : Bool) (columns : List K) (values : List Value) :
    Record K := fun k =>
  match t.schema.column? k with
  | none => none
  | some column =>
    let given := (columns.zip values).lookup k
    if column.autoIncrement ∧ (given = none ∨ (given = some (.int 0) ∧ autoValueOnZero)) then
      some (.int t.next)
    else given

/-- The values are there and fit. -/
def fits (t : StoredTable T K) (row : Record K) : Bool :=
  t.schema.columns.all fun column => (row column.name).any column.type.admits

/-- No other row has the same values in the columns of a key. -/
def isNew (t : StoredTable T K) (row : Record K) : Bool :=
  t.schema.keys.all fun key => t.rows.all fun other => key.map other ≠ key.map row

/-- Insert a row. The next key is behind all keys that were given. -/
def insert (t : StoredTable T K) (row : Record K) : StoredTable T K where
  schema := t.schema
  rows := t.rows ++ [row]
  next :=
    match row t.schema.primaryKey with
    | some (.int n) => max t.next (n.toNat + 1)
    | _ => t.next

end StoredTable

/-! ## The server -/

/-- What the server keeps, and for the connection the database it uses and its `sql_mode`. -/
structure Server (D T K U : Type) where
  databases : D → Option (T → Option (StoredTable T K))
  /-- The accounts with their passwords. -/
  accounts : U → Option (List UInt8)
  /-- Who holds all privileges on which database. -/
  privileges : U → D → Bool
  current : Option D
  /-- Whether `NO_AUTO_VALUE_ON_ZERO` is off. -/
  autoValueOnZero : Bool
  unixTimestamp : ℕ

inductive Statement (D T K U : Type)
  | createDatabase (name : Ident D)
  | dropDatabase (name : Ident D)
  | useDatabase (name : Ident D)
  | createTable (schema : TableSchema T K)
  /-- `SET SESSION sql_mode=CONCAT(@@SESSION.sql_mode,',','NO_AUTO_VALUE_ON_ZERO')` -/
  | noAutoValueOnZero
  | insert (table : T) (columns : List K) (values : List Expr)
  | createUser (account : U) (password : List UInt8)
  | grantUsage (database : Ident D) (account : U)
  /-- `GRANT ALL PRIVILEGES .. WITH GRANT OPTION` -/
  | grantAll (database : Ident D) (account : U)
  | flushPrivileges

namespace Server

/-- A table of the database in use. -/
def table (s : Server D T K U) (t : T) : Option (StoredTable T K) :=
  (s.current.bind s.databases).bind fun tables => tables t

variable [DecidableEq D] [DecidableEq T]

def setTable (s : Server D T K U) (t : T) (stored : StoredTable T K) : Server D T K U :=
  match s.current with
  | none => s
  | some d => { s with
      databases := Function.update s.databases d
        ((s.databases d).map fun tables => Function.update tables t (some stored)) }

theorem isSome_databases_setTable {s : Server D T K U} {t : T} {stored : StoredTable T K} {d : D} :
    ((s.setTable t stored).databases d).isSome = (s.databases d).isSome := by
  unfold setTable
  split
  · rfl
  · next d' hcurrent =>
    show (Function.update s.databases d' _ d).isSome = _
    by_cases hd : d = d'
    · rw [hd, Function.update_self, Option.isSome_map]
    · rw [Function.update_of_ne hd]

/-- A database is in use. -/
def inUse (s : Server D T K U) : Bool := (s.current.bind s.databases).isSome

/-- The server with a database in use that has the given tables. -/
def opened (s : Server D T K U) (d : D) (tables : T → Option (StoredTable T K)) : Server D T K U :=
  { s with databases := Function.update s.databases d (some tables), current := some d }

omit [DecidableEq T] in
theorem databases_opened (s : Server D T K U) (d : D) (tables : T → Option (StoredTable T K)) :
    (s.opened d tables).databases d = some tables :=
  Function.update_self ..

omit [DecidableEq T] in
@[simp] theorem table_opened (s : Server D T K U) (d : D) (tables : T → Option (StoredTable T K))
    (t : T) : (s.opened d tables).table t = tables t := by
  show ((s.opened d tables).databases d).bind _ = _
  rw [databases_opened, Option.bind_some]

omit [DecidableEq T] in
@[simp] theorem inUse_opened (s : Server D T K U) (d : D) (tables : T → Option (StoredTable T K)) :
    (s.opened d tables).inUse = true := by
  show ((s.opened d tables).databases d).isSome = true
  rw [databases_opened, Option.isSome_some]

theorem setTable_opened (s : Server D T K U) (d : D) (tables : T → Option (StoredTable T K)) (t : T)
    (stored : StoredTable T K) : (s.opened d tables).setTable t stored =
      s.opened d (Function.update tables t (some stored)) := by
  have hcurrent : (s.opened d tables).current = some d := rfl
  rw [setTable, hcurrent]
  dsimp only
  rw [databases_opened, Option.map_some, opened, opened, Function.update_idem]

/-- The rows of a table, with one more if it goes into this table. -/
def rowsWith (s : Server D T K U) (t t' : T) (row : Record K) : List (Record K) :=
  ((s.table t').elim [] fun stored => stored.rows) ++ if t' = t then [row] else []

end Server

namespace Statement

/-- Only a bare or backquoted name is an identifier. -/
def wellFormed : Statement D T K U → Bool
  | createDatabase name | dropDatabase name | useDatabase name => name.wellFormed
  | grantUsage database _ | grantAll database _ => database.wellFormed
  | createTable _ | noAutoValueOnZero | insert _ _ _ | createUser _ _ | flushPrivileges => true

variable [DecidableEq D] [DecidableEq T] [DecidableEq K]

/-- A table can be created. It may refer to itself. -/
def validTable (s : Server D T K U) (schema : TableSchema T K) : Bool :=
  s.inUse && (s.table schema.name).isNone && schema.wellFormed &&
    schema.foreignKeys.all fun key =>
      if key.table = schema.name then schema.hasKey key.referenced
      else (s.table key.table).any fun stored => stored.schema.hasKey key.referenced

/-- A row can be inserted into a table. It may refer to itself. -/
def validRow (s : Server D T K U) (t : T) (stored : StoredTable T K) (row : Record K) : Bool :=
  stored.fits row && stored.isNew row && stored.schema.foreignKeys.all fun key =>
    (s.rowsWith t key.table row).any fun other => other key.referenced = row key.column

/-- The values of an `INSERT`, as the row that it makes. -/
def newRecord (s : Server D T K U) (stored : StoredTable T K) (columns : List K)
    (values : List Expr) : Record K :=
  stored.record s.autoValueOnZero columns (values.map (Expr.eval s.unixTimestamp))

def valid : Statement D T K U → Server D T K U → Bool
  | createDatabase name, s => (s.databases name.name).isNone
  | dropDatabase name, s | useDatabase name, s => (s.databases name.name).isSome
  | createTable schema, s => validTable s schema
  | insert t columns values, s =>
    (s.table t).any fun stored =>
      columns.Nodup && columns.length = values.length && columns.all stored.schema.hasColumn &&
        validRow s t stored (newRecord s stored columns values)
  | createUser account _, s => (s.accounts account).isNone
  | grantUsage _ account, s | grantAll _ account, s => (s.accounts account).isSome
  | noAutoValueOnZero, _ | flushPrivileges, _ => true

theorem valid_createTable (s : Server D T K U) (d : D) (tables : T → Option (StoredTable T K))
    (schema : TableSchema T K) : (createTable schema).valid (s.opened d tables) =
      ((tables schema.name).isNone && schema.wellFormed && schema.foreignKeys.all fun key =>
        if key.table = schema.name then schema.hasKey key.referenced
        else (tables key.table).any fun stored => stored.schema.hasKey key.referenced) := by
  simp only [valid, validTable, Server.inUse_opened, Server.table_opened, Bool.true_and]

/-- Whether a row can be inserted depends on the tables and on the row. -/
theorem valid_insert {s : Server D T K U} {d : D} {tables : T → Option (StoredTable T K)} {t : T}
    {stored : StoredTable T K} {columns : List K} {values : List Expr} {row : Record K}
    (h : tables t = some stored) (hrow : newRecord s stored columns values = row) :
    (insert t columns values).valid (s.opened d tables) =
      (columns.Nodup && columns.length = values.length && columns.all stored.schema.hasColumn &&
        (stored.fits row && stored.isNew row && stored.schema.foreignKeys.all fun key =>
          (((tables key.table).elim [] fun stored => stored.rows) ++
            if key.table = t then [row] else []).any fun other =>
              other key.referenced = row key.column)) := by
  have hrow' : newRecord (s.opened d tables) stored columns values = row := hrow
  simp only [valid, Server.table_opened, h, Option.any_some, validRow, Server.rowsWith, hrow']

variable [DecidableEq U]

def effect : Statement D T K U → Server D T K U → Server D T K U
  | createDatabase name, s =>
    { s with databases := Function.update s.databases name.name (some fun _ => none) }
  | dropDatabase name, s =>
    { s with
      databases := Function.update s.databases name.name none
      current := if s.current = some name.name then none else s.current }
  | useDatabase name, s => { s with current := some name.name }
  | createTable schema, s => s.setTable schema.name ⟨schema, [], 1⟩
  | noAutoValueOnZero, s => { s with autoValueOnZero := false }
  | insert t columns values, s =>
    (s.table t).elim s fun stored => s.setTable t (stored.insert (newRecord s stored columns values))
  | createUser account password, s =>
    { s with accounts := Function.update s.accounts account (some password) }
  | grantAll database account, s =>
    { s with privileges := fun a d => (a = account && d = database.name) || s.privileges a d }
  | grantUsage _ _, s | flushPrivileges, s => s

/-- Execute a statement on a server that takes the statements for valid that `valid` says. -/
def execIf (valid : Statement D T K U → Server D T K U → Bool) (st : Statement D T K U)
    (s : Server D T K U) : Option (Server D T K U) :=
  if st.wellFormed && valid st s then some (st.effect s) else none

theorem execIf_eq_some {valid : Statement D T K U → Server D T K U → Bool}
    {st : Statement D T K U} {s s' : Server D T K U} :
    execIf valid st s = some s' ↔ (st.wellFormed = true ∧ valid st s = true) ∧ st.effect s = s' := by
  rw [execIf, Option.ite_none_right_eq_some, Bool.and_eq_true, Option.some.injEq]

/-! ## The database in use -/

theorem effect_useDatabase {s : Server D T K U} {name : Ident D}
    {tables : T → Option (StoredTable T K)} (h : s.databases name.name = some tables) :
    (useDatabase name).effect s = s.opened name.name tables := by
  rw [effect, Server.opened, ← h, Function.update_eq_self]

/-- A database that was just created has the tables that are made for it, and no others. -/
theorem opened_createDatabase (s : Server D T K U) (name : Ident D)
    (tables : T → Option (StoredTable T K)) :
    ((createDatabase name).effect s).opened name.name tables = s.opened name.name tables := by
  show { s with databases := Function.update (Function.update _ _ _) _ _, current := _ } = _
  rw [Function.update_idem]
  rfl

theorem effect_createTable (s : Server D T K U) (d : D) (tables : T → Option (StoredTable T K))
    (schema : TableSchema T K) : (createTable schema).effect (s.opened d tables) =
      s.opened d (Function.update tables schema.name (some ⟨schema, [], 1⟩)) :=
  Server.setTable_opened ..

theorem effect_insert {s : Server D T K U} {d : D} {tables : T → Option (StoredTable T K)} {t : T}
    {stored : StoredTable T K} (h : tables t = some stored) (columns : List K)
    (values : List Expr) : (insert t columns values).effect (s.opened d tables) =
      s.opened d (Function.update tables t
        (some (stored.insert (newRecord s stored columns values)))) := by
  rw [effect, Server.table_opened, h]
  exact Server.setTable_opened ..

/-! ## What statements leave alone -/

/-- A database stays as long as it is not dropped. -/
theorem isSome_databases_effect {st : Statement D T K U} {s : Server D T K U} {d : D}
    (hdrop : ∀ name, st = dropDatabase name → name.name ≠ d) (h : (s.databases d).isSome = true) :
    ((st.effect s).databases d).isSome = true := by
  cases st with
  | createDatabase name =>
    show (Function.update s.databases name.name _ d).isSome = true
    by_cases hd : d = name.name
    · rw [hd, Function.update_self]
      rfl
    · rwa [Function.update_of_ne hd]
  | dropDatabase name =>
    show (Function.update s.databases name.name _ d).isSome = true
    rwa [Function.update_of_ne (hdrop name rfl).symm]
  | createTable schema => exact Server.isSome_databases_setTable.trans h
  | insert t columns values =>
    show ((Option.elim (s.table t) s _).databases d).isSome = true
    cases s.table t with
    | none => exact h
    | some stored => exact Server.isSome_databases_setTable.trans h
  | useDatabase | noAutoValueOnZero | createUser | grantUsage | grantAll | flushPrivileges => exact h

end Statement

end Sql
