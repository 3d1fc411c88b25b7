import MyFS.Hierarchy
import Mathlib.Logic.Relation

/-!
# Names under a collation

The kernel tells names apart by their bytes. The database compares them by the weights that
their collation gives them, in the `WHERE` clause of a lookup and in the key
`(parent_id, name)`, and under `utf8mb4_general_ci` many names have the same weights.
`engineUnder` is MariaDB with a collation that is left open.

* `Distinct.execUnder`: every statement keeps the names of a directory distinct in weight.
* `keptApart_iff`: a second name becomes a file of its own exactly if no name in the directory
  has its weights.
-/

namespace MyFS

open Sql Database

/-- The weights that a collation gives the characters of a name. -/
abbrev Collation := List Byte → List ℕ

/-- The names that are all ASCII under `utf8mb4_general_ci`: case and the spaces at the end do not
count. -/
def generalCi : Collation := fun name =>
  (name.rdropWhile (· = 32)).map fun c => if 97 ≤ c ∧ c ≤ 122 then c.toNat - 32 else c.toNat

namespace Database

/-- Whether another row than `except` has the key `(parent_id, name)` under a collation. -/
def nameTakenUnder (κ : Collation) (db : Database) (except : ℕ → Bool) (parentId : ℕ)
    (name : List Byte) : Bool :=
  db.files.entries.any fun e => !except e.1 && e.2.parentId == parentId && κ e.2.name == κ name

end Database

def Query.askUnder (κ : Collation) : (q : Query) → Database → q.Answer
  | .fileByName p name, db =>
    (db.files.entries.filter fun e => e.2.parentId = p ∧ κ e.2.name = κ name).map fun e => e.1
  | .children p, db =>
    (orderBy (fun e : ℕ × FileRow => κ e.2.name)
      (db.files.entries.filter fun e => e.2.parentId = p ∧ e.1 ≠ 0)).map fun e => e.1
  | .blockInfos f index limit, db => (Query.blockInfos f index limit).ask db
  | .lastBlock f, db => (Query.lastBlock f).ask db
  | .blockData f index limit, db => (Query.blockData f index limit).ask db
  | .fileSize f, db => (Query.fileSize f).ask db
  | .file f, db => (Query.file f).ask db

def Change.execUnder (κ : Collation) : Change → Database → Option Database
  | .insertFile p name type user group mode, db =>
    let t : ℤ := db.unixTimestamp
    let r : FileRow := ⟨p, name, type, user, group, mode, 0, t, t, t, t⟩
    if r.fits ∧ (db.files.row p).isSome ∧ ¬ db.nameTakenUnder κ (fun _ => false) p name
        ∧ db.files.next < uintRange then
      some { db with files := db.files.insert r }
    else none
  | .setParent id p, db =>
    db.updateFile id
      (fun r => (db.files.row p).isSome && !db.nameTakenUnder κ (· == id) p r.name)
      fun r => { r with parentId := p }
  | .setParentName id p name, db =>
    db.updateFile id
      (fun r => r.fits && (db.files.row p).isSome && !db.nameTakenUnder κ (· == id) p name)
      fun r => { r with parentId := p, name := name }
  | c, db => c.exec db

/-- MariaDB with the schema of `create.c` and a collation for `name`. -/
def engineUnder (κ : Collation) : Engine Query Query.Answer Change Database where
  ask := Query.askUnder κ
  exec := Change.execUnder κ
  newId := Change.newId

variable {κ : Collation} {env : Env} {db db' : Database} {id p : ℕ} {name : List Byte}

/-! ## What the key accepts -/

namespace Database

theorem nameTakenUnder_eq_false {except : ℕ → Bool} :
    db.nameTakenUnder κ except p name = false ↔
      ∀ {x r}, db.files.row x = some r → except x = false → r.parentId = p → κ r.name ≠ κ name := by
  simp only [nameTakenUnder, List.any_eq_false, Prod.forall, Table.mem_entries, Bool.and_eq_true,
    Bool.not_eq_true', beq_iff_eq, not_and, and_imp]

theorem nameTaken_of_nameTakenUnder {except : ℕ → Bool}
    (h : db.nameTakenUnder κ except p name = false) : db.nameTaken except p name = false := by
  rw [nameTakenUnder_eq_false] at h
  rw [nameTaken_eq_false]
  exact fun hr hx hp heq => h hr hx hp (congrArg κ heq)

/-- What a check accepts, a weaker check accepts. -/
theorem updateFile_mono {ok ok' : FileRow → Bool} {g : FileRow → FileRow}
    (hok : ∀ r, ok r = true → ok' r = true) (h : db.updateFile id ok g = some db') :
    db.updateFile id ok' g = some db' := by
  unfold updateFile at h ⊢
  split at h
  · exact h
  · split at h
    · next hr =>
      rw [if_pos (hok _ hr)]
      exact h
    · cases h

/-- The names in a directory are distinct in weight. -/
def Distinguished (κ : Collation) (db : Database) : Prop :=
  ∀ id id' r r', db.files.row id = some r → db.files.row id' = some r' →
    r.parentId = r'.parentId → κ r.name = κ r'.name → id = id'

end Database

/-- The collation only has more rows refused. -/
theorem exec_of_execUnder {c : Change} (h : c.execUnder κ db = some db') :
    c.exec db = some db' := by
  cases c with
  | insertFile p name type user group mode =>
    simp only [Change.execUnder] at h
    split at h
    · rename_i hok
      have hfree := nameTaken_of_nameTakenUnder (Bool.eq_false_iff.mpr hok.2.2.1)
      simp only [Change.exec]
      rw [if_pos ⟨hok.1, hok.2.1, Bool.eq_false_iff.mp hfree, hok.2.2.2⟩]
      exact h
    · cases h
  | setParent id p =>
    rw [Change.execUnder] at h
    rw [Change.exec]
    refine updateFile_mono (fun r hok => ?_) h
    simp only [Bool.and_eq_true, Bool.not_eq_true'] at hok ⊢
    exact ⟨hok.1, nameTaken_of_nameTakenUnder hok.2⟩
  | setParentName id p name =>
    rw [Change.execUnder] at h
    rw [Change.exec]
    refine updateFile_mono (fun r hok => ?_) h
    simp only [Bool.and_eq_true, Bool.not_eq_true'] at hok ⊢
    exact ⟨hok.1, nameTaken_of_nameTakenUnder hok.2⟩
  | _ => exact h

/-! ## Every statement keeps the names apart -/

namespace Database

theorem Distinguished.of_sameTree (h : db.Distinguished κ) (hsame : SameTree db db') :
    db'.Distinguished κ := by
  intro x y s t hs ht hp hn
  obtain ⟨s', hs', hps, hns, -⟩ := hsame.symm.exists_row hs
  obtain ⟨t', ht', hpt, hnt, -⟩ := hsame.symm.exists_row ht
  exact h _ _ _ _ hs' ht' (by rw [hps, hpt, hp]) (by rw [hns, hnt, hn])

theorem Distinguished.insertRow (h : db.Distinguished κ) {r : FileRow}
    (hfree : db.nameTakenUnder κ (fun _ => false) r.parentId r.name = false) :
    (db.insertRow r).Distinguished κ := by
  rw [nameTakenUnder_eq_false] at hfree
  intro x y s t hs ht hp hn
  rw [row_insertRow] at hs ht
  split at hs <;> split at ht
  · next hx hy => exact hx.trans hy.symm
  · obtain rfl := Option.some.inj hs
    exact absurd hn.symm (hfree ht rfl hp.symm)
  · obtain rfl := Option.some.inj ht
    exact absurd hn (hfree hs rfl hp)
  · exact h _ _ _ _ hs ht hp hn

theorem Distinguished.moveRow (h : db.Distinguished κ)
    (hfree : db.nameTakenUnder κ (· == id) p name = false) :
    (db.moveRow id p name).Distinguished κ := by
  rw [nameTakenUnder_eq_false] at hfree
  intro x y s t hs ht hp hn
  obtain ⟨s', hs', -, hcase⟩ := row_moveRow hs
  obtain ⟨t', ht', -, hcase'⟩ := row_moveRow ht
  rcases hcase with ⟨hx, rfl⟩ | ⟨rfl, rfl⟩ <;> rcases hcase' with ⟨hy, rfl⟩ | ⟨rfl, rfl⟩
  · exact h _ _ _ _ hs' ht' hp hn
  · exact absurd hn (hfree hs' (by simpa using hx) hp)
  · exact absurd hn.symm (hfree ht' (by simpa using hy) hp.symm)
  · rfl

end Database

/-- What the kernel has made sure of before a statement is sent: a file goes into a directory, and
not below itself. -/
def Change.Sound (db : Database) : Change → Prop
  | .insertFile p _ _ _ _ _ => db.IsDirectory p
  | .setParent id p => db.IsDirectory p ∧ ¬Above db id p
  | .setParentName id p _ => db.IsDirectory p ∧ ¬Above db id p
  | _ => True

/-- A tree whose names the collation tells apart. -/
structure Collated (κ : Collation) (db : Database) : Prop where
  hierarchy : db.Hierarchy
  distinguished : db.Distinguished κ

theorem Collated.execUnder {c : Change} (h : Collated κ db) (hc : c.Sound db)
    (he : c.execUnder κ db = some db') : Collated κ db' := by
  have hexec := exec_of_execUnder he
  by_cases hother : c.LeavesTree
  · have hsame := sameTree_of_exec hexec hother
    exact ⟨hsame.hierarchy h.hierarchy (h.hierarchy.valid.exec hexec),
      h.distinguished.of_sameTree hsame⟩
  cases c with
  | insertFile p name type user group mode =>
    refine ⟨h.hierarchy.exec_insertFile hc hexec, ?_⟩
    simp only [Change.execUnder] at he
    split at he
    · next hok =>
      obtain rfl := Option.some.inj he
      exact h.distinguished.insertRow (Bool.eq_false_iff.mpr hok.2.2.1)
    · cases he
  | deleteFile id =>
    refine ⟨h.hierarchy.exec_deleteFile hexec, ?_⟩
    simp only [Change.exec] at hexec
    split at hexec
    · cases hexec
      exact h.distinguished
    · split at hexec
      · cases hexec
      · obtain rfl := Option.some.inj hexec
        intro x y s t hs ht
        rw [Table.row_keep, Option.filter_eq_some_iff] at hs ht
        exact h.distinguished _ _ _ _ hs.1 ht.1
  | setParent id p =>
    rw [Change.execUnder, updateFile] at he
    split at he
    · cases he
      exact h
    · next r hr =>
      refine ⟨h.hierarchy.exec_setParent hr hc.1 hc.2 hexec, ?_⟩
      rw [(exec_setParent_of_row hr hexec).2]
      split at he
      · next hok =>
        simp only [Bool.and_eq_true, Bool.not_eq_true'] at hok
        exact h.distinguished.moveRow hok.2
      · cases he
  | setParentName id p name =>
    refine ⟨h.hierarchy.exec_setParentName hc.1 hc.2 hexec, ?_⟩
    rw [Change.execUnder, updateFile] at he
    split at he
    · cases he
      exact h.distinguished
    · split at he
      · next hok =>
        simp only [Bool.and_eq_true, Bool.not_eq_true'] at hok
        obtain rfl := Option.some.inj he
        exact h.distinguished.moveRow hok.2
      · cases he
  | _ => exact absurd trivial hother

/-- A statement that changes a tree. -/
def Step (κ : Collation) (db db' : Database) : Prop :=
  ∃ c : Change, c.Sound db ∧ c.execUnder κ db = some db'

/-- The trees that statements make of an empty file system. -/
def Reached (κ : Collation) (db : Database) : Prop :=
  ∃ root t, root.parentId = 0 ∧ root.name = [] ∧ root.type = .directory ∧
    Relation.ReflTransGen (Step κ) (rootStore root t) db

theorem Collated.steps (h : Collated κ db) (hs : Relation.ReflTransGen (Step κ) db db') :
    Collated κ db' := by
  induction hs with
  | refl => exact h
  | tail _ hstep ih =>
    obtain ⟨c, hc, he⟩ := hstep
    exact ih.execUnder hc he

theorem Reached.collated (h : Reached κ db) : Collated κ db := by
  obtain ⟨root, t, hp, hn, ht, hs⟩ := h
  refine Collated.steps ⟨hierarchy_rootStore hp hn ht, ?_⟩ hs
  -- there is one row
  have hrow : ∀ {x r}, (rootStore root t).files.row x = some r → x = 0 := by
    intro x r hr
    by_contra hx
    rw [rootStore, Table.row_modify, if_neg hx] at hr
    simp [emptyStore, hx] at hr
  exact fun _ _ _ _ hr hr' _ _ => (hrow hr).trans (hrow hr').symm

/-! ## Looking a name up -/

theorem eval_queryFile_under (κ : Collation) (env : Env) (db : Database) (fuel id : ℕ) :
    (queryFile env fuel id).eval (engineUnder κ) db = (queryFile env fuel id).eval engine db := by
  induction fuel generalizing id with
  | zero => rfl
  | succ fuel ih =>
    have hask : (engineUnder κ).ask (.file id) db = engine.ask (.file id) db := rfl
    rw [queryFile, Program.eval_query, Program.eval_query, hask]
    cases engine.ask (.file id) db with
    | none => rfl
    | some row =>
      dsimp only
      -- the parent is found as under the other engine, and nothing is asked after that
      by_cases hid : id > 0
      · rw [if_pos hid, Program.andThen, Program.eval_bind, Program.eval_bind, ih]
        cases ((queryFile env fuel row.parentId).eval engine db).1 <;> rfl
      · rw [if_neg hid]
        rfl

/-- What `myfs_db_file_query_name` finds. -/
def lookedUp (κ : Collation) (env : Env) (db : Database) (name : List Byte) (p : ℕ) :
    Except Fault (Option MyfsFile) :=
  (Sql.run (engineUnder κ) () (myfsDbFileQueryName env name p false) noFailure
    (Session.idle db : Conn Unit)).result

theorem lookedUp_eq (κ : Collation) (env : Env) (db : Database) (name : List Byte) (p : ℕ) :
    lookedUp κ env db name p =
      match (Query.fileByName p name).askUnder κ db with
      | [] => .ok none
      | id :: _ => ((myfsDbFileQuery env id false).eval (engineUnder κ) db).1 := by
  unfold lookedUp
  rw [run_readOnly_noFailure (engineUnder κ) () (readOnly_myfsDbFileQueryName env name p false)]
  show ((myfsDbFileQueryName env name p false).eval (engineUnder κ) db).1 = _
  rw [myfsDbFileQueryName, Program.eval_query]
  have hask : (engineUnder κ).ask (.fileByName p name) db
      = (Query.fileByName p name).askUnder κ db := rfl
  rw [hask]
  cases (Query.fileByName p name).askUnder κ db <;> rfl

theorem mem_askUnder {x : ℕ} : x ∈ (Query.fileByName p name).askUnder κ db ↔
    ∃ r, db.files.row x = some r ∧ r.parentId = p ∧ κ r.name = κ name := by
  simp [Query.askUnder]

/-- The file `id` is the one that the name leads to. -/
def LeadsTo (κ : Collation) (env : Env) (db : Database) (p : ℕ) (name : List Byte) (id : ℕ) : Prop :=
  ∃ file, lookedUp κ env db name p = .ok (some file) ∧ Describes env db id file

/-- A name leads to the file whose name has its weights. -/
theorem Collated.leadsTo (h : Collated κ db) {r : FileRow} (hr : db.files.row id = some r)
    (hp : r.parentId = p) (hn : κ r.name = κ name) : LeadsTo κ env db p name id := by
  obtain ⟨d, hd⟩ := h.hierarchy.tree.rooted hr
  obtain ⟨file, heval, hfile⟩ := eval_queryFile env h.hierarchy.tree hd
    ((h.hierarchy.tree.lt_next hd).trans_le h.hierarchy.valid.filesNextLe)
  refine ⟨file, ?_, hfile⟩
  have hmem : id ∈ (Query.fileByName p name).askUnder κ db := mem_askUnder.mpr ⟨r, hr, hp, hn⟩
  rw [lookedUp_eq]
  cases hask : (Query.fileByName p name).askUnder κ db with
  | nil =>
    rw [hask] at hmem
    cases hmem
  | cons x xs =>
    obtain ⟨s, hs, hps, hns⟩ := mem_askUnder.mp (hask ▸ List.mem_cons_self : x ∈ _)
    obtain rfl : x = id :=
      h.distinguished _ _ _ _ hs hr (hps.trans hp.symm) (hns.trans hn.symm)
    dsimp only
    have hquery : (queryFile env queryDepth x).eval (engineUnder κ) db = (.ok (some file), db) :=
      (eval_queryFile_under κ env db _ x).trans heval
    rw [myfsDbFileQuery, Program.andThen, Program.eval_bind, hquery]
    rfl

/-- A name leads nowhere exactly if no name in the directory has its weights. -/
theorem Collated.lookedUp_none_iff (h : Collated κ db) : lookedUp κ env db name p = .ok none ↔
    ∀ {x r}, db.files.row x = some r → r.parentId = p → κ r.name ≠ κ name := by
  constructor
  · intro hnone x r hr hp hn
    have hleads : LeadsTo κ env db p name x := h.leadsTo hr hp hn
    obtain ⟨file, hfile, -⟩ := hleads
    rw [hnone] at hfile
    cases hfile
  · intro hall
    have hask : (Query.fileByName p name).askUnder κ db = [] := by
      rw [List.eq_nil_iff_forall_not_mem]
      intro x hx
      obtain ⟨r, hr, hp, hn⟩ := mem_askUnder.mp hx
      exact hall hr hp hn
    rw [lookedUp_eq, hask]

/-! ## Creating a file -/

/-- A call of `myfs_db_file_create` on a connection that has nothing open. -/
def createUnder (κ : Collation) (env : Env) (db : Database) (name : List Byte) (type : FileType)
    (p mode : ℕ) : Outcome ℕ Query Change Database Unit :=
  Sql.run (engineUnder κ) () (myfsDbFileCreate env name type p mode) noFailure (Session.idle db)

/-- The row that it sends. -/
def newRow (env : Env) (db : Database) (name : List Byte) (type : FileType) (p mode : ℕ) : FileRow :=
  let t : ℤ := db.unixTimestamp
  ⟨p, name, type, env.user, env.group, if mode &&& type.sIf = 0 then mode ||| type.sIf else mode, 0,
    t, t, t, t⟩

theorem fits_newRow {type : FileType} {mode : ℕ} : (newRow env db name type p mode).fits = true ↔
    type ≠ .invalid ∧ name.length ≤ myfsFileNameMaxLen ∧ env.user.length ≤ myfsUserNameMaxLen ∧
      env.group.length ≤ myfsUserNameMaxLen ∧
      (if mode &&& type.sIf = 0 then mode ||| type.sIf else mode) < 2 ^ 16 := by
  show (decide (type ≠ .invalid) && decide (name.length ≤ myfsFileNameMaxLen) &&
    decide (env.user.length ≤ myfsUserNameMaxLen) && decide (env.group.length ≤ myfsUserNameMaxLen) &&
    decide ((if mode &&& type.sIf = 0 then mode ||| type.sIf else mode) < 2 ^ 16)) = true ↔ _
  simp only [Bool.and_eq_true, decide_eq_true_eq, and_assoc]

theorem mode_lt {type : FileType} {mode : ℕ} (h : mode < 2 ^ 16) :
    (if mode &&& type.sIf = 0 then mode ||| type.sIf else mode) < 2 ^ 16 := by
  split
  · refine Nat.or_lt_two_pow h ?_
    cases type <;> decide
  · exact h

theorem execUnder_create {type : FileType} {mode : ℕ} :
    (createChange env name type p mode).execUnder κ db = some db' ↔
      (newRow env db name type p mode).fits = true ∧ (db.files.row p).isSome = true ∧
        db.nameTakenUnder κ (fun _ => false) p name = false ∧ db.files.next < uintRange ∧
        db.insertRow (newRow env db name type p mode) = db' := by
  show (if (newRow env db name type p mode).fits = true ∧ (db.files.row p).isSome = true ∧
      ¬db.nameTakenUnder κ (fun _ => false) p name = true ∧ db.files.next < uintRange then
    some (db.insertRow (newRow env db name type p mode)) else none) = some db' ↔ _
  split
  · next hok =>
    exact ⟨fun h => ⟨hok.1, hok.2.1, Bool.eq_false_iff.mpr hok.2.2.1, hok.2.2.2, Option.some.inj h⟩,
      fun h => congrArg some h.2.2.2.2⟩
  · next hok =>
    exact iff_of_false nofun fun h => hok ⟨h.1, h.2.1, Bool.eq_false_iff.mp h.2.2.1, h.2.2.2.1⟩

theorem createUnder_none {type : FileType} {mode : ℕ}
    (h : (createChange env name type p mode).execUnder κ db = none) :
    (createUnder κ env db name type p mode).result = 0 := by
  have hexec : (engineUnder κ).exec (createChange env name type p mode)
      (Session.idle db : Conn Unit).visible = none := h
  rw [createUnder, myfsDbFileCreate_eq, run_change_false (engineUnder κ) () _ (.inr hexec)]
  rfl

theorem createUnder_some {type : FileType} {mode : ℕ}
    (h : (createChange env name type p mode).execUnder κ db = some db') :
    (createUnder κ env db name type p mode).result = db.files.next % uintRange ∧
      (createUnder κ env db name type p mode).sess.committed = db' := by
  have hchange : (Session.idle db : Conn Unit).change (engineUnder κ) ()
      (createChange env name type p mode) =
        some ⟨db', [((), createChange env name type p mode)], none, db.files.next⟩ := by
    have hexec : (engineUnder κ).exec (createChange env name type p mode) db = some db' := h
    rw [Session.change, Session.visible_idle, hexec]
    rfl
  rw [createUnder, myfsDbFileCreate_eq, run_change_true (engineUnder κ) () _ rfl hchange]
  exact ⟨rfl, rfl⟩

/-- A creation that reports success has inserted its row, under the id that it returns. -/
theorem created_iff {type : FileType} {mode : ℕ} (hnext : 0 < db.files.next) :
    (createUnder κ env db name type p mode).result ≠ 0 ↔
      ((newRow env db name type p mode).fits = true ∧ (db.files.row p).isSome = true ∧
        db.nameTakenUnder κ (fun _ => false) p name = false ∧ db.files.next < uintRange) := by
  cases hexec : (createChange env name type p mode).execUnder κ db with
  | none =>
    refine iff_of_false (fun h => h (createUnder_none hexec)) fun h => ?_
    rw [execUnder_create.mpr ⟨h.1, h.2.1, h.2.2.1, h.2.2.2, rfl⟩] at hexec
    cases hexec
  | some db' =>
    obtain ⟨hfits, hrow, hfree, hlt, -⟩ := execUnder_create.mp hexec
    rw [(createUnder_some hexec).1, Nat.mod_eq_of_lt hlt]
    exact iff_of_true hnext.ne' ⟨hfits, hrow, hfree, hlt⟩

theorem createUnder_of_created {type : FileType} {mode : ℕ} (hnext : 0 < db.files.next)
    (h : (createUnder κ env db name type p mode).result ≠ 0) :
    (createUnder κ env db name type p mode).result = db.files.next ∧
      (createUnder κ env db name type p mode).sess.committed =
        db.insertRow (newRow env db name type p mode) := by
  obtain ⟨hfits, hrow, hfree, hlt⟩ := (created_iff hnext).mp h
  have hexec : (createChange env name type p mode).execUnder κ db =
      some (db.insertRow (newRow env db name type p mode)) :=
    execUnder_create.mpr ⟨hfits, hrow, hfree, hlt, rfl⟩
  obtain ⟨hres, hcom⟩ := createUnder_some hexec
  rw [Nat.mod_eq_of_lt hlt] at hres
  exact ⟨hres, hcom⟩

/-! ## Two names -/

/-- The file `id` has the given name in the directory `p`. -/
def Entry (db : Database) (id p : ℕ) (name : List Byte) : Prop :=
  ∃ r, db.files.row id = some r ∧ r.parentId = p ∧ r.name = name

/-- What the kernel takes for granted of a new name `n₂` when the file `id₁` has just been created
under the name `n₁`: it leads nowhere, it can be created, and as long as the two files keep their
names each name leads to its own file. -/
structure KeptApart (κ : Collation) (env : Env) (db : Database) (p id₁ : ℕ) (n₁ n₂ : List Byte)
    (type : FileType) (mode : ℕ) : Prop where
  absent : lookedUp κ env db n₂ p = .ok none
  created : (createUnder κ env db n₂ type p mode).result ≠ 0
  ne : (createUnder κ env db n₂ type p mode).result ≠ id₁
  entry₁ : Entry (createUnder κ env db n₂ type p mode).sess.committed id₁ p n₁
  entry₂ : Entry (createUnder κ env db n₂ type p mode).sess.committed
    (createUnder κ env db n₂ type p mode).result p n₂
  lasting : ∀ {db'}, Relation.ReflTransGen (Step κ)
      (createUnder κ env db n₂ type p mode).sess.committed db' →
    (Entry db' id₁ p n₁ → LeadsTo κ env db' p n₁ id₁) ∧
      (Entry db' (createUnder κ env db n₂ type p mode).result p n₂ →
        LeadsTo κ env db' p n₂ (createUnder κ env db n₂ type p mode).result)

/-- Before `n₁` is created: neither that name nor any name in the directory has the weights of
`n₂`, and there are ids for both. -/
structure Apart (κ : Collation) (db : Database) (p : ℕ) (n₁ n₂ : List Byte) : Prop where
  ne : κ n₁ ≠ κ n₂
  free : db.nameTakenUnder κ (fun _ => false) p n₂ = false
  ids : db.files.next + 1 < uintRange

theorem Collated.leadsTo_of_entry (h : Collated κ db) (he : Entry db id p name) :
    LeadsTo κ env db p name id := by
  obtain ⟨r, hr, hp, hn⟩ := he
  exact h.leadsTo hr hp (congrArg κ hn)

theorem Collated.create (h : Collated κ db) {type : FileType} {mode : ℕ} (hp : db.IsDirectory p)
    (hcreated : (createUnder κ env db name type p mode).result ≠ 0) :
    Collated κ (createUnder κ env db name type p mode).sess.committed := by
  obtain ⟨hfits, hrow, hfree, hlt⟩ := (created_iff h.hierarchy.valid.filesNextPos).mp hcreated
  have hexec : (createChange env name type p mode).execUnder κ db = some _ :=
    execUnder_create.mpr ⟨hfits, hrow, hfree, hlt, rfl⟩
  rw [(createUnder_some hexec).2]
  exact h.execUnder (c := createChange env name type p mode) hp hexec

section

variable {n₁ n₂ : List Byte} {type₁ type₂ : FileType} {mode₁ mode₂ : ℕ}

/-- What the key says of a second name after a first one was created. -/
theorem nameTakenUnder_insertRow {r : FileRow} (hp : r.parentId = p) :
    (db.insertRow r).nameTakenUnder κ (fun _ => false) p name = false ↔
      κ r.name ≠ κ name ∧ db.nameTakenUnder κ (fun _ => false) p name = false := by
  rw [nameTakenUnder_eq_false, nameTakenUnder_eq_false]
  constructor
  · intro h
    refine ⟨h (x := db.files.next) (by rw [row_insertRow, if_pos rfl]) rfl hp, ?_⟩
    intro x s hs _ hps
    exact h (by rw [(row_insertRow_of_isSome (by rw [hs]; rfl)).2, hs]) rfl hps
  · intro ⟨hne, hall⟩ x s hs _ hps
    rw [row_insertRow] at hs
    split at hs
    · obtain rfl := Option.some.inj hs
      exact hne
    · exact hall hs rfl hps

/-- A second name becomes a file of its own exactly if the collation tells it from the first one
and from every other name in the directory. -/
theorem keptApart_iff (h : Reached κ db) (hp : db.IsDirectory p)
    (hlen : n₂.length ≤ myfsFileNameMaxLen) (htype : type₂ ≠ .invalid) (hmode : mode₂ < 2 ^ 16)
    (hcreated : (createUnder κ env db n₁ type₁ p mode₁).result ≠ 0) :
    KeptApart κ env (createUnder κ env db n₁ type₁ p mode₁).sess.committed p
        (createUnder κ env db n₁ type₁ p mode₁).result n₁ n₂ type₂ mode₂ ↔
      Apart κ db p n₁ n₂ := by
  have hpos := h.collated.hierarchy.valid.filesNextPos
  obtain ⟨hfits, hrow, hfree, hlt⟩ := (created_iff hpos).mp hcreated
  have h₁ := h.collated.create hp hcreated
  obtain ⟨hid, hcom⟩ := createUnder_of_created hpos hcreated
  rw [hid]
  rw [hcom] at h₁ ⊢
  have hname : (newRow env db n₁ type₁ p mode₁).name = n₁ := rfl
  have hparent : (newRow env db n₁ type₁ p mode₁).parentId = p := rfl
  have huser := fits_newRow.mp hfits
  generalize newRow env db n₁ type₁ p mode₁ = r at h₁ hname hparent ⊢
  have hpos₁ : 0 < (db.insertRow r).files.next := Nat.succ_pos _
  have htaken : (db.insertRow r).nameTakenUnder κ (fun _ => false) p n₂ = false ↔
      κ r.name ≠ κ n₂ ∧ db.nameTakenUnder κ (fun _ => false) p n₂ = false :=
    nameTakenUnder_insertRow hparent
  rw [hname] at htaken
  constructor
  · intro hkept
    obtain ⟨-, -, hfree₂, hlt₂⟩ := (created_iff hpos₁).mp hkept.created
    exact ⟨(htaken.mp hfree₂).1, (htaken.mp hfree₂).2, hlt₂⟩
  · intro hapart
    have hfree₂ := htaken.mpr ⟨hapart.ne, hapart.free⟩
    have hp₁ : (db.insertRow r).IsDirectory p := by
      obtain ⟨s, hs, ht⟩ := hp
      exact ⟨s, by rw [(row_insertRow_of_isSome (by rw [hs]; rfl)).2, hs], ht⟩
    have hfits₂ : (newRow env (db.insertRow r) n₂ type₂ p mode₂).fits = true :=
      fits_newRow.mpr ⟨htype, hlen, huser.2.2.1, huser.2.2.2.1, mode_lt hmode⟩
    have hcreated₂ : (createUnder κ env (db.insertRow r) n₂ type₂ p mode₂).result ≠ 0 :=
      (created_iff hpos₁).mpr ⟨hfits₂, hp₁.isSome, hfree₂, hapart.ids⟩
    have h₂ := h₁.create hp₁ hcreated₂
    obtain ⟨hid₂, hcom₂⟩ := createUnder_of_created hpos₁ hcreated₂
    have hne : db.files.next ≠ (db.insertRow r).files.next := (Nat.succ_ne_self _).symm
    refine ⟨?_, hcreated₂, ?_, ?_, ?_, ?_⟩
    · exact h₁.lookedUp_none_iff.mpr fun hx hpx => nameTakenUnder_eq_false.mp hfree₂ hx rfl hpx
    · rw [hid₂]
      exact hne.symm
    · rw [hcom₂]
      refine ⟨r, ?_, hparent, hname⟩
      rw [row_insertRow, if_neg hne, row_insertRow, if_pos rfl]
    · rw [hid₂, hcom₂]
      exact ⟨_, by rw [row_insertRow, if_pos rfl], rfl, rfl⟩
    · intro db' hsteps
      have h' := h₂.steps hsteps
      exact ⟨h'.leadsTo_of_entry, h'.leadsTo_of_entry⟩

/-- `a` and `b` in the root directory. -/
theorem keptApart_iff_letters :
    KeptApart generalCi nobody
        (createUnder generalCi nobody (rootStore rootRow 0) [97] .file 0 0o640).sess.committed 0
        (createUnder generalCi nobody (rootStore rootRow 0) [97] .file 0 0o640).result [97] [98] .file
        0o640 ↔
      Apart generalCi (rootStore rootRow 0) 0 [97] [98] :=
  keptApart_iff ⟨rootRow, 0, rfl, rfl, rfl, .refl⟩ ⟨rootRow, rfl, rfl⟩ (by decide) (by decide)
    (by decide) (by decide)

/-- After `a` has been created there is no creating `A`. -/
theorem not_keptApart_case :
    ¬KeptApart generalCi nobody
      (createUnder generalCi nobody (rootStore rootRow 0) [97] .file 0 0o640).sess.committed 0
      (createUnder generalCi nobody (rootStore rootRow 0) [97] .file 0 0o640).result [97] [65] .file
      0o640 :=
  fun h => h.created (by decide)

end

/-- The engine that compares names by their bytes is that of a collation which tells them all
apart. -/
theorem execUnder_of_injective (hκ : Function.Injective κ) (c : Change) (db : Database) :
    c.execUnder κ db = c.exec db := by
  have htaken : ∀ except p name, db.nameTakenUnder κ except p name = db.nameTaken except p name := by
    intro except p name
    unfold nameTakenUnder nameTaken
    congr 1
    funext e
    by_cases hn : e.2.name = name
    · rw [hn, beq_self_eq_true, beq_self_eq_true]
    · rw [beq_eq_false_iff_ne.mpr hn, beq_eq_false_iff_ne.mpr fun h => hn (hκ h)]
  cases c with
  | insertFile | setParent | setParentName =>
    simp only [Change.execUnder, Change.exec, htaken]
  | _ => rfl

end MyFS
