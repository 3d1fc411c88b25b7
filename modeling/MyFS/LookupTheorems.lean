import MyFS.Lookup
import MyFS.Tree

/-!
# What looking a file up returns

On a tree `myfs_file_get` returns the file that the path leads to, with its ancestors, and
nothing if only the last step of the path leads nowhere (`eval_myfsFileGet_some`,
`eval_myfsFileGet_none`). It changes nothing, whatever fails.
-/

namespace MyFS

open Sql Database

variable {env : Env} {db : Database} {id p : ℕ} {path : List Byte}

/-! ## What is freed -/

theorem childrenFreeMissing_iff {children : List (Option MyfsFile)}
    (h : ∀ child, some child ∈ children → freesMissing child = false) :
    childrenFreeMissing children = true ↔ none ∈ children := by
  induction children with
  | nil => exact iff_of_false Bool.false_ne_true List.not_mem_nil
  | cons child children ih =>
    have hrest := ih fun x hx => h x (List.mem_cons_of_mem _ hx)
    rw [childrenFreeMissing, Bool.or_eq_true, hrest, List.mem_cons]
    apply or_congr_left
    cases child with
    | none => exact iff_of_true rfl rfl
    | some child =>
      rw [childFreesMissing, h child List.mem_cons_self]
      exact iff_of_false Bool.false_ne_true nofun

/-- A file without children, of which no ancestor has any. -/
def Bare (file : MyfsFile) : Prop :=
  parentFreesMissing file.parent = false ∧ file.children = []

theorem freesMissing_eq (file : MyfsFile) :
    freesMissing file =
      (parentFreesMissing file.parent || childrenFreeMissing file.children) := by
  cases file
  rw [freesMissing]

theorem Bare.freesMissing {file : MyfsFile} (h : Bare file) : freesMissing file = false := by
  rw [freesMissing_eq, h.1, h.2]
  rfl

theorem myfsFileFree_eq {β : Type} {file : MyfsFile} (h : freesMissing file = false)
    (next : Prog (Except Fault β)) : myfsFileFree file next = next := by
  rw [myfsFileFree, h]
  rfl

theorem myfsFileFree_ret {β : Type} (file : MyfsFile) (r : Except Fault β) :
    myfsFileFree file (.ret r) = .ret (if freesMissing file then .error .missingChild else r) := by
  unfold myfsFileFree
  split <;> rfl

theorem myfsFileFree_andThen {β γ : Type} (file : MyfsFile) (p : Prog (Except Fault β))
    (f : β → Prog (Except Fault γ)) :
    (myfsFileFree file p).andThen f = myfsFileFree file (p.andThen f) := by
  unfold myfsFileFree
  split <;> rfl

theorem walk_cons {file : MyfsFile} (h : freesMissing file = false) (env : Env)
    (includeChildren : Bool) (name : List Byte) (names : List (List Byte)) :
    walk env includeChildren (name :: names) (some file) =
      (myfsDbFileQueryName env name file.fileId includeChildren).andThen
        (walk env includeChildren names) := by
  rw [walk, myfsFileFree_eq h]

/-- What `queryFile` returns, whatever happens. -/
def BareOrOverflow : Except Fault (Option MyfsFile) → Prop
  | .ok file => ∀ x ∈ file, Bare x
  | .error e => e = .stackOverflow

theorem returns_queryFile (env : Env) (fuel id : ℕ) :
    (queryFile env fuel id).Returns BareOrOverflow := by
  induction fuel generalizing id with
  | zero => exact rfl
  | succ fuel ih =>
    intro res
    match res with
    | none => exact nofun
    | some none => exact nofun
    | some (some row) =>
      have hparent : (if id > 0 then queryFile env fuel row.parentId
          else .ret (.ok none)).Returns BareOrOverflow := by
        split
        · exact ih _
        · exact nofun
      refine hparent.bind fun r hr => ?_
      cases r with
      | error e => exact hr
      | ok parent =>
        rintro x ⟨⟩
        refine ⟨?_, rfl⟩
        cases parent with
        | none => rfl
        | some parent => exact (hr parent rfl).freesMissing

/-- What `queryFiles` returns, whatever happens. -/
def NoneMissingIn : Except Fault (List (Option MyfsFile)) → Prop
  | .ok children => ∀ child, some child ∈ children → freesMissing child = false
  | .error e => e = .stackOverflow

theorem returns_queryFiles (env : Env) (ids : List ℕ) :
    (queryFiles env ids).Returns NoneMissingIn := by
  induction ids with
  | nil => exact nofun
  | cons id ids ih =>
    refine (returns_queryFile env queryDepth id).bind fun r hr => ?_
    cases r with
    | error e => exact hr
    | ok file =>
      refine ih.bind fun r hrs => ?_
      cases r with
      | error e => exact hrs
      | ok children =>
        intro child hmem
        rcases List.mem_cons.mp hmem with heq | hmem
        · exact (hr child heq.symm).freesMissing
        · exact hrs child hmem

/-- A file that is fetched without its children is freed without a crash. -/
theorem returns_myfsDbFileQueryName (env : Env) (name : List Byte) (p : ℕ) :
    (myfsDbFileQueryName env name p false).Returns BareOrOverflow := by
  have hnone : BareOrOverflow (.ok none) := nofun
  intro res
  match res with
  | none => exact hnone
  | some [] => exact hnone
  | some (id :: _) =>
    apply (returns_queryFile env queryDepth id).andThen
    · exact fun e he => he
    · intro file hfile
      cases file with
      | none => exact hnone
      | some file => exact hfile

/-- What `myfs_file_get` returns, whatever happens: without the children the one thing that it crashes
on, but for the stack, is a missing file. The callbacks that look up a file so can free it. -/
theorem returns_myfsFileGet (env : Env) (path : List Byte) :
    (myfsFileGet env path false).Returns fun r => r = .error .nullPointer ∨ BareOrOverflow r := by
  have hwalk : ∀ names file, BareOrOverflow (.ok file) →
      (walk env false names file).Returns fun r => r = .error .nullPointer ∨ BareOrOverflow r := by
    intro names
    induction names with
    | nil => exact fun file hfile => .inr hfile
    | cons name names ih =>
      intro file hfile
      cases file with
      | none => exact .inl rfl
      | some file =>
        rw [walk_cons (hfile file rfl).freesMissing]
        apply (returns_myfsDbFileQueryName env name file.fileId).andThen
        · exact fun e he => .inr he
        · exact ih
  apply (returns_myfsDbFileQueryName env [] 0).andThen
  · exact fun e he => .inr he
  · exact hwalk _

/-! ## Looking up changes nothing -/

theorem readOnly_queryFile (env : Env) (fuel id : ℕ) : (queryFile env fuel id).ReadOnly := by
  induction fuel generalizing id with
  | zero => exact .ret _
  | succ fuel ih =>
    refine .query _ _ fun res => ?_
    match res with
    | none => exact .ret _
    | some none => exact .ret _
    | some (some row) =>
      refine Program.ReadOnly.andThen ?_ fun _ => .ret _
      split
      · exact ih _
      · exact .ret _

theorem readOnly_queryFiles (env : Env) (ids : List ℕ) : (queryFiles env ids).ReadOnly := by
  induction ids with
  | nil => exact .ret _
  | cons id ids ih =>
    exact (readOnly_queryFile _ _ _).andThen fun _ => ih.andThen fun _ => .ret _

theorem readOnly_myfsDbFileQueryChildren (env : Env) (file : MyfsFile) :
    (myfsDbFileQueryChildren env file).ReadOnly := by
  rw [myfsDbFileQueryChildren]
  split
  · exact .ret _
  · refine .query _ _ fun res => ?_
    cases res with
    | none => exact .ret _
    | some ids => exact (readOnly_queryFiles _ _).andThen fun _ => .ret _

theorem readOnly_myfsDbFileQuery (env : Env) (id : ℕ) (includeChildren : Bool) :
    (myfsDbFileQuery env id includeChildren).ReadOnly := by
  refine (readOnly_queryFile _ _ _).andThen fun file => ?_
  cases file with
  | none => exact .ret _
  | some file =>
    dsimp only
    split
    · exact (readOnly_myfsDbFileQueryChildren _ _).andThen fun _ => .ret _
    · exact .ret _

theorem readOnly_myfsDbFileQueryName (env : Env) (name : List Byte) (p : ℕ)
    (includeChildren : Bool) : (myfsDbFileQueryName env name p includeChildren).ReadOnly := by
  refine .query _ _ fun res => ?_
  match res with
  | none => exact .ret _
  | some [] => exact .ret _
  | some (id :: _) => exact readOnly_myfsDbFileQuery _ _ _

theorem readOnly_walk (env : Env) (includeChildren : Bool) (names : List (List Byte))
    (file : Option MyfsFile) : (walk env includeChildren names file).ReadOnly := by
  induction names generalizing file with
  | nil => exact .ret _
  | cons name names ih =>
    cases file with
    | none => exact .ret _
    | some file =>
      rw [walk, myfsFileFree]
      split
      · exact .ret _
      · exact (readOnly_myfsDbFileQueryName _ _ _ _).andThen fun _ => ih _

theorem readOnly_myfsFileGet (env : Env) (path : List Byte) (includeChildren : Bool) :
    (myfsFileGet env path includeChildren).ReadOnly :=
  (readOnly_myfsDbFileQueryName _ _ _ _).andThen fun _ => readOnly_walk _ _ _ _

/-! ## What a lookup finds, whatever fails -/

/-- A file that was found is the one that was looked for, and has a row. -/
def Finds (db : Database) (target : Option ℕ) (file : Option MyfsFile) : Prop :=
  ∀ x ∈ file, target = some x.fileId ∧ (db.files.row x.fileId).isSome

/-- The file that `myfs_file_get` looks for, from the one with an empty name in the root on. -/
def lookupPath (db : Database) (path : List Byte) : Option ℕ :=
  (db.lookup 0 []).bind fun root => db.resolveFrom root (strtok (path.drop 1))

theorem finds_none (db : Database) (target : Option ℕ) : Finds db target none := nofun

theorem ensures_queryFile (env : Env) (db : Database) (fuel id : ℕ) :
    (queryFile env fuel id).Ensures engine db
      fun r => ∀ file, r = .ok file → Finds db (some id) file := by
  induction fuel generalizing id with
  | zero => exact nofun
  | succ fuel ih =>
    have hnone : ∀ file : Option MyfsFile, (Except.ok none : Except Fault _) = .ok file →
        Finds db (some id) file := by
      intro file hfile
      cases hfile
      exact finds_none db _
    refine ⟨hnone, ?_⟩
    have hask : engine.ask (.file id) db = db.files.row id := rfl
    rw [hask]
    cases hr : db.files.row id with
    | none => exact hnone
    | some row =>
      refine Program.Ensures.andThen (R := fun _ => True) engine ?_ fun parent _ => ?_
      · split
        · exact Program.Ensures.mono engine (ih _) fun _ _ _ _ => trivial
        · exact fun _ _ => trivial
      · intro file hfile x hx
        cases hfile
        cases hx
        refine ⟨rfl, ?_⟩
        show (db.files.row id).isSome
        rw [hr]
        rfl

theorem ensures_myfsDbFileQueryName (env : Env) (db : Database) (name : List Byte) (p : ℕ) :
    (myfsDbFileQueryName env name p false).Ensures engine db
      fun r => ∀ file, r = .ok file → Finds db (db.lookup p name) file := by
  have hnone : ∀ file : Option MyfsFile, (Except.ok none : Except Fault _) = .ok file →
      Finds db (db.lookup p name) file := by
    intro file hfile
    cases hfile
    exact finds_none db _
  refine ⟨hnone, ?_⟩
  have hlookup : db.lookup p name = (engine.ask (.fileByName p name) db).head? := rfl
  rw [hlookup] at hnone ⊢
  generalize engine.ask (.fileByName p name) db = ids at hnone ⊢
  cases ids with
  | nil => exact hnone
  | cons id ids =>
    refine Program.Ensures.andThen engine (ensures_queryFile env db _ id) fun file hfile => ?_
    cases file with
    | none => exact hnone
    | some x =>
      intro file' hfile'
      cases hfile'
      exact hfile

theorem ensures_walk (env : Env) (db : Database) (front names : List (List Byte)) {start : ℕ}
    {file : Option MyfsFile}
    (hfile : Finds db (db.resolveFrom start front) file) :
    (walk env false names file).Ensures engine db
      fun r => ∀ file, r = .ok file → Finds db (db.resolveFrom start (front ++ names)) file := by
  induction names generalizing file front with
  | nil =>
    intro file' h
    cases h
    rwa [List.append_nil]
  | cons name names ih =>
    cases file with
    | none => exact nofun
    | some x =>
      rw [walk, myfsFileFree]
      split
      · exact nofun
      refine Program.Ensures.andThen engine (ensures_myfsDbFileQueryName env db name x.fileId)
        fun file' h => ?_
      rw [← List.singleton_append, ← List.append_assoc]
      apply ih
      intro y hy
      rw [resolveFrom_append, (hfile x rfl).1, Option.bind_some, resolveFrom, (h y hy).1]
      exact ⟨rfl, (h y hy).2⟩

/-- What `myfs_file_get` returns, if anything, is the file that it looks for. -/
theorem ensures_myfsFileGet (env : Env) (db : Database) (path : List Byte) :
    (myfsFileGet env path false).Ensures engine db
      fun r => ∀ file, r = .ok file → Finds db (lookupPath db path) file := by
  refine Program.Ensures.andThen engine (ensures_myfsDbFileQueryName env db [] 0) fun file h => ?_
  cases file with
  | none =>
    cases hnames : strtok (path.drop 1) with
    | nil =>
      intro file' hfile'
      cases hfile'
      exact finds_none db _
    | cons name names => exact nofun
  | some x =>
    rw [lookupPath, (h x rfl).1]
    exact ensures_walk env db [] _ fun y hy => by
      cases hy
      exact ⟨rfl, (h x rfl).2⟩

theorem lookupPath_eq (htree : db.Tree) (path : List Byte) :
    lookupPath db path = db.resolve (strtok (path.drop 1)) := by
  rw [lookupPath, htree.lookup_root, Option.bind_some, resolve]

/-! ## What a lookup can find -/

/-- A file that is there can be fetched, and then freed: without its parent. -/
theorem can_queryFile (env : Env) {r : FileRow} (hr : db.files.row id = some r) :
    ∃ x : MyfsFile, x.fileId = id ∧ freesMissing x = false ∧
      (queryFile env queryDepth id).Can engine db (.ok (some x)) := by
  have hask : engine.ask (.file id) db = some r := hr
  rw [show queryDepth = uintRange - 2 + 1 + 1 from rfl, queryFile]
  by_cases hpos : id > 0
  · -- the query for the parent fails
    refine ⟨fileOfRow env id r none, rfl, rfl, .inr ?_⟩
    rw [hask]
    dsimp only
    rw [if_pos hpos]
    apply Program.Can.andThen engine (a := none)
    · exact .inl rfl
    · rfl
  · refine ⟨fileOfRow env id r none, rfl, rfl, .inr ?_⟩
    rw [hask]
    dsimp only
    rw [if_neg hpos]
    rfl

theorem row_of_lookup {name : List Byte} (hl : db.lookup p name = some id) :
    (db.files.row id).isSome := by
  have hmem := List.mem_of_mem_head? (Option.mem_def.mpr hl)
  rw [Query.ask, List.mem_map] at hmem
  obtain ⟨⟨x, r⟩, hx, rfl⟩ := hmem
  rw [Table.mem_entries.mp (List.mem_of_mem_filter hx)]
  rfl

theorem can_myfsDbFileQueryName (env : Env) {name : List Byte} (hl : db.lookup p name = some id) :
    ∃ x : MyfsFile, x.fileId = id ∧ freesMissing x = false ∧
      (myfsDbFileQueryName env name p false).Can engine db (.ok (some x)) := by
  obtain ⟨r, hr⟩ := Option.isSome_iff_exists.mp (row_of_lookup hl)
  obtain ⟨x, hx, hfree, hcan⟩ := can_queryFile env hr
  refine ⟨x, hx, hfree, .inr ?_⟩
  have hlookup : (engine.ask (.fileByName p name) db).head? = some id := hl
  generalize engine.ask (.fileByName p name) db = ids at hlookup ⊢
  obtain ⟨ids', rfl⟩ := List.head?_eq_some_iff.mp hlookup
  apply Program.Can.andThen engine hcan
  rfl

theorem can_walk (env : Env) {names : List (List Byte)} {file : MyfsFile}
    (hfile : freesMissing file = false) (hres : db.resolveFrom file.fileId names = some id) :
    ∃ x : MyfsFile, x.fileId = id ∧ freesMissing x = false ∧
      (walk env false names (some file)).Can engine db (.ok (some x)) := by
  induction names generalizing file with
  | nil => exact ⟨file, Option.some.inj hres, hfile, rfl⟩
  | cons name names ih =>
    rw [resolveFrom, Option.bind_eq_some_iff] at hres
    obtain ⟨next, hl, hrest⟩ := hres
    obtain ⟨x, rfl, hx, hcan⟩ := can_myfsDbFileQueryName env hl
    obtain ⟨y, hy, hfree, hcan'⟩ := ih hx hrest
    refine ⟨y, hy, hfree, ?_⟩
    rw [walk_cons hfile]
    exact Program.Can.andThen engine hcan hcan'

/-- If there is a directory for the last name, it can be missed in it. -/
theorem can_walk_none (env : Env) {names : List (List Byte)} {name : List Byte} {file : MyfsFile}
    (hfile : freesMissing file = false) (hres : db.resolveFrom file.fileId names = some id) :
    (walk env false (names ++ [name]) (some file)).Can engine db (.ok none) := by
  induction names generalizing file with
  | nil =>
    rw [List.nil_append, walk_cons hfile]
    apply Program.Can.andThen engine (a := none)
    · exact .inl rfl
    · rfl
  | cons n names ih =>
    rw [resolveFrom, Option.bind_eq_some_iff] at hres
    obtain ⟨next, hl, hrest⟩ := hres
    obtain ⟨x, rfl, hx, hcan⟩ := can_myfsDbFileQueryName env hl
    rw [List.cons_append, walk_cons hfile]
    exact Program.Can.andThen engine hcan (ih hx hrest)

/-- What `myfs_file_get` looks for it can find, whatever else is in the database. -/
theorem can_myfsFileGet (env : Env) (hl : lookupPath db path = some id) :
    ∃ x : MyfsFile, x.fileId = id ∧ freesMissing x = false ∧
      (myfsFileGet env path false).Can engine db (.ok (some x)) := by
  rw [lookupPath, Option.bind_eq_some_iff] at hl
  obtain ⟨root, hroot, hres⟩ := hl
  obtain ⟨x, rfl, hx, hcan⟩ := can_myfsDbFileQueryName env hroot
  obtain ⟨y, hy, hfree, hcan'⟩ := can_walk env hx hres
  exact ⟨y, hy, hfree, Program.Can.andThen engine hcan hcan'⟩

/-- A file whose directory is there can be missed. -/
theorem can_myfsFileGet_none (env : Env) {dir : List Byte} {name : List Byte}
    (hpath : strtok (path.drop 1) = strtok (dir.drop 1) ++ [name])
    (hl : lookupPath db dir = some id) :
    (myfsFileGet env path false).Can engine db (.ok none) := by
  rw [lookupPath, Option.bind_eq_some_iff] at hl
  obtain ⟨root, hroot, hres⟩ := hl
  obtain ⟨x, rfl, hx, hcan⟩ := can_myfsDbFileQueryName env hroot
  apply Program.Can.andThen engine hcan
  rw [hpath]
  exact can_walk_none env hx hres

/-! ## One file -/

/-- A file in memory is what the database says of the file `id` and its ancestors. -/
inductive Describes (env : Env) (db : Database) : (id : ℕ) → MyfsFile → Prop
  | root {r : FileRow} (hr : db.files.row 0 = some r) : Describes env db 0 (fileOfRow env 0 r none)
  | child {id : ℕ} {r : FileRow} {parent : MyfsFile} (hr : db.files.row id = some r) (hne : id ≠ 0)
      (hp : Describes env db r.parentId parent) :
      Describes env db id (fileOfRow env id r (some parent))

theorem Describes.fileId_eq {file : MyfsFile} (h : Describes env db id file) : file.fileId = id := by
  cases h with
  | root hr => rfl
  | child hr hne hp => rfl

theorem Describes.freesMissing {file : MyfsFile} (h : Describes env db id file) :
    freesMissing file = false := by
  induction h with
  | root hr => rfl
  | child hr hne hp ih =>
    show (parentFreesMissing (some _) || childrenFreeMissing []) = false
    rw [parentFreesMissing, ih]
    rfl

theorem Describes.children_eq {file : MyfsFile} (h : Describes env db id file) :
    file.children = [] := by
  cases h with
  | root hr => rfl
  | child hr hne hp => rfl

/-- A child that has been fetched. -/
def Child (env : Env) (db : Database) (id : ℕ) (child : Option MyfsFile) : Prop :=
  ∃ file, child = some file ∧ Describes env db id file

theorem childrenFreeMissing_of_child {ids : List ℕ} {children : List (Option MyfsFile)}
    (h : List.Forall₂ (Child env db) ids children) : childrenFreeMissing children = false := by
  induction h with
  | nil => rfl
  | cons hchild _ ih =>
    obtain ⟨file, rfl, hfile⟩ := hchild
    rw [childrenFreeMissing, childFreesMissing, hfile.freesMissing, ih]
    rfl

theorem Describes.exists_row {file : MyfsFile} (h : Describes env db id file) :
    ∃ r parent, db.files.row id = some r ∧ file = fileOfRow env id r parent := by
  cases h with
  | root hr => exact ⟨_, _, hr, rfl⟩
  | child hr hne hp => exact ⟨_, _, hr, rfl⟩

theorem Describes.stSize {r : FileRow} {file : MyfsFile} (h : Describes env db id file)
    (hr : db.files.row id = some r) (htype : r.type = .file) : file.st.stSize = offT r.size := by
  obtain ⟨r', parent, hr', rfl⟩ := h.exists_row
  obtain rfl := Option.some.inj (hr.symm.trans hr')
  show r.stSize = _
  rw [FileRow.stSize, htype]

variable (env) in
theorem eval_queryFile (htree : db.Tree) {d fuel : ℕ} (hd : Rooted db d id) (hfuel : d < fuel) :
    ∃ file, (queryFile env fuel id).eval engine db = (.ok (some file), db) ∧
      Describes env db id file := by
  induction fuel generalizing d id with
  | zero => cases hfuel
  | succ fuel ih =>
    cases hd with
    | root =>
      obtain ⟨r, hr, -⟩ := htree.root
      have hask : engine.ask (.file 0) db = some r := hr
      refine ⟨fileOfRow env 0 r none, ?_, .root hr⟩
      rw [queryFile, Program.eval_query, hask]
      rfl
    | child hr hne hp =>
      rename_i d r
      have hask : engine.ask (.file id) db = some r := hr
      obtain ⟨parent, heval, hparent⟩ := ih hp (by omega)
      refine ⟨fileOfRow env id r (some parent), ?_, .child hr hne hparent⟩
      rw [queryFile, Program.eval_query, hask]
      dsimp only
      rw [if_pos (by omega), Program.eval_andThen_ok]
      exact ⟨_, _, heval, rfl⟩

section

variable (env) (htree : db.Tree) (hnext : db.files.next ≤ uintRange)
include htree hnext

theorem eval_myfsDbFileQuery (hid : (db.files.row id).isSome) :
    ∃ file, (myfsDbFileQuery env id false).eval engine db = (.ok (some file), db) ∧
      Describes env db id file := by
  obtain ⟨r, hr⟩ := Option.isSome_iff_exists.mp hid
  obtain ⟨d, hd⟩ := htree.rooted hr
  obtain ⟨file, heval, hfile⟩ :=
    eval_queryFile env htree hd ((htree.lt_next hd).trans_le hnext)
  refine ⟨file, ?_, hfile⟩
  rw [myfsDbFileQuery, Program.eval_andThen_ok]
  exact ⟨_, _, heval, rfl⟩

theorem eval_queryFiles {ids : List ℕ} (hids : ∀ id ∈ ids, (db.files.row id).isSome) :
    ∃ files, (queryFiles env ids).eval engine db = (.ok files, db) ∧
      List.Forall₂ (Child env db) ids files := by
  induction ids with
  | nil => exact ⟨[], rfl, .nil⟩
  | cons id ids ih =>
    obtain ⟨r, hr⟩ := Option.isSome_iff_exists.mp (hids id List.mem_cons_self)
    obtain ⟨d, hd⟩ := htree.rooted hr
    obtain ⟨file, heval, hfile⟩ := eval_queryFile env htree hd ((htree.lt_next hd).trans_le hnext)
    obtain ⟨files, hevals, hfiles⟩ := ih fun x hx => hids x (List.mem_cons_of_mem _ hx)
    refine ⟨some file :: files, ?_, .cons ⟨file, rfl, hfile⟩ hfiles⟩
    rw [queryFiles, Program.eval_andThen_ok]
    refine ⟨_, _, heval, ?_⟩
    rw [Program.eval_andThen_ok]
    exact ⟨_, _, hevals, rfl⟩

/-- On a tree the children of a file can be fetched, all of them. -/
theorem eval_myfsDbFileQueryChildren {file : MyfsFile} (hfile : Describes env db id file) :
    ∃ children, (myfsDbFileQueryChildren env file).eval engine db
      = (.ok { file with children := children }, db) ∧ childrenFreeMissing children = false := by
  unfold myfsDbFileQueryChildren
  split
  · refine ⟨file.children, ?_, ?_⟩
    · cases file
      rfl
    · rw [hfile.children_eq]
      rfl
  · have hids : ∀ x ∈ Query.ask (.children file.fileId) db, (db.files.row x).isSome := by
      intro x hx
      simp only [Query.ask, List.mem_map, mem_orderBy, List.mem_filter, Prod.exists,
        Table.mem_entries] at hx
      obtain ⟨x, r, ⟨hr, -⟩, rfl⟩ := hx
      rw [hr]
      rfl
    obtain ⟨files, hevals, hfiles⟩ := eval_queryFiles env htree hnext hids
    refine ⟨files, ?_, childrenFreeMissing_of_child hfiles⟩
    rw [Program.eval_query]
    show ((queryFiles env _).andThen _).eval engine db = _
    rw [Program.eval_andThen_ok]
    exact ⟨_, _, hevals, rfl⟩

/-- On a tree `myfs_db_file_query` ends, with or without the children. -/
theorem exists_eval_myfsDbFileQuery (hid : (db.files.row id).isSome) (includeChildren : Bool) :
    ∃ file, (myfsDbFileQuery env id includeChildren).eval engine db = (.ok (some file), db) := by
  obtain ⟨r, hr⟩ := Option.isSome_iff_exists.mp hid
  obtain ⟨d, hd⟩ := htree.rooted hr
  obtain ⟨file, heval, hfile⟩ := eval_queryFile env htree hd ((htree.lt_next hd).trans_le hnext)
  obtain ⟨children, hchildren, -⟩ := eval_myfsDbFileQueryChildren env htree hnext hfile
  cases includeChildren with
  | false =>
    refine ⟨file, ?_⟩
    rw [myfsDbFileQuery, Program.eval_andThen_ok]
    exact ⟨_, _, heval, rfl⟩
  | true =>
    refine ⟨{ file with children := children }, ?_⟩
    rw [myfsDbFileQuery, Program.eval_andThen_ok]
    refine ⟨_, _, heval, ?_⟩
    show ((myfsDbFileQueryChildren env file).andThen _).eval engine db = _
    rw [Program.eval_andThen_ok]
    exact ⟨_, _, hchildren, rfl⟩

theorem eval_myfsDbFileQueryName_some {name : List Byte} (hl : db.lookup p name = some id) :
    ∃ file, (myfsDbFileQueryName env name p false).eval engine db = (.ok (some file), db) ∧
      Describes env db id file := by
  obtain ⟨file, heval, hfile⟩ :=
    eval_myfsDbFileQuery env htree hnext (htree.row_of_lookup hl)
  refine ⟨file, ?_, hfile⟩
  obtain ⟨ids, hask⟩ : ∃ ids, engine.ask (.fileByName p name) db = id :: ids := by
    exact List.head?_eq_some_iff.mp hl
  rw [myfsDbFileQueryName, Program.eval_query, hask]
  exact heval

omit htree hnext in
theorem eval_myfsDbFileQueryName_none {name : List Byte} (hl : db.lookup p name = none) :
    (myfsDbFileQueryName env name p false).eval engine db = (.ok none, db) := by
  have hask : engine.ask (.fileByName p name) db = [] := List.head?_eq_none_iff.mp hl
  rw [myfsDbFileQueryName, Program.eval_query, hask]
  rfl

/-! ## Paths -/

theorem eval_walk_some {names : List (List Byte)} {file : MyfsFile} {id' : ℕ}
    (hfile : Describes env db id file) (hres : db.resolveFrom id names = some id') :
    ∃ file', (walk env false names (some file)).eval engine db = (.ok (some file'), db) ∧
      Describes env db id' file' := by
  induction names generalizing id file with
  | nil =>
    cases hres
    exact ⟨file, rfl, hfile⟩
  | cons name names ih =>
    rw [resolveFrom, Option.bind_eq_some_iff] at hres
    obtain ⟨x, hl, hres⟩ := hres
    obtain ⟨file₁, heval₁, hfile₁⟩ := eval_myfsDbFileQueryName_some env htree hnext hl
    obtain ⟨file', heval, hfile'⟩ := ih hfile₁ hres
    refine ⟨file', ?_, hfile'⟩
    rw [walk_cons hfile.freesMissing, hfile.fileId_eq, Program.eval_andThen_ok]
    exact ⟨_, _, heval₁, heval⟩

theorem eval_walk_none {names : List (List Byte)} {file : MyfsFile}
    (hfile : Describes env db id file) (hres : db.resolveFrom id names = none)
    (hdir : (db.resolveFrom id names.dropLast).isSome) :
    (walk env false names (some file)).eval engine db = (.ok none, db) := by
  induction names generalizing id file with
  | nil => cases hres
  | cons name names ih =>
    rw [walk_cons hfile.freesMissing, hfile.fileId_eq, Program.eval_andThen_ok]
    cases hl : db.lookup id name with
    | none =>
      refine ⟨none, db, eval_myfsDbFileQueryName_none env hl, ?_⟩
      cases names with
      | nil => rfl
      | cons name' names =>
        -- the directory does not lead anywhere either
        rw [List.dropLast_cons_cons, resolveFrom, hl] at hdir
        cases hdir
    | some x =>
      obtain ⟨file₁, heval₁, hfile₁⟩ := eval_myfsDbFileQueryName_some env htree hnext hl
      refine ⟨some file₁, db, heval₁, ?_⟩
      rw [resolveFrom, hl, Option.bind_some] at hres
      cases names with
      | nil => cases hres
      | cons name' names =>
        rw [List.dropLast_cons_cons, resolveFrom, hl, Option.bind_some] at hdir
        exact ih hfile₁ hres hdir

theorem eval_myfsFileGet_some (hres : db.resolve (strtok (path.drop 1)) = some id) :
    ∃ file, (myfsFileGet env path false).eval engine db = (.ok (some file), db) ∧
      Describes env db id file := by
  obtain ⟨root, heval₀, hroot⟩ :=
    eval_myfsDbFileQueryName_some env htree hnext htree.lookup_root
  obtain ⟨file, heval, hfile⟩ := eval_walk_some env htree hnext hroot hres
  refine ⟨file, ?_, hfile⟩
  rw [myfsFileGet, Program.eval_andThen_ok]
  exact ⟨_, _, heval₀, heval⟩

theorem eval_myfsFileGet_none (hres : db.resolve (strtok (path.drop 1)) = none)
    (hdir : (db.resolve (strtok (path.drop 1)).dropLast).isSome) :
    (myfsFileGet env path false).eval engine db = (.ok none, db) := by
  obtain ⟨root, heval₀, hroot⟩ :=
    eval_myfsDbFileQueryName_some env htree hnext htree.lookup_root
  rw [myfsFileGet, Program.eval_andThen_ok]
  exact ⟨_, _, heval₀, eval_walk_none env htree hnext hroot hres hdir⟩

end

end MyFS
