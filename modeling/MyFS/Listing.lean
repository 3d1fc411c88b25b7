import MyFS.Renames
import MyFS.Resolution

/-!
# Listing a directory

`myfs_opendir` fetches the children of a directory, and `myfs_readdir` lists them. On a tree
without interference these are the files that `myfs_file_get` finds in the directory, each of them
once and by name (`listing_agrees`).
-/

namespace MyFS

open Sql Database Text

variable {env : Env} {db : Database} {id d : ℕ} {r : FileRow} {path : List Byte}
  {includeChildren : Bool}

/-! ## `myfs_readdir` -/

/-- The name of a child in memory. -/
def childName : Option MyfsFile → Except Fault (List Byte)
  | none => .error .missingChild
  | some child => .ok child.name

/-- The names that `myfs_readdir` passes to `filler`. -/
def myfsReaddir (files : Files) (fh : Handle) : Except Fault (List (List Byte)) :=
  match files fh with
  | none => .error .nullPointer
  | some file =>
    (file.children.mapM childName).map fun names => ascii "." :: ascii ".." :: names

theorem myfsReaddir_update (files : Files) (fh : Handle) (file : MyfsFile) :
    myfsReaddir (Function.update files fh (some file)) fh =
      (file.children.mapM childName).map fun names => ascii "." :: ascii ".." :: names := by
  rw [myfsReaddir, Function.update_self]

theorem named_of_child (htree : db.Tree) {rows : List (ℕ × FileRow)}
    {children : List (Option MyfsFile)} (hrows : ∀ e ∈ rows, db.files.row e.1 = some e.2)
    (h : List.Forall₂ (Child env db) (rows.map Prod.fst) children) :
    List.Forall₂ (fun e child => ∃ x, child = some x ∧ x.name = e.2.name) rows children := by
  induction rows generalizing children with
  | nil =>
    cases h
    exact .nil
  | cons e rows ih =>
    cases h with
    | cons hchild hchildren =>
      refine .cons ?_ (ih (fun x hx => hrows x (List.mem_cons_of_mem _ hx)) hchildren)
      obtain ⟨file, rfl, hfile⟩ := hchild
      refine ⟨file, rfl, ?_⟩
      -- the name fits into the buffer
      have hr := hrows e List.mem_cons_self
      obtain ⟨r, parent, hr', rfl⟩ := hfile.exists_row
      obtain rfl := Option.some.inj (hr.symm.trans hr')
      exact List.take_of_length_le (htree.nameLe hr)

theorem mapM_childName {rows : List (ℕ × FileRow)} {children : List (Option MyfsFile)}
    (h : List.Forall₂ (fun e child => ∃ x, child = some x ∧ x.name = e.2.name) rows children) :
    children.mapM childName = .ok (rows.map fun e => e.2.name) := by
  induction h with
  | nil => rfl
  | cons hhead htail ih =>
    obtain ⟨x, rfl, hname⟩ := hhead
    rw [List.mapM_cons, ih, List.map_cons, ← hname]
    rfl

/-- A name is missing only if a child is. -/
theorem mapM_childName_cases (children : List (Option MyfsFile)) :
    children.mapM childName = .error .missingChild ∧ childrenFreeMissing children = true ∨
      ∃ names, children.mapM childName = .ok names := by
  induction children with
  | nil => exact .inr ⟨[], rfl⟩
  | cons child children ih =>
    rw [List.mapM_cons, childrenFreeMissing]
    cases child with
    | none => exact .inl ⟨rfl, rfl⟩
    | some child =>
      rcases ih with ⟨herror, hmissing⟩ | ⟨names, hnames⟩
      · rw [herror, hmissing, Bool.or_true]
        exact .inl ⟨rfl, rfl⟩
      · rw [hnames]
        exact .inr ⟨_, rfl⟩

theorem exists_mapM_childName {file : MyfsFile} (h : freesMissing file = false) :
    ∃ names, file.children.mapM childName = .ok names := by
  rw [freesMissing_eq, Bool.or_eq_false_iff] at h
  rcases mapM_childName_cases file.children with ⟨-, hmissing⟩ | hnames
  · rw [h.2] at hmissing
    cases hmissing
  · exact hnames

/-! ## The children of a directory -/

/-- The rows of the children of `d`, by name. -/
structure Children (db : Database) (d : ℕ) (rows : List (ℕ × FileRow)) : Prop where
  mem : ∀ id r, (id, r) ∈ rows ↔ db.files.row id = some r ∧ r.parentId = d ∧ id ≠ 0
  sorted : rows.Pairwise fun a b => a.2.name.map UInt8.toNat < b.2.name.map UInt8.toNat

/-- Files with the same name have different parents. -/
theorem nodup_names (htree : db.Tree) {rows : List (ℕ × FileRow)} (hsub : rows.Sublist db.files.entries)
    (hparent : ∀ e ∈ rows, e.2.parentId = d) :
    (rows.map fun e => e.2.name.map UInt8.toNat).Nodup := by
  rw [List.Nodup, List.pairwise_map]
  refine ((Table.pairwise_entries _).sublist hsub).imp_of_mem fun {a b} ha hb hlt heq => ?_
  have hname : a.2.name = b.2.name :=
    List.map_injective_iff.mpr (fun _ _ => UInt8.toNat_inj.mp) heq
  have hpar : a.2.parentId = b.2.parentId := (hparent a ha).trans (hparent b hb).symm
  have hid := htree.unique (Table.mem_entries.mp (hsub.subset ha))
    (Table.mem_entries.mp (hsub.subset hb)) hpar hname
  omega

theorem exists_children (htree : db.Tree) (d : ℕ) :
    ∃ rows, Children db d rows ∧ engine.ask (.children d) db = rows.map Prod.fst := by
  refine ⟨_, ⟨fun id r => ?_, ?_⟩, rfl⟩
  · simp only [mem_orderBy, List.mem_filter, Table.mem_entries, decide_eq_true_eq]
  · apply pairwise_lt_orderBy
    apply nodup_names htree (d := d) List.filter_sublist
    intro e he
    exact (of_decide_eq_true (List.mem_filter.mp he).2).1

/-- A name is found in a directory if a child has it. -/
theorem Children.lookup_eq_some_iff {rows : List (ℕ × FileRow)} (h : Children db d rows)
    (htree : db.Tree) {name : List Byte} (hne : name ≠ []) :
    db.lookup d name = some id ↔ ∃ r, (id, r) ∈ rows ∧ r.name = name := by
  rw [htree.lookup_eq_some_iff]
  constructor
  · rintro ⟨r, hr, hp, hname⟩
    refine ⟨r, (h.mem id r).mpr ⟨hr, hp, ?_⟩, hname⟩
    rintro rfl
    -- the root has no name
    obtain ⟨r₀, hr₀, -, hname₀⟩ := htree.root
    obtain rfl := Option.some.inj (hr.symm.trans hr₀)
    exact hne (hname.symm.trans hname₀)
  · rintro ⟨r, hmem, hname⟩
    obtain ⟨hr, hp, -⟩ := (h.mem id r).mp hmem
    exact ⟨r, hr, hp, hname⟩

theorem Children.mem_names_iff {rows : List (ℕ × FileRow)} (h : Children db d rows)
    (htree : db.Tree) {name : List Byte} (hne : name ≠ []) :
    name ∈ rows.map (fun e => e.2.name) ↔ (db.lookup d name).isSome = true := by
  rw [Option.isSome_iff_exists, List.mem_map]
  simp only [h.lookup_eq_some_iff htree hne]
  constructor
  · rintro ⟨e, he, hname⟩
    exact ⟨e.1, e.2, he, hname⟩
  · rintro ⟨id, r, he, hname⟩
    exact ⟨(id, r), he, hname⟩

/-- A directory is listed with `.` and `..` and then its children by name, each of them once. These
are the names that can be looked up in it, and they lead to the same files. -/
def ListingAgrees (env : Env) (path : List Byte) (d : ℕ) (s : Conn Unit)
    (names : Except Fault (List (List Byte))) : Prop :=
  ∃ rows, Children s.committed d rows ∧
    names = .ok (ascii "." :: ascii ".." :: rows.map fun e => e.2.name) ∧
    ∀ name, name ≠ [] → slash ∉ name → ∀ includeChildren, ∃ file,
      (Sql.run engine () (myfsFileGet env (path ++ slash :: name) includeChildren) noFailure
        s).result = .ok file ∧
      (name ∈ rows.map (fun e => e.2.name) ↔ file.isSome = true) ∧
      ∀ e ∈ rows, e.2.name = name → ∃ x, file = some x ∧ Fetched env s.committed e.1 x

/-! ## Fetching them -/

theorem eval_myfsDbFileQueryName_of_lookup (env : Env) {p : ℕ} {name : List Byte} {file : MyfsFile}
    (hl : db.lookup p name = some id)
    (hquery : (myfsDbFileQuery env id includeChildren).eval engine db = (.ok (some file), db)) :
    (myfsDbFileQueryName env name p includeChildren).eval engine db = (.ok (some file), db) := by
  obtain ⟨ids, hask⟩ : ∃ ids, engine.ask (.fileByName p name) db = id :: ids :=
    List.head?_eq_some_iff.mp hl
  rw [myfsDbFileQueryName, Program.eval_query, hask]
  exact hquery

section

variable (env) (htree : db.Tree) (hnext : db.files.next ≤ uintRange)
include htree hnext

/-- A directory is fetched with its children. -/
theorem eval_myfsDbFileQuery_children (hr : db.files.row d = some r) (htype : r.type = .directory) :
    ∃ file rows, (myfsDbFileQuery env d true).eval engine db = (.ok (some file), db) ∧
      Fetched env db d file ∧ Children db d rows ∧
      List.Forall₂ (fun e child => ∃ x, child = some x ∧ x.name = e.2.name) rows file.children := by
  obtain ⟨depth, hd⟩ := htree.rooted hr
  obtain ⟨bare, heval, hbare⟩ := eval_queryFile env htree hd ((htree.lt_next hd).trans_le hnext)
  obtain ⟨rows, hrows, hask⟩ := exists_children htree d
  have hmem : ∀ e ∈ rows, db.files.row e.1 = some e.2 := fun e he => ((hrows.mem e.1 e.2).mp he).1
  have hids : ∀ id ∈ rows.map Prod.fst, (db.files.row id).isSome := by
    intro id hid
    obtain ⟨e, he, rfl⟩ := List.mem_map.mp hid
    rw [hmem e he]
    rfl
  obtain ⟨files, hevals, hfiles⟩ := eval_queryFiles env htree hnext hids
  have hdir : bare.type = .directory := by
    obtain ⟨r', parent, hr', rfl⟩ := hbare.exists_row
    obtain rfl := Option.some.inj (hr.symm.trans hr')
    exact htype
  refine ⟨{ bare with children := files }, rows, ?_,
    ⟨bare, files, hbare, childrenFreeMissing_of_child hfiles, rfl⟩, hrows,
    named_of_child htree hmem hfiles⟩
  rw [myfsDbFileQuery, Program.eval_andThen_ok]
  refine ⟨_, _, heval, ?_⟩
  dsimp only
  rw [if_pos rfl, Program.eval_andThen_ok]
  refine ⟨_, _, ?_, rfl⟩
  rw [myfsDbFileQueryChildren, if_neg (not_not.mpr hdir), hbare.fileId_eq, Program.eval_query, hask]
  dsimp only
  rw [Program.eval_andThen_ok]
  exact ⟨_, _, hevals, rfl⟩

/-- What `myfs_file_get` returns is what is fetched for the file that the path leads to. -/
theorem eval_myfsFileGet_of_resolve {file : MyfsFile} (hres : db.resolve (components path) = some id)
    (hquery : (myfsDbFileQuery env id includeChildren).eval engine db = (.ok (some file), db)) :
    (myfsFileGet env path includeChildren).eval engine db = (.ok (some file), db) := by
  rw [myfsFileGet, Program.eval_andThen_ok]
  show ∃ root s, _ ∧ (walk env includeChildren (components path) root).eval engine s = _
  rcases List.eq_nil_or_concat' (components path) with hnil | ⟨front, name, hconcat⟩
  · rw [hnil] at hres ⊢
    obtain rfl : 0 = id := Option.some.inj hres
    exact ⟨_, _, eval_myfsDbFileQueryName_of_lookup env htree.lookup_root hquery, rfl⟩
  · rw [hconcat] at hres ⊢
    rw [resolve_append_singleton, Option.bind_eq_some_iff] at hres
    obtain ⟨p, hfront, hl⟩ := hres
    -- down to the directory of the last name
    obtain ⟨root, heval₀, hroot⟩ :=
      eval_myfsDbFileQueryName_fetched env htree hnext 0 [] includeChildren
    rw [htree.lookup_root] at hroot
    obtain ⟨rootFile, rfl, hroot⟩ := hroot
    have hway : (db.resolveFrom 0 front.dropLast).isSome :=
      resolve_of_prefix (List.dropLast_prefix front) (by rw [hfront]; rfl)
    obtain ⟨dir, hevals, hdir⟩ := eval_walk_fetched env htree hnext hroot hway
    rw [← resolve, hfront] at hdir
    obtain ⟨x, rfl, hx⟩ := hdir
    refine ⟨_, _, heval₀, ?_⟩
    rw [walk_append, Program.eval_andThen_ok]
    refine ⟨_, _, hevals, ?_⟩
    rw [walk_cons hx.freesMissing, hx.fileId_eq, Program.eval_andThen_ok]
    exact ⟨_, _, eval_myfsDbFileQueryName_of_lookup env hl hquery, rfl⟩

end

/-! ## Listing and lookup -/

theorem components_append_slash {name : List Byte} (hslash : slash ∉ name) (hne : name ≠ []) :
    components (path ++ slash :: name) = components path ++ [name] := by
  unfold components
  cases path with
  | nil => exact strtok_of_not_mem hslash hne
  | cons c rest =>
    rw [List.cons_append, List.drop_one, List.drop_one, List.tail_cons, List.tail_cons,
      strtok_append_slash, strtok_of_not_mem hslash hne]

/-- A name is looked up in a directory, in a tree without interference. -/
theorem run_myfsFileGet_child (env : Env) (htree : db.Tree) (hnext : db.files.next ≤ uintRange)
    {s : Conn Unit} (hvis : s.visible = db) (hdir : db.resolve (components path) = some d)
    {rows : List (ℕ × FileRow)} (hrows : Children db d rows) {name : List Byte} (hne : name ≠ [])
    (hslash : slash ∉ name) (includeChildren : Bool) :
    ∃ file, (Sql.run engine () (myfsFileGet env (path ++ slash :: name) includeChildren) noFailure
        s).result = .ok file ∧
      (name ∈ rows.map (fun e => e.2.name) ↔ file.isSome = true) ∧
      ∀ e ∈ rows, e.2.name = name → ∃ x, file = some x ∧ Fetched env db e.1 x := by
  have hcomp : components (path ++ slash :: name) = components path ++ [name] :=
    components_append_slash hslash hne
  have hway : (db.resolve (components (path ++ slash :: name)).dropLast).isSome := by
    rw [hcomp, List.dropLast_concat, hdir]
    rfl
  obtain ⟨file, hget, hfound, hmissing⟩ :=
    (resolvesPath_iff env includeChildren _ htree hnext).mpr hway
  rw [exists_prefix_resolve_none] at hmissing
  rw [hcomp, resolve_append_singleton, hdir, Option.bind_some] at hfound hmissing
  refine ⟨file, ?_, ?_, ?_⟩
  · rw [run_readOnly_noFailure engine () (readOnly_myfsFileGet _ _ _) s, hvis, hget]
  · rw [hrows.mem_names_iff htree hne, Option.isSome_iff_ne_none, Option.isSome_iff_ne_none, ne_eq,
      ne_eq, hmissing]
  · intro e he hname
    exact hfound e.1 ((hrows.lookup_eq_some_iff htree hne).mpr ⟨e.2, he, hname⟩)

/-- A directory that has been opened is listed with what can be looked up in it. -/
theorem listing_agrees (env : Env) (files : Files) (htree : db.Tree)
    (hnext : db.files.next ≤ uintRange) {s : Conn Unit} (hwork : s.working = none)
    (hcom : s.committed = db) (hdir : db.resolve (components path) = some d)
    (hr : db.files.row d = some r) (htype : r.type = .directory) :
    ∃ opened, (Sql.run engine () (myfsOpendir env path files) noFailure s).result = .ok opened ∧
      opened.fh = freeHandle files ∧ ∀ fh ∈ freeHandle files, opened.ret = 0 ∧
        ListingAgrees env path d s (myfsReaddir opened.files fh) := by
  have hvis : s.visible = db := by rw [Session.visible_of_none hwork, hcom]
  obtain ⟨file, rows, heval, -, hrows, hchildren⟩ :=
    eval_myfsDbFileQuery_children env htree hnext hr htype
  have hget := eval_myfsFileGet_of_resolve env htree hnext hdir heval
  unfold myfsOpendir myfsOpenHelper
  cases hfree : freeHandle files with
  | none => exact ⟨.failed emfile files, rfl, rfl, nofun⟩
  | some fh =>
    refine ⟨⟨0, Function.update files fh (some file), some fh⟩, ?_, rfl, ?_⟩
    · obtain ⟨s₁, -, -, hres, -⟩ := run_myfsFileGet_andThen hwork hcom hget _
      exact hres
    · rintro fh' ⟨⟩
      subst hcom
      refine ⟨rfl, rows, hrows, ?_, fun name hne hslash includeChildren => ?_⟩
      · rw [myfsReaddir_update, mapM_childName hchildren]
        rfl
      · exact run_myfsFileGet_child env htree hnext hvis hdir hrows hne hslash includeChildren

/-- The root directory with two directories in it, opened with the first handle. -/
theorem listing_agrees_twoDirectories :
    ∃ opened, (Sql.run engine () (myfsOpendir nobody (ascii "/") fun _ => none) noFailure
        (Session.idle twoDirectories)).result = .ok opened ∧
      opened.fh = some firstHandle ∧ opened.ret = 0 ∧
        ListingAgrees nobody (ascii "/") 0 (Session.idle twoDirectories)
          (myfsReaddir opened.files firstHandle) := by
  have hdir : twoDirectories.resolve (components (ascii "/")) = some 0 := by decide +kernel
  have hr : twoDirectories.files.row 0 = some rootRow := rfl
  obtain ⟨opened, hres, hfh, hlist⟩ := listing_agrees nobody (fun _ => none) tree_twoDirectories
    (by decide) (s := Session.idle twoDirectories) rfl rfl hdir hr rfl
  have hfree : freeHandle (fun _ => none) = some firstHandle := by decide
  obtain ⟨hret, hagrees⟩ := hlist firstHandle hfree
  exact ⟨opened, hres, hfh.trans hfree, hret, hagrees⟩

end MyFS
