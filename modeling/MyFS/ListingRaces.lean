import MyFS.Listing
import MyFS.Sql.Timeline

/-!
# Listing a directory while it changes

The children of a directory are fetched one by one, after the query for their ids. A child that is
missed stays in the array as a missing file, and whoever walks the array uses it: `myfs_readdir`, and
`myfs_file_free`, also for the directories that `myfs_file_get` passes on its way. The result set of
the query for the ids is used even if the query has failed. `safe_iff` says for any interleaving with
other mounts when neither happens.
-/

namespace MyFS

open Sql Database Text

/-! ## The condition -/

/-- Each of the files is there when its row is queried, and the query is answered. -/
def ThereInTurn (env : Env) : List ℕ → List (Option Database) → Prop
  | [], _ => True
  | id :: ids, times =>
    (∃ db rest, times = some db :: rest ∧ (db.files.row id).isSome = true) ∧
      ∀ file rest, (queryFile env queryDepth id).read engine times = some (.ok file, rest) →
        ThereInTurn env ids rest

/-- A query for the children of a directory is answered, and they are all there until they have been
fetched. -/
def KeepsChildren (env : Env) : Query → List (Option Database) → Prop
  | .children d, times => ∃ db rest, times = some db :: rest ∧
      ThereInTurn env (engine.ask (.children d) db) rest
  | _, _ => True

/-- A step of a callback has found what satisfies `W`, or has crashed on something else than a
missing child or result set. -/
def Sound {β : Type} (W : β → Prop) : Except Fault β → Prop
  | .ok b => W b
  | .error e => e ≠ .missingResult ∧ e ≠ .missingChild

variable {env : Env} {id : ℕ} {path : List Byte} {times rest : List (Option Database)}

/-! ## One file after another -/

/-- A file is found if its row is there at the first query. -/
theorem read_queryFile {file : Option MyfsFile}
    (h : (queryFile env queryDepth id).read engine times = some (.ok file, rest)) :
    file.isSome = true ↔
      ∃ db rest, times = some db :: rest ∧ (db.files.row id).isSome = true := by
  rw [show queryDepth = uintRange - 1 + 1 from rfl, queryFile] at h
  rcases times with - | ⟨- | db, times⟩
  · cases h
  · cases h
    apply iff_of_false Bool.false_ne_true
    rintro ⟨db, rest, ⟨⟩, -⟩
  · have hrow : (∃ db' rest, some db :: times = some db' :: rest ∧
        (db'.files.row id).isSome = true) ↔ (db.files.row id).isSome = true := by
      constructor
      · rintro ⟨db', rest, ⟨⟩, hr⟩
        exact hr
      · intro hr
        exact ⟨db, times, rfl, hr⟩
    rw [hrow]
    rw [Program.read, Option.map_some] at h
    have hask : engine.ask (.file id) db = db.files.row id := rfl
    rw [hask] at h
    cases hr : db.files.row id with
    | none =>
      rw [hr] at h
      cases h
      exact Iff.rfl
    | some row =>
      rw [hr] at h
      apply iff_of_true _ rfl
      obtain ⟨e, he, -⟩ | ⟨parent, next, -, hend⟩ := Program.read_andThen_eq_some_iff.mp h
      · cases he
      · cases hend
        rfl

theorem read_queryFiles {ids : List ℕ} {children : List (Option MyfsFile)}
    (h : (queryFiles env ids).read engine times = some (.ok children, rest)) :
    none ∉ children ↔ ThereInTurn env ids times := by
  induction ids generalizing times children with
  | nil =>
    cases h
    exact iff_of_true List.not_mem_nil trivial
  | cons id ids ih =>
    obtain ⟨e, he, -⟩ | ⟨child, next, hchild, h⟩ := Program.read_andThen_eq_some_iff.mp h
    · cases he
    obtain ⟨e, he, -⟩ | ⟨others, next', hothers, h⟩ := Program.read_andThen_eq_some_iff.mp h
    · cases he
    cases h
    rw [List.mem_cons, not_or, ih hothers, ThereInTurn, ← read_queryFile hchild,
      ← Option.ne_none_iff_isSome, ne_comm, hchild]
    apply and_congr_right
    intro _
    constructor
    · rintro hrest file rest ⟨⟩
      exact hrest
    · intro hall
      exact hall child next rfl

/-! ## Only the queries for children matter -/

theorem meets_queryFile (env : Env) (fuel id : ℕ) (times : List (Option Database)) :
    (queryFile env fuel id).Meets engine (KeepsChildren env) times := by
  induction fuel generalizing id times with
  | zero => trivial
  | succ fuel ih =>
    cases times with
    | nil => trivial
    | cons time times =>
      refine ⟨trivial, ?_⟩
      rcases Option.map (engine.ask (.file id)) time with - | - | row
      · trivial
      · trivial
      · refine (Program.meets_andThen _ _ _).mpr ⟨?_, fun _ _ _ => trivial⟩
        split
        · exact ih _ _
        · trivial

theorem meets_queryFiles (env : Env) (ids : List ℕ) (times : List (Option Database)) :
    (queryFiles env ids).Meets engine (KeepsChildren env) times := by
  induction ids generalizing times with
  | nil => trivial
  | cons id ids ih =>
    refine (Program.meets_andThen _ _ _).mpr ⟨meets_queryFile env _ _ _, fun _ _ _ => ?_⟩
    exact (Program.meets_andThen _ _ _).mpr ⟨ih _, fun _ _ _ => trivial⟩

section

variable {β γ : Type} {p : Prog (Except Fault β)} {W : β → Prop} {W' : γ → Prop}

/-! ## One step after another -/

/-- Unless the stack overflows, it is `KeepsChildren` that decides whether the step is sound. -/
def Exact (env : Env) (W : β → Prop) (p : Prog (Except Fault β)) : Prop :=
  ∀ times r rest, p.read engine times = some (r, rest) → r ≠ .error .stackOverflow →
    (p.Meets engine (KeepsChildren env) times ↔ Sound W r)

theorem exact_ret {b : β} (h : W b) : Exact env W (.ret (.ok b)) := by
  rintro times r rest ⟨⟩ -
  exact iff_of_true trivial h

/-- What has been found is looked at by the next step. -/
theorem Exact.andThen {f : β → Prog (Except Fault γ)}
    (hp : Exact env W p) (hf : ∀ b, W b → Exact env W' (f b))
    (hbad : ∀ b, ¬W b → ∀ times r rest, (f b).read engine times = some (r, rest) → ¬Sound W' r) :
    Exact env W' (p.andThen f) := by
  intro times r rest hread hne
  rw [Program.meets_andThen]
  obtain ⟨e, rfl, he⟩ | ⟨b, next, hb, hr⟩ := Program.read_andThen_eq_some_iff.mp hread
  · have hmeets := hp times _ rest he fun h => hne (congrArg _ (Except.error.inj h))
    rw [hmeets, he]
    exact ⟨And.left, fun h => ⟨h, nofun⟩⟩
  · rw [hp times _ next hb nofun, hb]
    by_cases hW : W b
    · rw [← hf b hW next r rest hr hne]
      constructor
      · rintro ⟨-, h⟩
        exact h b next rfl
      · intro h
        refine ⟨hW, ?_⟩
        rintro b' next' ⟨⟩
        exact h
    · exact iff_of_false (fun h => hW h.1) (hbad b hW next r rest hr)

/-- A step in front that can only fail by an overflow. -/
theorem exact_andThen_of_returns {R : Except Fault β → Prop} {f : β → Prog (Except Fault γ)}
    (hmeets : ∀ times, p.Meets engine (KeepsChildren env) times) (hp : p.Returns R)
    (herror : ∀ e, R (.error e) → e = .stackOverflow)
    (hf : ∀ b, R (.ok b) → Exact env W' (f b)) : Exact env W' (p.andThen f) := by
  intro times r rest hread hne
  rw [Program.meets_andThen]
  obtain ⟨e, rfl, he⟩ | ⟨b, next, hb, hr⟩ := Program.read_andThen_eq_some_iff.mp hread
  · obtain rfl := herror e (hp.read he)
    exact absurd rfl hne
  · have hW : R (.ok b) := hp.read hb
    rw [← hf b hW next r rest hr hne, hb]
    constructor
    · rintro ⟨-, h⟩
      exact h b next rfl
    · intro h
      refine ⟨hmeets times, ?_⟩
      rintro b' next' ⟨⟩
      exact h

end

/-! ## The lookup -/

/-- The children are all there, or freeing the directory crashes. -/
theorem thereInTurn_iff_sound {file : MyfsFile} {ids : List ℕ} {r : Except Fault MyfsFile}
    (hfile : Bare file)
    (hread : ((queryFiles env ids).andThen fun children =>
      .ret (.ok { file with children := children })).read engine times = some (r, rest))
    (hne : r ≠ .error .stackOverflow) :
    ThereInTurn env ids times ↔ Sound (fun file => freesMissing file = false) r := by
  obtain ⟨e, rfl, he⟩ | ⟨children, next, hchildren, hr⟩ :=
    Program.read_andThen_eq_some_iff.mp hread
  · obtain rfl : e = .stackOverflow := (returns_queryFiles env ids).read he
    exact absurd rfl hne
  · have hreturns := (returns_queryFiles env ids).read hchildren
    cases hr
    rw [← read_queryFiles hchildren]
    show _ ↔ freesMissing { file with children := children } = false
    rw [freesMissing_eq, hfile.1, Bool.false_or, ← Bool.not_eq_true,
      childrenFreeMissing_iff hreturns]

theorem exact_queryChildren (env : Env) {file : MyfsFile} (hfile : Bare file) :
    Exact env (fun file => freesMissing file = false) (myfsDbFileQueryChildren env file) := by
  unfold myfsDbFileQueryChildren
  split
  · exact exact_ret hfile.freesMissing
  · intro times r rest hread hne
    rcases times with - | ⟨- | db, times⟩
    · cases hread
    · -- the query fails
      cases hread
      apply iff_of_false
      · rintro ⟨⟨db, rest, ⟨⟩, -⟩, -⟩
      · exact fun h => h.1 rfl
    · have hread : ((queryFiles env _).andThen fun children =>
          .ret (.ok { file with children := children })).read engine times = some (r, rest) := hread
      rw [← thereInTurn_iff_sound hfile hread hne]
      constructor
      · rintro ⟨⟨db', rest', ⟨⟩, hall⟩, -⟩
        exact hall
      · intro hall
        refine ⟨⟨db, times, rfl, hall⟩, ?_⟩
        apply (Program.meets_andThen _ _ _).mpr
        exact ⟨meets_queryFiles env _ _, fun _ _ _ => trivial⟩

/-- What has been fetched can be freed. -/
abbrev Whole (file : Option MyfsFile) : Prop := parentFreesMissing file = false

theorem exact_query (env : Env) (id : ℕ) : Exact env Whole (myfsDbFileQuery env id true) := by
  apply exact_andThen_of_returns (meets_queryFile env _ _) (returns_queryFile env _ _)
  · exact fun e he => he
  · intro file hfile
    cases file with
    | none => exact exact_ret rfl
    | some file =>
      apply (exact_queryChildren env (hfile file rfl)).andThen
      · exact fun file' hfile' => exact_ret hfile'
      · rintro file' hfile' times r rest ⟨⟩
        exact hfile'

theorem exact_queryName (env : Env) (name : List Byte) (parentId : ℕ) :
    Exact env Whole (myfsDbFileQueryName env name parentId true) := by
  have hnone : Exact env Whole (.ret (.ok none) : Prog (Except Fault (Option MyfsFile))) :=
    exact_ret rfl
  intro times r rest hread hne
  cases times with
  | nil => cases hread
  | cons time times =>
    show True ∧ _ ↔ _
    rw [true_and]
    rw [myfsDbFileQueryName, Program.read] at hread
    revert hread
    rcases Option.map (engine.ask (.fileByName parentId name)) time with - | - | ⟨id, ids⟩
    · exact fun hread => hnone _ _ _ hread hne
    · exact fun hread => hnone _ _ _ hread hne
    · exact fun hread => exact_query env id _ _ _ hread hne

/-- A directory with a missing child is freed, or returned. -/
theorem not_sound_walk {names : List (List Byte)} {file : Option MyfsFile}
    {r : Except Fault (Option MyfsFile)} (hfile : ¬Whole file)
    (h : (walk env true names file).read engine times = some (r, rest)) : ¬Sound Whole r := by
  cases names with
  | nil =>
    cases h
    exact hfile
  | cons name names =>
    cases file with
    | none => exact absurd rfl hfile
    | some file =>
      have hmissing : freesMissing file = true := by
        rwa [Whole, parentFreesMissing, Bool.not_eq_false] at hfile
      rw [walk, myfsFileFree, if_pos hmissing] at h
      cases h
      exact fun h => h.2 rfl

theorem exact_walk (env : Env) (names : List (List Byte)) {file : Option MyfsFile}
    (hfile : Whole file) : Exact env Whole (walk env true names file) := by
  induction names generalizing file with
  | nil => exact exact_ret hfile
  | cons name names ih =>
    cases file with
    | none =>
      rintro times r rest ⟨⟩ -
      exact iff_of_true trivial ⟨nofun, nofun⟩
    | some file =>
      rw [walk_cons hfile]
      apply (exact_queryName env name file.fileId).andThen
      · exact fun next hnext => ih hnext
      · exact fun next hnext times r rest h => not_sound_walk hnext h

theorem exact_myfsFileGet (env : Env) (path : List Byte) :
    Exact env Whole (myfsFileGet env path true) := by
  apply (exact_queryName env [] 0).andThen
  · exact fun root hroot => exact_walk env _ hroot
  · exact fun root hroot times r rest h => not_sound_walk hroot h

/-! ## The callbacks -/

/-- `myfs_opendir`, and if that has succeeded `myfs_readdir` and `myfs_releasedir`. -/
def listDirectory (env : Env) (path : List Byte) (files : Files) : Prog (Except Fault ℤ) :=
  (myfsOpendir env path files).andThen fun opened =>
    match opened.fh with
    | none => .ret (.ok opened.ret)
    | some fh =>
      .ret ((myfsReaddir opened.files fh).bind fun _ =>
        (myfsReleasedir fh opened.files).map Prod.fst)

/-- What is done with a directory that has been looked up: it is freed, with a result, and crashes
on a missing child. -/
def listFile : Option MyfsFile → Prog (Except Fault ℤ)
  | none => .ret (.ok (-enoent))
  | some file => myfsFileFree file (.ret (.ok 0))

theorem listDirectory_eq {files : Files} {fh : Handle} (hfree : freeHandle files = some fh)
    (env : Env) (path : List Byte) :
    listDirectory env path files = (myfsFileGet env path true).andThen listFile := by
  unfold listDirectory myfsOpendir myfsOpenHelper
  rw [hfree]
  dsimp only
  rw [Program.andThen_andThen]
  congr 1
  funext file
  cases file with
  | none => rfl
  | some file =>
    show Program.ret ((myfsReaddir (Function.update files fh (some file)) fh).bind fun _ =>
      (myfsReleasedir fh (Function.update files fh (some file))).map Prod.fst) = _
    rw [listFile, myfsFileFree_ret, myfsReaddir_update, myfsReleasedir, myfsReleaseHelper,
      Function.update_self]
    congr 1
    rcases mapM_childName_cases file.children with ⟨herror, hmissing⟩ | ⟨names, hnames⟩
    · rw [herror, freesMissing_eq, hmissing, Bool.or_true]
      rfl
    · rw [hnames]
      show Except.map _ (Except.map _ (if _ then _ else _)) = _
      split <;> rfl

/-- What `myfs_rmdir` does with the directory that it has looked up. -/
def removeFile : Option MyfsFile → Prog (Except Fault ℤ)
  | none => .ret (.ok (-enoent))
  | some file =>
    if file.fileId = 0 then myfsFileFree file (.ret (.ok (-eperm)))
    else if file.children.length > 0 then myfsFileFree file (.ret (.ok (-enotempty)))
    else
      myfsDbFileDelete file.fileId >>= fun success =>
        myfsFileFree file (.ret (.ok (if success then 0 else -eio)))

theorem myfsRmdir_eq (env : Env) (path : List Byte) :
    myfsRmdir env path = (myfsFileGet env path true).andThen removeFile := by
  rw [myfsRmdir]
  congr 1

/-! ## The callbacks in an interleaving -/

/-- A callback does not dereference a missing child or a missing result set. -/
def Safe (r : Except Fault ℤ) : Prop := Sound (fun _ => True) r

/-- What a callback does with the directory: it comes to a missing child if there is one. -/
structure FreesDirectory (env : Env) (f : Option MyfsFile → Prog (Except Fault ℤ)) : Prop where
  whole : ∀ file, Whole file → (f file).Returns Safe
  missing : ∀ file, ¬Whole file → (f file).Returns fun r => r = .error .missingChild
  meets : ∀ file times, (f file).Meets engine (KeepsChildren env) times

theorem freesDirectory_listFile (env : Env) : FreesDirectory env listFile where
  whole file hfile := by
    cases file with
    | none => exact trivial
    | some file =>
      rw [listFile, myfsFileFree_eq hfile]
      exact trivial
  missing file hfile := by
    cases file with
    | none => exact absurd rfl hfile
    | some file =>
      rw [listFile, myfsFileFree, if_pos (Bool.not_eq_false _ ▸ hfile)]
      exact rfl
  meets file times := by
    cases file with
    | none => trivial
    | some file =>
      rw [listFile, myfsFileFree_ret]
      trivial

theorem freesDirectory_removeFile (env : Env) : FreesDirectory env removeFile where
  whole file hfile := by
    cases file with
    | none => exact trivial
    | some file =>
      simp only [removeFile, myfsFileFree_eq hfile]
      split_ifs
      · exact trivial
      · exact trivial
      · exact fun success => trivial
  missing file hfile := by
    cases file with
    | none => exact absurd rfl hfile
    | some file =>
      have hmissing : freesMissing file = true := Bool.not_eq_false _ ▸ hfile
      simp only [removeFile, myfsFileFree, if_pos hmissing]
      split_ifs
      · exact rfl
      · exact rfl
      · exact fun success => rfl
  meets file times := by
    cases file with
    | none => trivial
    | some file =>
      simp only [removeFile, myfsFileFree_ret]
      split_ifs <;> trivial

section

variable {ι : Type} [Fintype ι] [DecidableEq ι] {st : Mounts ι (Except Fault ℤ)} {i : ι}
  {steps : List (ι × Bool)} {r : Except Fault ℤ}

theorem safe_iff_of_lookup {f : Option MyfsFile → Prog (Except Fault ℤ)}
    (hf : FreesDirectory env f)
    (hprog : (st.client i).prog = (myfsFileGet env path true).andThen f)
    (htxn : (st.client i).txn = none)
    (hret : ((Cluster.follow engine versions steps st).client i).prog = .ret r) :
    Safe r ↔ r = .error .stackOverflow ∨
      ((myfsFileGet env path true).andThen f).Meets engine (KeepsChildren env)
        (Cluster.timeline engine versions i steps st) := by
  obtain ⟨found, rest, hread, hreturns⟩ :=
    Cluster.read_of_follow (readOnly_myfsFileGet env path true) hprog htxn hret
  have hexact := exact_myfsFileGet env path _ _ _ hread
  rw [Program.meets_andThen, hread]
  cases found with
  | error e =>
    -- the lookup has crashed, and the callback with it
    obtain rfl : r = .error e := hreturns (fun r => r = .error e) rfl
    by_cases he : e = .stackOverflow
    · rw [he]
      exact iff_of_true ⟨nofun, nofun⟩ (.inl rfl)
    · have hne : ∀ {γ : Type}, (.error e : Except Fault γ) ≠ .error .stackOverflow :=
        fun h => he (Except.error.inj h)
      rw [hexact hne, or_iff_right hne]
      exact ⟨fun h => ⟨h, nofun⟩, And.left⟩
  | ok file =>
    rw [hexact nofun]
    by_cases hfile : Whole file
    · refine iff_of_true (hreturns Safe (hf.whole file hfile)) (.inr ⟨hfile, ?_⟩)
      exact fun file' times _ => hf.meets file' times
    · obtain rfl : r = .error .missingChild := hreturns _ (hf.missing file hfile)
      apply iff_of_false
      · exact fun h => h.2 rfl
      · rintro (h | ⟨h, -⟩)
        · cases h
        · exact hfile h

/-- Whatever the other mounts do and whatever statements fail, a callback that lists a directory, or
removes it, comes to its end without using a missing child or a missing result set exactly if every
query for the children of a directory is answered, and the children are there until they have been
fetched; or if it runs out of stack. -/
theorem safe_iff (env : Env) (path : List Byte) (prog : ι → Prog (Except Fault ℤ))
    (hprog : (∃ files, prog i = listDirectory env path files) ∨ prog i = myfsRmdir env path)
    (db : Database) (steps : List (ι × Bool))
    (hret : ((Cluster.follow engine versions steps (Cluster.start db prog)).client i).prog
      = .ret r) :
    Safe r ↔ r = .error .stackOverflow ∨
      (prog i).Meets engine (KeepsChildren env)
        (Cluster.timeline engine versions i steps (Cluster.start db prog)) := by
  rcases hprog with ⟨files, hprog⟩ | hprog
  · cases hfree : freeHandle files with
    | none =>
      -- nothing is looked up
      have hfail : prog i = .ret (.ok (-emfile)) := by
        rw [hprog, listDirectory, myfsOpendir, myfsOpenHelper, hfree]
        rfl
      have hstart : ((Cluster.start db prog : Mounts ι _).client i).prog.Returns Safe := by
        show (prog i).Returns Safe
        rw [hfail]
        trivial
      have hend : ((Cluster.follow engine versions steps (Cluster.start db prog)).client
          i).prog.Returns Safe := Cluster.returns_follow hstart
      rw [hret] at hend
      rw [hfail]
      exact iff_of_true hend (.inr trivial)
    | some fh =>
      rw [listDirectory_eq hfree] at hprog
      rw [hprog]
      exact safe_iff_of_lookup (freesDirectory_listFile env) hprog rfl hret
  · rw [myfsRmdir_eq] at hprog
    rw [hprog]
    exact safe_iff_of_lookup (freesDirectory_removeFile env) hprog rfl hret

end

/-! ## A child is removed, or a query fails -/

/-- One mount lists the root directory, and another one removes `/a`. -/
def listingRace : Bool → Prog (Except Fault ℤ)
  | false => listDirectory nobody (ascii "/") fun _ => none
  | true => myfsRmdir nobody (ascii "/a")

/-- `/a` is removed after the query for the ids and another `n` of the listing. -/
def removedAfter (n : ℕ) : List (Bool × Bool) :=
  List.replicate (3 + n) (false, false) ++ List.replicate 12 (true, false) ++
    List.replicate (4 - n) (false, false)

/-- `/a` has been fetched, with its parent, when it is removed. -/
theorem safe_iff_fetchedBefore :
    ((Cluster.follow engine versions (removedAfter 2)
      (Cluster.start twoDirectories listingRace)).client true).prog = .ret (.ok 0) ∧
    (Safe (.ok 0) ↔ (.ok 0 : Except Fault ℤ) = .error .stackOverflow ∨
      (listingRace false).Meets engine (KeepsChildren nobody)
        (Cluster.timeline engine versions false (removedAfter 2)
          (Cluster.start twoDirectories listingRace))) := by
  constructor
  · rw [← Program.result_eq_some]
    decide +kernel
  · exact safe_iff nobody (ascii "/") listingRace (.inl ⟨fun _ => none, rfl⟩) twoDirectories
      (removedAfter 2) (Program.result_eq_some.mp (by decide +kernel))

/-- The name of a child that has been removed is read, and so is the result set of a query that has
failed. -/
theorem removed_child_visited :
    twoDirectories.Tree ∧
      ((Cluster.follow engine versions (removedAfter 0)
        (Cluster.start twoDirectories listingRace)).client false).prog
        = .ret (.error .missingChild) ∧ ¬Safe (.error .missingChild) ∧
      ((Cluster.follow engine versions [(false, false), (false, false), (false, true)]
        (Cluster.start twoDirectories listingRace)).client false).prog
        = .ret (.error .missingResult) ∧ ¬Safe (.error .missingResult) := by
  refine ⟨tree_twoDirectories, ?_, fun h => h.2 rfl, ?_, fun h => h.1 rfl⟩
  · rw [← Program.result_eq_some]
    decide +kernel
  · rw [← Program.result_eq_some]
    decide +kernel

end MyFS
