import MyFS.LookupTheorems
import MyFS.Moves
import MyFS.Mounts

/-!
# Looking files up while they change

Every query of `myfs_file_get` may see the files as another mount has left them in the meantime.
What it finds is still what was at the path to begin with, if on its way down no name has come to
stand for another file, `Follows`. That is so if files have only gone (`Part`), and on the way to a
directory that has stayed where it was (`SameWay`).
-/

namespace MyFS

open Sql Database

variable {env : Env} {s db db' : Database} {d id p x : ℕ} {name : List Byte} {path : List Byte}
  {I : Database → Prop}

/-! ## One file -/

/-- A file that was found is the file `id`. -/
def IsFile (id : ℕ) (file : Option MyfsFile) : Prop := ∀ x ∈ file, x.fileId = id

theorem isFile_none (id : ℕ) : ∀ file : Option MyfsFile, (Except.ok none : Except Fault _) = .ok file →
    IsFile id file := by
  intro file hfile
  cases hfile
  exact nofun

theorem within_queryFile (env : Env) (I : Database → Prop) (fuel id : ℕ) :
    (queryFile env fuel id).Within engine I fun r => ∀ file, r = .ok file → IsFile id file := by
  cases fuel with
  | zero => exact nofun
  | succ fuel =>
    refine ⟨isFile_none id, fun db _ => ?_⟩
    cases hr : engine.ask (.file id) db with
    | none => exact isFile_none id
    | some row =>
      refine Program.Within.andThen (R := fun _ => True) ?_ fun parent _ => ?_
      · split
        · exact (readOnly_queryFile env fuel row.parentId).within.mono fun _ _ _ _ => trivial
        · exact fun _ _ => trivial
      · intro file hfile y hy
        cases hfile
        cases hy
        rfl

theorem within_myfsDbFileQuery (env : Env) (I : Database → Prop) (id : ℕ) (includeChildren : Bool) :
    (myfsDbFileQuery env id includeChildren).Within engine I
      fun r => ∀ file, r = .ok file → IsFile id file := by
  refine (within_queryFile env I queryDepth id).andThen fun file hfile => ?_
  cases file with
  | none => exact isFile_none id
  | some file =>
    have hid : file.fileId = id := hfile file rfl
    have hchildren : (myfsDbFileQueryChildren env file).Within engine I
        fun r => ∀ file', r = .ok file' → file'.fileId = id := by
      unfold myfsDbFileQueryChildren
      split
      · intro file' hfile'
        cases hfile'
        exact hid
      · refine ⟨nofun, fun db _ => ?_⟩
        have hqueries := (readOnly_queryFiles env (engine.ask (.children file.fileId) db)).within
          (E := engine) (I := I)
        refine (hqueries.mono fun _ _ _ _ => trivial).andThen (R := fun _ => True) fun children _ => ?_
        intro file' hfile'
        cases hfile'
        exact hid
    dsimp only
    split
    · refine hchildren.andThen fun file' hfile' => ?_
      intro file'' hfile''
      cases hfile''
      intro y hy
      cases hy
      exact hfile'
    · intro file'' hfile''
      cases hfile''
      exact hfile

/-! ## Paths -/

/-- Down the names from the directory `id` no lookup in a state that satisfies `I` finds another
file than in `s`. -/
def Follows (I : Database → Prop) (s : Database) : ℕ → List (List Byte) → Prop
  | _, [] => True
  | id, name :: names =>
    (∀ db, I db → ∀ x, db.lookup id name = some x → s.lookup id name = some x) ∧
      ∀ x, s.lookup id name = some x → Follows I s x names

/-- What was found is where the names lead to in `s`. -/
def FoundAt (s : Database) (names : List (List Byte)) (file : Option MyfsFile) : Prop :=
  ∀ x ∈ file, s.resolve names = some x.fileId

theorem within_myfsDbFileQueryName (env : Env) (includeChildren : Bool)
    (hI : ∀ db, I db → ∀ x, db.lookup p name = some x → s.lookup p name = some x) :
    (myfsDbFileQueryName env name p includeChildren).Within engine I
      fun r => ∀ file, r = .ok file → ∀ x ∈ file, s.lookup p name = some x.fileId := by
  have hnone : ∀ file : Option MyfsFile, (Except.ok none : Except Fault _) = .ok file →
      ∀ x ∈ file, s.lookup p name = some x.fileId := by
    intro file hfile
    cases hfile
    exact nofun
  refine ⟨hnone, fun db hdb => ?_⟩
  cases hask : engine.ask (.fileByName p name) db with
  | nil => exact hnone
  | cons id ids =>
    have hlookup : db.lookup p name = some id := by
      show (engine.ask (.fileByName p name) db).head? = some id
      rw [hask]
      rfl
    refine (within_myfsDbFileQuery env I id includeChildren).mono fun r hr file hfile x hx => ?_
    rw [hr file hfile x hx]
    exact hI db hdb id hlookup

theorem within_walk (env : Env) (includeChildren : Bool) {pre names : List (List Byte)}
    {file : Option MyfsFile} (hfile : FoundAt s pre file)
    (hfollows : ∀ id, s.resolve pre = some id → Follows I s id names) :
    (walk env includeChildren names file).Within engine I
      fun r => ∀ file, r = .ok file → FoundAt s (pre ++ names) file := by
  induction names generalizing pre file with
  | nil =>
    intro file' h
    cases h
    rw [List.append_nil]
    exact hfile
  | cons name names ih =>
    cases file with
    | none => exact nofun
    | some x =>
      have hx : s.resolve pre = some x.fileId := hfile x rfl
      obtain ⟨hname, hnames⟩ := hfollows _ hx
      rw [walk, myfsFileFree]
      split
      · intro file' h
        cases h
      refine (within_myfsDbFileQueryName env includeChildren hname).andThen fun file' hfile' => ?_
      rw [List.append_cons]
      refine ih ?_ ?_
      · intro y hy
        rw [resolve_append_singleton, hx]
        exact hfile' y hy
      · intro id hid
        rw [resolve_append_singleton, hx, Option.bind_some] at hid
        exact hnames id hid

theorem within_myfsFileGet (env : Env) (includeChildren : Bool) (hroot : s.lookup 0 [] = some 0)
    (hI : ∀ db, I db → ∀ x, db.lookup 0 [] = some x → x = 0)
    (hfollows : Follows I s 0 (strtok (path.drop 1))) :
    (myfsFileGet env path includeChildren).Within engine I
      fun r => ∀ file, r = .ok file → FoundAt s (strtok (path.drop 1)) file := by
  have hname : ∀ db, I db → ∀ x, db.lookup 0 [] = some x → s.lookup 0 [] = some x :=
    fun db hdb x hx => by rw [hI db hdb x hx, hroot]
  refine (within_myfsDbFileQueryName env includeChildren hname).andThen fun file hfile => ?_
  refine within_walk env includeChildren (?_ : FoundAt s [] file) ?_
  · intro x hx
    have := hfile x hx
    rw [hroot, Option.some.injEq] at this
    exact congrArg some this
  · intro id hid
    cases hid
    exact hfollows

/-! ## Files have gone -/

/-- Some of the files of `s` may have gone, and nothing else has happened. -/
structure Part (s db : Database) : Prop where
  row : ∀ {x r}, db.files.row x = some r → s.files.row x = some r
  next : s.files.next ≤ db.files.next

theorem part_self (s : Database) : Part s s := ⟨id, le_rfl⟩

theorem Part.lookup (h : Part s db) (hs : s.Tree) (hl : db.lookup p name = some x) :
    s.lookup p name = some x := by
  have hunique : ∀ {id id' r r'}, db.files.row id = some r → db.files.row id' = some r' →
      r.parentId = r'.parentId → r.name = r'.name → id = id' :=
    fun hr hr' hp hn => hs.unique (h.row hr) (h.row hr') hp hn
  obtain ⟨r, hr, hp, hn⟩ := (lookup_eq_some_iff hunique).mp hl
  exact hs.lookup_eq_some_iff.mpr ⟨r, h.row hr, hp, hn⟩

theorem follows_part (hs : s.Tree) (id : ℕ) (names : List (List Byte)) :
    Follows (Part s) s id names := by
  induction names generalizing id with
  | nil => trivial
  | cons name names ih => exact ⟨fun db hdb x hx => Part.lookup hdb hs hx, fun x _ => ih x⟩

theorem within_myfsFileGet_part (env : Env) (includeChildren : Bool) (hs : s.Tree)
    (path : List Byte) : (myfsFileGet env path includeChildren).Within engine (Part s)
      fun r => ∀ file, r = .ok file → FoundAt s (strtok (path.drop 1)) file := by
  refine within_myfsFileGet env includeChildren hs.lookup_root ?_ (follows_part hs _ _)
  intro db hdb x hx
  have := Part.lookup hdb hs hx
  rw [hs.lookup_root, Option.some.injEq] at this
  exact this.symm

/-! ## The way to a directory -/

/-- The directories on the way to `d` are where they are in `s`, and names are distinct. -/
structure SameWay (s : Database) (d : ℕ) (db : Database) : Prop where
  way : ∀ {x r}, s.files.row x = some r → Above s x d →
    ∃ r', db.files.row x = some r' ∧ r'.parentId = r.parentId ∧ r'.name = r.name
  unique : ∀ {id id' r r'}, db.files.row id = some r → db.files.row id' = some r' →
    r.parentId = r'.parentId → r.name = r'.name → id = id'

theorem sameWay_self (hs : s.Tree) (d : ℕ) : SameWay s d s :=
  ⟨fun hr _ => ⟨_, hr, rfl, rfl⟩, hs.unique⟩

theorem SameWay.lookup (h : SameWay s d db) (hs : s.Tree) (hl : s.lookup p name = some x)
    (hx : Above s x d) : db.lookup p name = some x := by
  obtain ⟨r, hr, rfl, rfl⟩ := hs.lookup_eq_some_iff.mp hl
  obtain ⟨r', hr', hp, hn⟩ := h.way hr hx
  exact (lookup_eq_some_iff h.unique).mpr ⟨r', hr', hp, hn⟩

/-- Names lead upside down. -/
theorem above_of_resolveFrom (hs : s.Tree) {names : List (List Byte)}
    (h : s.resolveFrom id names = some d) : Above s id d := by
  induction names generalizing id with
  | nil =>
    cases h
    exact .refl
  | cons name names ih =>
    rw [resolveFrom, Option.bind_eq_some_iff] at h
    obtain ⟨x, hl, h⟩ := h
    obtain ⟨r, hr, rfl, -⟩ := hs.lookup_eq_some_iff.mp hl
    by_cases hx : x = 0
    · -- the root is its own parent
      obtain ⟨r₀, hr₀, hp₀, -⟩ := hs.root
      rw [hx, hr₀, Option.some.injEq] at hr
      rw [← hr, hp₀, ← hx]
      exact ih h
    · exact Above.trans (.child hr hx .refl) (ih h)

theorem follows_sameWay (hs : s.Tree) {names : List (List Byte)}
    (h : s.resolveFrom id names = some d) : Follows (SameWay s d) s id names := by
  induction names generalizing id with
  | nil => trivial
  | cons name names ih =>
    rw [resolveFrom, Option.bind_eq_some_iff] at h
    obtain ⟨x, hl, h⟩ := h
    refine ⟨fun db hdb y hy => ?_, fun y hy => ?_⟩
    · rw [hdb.lookup hs hl (above_of_resolveFrom hs h), Option.some.injEq] at hy
      rw [hl, hy]
    · rw [hl, Option.some.injEq] at hy
      exact ih (hy ▸ h)

theorem within_myfsFileGet_sameWay (env : Env) (includeChildren : Bool) (hs : s.Tree)
    (hd : s.resolve (strtok (path.drop 1)) = some d) :
    (myfsFileGet env path includeChildren).Within engine (SameWay s d)
      fun r => ∀ file, r = .ok file → IsFile d file := by
  have hfollows := follows_sameWay hs hd
  refine (within_myfsFileGet env includeChildren hs.lookup_root ?_ hfollows).mono ?_
  · intro db hdb x hx
    have h0 := hdb.lookup hs hs.lookup_root (above_of_resolveFrom hs hd)
    rw [h0, Option.some.injEq] at hx
    exact hx.symm
  · intro r hr file hfile x hx
    have := hr file hfile x hx
    rw [hd, Option.some.injEq] at this
    exact this.symm

end MyFS
