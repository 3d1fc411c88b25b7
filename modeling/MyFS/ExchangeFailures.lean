import MyFS.Exchange

/-!
# An exchange whose queries fail

`myfs_db_file_query` returns a file also when the query for its parent has failed, and
`myfs_db_file_swap` takes a file without a parent for one in the root directory. A failed query can
so move a file to the root. In a directory on the way to one of the two files a failed query ends in
a null pointer, and a failed `COMMIT` is not noticed. All other failures end in an error, and leave
everything as it is: `exchangeSafe_iff`.
-/

namespace MyFS

open Sql Database Text

variable {env : Env} {db : Database} {pathOld pathNew : List Byte} {id p : ℕ}
variable {may : Request Query Change → Bool}

/-! ## Looking up with failures -/

/-- What looking for the file `id` comes to, with a flag that no query has failed: the file with
everything above it, or nothing where it can be missed. -/
def Found (env : Env) (db : Database) (id : ℕ) (missed : Prop) (ok : Bool)
    (file : Option MyfsFile) : Prop :=
  (ok = true ∧ ∃ x, file = some x ∧ Describes env db id x) ∨ (missed ∧ ok = false ∧ file = none)

theorem Found.mono {missed missed' : Prop} {ok : Bool} {file : Option MyfsFile}
    (h : Found env db id missed ok file) (hm : missed → missed') : Found env db id missed' ok file := by
  rcases h with h | ⟨hmissed, h⟩
  · exact .inl h
  · exact .inr ⟨hm hmissed, h⟩

/-- If the rows above a file can be had, it is found with its parent, or not at all. -/
theorem yields_queryFile (env : Env) (htree : db.Tree) {d fuel : ℕ} (hd : Rooted db d id)
    (hfuel : d < fuel) (habove : ∀ a, Above db a id → a ≠ id → may (.query (.file a)) = false) :
    (queryFile env fuel id).Yields engine db (fun q => may (.query q) = true)
      (fun ok r => ∃ file, r = .ok file ∧
        Found env db id (may (.query (.file id)) = true) ok file) true := by
  induction fuel generalizing d id with
  | zero => cases hfuel
  | succ fuel ih =>
    rw [queryFile]
    refine ⟨fun hq => ⟨none, rfl, .inr ⟨hq, rfl, rfl⟩⟩, ?_⟩
    cases hd with
    | root =>
      obtain ⟨r, hr, -⟩ := htree.root
      have hask : engine.ask (.file 0) db = some r := hr
      rw [hask]
      exact ⟨_, rfl, .inl ⟨rfl, _, rfl, .root hr⟩⟩
    | child hr hne hp =>
      rename_i d r
      have hask : engine.ask (.file id) db = some r := hr
      rw [hask]
      dsimp only
      rw [if_pos (by omega)]
      have hparent : ∀ a, Above db a r.parentId → may (.query (.file a)) = false := fun a ha =>
        habove a (.child hr hne ha) fun h => htree.not_above_parent hr hne (h ▸ ha)
      apply Program.Yields.andThen engine (ih hp (by omega) fun a ha _ => hparent a ha)
      rintro ok file (⟨rfl, x, rfl, hx⟩ | ⟨hmissed, -⟩)
      · exact ⟨_, rfl, .inl ⟨rfl, _, rfl, .child hr hne hx⟩⟩
      · rw [hparent _ .refl] at hmissed
        cases hmissed

/-- A step of the way, under the same condition. -/
theorem yields_myfsDbFileQueryName (env : Env) (htree : db.Tree) (hnext : db.files.next ≤ uintRange)
    {name : List Byte} (hl : db.lookup p name = some id)
    (habove : ∀ a, Above db a id → a ≠ id → may (.query (.file a)) = false) :
    (myfsDbFileQueryName env name p false).Yields engine db (fun q => may (.query q) = true)
      (fun ok r => ∃ file, r = .ok file ∧
        Found env db id (may (.query (.fileByName p name)) = true ∨
          may (.query (.file id)) = true) ok file) true := by
  obtain ⟨ids, hask⟩ : ∃ ids, engine.ask (.fileByName p name) db = id :: ids :=
    List.head?_eq_some_iff.mp hl
  obtain ⟨r, hr⟩ := Option.isSome_iff_exists.mp (htree.row_of_lookup hl)
  obtain ⟨d, hd⟩ := htree.rooted hr
  refine ⟨fun hq => ⟨none, rfl, .inr ⟨.inl hq, rfl, rfl⟩⟩, ?_⟩
  rw [hask]
  apply Program.Yields.andThen engine
    (yields_queryFile env htree hd ((htree.lt_next hd).trans_le hnext) habove)
  intro ok file hfile
  have hfile' := hfile.mono fun h => (.inr h : may (.query (.fileByName p name)) = true ∨ _)
  rcases hfile with ⟨-, x, rfl, -⟩ | ⟨-, -, rfl⟩
  · exact ⟨_, rfl, hfile'⟩
  · exact ⟨_, rfl, hfile'⟩

/-! ## The directories on the way -/

/-- The queries for the file at the end of a list of names: by its name in its directory, and by
its id. -/
inductive Looks (db : Database) : List (List Byte) → Query → Prop
  | root : Looks db [] (.fileByName 0 [])
  | name {dir : List (List Byte)} {name : List Byte} {p : ℕ} (hdir : db.resolve dir = some p) :
      Looks db (dir ++ [name]) (.fileByName p name)
  | row {names : List (List Byte)} {id : ℕ} (hres : db.resolve names = some id) :
      Looks db names (.file id)

/-- A query for a directory on the way to the file at `names`. -/
def OnTheWay (db : Database) (names : List (List Byte)) (q : Query) : Prop :=
  ∃ front back, names = front ++ back ∧ back ≠ [] ∧ Looks db front q

/-- If the directories on the way are found, the file at the end is found or missed. -/
theorem yields_walk (env : Env) (htree : db.Tree) (hnext : db.files.next ≤ uintRange)
    (front : List (List Byte)) {names : List (List Byte)} {file : MyfsFile} {id' : ℕ}
    (hfront : db.resolve front = some id) (hfile : Describes env db id file) (hres : db.resolveFrom id names = some id')
    (hway : ∀ q, OnTheWay db (front ++ names) q → may (.query q) = false)
    (habove : names ≠ [] → ∀ a, Above db a id → may (.query (.file a)) = false) :
    (walk env false names (some file)).Yields engine db (fun q => may (.query q) = true)
      (fun ok r => ∃ file, r = .ok file ∧ Found env db id' True ok file) true := by
  induction names generalizing id file front with
  | nil =>
    obtain rfl : id = id' := Option.some.inj hres
    exact ⟨_, rfl, .inl ⟨rfl, _, rfl, hfile⟩⟩
  | cons name names ih =>
    rw [resolveFrom, Option.bind_eq_some_iff] at hres
    obtain ⟨x, hl, hres⟩ := hres
    have hx : db.resolve (front ++ [name]) = some x := by
      rw [resolve_append_singleton, hfront, Option.bind_some, hl]
    obtain ⟨r, hr, hparent, -⟩ := htree.lookup_eq_some_iff.mp hl
    -- what is above the next file is that file, or on the way already
    have hnext' : ∀ a, Above db a x → a ≠ x → may (.query (.file a)) = false := by
      intro a ha hne
      cases ha with
      | refl => exact absurd rfl hne
      | child hr' _ ha =>
        obtain rfl := Option.some.inj (hr.symm.trans hr')
        exact habove (List.cons_ne_nil _ _) a (hparent ▸ ha)
    rw [walk_cons hfile.freesMissing, hfile.fileId_eq]
    apply Program.Yields.andThen engine
      (yields_myfsDbFileQueryName env htree hnext hl hnext')
    intro ok next hfound
    cases names with
    | nil =>
      obtain rfl : x = id' := Option.some.inj hres
      exact ⟨next, rfl, hfound.mono fun _ => trivial⟩
    | cons name' names =>
      have hsplit : front ++ name :: name' :: names = (front ++ [name]) ++ name' :: names := by simp
      have hfirst : may (.query (.fileByName id name)) = false :=
        hway _ ⟨front ++ [name], name' :: names, hsplit, List.cons_ne_nil _ _, .name hfront⟩
      have hsecond : may (.query (.file x)) = false :=
        hway _ ⟨front ++ [name], name' :: names, hsplit, List.cons_ne_nil _ _, .row hx⟩
      rw [hfirst, hsecond] at hfound
      rcases hfound with ⟨rfl, y, rfl, hy⟩ | ⟨hmissed, -⟩
      · refine ih _ hx hy hres (hsplit ▸ hway) fun _ a ha => ?_
        by_cases hax : a = x
        · rw [hax, hsecond]
        · exact hnext' a ha hax
      · rcases hmissed with h | h <;> cases h

theorem yields_myfsFileGet (env : Env) (htree : db.Tree) (hnext : db.files.next ≤ uintRange)
    {path : List Byte} (hres : db.resolve (components path) = some id)
    (hway : ∀ q, OnTheWay db (components path) q → may (.query q) = false) :
    (myfsFileGet env path false).Yields engine db (fun q => may (.query q) = true)
      (fun ok r => ∃ file, r = .ok file ∧ Found env db id True ok file) true := by
  apply Program.Yields.andThen engine
    (yields_myfsDbFileQueryName env htree hnext htree.lookup_root fun a ha hne =>
      absurd (above_zero.mp ha) hne)
  intro ok root hfound
  by_cases hnames : components path = []
  · rw [hnames] at hres
    obtain rfl : 0 = id := Option.some.inj hres
    show (walk env false (components path) root).Yields _ _ _ _ _
    rw [hnames]
    exact ⟨root, rfl, hfound.mono fun _ => trivial⟩
  · have hfirst : may (.query (.fileByName 0 [])) = false := hway _ ⟨[], _, rfl, hnames, .root⟩
    have hsecond : may (.query (.file 0)) = false := hway _ ⟨[], _, rfl, hnames, .row rfl⟩
    rw [hfirst, hsecond] at hfound
    rcases hfound with ⟨rfl, x, rfl, hx⟩ | ⟨hmissed, -⟩
    · refine yields_walk env htree hnext [] rfl hx hres hway fun _ a ha => ?_
      rw [above_zero.mp ha, hsecond]
    · rcases hmissed with h | h <;> cases h

/-! ## A directory that is missed -/

/-- What the queries for a file that is there look up. -/
theorem Looks.cases_of_resolve {front : List (List Byte)} {q : Query} (h : Looks db front q)
    (hfront : db.resolve front = some id) :
    (front = [] ∧ id = 0 ∧ (q = .fileByName 0 [] ∨ q = .file id)) ∨
      ∃ dir name p, front = dir ++ [name] ∧ db.resolve dir = some p ∧ db.lookup p name = some id ∧
        (q = .fileByName p name ∨ q = .file id) := by
  cases h with
  | root => exact .inl ⟨rfl, (Option.some.inj hfront).symm, .inl rfl⟩
  | name hdir =>
    rw [resolve_append_singleton, hdir, Option.bind_some] at hfront
    exact .inr ⟨_, _, _, rfl, hdir, hfront, .inl rfl⟩
  | row hres =>
    obtain rfl := Option.some.inj (hfront.symm.trans hres)
    rcases List.eq_nil_or_concat' front with rfl | ⟨dir, name, rfl⟩
    · exact .inl ⟨rfl, (Option.some.inj hfront).symm, .inr rfl⟩
    · rw [resolve_append_singleton, Option.bind_eq_some_iff] at hfront
      obtain ⟨p, hdir, hl⟩ := hfront
      exact .inr ⟨dir, name, p, rfl, hdir, hl, .inr rfl⟩

/-- A file is missed when one of the two queries for it fails. -/
theorem failsWith_missed {α : Type} (env : Env) {name : List Byte} {q : Query}
    (hl : db.lookup p name = some id) (hq : q = .fileByName p name ∨ q = .file id)
    (hmay : may (.query q) = true) {h : Option MyfsFile → Prog (Except Fault α)}
    (hnone : h none = .ret (.error .nullPointer)) {s : Conn Unit} (hs : s.visible = db) :
    FailsWith engine () may ((myfsDbFileQueryName env name p false).andThen h) s
      (.error .nullPointer) := by
  rw [myfsDbFileQueryName, Program.call_andThen]
  rcases hq with rfl | rfl
  · apply failsWith_query_none engine () hmay
    exact hnone
  · apply failsWith_query_some
    obtain ⟨ids, hask⟩ : ∃ ids, engine.ask (.fileByName p name) s.visible = id :: ids := by
      rw [hs]
      exact List.head?_eq_some_iff.mp hl
    rw [hask]
    apply failsWith_query_none engine () hmay
    exact hnone

/-- The steps of `myfs_file_get` up to the names `front`, and those behind them. -/
theorem myfsFileGet_andThen (env : Env) {path : List Byte} {front back : List (List Byte)}
    (hsplit : components path = front ++ back) {α : Type}
    (g : Option MyfsFile → Prog (Except Fault α)) :
    (myfsFileGet env path false).andThen g =
      ((myfsDbFileQueryName env [] 0 false).andThen (walk env false front)).andThen fun file =>
        (walk env false back file).andThen g := by
  rw [myfsFileGet, Program.andThen_andThen, Program.andThen_andThen]
  congr 1
  funext root
  show (walk env false (components path) root).andThen g = _
  rw [hsplit, walk_append, Program.andThen_andThen]

/-- A query for a directory on the way can fail, and ends the program. -/
theorem failsWith_onTheWay {α : Type} (env : Env) (htree : db.Tree)
    (hnext : db.files.next ≤ uintRange) {path : List Byte}
    (hres : db.resolve (components path) = some id) {q : Query}
    (hway : OnTheWay db (components path) q) (hmay : may (.query q) = true)
    (g : Option MyfsFile → Prog (Except Fault α)) {s : Conn Unit} (hs : s.visible = db) :
    FailsWith engine () may ((myfsFileGet env path false).andThen g) s (.error .nullPointer) := by
  obtain ⟨front, back, hsplit, hback, hlooks⟩ := hway
  obtain ⟨y, ys, rfl⟩ := List.exists_cons_of_ne_nil hback
  obtain ⟨x, hfront⟩ := Option.isSome_iff_exists.mp <| resolve_of_prefix
    (hsplit ▸ List.prefix_append front (y :: ys)) (by rw [hres]; rfl)
  rcases hlooks.cases_of_resolve hfront with ⟨rfl, rfl, hq⟩ | ⟨dir, name, p, rfl, hdir, hl, hq⟩
  · rw [myfsFileGet_andThen env hsplit, Program.andThen_andThen]
    exact failsWith_missed env htree.lookup_root hq hmay rfl hs
  · -- the directory above is found, and then comes the failure
    rw [List.append_assoc] at hsplit
    rw [myfsFileGet_andThen env hsplit]
    obtain ⟨root, heval₀, hroot⟩ := eval_myfsDbFileQueryName_some env htree hnext htree.lookup_root
    obtain ⟨file, heval, hfile⟩ := eval_walk_some env htree hnext hroot hdir
    have hfound : ((myfsDbFileQueryName env [] 0 false).andThen (walk env false dir)).eval engine
        s.visible = (.ok (some file), db) := by
      rw [hs]
      exact (Program.eval_andThen_ok engine).mpr ⟨_, _, heval₀, heval⟩
    apply failsWith_andThen engine ()
      ((readOnly_myfsDbFileQueryName env _ _ _).andThen fun _ => readOnly_walk env _ _ _)
      (congrArg Prod.fst hfound)
    intro s₁ hcom hwork
    rw [List.singleton_append, walk_cons hfile.freesMissing, hfile.fileId_eq,
      Program.andThen_andThen]
    refine failsWith_missed env hl hq hmay rfl ?_
    rw [← hs, Session.visible, Session.visible, hwork, hcom]

/-! ## The two updates -/

namespace Database

theorem Tree.lookup_eq_none_iff (htree : db.Tree) {name : List Byte} :
    db.lookup p name = none ↔
      ∀ {x r}, db.files.row x = some r → r.parentId = p → r.name ≠ name := by
  rw [Option.eq_none_iff_forall_ne_some]
  constructor
  · intro h x r hr hp hname
    exact h x (htree.lookup_eq_some_iff.mpr ⟨r, hr, hp, hname⟩)
  · intro h x hl
    obtain ⟨r, hr, hp, hname⟩ := htree.lookup_eq_some_iff.mp hl
    exact h hr hp hname

theorem isSome_exec_setParent {r : FileRow} (hr : db.files.row id = some r)
    (hp : (db.files.row p).isSome) :
    ((Change.setParent id p).exec db).isSome = !db.nameTaken (· == id) p r.name := by
  rw [Change.exec, updateFile, hr]
  dsimp only
  rw [hp, Bool.true_and]
  cases db.nameTaken (· == id) p r.name <;> rfl

end Database

/-- What the key `(parent_id, name)` asks of two files whose parents are exchanged: each name is free
in the other directory. -/
def KeysFree (rOld rNew : FileRow) (db : Database) : Prop :=
  rOld.parentId = rNew.parentId ∨
    db.lookup rNew.parentId rOld.name = none ∧ db.lookup rOld.parentId rNew.name = none

instance (rOld rNew : FileRow) (db : Database) : Decidable (KeysFree rOld rNew db) :=
  inferInstanceAs (Decidable (_ ∨ _))

section

variable {idOld idNew : ℕ} {rOld rNew : FileRow} {fileOld fileNew : MyfsFile}
variable (htree : db.Tree) (hrOld : db.files.row idOld = some rOld)
  (hrNew : db.files.row idNew = some rNew)
include htree hrOld hrNew

omit hrNew in
/-- An update to the parent that a file has anyway changes nothing. -/
theorem exec_setParent_self :
    (Change.setParent idOld rOld.parentId).exec db = some db := by
  have hsome : ((Change.setParent idOld rOld.parentId).exec db).isSome = true := by
    rw [isSome_exec_setParent hrOld (htree.row_parent hrOld), Bool.not_eq_true', nameTaken_eq_false]
    intro x r hr hne hp hname
    exact absurd (htree.unique hr hrOld hp hname) (by simpa using hne)
  obtain ⟨db₁, h₁⟩ := Option.isSome_iff_exists.mp hsome
  have hstays : db₁ = db := by
    refine eq_of_setParent (fun s hs => ?_) h₁
    rw [Option.some.inj (hs.symm.trans hrOld)]
  rw [h₁, hstays]

/-- The first update finds the first file in another directory. -/
theorem isSome_exec_setParent_first (hne : rOld.parentId ≠ rNew.parentId) :
    ((Change.setParent idOld rNew.parentId).exec db).isSome = true ↔
      db.lookup rNew.parentId rOld.name = none := by
  rw [isSome_exec_setParent hrOld (htree.row_parent hrNew), Bool.not_eq_true', nameTaken_eq_false,
    htree.lookup_eq_none_iff]
  constructor
  · intro hfree x r hr hp
    refine hfree hr ?_ hp
    rw [beq_eq_false_iff_ne]
    rintro rfl
    rw [Option.some.inj (hr.symm.trans hrOld)] at hp
    exact hne hp
  · intro hnone x r hr _ hp
    exact hnone hr hp

/-- The second update finds the first file in its new directory. -/
theorem isSome_exec_setParent_second {db₁ : Database} (hne : rOld.parentId ≠ rNew.parentId)
    (h : (Change.setParent idOld rNew.parentId).exec db = some db₁) :
    ((Change.setParent idNew rOld.parentId).exec db₁).isSome = true ↔
      db.lookup rOld.parentId rNew.name = none := by
  obtain ⟨hmoved, hothers⟩ := setParent_cases hrOld h
  have hdiff : idNew ≠ idOld := by
    rintro rfl
    exact hne (congrArg FileRow.parentId (Option.some.inj (hrOld.symm.trans hrNew)))
  have hparent : (db₁.files.row rOld.parentId).isSome := by
    by_cases hself : rOld.parentId = idOld
    · rw [hself, hmoved]
      rfl
    · rw [hothers _ hself]
      exact htree.row_parent hrOld
  obtain ⟨hfree, -⟩ := exec_setParent_of_row hrOld h
  rw [nameTaken_eq_false] at hfree
  have hnames : rNew.name ≠ rOld.name := hfree hrNew (by simpa using hdiff) rfl
  rw [isSome_exec_setParent ((hothers _ hdiff).trans hrNew) hparent, Bool.not_eq_true',
    nameTaken_eq_false, htree.lookup_eq_none_iff]
  constructor
  · intro hfree₂ x r hr hp hname
    -- neither of the two files has that name in the first directory
    have hxOld : x ≠ idOld := by
      rintro rfl
      exact hnames (hname.symm.trans (congrArg FileRow.name (Option.some.inj (hr.symm.trans hrOld))))
    have hxNew : x ≠ idNew := by
      rintro rfl
      rw [Option.some.inj (hr.symm.trans hrNew)] at hp
      exact hne hp.symm
    exact hfree₂ ((hothers x hxOld).trans hr) (by simpa using hxNew) hp hname
  · intro hnone x r hr _ hp
    have hxOld : x ≠ idOld := by
      rintro rfl
      rw [hmoved, Option.some.injEq] at hr
      exact hne (hp.symm.trans (hr ▸ rfl))
    exact hnone ((hothers x hxOld).symm.trans hr) hp

variable (hfileOld : Describes env db idOld fileOld) (hfileNew : Describes env db idNew fileNew)
include hfileOld hfileNew

theorem eval_swapBody {db' : Database} :
    (swapBody fileOld fileNew).eval engine db = (.ok (), db') ↔
      ∃ db₁, (Change.setParent idOld rNew.parentId).exec db = some db₁ ∧
        (Change.setParent idNew rOld.parentId).exec db₁ = some db' := by
  rw [swapBody, hfileOld.fileId_eq, hfileNew.fileId_eq, hfileOld.parentId_eq htree hrOld,
    hfileNew.parentId_eq htree hrNew, eval_dbQuery_andThen]
  simp only [eval_dbQuery]

/-- The two updates are accepted exactly if the names are free. -/
theorem isOk_swapBody :
    ((swapBody fileOld fileNew).eval engine db).1.isOk = true ↔ KeysFree rOld rNew db := by
  have hiff : ((swapBody fileOld fileNew).eval engine db).1.isOk = true ↔
      ∃ db₁, (Change.setParent idOld rNew.parentId).exec db = some db₁ ∧
        ((Change.setParent idNew rOld.parentId).exec db₁).isSome = true := by
    rw [Except.isOk_iff]
    constructor
    · rintro ⟨⟨⟩, ha⟩
      obtain ⟨db₁, h₁, h₂⟩ := (eval_swapBody htree hrOld hrNew hfileOld hfileNew).mp
        (Prod.ext ha rfl)
      exact ⟨db₁, h₁, by rw [h₂]; rfl⟩
    · rintro ⟨db₁, h₁, h₂⟩
      obtain ⟨db', h₂⟩ := Option.isSome_iff_exists.mp h₂
      have h := (eval_swapBody htree hrOld hrNew hfileOld hfileNew).mpr ⟨db₁, h₁, h₂⟩
      exact ⟨(), congrArg Prod.fst h⟩
  rw [hiff]
  by_cases heq : rOld.parentId = rNew.parentId
  · refine iff_of_true ⟨db, heq ▸ exec_setParent_self htree hrOld, ?_⟩ (.inl heq)
    rw [heq, exec_setParent_self htree hrNew]
    rfl
  · rw [KeysFree, or_iff_right heq]
    constructor
    · rintro ⟨db₁, h₁, h₂⟩
      exact ⟨(isSome_exec_setParent_first htree hrOld hrNew heq).mp (by rw [h₁]; rfl),
        (isSome_exec_setParent_second htree hrOld hrNew heq h₁).mp h₂⟩
    · rintro ⟨hfree, hnone⟩
      obtain ⟨db₁, h₁⟩ := Option.isSome_iff_exists.mp
        ((isSome_exec_setParent_first htree hrOld hrNew heq).mpr hfree)
      exact ⟨db₁, h₁, (isSome_exec_setParent_second htree hrOld hrNew heq h₁).mpr hnone⟩

end

/-! ## What an exchange leaves -/

/-- Every file has the parent that it had, or is one of the two files and has the parent that the
other one had. -/
def ParentsKept (idOld idNew : ℕ) (db db' : Database) : Prop :=
  ∀ x r, db.files.row x = some r → ∃ r', db'.files.row x = some r' ∧
    (r'.parentId = r.parentId ∨
      x = idOld ∧ (db.files.row idNew).map FileRow.parentId = some r'.parentId ∨
      x = idNew ∧ (db.files.row idOld).map FileRow.parentId = some r'.parentId)

theorem parentsKept_refl (idOld idNew : ℕ) (db : Database) : ParentsKept idOld idNew db db :=
  fun _ r hr => ⟨r, hr, .inl rfl⟩

theorem parentsKept_of_setParent {idOld idNew : ℕ} {rOld rNew : FileRow} {db₁ db' : Database}
    (hrOld : db.files.row idOld = some rOld) (hrNew : db.files.row idNew = some rNew)
    (h₁ : (Change.setParent idOld rNew.parentId).exec db = some db₁)
    (h₂ : (Change.setParent idNew rOld.parentId).exec db₁ = some db') :
    ParentsKept idOld idNew db db' := by
  obtain ⟨hmoved, hothers⟩ := setParent_cases hrOld h₁
  obtain ⟨s, hs⟩ : ∃ s, db₁.files.row idNew = some s := by
    by_cases hsame : idNew = idOld
    · rw [hsame]
      exact ⟨_, hmoved⟩
    · exact ⟨rNew, (hothers _ hsame).trans hrNew⟩
  obtain ⟨hmoved₂, hothers₂⟩ := setParent_cases hs h₂
  intro x r hr
  by_cases hxNew : x = idNew
  · rw [hxNew, hrOld]
    exact ⟨_, hmoved₂, .inr (.inr ⟨rfl, rfl⟩)⟩
  · by_cases hxOld : x = idOld
    · rw [hothers₂ x hxNew, hxOld, hmoved, hrNew]
      exact ⟨_, rfl, .inr (.inl ⟨rfl, rfl⟩)⟩
    · rw [hothers₂ x hxNew, hothers x hxOld]
      exact ⟨r, hr, .inl rfl⟩

/-- A run of `myfs_rename` with `RENAME_EXCHANGE`, under any failures. -/
def runExchange (env : Env) (pathOld pathNew : List Byte) (fails : Failures Query Change)
    (db : Database) : Outcome (Except Fault ℤ) Query Change Database Unit :=
  Sql.run engine () (myfsRename env pathOld pathNew renameExchange) fails (Session.idle db)

theorem runExchange_eq (env : Env) (pathOld pathNew : List Byte) (fails : Failures Query Change)
    (db : Database) : runExchange env pathOld pathNew fails db =
      Sql.run engine () (myfsRenameSwap env pathOld pathNew) fails (Session.idle db) := by
  rw [runExchange, myfsRename, if_pos rfl]

/-- Only the two files can get another parent, that of the other one; and if a statement has failed,
the call returns an error and the tree is as it was. -/
structure ExchangeSafe (idOld idNew : ℕ) (db : Database)
    (o : Outcome (Except Fault ℤ) Query Change Database Unit) : Prop where
  parents : ParentsKept idOld idNew db o.sess.committed
  noticed : ¬AllOk o.trace → (∃ error < 0, o.result = .ok error) ∧ SameTree db o.sess.committed

variable {idOld idNew : ℕ}

theorem exchangeSafe_of_error {error : ℤ} {o : Outcome (Except Fault ℤ) Query Change Database Unit}
    (hres : o.result = .ok error) (hneg : error < 0) (hcom : o.sess.committed = db) :
    ExchangeSafe idOld idNew db o := by
  refine ⟨?_, fun _ => ⟨⟨error, hneg, hres⟩, ?_⟩⟩
  · rw [hcom]
    exact parentsKept_refl _ _ _
  · rw [hcom]
    exact fun _ => rfl

theorem exchangeSafe_of_allOk {o : Outcome (Except Fault ℤ) Query Change Database Unit}
    (hall : AllOk o.trace) (hparents : ParentsKept idOld idNew db o.sess.committed) :
    ExchangeSafe idOld idNew db o :=
  ⟨hparents, fun h => absurd hall h⟩

/-- A step that looks up a file, with nothing failing on the way to it. -/
theorem exchangeSafe_andThen (htree : db.Tree) (hnext : db.files.next ≤ uintRange)
    {path : List Byte} (hres : db.resolve (components path) = some id)
    (hway : ∀ q, OnTheWay db (components path) q → may (.query q) = false)
    {g : Option MyfsFile → Prog (Except Fault ℤ)} (hnone : g none = .ret (.ok (-enoent)))
    (hsome : ∀ {file : MyfsFile} {rest : Failures Query Change} {s : Conn Unit},
      Describes env db id file → s.committed = db → s.working = none →
      (∀ n r, rest n r = true → may r = true) →
      ExchangeSafe idOld idNew db (Sql.run engine () (g (some file)) rest s))
    {fails : Failures Query Change} {s : Conn Unit} (hcom : s.committed = db)
    (hwork : s.working = none) (hfails : ∀ n r, fails n r = true → may r = true) :
    ExchangeSafe idOld idNew db
      (Sql.run engine () ((myfsFileGet env path false).andThen g) fails s) := by
  have hvis : s.visible = db := (Session.visible_of_none hwork).trans hcom
  have hget := yields_myfsFileGet env htree hnext hres hway
  rw [← hvis] at hget
  obtain ⟨ok, file, rest, s₁, hfound, hcom₁, hwork₁, hrest, hresult, hsess, hall⟩ :=
    run_yields_andThen engine () hget g fun n q => hfails n (.query q)
  rw [hvis] at hfound
  rw [hcom] at hcom₁
  rcases hfound with ⟨rfl, x, rfl, hx⟩ | ⟨-, -, rfl⟩
  · have hsafe := hsome hx hcom₁ (hwork₁.trans hwork) fun n r h => by
      obtain ⟨m, hm⟩ := hrest n r h
      exact hfails m r hm
    refine ⟨hsess ▸ hsafe.parents, fun h => ?_⟩
    rw [hresult, hsess]
    exact hsafe.noticed fun hok => h (hall.mpr ⟨rfl, hok⟩)
  · rw [hnone] at hresult hsess
    exact exchangeSafe_of_error hresult (by decide) (hsess ▸ hcom₁)

section

variable {rOld rNew : FileRow}
variable (htree : db.Tree) (hnext : db.files.next ≤ uintRange)
  (hold : db.resolve (components pathOld) = some idOld)
  (hnew : db.resolve (components pathNew) = some idNew)
  (hrOld : db.files.row idOld = some rOld) (hrNew : db.files.row idNew = some rNew)

include htree hrOld hrNew in
/-- The transaction, if its `COMMIT` does not fail. -/
theorem exchangeSafe_swap {fileOld fileNew : MyfsFile} (hfileOld : Describes env db idOld fileOld)
    (hfileNew : Describes env db idNew fileNew)
    (hcommit : may .commit = true → ¬KeysFree rOld rNew db) {fails : Failures Query Change}
    {s : Conn Unit} (hcom : s.committed = db) (hwork : s.working = none)
    (hfails : ∀ n r, fails n r = true → may r = true) :
    ExchangeSafe idOld idNew db (Sql.run engine () (myfsDbFileSwap fileOld fileNew >>= fun success =>
      if success then .ret (.ok 0) else .ret (.ok (-eio))) fails s) := by
  rw [run_bind_ite]
  have hbody := body_swapBody fileOld fileNew
  dsimp only
  rw [myfsDbFileSwap]
  cases hres : (Sql.run engine () (transaction (swapBody fileOld fileNew)) fails s).result with
  | false =>
    have hstays := run_transaction_false engine () hbody fails hwork hres
    refine exchangeSafe_of_error ?_ (show -eio < 0 by decide) (hstays.trans hcom)
    rfl
  | true =>
    -- the updates were accepted, and so no `COMMIT` fails
    have hok := isOk_of_run_transaction engine () hbody fails hwork hres
    rw [hcom, isOk_swapBody htree hrOld hrNew hfileOld hfileNew] at hok
    have hcommits : CommitsOk fails := fun n => by
      rw [← Bool.not_eq_true]
      exact fun h => hcommit (hfails n .commit h) hok
    obtain ⟨hall, ⟨⟩, heval⟩ := run_transaction_true engine () hbody hcommits hwork hres
    rw [hcom, eval_swapBody htree hrOld hrNew hfileOld hfileNew] at heval
    obtain ⟨db₁, h₁, h₂⟩ := heval
    exact exchangeSafe_of_allOk hall (parentsKept_of_setParent hrOld hrNew h₁ h₂)

include htree hrOld hrNew in
/-- The transaction, if its `COMMIT` fails. -/
theorem failsWith_swap {fileOld fileNew : MyfsFile} (hfileOld : Describes env db idOld fileOld)
    (hfileNew : Describes env db idNew fileNew) (hmay : may .commit = true)
    (hkeys : KeysFree rOld rNew db) {s : Conn Unit} (hcom : s.committed = db)
    (hwork : s.working = none) :
    FailsWith engine () may (myfsDbFileSwap fileOld fileNew >>= fun success =>
      if success then .ret (.ok (0 : ℤ)) else .ret (.ok (-eio))) s
        (.ok 0 : Except Fault ℤ) := by
  have hok : ((swapBody fileOld fileNew).eval engine s.committed).1.isOk = true := by
    rw [hcom]
    exact (isOk_swapBody htree hrOld hrNew hfileOld hfileNew).mpr hkeys
  obtain ⟨htrue, hlost⟩ := run_transaction_lostCommits engine () (body_swapBody fileOld fileNew)
    hwork hok
  refine ⟨lostCommits, fun n r h => ?_, ?_⟩
  · cases r with
    | commit => exact hmay
    | startTransaction | rollback | query | change | insertId => cases h
  · rw [run_bind_ite, myfsDbFileSwap]
    dsimp only
    rw [htrue]
    refine ⟨rfl, fun hall => ?_⟩
    cases hall _ hlost

include htree hnext hold hnew hrOld hrNew

/-- If nothing fails on the way to the two files, and no `COMMIT` that would be sent. -/
theorem exchangeSafe_of_ways
    (hwayOld : ∀ q, OnTheWay db (components pathOld) q → may (.query q) = false)
    (hwayNew : ∀ q, OnTheWay db (components pathNew) q → may (.query q) = false)
    (hcommit : may .commit = true → ¬KeysFree rOld rNew db) {fails : Failures Query Change}
    (hfails : ∀ n r, fails n r = true → may r = true) :
    ExchangeSafe idOld idNew db (runExchange env pathOld pathNew fails db) := by
  rw [runExchange_eq, myfsRenameSwap]
  refine exchangeSafe_andThen htree hnext hold hwayOld rfl ?_ rfl rfl hfails
  intro fileOld rest s hfileOld hcom hwork hrest
  refine exchangeSafe_andThen htree hnext hnew hwayNew rfl ?_ hcom hwork hrest
  intro fileNew rest' s' hfileNew hcom' hwork' hrest'
  exact exchangeSafe_swap htree hrOld hrNew hfileOld hfileNew hcommit hcom' hwork' hrest'

omit hnew hrOld hrNew in
/-- Failures can come when the first file has been found. -/
theorem failsWith_renameSwap {r : Except Fault ℤ}
    (h : ∀ {fileOld : MyfsFile} {s : Conn Unit}, Describes env db idOld fileOld → s.committed = db →
      s.working = none →
      FailsWith engine () may ((myfsFileGet env pathNew false).andThen fun fileNew =>
        match fileNew with
        | none => .ret (.ok (-enoent))
        | some fileNew => myfsDbFileSwap fileOld fileNew >>= fun success =>
            if success then .ret (.ok 0) else .ret (.ok (-eio))) s r) :
    FailsWith engine () may (myfsRenameSwap env pathOld pathNew) (Session.idle db) r := by
  obtain ⟨fileOld, heval, hfileOld⟩ := eval_myfsFileGet_some env htree hnext hold
  refine failsWith_andThen engine () (s := (Session.idle db : Conn Unit))
    (readOnly_myfsFileGet env pathOld false) (congrArg Prod.fst heval) ?_
  intro s hcom hwork
  exact h hfileOld hcom hwork

omit hrOld hrNew in
/-- If a query for a directory on the way to the first or the second file can fail, the program can
end there. -/
theorem failsWith_exchange (env : Env) {q : Query} (hmay : may (.query q) = true)
    (hway : OnTheWay db (components pathOld) q ∨ OnTheWay db (components pathNew) q) :
    FailsWith engine () may (myfsRenameSwap env pathOld pathNew) (Session.idle db)
      (.error .nullPointer) := by
  rcases hway with hway | hway
  · exact failsWith_onTheWay env htree hnext hold hway hmay _ rfl
  · apply failsWith_renameSwap htree hnext hold
    intro fileOld s _ hcom hwork
    exact failsWith_onTheWay env htree hnext hnew hway hmay _
      ((Session.visible_of_none hwork).trans hcom)

/-- If the two updates are accepted and the `COMMIT` can fail, the call can return 0 after a
failure. -/
theorem failsWith_commit (env : Env) (hmay : may .commit = true) (hkeys : KeysFree rOld rNew db) :
    FailsWith engine () may (myfsRenameSwap env pathOld pathNew) (Session.idle db) (.ok 0) := by
  apply failsWith_renameSwap htree hnext hold
  intro fileOld s hfileOld hcom hwork
  obtain ⟨fileNew, heval, hfileNew⟩ := eval_myfsFileGet_some env htree hnext hnew
  rw [← hcom, ← Session.visible_of_none hwork] at heval
  apply failsWith_andThen engine () (readOnly_myfsFileGet env pathNew false)
    (congrArg Prod.fst heval)
  intro s₁ hcom₁ hwork₁
  have hcom₁ := hcom₁.trans hcom
  exact failsWith_swap htree hrOld hrNew hfileOld hfileNew hmay hkeys hcom₁ (hwork₁.trans hwork)

/-- An exchange is safe under all failures of the statements in `may` exactly if none of them is a
query for a directory on the way to one of the two files, and no `COMMIT` that would be sent. -/
theorem exchangeSafe_iff (env : Env) (may : Request Query Change → Bool) :
    (∀ fails : Failures Query Change, (∀ n r, fails n r = true → may r = true) →
        ExchangeSafe idOld idNew db (runExchange env pathOld pathNew fails db)) ↔
      (∀ q, OnTheWay db (components pathOld) q ∨ OnTheWay db (components pathNew) q →
        may (.query q) = false) ∧
      (may .commit = true → ¬KeysFree rOld rNew db) := by
  constructor
  · intro hsafe
    constructor
    · intro q hway
      rw [← Bool.not_eq_true]
      intro hmay
      obtain ⟨fails, hfails, hcrash, hfailed⟩ :=
        failsWith_exchange htree hnext hold hnew env hmay hway
      obtain ⟨⟨error, -, hret⟩, -⟩ := (hsafe fails hfails).noticed
        (runExchange_eq env pathOld pathNew fails db ▸ hfailed)
      rw [runExchange_eq, hcrash] at hret
      cases hret
    · intro hmay hkeys
      obtain ⟨fails, hfails, hzero, hfailed⟩ :=
        failsWith_commit htree hnext hold hnew hrOld hrNew env hmay hkeys
      obtain ⟨⟨error, hneg, hret⟩, -⟩ := (hsafe fails hfails).noticed
        (runExchange_eq env pathOld pathNew fails db ▸ hfailed)
      rw [runExchange_eq, hzero, Except.ok.injEq] at hret
      omega
  · rintro ⟨hways, hcommit⟩ fails hfails
    exact exchangeSafe_of_ways htree hnext hold hnew hrOld hrNew (fun q h => hways q (.inl h))
      (fun q h => hways q (.inr h)) hcommit hfails

end

/-! ## Files in two directories -/

/-- The failures of the statements that change something. -/
def updatesFail : Request Query Change → Bool
  | .startTransaction | .change _ => true
  | _ => false

/-- If the updates can fail, and no `COMMIT` and no query, the two files are exchanged or the call
returns an error. -/
theorem exchangeSafe_updatesFail :
    updatesFail .commit = false ∧
      ∀ fails : Failures Query Change, (∀ n r, fails n r = true → updatesFail r = true) →
        ExchangeSafe 3 4 twoFiles
          (runExchange nobody (ascii "/a/f") (ascii "/b/f") fails twoFiles) :=
  ⟨rfl, (exchangeSafe_iff tree_twoFiles (by decide)
    (show twoFiles.resolve (components (ascii "/a/f")) = some 3 by decide +kernel)
    (show twoFiles.resolve (components (ascii "/b/f")) = some 4 by decide +kernel)
    (show twoFiles.files.row 3 = some (directoryRow 1 (ascii "f")) by decide +kernel)
    (show twoFiles.files.row 4 = some (directoryRow 2 (ascii "f")) by decide +kernel) nobody
    updatesFail).mpr ⟨fun _ _ => rfl, fun h => by cases h⟩⟩

/-- When the query for the parent of `/b/f` fails, the exchange returns 0, and `/a/f` is in the root
directory, where neither of the two files was. -/
theorem exchange_moves_to_root :
    twoFiles.Tree ∧ twoFiles.resolve (components (ascii "/a/f")) = some 3 ∧
      twoFiles.resolve (components (ascii "/b/f")) = some 4 ∧
      (runExchange nobody (ascii "/a/f") (ascii "/b/f") (fun n _ => n = 16) twoFiles).result.toOption
        = some 0 ∧
      ((runExchange nobody (ascii "/a/f") (ascii "/b/f") (fun n _ => n = 16)
        twoFiles).sess.committed.files.row 3).map FileRow.parentId = some 0 ∧
      ¬∀ fails : Failures Query Change, ExchangeSafe 3 4 twoFiles
        (runExchange nobody (ascii "/a/f") (ascii "/b/f") fails twoFiles) := by
  refine ⟨tree_twoFiles, by decide +kernel, by decide +kernel, by decide +kernel,
    by decide +kernel, fun h => ?_⟩
  obtain ⟨r, hr, hparent⟩ := (h fun n _ => n = 16).parents 3 (directoryRow 1 (ascii "f"))
    (by decide +kernel)
  have hmoved : ((runExchange nobody (ascii "/a/f") (ascii "/b/f") (fun n _ => n = 16)
      twoFiles).sess.committed.files.row 3).map FileRow.parentId = some 0 := by decide +kernel
  rw [hr, Option.map_some, Option.some.injEq] at hmoved
  rw [hmoved] at hparent
  exact absurd hparent (by decide +kernel)

end MyFS
