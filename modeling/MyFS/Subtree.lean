import MyFS.NoReplace

/-!
# Moving a subtree

Moving a file is one `UPDATE` of its row, and the files below it come along because their rows name
it as their parent. `Tree.resolve_moveRow` and the lemmas before it say where every path leads then;
`moved_of_rename` is about `myfs_rename`, whatever fails.
-/

namespace MyFS

open Sql Text

namespace Database

variable {db : Database} {id p q x : ℕ} {name n : List Byte} {names old : List (List Byte)}

/-! ## The files below a file -/

/-- What is above the end of a path is the end of one of its prefixes. -/
theorem Above.isPrefix (h : Above db id q) (htree : db.Tree) (hold : db.resolve old = some id)
    (hold' : [] ∉ old) (hq : db.resolve names = some q) (hnames : [] ∉ names) : old <+: names := by
  induction h generalizing names with
  | refl =>
    have heq : old = names := htree.resolve_injective (fun x hx h => hold' (h ▸ hx))
      (fun x hx h => hnames (h ▸ hx)) hold hq
    rw [heq]
  | @child x r hr hne _ ih =>
    rcases List.eq_nil_or_concat names with rfl | ⟨zs, z, rfl⟩
    · exact absurd (Option.some.inj hq).symm hne
    · rw [List.concat_eq_append] at hq hnames ⊢
      have hz : z ≠ [] := fun h => hnames (by simp [h])
      obtain ⟨-, r', hr', hp', -⟩ := htree.resolve_concat hz hq
      obtain rfl : r = r' := Option.some.inj (hr.symm.trans hr')
      exact (ih hp' fun h => hnames (List.mem_append_left _ h)).trans (List.prefix_append _ _)

/-! ## Names after a move -/

section moveRow

variable (htree : db.Tree) (hp : (db.files.row p).isSome) (hnot : ¬Above db id p)
  (hfree : db.nameTaken (· == id) p name = false) (hlen : name.length ≤ myfsFileNameMaxLen)
include htree hp hnot hfree hlen

/-- The moved file is found under its new name and no longer under the old one; every other name
leads where it led before. -/
theorem Tree.lookup_moveRow_iff (hid : (db.files.row id).isSome) :
    (db.moveRow id p name).lookup q n = some x ↔
      x = id ∧ q = p ∧ n = name ∨ x ≠ id ∧ db.lookup q n = some x := by
  have htree' := htree.moveRow hp hnot hfree hlen
  obtain ⟨r, hr⟩ := Option.isSome_iff_exists.mp hid
  rw [htree'.lookup_eq_some_iff, htree.lookup_eq_some_iff]
  constructor
  · rintro ⟨s, hs, rfl, rfl⟩
    obtain ⟨t, ht, -, ⟨hne, rfl⟩ | ⟨rfl, rfl⟩⟩ := row_moveRow hs
    · exact .inr ⟨hne, s, ht, rfl, rfl⟩
    · exact .inl ⟨rfl, rfl, rfl⟩
  · rintro (⟨rfl, rfl, rfl⟩ | ⟨hne, s, hs, rfl, rfl⟩)
    · exact ⟨_, row_moveRow_self hr, rfl, rfl⟩
    · exact ⟨s, by rwa [row_moveRow_of_ne hne], rfl, rfl⟩

/-- Below the moved file names lead where they led before. -/
theorem Tree.resolveFrom_moveRow (hid : (db.files.row id).isSome) (hx : Above db id x)
    (hnames : [] ∉ names) :
    (db.moveRow id p name).resolveFrom x names = db.resolveFrom x names := by
  induction names generalizing x with
  | nil => rfl
  | cons n names ih =>
    rw [List.mem_cons, not_or] at hnames
    -- a file below `x` is not the moved one, which is above `x`
    have hbelow : ∀ {y}, db.lookup x n = some y → y ≠ id ∧ Above db id y := by
      intro y hy
      obtain ⟨r, hr, hpar, hname⟩ := htree.lookup_eq_some_iff.mp hy
      have hne : y ≠ 0 := by
        rintro rfl
        obtain ⟨r₀, hr₀, -, hroot⟩ := htree.root
        obtain rfl : r = r₀ := Option.some.inj (hr.symm.trans hr₀)
        exact hnames.1 (hroot.symm.trans hname)
      subst hpar
      refine ⟨?_, .child hr hne hx⟩
      rintro rfl
      exact htree.not_above_parent hr hne hx
    have hlookup : (db.moveRow id p name).lookup x n = db.lookup x n := by
      ext y
      rw [htree.lookup_moveRow_iff hp hnot hfree hlen hid]
      constructor
      · rintro (⟨-, rfl, -⟩ | ⟨-, hy⟩)
        · exact absurd hx hnot
        · exact hy
      · intro hy
        exact .inr ⟨(hbelow hy).1, hy⟩
    rw [resolveFrom, resolveFrom, hlookup]
    cases hy : db.lookup x n with
    | none => rfl
    | some y => exact ih (hbelow hy).2 hnames.2

/-- A path that does not lead over the moved file leads where it led before. -/
theorem Tree.resolve_moveRow_of_not_above (hid : (db.files.row id).isSome)
    (hq : db.resolve names = some q) (hnames : [] ∉ names) (habove : ¬Above db id q) :
    (db.moveRow id p name).resolve names = some q := by
  induction names using List.reverseRecOn generalizing q with
  | nil => exact hq
  | append_singleton names n ih =>
    have hn : n ≠ [] := fun h => hnames (by simp [h])
    obtain ⟨hne, r, hr, hpar, hname⟩ := htree.resolve_concat hn hq
    have hparent : ¬Above db id r.parentId := fun h => habove (.child hr hne h)
    rw [resolve_append_singleton, ih hpar (fun h => hnames (List.mem_append_left _ h)) hparent,
      Option.bind_some, htree.lookup_moveRow_iff hp hnot hfree hlen hid]
    right
    refine ⟨?_, htree.lookup_eq_some_iff.mpr ⟨r, hr, rfl, hname⟩⟩
    rintro rfl
    exact habove .refl

end moveRow

end Database

/-! ## The whole tree -/

open Database

/-- What is at `old` and below it has come to `new`, and every other path leads where it led
before. -/
structure Moved (old new : List (List Byte)) (db db' : Database) : Prop where
  resolveNew : ∀ names, [] ∉ names → db'.resolve (new ++ names) = db.resolve (old ++ names)
  resolveOld : db'.resolve old = none
  resolveOther : ∀ names, [] ∉ names → ¬old <+: names → ¬new <+: names →
    db'.resolve names = db.resolve names

variable {db : Database} {id p : ℕ} {name : List Byte} {dir old : List (List Byte)}

/-- Moving the row of a file moves its subtree. -/
theorem moved_moveRow (htree : db.Tree) (hold : db.resolve old = some id) (hne : old ≠ [])
    (hold' : [] ∉ old) (hdir : db.resolve dir = some p) (hdir' : [] ∉ dir)
    (houtside : ¬old <+: dir) (hdiff : dir ++ [name] ≠ old)
    (hfree : db.nameTaken (· == id) p name = false) (hlen : name.length ≤ myfsFileNameMaxLen) :
    Moved old (dir ++ [name]) db (db.moveRow id p name) := by
  have hid := htree.row_of_resolve hold
  have hp := htree.row_of_resolve hdir
  have hnot : ¬Above db id p := fun h => houtside (h.isPrefix htree hold hold' hdir hdir')
  have hlookup := fun q n x => htree.lookup_moveRow_iff (q := q) (n := n) (x := x) hp hnot hfree hlen hid
  have hnonempty : ∀ {l : List (List Byte)}, [] ∉ l → ∀ x ∈ l, x ≠ [] := by
    rintro l hl x hx rfl
    exact hl hx
  refine ⟨?_, ?_, ?_⟩
  · intro names hnames
    have hroot := htree.resolve_moveRow_of_not_above hp hnot hfree hlen hid hdir hdir' hnot
    have hmoved : (db.moveRow id p name).resolve (dir ++ [name]) = some id := by
      rw [resolve_append_singleton, hroot, Option.bind_some, hlookup]
      exact .inl ⟨rfl, rfl, rfl⟩
    rw [resolve, resolveFrom_append, ← resolve, hmoved, resolve, resolveFrom_append, ← resolve, hold]
    exact htree.resolveFrom_moveRow hp hnot hfree hlen hid .refl hnames
  · obtain ⟨zs, z, rfl⟩ := (List.eq_nil_or_concat old).resolve_left hne
    rw [List.concat_eq_append] at *
    obtain ⟨hne₀, r, hr, hpar, rfl⟩ := htree.resolve_concat (hnonempty hold' z (by simp)) hold
    have hzs : [] ∉ zs := fun h => hold' (List.mem_append_left _ h)
    have hparent := htree.resolve_moveRow_of_not_above hp hnot hfree hlen hid hpar hzs
      (htree.not_above_parent hr hne₀)
    rw [resolve_append_singleton, hparent, Option.bind_some, Option.eq_none_iff_forall_ne_some]
    intro y hy
    rcases (hlookup _ _ _).mp hy with ⟨-, hq, hn⟩ | ⟨hyne, hy⟩
    · -- the new path would be the old one
      have hsame : dir = zs := htree.resolve_injective (hnonempty hdir') (hnonempty hzs) hdir
        (hq ▸ hpar)
      exact hdiff (by rw [hsame, hn])
    · obtain ⟨s, hs, hspar, hsname⟩ := htree.lookup_eq_some_iff.mp hy
      exact hyne (htree.unique hs hr hspar hsname)
  · intro names hnames hbeside hbeside'
    induction names using List.reverseRecOn with
    | nil => rfl
    | append_singleton names n ih =>
      have hfront : [] ∉ names := fun h => hnames (List.mem_append_left _ h)
      rw [resolve_append_singleton, resolve_append_singleton,
        ih hfront (fun h => hbeside (h.trans (List.prefix_append _ _)))
          fun h => hbeside' (h.trans (List.prefix_append _ _))]
      cases hq : db.resolve names with
      | none => rfl
      | some q =>
        rw [Option.bind_some, Option.bind_some]
        ext y
        rw [hlookup]
        constructor
        · rintro (⟨rfl, rfl, rfl⟩ | ⟨-, hy⟩)
          · have hsame : dir = names := htree.resolve_injective (hnonempty hdir')
              (hnonempty hfront) hdir hq
            exact absurd (List.prefix_refl _) (hsame ▸ hbeside')
          · exact hy
        · intro hy
          refine .inr ⟨?_, hy⟩
          rintro rfl
          have hsame : old = names ++ [n] := htree.resolve_injective (hnonempty hold')
            (hnonempty hnames) hold (by rw [resolve_append_singleton, hq, Option.bind_some, hy])
          exact hbeside (hsame ▸ List.prefix_refl _)

/-! ## The callback, whatever fails -/

/-- A run of `myfs_rename` with `RENAME_NOREPLACE`. -/
def runMove (env : Env) (pathOld pathNew : List Byte) (fails : Failures Query Change)
    (db : Database) : Outcome (Except Fault ℤ) Query Change Database Unit :=
  Sql.run engine () (myfsRename env pathOld pathNew renameNoreplace) fails (Session.idle db)

/-- A last statement that the result is about is made, or the store stays. -/
theorem run_change_reply (c : Change) (fails : Failures Query Change) {s : Conn Unit}
    (hs : s.working = none) {k : Bool → Prog (Except Fault ℤ)} (htrue : k true = .ret (.ok 0))
    (hfalse : k false = .ret (.ok (-eio))) :
    ((Sql.run engine () (.call (.change c) k) fails s).result = .ok 0 ∧
      c.exec s.committed = some (Sql.run engine () (.call (.change c) k) fails s).sess.committed) ∨
    (Sql.run engine () (.call (.change c) k) fails s).result = .ok (-eio) ∧
      (Sql.run engine () (.call (.change c) k) fails s).sess.committed = s.committed := by
  have hvis : s.visible = s.committed := Session.visible_of_none hs
  by_cases href : fails 0 (.change c) = true ∨ engine.exec c s.visible = none
  · rw [run_change_false engine () k href, hfalse]
    exact .inr ⟨rfl, rfl⟩
  · rw [not_or, Bool.not_eq_true] at href
    obtain ⟨v, hv⟩ := Option.ne_none_iff_exists'.mp href.2
    obtain ⟨s', hs'⟩ : ∃ s', s.change engine () c = some s' :=
      ⟨_, by rw [Session.change, hv]; rfl⟩
    obtain ⟨v', hv', hcom, -, -⟩ := Session.change_of_closed hs hs'
    rw [run_change_true engine () k href.1 hs', htrue]
    left
    refine ⟨rfl, ?_⟩
    show engine.exec c s.committed = some s'.committed
    rw [hv', hcom]

/-- The course of a move: it crashes, or it fails and has changed nothing, or the row of the file
that the old path leads to has been moved to the directory of the new one. -/
theorem runMove_cases (env : Env) (htree : db.Tree) (pathOld pathNew : List Byte)
    (fails : Failures Query Change) :
    (∃ e, (runMove env pathOld pathNew fails db).result = .error e) ∨
    (∃ error < 0, (runMove env pathOld pathNew fails db).result = .ok error ∧
      (runMove env pathOld pathNew fails db).sess.committed = db) ∨
    (runMove env pathOld pathNew fails db).result = .ok 0 ∧ ∃ id p,
      db.resolve (components pathOld) = some id ∧
      db.resolve (components (cutDir pathNew)) = some p ∧
      (Change.setParentName id p (cutName pathNew)).exec db
        = some (runMove env pathOld pathNew fails db).sess.committed := by
  have hfinds := fun path => ensures_myfsFileGet env db path
  simp only [lookupPath_eq htree] at hfinds
  have hflags : myfsRename env pathOld pathNew renameNoreplace = myfsRenameMove env pathOld pathNew :=
    rfl
  rw [runMove, hflags, myfsRenameMove]
  rcases run_ensures_andThen engine () (readOnly_myfsFileGet env _ false) _ fails
      (s := (Session.idle db : Conn Unit)) (hfinds _) with
    ⟨e, hres, -⟩ | ⟨file, fails, s, -, hcom, hwork, hres, hsess⟩
  · exact .inl ⟨e, hres⟩
  rw [hres, hsess]
  split
  · exact .inr (.inl ⟨-eexist, by decide, rfl, hcom⟩)
  -- the old file
  have hvis : s.visible = db := (Session.visible_of_none hwork).trans hcom
  rcases run_ensures_andThen engine () (readOnly_myfsFileGet env pathOld false) _ fails
      (by rw [hvis]; exact hfinds pathOld) with
    ⟨e, hres, -⟩ | ⟨fileOld, fails, s₁, hold, hcom₁, hwork₁, hres, hsess⟩
  · exact .inl ⟨e, hres⟩
  rw [hres, hsess]
  rw [hcom] at hcom₁
  rw [hwork] at hwork₁
  rcases fileOld with _ | fileOld
  · exact .inr (.inl ⟨-enoent, by decide, rfl, hcom₁⟩)
  -- the new directory
  have hvis₁ : s₁.visible = db := (Session.visible_of_none hwork₁).trans hcom₁
  rcases run_ensures_andThen engine () (readOnly_myfsFileGet env (cutDir pathNew) false) _ fails
      (by rw [hvis₁]; exact hfinds (cutDir pathNew)) with
    ⟨e, hres, -⟩ | ⟨dirNew, fails, s₂, hdir, hcom₂, hwork₂, hres, hsess⟩
  · exact .inl ⟨e, hres⟩
  dsimp only
  rw [hres, hsess]
  rw [hcom₁] at hcom₂
  rw [hwork₁] at hwork₂
  rcases dirNew with _ | dirNew
  · exact .inr (.inl ⟨-enoent, by decide, rfl, hcom₂⟩)
  dsimp only
  rcases run_change_reply (.setParentName fileOld.fileId dirNew.fileId (cutName pathNew)) fails
      (k := fun success => if success then .ret (.ok 0) else .ret (.ok (-eio))) hwork₂ rfl rfl with
    ⟨hres, hexec⟩ | ⟨hres, hsame⟩
  · rw [hcom₂] at hexec
    exact .inr (.inr ⟨hres, fileOld.fileId, dirNew.fileId, (hold fileOld rfl).1,
      (hdir dirNew rfl).1, hexec⟩)
  · exact .inr (.inl ⟨-eio, by decide, hres, hsame.trans hcom₂⟩)

/-- If `myfs_rename` with `RENAME_NOREPLACE` returns 0, it has moved the file with its subtree; if
it returns an error, nothing has changed. -/
theorem moved_of_rename (env : Env) {pathOld pathNew : List Byte} (htree : db.Tree)
    (hpath : IsPath pathNew) (hroot : components pathOld ≠ [])
    (houtside : ¬components pathOld <+: components (dirname pathNew))
    (hname : (basename pathNew).length ≤ myfsFileNameMaxLen)
    (hdir : (dirname pathNew).length ≤ myfsPathNameMaxLen)
    (hdiff : components pathNew ≠ components pathOld) (fails : Failures Query Change) :
    ((runMove env pathOld pathNew fails db).result = .ok 0 →
      Moved (components pathOld) (components pathNew) db
        (runMove env pathOld pathNew fails db).sess.committed) ∧
    ∀ error < 0, (runMove env pathOld pathNew fails db).result = .ok error →
      (runMove env pathOld pathNew fails db).sess.committed = db := by
  have hnonempty : ∀ path : List Byte, [] ∉ components path := fun path h =>
    ne_nil_of_mem_strtok h rfl
  rcases runMove_cases env htree pathOld pathNew fails with
    ⟨e, hres⟩ | ⟨error, hneg, hres, hsame⟩ | ⟨hres, id, q, hid, hq, hexec⟩
  · rw [hres]
    exact ⟨nofun, nofun⟩
  · rw [hres]
    refine ⟨fun h => ?_, fun _ _ _ => hsame⟩
    have : error = 0 := Except.ok.inj h
    omega
  · refine ⟨fun _ => ?_, fun error hneg h => ?_⟩
    · have hfits : Fits pathNew := ⟨hname, hdir⟩
      rw [hfits.cutDir_eq] at hq
      rw [hfits.cutName_eq] at hexec
      obtain ⟨r, hr⟩ := Option.isSome_iff_exists.mp (htree.row_of_resolve hid)
      obtain ⟨-, hlen, hfree, hmoved⟩ := setParentName_cases hr hexec
      rw [hmoved, hpath.components_eq]
      rw [hpath.components_eq] at hdiff
      exact moved_moveRow htree hid hroot (hnonempty _) hq (hnonempty _) houtside hdiff hfree hlen
    · rw [hres] at h
      have : 0 = error := Except.ok.inj h
      omega

/-- `/a` comes to `/b/cd`. -/
theorem moved_into_directory :
    (runMove nobody (ascii "/a") (ascii "/b/cd") noFailure twoDirectories).result = .ok 0 ∧
      Moved (components (ascii "/a")) (components (ascii "/b/cd")) twoDirectories
        (runMove nobody (ascii "/a") (ascii "/b/cd") noFailure twoDirectories).sess.committed :=
  ⟨by decide, (moved_of_rename nobody tree_twoDirectories ⟨by decide, by decide⟩ (by decide)
    (by decide) (by decide) (by decide) (by decide) noFailure).1 (by decide)⟩

end MyFS
