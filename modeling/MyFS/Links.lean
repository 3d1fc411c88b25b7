import MyFS.Appending
import MyFS.Creation
import MyFS.ReadTheorems

/-!
# Reading symbolic links

`myfs_symlink` stores the target as the data of a new file, and `myfs_readlink` reads it back and
puts a zero behind it, over the last byte if the buffer is full. The target stands in one block;
`readlinkRight_iff` says when this block is fetched.
-/

namespace MyFS

open Sql Database Chunks

variable {env : Env} {path target d : List Byte} {db db' : Database} {f size : ℕ}

/-- The buffer holds as much of the target as it has room for before a final zero, and nothing is
copied behind its end. -/
def ReadlinkRight (target : List Byte) (size : ℕ) (r : Except Fault ReadResult) : Prop :=
  ∃ copies, r = .ok ⟨0, copies⟩ ∧
    (∀ x < min target.length (size - 1), buffer copies x = target[x]?) ∧
    buffer copies (min target.length (size - 1)) = some 0 ∧
    ∀ c ∈ copies, c.count + c.dataLen ≤ size

/-! ## One block -/

/-- A canonical file of less than a block has one. -/
theorem blocks_eq_singleton (hc : Canonical (db.blocks f)) (hpos : 0 < (db.content f).length)
    (hlt : (db.content f).length < myfsFileBlockSize) :
    ∃ b, db.blocks f = [b] ∧ b.data = db.content f := by
  rcases List.eq_nil_or_concat (db.blocks f) with hnil | ⟨init, b, hb⟩
  · rw [content, hnil] at hpos
    simp at hpos
  · rw [List.concat_eq_append] at hb
    have hbytes := length_flatten (canonical_append_singleton.mp (hb ▸ hc)).1.2
    rw [List.length_map] at hbytes
    have hlength := congrArg List.length (content_of_blocks hb)
    rw [List.map_nil, List.flatten_nil, List.append_nil, List.length_append, hbytes] at hlength
    -- a block before the last one would be full
    have hinit : init = [] := by
      apply List.length_eq_zero_iff.mp
      unfold myfsFileBlockSize at hlength hlt
      omega
    subst hinit
    refine ⟨b, hb, ?_⟩
    rw [content, hb]
    simp

/-- A read from the start of a file of one block fetches the block, unless the limit is 0. -/
theorem fetchedRows_singleton {b : Block} (hb : db.blocks f = [b]) (size : ℕ) :
    fetchedRows db f size 0 = if writeLimit size = 0 then [] else [b.data] := by
  have hsel : (db.blocks f).filter (fun b => writeIndex 0 ≤ b.index) = [b] := by
    rw [hb]
    simp [writeIndex, myfsDbFileBlockIndex]
  rw [fetchedRows, writeRows, hsel]
  split
  · rename_i hzero
    rw [hzero]
    rfl
  · rename_i hne
    obtain ⟨n, hn⟩ := Nat.exists_eq_succ_of_ne_zero hne
    rw [hn, List.take_succ_cons, List.take_nil]
    rfl

/-! ## Reading a link back -/

theorem readOnly_myfsReadlink (env : Env) (path : List Byte) (size : ℕ) :
    (myfsReadlink env path size).ReadOnly := by
  apply (readOnly_myfsFileGet env path false).andThen
  rintro (_ | file)
  · exact .ret _
  · dsimp only
    split
    · exact .ret _
    · apply Program.ReadOnly.query
      rintro (_ | rows)
      · exact .ret _
      · show (ite _ _ _ : Prog _).ReadOnly
        split <;> exact .ret _

/-- What `myfs_readlink` makes of the rows it has fetched. -/
def readlinkOf (rows : List (List Byte)) (size : ℕ) : ReadResult :=
  let r := readBlocks rows size 0 0
  if offT r.1 ≤ 0 then ⟨-eio, r.2⟩
  else ⟨0, r.2 ++ [⟨[0], 0, if r.1 = size then r.1 - 1 else r.1, 1⟩]⟩

/-- On a tree, a link that the path leads to is read from its rows. -/
theorem eval_myfsReadlink (htree : db.Tree) (hnext : db.files.next ≤ uintRange) {r : FileRow}
    (hres : db.resolve (strtok (path.drop 1)) = some f) (hrow : db.files.row f = some r)
    (htype : r.type = .softLink) (size : ℕ) :
    ((myfsReadlink env path size).eval engine db).1
      = .ok (readlinkOf (fetchedRows db f size 0) size) := by
  obtain ⟨file, heval, hfile⟩ := eval_myfsFileGet_some env htree hnext hres
  obtain ⟨r', parent, hrow', rfl⟩ := hfile.exists_row
  obtain rfl : r = r' := Option.some.inj (hrow.symm.trans hrow')
  rw [myfsReadlink, (readOnly_myfsFileGet env path false).eval_andThen engine
    (congrArg Prod.fst heval)]
  have hlink : (fileOfRow env f r parent).type = .softLink := htype
  dsimp only
  rw [if_neg (not_not.mpr hlink)]
  show (Program.eval engine (if offT (readBlocks (fetchedRows db f size 0) size 0 0).1 ≤ 0 then _
    else _) db).1 = _
  rw [readlinkOf]
  split <;> rfl

/-- No row, no target. -/
theorem not_readlinkRight_nil (target : List Byte) (size : ℕ) :
    ¬ReadlinkRight target size (.ok (readlinkOf [] size)) := by
  rintro ⟨copies, h, -⟩
  have hret : -eio = 0 := congrArg ReadResult.ret (Except.ok.inj h)
  exact absurd hret (by decide)

/-- One row with the target is enough. -/
theorem readlinkRight_singleton (hpos : 0 < target.length) (hlt : target.length < myfsFileBlockSize)
    (hsize : 0 < size) : ReadlinkRight target size (.ok (readlinkOf [target] size)) := by
  unfold myfsFileBlockSize at hlt
  have hrows : readBlocks [target] size 0 0
      = (min target.length size, [⟨target, 0, 0, min target.length size⟩]) := by
    rw [readBlocks_cons, Nat.zero_add]
    rfl
  have hoff : ¬offT (min target.length size) ≤ 0 := by
    rw [offT_of_lt (by omega)]
    omega
  rw [readlinkOf, hrows]
  dsimp only
  rw [if_neg hoff]
  -- where the zero goes: over the last byte if the buffer is full
  have hend : (if min target.length size = size then min target.length size - 1
      else min target.length size) = min target.length (size - 1) := by
    split <;> omega
  rw [hend]
  refine ⟨_, rfl, ?_, ?_, ?_⟩
  · intro x hx
    show Copy.write (Copy.write (fun _ => none) _) _ x = _
    rw [Copy.write, if_neg (by dsimp only; omega), Copy.write,
      if_pos ⟨Nat.zero_le _, by dsimp only; omega⟩]
    dsimp only
    rw [Nat.zero_add, Nat.sub_zero]
  · show Copy.write _ _ _ = _
    rw [Copy.write, if_pos ⟨le_rfl, Nat.lt_succ_self _⟩]
    dsimp only
    rw [Nat.sub_self]
    rfl
  · intro c hc
    rcases List.mem_append.mp hc with hc | hc
    · rw [List.mem_singleton.mp hc]
      dsimp only
      omega
    · rw [List.mem_singleton.mp hc]
      dsimp only
      omega

/-! ## Creating a link -/

/-- The target that is appended to a new row is its only block, and the files stay what they were but
for its size. -/
theorem blocks_of_appendBody_created (hv : db.Valid) {r : FileRow} (hv₁ : (db.insertRow r).Valid)
    (hsize : r.size = 0) (hpos : 0 < target.length) (hlt : target.length < myfsFileBlockSize)
    (heval : (appendBody db.files.next target).eval engine (db.insertRow r) = (.ok (), db')) :
    db'.files = ((db.insertRow r).resize db.files.next fun s => s + target.length).files ∧
      ∃ b, db'.blocks db.files.next = [b] ∧ b.data = target := by
  have hblocks := blocks_insertRow_next hv r
  have hlong := lengthened_of_appendBlocks (g := fun s => s + target.length) hv₁
    (by rw [hblocks]; exact canonical_nil) (s := 0)
    (by rw [fileSize, row_insertRow_next, ← hsize]; rfl)
    (eval_appendBody heval)
  have hcontent : db'.content db.files.next = target := by
    rw [hlong.content, content, hblocks]
    rfl
  obtain ⟨b, hb, hdata⟩ := blocks_eq_singleton hlong.canonical (by rwa [hcontent])
    (by rwa [hcontent])
  exact ⟨(adds_appendBody heval).onlyData.files, b, hb, hdata.trans hcontent⟩

/-- What a creation of a link leaves: the path leads to a new link, with the target as its only
block. -/
theorem run_symlink (hv : db.Valid) (htree : db.Tree) (hpath : IsPath path)
    (hfits : Fits path) (hdir : (db.resolve (strtok (dirname path))).isSome)
    (hnew : db.resolve (strtok path) = none) (hpos : 0 < target.length)
    (hlt : target.length < myfsFileBlockSize)
    (hok : (CreateOp.run env path (.symlink target) db).result = .ok 0) :
    ∃ (db' : Database) (r : FileRow) (b : Block),
      (CreateOp.run env path (.symlink target) db).sess.working = none ∧
      (CreateOp.run env path (.symlink target) db).sess.committed = db' ∧
      db'.Tree ∧ db'.files.next ≤ uintRange ∧
      db'.resolve (strtok path) = some db.files.next ∧ db'.files.row db.files.next = some r ∧
      r.type = .softLink ∧ db'.blocks db.files.next = [b] ∧ b.data = target := by
  obtain ⟨p, hp⟩ := Option.isSome_iff_exists.mp hdir
  rcases run_of_parent env (.symlink target) hv htree hpath hdir hnew
    (by rw [hfits.cutDir_eq]; exact hp) with
    ⟨-, hres, -⟩ | ⟨r, s, he, hacc, htype, hsize, hnext, hw, hs, hres, hsess⟩
  · exact absurd (Except.ok.inj (hok.symm.trans hres)) (by decide)
  have hv₁ : (db.insertRow r).Valid := hv.exec he
  obtain ⟨happ, hcom, hclosed⟩ := run_myfsDbFileAppend hw db.files.next target
  rw [CreateOp.after, run_bind] at hres hsess
  change (CreateOp.run env path (.symlink target) db).result = _ at hres
  change (CreateOp.run env path (.symlink target) db).sess = _ at hsess
  dsimp only at hres hsess
  set o := Sql.run engine () (myfsDbFileAppend db.files.next target) noFailure s
  rw [hs] at happ hcom
  -- the append has succeeded, or the callback would have returned an error
  have htrue : ((appendBody db.files.next target).eval engine (db.insertRow r)).1.isOk = true := by
    by_contra hfalse
    rw [Bool.not_eq_true] at hfalse
    rw [happ, hfalse] at hres
    exact absurd (Except.ok.inj (hok.symm.trans hres)) (by decide)
  rw [htrue] at happ hcom
  rw [happ] at hsess
  change _ = o.sess at hsess
  obtain ⟨⟨⟩, heval⟩ := Except.isOk_iff.mp htrue
  obtain ⟨hfiles, b, hb, hdata⟩ := blocks_of_appendBody_created hv hv₁ hsize hpos hlt
    (Prod.ext heval rfl)
  set db' := ((appendBody db.files.next target).eval engine (db.insertRow r)).2
  have hsame := sameTree_of_files hfiles
  refine ⟨db', { r with size := r.size + target.length }, b, ?_, ?_, hsame.tree hacc.insertRow_tree,
    ?_, ?_, ?_, htype, hb, hdata⟩
  · rw [hsess, hclosed]
  · rw [hsess, hcom]
    rfl
  · rw [hfiles]
    exact hv₁.filesNextLe
  · rw [hsame.resolve_eq hacc.insertRow_tree, hacc.resolve_path, if_pos hfits]
  · rw [hfiles, resize, Table.row_modify, if_pos rfl, row_insertRow_next]
    rfl

/-! ## The round trip -/

/-- What `myfs_readlink` returns after `myfs_symlink` on the same connection. -/
def readlinkAfterSymlink (env : Env) (path target : List Byte) (size : ℕ) (db : Database) :
    Except Fault ReadResult :=
  (Sql.run engine () (myfsReadlink env path size) noFailure
    (CreateOp.run env path (.symlink target) db).sess).result

/-- A link that has been created is read back right exactly if the number of blocks of the buffer,
which is the limit of the read, is not cut to 0. -/
theorem readlinkRight_iff (hv : db.Valid) (htree : db.Tree) (hpath : IsPath path)
    (hfits : Fits path) (hdir : (db.resolve (strtok (dirname path))).isSome)
    (hnew : db.resolve (strtok path) = none) (hpos : 0 < target.length)
    (hle : target.length ≤ 4095) (hsize : 0 < size)
    (hok : (CreateOp.run env path (.symlink target) db).result = .ok 0) :
    ReadlinkRight target size (readlinkAfterSymlink env path target size db) ↔
      myfsDbFileBlockCount size % uintRange ≠ 0 := by
  have hlt : target.length < myfsFileBlockSize := Nat.lt_succ_of_le hle
  obtain ⟨db', r, b, hw, hcom, htree', hnext, hres, hrow, htype, hb, hdata⟩ :=
    run_symlink hv htree hpath hfits hdir hnew hpos hlt hok
  have hvis : (CreateOp.run env path (.symlink target) db).sess.visible = db' :=
    (Session.visible_of_none hw).trans hcom
  rw [← hpath.strtok_drop_one] at hres
  rw [readlinkAfterSymlink, run_readOnly_noFailure engine () (readOnly_myfsReadlink env path size),
    hvis, eval_myfsReadlink htree' hnext hres hrow htype, fetchedRows_singleton hb, hdata]
  show _ ↔ writeLimit size ≠ 0
  split
  · rename_i hzero
    exact iff_of_false (not_readlinkRight_nil target size) (not_not.mpr hzero)
  · rename_i hne
    exact iff_of_true (readlinkRight_singleton hpos hlt hsize) hne

/-! ## A link in the root -/

/-- The path `/a`. -/
def linkPath : List Byte := [slash, 97]

theorem isPath_linkPath : IsPath linkPath := ⟨rfl, by decide⟩

/-- A target of two bytes is read back into a buffer of two, where the zero takes the place of the
second one. -/
theorem readlinkRight_linkPath :
    ReadlinkRight [98, 99] 2 (readlinkAfterSymlink nobody linkPath [98, 99] 2 emptyStore) :=
  (readlinkRight_iff valid_emptyStore tree_emptyStore isPath_linkPath (by decide) (by decide)
    (by decide) (by decide) (by decide) (by decide) (by decide)).mpr (by decide)

/-- With a buffer of `2 ^ 44` bytes nothing is fetched, and the result is EIO. -/
theorem readlink_huge_buffer_fails :
    emptyStore.Valid ∧ emptyStore.Tree ∧ IsPath linkPath ∧ Fits linkPath ∧
      (emptyStore.resolve (strtok (dirname linkPath))).isSome ∧
      emptyStore.resolve (strtok linkPath) = none ∧
      (CreateOp.run nobody linkPath (.symlink [98]) emptyStore).result = .ok 0 ∧
      (readlinkAfterSymlink nobody linkPath [98] (2 ^ 44) emptyStore).map ReadResult.ret
        = .ok (-eio) ∧
      ¬ReadlinkRight [98] (2 ^ 44) (readlinkAfterSymlink nobody linkPath [98] (2 ^ 44) emptyStore) := by
  have hret : (readlinkAfterSymlink nobody linkPath [98] (2 ^ 44) emptyStore).map ReadResult.ret
      = .ok (-eio) := by decide
  refine ⟨valid_emptyStore, tree_emptyStore, isPath_linkPath, by decide, by decide, by decide,
    by decide, hret, ?_⟩
  rintro ⟨copies, h, -⟩
  rw [h] at hret
  have hzero : (0 : ℤ) = -eio := Except.ok.inj hret
  exact absurd hzero (by decide)

end MyFS
