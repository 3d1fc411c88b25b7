import MyFS.Contents
import MyFS.NoReplace

/-!
# What the server accepts

The limits of the tables are those of their columns: names, owners and modes have a size, and keys run
out. Within them the server refuses a row only if its name is taken, and data never, but for the writes
that `isOk_writeBody_inside_iff` names.
-/

namespace MyFS

open Sql Database Chunks

variable {db db' : Database} {f n offset i len : ℕ} {data : List Byte}

/-! ## Keys -/

/-- There are keys for the blocks of so many bytes. -/
def KeysFor (db : Database) (len : ℕ) : Prop :=
  db.fileData.next + myfsDbFileBlockCount len ≤ uintRange

instance instDecidableKeysFor (db : Database) (len : ℕ) : Decidable (KeysFor db len) :=
  inferInstanceAs (Decidable (_ ≤ _))

theorem blockCount_mono {m : ℕ} (h : m ≤ n) : myfsDbFileBlockCount m ≤ myfsDbFileBlockCount n := by
  unfold myfsDbFileBlockCount myfsFileBlockSize
  split <;> split <;> omega

theorem le_blockCount (n : ℕ) : n ≤ myfsFileBlockSize * myfsDbFileBlockCount n := by
  unfold myfsDbFileBlockCount myfsFileBlockSize
  split <;> omega

theorem KeysFor.mono {m : ℕ} (h : KeysFor db n) (hle : m ≤ n) : KeysFor db m :=
  (Nat.add_le_add_left (blockCount_mono hle) _).trans h

/-- Data that there are keys for have a size. -/
theorem KeysFor.le (h : KeysFor db n) : n ≤ myfsFileBlockSize * uintRange :=
  (le_blockCount n).trans (Nat.mul_le_mul_left _ ((Nat.le_add_left ..).trans h))

/-- The blocks of a file have keys of their own, and 0 is none. -/
theorem Database.Valid.length_blocks_lt_next (h : db.Valid) (f : ℕ) :
    (db.blocks f).length < db.fileData.next := by
  have hsub : (db.blocks f).map Block.fileDataId ⊆ List.range' 1 (db.fileData.next - 1) := by
    intro id hid
    obtain ⟨b, hb, rfl⟩ := List.mem_map.mp hid
    have hpos := h.fileDataId_pos hb
    have hlt := Table.lt_next (mem_blocks.mp hb)
    simp only [List.mem_range'_1]
    omega
  have hle := ((db.nodup_fileDataId f).subperm hsub).length_le
  have hnext := h.dataNextPos
  simp only [List.length_map, List.length_range'] at hle
  omega

/-- Behind the last block all indices are free. -/
theorem KeysFor.newBlocksFit (h : KeysFor db len) (hi : i < db.fileData.next)
    (hfresh : ∀ b ∈ db.blocks f, b.index < i) : NewBlocksFit db f i len := by
  refine ⟨h, fun j hj b hb => ?_⟩
  have hlt := hfresh b hb
  rw [KeysFor] at h
  rw [Nat.mod_eq_of_lt (by omega)]
  omega

/-! ## Appending and truncating -/

theorem next_updateBlock {id : ℕ} {g : List Byte → List Byte} (h : db.updateBlock id g = some db') :
    db'.fileData.next = db.fileData.next := by
  rw [updateBlock] at h
  split at h
  · cases h
    rfl
  · split at h
    · cases h
      rfl
    · cases h

/-- The last block takes what there is room for in it. -/
theorem exists_exec_concatBlock (hv : db.Valid) {pre : List Block} {b : Block}
    (hb : db.blocks f = pre ++ [b]) (data : List Byte) (hfit : b.data.length + data.length ≤ myfsFileBlockSize) :
    ∃ db', (Change.concatBlock b.fileDataId data).exec db = some db' ∧ db'.Valid ∧
      db'.files = db.files ∧ db'.fileData.next = db.fileData.next ∧
      (db'.blocks f).map Block.index = (db.blocks f).map Block.index := by
  have hmem : b ∈ db.blocks f := by simp [hb]
  obtain ⟨db', he⟩ : ∃ db', db.updateBlock b.fileDataId (· ++ data) = some db' := by
    rw [updateBlock, mem_blocks.mp hmem]
    dsimp only
    rw [if_pos (by rw [List.length_append]; exact hfit)]
    exact ⟨_, rfl⟩
  obtain ⟨-, hb', honly⟩ := updateBlock_of_mem hb he
  exact ⟨db', he, hv.updateBlock he, honly.files, next_updateBlock he, by simp [hb, hb']⟩

/-- Appending to a canonical file takes nothing but keys. -/
theorem isOk_appendBlocks (hv : db.Valid) (hc : Canonical (db.blocks f))
    (hf : (db.files.row f).isSome) (hkeys : KeysFor db data.length) :
    ((appendBlocks f data ((Query.lastBlock f).ask db)).eval engine db).1.isOk = true := by
  have hlt := hv.length_blocks_lt f
  have hnext := hv.length_blocks_lt_next f
  rcases List.eq_nil_or_concat' (db.blocks f) with hnil | ⟨pre, b, hb⟩
  · have hask : (Query.lastBlock f).ask db = none := by
      rw [Query.ask, hnil]
      rfl
    rw [hask]
    exact (isOk_insertBlocks hv hf hv.dataNextPos (by simp [hnil]) le_rfl).mpr hkeys
  · have hmem : b ∈ db.blocks f := by simp [hb]
    have hindex : b.index + 1 = (db.blocks f).length := by
      rw [hb] at hc ⊢
      rw [hc.index_eq, List.length_append, List.length_singleton]
    have hid : b.info.fileDataId > 0 := hv.fileDataId_pos hmem
    have hmod : (b.info.index + 1) % uintRange = (db.blocks f).length := by
      show (b.index + 1) % uintRange = _
      rw [hindex, Nat.mod_eq_of_lt hlt]
    have hask : (Query.lastBlock f).ask db = some b.info := by
      rw [Query.ask, hb, List.getLast?_append_of_ne_nil _ (by simp)]
      rfl
    rw [hask, appendBlocks, if_pos hid, hmod]
    split
    · rename_i hroom
      change b.data.length < myfsFileBlockSize at hroom
      -- the indices in use are the same ones afterwards
      obtain ⟨db₁, he, hv₁, hfiles, hnext₁, hindices⟩ := exists_exec_concatBlock hv hb
        (data.take (min data.length (myfsFileBlockSize - b.data.length)))
        (by rw [List.length_take]; omega)
      have hfresh : ∀ x ∈ db₁.blocks f, x.index < (db.blocks f).length := by
        intro x hx
        have hx' := List.mem_map_of_mem (f := Block.index) hx
        rw [hindices, hc.indices] at hx'
        exact List.mem_range.mp hx'
      dsimp only [Block.info]
      rw [eval_dbQuery_andThen_of_some he]
      refine (isOk_insertBlocks hv₁ (by rwa [hfiles]) (by rwa [hnext₁]) hfresh (by simp)).mpr ?_
      rw [hnext₁]
      exact hkeys.mono (by simp)
    · exact (isOk_insertBlocks hv hf hnext hc.index_lt le_rfl).mpr hkeys

/-- A size that there are keys for fits its column. -/
theorem exec_addSize (hv : db.Valid) (hs : db.fileSize f = some (db.content f).length)
    (hkeys : KeysFor db n) : (Change.addSize f n).exec db = some (db.resize f (· + n)) := by
  obtain ⟨r, hr, hsize⟩ := Option.map_eq_some_iff.mp hs
  have hlen := hv.length_content_le f
  have hle := hkeys.le
  rw [Change.exec, updateFile, hr]
  dsimp only
  rw [if_pos]
  · rfl
  · unfold bigintRange myfsFileBlockSize uintRange at *
    simp only [decide_eq_true_eq]
    omega

theorem isSome_resize_row {g : ℕ → ℕ} {x : ℕ} :
    ((db.resize f g).files.row x).isSome = (db.files.row x).isSome := by
  rw [resize, Table.row_modify]
  split
  · rename_i hx
    rw [hx, Option.isSome_map]
  · rfl

/-- An append succeeds if there are keys for what is appended. -/
theorem isOk_appendBody (hv : db.Valid) (hc : Canonical (db.blocks f))
    (hs : db.fileSize f = some (db.content f).length) (hkeys : KeysFor db data.length) :
    ((appendBody f data).eval engine db).1.isOk = true := by
  have hf : (db.files.row f).isSome := by
    rw [← Option.isSome_map (f := FileRow.size)]
    exact Option.isSome_of_eq_some hs
  have hlast : (Query.lastBlock f).ask db =
      (Query.lastBlock f).ask (db.resize f (· + data.length)) := by
    rw [Query.ask, Query.ask, blocks_resize]
  rw [appendBody, eval_dbSelect_andThen, eval_dbQuery_andThen_of_some (exec_addSize hv hs hkeys), hlast]
  exact isOk_appendBlocks (hv.resize f _) (by rwa [blocks_resize]) (by rwa [isSome_resize_row]) hkeys

/-- A truncation succeeds if there are keys for what the file grows by. -/
theorem isOk_truncateBody (hv : db.Valid) (hc : Canonical (db.blocks f))
    (hs : db.fileSize f = some (db.content f).length)
    (hkeys : KeysFor db (n - (db.content f).length)) :
    ((truncateBody f n).eval engine db).1.isOk = true := by
  have hlen := hv.length_content_le f
  have hlt : (db.content f).length < 2 ^ 63 := lt_of_le_content hv le_rfl
  obtain ⟨r, hr, hsize⟩ := Option.map_eq_some_iff.mp hs
  rw [eval_truncateBody hs hlt]
  split
  · rfl
  · have he : (Change.setSize f n).exec db = some (db.resize f fun _ => n) := by
      have hle := hkeys.le
      rw [Change.exec, updateFile, hr]
      dsimp only
      rw [if_pos]
      · rfl
      · unfold bigintRange myfsFileBlockSize uintRange at *
        simp only [decide_eq_true_eq]
        omega
    have hv₁ := hv.resize f fun _ => n
    rw [eval_dbQuery_andThen_of_some he]
    split
    · -- growing appends spaces
      rw [eval_dbSelect_andThen, growBlocks_eq (lastBlock_pos hv₁ f)]
      refine isOk_appendBlocks hv₁ (by rwa [blocks_resize]) ?_ (by rwa [length_spaces])
      rw [isSome_resize_row, hr]
      rfl
    · obtain ⟨db', heval, -⟩ := shrinkBlocks_spec (f := f) shrinkFuel ((db.content f).length - n) hv₁
        (by rw [blocks_resize]; exact (hv.length_blocks_lt f).le) (by rw [content_resize]; omega)
      rw [heval]
      rfl

/-! ## Writing -/

/-- A write that reaches past the end of a file of full blocks succeeds if there are keys. -/
theorem isOk_writeBody_past (hv : db.Valid) (hc : Canonical (db.blocks f))
    (hs : db.fileSize f = some (db.content f).length)
    (hpast : (db.content f).length < offset + data.length) (hle : offset ≤ (db.content f).length)
    (hmod : (db.content f).length % myfsFileBlockSize = 0) (hkeys : KeysFor db data.length) :
    ((writeBody f data offset).eval engine db).1.isOk = true := by
  rw [isOk_writeBody hv hs (lt_of_le_content hv le_rfl)]
  have hpo := blockOffset_lt offset
  obtain ⟨pre, post, rows', db₁, hb, hltPre, hleRows, hpost, -⟩ := writeBody_course hv f data offset
  have hleft : (writeLeft (db.blocks f) data offset).length ≤ data.length := by
    rw [writeLeft, List.length_drop]
    omega
  set rows := writeRows (db.blocks f) data.length offset
  have hn := hv.length_blocks_lt f
  have hbytes := Chunks.length_flatten (hc.chunked.full_of_mod hmod)
  have hcontent : db.content f = ((db.blocks f).map Block.data).flatten := rfl
  rw [← hcontent, List.length_map] at hbytes
  have hcb := hc
  rw [hb] at hcb
  have hindex : writeIndex offset = offset / myfsFileBlockSize := by
    apply writeIndex_eq
    unfold myfsFileBlockSize uintRange at *
    omega
  have hpre : pre.length = writeIndex offset := by
    apply hcb.length_pre_eq hltPre hleRows
    rw [← hb, hindex]
    unfold myfsFileBlockSize at *
    omega
  have hlength := congrArg List.length hb
  rw [List.length_append, List.length_append, hpre, hindex] at hlength
  -- the data do not reach a block behind those that are selected
  have hnil : post.length = 0 := by
    rcases hpost with rfl | hlimit
    · rfl
    · have hcount := le_blockCount data.length
      have hfew : myfsDbFileBlockCount data.length < uintRange := by
        have hnext := hv.dataNextPos
        have hsum : db.fileData.next + myfsDbFileBlockCount data.length ≤ uintRange := hkeys
        omega
      have hoffset := Nat.div_add_mod offset myfsFileBlockSize
      rw [writeLimit, Nat.mod_eq_of_lt hfew] at hlimit
      rw [← hlimit] at hcount
      unfold myfsDbFileBlockOffset myfsFileBlockSize at *
      omega
  have hnext : nextIndex (writeIndex offset) rows = (db.blocks f).length := by
    rw [hcb.nextIndex_eq (by rw [← hb]; exact hn) fun _ => hpre, hlength, hindex, hnil, Nat.add_zero]
  rw [hnext]
  exact (hkeys.mono hleft).newBlocksFit (hv.length_blocks_lt_next f) hc.index_lt

/-! ## Rows -/

/-- The columns of a new file fit, and there is a key for its row. -/
structure RowKept (env : Env) (db : Database) (type : FileType) (mode : ℕ) : Prop where
  key : db.files.next < uintRange
  user : env.user.length ≤ myfsUserNameMaxLen
  group : env.group.length ≤ myfsUserNameMaxLen
  mode : (if mode &&& type.sIf = 0 then mode ||| type.sIf else mode) < 2 ^ 16

/-- A name is taken if a file is found under it. -/
theorem nameTaken_eq_lookup (htree : db.Tree) (p : ℕ) (name : List Byte) :
    db.nameTaken (fun _ => false) p name = (db.lookup p name).isSome := by
  cases hl : db.lookup p name with
  | none =>
    refine nameTaken_eq_false.mpr fun {x r} hr _ hpar hname => ?_
    have hx := htree.lookup_eq_some_iff.mpr ⟨r, hr, hpar, hname⟩
    rw [hl] at hx
    cases hx
  | some x =>
    obtain ⟨r, hr, hpar, hname⟩ := htree.lookup_eq_some_iff.mp hl
    by_contra hfree
    rw [Option.isSome_some, Bool.not_eq_true, nameTaken_eq_false] at hfree
    exact hfree hr rfl hpar hname

/-- Then the row is refused only if the name is taken. -/
theorem RowKept.isSome_exec {env : Env} {type : FileType} {mode p : ℕ} {name : List Byte}
    (h : RowKept env db type mode) (htype : type ≠ .invalid) (hname : name.length ≤ myfsFileNameMaxLen)
    (hp : (db.files.row p).isSome) :
    ((createChange env name type p mode).exec db).isSome = !db.nameTaken (fun _ => false) p name := by
  rw [createChange, Change.exec]
  cases htaken : db.nameTaken (fun _ => false) p name with
  | true => simp
  | false =>
    have hfits : ∀ t : ℤ, (⟨p, name, type, env.user, env.group,
        if mode &&& type.sIf = 0 then mode ||| type.sIf else mode, 0, t, t, t, t⟩ :
          FileRow).fits = true := by
      intro t
      simp only [FileRow.fits, Bool.and_eq_true, decide_eq_true_eq]
      exact ⟨⟨⟨⟨htype, hname⟩, h.user⟩, h.group⟩, h.mode⟩
    rw [if_pos ⟨hfits _, hp, by simp, h.key⟩]
    rfl

/-- A file without children can always be removed. -/
theorem isSome_deleteFile (htree : db.Tree) {id : ℕ} (hne : id ≠ 0)
    (hno : ∀ x r, db.files.row x = some r → r.parentId ≠ id) :
    ((Change.deleteFile id).exec db).isSome = true := by
  obtain ⟨r, hr, -⟩ := htree.root
  have hkeep : ¬db.cascade id 0 = true := by
    rw [htree.cascade_iff hr, above_iff_of_childless hno]
    exact hne.symm
  rw [Change.exec, if_neg hkeep]
  split <;> rfl

/-- A change of one row keeps that rows fit, if it checks this or leaves these columns alone. -/
theorem RowsFit.updateFile (h : RowsFit db) {id : ℕ} {ok : FileRow → Bool} {u : FileRow → FileRow}
    (he : db.updateFile id ok u = some db')
    (hu : ∀ r : FileRow, r.fits = true → ok (u r) = true → (u r).fits = true) : RowsFit db' := by
  intro x s hs
  rw [Database.updateFile] at he
  split at he
  · cases he
    exact h hs
  · rename_i r hr
    split at he
    · rename_i hok
      cases he
      rw [Table.row_modify] at hs
      split at hs
      · rename_i hx
        subst hx
        rw [hr, Option.map_some, Option.some.injEq] at hs
        exact hs ▸ hu r (h hr) hok
      · exact h hs
    · cases he

theorem RowsFit.exec {c : Change} (h : RowsFit db) (he : c.exec db = some db') : RowsFit db' := by
  intro x s hs
  cases c with
  | insertFile p name type user group mode =>
    obtain ⟨r, -, -, -, -, hfits, -, -, -, rfl⟩ := insertFile_cases he
    rw [Table.row_insert] at hs
    split at hs
    · exact Option.some.inj hs ▸ hfits
    · exact h hs
  | deleteFile id =>
    rw [Change.exec] at he
    split at he
    · cases he
      exact h hs
    · split at he
      · cases he
      · cases he
        exact h (Option.filter_eq_some_iff.mp hs).1
  | addSize | setSize | setParent | setTimes =>
    rw [Change.exec] at he
    exact h.updateFile he (fun r hr _ => hr) hs
  | setParentName id p name =>
    rw [Change.exec] at he
    refine h.updateFile he (fun r _ hok => ?_) hs
    simp only [Bool.and_eq_true] at hok
    exact hok.1.1
  | setOwner | setMode =>
    rw [Change.exec] at he
    exact h.updateFile he (fun r _ hok => hok) hs
  | spliceBlock | concatBlock | setBlock | insertBlock | deleteBlock =>
    rw [files_of_onBlocks (by trivial) he] at hs
    exact h hs

end MyFS
