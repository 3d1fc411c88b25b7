import MyFS.Layout

/-!
# Overwriting a file in place

How many blocks `myfs_db_file_write` selects depends on the length of the data alone. A write that
starts inside a block can reach into one block more than that; what is left is then inserted as a
new block, under an index that is taken.

* `writeBody_course`: every write, up to its new blocks.
* `overwrittenInPlace_iff`: exactly the writes inside a file that the selected blocks have room for
  succeed.
-/

namespace MyFS

open Sql Database Chunks

variable {db db' : Database} {f offset : ℕ} {data : List Byte}

/-! ## The course of a write -/

theorem exists_exec_spliceBlock (hv : db.Valid) (id : ℕ) {pos : ℕ} {new : List Byte}
    (hfit : pos + new.length ≤ myfsFileBlockSize) :
    ∃ db', (Change.spliceBlock id (pos + 1) new.length new).exec db = some db' ∧
      db'.fileData.next = db.fileData.next := by
  rw [Change.exec, updateBlock]
  cases hr : db.fileData.row id with
  | none => exact ⟨db, rfl, rfl⟩
  | some r =>
    have hlen := hv.lengthLe hr
    dsimp only
    rw [sqlInsert_eq_patch, length_patch, if_pos]
    · exact ⟨_, rfl, rfl⟩
    · split <;> omega

/-- The blocks that are there can always be overwritten. -/
theorem exists_eval_writeBlocks (rows : List BlockInfo) (index : ℕ) {pageOffset written : ℕ}
    (left : List Byte) (hv : db.Valid) (hpo : pageOffset < myfsFileBlockSize)
    (hw : written ≠ 0 → pageOffset = 0) :
    ∃ out db', (writeBlocks rows index pageOffset written left).eval engine db = (.ok out, db') ∧
      db'.fileData.next = db.fileData.next := by
  induction rows generalizing db index pageOffset written left with
  | nil => exact ⟨_, db, rfl, rfl⟩
  | cons b rows ih =>
    rw [writeBlocks]
    split
    · have hsize : (if written = 0 then min left.length (myfsFileBlockSize - pageOffset)
          else min left.length myfsFileBlockSize)
            = min left.length (myfsFileBlockSize - pageOffset) := by
        split
        · rfl
        · rw [hw ‹_›, Nat.sub_zero]
      have htake : (left.take (min left.length (myfsFileBlockSize - pageOffset))).length
          = min left.length (myfsFileBlockSize - pageOffset) := by
        rw [List.length_take]
        omega
      obtain ⟨db₁, he, hnext⟩ := exists_exec_spliceBlock hv b.fileDataId
        (show pageOffset + (left.take (min left.length (myfsFileBlockSize - pageOffset))).length
          ≤ myfsFileBlockSize by rw [htake]; omega)
      rw [htake] at he
      dsimp only
      rw [hsize]
      obtain ⟨out, db', hrest, hnext'⟩ := ih _ _ (hv.exec he) (by decide) fun _ => rfl
      exact ⟨out, db', eval_dbQuery_andThen.mpr ⟨db₁, he, hrest⟩, hnext'.trans hnext⟩
    · exact ⟨_, db, rfl, rfl⟩

/-- What a write does not find room for in the blocks that it selects. -/
def writeLeft (bs : List Block) (data : List Byte) (offset : ℕ) : List Byte :=
  data.drop (myfsFileBlockSize * (writeRows bs data.length offset).length
    - myfsDbFileBlockOffset offset)

/-- A write splits the file into the blocks before the selected ones, those and the rest,
overwrites the selected ones and goes on with what is left. -/
theorem writeBody_course (hv : db.Valid) (f : ℕ) (data : List Byte) (offset : ℕ) :
    ∃ pre post rows' db₁,
      db.blocks f = pre ++ writeRows (db.blocks f) data.length offset ++ post ∧
      (∀ b ∈ pre, b.index < writeIndex offset) ∧
      (∀ b ∈ writeRows (db.blocks f) data.length offset ++ post, writeIndex offset ≤ b.index) ∧
      (post = [] ∨ (writeRows (db.blocks f) data.length offset).length = writeLimit data.length) ∧
      db₁.blocks f = pre ++ rows' ++ post ∧
      rows'.map Block.index = (writeRows (db.blocks f) data.length offset).map Block.index ∧
      rows'.map Block.data = (Chunks.overwrite myfsFileBlockSize
        ((writeRows (db.blocks f) data.length offset).map Block.data)
        (myfsDbFileBlockOffset offset) data).1 ∧
      OnlyData f db db₁ ∧ db₁.Valid ∧ db₁.fileData.next = db.fileData.next ∧
      (writeBody f data offset).eval engine db
        = (writeNewBlocks f (nextIndex (writeIndex offset)
            (writeRows (db.blocks f) data.length offset))
          (writeLeft (db.blocks f) data offset)).eval engine db₁ := by
  have hpo := blockOffset_lt offset
  obtain ⟨pre, post, hb, hlt, hle, hpost⟩ := exists_writeRows hv f data.length offset
  obtain ⟨⟨index', left'⟩, db₁, hwrite, hnext⟩ := exists_eval_writeBlocks
    ((writeRows (db.blocks f) data.length offset).map Block.info) (writeIndex offset) data hv hpo
    (show 0 ≠ 0 → _ from fun h => absurd rfl h)
  obtain ⟨rows', hb₁, hindex, hover, hnextIndex, hdata⟩ := writeBlocks_spec hb (by simp) hwrite
  obtain ⟨hrows', hleft⟩ := Prod.mk.inj hover
  have hleft' : left' = writeLeft (db.blocks f) data offset := by
    rw [hleft, overwrite_left hpo, List.length_map, writeLeft]
  refine ⟨pre, post, rows', db₁, hb, hlt, hle, hpost, hb₁, hindex, hrows', hdata, ?_, hnext, ?_⟩
  · have hvalid := valid_eval (writeBlocks ((writeRows (db.blocks f) data.length offset).map
      Block.info) (writeIndex offset) (myfsDbFileBlockOffset offset) 0 data) hv
    rwa [hwrite] at hvalid
  · rw [writeBody]
    dsimp only
    rw [eval_dbSelect_andThen, Program.andThen, Program.eval_bind]
    have hwrite' : (writeBlocks ((Query.blockInfos f (myfsDbFileBlockIndex offset % uintRange)
        (myfsDbFileBlockCount data.length % uintRange)).ask db)
        (myfsDbFileBlockIndex offset % uintRange) (myfsDbFileBlockOffset offset) 0 data).eval
          engine db = (.ok (index', left'), db₁) := hwrite
    rw [hwrite']
    show (writeNewBlocks f index' left').eval engine db₁ = _
    rw [hleft']
    by_cases hnil : writeLeft (db.blocks f) data offset = []
    · rw [hnil]
      rfl
    · rw [hnextIndex (by rw [hleft']; exact hnil)]

theorem writeIndex_lt (offset : ℕ) : writeIndex offset < uintRange := Nat.mod_lt _ (by decide)

theorem nextIndex_lt {index : ℕ} (h : index < uintRange) (rows : List Block) :
    nextIndex index rows < uintRange := by
  unfold nextIndex
  split
  · exact h
  · exact Nat.mod_lt _ (by decide)

/-- What is left is accepted if there are keys and free indices for its blocks. -/
theorem isOk_writeNewBlocks {index s : ℕ} {left : List Byte} (hv : db.Valid)
    (hs : db.fileSize f = some s) (hlt : s < 2 ^ 63) (hi : index < uintRange) :
    ((writeNewBlocks f index left).eval engine db).1.isOk = true ↔
      NewBlocksFit db f index left.length := by
  obtain ⟨r, hr, rfl⟩ := Option.map_eq_some_iff.mp hs
  rw [writeNewBlocks]
  split
  · have hle : left.length / 4096 ≤ myfsDbFileBlockCount left.length := by
      unfold myfsDbFileBlockCount myfsFileBlockSize
      split <;> omega
    rw [dbQuery, Program.call_andThen]
    cases he : (Change.addSize f left.length).exec db with
    | none =>
      -- the size is out of range, and so are the blocks
      rw [Program.eval_change_of_none engine (c := .addSize f _) _ he]
      refine iff_of_false (by simp [Except.isOk, Except.toBool]) fun hfit => ?_
      rw [Change.exec, updateFile, hr] at he
      have hbig : ¬r.size + left.length < bigintRange := by simpa using he
      have hkeys := hfit.1
      unfold bigintRange at hbig
      unfold uintRange at hkeys
      omega
    | some db₁ =>
      rw [Program.eval_change_of_some engine (c := .addSize f _) _ he]
      obtain rfl := eq_resize_of_addSize he
      have hf : ((db.resize f (· + left.length)).files.row f).isSome := by
        rw [Database.resize, Table.row_modify, if_pos rfl, hr]
        rfl
      simp only [if_true, Program.ret_ok_andThen]
      rw [isOk_insertBlocks_iff (hv.resize f _) hf hi le_rfl]
      exact newBlocksFit_congr rfl (by rw [blocks_resize]) _ _
  · rename_i hpos
    have hleft : left.length = 0 := by omega
    rw [hleft]
    exact iff_of_true rfl (newBlocksFit_zero hv f _)

/-- A write succeeds exactly if there are keys and free indices for what it does not find room
for. -/
theorem isOk_writeBody (hv : db.Valid) {s : ℕ} (hs : db.fileSize f = some s) (hlt : s < 2 ^ 63) :
    ((writeBody f data offset).eval engine db).1.isOk = true ↔
      NewBlocksFit db f (nextIndex (writeIndex offset)
        (writeRows (db.blocks f) data.length offset)) (writeLeft (db.blocks f) data offset).length := by
  obtain ⟨pre, post, rows', db₁, hb, -, -, -, hb₁, hindices, -, honly, hv₁, hnext, heval⟩ :=
    writeBody_course hv f data offset
  rw [heval, isOk_writeNewBlocks hv₁ (by rw [honly.fileSize]; exact hs) hlt
    (nextIndex_lt (writeIndex_lt offset) _)]
  refine newBlocksFit_congr hnext ?_ _ _
  rw [hb₁, congrArg (List.map Block.index) hb]
  simp only [List.map_append, hindices]

/-! ## Writing inside a file -/

/-- A run of `myfs_db_file_write`. -/
def runWrite (f : ℕ) (data : List Byte) (offset : ℕ) (fails : Failures Query Change)
    (db : Database) : Outcome Bool Query Change Database Unit :=
  Sql.run engine () (myfsDbFileWrite f data offset) fails (Session.idle db)

/-- The write has succeeded, the data stand where they were written, and the size of the file, the
lengths of its blocks and all other files are as before. -/
structure OverwrittenInPlace (f : ℕ) (data : List Byte) (offset : ℕ) (db : Database) (ok : Bool)
    (db' : Database) : Prop where
  ok : ok = true
  content : db'.content f
    = (db.content f).take offset ++ data ++ (db.content f).drop (offset + data.length)
  lengths : (db'.blocks f).map (fun b => b.data.length) = (db.blocks f).map fun b => b.data.length
  files : db'.files = db.files
  others : ∀ f' ≠ f, db'.blocks f' = db.blocks f'

section Canonical

variable {pre rows post : List Block}

/-- The bytes before the selected blocks of a canonical file. -/
theorem Canonical.length_flatten_pre {i : ℕ} (hc : Canonical (pre ++ rows ++ post))
    (hlt : ∀ b ∈ pre, b.index < i) (hle : ∀ b ∈ rows ++ post, i ≤ b.index)
    (hne : rows ++ post ≠ []) : (pre.map Block.data).flatten.length = myfsFileBlockSize * i := by
  rw [Chunks.length_flatten (hc.full_pre hne), List.length_map, (hc.length_pre hlt hle).2 hne]

/-- A write inside a canonical file starts in one of its blocks, and its index and its limit are
not cut off. -/
theorem Canonical.writeIndex_inside {len : ℕ} (hc : Canonical (pre ++ rows ++ post))
    (hn : (pre ++ rows ++ post).length < uintRange)
    (hlt : ∀ b ∈ pre, b.index < writeIndex offset) (hpos : 0 < len)
    (hfit : offset + len ≤ ((pre ++ rows ++ post).map Block.data).flatten.length) :
    writeIndex offset = offset / myfsFileBlockSize ∧ writeLimit len = myfsDbFileBlockCount len ∧
      rows ++ post ≠ [] := by
  have hbytes := length_flatten_le hc.chunked.length_le
  rw [List.length_map] at hbytes
  have hindex : writeIndex offset = offset / myfsFileBlockSize := by
    apply writeIndex_eq
    unfold myfsFileBlockSize uintRange at *
    omega
  refine ⟨hindex, ?_, ?_⟩
  · rw [writeLimit, Nat.mod_eq_of_lt]
    unfold myfsDbFileBlockCount myfsFileBlockSize uintRange at *
    split <;> omega
  · rintro hnil
    have hpre : pre.length ≤ writeIndex offset := (hc.length_pre hlt (by rw [hnil]; simp)).1
    obtain ⟨rfl, rfl⟩ := List.append_eq_nil_iff.mp hnil
    simp only [List.append_nil] at hbytes hfit
    unfold myfsFileBlockSize at *
    omega

/-- If the selected blocks have room for the data, the data end inside them. -/
theorem Canonical.fits_rows {len : ℕ} (hc : Canonical (pre ++ rows ++ post))
    (hlt : ∀ b ∈ pre, b.index < writeIndex offset)
    (hle : ∀ b ∈ rows ++ post, writeIndex offset ≤ b.index)
    (hindex : writeIndex offset = offset / myfsFileBlockSize) (hne : rows ++ post ≠ [])
    (hpost : post = [] ∨ rows.length = myfsDbFileBlockCount len)
    (hfit : offset + len ≤ ((pre ++ rows ++ post).map Block.data).flatten.length)
    (hroom : myfsDbFileBlockOffset offset + len ≤ myfsFileBlockSize * myfsDbFileBlockCount len) :
    myfsDbFileBlockOffset offset + len ≤ (rows.map Block.data).flatten.length := by
  have hbytes := length_flatten_append₃ pre rows post
  rw [hc.length_flatten_pre hlt hle hne, hindex] at hbytes
  have hsplit := Nat.div_add_mod offset myfsFileBlockSize
  rw [myfsDbFileBlockOffset] at hroom ⊢
  rcases eq_or_ne post [] with rfl | hpne
  · simp only [List.map_nil, List.flatten_nil, List.length_nil] at hbytes
    omega
  · rcases hpost with hnil | hcount
    · exact absurd hnil hpne
    · rw [Chunks.length_flatten (hc.full_rows hpne), List.length_map, hcount]
      exact hroom

/-- If they have not, the block behind them is where the first new one would go. -/
theorem Canonical.index_taken {len : ℕ} (hc : Canonical (pre ++ rows ++ post))
    (hn : (pre ++ rows ++ post).length < uintRange)
    (hlt : ∀ b ∈ pre, b.index < writeIndex offset)
    (hle : ∀ b ∈ rows ++ post, writeIndex offset ≤ b.index)
    (hindex : writeIndex offset = offset / myfsFileBlockSize) (hne : rows ++ post ≠ [])
    (hrows : rows.length ≤ myfsDbFileBlockCount len)
    (hfit : offset + len ≤ ((pre ++ rows ++ post).map Block.data).flatten.length)
    (hroom : myfsFileBlockSize * myfsDbFileBlockCount len < myfsDbFileBlockOffset offset + len) :
    ∃ b ∈ pre ++ rows ++ post, b.index = nextIndex (writeIndex offset) rows := by
  have hbytes := length_flatten_append₃ pre rows post
  rw [hc.length_flatten_pre hlt hle hne, hindex] at hbytes
  have hsplit := Nat.div_add_mod offset myfsFileBlockSize
  have hrowsle := length_flatten_le hc.chunked_rows.length_le
  rw [List.length_map] at hrowsle
  have hmul := Nat.mul_le_mul_left myfsFileBlockSize hrows
  rw [myfsDbFileBlockOffset] at hroom
  cases hp : post with
  | nil =>
    rw [hp] at hbytes hfit
    simp only [List.map_nil, List.flatten_nil, List.length_nil] at hbytes
    omega
  | cons b rest =>
    have hpre := (hc.length_pre hlt hle).2 hne
    have hnext := hc.nextIndex_eq (i := writeIndex offset) hn fun _ => hpre
    rw [hp] at hc
    refine ⟨b, by simp, ?_⟩
    rw [hnext, hc.index_eq, List.length_append, hpre]

end Canonical

/-- Whether a run of a write succeeds, and what it leaves. -/
theorem runWrite_noFailure (f : ℕ) (data : List Byte) (offset : ℕ) (db : Database) :
    (runWrite f data offset noFailure db).result
        = ((writeBody f data offset).eval engine db).1.isOk ∧
      (runWrite f data offset noFailure db).sess.committed
        = if ((writeBody f data offset).eval engine db).1.isOk
          then ((writeBody f data offset).eval engine db).2 else db := by
  obtain ⟨hres, hcom, -⟩ := run_myfsDbFileWrite (s := Session.idle db) rfl f data offset
  exact ⟨hres, hcom⟩

/-- Data that end inside the selected blocks stand there, between what was before and behind. -/
theorem flatten_overwrite_rows {pre rows rows' post : List Block} {data : List Byte} {po : ℕ}
    (hpo : po < myfsFileBlockSize) (hch : Chunked myfsFileBlockSize (rows.map Block.data))
    (hfit : po + data.length ≤ (rows.map Block.data).flatten.length)
    (hdata : rows'.map Block.data
      = (Chunks.overwrite myfsFileBlockSize (rows.map Block.data) po data).1) :
    ((pre ++ rows' ++ post).map Block.data).flatten
      = ((pre ++ rows ++ post).map Block.data).flatten.take
          ((pre.map Block.data).flatten.length + po) ++ data ++
        ((pre ++ rows ++ post).map Block.data).flatten.drop
          ((pre.map Block.data).flatten.length + po + data.length) := by
  have hflat := hch.flatten_overwrite hpo hfit
  rw [← hdata] at hflat
  simp only [List.map_append, List.flatten_append]
  rw [hflat, Nat.add_assoc]
  simp only [List.append_assoc]
  rw [List.take_length_add_append, List.drop_length_add_append,
    List.take_append_of_le_length (by omega), List.drop_append_of_le_length hfit, List.append_assoc]

/-- With nothing left for new blocks, what the loop has done is committed. -/
theorem runWrite_of_left_nil {db₁ : Database}
    (heval : (writeBody f data offset).eval engine db
      = (writeNewBlocks f (nextIndex (writeIndex offset)
          (writeRows (db.blocks f) data.length offset))
        (writeLeft (db.blocks f) data offset)).eval engine db₁)
    (hnil : writeLeft (db.blocks f) data offset = []) :
    (runWrite f data offset noFailure db).result = true ∧
      (runWrite f data offset noFailure db).sess.committed = db₁ := by
  obtain ⟨hresult, hcommitted⟩ := runWrite_noFailure f data offset db
  have hok : (writeBody f data offset).eval engine db = (.ok (), db₁) := by
    rw [heval, hnil]
    rfl
  rw [hresult, hcommitted, hok]
  exact ⟨rfl, rfl⟩

/-- A write of no bytes selects no block. -/
theorem overwrittenInPlace_nil (hv : db.Valid) (f offset : ℕ) :
    OverwrittenInPlace f [] offset db (runWrite f [] offset noFailure db).result
      (runWrite f [] offset noFailure db).sess.committed := by
  obtain ⟨pre, post, rows', db₁, hb, -, -, -, hb₁, -, hdata, honly, -, -, heval⟩ :=
    writeBody_course hv f [] offset
  have hnone : writeRows (db.blocks f) ([] : List Byte).length offset = [] := List.take_zero
  rw [hnone] at hb hdata
  have hnone' : rows' = [] := by simpa using hdata
  obtain ⟨hok, hcom⟩ := runWrite_of_left_nil heval List.drop_nil
  have hsame : db₁.blocks f = db.blocks f := by rw [hb, hb₁, hnone']
  rw [hok, hcom]
  refine ⟨rfl, ?_, by rw [hsame], honly.files, honly.blocks⟩
  rw [content, hsame]
  simp [content]

/-- A write inside a canonical file does what it promises exactly if the data, from where they
start in their first block on, fit into as many blocks as they need by themselves. -/
theorem overwrittenInPlace_iff (hv : db.Valid) (hc : Canonical (db.blocks f))
    (hs : db.fileSize f = some (db.content f).length)
    (hfit : offset + data.length ≤ (db.content f).length) :
    OverwrittenInPlace f data offset db (runWrite f data offset noFailure db).result
        (runWrite f data offset noFailure db).sess.committed ↔
      data = [] ∨ myfsDbFileBlockOffset offset + data.length
        ≤ myfsFileBlockSize * myfsDbFileBlockCount data.length := by
  rcases eq_or_ne data [] with rfl | hne
  · exact iff_of_true (overwrittenInPlace_nil hv f offset) (.inl rfl)
  rw [or_iff_right hne]
  have hpo := blockOffset_lt offset
  have hpos := List.length_pos_iff.mpr hne
  obtain ⟨hresult, -⟩ := runWrite_noFailure f data offset db
  obtain ⟨pre, post, rows', db₁, hb, hlt, hle, hpost, hb₁, -, hdata, honly, -, -, heval⟩ :=
    writeBody_course hv f data offset
  have hrows : (writeRows (db.blocks f) data.length offset).length ≤ writeLimit data.length := by
    rw [writeRows, List.length_take]
    exact min_le_left _ _
  have hdone := runWrite_of_left_nil heval
  set rows := writeRows (db.blocks f) data.length offset with hrowsdef
  have hcb := hc
  have hn := hv.length_blocks_lt f
  rw [hb] at hcb hn
  have hcontent : db.content f = ((pre ++ rows ++ post).map Block.data).flatten := by
    rw [content, hb]
  rw [hcontent] at hfit
  obtain ⟨hindex, hlimit, hsome⟩ := hcb.writeIndex_inside hn hlt hpos hfit
  rw [hlimit] at hpost hrows
  constructor
  · intro h
    by_contra hroom
    obtain ⟨b, hmem, htaken⟩ :=
      hcb.index_taken hn hlt hle hindex hsome hrows hfit (Nat.lt_of_not_le hroom)
    have hok := h.ok
    rw [hresult, isOk_writeBody hv hs (lt_of_le_content hv le_rfl), ← hrowsdef] at hok
    have hmul := Nat.mul_le_mul_left myfsFileBlockSize hrows
    have hleft : 0 < (writeLeft (db.blocks f) data offset).length := by
      rw [writeLeft, ← hrowsdef, List.length_drop]
      omega
    -- the first new block would take an index twice
    exact hok.index_ne hleft (nextIndex_lt (writeIndex_lt offset) rows) (by rw [hb]; exact hmem)
      htaken
  · intro hroom
    have hin := hcb.fits_rows hlt hle hindex hsome hpost hfit hroom
    have hch := hcb.chunked_rows
    have hroomRows := length_flatten_le hch.length_le
    rw [List.length_map] at hroomRows
    obtain ⟨hok, hcom⟩ := hdone (List.drop_eq_nil_of_le (by rw [← hrowsdef]; omega))
    have hsame := hch.map_length_overwrite hpo hin
    rw [← hdata, List.map_map, List.map_map] at hsame
    have hstart : (pre.map Block.data).flatten.length + myfsDbFileBlockOffset offset = offset := by
      rw [hcb.length_flatten_pre hlt hle hsome, hindex]
      exact Nat.div_add_mod _ _
    rw [hok, hcom]
    refine ⟨rfl, ?_, ?_, honly.files, honly.blocks⟩
    · rw [hcontent, content, hb₁, flatten_overwrite_rows hpo hch hin hdata, hstart]
    · -- block by block, the lengths are what they were
      rw [hb, hb₁]
      simp only [List.map_append]
      exact congrArg (_ ++ · ++ _) hsame

/-! ## A file of two blocks -/

/-- A file with a full block and one byte in a second one. -/
def twoBlocks : Database :=
  (StoreOp.txn (.append 1 (List.replicate 4097 97))).run nobody noFailure storeWithFile

theorem reachable_twoBlocks : Reachable nobody WritesKeepLayout twoBlocks :=
  .step _ _ (.step _ _ .empty trivial) trivial

theorem fileSize_twoBlocks : twoBlocks.fileSize 1 = some 4097 := by decide +kernel

theorem length_content_twoBlocks : (twoBlocks.content 1).length = 4097 :=
  length_content_of_reachable reachable_twoBlocks fileSize_twoBlocks

/-- Two bytes at the start of the file are overwritten. -/
theorem overwrittenInPlace_start :
    OverwrittenInPlace 1 [98, 98] 0 twoBlocks (runWrite 1 [98, 98] 0 noFailure twoBlocks).result
      (runWrite 1 [98, 98] 0 noFailure twoBlocks).sess.committed :=
  (overwrittenInPlace_iff reachable_twoBlocks.valid
    (canonical_of_reachable reachable_twoBlocks fileSize_twoBlocks).1
    (by rw [length_content_twoBlocks]; exact fileSize_twoBlocks)
    (by rw [length_content_twoBlocks]; decide)).mpr (.inr (by decide))

/-- The last byte of the first block and the one behind it cannot be overwritten together. -/
theorem overwrite_across_blocks_fails :
    twoBlocks.Valid ∧ Canonical (twoBlocks.blocks 1) ∧
      twoBlocks.fileSize 1 = some (twoBlocks.content 1).length ∧
      4095 + [98, 98].length ≤ (twoBlocks.content 1).length ∧
      ¬OverwrittenInPlace 1 [98, 98] 4095 twoBlocks
        (runWrite 1 [98, 98] 4095 noFailure twoBlocks).result
        (runWrite 1 [98, 98] 4095 noFailure twoBlocks).sess.committed := by
  rw [length_content_twoBlocks]
  refine ⟨reachable_twoBlocks.valid,
    (canonical_of_reachable reachable_twoBlocks fileSize_twoBlocks).1, fileSize_twoBlocks,
    by decide, fun h => ?_⟩
  have hfails : (runWrite 1 [98, 98] 4095 noFailure twoBlocks).result = false := by
    decide +kernel
  rw [h.ok] at hfails
  cases hfails

end MyFS
