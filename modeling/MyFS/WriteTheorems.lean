import MyFS.StorageTheorems

/-!
# What `myfs_db_file_write` does to the blocks of a file

The write selects the blocks from `index` on, overwrites at most `limit` of them in place
and puts what is left into new blocks after the last one it has seen; only these make the
recorded size larger.

* `writeBlocks_spec`: the overwriting loop is `Chunks.overwrite` on the selected blocks.
* `adds_writeBody`: on any layout a file gains at least the bytes its size grows by.
* `KeepsLayout`: the writes after which a canonical file is canonical again and its recorded
  size is right (`writeBody_canonical`).
-/

namespace MyFS

open Sql Database Chunks

variable {α : Type} {db db' : Database} {f : ℕ}

theorem sqlInsert_eq_patch (d : List Byte) (pos : ℕ) (new : List Byte) :
    sqlInsert d (pos + 1) new.length new = patch d pos new := by
  rw [sqlInsert, patch]
  by_cases h : d.length ≤ pos
  · rw [if_pos (.inr (by omega)), if_pos h]
  · rw [if_neg (by omega), if_neg h, Nat.add_sub_cancel]

/-- The index of the block after the selected ones. -/
def nextIndex (index : ℕ) (rows : List Block) : ℕ :=
  match rows.getLast? with
  | none => index
  | some b => (b.index + 1) % uintRange

theorem nextIndex_cons (index : ℕ) (b : Block) (rows : List Block) :
    nextIndex index (b :: rows) = nextIndex ((b.index + 1) % uintRange) rows := by
  rcases List.eq_nil_or_concat rows with rfl | ⟨init, last, rfl⟩
  · rfl
  · rw [List.concat_eq_append, nextIndex, nextIndex, ← List.cons_append,
      List.getLast?_append_of_ne_nil _ (by simp), List.getLast?_append_of_ne_nil _ (by simp)]
    rfl

theorem writeBlocks_spec {pre rows post : List Block} {index pageOffset written : ℕ}
    {left left' : List Byte} {index' : ℕ} (hb : db.blocks f = pre ++ rows ++ post)
    (hw : written ≠ 0 → pageOffset = 0)
    (h : (writeBlocks (rows.map Block.info) index pageOffset written left).eval engine db
      = (.ok (index', left'), db')) :
    ∃ rows', db'.blocks f = pre ++ rows' ++ post ∧
      rows'.map Block.index = rows.map Block.index ∧
      (rows'.map Block.data, left')
        = overwrite myfsFileBlockSize (rows.map Block.data) pageOffset left ∧
      (left' ≠ [] → index' = nextIndex index rows) ∧ OnlyData f db db' := by
  induction rows generalizing db pre index pageOffset written left with
  | nil =>
    obtain ⟨hout, rfl⟩ := eval_ret_ok.mp h
    cases hout
    exact ⟨[], hb, rfl, rfl, fun _ => rfl, .refl f db⟩
  | cons b rows ih =>
    rw [List.map_cons, writeBlocks] at h
    split at h
    · rename_i hpos
      have hne : left ≠ [] := List.length_pos_iff.mp hpos
      obtain ⟨db₁, hins, h⟩ := eval_dbQuery_andThen.mp h
      -- both branches write as much as fits behind the page offset
      have hsize : (if written = 0 then min left.length (myfsFileBlockSize - pageOffset)
          else min left.length myfsFileBlockSize)
            = min left.length (myfsFileBlockSize - pageOffset) := by
        split
        · rfl
        · rw [hw ‹_›, Nat.sub_zero]
      rw [hsize] at hins h
      have htake : min left.length (myfsFileBlockSize - pageOffset)
          = (left.take (min left.length (myfsFileBlockSize - pageOffset))).length := by
        rw [List.length_take]
        omega
      rw [Change.exec] at hins
      have hb' : db.blocks f = pre ++ b :: (rows ++ post) := by rw [hb]; simp
      obtain ⟨-, hb₁, hd₁⟩ := updateBlock_of_mem hb' hins
      set b' : Block := { b with
        data := patch b.data pageOffset
          (left.take (min left.length (myfsFileBlockSize - pageOffset))) } with hb'def
      have hb₁' : db₁.blocks f = (pre ++ [b']) ++ rows ++ post := by
        rw [hb₁, hb'def, ← sqlInsert_eq_patch, ← htake]
        simp
      obtain ⟨rows', hr, hidx, hdata, hnext, hd⟩ := ih hb₁' (fun _ => rfl) h
      refine ⟨b' :: rows', ?_, ?_, ?_, ?_, hd₁.trans hd⟩
      · rw [hr]
        simp
      · rw [List.map_cons, List.map_cons, hidx]
      · rw [List.map_cons, List.map_cons, overwrite_cons hne, ← hdata]
      · intro hl
        rw [hnext hl, nextIndex_cons]
        rfl
    · obtain ⟨hout, rfl⟩ := eval_ret_ok.mp h
      cases hout
      have hnil : left' = [] := List.length_eq_zero_iff.mp (by omega)
      exact ⟨b :: rows, hb, rfl, by rw [hnil, overwrite_nil], fun hl => absurd hnil hl,
        .refl f db⟩

/-- Overwriting never makes a file shorter. -/
theorem adds_writeBlocks {rows : List Block} {index pageOffset written : ℕ}
    {left left' : List Byte} {index' : ℕ} {pre post : List Block}
    (hb : db.blocks f = pre ++ rows ++ post) (hw : written ≠ 0 → pageOffset = 0)
    (h : (writeBlocks (rows.map Block.info) index pageOffset written left).eval engine db
      = (.ok (index', left'), db')) :
    ∃ n : ℕ, Adds f n db db' := by
  obtain ⟨rows', hb', -, hdata, -, hd⟩ := writeBlocks_spec hb hw h
  have hdata := congrArg Prod.fst hdata
  dsimp only at hdata
  refine ⟨(db'.content f).length - (db.content f).length, hd, ?_, ?_⟩
  · have hle := length_le_length_overwrite (B := myfsFileBlockSize) (rows.map Block.data)
      pageOffset left
    rw [← hdata] at hle
    have : (db.content f).length ≤ (db'.content f).length := by
      simp only [content, hb, hb', List.map_append, List.flatten_append, List.length_append]
      omega
    omega
  · rw [hb, hb']
    intro hne x hx
    simp only [NonEmpty, List.mem_append] at hne hx
    rcases hx with (hx | hx) | hx
    · exact hne x (.inl (.inl hx))
    · have hrows : ∀ d ∈ rows.map Block.data, 0 < d.length := by
        intro d hd
        obtain ⟨y, hy, rfl⟩ := List.mem_map.mp hd
        exact hne y (.inl (.inr hy))
      refine pos_overwrite (B := myfsFileBlockSize) hrows pageOffset left x.data ?_
      rw [← hdata]
      exact List.mem_map_of_mem hx
    · exact hne x (.inr hx)

/-! ## The whole write -/

section writeBody

variable {data : List Byte} {offset : ℕ}

/-- The index, the page offset and the limit that a write computes from its arguments. -/
def writeIndex (offset : ℕ) : ℕ := myfsDbFileBlockIndex offset % uintRange
def writeLimit (len : ℕ) : ℕ := myfsDbFileBlockCount len % uintRange

theorem writeIndex_eq (offset : ℕ) (h : offset < myfsFileBlockSize * uintRange) :
    writeIndex offset = offset / myfsFileBlockSize := by
  rw [writeIndex, myfsDbFileBlockIndex, Nat.mod_eq_of_lt]
  unfold myfsFileBlockSize uintRange at *
  omega

theorem blockOffset_lt (offset : ℕ) : myfsDbFileBlockOffset offset < myfsFileBlockSize :=
  Nat.mod_lt _ (by decide)

/-- The blocks a write overwrites. -/
def writeRows (bs : List Block) (len offset : ℕ) : List Block :=
  (bs.filter fun b => writeIndex offset ≤ b.index).take (writeLimit len)

/-- A file falls into the blocks before the selected ones, those and the rest. -/
theorem exists_writeRows (hv : db.Valid) (f len offset : ℕ) :
    ∃ pre post, db.blocks f = pre ++ writeRows (db.blocks f) len offset ++ post ∧
      (∀ b ∈ pre, b.index < writeIndex offset) ∧
      (∀ b ∈ writeRows (db.blocks f) len offset ++ post, writeIndex offset ≤ b.index) ∧
      (post = [] ∨ (writeRows (db.blocks f) len offset).length = writeLimit len) := by
  obtain ⟨pre, hpre, hlt⟩ := hv.exists_append_filter f (writeIndex offset)
  refine ⟨pre, ((db.blocks f).filter fun b => writeIndex offset ≤ b.index).drop (writeLimit len), ?_,
    hlt, ?_, ?_⟩
  · rw [writeRows, List.append_assoc, List.take_append_drop]
    exact hpre
  · intro b hb
    rw [writeRows, List.take_append_drop] at hb
    simpa using (List.mem_filter.mp hb).2
  · rcases Nat.le_total (writeLimit len)
      ((db.blocks f).filter fun b => writeIndex offset ≤ b.index).length with hle | hle
    · right
      rw [writeRows, List.length_take, min_eq_left hle]
    · left
      exact List.drop_eq_nil_of_le hle

/-- The course of a successful write: the file falls into the blocks before the written
ones, those and the rest; the written blocks are overwritten; what is left goes into new
blocks. -/
theorem writeBody_cases (hv : db.Valid)
    (h : (writeBody f data offset).eval engine db = (.ok (), db')) :
    ∃ pre post db₁ index' left',
      db.blocks f = pre ++ writeRows (db.blocks f) data.length offset ++ post ∧
      (∀ b ∈ pre, b.index < writeIndex offset) ∧ (∀ b ∈ post, writeIndex offset ≤ b.index) ∧
      (post = [] ∨ (writeRows (db.blocks f) data.length offset).length
        = writeLimit data.length) ∧
      (writeBlocks ((writeRows (db.blocks f) data.length offset).map Block.info)
        (writeIndex offset) (myfsDbFileBlockOffset offset) 0 data).eval engine db
          = (.ok (index', left'), db₁) ∧
      (left' = [] ∧ db' = db₁ ∨
        left' ≠ [] ∧ (insertBlocks f left'.length index' left').eval engine
          (db₁.resize f (· + left'.length)) = (.ok (), db')) := by
  rw [writeBody] at h
  dsimp only at h
  rw [eval_dbSelect_andThen, Program.eval_andThen_ok] at h
  obtain ⟨⟨index', left'⟩, db₁, hwrite, h⟩ := h
  obtain ⟨pre, post, hb, hlt, hle, hpost⟩ := exists_writeRows hv f data.length offset
  refine ⟨pre, post, db₁, index', left', hb, hlt, fun b hmem => hle b (List.mem_append_right _ hmem),
    hpost, hwrite, ?_⟩
  dsimp only at h
  rw [writeNewBlocks] at h
  split at h
  · rename_i hpos
    obtain ⟨db₂, hadd, h⟩ := eval_dbQuery_andThen.mp h
    rw [eq_resize_of_addSize hadd] at h
    exact .inr ⟨List.length_pos_iff.mp hpos, h⟩
  · obtain ⟨-, rfl⟩ := eval_ret_ok.mp h
    exact .inl ⟨List.length_eq_zero_iff.mp (by omega), rfl⟩

/-- A write makes the blocks longer by at least what it adds to the recorded size. -/
theorem adds_writeBody (hv : db.Valid)
    (h : (writeBody f data offset).eval engine db = (.ok (), db')) :
    ∃ n k : ℕ, Adds f (n + k) (db.resize f (· + k)) db' := by
  obtain ⟨pre, post, db₁, index', left', hb, -, -, -, hwrite, hrest⟩ := writeBody_cases hv h
  obtain ⟨n, hadd⟩ := adds_writeBlocks hb (by simp) hwrite
  rcases hrest with ⟨-, rfl⟩ | ⟨-, hins⟩
  · refine ⟨n, 0, ?_⟩
    rw [resize_eq_self (by simp)]
    simpa using hadd
  · exact ⟨n, left'.length, (hadd.resize _).trans (adds_insertBlocks hins)⟩

end writeBody

/-! ## Writes to a canonical file -/

/-- The writes that keep the layout of a canonical file of the given recorded size. Either
there is nothing to write, or the write ends inside the file, or it ends at a block that is
there already and fails, or the file ends with a full block and the write does not start
past it, or it starts past the end inside the last block and is lost. -/
def KeepsLayout (size len offset : ℕ) : Prop :=
  len = 0 ∨
  writeIndex offset * myfsFileBlockSize + myfsDbFileBlockOffset offset + len ≤ size ∨
  writeIndex offset + writeLimit len ≤ size / myfsFileBlockSize ∨
  (size % myfsFileBlockSize = 0 ∧ writeIndex offset ≤ size / myfsFileBlockSize) ∨
  (writeIndex offset = size / myfsFileBlockSize ∧
    size % myfsFileBlockSize ≤ myfsDbFileBlockOffset offset ∧
    myfsDbFileBlockOffset offset + len ≤ myfsFileBlockSize)

instance (size len offset : ℕ) : Decidable (KeepsLayout size len offset) := by
  unfold KeepsLayout; infer_instance

/-- The bytes of a file that is split in three. -/
theorem length_flatten_append₃ (pre rows post : List Block) :
    ((pre ++ rows ++ post).map Block.data).flatten.length
      = (pre.map Block.data).flatten.length + (rows.map Block.data).flatten.length
        + (post.map Block.data).flatten.length := by
  simp only [List.map_append, List.flatten_append, List.length_append]

section Canonical

variable {pre rows post : List Block} {i : ℕ}

/-- What stands before other blocks in a canonical file is full. -/
theorem Canonical.full_pre (hc : Canonical (pre ++ rows ++ post)) (hne : rows ++ post ≠ []) :
    Full myfsFileBlockSize (pre.map Block.data) := by
  have hch := hc.chunked
  rw [List.append_assoc, List.map_append] at hch
  exact hch.full_of_append (by simpa using hne)

theorem Canonical.full_rows (hc : Canonical (pre ++ rows ++ post)) (hne : post ≠ []) :
    Full myfsFileBlockSize (rows.map Block.data) := by
  have hch := hc.chunked
  rw [List.map_append] at hch
  have hfull := hch.full_of_append (by simpa using hne)
  rw [List.map_append, full_append] at hfull
  exact hfull.2

theorem Canonical.chunked_rows (hc : Canonical (pre ++ rows ++ post)) :
    Chunked myfsFileBlockSize (rows.map Block.data) := by
  have hch := hc.chunked
  rw [List.map_append, List.map_append] at hch
  exact (hch.left (by decide)).right

/-- In a canonical file the blocks from index `i` on start at position `i`. -/
theorem Canonical.length_pre (hc : Canonical (pre ++ rows ++ post))
    (hlt : ∀ b ∈ pre, b.index < i) (hle : ∀ b ∈ rows ++ post, i ≤ b.index) :
    pre.length ≤ i ∧ (rows ++ post ≠ [] → pre.length = i) := by
  have hpos : pre.length ≤ i := by
    rcases List.eq_nil_or_concat pre with rfl | ⟨init, b, rfl⟩
    · exact Nat.zero_le _
    · have hb := hlt b (by simp)
      rw [List.concat_eq_append, List.append_assoc, List.append_assoc] at hc
      rw [hc.index_eq] at hb
      simp
      omega
  refine ⟨hpos, fun hne => ?_⟩
  obtain ⟨b, rest, hrest⟩ := List.exists_cons_of_ne_nil hne
  have hb := hle b (by rw [hrest]; exact List.mem_cons_self)
  rw [List.append_assoc, hrest] at hc
  rw [hc.index_eq] at hb
  omega

theorem Canonical.length_pre_eq (hc : Canonical (pre ++ rows ++ post))
    (hlt : ∀ b ∈ pre, b.index < i) (hle : ∀ b ∈ rows ++ post, i ≤ b.index)
    (hi : i ≤ (pre ++ rows ++ post).length) : pre.length = i := by
  rcases eq_or_ne (rows ++ post) [] with hnil | hne
  · have hpre := (hc.length_pre hlt hle).1
    rw [List.append_assoc, hnil, List.append_nil] at hi
    omega
  · exact (hc.length_pre hlt hle).2 hne

theorem Canonical.nextIndex_eq (hc : Canonical (pre ++ rows ++ post))
    (hlen : (pre ++ rows ++ post).length < uintRange) (hpre : rows ≠ [] → pre.length = i) :
    nextIndex i rows = i + rows.length := by
  rcases List.eq_nil_or_concat rows with rfl | ⟨init, b, rfl⟩
  · rfl
  · rw [List.concat_eq_append] at *
    have hp := hpre (by simp)
    rw [← List.append_assoc, List.append_assoc (pre ++ init)] at hc
    have hb := hc.index_eq
    rw [nextIndex, List.getLast?_append_of_ne_nil _ (by simp)]
    show (b.index + 1) % uintRange = _
    simp only [List.length_append, List.length_singleton] at hb hlen ⊢
    rw [hb, Nat.mod_eq_of_lt (by omega)]
    omega

/-- In a file of full blocks, overwriting keeps the lengths, and the selected blocks end in the
file. -/
theorem Canonical.overwrite_of_full (data : List Byte) {po : ℕ}
    (hc : Canonical (pre ++ rows ++ post)) (hlt : ∀ b ∈ pre, b.index < i)
    (hle : ∀ b ∈ rows ++ post, i ≤ b.index) (hpo : po < myfsFileBlockSize)
    (hmod : ((pre ++ rows ++ post).map Block.data).flatten.length % myfsFileBlockSize = 0)
    (hidx : i ≤ ((pre ++ rows ++ post).map Block.data).flatten.length / myfsFileBlockSize) :
    (Chunks.overwrite myfsFileBlockSize (rows.map Block.data) po data).1.map List.length
        = (rows.map Block.data).map List.length ∧
      i + rows.length ≤ (pre ++ rows ++ post).length ∧
      Full myfsFileBlockSize ((pre ++ rows ++ post).map Block.data) := by
  have hfull := hc.chunked.full_of_mod hmod
  have hbytes := Chunks.length_flatten hfull
  rw [List.length_map] at hbytes
  have hrows : Full myfsFileBlockSize (rows.map Block.data) := by
    have hparts := hfull
    rw [List.map_append, List.map_append, full_append, full_append] at hparts
    exact hparts.1.2
  refine ⟨hrows.map_length_overwrite hpo data, ?_, hfull⟩
  rw [hbytes, Nat.mul_div_cancel_left _ (by decide)] at hidx
  have hpre := hc.length_pre_eq hlt hle hidx
  simp only [List.length_append]
  omega

/-- Where blocks follow the selected ones, these are full, and end in the file. -/
theorem Canonical.overwrite_of_rest (data : List Byte) {po : ℕ}
    (hc : Canonical (pre ++ rows ++ post)) (hlt : ∀ b ∈ pre, b.index < i)
    (hle : ∀ b ∈ rows ++ post, i ≤ b.index) (hpo : po < myfsFileBlockSize) (hne : post ≠ []) :
    (Chunks.overwrite myfsFileBlockSize (rows.map Block.data) po data).1.map List.length
        = (rows.map Block.data).map List.length ∧
      i + rows.length < (pre ++ rows ++ post).length := by
  refine ⟨(hc.full_rows hne).map_length_overwrite hpo data, ?_⟩
  have hpos := List.length_pos_iff.mpr hne
  have hpre := (hc.length_pre hlt hle).2 fun hnil => hne (List.append_eq_nil_iff.mp hnil).2
  simp only [List.length_append]
  omega

/-- Data for which the selected blocks have room leave nothing. -/
theorem Canonical.overwrite_of_room (data : List Byte) {po : ℕ}
    (hc : Canonical (pre ++ rows ++ post)) (hpo : po < myfsFileBlockSize)
    (hroom : po + data.length ≤ (rows.map Block.data).flatten.length) :
    (Chunks.overwrite myfsFileBlockSize (rows.map Block.data) po data).1.map List.length
        = (rows.map Block.data).map List.length ∧
      (Chunks.overwrite myfsFileBlockSize (rows.map Block.data) po data).2 = [] := by
  have hrows := hc.chunked_rows
  refine ⟨hrows.map_length_overwrite hpo hroom, ?_⟩
  rw [overwrite_left hpo]
  apply List.drop_eq_nil_of_le
  have hle := length_flatten_le hrows.length_le
  omega

/-- A write that starts in the last block, which is not full, selects this block alone. -/
theorem Canonical.rows_last {len : ℕ} (hc : Canonical (pre ++ rows ++ post))
    (hlt : ∀ b ∈ pre, b.index < i) (hle : ∀ b ∈ rows ++ post, i ≤ b.index) (hpos : 0 < len)
    (hpost : post = [] ∨ rows.length = writeLimit len) (hlen : len ≤ myfsFileBlockSize)
    (hmod : ((pre ++ rows ++ post).map Block.data).flatten.length % myfsFileBlockSize ≠ 0)
    (hidx : i = ((pre ++ rows ++ post).map Block.data).flatten.length / myfsFileBlockSize) :
    ∃ b, rows = [b] ∧ post = [] ∧ b.data.length
      = ((pre ++ rows ++ post).map Block.data).flatten.length % myfsFileBlockSize := by
  have hbytes := length_flatten_append₃ pre rows post
  have hle' := length_flatten_le hc.chunked.length_le
  have hlt' := hc.chunked.length_lt (by decide)
  rw [List.length_map] at hle' hlt'
  -- it is the last of the blocks
  have hn : (pre ++ rows ++ post).length = i + 1 := by
    unfold myfsFileBlockSize at *
    omega
  have hlimit : writeLimit len = 1 := by
    unfold writeLimit myfsDbFileBlockCount myfsFileBlockSize uintRange at *
    split <;> omega
  rw [hlimit] at hpost
  rw [List.length_append, List.length_append] at hn
  have hne : rows ++ post ≠ [] := by
    intro hnil
    have hpre := (hc.length_pre hlt hle).1
    obtain ⟨rfl, rfl⟩ := List.append_eq_nil_iff.mp hnil
    simp only [List.length_nil] at hn
    omega
  have hpre := (hc.length_pre hlt hle).2 hne
  have hprebytes := Chunks.length_flatten (hc.full_pre hne)
  rw [List.length_map, hpre] at hprebytes
  have hpnil : post = [] := by
    rcases hpost with hnil | hone
    · exact hnil
    · exact List.length_eq_zero_iff.mp (by omega)
  subst hpnil
  obtain ⟨b, rfl⟩ := List.length_eq_one_iff.mp (show rows.length = 1 by
    rw [List.length_nil] at hn
    omega)
  refine ⟨b, rfl, rfl, ?_⟩
  rw [List.map_singleton, List.flatten_singleton, List.map_nil, List.flatten_nil,
    List.length_nil] at hbytes
  have hsplit := Nat.div_add_mod ((pre ++ [b] ++ []).map Block.data).flatten.length myfsFileBlockSize
  rw [← hidx] at hsplit
  omega

end Canonical

/-- Blocks with the same indices and lengths as those of a canonical file. -/
theorem Canonical.congr {bs bs' : List Block} (hc : Canonical bs)
    (hi : bs'.map Block.index = bs.map Block.index)
    (hd : (bs'.map Block.data).map List.length = (bs.map Block.data).map List.length) :
    Canonical bs' := by
  refine ⟨?_, hc.chunked.congr hd⟩
  have hlen := congrArg List.length hi
  simp only [List.length_map] at hlen
  rw [hi, hc.indices, hlen]

/-- What a layout-keeping write does to the blocks it selects: their lengths stay, and what
is left goes right behind a full file, or to an index that is taken. -/
theorem KeepsLayout.overwrite {pre rows post : List Block} {data : List Byte} {offset : ℕ}
    (hc : Canonical (pre ++ rows ++ post)) (hlt : ∀ b ∈ pre, b.index < writeIndex offset)
    (hle : ∀ b ∈ rows ++ post, writeIndex offset ≤ b.index)
    (hpost : post = [] ∨ rows.length = writeLimit data.length)
    (hrows : rows.length ≤ writeLimit data.length)
    (hk : KeepsLayout ((pre ++ rows ++ post).map Block.data).flatten.length data.length offset) :
    (Chunks.overwrite myfsFileBlockSize (rows.map Block.data) (myfsDbFileBlockOffset offset)
        data).1.map List.length = (rows.map Block.data).map List.length ∧
      ((Chunks.overwrite myfsFileBlockSize (rows.map Block.data) (myfsDbFileBlockOffset offset)
          data).2 ≠ [] →
        writeIndex offset + rows.length ≤ (pre ++ rows ++ post).length ∧
        (writeIndex offset + rows.length = (pre ++ rows ++ post).length →
          Full myfsFileBlockSize ((pre ++ rows ++ post).map Block.data))) := by
  have hpo := blockOffset_lt offset
  rcases eq_or_ne data [] with rfl | hdata
  · simp
  rcases eq_or_ne post [] with rfl | hne
  swap
  · obtain ⟨hsame, hroom⟩ := hc.overwrite_of_rest data hlt hle hpo hne
    exact ⟨hsame, fun _ => ⟨hroom.le, fun heq => absurd heq hroom.ne⟩⟩
  -- the selected blocks are the last ones
  have hdpos : 0 < data.length := List.length_pos_iff.mpr hdata
  have hbytes := length_flatten_append₃ pre rows []
  have hS := length_flatten_le hc.chunked.length_le
  have hSlt := hc.chunked.length_lt (by decide)
  have hlen : (pre ++ rows ++ []).length = pre.length + rows.length := by
    simp only [List.length_append, List.length_nil, Nat.add_zero]
  rw [List.length_map] at hS hSlt
  have hfullEnd : ((pre ++ rows ++ []).map Block.data).flatten.length % myfsFileBlockSize = 0 →
      writeIndex offset
        ≤ ((pre ++ rows ++ []).map Block.data).flatten.length / myfsFileBlockSize → _ :=
    fun hmod hidx => hc.overwrite_of_full data hlt hle hpo hmod hidx
  unfold KeepsLayout at hk
  rcases hk with h0 | hin | hfail | ⟨hmod, hidx⟩ | ⟨hidx, hlost, hfit⟩
  · omega
  · -- the write ends inside the file
    have hne : rows ++ [] ≠ [] := by
      intro hnil
      have hpre := (hc.length_pre hlt hle).1
      have hzero := congrArg List.length hnil
      rw [List.append_nil, List.length_nil] at hzero
      unfold myfsFileBlockSize at *
      omega
    have hpre := (hc.length_pre hlt hle).2 hne
    have hprebytes := Chunks.length_flatten (hc.full_pre hne)
    rw [List.length_map] at hprebytes
    obtain ⟨hsame, hnil⟩ := hc.overwrite_of_room data hpo (by
      rw [List.map_nil, List.flatten_nil, List.length_nil] at hbytes
      unfold myfsFileBlockSize at *
      omega)
    exact ⟨hsame, fun hleft => absurd hnil hleft⟩
  · -- it ends at a block that is there already
    have hend : ((pre ++ rows ++ []).map Block.data).flatten.length % myfsFileBlockSize = 0 ∧
        writeIndex offset
          ≤ ((pre ++ rows ++ []).map Block.data).flatten.length / myfsFileBlockSize := by
      have hpre := (hc.length_pre hlt hle).1
      unfold myfsFileBlockSize at *
      omega
    obtain ⟨hsame, hroom, hfull⟩ := hfullEnd hend.1 hend.2
    exact ⟨hsame, fun _ => ⟨hroom, fun _ => hfull⟩⟩
  · obtain ⟨hsame, hroom, hfull⟩ := hfullEnd hmod hidx
    exact ⟨hsame, fun _ => ⟨hroom, fun _ => hfull⟩⟩
  · -- it starts past the end inside the last block
    by_cases hmod : ((pre ++ rows ++ []).map Block.data).flatten.length % myfsFileBlockSize = 0
    · obtain ⟨hsame, hroom, hfull⟩ := hfullEnd hmod hidx.le
      exact ⟨hsame, fun _ => ⟨hroom, fun _ => hfull⟩⟩
    · obtain ⟨b, rfl, -, hb⟩ := hc.rows_last hlt hle hdpos hpost (by omega) hmod hidx
      rw [List.map_singleton, overwrite_singleton_of_le (by omega) hfit]
      exact ⟨rfl, fun h => absurd rfl h⟩

/-- A write that keeps the layout of a canonical file adds as many bytes to the recorded
size as to the blocks. -/
theorem writeBody_canonical {data : List Byte} {offset : ℕ} (hv : db.Valid)
    (hc : Canonical (db.blocks f))
    (hk : KeepsLayout (db.content f).length data.length offset)
    (h : (writeBody f data offset).eval engine db = (.ok (), db')) :
    ∃ k : ℕ, Canonical (db'.blocks f) ∧ Adds f k (db.resize f (· + k)) db' := by
  obtain ⟨pre, post, db₁, index', left', hb, hlt, hge, hpost, hwrite, hrest⟩ :=
    writeBody_cases hv h
  set rows := writeRows (db.blocks f) data.length offset with hrows
  obtain ⟨n, hadd⟩ := adds_writeBlocks hb (by simp) hwrite
  obtain ⟨rows', hb₁, hidx, hover, hnext, hd⟩ := writeBlocks_spec hb (by simp) hwrite
  have hcb := hc
  rw [hb] at hcb
  rw [content, hb] at hk
  have hle : ∀ b ∈ rows ++ post, writeIndex offset ≤ b.index := by
    intro b hmem
    rcases List.mem_append.mp hmem with hmem | hmem
    · rw [hrows, writeRows] at hmem
      simpa using (List.mem_filter.mp (List.mem_of_mem_take hmem)).2
    · exact hge b hmem
  obtain ⟨hsame, hroom⟩ := hk.overwrite hcb hlt hle hpost
    (by rw [hrows, writeRows, List.length_take]; exact min_le_left _ _)
  rw [← hover] at hsame hroom
  have hi₁ : (db₁.blocks f).map Block.index = (db.blocks f).map Block.index := by
    rw [hb₁, hb]
    simp only [List.map_append, hidx]
  have hd₁ : ((db₁.blocks f).map Block.data).map List.length
      = ((db.blocks f).map Block.data).map List.length := by
    rw [hb₁, hb]
    simp only [List.map_append]
    rw [hsame]
  have hc₁ := hc.congr hi₁ hd₁
  have hcont₁ : (db₁.content f).length = (db.content f).length := by
    rw [content, content, List.length_flatten, List.length_flatten, hd₁]
  have hn : (n : ℤ) = 0 := by
    have := hadd.length
    omega
  rw [hn] at hadd
  rcases hrest with ⟨-, rfl⟩ | ⟨hne, hins⟩
  · refine ⟨0, hc₁, ?_⟩
    rw [resize_eq_self (by simp)]
    exact hadd
  · have hroom' := hroom hne
    have hv₁ : db₁.Valid := by
      have := valid_eval (writeBlocks (rows.map Block.info) (writeIndex offset)
        (myfsDbFileBlockOffset offset) 0 data) hv
      rwa [hwrite] at this
    have hlen₁ : (db₁.blocks f).length = (pre ++ rows ++ post).length := by
      have := congrArg List.length hi₁
      simpa [hb] using this
    have hnext' : index' = writeIndex offset + rows.length := by
      rw [hnext hne]
      refine hcb.nextIndex_eq (by rw [← hb]; exact hv.length_blocks_lt f) fun hr => ?_
      exact (hcb.length_pre hlt hle).2 (by simp [hr])
    obtain ⟨hcan, -⟩ := insertBlocks_spec (f := f) (hv₁.resize f _) (by rwa [blocks_resize]) (fun _ => by
      rw [blocks_resize, hlen₁, hnext']
      refine ⟨hroom'.1, fun hend => ?_⟩
      have hfull := hroom'.2 hend
      rw [← hb] at hfull
      exact Full.congr hfull hd₁) hins
    refine ⟨left'.length, hcan, ?_⟩
    simpa using (hadd.resize _).trans (adds_insertBlocks hins)

end MyFS
