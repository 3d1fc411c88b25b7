import MyFS.Schema
import MyFS.Data.Chunks
import Mathlib.Order.Interval.Finset.Nat

/-!
# The store as a map from files to blocks

`Database.Valid` collects what the schema guarantees of any database: keys and indices are
`unsigned int`, a block belongs to a file that exists, no two blocks share
`(file_id, index)`. Every change keeps it.

The rest of the development reads `file_data` only through `Database.blocks`, the blocks of
one file in index order, and through the lemmas of this file that say what each change does
to them. `OnlyFile f` is the frame: nothing but the data of the file `f` has changed.
-/

namespace MyFS

open Sql

/-- The regular layout of a file: the indices are `0, 1, ..`, every block but the last is
full and the last is not empty. -/
structure Canonical (bs : List Block) : Prop where
  indices : bs.map Block.index = List.range bs.length
  chunked : Chunks.Chunked myfsFileBlockSize (bs.map Block.data)

theorem canonical_nil : Canonical [] := ⟨rfl, Chunks.chunked_nil⟩

theorem canonical_append_singleton {bs : List Block} {b : Block} :
    Canonical (bs ++ [b]) ↔
      (bs.map Block.index = List.range bs.length ∧
        Chunks.Full myfsFileBlockSize (bs.map Block.data)) ∧
      b.index = bs.length ∧ 0 < b.data.length ∧ b.data.length ≤ myfsFileBlockSize := by
  have hidx : (bs ++ [b]).map Block.index = List.range (bs ++ [b]).length ↔
      bs.map Block.index = List.range bs.length ∧ b.index = bs.length := by
    rw [List.map_append, List.length_append, List.length_singleton, List.range_succ]
    constructor
    · intro h
      obtain ⟨hl, hr⟩ := List.append_inj' h rfl
      exact ⟨hl, by simpa using hr⟩
    · rintro ⟨hl, hr⟩
      rw [hl, List.map_singleton, hr]
  constructor
  · rintro ⟨hi, hc⟩
    rw [List.map_append, List.map_singleton, Chunks.chunked_append_singleton] at hc
    exact ⟨⟨(hidx.mp hi).1, hc.1⟩, (hidx.mp hi).2, hc.2⟩
  · rintro ⟨⟨hi, hf⟩, hb, hlen⟩
    refine ⟨hidx.mpr ⟨hi, hb⟩, ?_⟩
    rw [List.map_append, List.map_singleton, Chunks.chunked_append_singleton]
    exact ⟨hf, hlen⟩

theorem Canonical.of_full {bs : List Block} (hi : bs.map Block.index = List.range bs.length)
    (hf : Chunks.Full myfsFileBlockSize (bs.map Block.data)) : Canonical bs :=
  ⟨hi, hf.chunked (by decide)⟩

/-- In a canonical file an index is a position. -/
theorem Canonical.index_eq {pre post : List Block} {b : Block}
    (h : Canonical (pre ++ b :: post)) : b.index = pre.length := by
  have hi := h.indices
  rw [List.map_append, List.map_cons] at hi
  have hget := congrArg (fun l => l[pre.length]?) hi
  simpa using hget

/-- A block of a canonical file that has room in it is the last one. -/
theorem Canonical.eq_nil_of_lt {pre post : List Block} {b : Block}
    (h : Canonical (pre ++ b :: post)) (hlt : b.data.length < myfsFileBlockSize) : post = [] := by
  by_contra hne
  have hc := h.chunked
  rw [List.map_append, List.map_cons, List.append_cons] at hc
  have := hc.full_of_append (by simpa using hne) b.data (by simp)
  omega

theorem Canonical.index_lt {bs : List Block} (h : Canonical bs) : ∀ b ∈ bs, b.index < bs.length := by
  intro b hb
  have := List.mem_map_of_mem (f := Block.index) hb
  rw [h.indices] at this
  exact List.mem_range.mp this

namespace Database

variable {db db' db'' : Database} {f f' id : ℕ} {b : Block} {g : List Byte → List Byte}

/-- The bytes stored for a file. -/
def content (db : Database) (f : ℕ) : List Byte := ((db.blocks f).map Block.data).flatten

/-- The `size` column of a file. -/
def fileSize (db : Database) (f : ℕ) : Option ℕ := (db.files.row f).map FileRow.size

/-! ## What the schema guarantees -/

structure Valid (db : Database) : Prop where
  filesNextPos : 0 < db.files.next
  filesNextLe : db.files.next ≤ uintRange
  dataNextPos : 0 < db.fileData.next
  dataNextLe : db.fileData.next ≤ uintRange
  keyPos : db.fileData.row 0 = none
  indexLt : ∀ {id r}, db.fileData.row id = some r → r.index < uintRange
  lengthLe : ∀ {id r}, db.fileData.row id = some r → r.data.length ≤ myfsFileBlockSize
  fileExists : ∀ {id r}, db.fileData.row id = some r → (db.files.row r.fileId).isSome
  unique : ∀ {id id' r r'}, db.fileData.row id = some r → db.fileData.row id' = some r' →
    r.fileId = r'.fileId → r.index = r'.index → id = id'

theorem indexTaken_eq_false {i : ℕ} :
    db.indexTaken f i = false ↔
      ∀ {id r}, db.fileData.row id = some r → r.fileId = f → r.index ≠ i := by
  simp only [indexTaken, List.any_eq_false, Prod.forall, Table.mem_entries, Bool.and_eq_true,
    beq_iff_eq, not_and]

theorem Valid.modifyFiles (h : db.Valid) (id : ℕ) (u : FileRow → FileRow) :
    ({ db with files := db.files.modify id u } : Database).Valid := by
  refine ⟨h.filesNextPos, h.filesNextLe, h.dataNextPos, h.dataNextLe, h.keyPos, h.indexLt,
    h.lengthLe, ?_, h.unique⟩
  intro i r hr
  have := h.fileExists hr
  simp only [Table.row_modify]
  split <;> simpa using this

theorem Valid.updateFile {ok : FileRow → Bool} {u : FileRow → FileRow} (h : db.Valid)
    (he : db.updateFile id ok u = some db') : db'.Valid := by
  rw [Database.updateFile] at he
  split at he
  · cases he; exact h
  · split at he
    · cases he
      exact h.modifyFiles id u
    · cases he

theorem Valid.updateBlock (h : db.Valid) (he : db.updateBlock id g = some db') : db'.Valid := by
  rw [Database.updateBlock] at he
  split at he
  · cases he; exact h
  · rename_i r₀ hr₀
    split at he
    · rename_i hle
      cases he
      -- a row of the new table is an old one with other data
      have old : ∀ {i r}, (db.fileData.modify id fun r => { r with data := g r.data }).row i
          = some r → ∃ r', db.fileData.row i = some r' ∧ r.fileId = r'.fileId ∧
            r.index = r'.index ∧ (r.data = r'.data ∨ r.data = g r₀.data) := by
        intro i r hr
        rw [Table.row_modify] at hr
        split at hr
        · rename_i hi
          subst hi
          rw [hr₀, Option.map_some, Option.some.injEq] at hr
          subst hr
          exact ⟨r₀, hr₀, rfl, rfl, .inr rfl⟩
        · exact ⟨r, hr, rfl, rfl, .inl rfl⟩
      refine ⟨h.filesNextPos, h.filesNextLe, h.dataNextPos, h.dataNextLe, ?_, ?_, ?_, ?_, ?_⟩
      · simp [Table.row_modify, h.keyPos]
      · intro i r hr
        obtain ⟨r', hr', -, hi, -⟩ := old hr
        rw [hi]
        exact h.indexLt hr'
      · intro i r hr
        obtain ⟨r', hr', -, -, hd | hd⟩ := old hr
        · rw [hd]; exact h.lengthLe hr'
        · rw [hd]; exact hle
      · intro i r hr
        obtain ⟨r', hr', hf, -, -⟩ := old hr
        rw [hf]
        exact h.fileExists hr'
      · intro i i' r r' hr hr' hf hi
        obtain ⟨s, hs, hf₁, hi₁, -⟩ := old hr
        obtain ⟨s', hs', hf₂, hi₂, -⟩ := old hr'
        exact h.unique hs hs' (by rw [← hf₁, hf, hf₂]) (by rw [← hi₁, hi, hi₂])
    · cases he

theorem Valid.insertBlock {i : ℕ} {d : List Byte} (h : db.Valid)
    (he : (Change.insertBlock f i d).exec db = some db') : db'.Valid := by
  simp only [Change.exec] at he
  split at he
  · rename_i hok
    obtain ⟨hi, hd, hf, hfree, hnext⟩ := hok
    cases he
    rw [Bool.not_eq_true, indexTaken_eq_false] at hfree
    have split : ∀ {j r}, (db.fileData.insert ⟨f, i, d⟩).row j = some r →
        (j = db.fileData.next ∧ r = ⟨f, i, d⟩) ∨ db.fileData.row j = some r := by
      intro j r hr
      rw [Table.row_insert] at hr
      split at hr
      · exact .inl ⟨‹_›, (Option.some.inj hr).symm⟩
      · exact .inr hr
    have hne := h.dataNextPos
    refine ⟨h.filesNextPos, h.filesNextLe, Nat.succ_pos _, hnext, ?_, ?_, ?_, ?_, ?_⟩
    · rw [Table.row_insert, if_neg (by omega), h.keyPos]
    · intro j r hr
      rcases split hr with ⟨-, rfl⟩ | hr
      · exact hi
      · exact h.indexLt hr
    · intro j r hr
      rcases split hr with ⟨-, rfl⟩ | hr
      · exact hd
      · exact h.lengthLe hr
    · intro j r hr
      rcases split hr with ⟨-, rfl⟩ | hr
      · exact hf
      · exact h.fileExists hr
    · intro j j' r r' hr hr' hff hii
      rcases split hr with ⟨rfl, rfl⟩ | hr <;> rcases split hr' with ⟨rfl, rfl⟩ | hr'
      · rfl
      · exact absurd hii.symm (hfree hr' hff.symm)
      · exact absurd hii (hfree hr hff)
      · exact h.unique hr hr' hff hii
  · cases he

theorem Valid.keep {p : ℕ → FileRow → Bool} {q : ℕ → BlockRow → Bool} (h : db.Valid)
    (hpq : ∀ {i r s}, db.fileData.row i = some r → q i r = true →
      db.files.row r.fileId = some s → p r.fileId s = true) :
    ({ db with files := db.files.keep p, fileData := db.fileData.keep q } : Database).Valid := by
  have old : ∀ {i r}, (db.fileData.keep q).row i = some r →
      db.fileData.row i = some r ∧ q i r = true := by
    intro i r hr
    rw [Table.row_keep, Option.filter_eq_some_iff] at hr
    exact hr
  refine ⟨h.filesNextPos, h.filesNextLe, h.dataNextPos, h.dataNextLe, ?_, ?_, ?_, ?_, ?_⟩
  · rw [Table.row_keep, h.keyPos]; rfl
  · exact fun hr => h.indexLt (old hr).1
  · exact fun hr => h.lengthLe (old hr).1
  · intro i r hr
    obtain ⟨hr, hq⟩ := old hr
    obtain ⟨s, hs⟩ := Option.isSome_iff_exists.mp (h.fileExists hr)
    rw [Table.row_keep, hs, Option.filter_some, if_pos (hpq hr hq hs)]
    rfl
  · exact fun hr hr' => h.unique (old hr).1 (old hr').1

/-- What `INSERT INTO files` checks, and the row it adds. -/
theorem insertFile_cases {p mode : ℕ} {name user group : List Byte} {type : FileType}
    (he : (Change.insertFile p name type user group mode).exec db = some db') :
    ∃ r : FileRow, r.parentId = p ∧ r.name = name ∧ r.type = type ∧ r.size = 0 ∧
      r.fits = true ∧ (db.files.row p).isSome = true ∧
      db.nameTaken (fun _ => false) p name = false ∧ db.files.next < uintRange ∧
      db' = { db with files := db.files.insert r } := by
  simp only [Change.exec] at he
  split at he
  · rename_i hok
    exact ⟨_, rfl, rfl, rfl, rfl, hok.1, hok.2.1, by simpa using hok.2.2.1, hok.2.2.2,
      (Option.some.inj he).symm⟩
  · cases he

/-- Every change keeps the schema's guarantees. -/
theorem Valid.exec {c : Change} (h : db.Valid) (he : c.exec db = some db') : db'.Valid := by
  cases c with
  | insertFile p name type user group mode =>
    obtain ⟨r, -, -, -, -, -, -, -, hnext, rfl⟩ := insertFile_cases he
    refine ⟨Nat.succ_pos _, hnext, h.dataNextPos, h.dataNextLe, h.keyPos, h.indexLt,
      h.lengthLe, ?_, h.unique⟩
    intro i s hs
    rw [Table.row_insert]
    split
    · rfl
    · exact h.fileExists hs
  | deleteFile id =>
    simp only [Change.exec] at he
    split at he
    · cases he; exact h
    · split at he
      · cases he
      · cases he
        exact h.keep fun _ hq _ => hq
  | addSize id len => rw [Change.exec] at he; exact h.updateFile he
  | setSize id size => rw [Change.exec] at he; exact h.updateFile he
  | setParent id p => rw [Change.exec] at he; exact h.updateFile he
  | setParentName id p name => rw [Change.exec] at he; exact h.updateFile he
  | setTimes id accessed modified => rw [Change.exec] at he; exact h.updateFile he
  | setOwner id user group => rw [Change.exec] at he; exact h.updateFile he
  | setMode id mode => rw [Change.exec] at he; exact h.updateFile he
  | spliceBlock id pos len new => rw [Change.exec] at he; exact h.updateBlock he
  | concatBlock id new => rw [Change.exec] at he; exact h.updateBlock he
  | setBlock id data => rw [Change.exec] at he; exact h.updateBlock he
  | insertBlock f index data => exact h.insertBlock he
  | deleteBlock id =>
    cases he
    have hkeep : db.files.keep (fun _ _ => true) = db.files :=
      Table.ext (by funext i; rw [Table.row_keep]; cases db.files.row i <;> rfl) rfl
    have := h.keep (p := fun _ _ => true) (q := fun x _ => decide (x ≠ id)) fun _ _ _ => rfl
    rwa [hkeep] at this

/-! ## The blocks of a file -/

theorem mem_blocks : b ∈ db.blocks f ↔
    db.fileData.row b.fileDataId = some ⟨f, b.index, b.data⟩ := by
  simp only [blocks, mem_orderBy, List.mem_map, List.mem_filter, Prod.exists, Table.mem_entries,
    decide_eq_true_eq]
  constructor
  · rintro ⟨id, r, ⟨hr, rfl⟩, rfl⟩
    exact hr
  · exact fun h => ⟨b.fileDataId, _, ⟨h, rfl⟩, rfl⟩

theorem nodup_fileDataId (db : Database) (f : ℕ) :
    ((db.blocks f).map Block.fileDataId).Nodup := by
  have hp : (db.blocks f).Perm _ := perm_orderBy _ _
  rw [(hp.map Block.fileDataId).nodup_iff, List.map_map]
  have h := (db.fileData.pairwise_entries.imp fun {a b} => Nat.ne_of_lt).sublist
    (List.filter_sublist (p := fun e : ℕ × BlockRow => decide (e.2.fileId = f)))
  exact List.pairwise_map.mpr h

/-- A block belongs to one file. -/
theorem eq_of_mem_blocks {b' : Block} (hb : b ∈ db.blocks f) (hb' : b' ∈ db.blocks f')
    (hid : b.fileDataId = b'.fileDataId) : f = f' ∧ b = b' := by
  rw [mem_blocks] at hb hb'
  rw [hid, hb', Option.some.injEq, BlockRow.mk.injEq] at hb
  cases b; cases b'
  simp_all

theorem Valid.pairwise_blocks (h : db.Valid) (f : ℕ) :
    (db.blocks f).Pairwise fun a b => a.index < b.index := by
  refine pairwise_lt_orderBy ?_
  rw [List.map_map, List.Nodup, List.pairwise_map]
  refine (List.pairwise_filter.mpr ?_)
  refine db.fileData.pairwise_entries.imp_of_mem ?_
  rintro ⟨i, r⟩ ⟨j, s⟩ hi hj hij hr hs heq
  simp only [decide_eq_true_eq] at hr hs
  exact hij.ne (h.unique (Table.mem_entries.mp hi) (Table.mem_entries.mp hj)
    (hr.trans hs.symm) heq)

/-- The blocks from an index on, and those before it. -/
theorem Valid.exists_append_filter (h : db.Valid) (f i : ℕ) :
    ∃ pre, db.blocks f = pre ++ (db.blocks f).filter (fun b => i ≤ b.index) ∧
      ∀ b ∈ pre, b.index < i := by
  have hp := h.pairwise_blocks f
  generalize db.blocks f = bs at hp
  induction bs with
  | nil => exact ⟨[], rfl, by simp⟩
  | cons b bs ih =>
    rw [List.pairwise_cons] at hp
    by_cases hi : i ≤ b.index
    · refine ⟨[], ?_, by simp⟩
      rw [List.nil_append, List.filter_eq_self.mpr]
      intro x hx
      rcases List.mem_cons.mp hx with rfl | hx
      · exact decide_eq_true hi
      · exact decide_eq_true (hi.trans (hp.1 x hx).le)
    · obtain ⟨pre, hpre, hlt⟩ := ih hp.2
      refine ⟨b :: pre, ?_, ?_⟩
      · rw [List.filter_cons, if_neg (by simpa using hi), List.cons_append, ← hpre]
      · intro x hx
        rcases List.mem_cons.mp hx with rfl | hx
        · omega
        · exact hlt x hx

theorem Valid.fileDataId_pos (h : db.Valid) (hb : b ∈ db.blocks f) : 0 < b.fileDataId := by
  rcases Nat.eq_zero_or_pos b.fileDataId with h0 | h0
  · have := mem_blocks.mp hb
    rw [h0, h.keyPos] at this
    cases this
  · exact h0

theorem Valid.index_lt (h : db.Valid) (hb : b ∈ db.blocks f) : b.index < uintRange :=
  h.indexLt (mem_blocks.mp hb)

theorem Valid.length_le (h : db.Valid) (hb : b ∈ db.blocks f) :
    b.data.length ≤ myfsFileBlockSize :=
  h.lengthLe (mem_blocks.mp hb)

/-- Keys start at 1, so a file has fewer blocks than there are keys. -/
theorem Valid.length_blocks_lt (h : db.Valid) (f : ℕ) : (db.blocks f).length < uintRange := by
  have hsub : ((db.blocks f).map Block.fileDataId).toFinset ⊆ Finset.Ico 1 db.fileData.next := by
    intro i hi
    simp only [List.mem_toFinset, List.mem_map] at hi
    obtain ⟨b, hb, rfl⟩ := hi
    exact Finset.mem_Ico.mpr ⟨h.fileDataId_pos hb, Table.lt_next (mem_blocks.mp hb)⟩
  have hcard := Finset.card_le_card hsub
  rw [List.toFinset_card_of_nodup (db.nodup_fileDataId f), List.length_map, Nat.card_Ico] at hcard
  have := h.dataNextPos
  have := h.dataNextLe
  omega

/-- What a file can hold at most. -/
theorem Valid.length_content_le (h : db.Valid) (f : ℕ) :
    (db.content f).length ≤ myfsFileBlockSize * (uintRange - 1) := by
  have hle : (db.content f).length ≤ myfsFileBlockSize * ((db.blocks f).map Block.data).length :=
    Chunks.length_flatten_le fun d hd => by
      obtain ⟨b, hb, rfl⟩ := List.mem_map.mp hd
      exact h.length_le hb
  rw [List.length_map] at hle
  have := h.length_blocks_lt f
  exact hle.trans (Nat.mul_le_mul_left _ (by omega))

/-! ## What a change does to the blocks -/

/-- Nothing has changed but the data of the file `f`. -/
structure OnlyData (f : ℕ) (db db' : Database) : Prop where
  files : db'.files = db.files
  unixTimestamp : db'.unixTimestamp = db.unixTimestamp
  blocks : ∀ f' ≠ f, db'.blocks f' = db.blocks f'

theorem OnlyData.refl (f : ℕ) (db : Database) : OnlyData f db db := ⟨rfl, rfl, fun _ _ => rfl⟩

theorem OnlyData.trans (h : OnlyData f db db') (h' : OnlyData f db' db'') :
    OnlyData f db db'' :=
  ⟨h'.files.trans h.files, h'.unixTimestamp.trans h.unixTimestamp,
    fun f' hf => (h'.blocks f' hf).trans (h.blocks f' hf)⟩

theorem blocks_congr (h : db'.fileData = db.fileData) : db'.blocks = db.blocks := by
  funext f
  rw [blocks, blocks, h]

/-- An update of a column of `files` that the server accepted. -/
theorem eq_of_updateFile {ok : FileRow → Bool} {u : FileRow → FileRow}
    (he : db.updateFile id ok u = some db') :
    db' = { db with files := db.files.modify id u } := by
  rw [updateFile] at he
  split at he
  · rename_i hr
    cases he
    rw [Table.modify_eq_self fun r hr' => by rw [hr] at hr'; cases hr']
  · split at he
    · exact (Option.some.inj he).symm
    · cases he

/-- A statement of a swap, on a file that exists. -/
theorem setParent_cases {v v' : Database} {p : ℕ} {r : FileRow} (hr : v.files.row id = some r)
    (h : (Change.setParent id p).exec v = some v') :
    v'.files.row id = some { r with parentId := p } ∧
      ∀ i ≠ id, v'.files.row i = v.files.row i := by
  rw [Change.exec] at h
  rw [eq_of_updateFile h]
  refine ⟨?_, fun i hi => ?_⟩
  · rw [Table.row_modify, if_pos rfl, hr]
    rfl
  · rw [Table.row_modify, if_neg hi]

theorem eq_of_setParent {v v' : Database} {p : ℕ}
    (hr : ∀ r, v.files.row id = some r → r.parentId = p)
    (h : (Change.setParent id p).exec v = some v') : v' = v := by
  rw [Change.exec] at h
  rw [eq_of_updateFile h, Table.modify_eq_self]
  intro r hr'
  rw [← hr r hr']

/-- An update of the data of an existing block that the server accepted. -/
theorem updateBlock_cases {r : BlockRow} (hr : db.fileData.row id = some r)
    (he : db.updateBlock id g = some db') :
    (g r.data).length ≤ myfsFileBlockSize ∧
      db' = { db with fileData := db.fileData.modify id fun r => { r with data := g r.data } } := by
  rw [updateBlock, hr] at he
  dsimp only at he
  split at he
  · exact ⟨‹_›, (Option.some.inj he).symm⟩
  · cases he

theorem blocks_updateBlock (he : db.updateBlock id g = some db') (f : ℕ) :
    db'.blocks f = (db.blocks f).map fun b =>
      if b.fileDataId = id then { b with data := g b.data } else b := by
  rw [updateBlock] at he
  split at he
  · rename_i hr
    cases he
    refine ((List.map_congr_left fun b hb => ?_).trans (List.map_id _)).symm
    rw [if_neg, id_eq]
    rintro rfl
    rw [mem_blocks, hr] at hb
    cases hb
  · split at he
    · cases he
      rw [blocks, Table.entries_modify, List.filter_map, List.map_map, blocks,
        ← @orderBy_map _ _ _ _ Block.index Block.index
          (fun b => if b.fileDataId = id then { b with data := g b.data } else b), List.map_map]
      · congr 1
        have hp : ((fun e : ℕ × BlockRow => decide (e.2.fileId = f)) ∘ fun e =>
            if e.1 = id then (e.1, { e.2 with data := g e.2.data }) else e)
              = fun e => decide (e.2.fileId = f) := by
          funext e
          simp only [Function.comp]
          split <;> rfl
        rw [hp]
        refine List.map_congr_left fun e _ => ?_
        simp only [Function.comp]
        split <;> rfl
      · intro b
        split <;> rfl
    · cases he

/-- The blocks of a file are told apart by their keys. -/
theorem fileDataId_ne {pre post : List Block} (hb : db.blocks f = pre ++ b :: post) :
    ∀ x, x ∈ pre ∨ x ∈ post → x.fileDataId ≠ b.fileDataId := by
  have hn := db.nodup_fileDataId f
  rw [hb, List.map_append, List.map_cons, List.nodup_append] at hn
  obtain ⟨-, hcons, hdisj⟩ := hn
  rw [List.nodup_cons] at hcons
  rintro x (hx | hx) heq
  · exact hdisj _ (List.mem_map_of_mem hx) _ List.mem_cons_self heq
  · exact hcons.1 (heq ▸ List.mem_map_of_mem hx)

theorem fileDataId_ne_of_ne {pre post : List Block} (hb : db.blocks f = pre ++ b :: post)
    (hf : f' ≠ f) : ∀ x ∈ db.blocks f', x.fileDataId ≠ b.fileDataId := by
  intro x hx heq
  exact hf (eq_of_mem_blocks hx (hb ▸ List.mem_append_right _ List.mem_cons_self) heq).1

/-- Updating one of a file's blocks. -/
theorem updateBlock_of_mem {pre post : List Block} (hb : db.blocks f = pre ++ b :: post)
    (he : db.updateBlock b.fileDataId g = some db') :
    (g b.data).length ≤ myfsFileBlockSize ∧
      db'.blocks f = pre ++ { b with data := g b.data } :: post ∧ OnlyData f db db' := by
  have hblocks := blocks_updateBlock he
  have keep : ∀ l : List Block, (∀ x ∈ l, x.fileDataId ≠ b.fileDataId) →
      (l.map fun x => if x.fileDataId = b.fileDataId then { x with data := g x.data } else x) = l :=
    fun l hl => (List.map_congr_left fun x hx => if_neg (hl x hx)).trans (List.map_id _)
  have hrow : db.fileData.row b.fileDataId = some ⟨f, b.index, b.data⟩ :=
    mem_blocks.mp (hb ▸ List.mem_append_right _ List.mem_cons_self)
  have hne := fileDataId_ne hb
  obtain ⟨hle, hdb'⟩ := updateBlock_cases hrow he
  refine ⟨?_, ?_, ?_, ?_, ?_⟩
  · exact hle
  · rw [hblocks, hb, List.map_append, List.map_cons, keep _ fun x hx => hne x (.inl hx),
      keep _ fun x hx => hne x (.inr hx), if_pos rfl]
  · rw [hdb']
  · rw [hdb']
  · intro f' hf
    rw [hblocks, keep _ (fileDataId_ne_of_ne hb hf)]

theorem blocks_deleteBlock (he : (Change.deleteBlock id).exec db = some db') (f : ℕ) :
    db'.blocks f = (db.blocks f).filter fun b => b.fileDataId ≠ id := by
  cases he
  rw [blocks, blocks, Table.entries_keep, ← orderBy_filter, List.filter_map, List.filter_filter,
    List.filter_filter]
  congr 2
  refine List.filter_congr fun e _ => ?_
  simp only [Function.comp]
  exact Bool.and_comm _ _

/-- Deleting one of a file's blocks. -/
theorem deleteBlock_of_mem {pre post : List Block} (hb : db.blocks f = pre ++ b :: post)
    (he : (Change.deleteBlock b.fileDataId).exec db = some db') :
    db'.blocks f = pre ++ post ∧ OnlyData f db db' := by
  have hblocks := blocks_deleteBlock he
  have keep : ∀ l : List Block, (∀ x ∈ l, x.fileDataId ≠ b.fileDataId) →
      (l.filter fun x => x.fileDataId ≠ b.fileDataId) = l :=
    fun l hl => List.filter_eq_self.mpr fun x hx => decide_eq_true (hl x hx)
  have hne := fileDataId_ne hb
  refine ⟨?_, ?_, ?_, ?_⟩
  · rw [hblocks, hb, List.filter_append, List.filter_cons, keep _ fun x hx => hne x (.inl hx),
      keep _ fun x hx => hne x (.inr hx), if_neg (by simp)]
  · cases he; rfl
  · cases he; rfl
  · intro f' hf
    rw [hblocks, keep _ (fileDataId_ne_of_ne hb hf)]

section insertBlock

variable {i : ℕ} {d : List Byte}

/-- What `INSERT INTO file_data` checks, and the row it adds. -/
theorem insertBlock_cases (he : (Change.insertBlock f i d).exec db = some db') :
    db.indexTaken f i = false ∧ i < uintRange ∧
      db' = { db with fileData := db.fileData.insert ⟨f, i, d⟩ } := by
  simp only [Change.exec] at he
  split at he
  · rename_i hok
    exact ⟨by simpa using hok.2.2.2.1, hok.1, (Option.some.inj he).symm⟩
  · cases he

theorem insertBlock_fresh (he : (Change.insertBlock f i d).exec db = some db') :
    ∀ b ∈ db.blocks f, b.index ≠ i := fun _ hb =>
  indexTaken_eq_false.mp (insertBlock_cases he).1 (mem_blocks.mp hb) rfl

theorem blocks_insertBlock (he : (Change.insertBlock f i d).exec db = some db') (f' : ℕ) :
    db'.blocks f' = orderBy Block.index
      (((db.fileData.entries.filter fun e => e.2.fileId = f').map fun e =>
        ⟨e.1, e.2.index, e.2.data⟩) ++ if f = f' then [⟨db.fileData.next, i, d⟩] else []) := by
  obtain ⟨-, -, rfl⟩ := insertBlock_cases he
  rw [blocks, Table.entries_insert, List.filter_append, List.map_append]
  congr 2
  by_cases hf : f = f' <;> simp [hf]

theorem onlyData_insertBlock (he : (Change.insertBlock f i d).exec db = some db') :
    OnlyData f db db' := by
  refine ⟨?_, ?_, ?_⟩
  · obtain ⟨-, -, rfl⟩ := insertBlock_cases he
    rfl
  · obtain ⟨-, -, rfl⟩ := insertBlock_cases he
    rfl
  · intro f' hf
    rw [blocks_insertBlock he, if_neg (Ne.symm hf), List.append_nil, blocks]

theorem perm_insertBlock (he : (Change.insertBlock f i d).exec db = some db') :
    (db'.blocks f).Perm (⟨db.fileData.next, i, d⟩ :: db.blocks f) := by
  rw [blocks_insertBlock he, if_pos rfl]
  exact (perm_orderBy _ _).trans
    (List.perm_append_singleton _ _ |>.trans ((perm_orderBy _ _).symm.cons _))

theorem blocks_insertBlock_last (he : (Change.insertBlock f i d).exec db = some db')
    (hi : ∀ b ∈ db.blocks f, b.index < i) :
    db'.blocks f = db.blocks f ++ [⟨db.fileData.next, i, d⟩] := by
  rw [blocks_insertBlock he, if_pos rfl, orderBy_append_singleton, blocks]
  intro b hb
  exact (hi b (mem_orderBy.mpr hb)).le

end insertBlock

/-! ## The size column -/

/-- Change the recorded size of a file, if it has a row. -/
def resize (db : Database) (f : ℕ) (g : ℕ → ℕ) : Database :=
  { db with files := db.files.modify f fun r => { r with size := g r.size } }

theorem Valid.resize (h : db.Valid) (f : ℕ) (g : ℕ → ℕ) : (db.resize f g).Valid :=
  h.modifyFiles f _

@[simp] theorem blocks_resize (db : Database) (f : ℕ) (g : ℕ → ℕ) :
    (db.resize f g).blocks = db.blocks := blocks_congr rfl

@[simp] theorem content_resize (db : Database) (f : ℕ) (g : ℕ → ℕ) :
    (db.resize f g).content = db.content := by
  funext f'
  rw [content, blocks_resize, content]

theorem fileSize_resize (db : Database) (f : ℕ) (g : ℕ → ℕ) (f' : ℕ) :
    (db.resize f g).fileSize f' = if f' = f then (db.fileSize f').map g else db.fileSize f' := by
  rw [fileSize, fileSize, resize, Table.row_modify]
  split
  · cases db.files.row f' <;> rfl
  · rfl

theorem resize_eq_self {g : ℕ → ℕ} (hg : ∀ n, db.fileSize f = some n → g n = n) :
    db.resize f g = db := by
  rw [resize, Table.modify_eq_self]
  intro r hr
  rw [hg r.size (by rw [fileSize, hr]; rfl)]

theorem eq_resize_of_addSize {n : ℕ} (he : (Change.addSize f n).exec db = some db') :
    db' = db.resize f (· + n) := by
  rw [Change.exec] at he
  exact eq_of_updateFile he

theorem eq_resize_of_setSize {n : ℕ} (he : (Change.setSize f n).exec db = some db') :
    db' = db.resize f fun _ => n := by
  rw [Change.exec] at he
  exact eq_of_updateFile he

theorem OnlyData.fileSize (h : OnlyData f db db') (f' : ℕ) : db'.fileSize f' = db.fileSize f' := by
  rw [Database.fileSize, h.files, Database.fileSize]

theorem OnlyData.content (h : OnlyData f db db') (hf : f' ≠ f) :
    db'.content f' = db.content f' := by
  rw [Database.content, h.blocks f' hf, Database.content]

theorem content_of_blocks {pre post : List Block} (h : db.blocks f = pre ++ b :: post) :
    db.content f = (pre.map Block.data).flatten ++ b.data ++ (post.map Block.data).flatten := by
  simp [content, h]

/-! ## How many bytes a file gains -/

/-- No block of the file is empty. -/
def NonEmpty (bs : List Block) : Prop := ∀ b ∈ bs, 0 < b.data.length

/-- The file `f` has gained `n` bytes, or lost some if `n` is negative, and nothing else
has changed. -/
structure Adds (f : ℕ) (n : ℤ) (db db' : Database) : Prop where
  onlyData : OnlyData f db db'
  length : ((db'.content f).length : ℤ) = (db.content f).length + n
  nonEmpty : NonEmpty (db.blocks f) → NonEmpty (db'.blocks f)

theorem Adds.refl (f : ℕ) (db : Database) : Adds f 0 db db := ⟨.refl f db, by simp, id⟩

theorem Adds.trans {m n : ℤ} (h : Adds f m db db') (h' : Adds f n db' db'') :
    Adds f (m + n) db db'' :=
  ⟨h.onlyData.trans h'.onlyData, by rw [h'.length, h.length]; ring,
    fun hb => h'.nonEmpty (h.nonEmpty hb)⟩

/-- The size column and the blocks are independent of each other. -/
theorem Adds.resize {n : ℤ} (h : Adds f n db db') (g : ℕ → ℕ) :
    Adds f n (db.resize f g) (db'.resize f g) := by
  refine ⟨⟨?_, h.onlyData.unixTimestamp, ?_⟩, ?_, ?_⟩
  · rw [Database.resize, Database.resize, h.onlyData.files]
  · intro f' hf
    rw [blocks_resize, blocks_resize, h.onlyData.blocks f' hf]
  · rw [content_resize, content_resize, h.length]
  · rw [blocks_resize, blocks_resize]
    exact h.nonEmpty

theorem adds_updateBlock {pre post : List Block} (hb : db.blocks f = pre ++ b :: post)
    (he : db.updateBlock b.fileDataId g = some db') (hpos : 0 < b.data.length → 0 < (g b.data).length) :
    Adds f ((g b.data).length - b.data.length) db db' := by
  obtain ⟨-, hb', hd⟩ := updateBlock_of_mem hb he
  refine ⟨hd, ?_, ?_⟩
  · rw [content_of_blocks hb, content_of_blocks hb']
    simp only [List.length_append]
    push_cast
    ring
  · rw [hb, hb']
    simp only [NonEmpty, List.mem_append, List.mem_cons]
    rintro h x (hx | rfl | hx)
    · exact h x (.inl hx)
    · exact hpos (h b (.inr (.inl rfl)))
    · exact h x (.inr (.inr hx))

theorem adds_insertBlock {i : ℕ} {d : List Byte} (hd : 0 < d.length)
    (he : (Change.insertBlock f i d).exec db = some db') : Adds f d.length db db' := by
  have hp := perm_insertBlock he
  refine ⟨onlyData_insertBlock he, ?_, ?_⟩
  · have := (hp.map Block.data).flatten.length_eq
    simp only [List.map_cons, List.flatten_cons, List.length_append] at this
    rw [content, this, content]
    push_cast
    ring
  · intro h x hx
    rcases List.mem_cons.mp (hp.mem_iff.mp hx) with rfl | hx
    · exact hd
    · exact h x hx

theorem adds_deleteBlock {pre post : List Block} (hb : db.blocks f = pre ++ b :: post)
    (he : (Change.deleteBlock b.fileDataId).exec db = some db') :
    Adds f (-b.data.length) db db' := by
  obtain ⟨hb', hd⟩ := deleteBlock_of_mem hb he
  refine ⟨hd, ?_, ?_⟩
  · rw [content_of_blocks hb, content, hb']
    simp only [List.map_append, List.flatten_append, List.length_append]
    push_cast
    ring
  · rw [hb, hb']
    simp only [NonEmpty, List.mem_append, List.mem_cons]
    rintro h x (hx | hx)
    · exact h x (.inl hx)
    · exact h x (.inr (.inr hx))

end Database

end MyFS
