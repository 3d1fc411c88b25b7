import MyFS.CachedSize
import MyFS.Extending
import MyFS.TruncateRaces
import MyFS.View

/-!
# What the files hold

On a proper database a data operation that succeeds has one effect on the file system: the data of the
file are others. Appending and truncating always do what they should, but for the spaces that a
truncation leaves in the block that it cuts; a write does if it ends inside the file, or if the file
ends with a full block and the write starts in it or right behind.
-/

namespace MyFS

open Sql Database Chunks

variable {db db' : Database} {f n offset : ℕ} {c data : List Byte}

/-- Data put into a file, over what is there. -/
def overwritten (c : List Byte) (offset : ℕ) (data : List Byte) : List Byte :=
  c.take offset ++ data ++ c.drop (offset + data.length)

/-- A file that is cut, or filled up with spaces. -/
def resized (n : ℕ) (c : List Byte) : List Byte := c.take n ++ spaces (n - c.length)

/-- The writes that put their data where they should, in a file of the given length. -/
def WriteFits (len size offset : ℕ) : Prop :=
  offset + size ≤ len ∨ offset ≤ len ∧ len % myfsFileBlockSize = 0

instance instDecidableWriteFits (len size offset : ℕ) : Decidable (WriteFits len size offset) := by
  unfold WriteFits
  infer_instance

/-- The block where a file is cut holds spaces up to there. -/
def CutsClean (n : ℕ) (c : List Byte) : Prop := n < c.length → cutAt c n = c.take n

instance instDecidableCutsClean (n : ℕ) (c : List Byte) : Decidable (CutsClean n c) := by
  unfold CutsClean
  infer_instance

theorem cutsClean_zero (c : List Byte) : CutsClean 0 c := fun _ => rfl

theorem truncated_eq (h : CutsClean n c) : truncated n c = resized n c := by
  rw [truncated, resized]
  split
  · rename_i hlt
    rw [h hlt, Nat.sub_eq_zero_of_le hlt.le, spaces, List.replicate_zero, List.append_nil]
  · rename_i hle
    rw [List.take_of_length_le (Nat.not_lt.mp hle)]

/-! ## Writing -/

/-- A write inside a file that touches one block more than so many bytes need. -/
def Straddles (len size offset : ℕ) : Prop :=
  0 < size ∧ offset + size ≤ len ∧
    myfsFileBlockSize * myfsDbFileBlockCount size < myfsDbFileBlockOffset offset + size

instance instDecidableStraddles (len size offset : ℕ) : Decidable (Straddles len size offset) :=
  inferInstanceAs (Decidable (_ ∧ _))

/-- Inside a file the blocks that are written are there, unless there is one too many. -/
theorem writeLeft_inside (hv : db.Valid) (hc : Canonical (db.blocks f)) (hpos : 0 < data.length)
    (hfit : offset + data.length ≤ (db.content f).length) :
    if Straddles (db.content f).length data.length offset then
      0 < (writeLeft (db.blocks f) data offset).length ∧ ∃ b ∈ db.blocks f,
        b.index = nextIndex (writeIndex offset) (writeRows (db.blocks f) data.length offset)
    else writeLeft (db.blocks f) data offset = [] := by
  have hpo := blockOffset_lt offset
  obtain ⟨pre, post, rows', db₁, hb, hlt, hle, hpost, -⟩ := writeBody_course hv f data offset
  have hrows : (writeRows (db.blocks f) data.length offset).length ≤ writeLimit data.length := by
    rw [writeRows, List.length_take]
    exact min_le_left _ _
  set rows := writeRows (db.blocks f) data.length offset with hrowsdef
  have hcb := hc
  have hn := hv.length_blocks_lt f
  rw [hb] at hcb hn
  have hcontent : db.content f = ((pre ++ rows ++ post).map Block.data).flatten := by
    rw [content, hb]
  have hfit' := hfit
  rw [hcontent] at hfit'
  obtain ⟨hindex, hlimit, hsome⟩ := hcb.writeIndex_inside hn hlt hpos hfit'
  rw [hlimit] at hpost hrows
  split
  · rename_i hstraddles
    obtain ⟨b, hmem, htaken⟩ :=
      hcb.index_taken hn hlt hle hindex hsome hrows hfit' hstraddles.2.2
    refine ⟨?_, b, by rw [hb]; exact hmem, htaken⟩
    have hmul := Nat.mul_le_mul_left myfsFileBlockSize hrows
    have hstraddles := hstraddles.2.2
    rw [writeLeft, ← hrowsdef, List.length_drop]
    omega
  · rename_i hnot
    have hroom : myfsDbFileBlockOffset offset + data.length
        ≤ myfsFileBlockSize * myfsDbFileBlockCount data.length :=
      Nat.not_lt.mp fun hover => hnot ⟨hpos, hfit, hover⟩
    have hin := hcb.fits_rows hlt hle hindex hsome hpost hfit' hroom
    have hroomRows := length_flatten_le hcb.chunked_rows.length_le
    rw [List.length_map] at hroomRows
    exact List.drop_eq_nil_of_le (by rw [← hrowsdef]; omega)

/-- Inside a file a write fails if there is one block too many, because the index of a new block would
be taken. -/
theorem isOk_writeBody_inside_iff (hv : db.Valid) (hc : Canonical (db.blocks f))
    (hs : db.fileSize f = some (db.content f).length)
    (hfit : offset + data.length ≤ (db.content f).length) :
    ((writeBody f data offset).eval engine db).1.isOk = true ↔
      ¬Straddles (db.content f).length data.length offset := by
  rcases Nat.eq_zero_or_pos data.length with hnil | hpos
  · obtain rfl := List.length_eq_zero_iff.mp hnil
    rw [eval_writeBody_nil]
    exact iff_of_true rfl fun h => absurd h.1 (lt_irrefl 0)
  · have hleft := writeLeft_inside hv hc hpos hfit
    rw [isOk_writeBody hv hs (lt_of_le_content hv le_rfl)]
    split at hleft
    · rename_i hstraddles
      obtain ⟨hsome, b, hb, htaken⟩ := hleft
      refine iff_of_false (fun hok => ?_) (not_not.mpr hstraddles)
      exact hok.index_ne hsome (nextIndex_lt (writeIndex_lt offset) _) hb htaken
    · rename_i hnot
      rw [hleft]
      exact iff_of_true (newBlocksFit_zero hv f _) hnot

/-- A write inside a file that succeeds puts the data where they should be. -/
theorem content_writeBody_inside (hv : db.Valid) (hc : Canonical (db.blocks f))
    (hs : db.fileSize f = some (db.content f).length)
    (hfit : offset + data.length ≤ (db.content f).length)
    (h : (writeBody f data offset).eval engine db = (.ok (), db')) :
    db'.content f = overwritten (db.content f) offset data := by
  rcases eq_or_ne data [] with rfl | hne
  · rw [eval_writeBody_nil] at h
    obtain ⟨-, rfl⟩ := Prod.mk.inj h
    rw [overwritten, List.append_nil, List.length_nil, Nat.add_zero, List.take_append_drop]
  have hpos := List.length_pos_iff.mpr hne
  have hnot := (isOk_writeBody_inside_iff hv hc hs hfit).mp (by rw [h]; rfl)
  have hnil := writeLeft_inside hv hc hpos hfit
  rw [if_neg hnot] at hnil
  have hroom : myfsDbFileBlockOffset offset + data.length
      ≤ myfsFileBlockSize * myfsDbFileBlockCount data.length :=
    Nat.not_lt.mp fun hover => hnot ⟨hpos, hfit, hover⟩
  obtain ⟨pre, post, rows', db₁, hb, hlt, hle, hpost, hb₁, -, hdata, -, -, -, heval⟩ :=
    writeBody_course hv f data offset
  set rows := writeRows (db.blocks f) data.length offset
  have hcb := hc
  have hn := hv.length_blocks_lt f
  rw [hb] at hcb hn
  have hcontent : db.content f = ((pre ++ rows ++ post).map Block.data).flatten := by
    rw [content, hb]
  rw [hcontent] at hfit
  obtain ⟨hindex, hlimit, hsome⟩ := hcb.writeIndex_inside hn hlt hpos hfit
  rw [hlimit] at hpost
  have hin := hcb.fits_rows hlt hle hindex hsome hpost hfit hroom
  have hstart : (pre.map Block.data).flatten.length + myfsDbFileBlockOffset offset = offset := by
    rw [hcb.length_flatten_pre hlt hle hsome, hindex]
    exact Nat.div_add_mod _ _
  rw [heval, hnil] at h
  obtain ⟨-, rfl⟩ := Prod.mk.inj h
  rw [hcontent, content, hb₁, flatten_overwrite_rows (blockOffset_lt offset) hcb.chunked_rows hin hdata,
    hstart, overwritten]

theorem content_writeBody (hv : db.Valid) (hc : Canonical (db.blocks f))
    (hs : db.fileSize f = some (db.content f).length)
    (hfits : WriteFits (db.content f).length data.length offset)
    (h : (writeBody f data offset).eval engine db = (.ok (), db')) :
    db'.content f = overwritten (db.content f) offset data := by
  rcases Nat.lt_or_ge (db.content f).length (offset + data.length) with hpast | hinside
  · obtain ⟨hle, hmod⟩ := hfits.resolve_left (Nat.not_le.mpr hpast)
    rw [(content_writeBody_of_full hv hc hs (lt_of_le_content hv le_rfl) hpast hle hmod h).1,
      overwritten, List.drop_eq_nil_of_le hpast.le, List.append_nil]
  · exact content_writeBody_inside hv hc hs hinside h

/-- Such a write keeps the layout. -/
theorem keepsLayout_of_writeFits (hv : db.Valid)
    (hfits : WriteFits (db.content f).length n offset) :
    KeepsLayout (db.content f).length n offset := by
  have hlen := hv.length_content_le f
  have hoff : offset ≤ (db.content f).length := by
    rcases hfits with h | h
    · omega
    · exact h.1
  have hindex : writeIndex offset = offset / myfsFileBlockSize := by
    apply writeIndex_eq
    unfold myfsFileBlockSize uintRange at *
    omega
  have hsplit := Nat.div_add_mod offset myfsFileBlockSize
  rcases hfits with hinside | ⟨-, hmod⟩
  · refine .inr (.inl ?_)
    rw [hindex, myfsDbFileBlockOffset, Nat.mul_comm]
    omega
  · refine .inr (.inr (.inr (.inl ⟨hmod, ?_⟩)))
    rw [hindex]
    exact Nat.div_le_div_right hoff

/-! ## Effects -/

namespace Database

theorem Proper.holdsContent (h : db.Proper) (hf : (db.files.row f).isSome) :
    HoldsContent f (db.content f) db := by
  obtain ⟨r, hr⟩ := Option.isSome_iff_exists.mp hf
  have hs : db.fileSize f = some r.size := by rw [fileSize, hr, Option.map_some]
  have hreg := h.regular f r.size hs
  exact ⟨h.hierarchy.valid, hreg.canonical, rfl, by rw [hs, ← hreg.length]; rfl⟩

/-- What a data operation leaves that keeps the file canonical and records its size. -/
theorem Proper.step_content {k : ℤ} {g : ℕ → ℕ} (h : db.Proper) (hf : (db.files.row f).isSome)
    (hadd : Adds f k (db.resize f g) db') (hholds : HoldsContent f c db') :
    db'.Proper ∧ FileSystem.Step .directory db.fileSystem (.store f c) db'.fileSystem := by
  have hstep := h.step_data hf hadd hholds.valid fun s hs => ?_
  · rwa [hholds.content] at hstep
  · refine ⟨hholds.canonical, ?_⟩
    have hsize := hadd.onlyData.fileSize f
    rw [fileSize_resize, if_pos rfl, hs, hholds.size, Option.map_some, Option.some.injEq] at hsize
    rw [← hsize, ← hholds.content]
    rfl

theorem Proper.step_appendBody (h : db.Proper) (hf : (db.files.row f).isSome)
    (he : (appendBody f data).eval engine db = (.ok (), db')) :
    db'.Proper ∧
      FileSystem.Step .directory db.fileSystem (.store f (db.content f ++ data)) db'.fileSystem :=
  h.step_content hf (adds_appendBody he) ((h.holdsContent hf).appendBody he)

theorem Proper.step_truncateBody (h : db.Proper) (hf : (db.files.row f).isSome)
    (hclean : CutsClean n (db.content f))
    (he : (truncateBody f n).eval engine db = (.ok (), db')) :
    db'.Proper ∧
      FileSystem.Step .directory db.fileSystem (.store f (resized n (db.content f)))
        db'.fileSystem := by
  have hholds := h.holdsContent hf
  rw [← truncated_eq hclean]
  exact h.step_content hf (truncateBody_spec h.hierarchy.valid hholds.size le_rfl he).1
    (hholds.truncateBody he)

theorem Proper.step_writeBody (h : db.Proper) (hf : (db.files.row f).isSome)
    (hfits : WriteFits (db.content f).length data.length offset)
    (he : (writeBody f data offset).eval engine db = (.ok (), db')) :
    db'.Proper ∧
      FileSystem.Step .directory db.fileSystem (.store f (overwritten (db.content f) offset data))
        db'.fileSystem := by
  have hv := h.hierarchy.valid
  have hholds := h.holdsContent hf
  have hcontent := content_writeBody hv hholds.canonical hholds.size hfits he
  obtain ⟨k, hc, hadd⟩ :=
    writeBody_canonical hv hholds.canonical (keepsLayout_of_writeFits hv hfits) he
  refine h.step_content hf hadd ⟨valid_of_eval hv he, hc, hcontent, ?_⟩
  have hlen := hadd.length
  rw [content_resize] at hlen
  rw [hadd.onlyData.fileSize, fileSize_resize, if_pos rfl, hholds.size, ← hcontent, Option.map_some,
    Option.some.injEq]
  omega

end Database

end MyFS
