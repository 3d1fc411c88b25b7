import MyFS.Changes
import MyFS.Runs
import MyFS.Sql.Retry

/-!
# A storage operation that loses its connection

`db_query_timed` repeats a statement that failed, without knowing of the transaction that
the statement belongs to. When the connection is lost inside a transaction, the repeated
statement and all that follow it run outside of any: what was done before is gone, what
is still to be done is committed piece by piece.

`intact_runTimed_iff` says exactly when such an operation is all or nothing nevertheless, and
`exists_runTimed_intact_iff` that it comes to an end if the attempts are bounded.
`shrink`, `grow`, `append` and `write` update the size once and every block once, so that
nothing makes up for what was lost; only swapping a file with itself does.
-/

namespace MyFS

open Sql Database

variable {cfg : Retry} {db w : Database} {f n : ℕ} {again : Bool} {α : Type}
  {rest : Prog (Except Failure Unit)}

/-! ## The changes a positional write makes -/

/-- What a positional write does to `file_data` without touching the block `j`. -/
def Change.Spares (j : ℕ) : Change → Prop
  | .spliceBlock id _ _ _ => id ≠ j
  | .insertBlock _ _ _ | .addSize _ _ => True
  | _ => False

theorem spares_writeBlocks {j : ℕ} {rows : List BlockInfo}
    (hj : j ∉ rows.map BlockInfo.fileDataId) (index pageOffset written : ℕ) (left : List Byte) :
    (writeBlocks rows index pageOffset written left).Only (Change.Spares j) := by
  refine only_writeBlocks (fun b hb _ _ => ?_) _ _ _ _
  show b.fileDataId ≠ j
  intro h
  exact hj (h ▸ List.mem_map_of_mem hb)

theorem spares_writeNewBlocks (j f index : ℕ) (left : List Byte) :
    (writeNewBlocks f index left).Only (Change.Spares j) :=
  only_writeNewBlocks (fun _ _ => trivial) (fun _ => trivial) _ _

/-- A block that is spared keeps its data. -/
theorem row_of_spares {j : ℕ} {r : BlockRow} {c : Change} {db' : Database} (hc : c.Spares j)
    (hr : db.fileData.row j = some r) (h : c.exec db = some db') : db'.fileData.row j = some r := by
  cases c with
  | spliceBlock id pos len new =>
    rw [Change.exec, updateBlock] at h
    split at h
    · cases h
      exact hr
    · split at h
      · cases h
        rw [Table.row_modify, if_neg (Ne.symm hc), hr]
      · cases h
  | insertBlock f i d =>
    obtain ⟨-, -, rfl⟩ := insertBlock_cases h
    rw [Table.row_insert, if_neg (Table.lt_next hr).ne, hr]
  | addSize f len =>
    rw [eq_resize_of_addSize h]
    exact hr
  | _ => cases hc

/-! ## Losing one statement -/

theorem fate_dbSelect {q : Query} {v : Database} {rest : Prog (Except Failure q.Answer)}
    (h : fate cfg engine (dbSelect q) v n = .body rest w again) : w = v := by
  rw [dbSelect, fate_query] at h
  split at h
  · cases h
    rfl
  · rw [fate] at h
    split at h <;> cases h

theorem fate_dbQuery {c : Change} {v : Database}
    (h : fate cfg engine (dbQuery c) v n = .body rest w again) : w = v ∧ rest = dbQuery c := by
  have hret : ∀ (r : Except Failure Unit) v m,
      fate cfg engine (.ret r : Prog (Except Failure Unit)) v m ≠ .body rest w again := by
    intro r v m h
    rw [fate] at h
    split at h <;> cases h
  rw [dbQuery] at h
  cases hc : engine.exec c v with
  | some v' =>
    rw [fate_change_of_some cfg engine _ n hc] at h
    split at h
    · cases h
      exact ⟨rfl, rfl⟩
    · exact absurd h (hret _ _ _)
  | none =>
    rw [fate_change_of_none cfg engine _ n hc] at h
    split at h
    · cases h
      exact ⟨rfl, rfl⟩
    · split at h
      · cases h
        exact ⟨rfl, rfl⟩
      · exact absurd h (hret _ _ _)

/-- A loss after a statement has changed a row of `files`, when the rest works on the
blocks: the row stays as it was before. -/
theorem not_madeUp_of_files {p q : Prog (Except Failure Unit)} {v : Database} {r : FileRow}
    (r' : FileRow) (heval : p.eval engine db = rest.eval engine w)
    (hq : q.Only Change.OnBlocks) (h : fate cfg engine q v n = .body rest w again)
    (hr : db.files.row f = some r) (hr' : v.files.row f = some r') (hne : r ≠ r') :
    ¬MadeUp engine p rest db := by
  have keeps : ∀ (s : FileRow) {c : Change} {v v' : Database}, c.OnBlocks →
      v.files.row f = some s → c.exec v = some v' → v'.files.row f = some s := by
    intro s c v v' hc hs he
    rw [files_of_onBlocks hc he, hs]
  obtain ⟨honly, hw⟩ := fate_only (E := engine) (keeps r') hq hr' h
  refine not_madeUp heval honly (keeps r') (keeps r) hw hr fun t h₁ h₂ => hne ?_
  rw [h₁] at h₂
  exact (Option.some.inj h₂).symm

/-! ## What each operation loses -/

theorem fate_ret {r : Except Failure Unit} {v : Database} :
    fate cfg engine (.ret r : Prog (Except Failure Unit)) v n ≠ .body rest w again := by
  intro h
  rw [fate] at h
  split at h <;> cases h

theorem updateBlock_id {v v' : Database} {id : ℕ} {g : List Byte → List Byte} (hg : ∀ d, g d = d)
    (h : v.updateBlock id g = some v') : v' = v := by
  rw [updateBlock] at h
  split at h
  · cases h
    rfl
  · split at h
    · cases h
      rw [Table.modify_eq_self fun r _ => by rw [hg]]
    · cases h

/-- Nothing can be inserted into a file that has no row. -/
theorem eq_of_fate_insertBlocks {v : Database} {fuel index : ℕ} {left : List Byte}
    (hr : v.files.row f = none)
    (h : fate cfg engine (insertBlocks f fuel index left) v n = .body rest w again) : w = v := by
  have keeps : ∀ {c : Change} {t t' : Database}, (∃ i d, c = .insertBlock f i d) → t = v →
      c.exec t = some t' → t' = v := by
    rintro c t t' ⟨i, d, rfl⟩ rfl he
    simp [Change.exec, hr] at he
  exact (fate_only (E := engine) keeps (only_insertBlocks (fun i d => ⟨i, d, rfl⟩) _ _ _) rfl h).2

/-- An append of nothing changes nothing. -/
theorem eq_of_fate_appendBlocks_nil {v : Database} {last : Option BlockInfo}
    (h : fate cfg engine (appendBlocks f [] last) v n = .body rest w again) : w = v := by
  have keeps : ∀ {c : Change} {t t' : Database}, (∃ id, c = .concatBlock id []) → t = v →
      c.exec t = some t' → t' = v := by
    rintro c t t' ⟨id, rfl⟩ rfl he
    rw [Change.exec] at he
    exact updateBlock_id List.append_nil he
  refine (fate_only (E := engine) keeps ?_ rfl h).2
  cases last with
  | none => exact trivial
  | some b =>
    rw [appendBlocks]
    split
    · split
      · refine (only_dbQuery ⟨b.fileDataId, by rw [List.take_nil]⟩).andThen fun _ => ?_
        rw [List.drop_nil]
        exact trivial
      · exact trivial
    · exact trivial

theorem not_madeUp_appendBody (hdb : db.Valid) {data : List Byte}
    (h : fate cfg engine (appendBody f data) db n = .body rest w again) (hw : w ≠ db) :
    ¬MadeUp engine (appendBody f data) rest db := by
  have heval := eval_of_fate (body_appendBody f data) h
  rw [appendBody] at h
  rcases fate_andThen h with ⟨rest₁, -, h⟩ | ⟨last, v, m, hlast, h⟩
  · exact absurd (fate_dbSelect h) hw
  · cases hlast
    rcases fate_andThen h with ⟨rest₁, -, h⟩ | ⟨_, v, m, hadd, h⟩
    · exact absurd (fate_dbQuery h).1 hw
    · have hv := eq_resize_of_addSize (eval_dbQuery.mp hadd)
      cases hr : db.files.row f with
      | none =>
        -- there is no such file: neither is a size changed nor can a block be inserted
        rw [resize_eq_self fun n hn => by rw [fileSize, hr] at hn; cases hn] at hv
        have hlast : engine.ask (.lastBlock f) db = none := by
          show (db.blocks f).getLast?.map Block.info = none
          rw [blocks_eq_nil hdb hr]
          rfl
        rw [hlast, hv] at h
        exact absurd (eq_of_fate_insertBlocks hr h) hw
      | some r =>
        cases data with
        | nil =>
          have hsame : v = db := hv.trans (resize_eq_self fun n _ => Nat.add_zero n)
          rw [hsame] at h
          exact absurd (eq_of_fate_appendBlocks_nil h) hw
        | cons x data =>
          refine not_madeUp_of_files { r with size := r.size + (x :: data).length } heval
            (only_appendBlocks (P := Change.OnBlocks) (fun _ _ _ => trivial) (fun _ _ => trivial) _)
            h hr ?_ ?_
          · rw [hv, resize, Table.row_modify, if_pos rfl, hr]
            rfl
          · intro heq
            have := congrArg FileRow.size heq
            rw [List.length_cons] at this
            dsimp only at this
            omega

theorem not_madeUp_truncateBody {size : ℕ} (hsize : size < 2 ^ 63)
    (h : fate cfg engine (truncateBody f size) db n = .body rest w again) (hw : w ≠ db) :
    ¬MadeUp engine (truncateBody f size) rest db := by
  have heval := eval_of_fate (body_truncateBody f size) h
  rw [truncateBody] at h
  rcases fate_andThen h with ⟨rest₁, -, h⟩ | ⟨row, v, m, hrow, h⟩
  · exact absurd (fate_dbSelect h) hw
  · cases hrow
    rw [truncateFrom] at h
    split at h
    · exact absurd h fate_ret
    · rename_i hcur
      rcases fate_andThen h with ⟨rest₁, -, h⟩ | ⟨_, v, m, hset, h⟩
      · split at h
        · exact absurd (fate_dbQuery h).1 hw
        · exact absurd h fate_ret
      · split at hset
        · rename_i hdiff
          have hv := eq_resize_of_setSize (eval_dbQuery.mp hset)
          have hrow : engine.ask (.fileSize f) db = (db.files.row f).map fun r => r.size := rfl
          rw [hrow] at hcur hdiff
          cases hr : db.files.row f with
          | none =>
            rw [hr] at hcur
            exact absurd rfl hcur
          | some r =>
            rw [hr] at hdiff
            refine not_madeUp_of_files { r with size := size } heval ?_ h hr ?_ ?_
            · split
              · exact (only_dbSelect _ _).andThen fun _ => only_growBlocks _ _
              · split
                · exact only_shrinkBlocks _ _
                · trivial
            · rw [hv, resize, Table.row_modify, if_pos rfl, hr]
              rfl
            · intro heq
              have hsame : r.size = size := congrArg FileRow.size heq
              rw [Option.map_some, currentSize, hsame, offT_of_lt hsize] at hdiff
              exact hdiff (sub_self _)
        · rename_i hdiff
          rw [not_not] at hdiff
          rw [if_neg (by omega), if_neg (by omega)] at h
          exact absurd h fate_ret

/-- A swap of two files whose second statement is the one with which the connection is lost. -/
theorem fate_swapBody {file1 file2 : MyfsFile}
    (h : fate cfg engine (swapBody file1 file2) db n = .body rest w again) (hw : w ≠ db) :
    (Change.setParent file1.fileId file2.parentId).exec db = some w ∧
      rest = dbQuery (.setParent file2.fileId file1.parentId) := by
  rw [swapBody] at h
  rcases fate_andThen h with ⟨rest₁, -, h⟩ | ⟨_, v, m, hset, h⟩
  · exact absurd (fate_dbQuery h).1 hw
  · obtain ⟨rfl, hrest⟩ := fate_dbQuery h
    exact ⟨eval_dbQuery.mp hset, hrest⟩

theorem not_madeUp_swapBody {file1 file2 : MyfsFile} (hne : file1.fileId ≠ file2.fileId)
    (h : fate cfg engine (swapBody file1 file2) db n = .body rest w again) (hw : w ≠ db) :
    ¬MadeUp engine (swapBody file1 file2) rest db := by
  have heval := eval_of_fate (body_swapBody file1 file2) h
  obtain ⟨hset, rfl⟩ := fate_swapBody h hw
  have keeps : ∀ (s : Option FileRow) {c : Change} {v v' : Database},
      .setParent file2.fileId file1.parentId = c → v.files.row file1.fileId = s →
      c.exec v = some v' → v'.files.row file1.fileId = s := by
    rintro s c v v' rfl hs he
    rw [Change.exec] at he
    rw [eq_of_updateFile he, Table.row_modify, if_neg hne, hs]
  refine not_madeUp (I := fun v => v.files.row file1.fileId = w.files.row file1.fileId)
    (J := fun v => v.files.row file1.fileId = db.files.row file1.fileId) heval (only_dbQuery rfl)
    (keeps _) (keeps _) rfl rfl fun t h₁ h₂ => hw ?_
  -- the row of the first file is the same with its parent set and without
  apply eq_of_setParent ?_ hset
  intro r hr
  have hr' := (setParent_cases hr hset).1
  rw [← h₁, h₂, hr] at hr'
  rw [Option.some.inj hr']

/-- Setting a parent for the second time undoes the first. -/
theorem exec_setParent_twice {v : Database} {id p q : ℕ} (h : (Change.setParent id q).exec db = some v) :
    (Change.setParent id p).exec v = (Change.setParent id p).exec db := by
  cases hr : db.files.row id with
  | none =>
    rw [eq_of_setParent (fun r hr' => by rw [hr] at hr'; cases hr') h]
  | some r =>
    have hrow := (setParent_cases hr h).1
    rw [Change.exec] at h
    have hv := eq_of_updateFile h
    have hsome : (v.files.row p).isSome = (db.files.row p).isSome := by
      rw [hv]
      simp only [Table.row_modify]
      split
      · cases db.files.row p <;> rfl
      · rfl
    have htaken : v.nameTaken (· == id) p r.name = db.nameTaken (· == id) p r.name := by
      rw [hv]
      simp only [nameTaken, Table.entries_modify, List.any_map]
      congr 1
      funext e
      simp only [Function.comp]
      by_cases he : e.1 = id <;> simp [he]
    have hmodify : v.files.modify id (fun r => { r with parentId := p })
        = db.files.modify id fun r => { r with parentId := p } := by
      rw [hv]
      refine Table.ext (funext fun i => ?_) rfl
      simp only [Table.row_modify]
      split
      · cases db.files.row i <;> rfl
      · rfl
    simp only [Change.exec, updateFile, hr, hrow, hsome, htaken, hmodify]
    rw [hv]

theorem refused_or_madeUp_swapBody {file1 file2 : MyfsFile} (heq : file1.fileId = file2.fileId)
    (h : fate cfg engine (swapBody file1 file2) db n = .body rest w again) (hw : w ≠ db) :
    Refused engine rest db ∨ MadeUp engine (swapBody file1 file2) rest db := by
  have heval := eval_of_fate (body_swapBody file1 file2) h
  obtain ⟨hset, rfl⟩ := fate_swapBody h hw
  rw [← heq] at heval ⊢
  have htwice := exec_setParent_twice (p := file1.parentId) hset
  cases hc : (Change.setParent file1.fileId file1.parentId).exec db with
  | none =>
    refine .inl ?_
    unfold Refused
    rw [dbQuery, Program.eval_change_of_none engine (c := .setParent file1.fileId file1.parentId) _ hc]
    exact ⟨rfl, rfl⟩
  | some d =>
    rw [hc] at htwice
    refine .inr ?_
    unfold MadeUp
    rw [heval, eval_dbQuery.mpr htwice, eval_dbQuery.mpr hc]
    exact ⟨rfl, rfl⟩

/-! ## What a positional write loses -/

/-- The block `j` has been changed, and is not among those still to be written. -/
def Changed (db v : Database) (rows : List BlockInfo) : Prop :=
  ∃ j r r', j ∉ rows.map BlockInfo.fileDataId ∧ db.fileData.row j = some r ∧
    v.fileData.row j = some r' ∧ r ≠ r'

/-- Writing one block changes it, or nothing. -/
theorem changed_splice {v v' : Database} {b : BlockInfo} {rows : List BlockInfo} {pos len : ℕ}
    {new : List Byte} (hrow : (db.fileData.row b.fileDataId).isSome)
    (hb : b.fileDataId ∉ rows.map BlockInfo.fileDataId) (hv : v = db ∨ Changed db v (b :: rows))
    (h : (Change.spliceBlock b.fileDataId pos len new).exec v = some v') :
    v' = db ∨ Changed db v' rows := by
  rcases hv with rfl | ⟨j, r, r', hj, hr, hr', hne⟩
  · obtain ⟨r, hr⟩ := Option.isSome_iff_exists.mp hrow
    rw [Change.exec] at h
    obtain ⟨-, rfl⟩ := updateBlock_cases hr h
    by_cases hsame : { r with data := sqlInsert r.data pos len new } = r
    · left
      rw [Table.modify_eq_self]
      intro s hs
      rw [hr] at hs
      rw [← Option.some.inj hs, hsame]
    · refine .inr ⟨b.fileDataId, r, { r with data := sqlInsert r.data pos len new }, hb, hr, ?_,
        Ne.symm hsame⟩
      rw [Table.row_modify, if_pos rfl, hr]
      rfl
  · rw [List.map_cons, List.mem_cons, not_or] at hj
    have hspares : (Change.spliceBlock b.fileDataId pos len new).Spares j := Ne.symm hj.1
    exact .inr ⟨j, r, r', hj.2, hr, row_of_spares hspares hr' h, hne⟩

section writeBlocks

variable {rows : List BlockInfo} {index pageOffset written : ℕ} {left : List Byte} {v : Database}

/-- After the existing blocks have been written nothing has changed, or one of them. -/
theorem changed_eval_writeBlocks {r : ℕ × List Byte} {v' : Database}
    (hrows : ∀ b ∈ rows, (db.fileData.row b.fileDataId).isSome)
    (hnodup : (rows.map BlockInfo.fileDataId).Nodup) (hv : v = db ∨ Changed db v rows)
    (h : (writeBlocks rows index pageOffset written left).eval engine v = (.ok r, v')) :
    v' = db ∨ Changed db v' [] := by
  induction rows generalizing index pageOffset written left v with
  | nil =>
    cases h
    exact hv
  | cons b rows ih =>
    rw [List.forall_mem_cons] at hrows
    rw [List.map_cons, List.nodup_cons] at hnodup
    rw [writeBlocks] at h
    split at h
    · obtain ⟨v₁, hset, h⟩ := eval_dbQuery_andThen.mp h
      exact ih hrows.2 hnodup.2 (changed_splice hrows.1 hnodup.1 hv hset) h
    · cases h
      rcases hv with rfl | ⟨j, r, r', -, hr⟩
      · exact .inl rfl
      · exact .inr ⟨j, r, r', List.not_mem_nil, hr⟩

/-- If the connection is lost at one of the existing blocks, nothing has changed, or a block
that the rest does not touch. -/
theorem changed_fate_writeBlocks {rest : Prog (Except Failure (ℕ × List Byte))}
    (hrows : ∀ b ∈ rows, (db.fileData.row b.fileDataId).isSome)
    (hnodup : (rows.map BlockInfo.fileDataId).Nodup) (hv : v = db ∨ Changed db v rows)
    (h : fate cfg engine (writeBlocks rows index pageOffset written left) v n
      = .body rest w again) :
    w = db ∨ ∃ j r r', rest.Only (Change.Spares j) ∧ db.fileData.row j = some r ∧
      w.fileData.row j = some r' ∧ r ≠ r' := by
  induction rows generalizing index pageOffset written left v n with
  | nil =>
    rw [writeBlocks, fate] at h
    split at h <;> cases h
  | cons b rows ih =>
    rw [List.forall_mem_cons] at hrows
    rw [List.map_cons, List.nodup_cons] at hnodup
    rw [writeBlocks] at h
    split at h
    · rcases fate_andThen h with ⟨rest₁, hrest, h⟩ | ⟨_, v₁, m, hset, h⟩
      · obtain ⟨rfl, rfl⟩ := fate_dbQuery h
        rw [hrest]
        rcases hv with hv | ⟨j, r, r', hj, hr⟩
        · exact .inl hv
        rw [List.map_cons, List.mem_cons, not_or] at hj
        have hspares : b.fileDataId ≠ j := Ne.symm hj.1
        refine .inr ⟨j, r, r', ?_, hr⟩
        exact (only_dbQuery hspares).andThen fun _ => spares_writeBlocks hj.2 _ _ _ _
      · exact ih hrows.2 hnodup.2 (changed_splice hrows.1 hnodup.1 hv (eval_dbQuery.mp hset)) h
    · rw [fate] at h
      split at h <;> cases h

end writeBlocks

theorem not_madeUp_of_row {p : Prog (Except Failure Unit)} {j : ℕ} {r r' : BlockRow}
    (heval : p.eval engine db = rest.eval engine w) (honly : rest.Only (Change.Spares j))
    (hr : db.fileData.row j = some r) (hr' : w.fileData.row j = some r') (hne : r ≠ r') :
    ¬MadeUp engine p rest db := by
  refine not_madeUp heval honly (fun hc => row_of_spares hc) (fun hc => row_of_spares hc) hr' hr
    fun t h₁ h₂ => hne ?_
  rw [h₁] at h₂
  exact (Option.some.inj h₂).symm

theorem not_madeUp_writeBody {data : List Byte} {offset : ℕ}
    (h : fate cfg engine (writeBody f data offset) db n = .body rest w again) (hw : w ≠ db) :
    ¬MadeUp engine (writeBody f data offset) rest db := by
  have heval := eval_of_fate (body_writeBody f data offset) h
  rw [writeBody] at h
  rcases fate_andThen h with ⟨rest₁, -, h⟩ | ⟨rows, v, m, hselect, h⟩
  · exact absurd (fate_dbSelect h) hw
  · obtain ⟨bs, hbs, hmap, hv⟩ : ∃ bs : List Block, bs.Sublist (db.blocks f) ∧
        rows = bs.map Block.info ∧ v = db := by
      cases hselect
      exact ⟨_, (List.take_sublist _ _).trans List.filter_sublist, rfl, rfl⟩
    rw [hv] at h
    have hrows : ∀ b ∈ rows, (db.fileData.row b.fileDataId).isSome := by
      intro i hi
      rw [hmap] at hi
      obtain ⟨b, hb, rfl⟩ := List.mem_map.mp hi
      rw [Block.info, mem_blocks.mp (hbs.subset hb)]
      rfl
    have hnodup : (rows.map BlockInfo.fileDataId).Nodup := by
      rw [hmap, List.map_map]
      exact (db.nodup_fileDataId f).sublist (hbs.map _)
    rcases fate_andThen h with ⟨rest₁, hrest, h⟩ | ⟨⟨index, left⟩, v₁, m, hwrite, h⟩
    · -- lost at one of the existing blocks
      rcases changed_fate_writeBlocks hrows hnodup (.inl rfl) h with
        hw' | ⟨j, r, r', honly, hr, hr', hne⟩
      · exact absurd hw' hw
      · refine not_madeUp_of_row heval ?_ hr hr' hne
        rw [hrest]
        exact honly.andThen fun _ => spares_writeNewBlocks _ _ _ _
    · rcases changed_eval_writeBlocks hrows hnodup (.inl rfl) hwrite with
        hv₁ | ⟨j, r, r', -, hr, hr', hne⟩
      · -- nothing has been changed before the size
        rw [hv₁] at h
        dsimp only at h
        rw [writeNewBlocks] at h
        split at h
        · rename_i hleft
          rcases fate_andThen h with ⟨rest₁, -, h⟩ | ⟨_, v₂, m, hadd, h⟩
          · exact absurd (fate_dbQuery h).1 hw
          · have hv := eq_resize_of_addSize (eval_dbQuery.mp hadd)
            cases hr : db.files.row f with
            | none =>
              rw [resize_eq_self fun n hn => by rw [fileSize, hr] at hn; cases hn] at hv
              rw [hv] at h
              exact absurd (eq_of_fate_insertBlocks hr h) hw
            | some r =>
              refine not_madeUp_of_files { r with size := r.size + left.length } heval
                (only_insertBlocks (fun _ _ => trivial) _ _ _) h hr ?_ ?_
              · rw [hv, resize, Table.row_modify, if_pos rfl, hr]
                rfl
              · intro heq
                have := congrArg FileRow.size heq
                dsimp only at this
                omega
        · exact absurd h fate_ret
      · -- a block has been changed
        obtain ⟨honly, hw'⟩ := fate_only (E := engine) (fun hc => row_of_spares hc)
          (spares_writeNewBlocks j f index left) hr' h
        exact not_madeUp_of_row heval honly hr hw' hne

/-! ## When the loss does no harm -/

/-- A swap of a file with itself. -/
def TxnOp.SelfSwap : TxnOp → Prop
  | .swap file1 file2 => file1.fileId = file2.fileId
  | _ => False

/-- The sizes that an `off_t` can hold. -/
def TxnOp.Sized : TxnOp → Prop
  | .truncate _ size => size < 2 ^ 63
  | _ => True

/-- When the loss of the connection at attempt number `n` does no harm: at
`START TRANSACTION` or after the end; at the closing statement, unless there is something to
commit; at a statement that is not repeated; at one before which nothing has been changed,
unless a later statement is refused after a change; and at one before which something has
been changed if what is left to do is refused before it changes anything, or if a file is
swapped with itself. -/
def TxnOp.Harmless (cfg : Retry) (op : TxnOp) (db : Database) (n : ℕ) : Prop :=
  match lossAt cfg engine op.body db n with
  | .never => True
  | .closing r w => r.isOk = true → w = db
  | .body _ _ false => True
  | .body rest w true =>
    w = db ∧ ((op.body.eval engine db).1.isOk = true ∨ (op.body.eval engine db).2 = db) ∨
      w ≠ db ∧ (Refused engine rest db ∨ op.SelfSwap)

theorem madeUp_iff (hdb : db.Valid) {op : TxnOp} (hop : op.Sized)
    (h : fate cfg engine op.body db n = .body rest w again) (hw : w ≠ db) :
    Refused engine rest db ∨ MadeUp engine op.body rest db ↔
      Refused engine rest db ∨ op.SelfSwap := by
  by_cases hself : op.SelfSwap
  · refine iff_of_true ?_ (.inr hself)
    cases op with
    | swap file1 file2 => exact refused_or_madeUp_swapBody hself h hw
    | _ => cases hself
  · have hlost : ¬MadeUp engine op.body rest db := by
      cases op with
      | write f data offset => exact not_madeUp_writeBody h hw
      | append f data => exact not_madeUp_appendBody hdb h hw
      | truncate f size => exact not_madeUp_truncateBody hop h hw
      | swap file1 file2 => exact not_madeUp_swapBody hself h hw
    rw [or_iff_left hlost, or_iff_left hself]

/-- For an operation nothing that has been lost is made up for, but by a swap of a file with
itself. -/
theorem harmless_iff (hdb : db.Valid) {op : TxnOp} (hop : op.Sized) (n : ℕ) :
    (lossAt cfg engine op.body db n).Harmless engine op.body db ↔ op.Harmless cfg db n := by
  unfold TxnOp.Harmless
  cases n with
  | zero => exact Iff.rfl
  | succ n =>
    rw [lossAt]
    cases hf : fate cfg engine op.body db n with
    | never => exact Iff.rfl
    | closing r w => exact Iff.rfl
    | body rest w again =>
      cases again with
      | false => exact Iff.rfl
      | true => exact or_congr Iff.rfl (and_congr_right fun hw => madeUp_iff hdb hop hf hw)

/-- A storage operation in which the connection is lost is all or nothing, with its result
true only if it is all, exactly if the loss is harmless. -/
theorem intact_runTimed_iff {T : Type} {who : T} (hdb : db.Valid) {op : TxnOp} (hop : op.Sized)
    {fuel : ℕ} {b : Bool} {s' : Session Database Change T}
    (h : runTimed cfg engine who fuel op.prog (some n) (Session.idle db) = some (b, s')) :
    Intact engine op.body db b s'.committed ↔ op.Harmless cfg db n := by
  rw [op.prog_eq] at h
  exact (intact_iff op.isBody rfl h).trans (harmless_iff hdb hop n)

/-- An append whose `SELECT` is repeated after the loss is done in full, in pieces. -/
theorem intact_runTimed_append :
    ∃ s', runTimed ⟨0, 2⟩ engine () 2 (TxnOp.append 1 [97]).prog (some 1)
        (Session.idle storeWithFile) = some (true, s') ∧
      Intact engine (TxnOp.append 1 [97]).body storeWithFile true s'.committed := by
  have hsized : (TxnOp.append 1 [97]).Sized := trivial
  have hharmless : (TxnOp.append 1 [97]).Harmless ⟨0, 2⟩ storeWithFile 1 := by
    show storeWithFile = storeWithFile ∧ _ ∨ _
    exact .inl ⟨rfl, .inl rfl⟩
  obtain ⟨s', hrun⟩ : ∃ s', runTimed ⟨0, 2⟩ engine () 2 (TxnOp.append 1 [97]).prog (some 1)
      (Session.idle storeWithFile) = some (true, s') := ⟨_, rfl⟩
  exact ⟨s', hrun, (intact_runTimed_iff valid_storeWithFile hsized hrun).mpr hharmless⟩

/-- With a bounded number of attempts a storage operation returns wherever the connection is lost,
and it is then all or nothing exactly if the loss is harmless. -/
theorem exists_runTimed_intact_iff {T : Type} (who : T) (hdb : db.Valid) {op : TxnOp}
    (hop : op.Sized) {limit : ℕ} (hlim : cfg.attempts = some limit) (n : ℕ) :
    ∃ b s', runTimed cfg engine who limit op.prog (some n) (Session.idle db) = some (b, s') ∧
      (Intact engine op.body db b s'.committed ↔ op.Harmless cfg db n) := by
  have hsome : (runTimed cfg engine who limit op.prog (some n) (Session.idle db)).isSome :=
    runTimed_isSome hlim le_rfl op.prog (some n) (Session.idle db)
  obtain ⟨⟨b, s'⟩, h⟩ := Option.isSome_iff_exists.mp hsome
  refine ⟨b, s', h, ?_⟩
  rw [op.prog_eq] at h
  exact (intact_iff op.isBody rfl h).trans (harmless_iff hdb hop n)

/-- An append whose `INSERT` is repeated after the loss has lost its `UPDATE` of the size. -/
theorem lost_size :
    ¬ ∀ (cfg : Retry) (op : TxnOp) (db : Database) (n fuel : ℕ) (b : Bool)
      (s' : Session Database Change Unit), 0 ≤ cfg.wait → db.Valid → op.Sized →
      runTimed cfg engine () fuel op.prog (some n) (Session.idle db) = some (b, s') →
      Intact engine op.body db b s'.committed := by
  intro hall
  have h := hall ⟨0, 2⟩ (.append 1 [97]) storeWithFile 3 2 _ _ le_rfl valid_storeWithFile trivial rfl
  obtain ⟨-, hlost⟩ := eval_eq_ok_iff.mp (h.2 rfl)
  exact absurd (congrArg (fun db : Database => db.fileSize 1) hlost) (by decide)

end MyFS
