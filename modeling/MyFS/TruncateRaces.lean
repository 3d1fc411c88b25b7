import MyFS.ConcurrentAppends
import MyFS.Truncation
import MyFS.Sql.Stages

/-!
# Appending to a file that another mount truncates

`myfs_db_file_append` looks for the last block, and `myfs_db_file_truncate` for the size, before they
lock anything. With the update of the recorded size each of them locks the row of the file, so that
they write one after the other; but the second one goes on from what it has read before. Where a block
has been deleted since, an update of it matches no row and counts as success.

`oneAfterOther_of_reaches`: if what each of them has read is still good enough when it updates the
size, the file is left as if they had run one after the other.
-/

namespace MyFS

open Sql Database Program

variable {db db' : Database} {f n : ℕ} {c data : List Byte}

/-! ## One truncation -/

/-- What a truncation to `n` bytes leaves of a content. -/
def truncated (n : ℕ) (c : List Byte) : List Byte :=
  if n < c.length then cutAt c n else c ++ spaces (n - c.length)

/-- The file is canonical, and has the given content and its size. -/
structure HoldsContent (f : ℕ) (c : List Byte) (db : Database) : Prop where
  valid : db.Valid
  canonical : Canonical (db.blocks f)
  content : db.content f = c
  size : db.fileSize f = some c.length

theorem HoldsContent.advance {own : Database} (h : HoldsContent f c db) (hown : own.Valid) :
    HoldsContent f c (Database.advance db own) where
  valid := h.valid.advance hown
  canonical := by
    rw [blocks_advance]
    exact h.canonical
  content := by
    rw [← h.content, Database.content, Database.content, blocks_advance]
  size := h.size

/-- The loop of a truncation to a smaller size, which has been recorded. -/
theorem holdsContent_shrinkBlocks (hv : db.Valid) (hc : Canonical (db.blocks f))
    (hcontent : db.content f = c) (hs : db.fileSize f = some n) (hn : n < c.length)
    (h : (shrinkBlocks f shrinkFuel (c.length - n)).eval engine db = (.ok (), db')) :
    HoldsContent f (truncated n c) db' := by
  subst hcontent
  have hcut := content_shrinkBlocks hv hc (by omega) (Nat.sub_le _ _) h
  rw [Nat.sub_sub_self hn.le] at hcut
  have hlength : (cutAt (db.content f) n).length = n := by
    rw [cutAt, List.length_append, length_spaces, List.length_take,
      min_eq_left ((Nat.mul_div_le n _).trans hn.le), Nat.div_add_mod]
  obtain ⟨db₁, heval, hadd, hcanonical⟩ := shrinkBlocks_spec (f := f) shrinkFuel
    ((db.content f).length - n) hv (hv.length_blocks_lt f).le (Nat.sub_le _ _)
  obtain ⟨-, rfl⟩ := Prod.mk.inj (heval.symm.trans h)
  rw [truncated, if_pos hn]
  refine ⟨valid_of_eval hv h, hcanonical hc, hcut, ?_⟩
  rw [hadd.onlyData.fileSize, hs, hlength]

theorem HoldsContent.truncateBody (h : HoldsContent f c db)
    (heval : (truncateBody f n).eval engine db = (.ok (), db')) :
    HoldsContent f (truncated n c) db' := by
  obtain ⟨hv, hc, rfl, hs⟩ := h
  rcases Nat.lt_trichotomy n (db.content f).length with hlt | rfl | hgt
  · rw [eval_truncateBody_shrink hs (lt_of_le_content hv le_rfl) hlt] at heval
    refine holdsContent_shrinkBlocks (hv.resize f _) ?_ (by rw [content_resize]) ?_ hlt heval
    · rwa [blocks_resize]
    · rw [fileSize_resize, if_pos rfl, hs]
      rfl
  · rw [eval_truncateBody hs (lt_of_le_content hv le_rfl), if_pos rfl] at heval
    obtain ⟨-, rfl⟩ := Prod.mk.inj heval
    have hsame : truncated (db.content f).length (db.content f) = db.content f := by
      rw [truncated, if_neg (Nat.lt_irrefl _), Nat.sub_self, spaces, List.replicate_zero,
        List.append_nil]
    rw [hsame]
    exact ⟨hv, hc, rfl, hs⟩
  · obtain ⟨hcontent, hc', hsize, -, -, -⟩ := lengthened_truncateBody hv hc hs hgt heval
    refine ⟨valid_of_eval hv heval, hc', ?_, ?_⟩
    · rw [hcontent, truncated, if_neg (by omega)]
    · rw [hsize, truncated, if_neg (by omega), List.length_append, length_spaces,
        Nat.add_sub_cancel' hgt.le]

/-! ## What a truncation reads after its first change -/

/-- The blocks of a file are what its rows say. -/
theorem blocks_eq_of_rows (h : ∀ x r, r.fileId = f →
    (db.fileData.row x = some r ↔ db'.fileData.row x = some r)) : db.blocks f = db'.blocks f := by
  have hsorted : ∀ db : Database,
      (db.fileData.entries.filter fun e => e.2.fileId = f).Pairwise fun a b => a.1 < b.1 :=
    fun db => db.fileData.pairwise_entries.sublist List.filter_sublist
  have : Std.Irrefl fun a b : ℕ × BlockRow => a.1 < b.1 := ⟨fun a => lt_irrefl a.1⟩
  have : Std.Antisymm fun a b : ℕ × BlockRow => a.1 < b.1 :=
    ⟨fun a b hab hba => absurd hab hba.asymm⟩
  have hentries : db.fileData.entries.filter (fun e => e.2.fileId = f)
      = db'.fileData.entries.filter fun e => e.2.fileId = f := by
    refine (hsorted db).eq_of_mem_iff (hsorted db') fun e => ?_
    obtain ⟨x, r⟩ := e
    simp only [List.mem_filter, Table.mem_entries, decide_eq_true_eq]
    exact and_congr_left fun hr => h x r hr
  rw [blocks, blocks, hentries]

/-- What the transaction has read of the blocks is what it sees of them, as far as it has not changed
them. -/
def Agrees (f : ℕ) (t : Txn Database Key) : Prop :=
  ∃ old, t.snapshot = some old ∧ ∀ x r, r.fileId = f → Key.block x ∉ t.locked →
    (old.fileData.row x = some r ↔ t.own.fileData.row x = some r)

theorem Agrees.ask {t : Txn Database Key} {q : Query} (h : Agrees f t) (hq : q = .lastBlock f) :
    engine.ask q (Txn.reads versions t.own (some t)) = engine.ask q t.own := by
  obtain ⟨old, hold, hrows⟩ := h
  subst hq
  have hblocks : (merge t.locked old t.own).blocks f = t.own.blocks f := by
    refine blocks_eq_of_rows fun x r hr => ?_
    rw [row_fileData_merge]
    split
    · exact Iff.rfl
    · rename_i hx
      exact hrows x r hr hx
  show (Query.lastBlock f).ask (Txn.reads versions t.own (some t)) = (Query.lastBlock f).ask t.own
  rw [Txn.reads, hold, Option.getD_some]
  show (((merge t.locked old t.own).blocks f).getLast?).map Block.info = _
  rw [hblocks]
  rfl

theorem Agrees.change {t : Txn Database Key} {x : Change} (h : Agrees f t)
    (he : engine.exec x t.own = some db') : Agrees f (t.change versions x db') := by
  obtain ⟨old, hold, hrows⟩ := h
  refine ⟨old, hold, fun id r hr hid => ?_⟩
  have hid : Key.block id ∉ t.locked ++ x.locks t.own := hid
  rw [List.mem_append, not_or] at hid
  have htouch : Touches (x.locks t.own) t.own db' := touches_exec he
  show old.fileData.row id = some r ↔ db'.fileData.row id = some r
  rw [htouch.block id hid.2]
  exact hrows id r hr hid.1

section asks

variable {P : Query → Prop}

theorem asks_dbQuery (x : Change) : (dbQuery x).Asks P := ⟨nofun, fun _ => trivial⟩

theorem asks_dbSelect {q : Query} (hq : P q) : (dbSelect q).Asks P := by
  refine ⟨?_, fun _ => trivial⟩
  rintro q' ⟨⟩
  exact hq

theorem asks_of_blind {α : Type} {p : Prog (Except Failure α)} (hp : Blind .query p) : p.Asks P := by
  induction hp with
  | ret r => trivial
  | change x k hfail hk ih =>
    refine ⟨nofun, fun b => ?_⟩
    cases b with
    | false =>
      rw [hfail]
      trivial
    | true => exact ih

theorem asks_shrinkBlocks (f fuel left : ℕ) : (shrinkBlocks f fuel left).Asks (· = .lastBlock f) := by
  induction fuel generalizing left with
  | zero => trivial
  | succ fuel ih =>
    rw [shrinkBlocks]
    split
    · refine (asks_dbSelect (P := (· = .lastBlock f)) rfl).andThen fun last => ?_
      cases last with
      | none => trivial
      | some b =>
        dsimp only
        split
        · trivial
        · split
          · exact (asks_dbQuery _).andThen fun _ => ih _
          · exact (asks_dbQuery _).andThen fun _ => ih _
    · trivial

end asks

/-- The first change of a transaction, and how it goes on. -/
theorem dbQuery_andThen_inj {α : Type} {x y : Change} {k : Unit → Prog (Except Failure α)}
    {p : Bool → Prog (Except Failure α)} (h : (dbQuery x).andThen k = .call (.change y) p) :
    y = x ∧ p true = k () := by
  cases h
  exact ⟨rfl, rfl⟩

/-- A transaction that asks nothing more does what it would do alone. -/
theorem eval_blind_inside {α : Type} {p : Prog (Except Failure α)} (hp : Blind .query p)
    {t t' : Txn Database Key} {r : Except Failure α}
    (h : p.eval (inside engine versions) t = (r, t')) : p.eval engine t.own = (r, t'.own) := by
  have hasks : p.Asks fun _ => False := asks_of_blind hp
  rw [eval_inside (I := fun _ => True) (fun _ hq => hq.elim) (fun _ _ => trivial) hasks trivial, h]

/-! ## Appending with what has been read before -/

/-- What an append has read of the last block is still good enough: it is there, and it has not become
shorter, or all of the data go into it. -/
def AppendInformed (f : ℕ) (data : List Byte) (old db : Database) : Prop :=
  data = [] ∨ ∀ i ∈ (Query.lastBlock f).ask old, ∃ b ∈ db.blocks f, b.fileDataId = i.fileDataId ∧
    b.index = i.index ∧ (i.length ≤ b.data.length ∨ i.length + data.length ≤ myfsFileBlockSize)

instance instDecidableAppendInformed (f : ℕ) (data : List Byte) (old db : Database) :
    Decidable (AppendInformed f data old db) := by
  unfold AppendInformed
  infer_instance

theorem appendBlocks_nil {last : Option BlockInfo}
    (h : (appendBlocks f [] last).eval engine db = (.ok (), db')) : db' = db := by
  have hinsert : ∀ {db : Database} {index : ℕ},
      (insertBlocks f 0 index []).eval engine db = (.ok (), db') → db' = db :=
    fun h => (Prod.mk.inj h).2.symm
  cases last with
  | none => exact (Prod.mk.inj h).2.symm
  | some i =>
    rw [appendBlocks] at h
    split at h
    · split at h
      · obtain ⟨db₁, hcat, h⟩ := eval_dbQuery_andThen.mp h
        rw [List.take_nil, Change.exec] at hcat
        rw [List.drop_nil] at h
        rw [hinsert h]
        -- nothing is put behind the block, if it is there
        cases hr : db.fileData.row i.fileDataId with
        | none =>
          rw [updateBlock, hr] at hcat
          exact (Option.some.inj hcat).symm
        | some r =>
          obtain ⟨-, rfl⟩ := updateBlock_cases hr hcat
          rw [Table.modify_eq_self]
          intro r _
          rw [List.append_nil]
      · exact hinsert h
    · exact hinsert h

/-- How long the last block is does not matter if the data fit behind what it is taken for. -/
theorem appendBlocks_of_fits {i : BlockInfo} (hid : 0 < i.fileDataId) (hdata : data ≠ [])
    (hfits : i.length + data.length ≤ myfsFileBlockSize) :
    appendBlocks f data (some i) = (dbQuery (.concatBlock i.fileDataId data)).andThen fun _ =>
      insertBlocks f data.length ((i.index + 1) % uintRange) [] := by
  have hpos := List.length_pos_iff.mpr hdata
  have hmin : min data.length (myfsFileBlockSize - i.length) = data.length := by omega
  rw [appendBlocks, if_pos hid, if_pos (by omega)]
  dsimp only
  rw [hmin, List.take_length, List.drop_length]

/-- What an append leaves that has locked the file, whatever it has read before. -/
theorem holdsContent_appendBlocks {last : Option BlockInfo} {own : Database} (h : HoldsContent f c db)
    (hlast : data = [] ∨ ∀ i ∈ last, ∃ b ∈ db.blocks f, b.fileDataId = i.fileDataId ∧
      b.index = i.index ∧ (i.length ≤ b.data.length ∨ i.length + data.length ≤ myfsFileBlockSize))
    (he : (Change.addSize f data.length).exec db = some own)
    (heval : (appendBlocks f data last).eval engine own = (.ok (), db')) :
    HoldsContent f (c ++ data) db' := by
  obtain ⟨hv, hc, rfl, hs⟩ := h
  have happended : ∀ {last : Option BlockInfo}, Stale last (db.blocks f) →
      (appendBlocks f data last).eval engine own = (.ok (), db') →
        HoldsContent f (db.content f ++ data) db' := by
    intro last hstale heval
    obtain ⟨hv', hc', hcontent, hsize, -, -⟩ := appended_of_stale hv hc hstale he heval
    refine ⟨hv', hc', hcontent, ?_⟩
    rw [hsize, hs, List.length_append]
    rfl
  by_cases hdata : data = []
  · subst hdata
    have hsame : own = db := by
      rw [eq_resize_of_addSize he]
      exact resize_eq_self fun n _ => Nat.add_zero n
    rw [appendBlocks_nil heval, hsame, List.append_nil]
    exact ⟨hv, hc, rfl, hs⟩
  replace hlast := hlast.resolve_left hdata
  cases last with
  | none =>
    refine happended ?_ heval
    rintro i ⟨⟩
  | some i =>
    obtain ⟨b, hb, hid, hindex, hlength⟩ := hlast i rfl
    rcases le_or_gt i.length b.data.length with hle | hlt
    · refine happended ?_ heval
      rintro i' ⟨⟩
      exact ⟨b, hb, hid, hindex, hle⟩
    · -- it would do the same if it had read how long the block is now
      have hpos := hv.fileDataId_pos hb
      have hfits := hlength.resolve_left (Nat.not_le.mpr hlt)
      have hfits' : b.info.length + data.length ≤ myfsFileBlockSize := by
        show b.data.length + data.length ≤ myfsFileBlockSize
        omega
      have hitself : Stale (some b.info) (db.blocks f) := by
        rintro i' ⟨⟩
        exact ⟨b, hb, rfl, rfl, le_rfl⟩
      refine happended hitself ?_
      rw [appendBlocks_of_fits (hid ▸ hpos) hdata hfits, ← hid, ← hindex] at heval
      rw [appendBlocks_of_fits hpos hdata hfits']
      exact heval

theorem worksFrom_appendBody {old : Database} (h : HoldsContent f c db)
    (hinformed : AppendInformed f data old db) :
    WorksFrom engine versions (appendBody f data)
      (fun db' => HoldsContent f (c ++ data) db' ∧ Extends db db') old db := by
  intro x p own hqueries he shared a t' heval
  have hqueries : (dbQuery (.addSize f data.length)).andThen
      (fun _ => appendBlocks f data ((Query.lastBlock f).ask old)) = .call (.change x) p := hqueries
  obtain ⟨rfl, hp⟩ := dbQuery_andThen_inj hqueries
  rw [hp] at heval
  have heval := eval_blind_inside (blind_appendBlocks f data _) heval
  refine ⟨holdsContent_appendBlocks h hinformed he heval, ?_⟩
  have honly : (appendBlocks f data ((Query.lastBlock f).ask old)).Only Change.Appends :=
    only_appendBlocks (fun _ _ _ => trivial) (fun _ _ => trivial) data
  have hextends : Extends db own := by
    have happends : (Change.addSize f data.length).Appends := trivial
    exact happends.extends he
  have hdone := honly.eval (E := engine) (I := Extends db)
    (fun hc hd hexec => hd.trans (hc.extends hexec)) hextends
  rwa [heval] at hdone

/-! ## Truncating with what has been read before -/

/-- The blocks are the same, but for the data of the last one. -/
def SameButLast (bs bs' : List Block) : Prop :=
  bs'.dropLast = bs.dropLast ∧
    bs'.getLast?.map (fun b => (b.fileDataId, b.index)) = bs.getLast?.map fun b => (b.fileDataId, b.index)

/-- What a truncation has read of the blocks is still good enough. If it shortens the file, no block has
been added. If it makes it longer, the content is still the same, or what has been appended
since does not leave room for the spaces in the last block, so that they are refused. -/
def TruncateInformed (f n : ℕ) (data : List Byte) (old db : Database) : Prop :=
  if n < (old.content f).length then SameButLast (old.blocks f) (db.blocks f)
  else db.content f = old.content f ∨ ∀ i ∈ (Query.lastBlock f).ask old,
    myfsFileBlockSize < i.length + data.length + (n - (old.content f).length)

instance instDecidableTruncateInformed (f n : ℕ) (data : List Byte) (old db : Database) :
    Decidable (TruncateInformed f n data old db) := by
  unfold TruncateInformed SameButLast
  infer_instance

theorem SameButLast.exists_append {bs bs' : List Block} (h : SameButLast bs bs') (hne : bs ≠ []) :
    ∃ init b new, bs = init ++ [b] ∧ bs' = init ++ [{ b with data := new }] := by
  obtain ⟨init, b, hb⟩ := (List.eq_nil_or_concat bs).resolve_left hne
  rw [List.concat_eq_append] at hb
  obtain ⟨hinit, hlast⟩ := h
  rw [hb, List.getLast?_append_of_ne_nil _ (by simp), List.getLast?_singleton, Option.map_some] at hlast
  rcases List.eq_nil_or_concat bs' with rfl | ⟨init', b', rfl⟩
  · cases hlast
  · rw [List.concat_eq_append] at *
    rw [hb, List.dropLast_concat, List.dropLast_concat] at hinit
    rw [List.getLast?_append_of_ne_nil _ (by simp), List.getLast?_singleton, Option.map_some,
      Option.some.injEq, Prod.mk.injEq] at hlast
    obtain ⟨hid, hindex⟩ := hlast
    refine ⟨init, b, b'.data, hb, ?_⟩
    rw [hinit, ← hid, ← hindex]

theorem eval_dbQuery_andThen_inside {α : Type} {x : Change} {k : Unit → Prog (Except Failure α)} {a : α}
    {t t' : Txn Database Key} :
    ((dbQuery x).andThen k).eval (inside engine versions) t = (.ok a, t') ↔
      ∃ own, x.exec t.own = some own ∧
        (k ()).eval (inside engine versions) (t.change versions x own) = (.ok a, t') := by
  rw [dbQuery, Program.call_andThen, Program.eval_change_ok (inside engine versions) (e := .query) rfl]
  show (∃ t₁, (x.exec t.own).map (t.change versions x) = some t₁ ∧ _) ↔ _
  simp only [Option.map_eq_some_iff, exists_exists_and_eq_and]
  exact Iff.rfl

/-- Overwriting a block. -/
theorem setBlock_cases {id : ℕ} {d : List Byte} (h : (Change.setBlock id d).exec db = some db') :
    db' = { db with fileData := db.fileData.modify id fun r => { r with data := d } } := by
  rw [Change.exec] at h
  cases hr : db.fileData.row id with
  | none =>
    rw [updateBlock, hr] at h
    rw [Table.modify_eq_self fun r hr' => by rw [hr] at hr'; cases hr']
    exact (Option.some.inj h).symm
  | some r => exact (updateBlock_cases hr h).2

/-- What the data of a block were does not matter to a statement that overwrites them, or deletes it. -/
theorem exec_setBlock {id : ℕ} {d : List Byte} (h : (Change.setBlock id d).exec db = some db')
    {x : Change} (hx : x = .deleteBlock id ∨ ∃ new, x = .setBlock id new) :
    x.exec db' = x.exec db ∧ x.locks db' = x.locks db ∧ x.shares db' = x.shares db := by
  obtain rfl := setBlock_cases h
  have hrow : (db.fileData.modify id fun r => { r with data := d }).row id
      = (db.fileData.row id).map fun r => { r with data := d } := by
    rw [Table.row_modify, if_pos rfl]
  rcases hx with rfl | ⟨new, rfl⟩
  · refine ⟨?_, ?_, rfl⟩
    · simp only [Change.exec, Option.some.injEq, Database.mk.injEq, and_true, true_and]
      refine Table.ext (funext fun y => ?_) rfl
      rw [Table.row_keep, Table.row_keep, Table.row_modify]
      split
      · rename_i hy
        subst hy
        cases db.fileData.row y <;> simp
      · rfl
    · simp only [Change.locks, blockIndexKeys, hrow]
      cases db.fileData.row id <;> rfl
  · refine ⟨?_, ?_, rfl⟩
    · simp only [Change.exec, updateBlock, hrow]
      have hmodify : (db.fileData.modify id fun r => { r with data := d }).modify id
          (fun r => { r with data := new }) = db.fileData.modify id fun r => { r with data := new } := by
        refine Table.ext (funext fun y => ?_) rfl
        simp only [Table.row_modify]
        split
        · rw [Option.map_map]
          rfl
        · rfl
      cases hr : db.fileData.row id with
      | none =>
        have hsame : db.fileData.modify id (fun r => { r with data := d }) = db.fileData :=
          Table.modify_eq_self fun r hr' => by rw [hr] at hr'; cases hr'
        rw [hsame]
        rfl
      | some r =>
        dsimp only [Option.map_some]
        rw [hmodify]
    · simp only [Change.locks, blockKeys, hrow, Option.isSome_map]

/-- A transaction that has changed no block reads the blocks as it has read them before. -/
theorem ask_lastBlock_of_unlocked {t : Txn Database Key} {old : Database} (hold : t.snapshot = some old)
    (hunlocked : ∀ x, Key.block x ∉ t.locked) :
    (inside engine versions).ask (.lastBlock f) t = (Query.lastBlock f).ask old := by
  have hblocks : (merge t.locked old t.own).blocks f = old.blocks f := by
    refine blocks_eq_of_rows fun x r _ => ?_
    rw [row_fileData_merge, if_neg (hunlocked x)]
  show (Query.lastBlock f).ask (Txn.reads versions t.own (some t)) = _
  rw [Txn.reads, hold, Option.getD_some]
  show (((merge t.locked old t.own).blocks f).getLast?).map Block.info = _
  rw [hblocks]
  rfl

/-- The first round of the shrinking loop does not look at the data of the block that it takes for the
last one. -/
theorem eval_shrinkBlocks_inside {t t' : Txn Database Key} {old own : Database} {init : List Block}
    {b : Block} {fuel left : ℕ} (hold : t.snapshot = some old) (hunlocked : ∀ x, Key.block x ∉ t.locked)
    (hlast : old.blocks f = init ++ [b]) (hset : (Change.setBlock b.fileDataId b.data).exec t.own = some own)
    (hleft : 0 < left)
    (h : (shrinkBlocks f (fuel + 1) left).eval (inside engine versions) t = (.ok (), t')) :
    (shrinkBlocks f (fuel + 1) left).eval (inside engine versions) { t with own := own } = (.ok (), t') := by
  have hask : (Query.lastBlock f).ask old = some b.info := by
    rw [Query.ask, hlast, List.getLast?_append_of_ne_nil _ (by simp)]
    rfl
  have hround : ∀ {u : Txn Database Key} {k : Option BlockInfo → Prog (Except Failure Unit)},
      u.snapshot = some old → (∀ x, Key.block x ∉ u.locked) →
        ((dbSelect (.lastBlock f)).andThen k).eval (inside engine versions) u
          = (k (some b.info)).eval (inside engine versions) u := by
    intro u k hu hlocked
    rw [← hask, ← ask_lastBlock_of_unlocked hu hlocked]
    rfl
  have hchange : ∀ {x : Change} {k : Unit → Prog (Except Failure Unit)},
      (x = .deleteBlock b.fileDataId ∨ ∃ new, x = .setBlock b.fileDataId new) →
        ((dbQuery x).andThen k).eval (inside engine versions) t = (.ok (), t') →
          ((dbQuery x).andThen k).eval (inside engine versions) { t with own := own } = (.ok (), t') := by
    intro x k hx h
    obtain ⟨hexec, hlocks, hshares⟩ := exec_setBlock hset hx
    obtain ⟨own₁, he, h⟩ := eval_dbQuery_andThen_inside.mp h
    refine eval_dbQuery_andThen_inside.mpr ⟨own₁, hexec.trans he, ?_⟩
    have hsame : Txn.change versions x own₁ { t with own := own } = t.change versions x own₁ := by
      show Txn.mk t.snapshot own₁ (t.locked ++ x.locks own) (t.shared ++ x.shares own) = _
      rw [hlocks, hshares]
      rfl
    rwa [hsame]
  rw [shrinkBlocks, if_pos hleft] at h ⊢
  dsimp only at h ⊢
  rw [hround hold hunlocked] at h
  rw [hround (u := { t with own := own }) hold hunlocked]
  dsimp only at h ⊢
  split at h
  · cases h
  · rename_i hid
    rw [if_neg hid]
    split at h
    · rename_i hge
      rw [if_pos hge]
      exact hchange (.inl rfl) h
    · rename_i hlt
      rw [if_neg hlt]
      exact hchange (.inr ⟨_, rfl⟩) h

/-- What a truncation does after it has read the size. -/
theorem afterQueries_truncateBody {old : Database} (h : HoldsContent f c old) (n : ℕ) :
    (truncateBody f n).afterQueries engine old =
      if n = c.length then .ret (.ok ())
      else (dbQuery (.setSize f n)).andThen fun _ =>
        if c.length < n then (dbSelect (.lastBlock f)).andThen fun last => growBlocks f (n - c.length) last
        else shrinkBlocks f shrinkFuel (c.length - n) := by
  obtain ⟨hv, hc, rfl, hs⟩ := h
  have hask : engine.ask (.fileSize f) old = some (old.content f).length := hs
  have hqueries : (truncateBody f n).afterQueries engine old =
      (truncateFrom f n (currentSize (engine.ask (.fileSize f) old))).afterQueries engine old := rfl
  rw [hqueries, hask, currentSize, offT_of_lt (lt_of_le_content hv le_rfl), truncateFrom_eq]
  split
  · rfl
  · rfl

/-- A truncation to a smaller size that sees the blocks but for the data of the last one. -/
theorem holdsContent_shrinkBlocks_inside {old : Database} {t t' : Txn Database Key} {init : List Block}
    {b : Block} {new : List Byte} (hold : HoldsContent f c old) (hsnapshot : t.snapshot = some old)
    (hunlocked : ∀ x, Key.block x ∉ t.locked) (hv : t.own.Valid) (hs : t.own.fileSize f = some n)
    (hn : n < c.length) (hlast : old.blocks f = init ++ [b])
    (hown : t.own.blocks f = init ++ [{ b with data := new }])
    (h : (shrinkBlocks f shrinkFuel (c.length - n)).eval (inside engine versions) t = (.ok (), t')) :
    HoldsContent f (truncated n c) t'.own := by
  have hmem : b ∈ old.blocks f := by
    rw [hlast]
    exact List.mem_append_right _ (List.mem_singleton_self b)
  -- put the data back that the transaction has read
  obtain ⟨own', hset⟩ : ∃ own', (Change.setBlock b.fileDataId b.data).exec t.own = some own' := by
    have hrow := mem_blocks.mp (show ({ b with data := new } : Block) ∈ t.own.blocks f by
      rw [hown]
      exact List.mem_append_right _ (List.mem_singleton_self _))
    rw [Change.exec, updateBlock, hrow]
    dsimp only
    rw [if_pos (hold.valid.length_le hmem)]
    exact ⟨_, rfl⟩
  have hv' := hv.exec hset
  have hfuel : shrinkFuel = (uintRange - 1) + 1 := by decide
  rw [hfuel] at h
  have h := eval_shrinkBlocks_inside hsnapshot hunlocked hlast hset (by omega) h
  rw [← hfuel] at h
  rw [Change.exec] at hset
  obtain ⟨-, hblocks, honly⟩ := updateBlock_of_mem hown hset
  have hblocks : own'.blocks f = old.blocks f := by rw [hblocks, hlast]
  have hagrees : Agrees f { t with own := own' } := by
    refine ⟨old, hsnapshot, fun x r hr _ => ?_⟩
    show old.fileData.row x = some r ↔ own'.fileData.row x = some r
    subst hr
    have hmem : (⟨x, r.index, r.data⟩ : Block) ∈ old.blocks r.fileId ↔
        (⟨x, r.index, r.data⟩ : Block) ∈ own'.blocks r.fileId := by
      rw [hblocks]
    rw [mem_blocks, mem_blocks] at hmem
    exact hmem
  have heval := eval_inside (p := shrinkBlocks f shrinkFuel (c.length - n)) Agrees.ask Agrees.change
    (asks_shrinkBlocks f _ _) hagrees
  rw [h] at heval
  refine holdsContent_shrinkBlocks hv' ?_ ?_ ?_ hn heval
  · rw [hblocks]
    exact hold.canonical
  · rw [content, hblocks]
    exact hold.content
  · rw [honly.fileSize, hs]

/-- New blocks are refused where an index is taken. -/
theorem not_eval_insertBlocks {index : ℕ} {left : List Byte} {b : Block} (hb : b ∈ db.blocks f)
    (hindex : b.index = index) (hleft : left ≠ []) :
    (insertBlocks f left.length index left).eval engine db ≠ (.ok (), db') := by
  intro h
  obtain ⟨fuel, hfuel⟩ := Nat.exists_eq_succ_of_ne_zero (List.length_pos_iff.mpr hleft).ne'
  rw [hfuel, insertBlocks, if_pos (List.length_pos_iff.mpr hleft)] at h
  obtain ⟨db₁, hins, -⟩ := eval_dbQuery_andThen.mp h
  exact insertBlock_fresh hins b hb hindex

/-- What does not fit into the last block together with what has been put there since is refused. -/
theorem not_eval_appendBlocks {old : Database} {new : List Byte} (hv : db.Valid)
    (hc : Canonical (db.blocks f)) (hold : Canonical (old.blocks f))
    (hstale : Stale ((Query.lastBlock f).ask old) (db.blocks f))
    (hcontent : db.content f = old.content f ++ data) (hdata : data ≠ []) (hnew : new ≠ [])
    (hroom : ∀ i ∈ (Query.lastBlock f).ask old,
      myfsFileBlockSize < i.length + data.length + new.length) :
    (appendBlocks f new ((Query.lastBlock f).ask old)).eval engine db ≠ (.ok (), db') := by
  have hlength := congrArg List.length hcontent
  rw [List.length_append] at hlength
  have hdatapos := List.length_pos_iff.mpr hdata
  have hnewpos := List.length_pos_iff.mpr hnew
  -- with as many bytes as there are now, the index behind the last block that was read is taken
  have htaken : ∀ k, myfsFileBlockSize * k < (db.content f).length → ∃ b ∈ db.blocks f, b.index = k := by
    intro k hk
    have hle : (db.content f).length ≤ myfsFileBlockSize * (db.blocks f).length := by
      rw [content]
      refine (Chunks.length_flatten_le hc.chunked.length_le).trans ?_
      rw [List.length_map]
    have hlt : k < (db.blocks f).length := lt_of_mul_lt_mul_left' (hk.trans_le hle)
    have hmem : k ∈ (db.blocks f).map Block.index := by
      rw [hc.indices]
      exact List.mem_range.mpr hlt
    exact List.mem_map.mp hmem
  rcases List.eq_nil_or_concat (old.blocks f) with hnil | ⟨init, last, hlast⟩
  · have hask : (Query.lastBlock f).ask old = none := by
      rw [Query.ask, hnil]
      rfl
    rw [hask, appendBlocks]
    obtain ⟨b, hb, hindex⟩ := htaken 0 (by omega)
    exact not_eval_insertBlocks hb hindex hnew
  · rw [List.concat_eq_append] at hlast
    have hask : (Query.lastBlock f).ask old = some last.info := by
      rw [Query.ask, hlast, List.getLast?_append_of_ne_nil _ (by simp)]
      rfl
    rw [hask] at hstale hroom ⊢
    obtain ⟨b, hb, hid, hindex, hle⟩ := hstale _ rfl
    have hroom := hroom _ rfl
    have hbytes : (old.content f).length = myfsFileBlockSize * last.index + last.data.length := by
      rw [hlast, canonical_append_singleton] at hold
      rw [content, hlast, List.map_append, List.flatten_append, List.length_append,
        Chunks.length_flatten hold.1.2, List.length_map, hold.2.1, List.map_singleton,
        List.flatten_singleton]
    have hbound := (hold.chunked.length_le) last.data (by rw [hlast]; simp)
    intro h
    rw [appendBlocks, if_pos (hid ▸ hv.fileDataId_pos hb)] at h
    split at h
    · -- there is room in the block that was read
      rename_i hless
      obtain ⟨db₁, hcat, -⟩ := eval_dbQuery_andThen.mp h
      obtain ⟨pre, post, hsplit⟩ := mem_split hb
      rw [Change.exec, ← hid] at hcat
      obtain ⟨hfits, -, -⟩ := updateBlock_of_mem hsplit hcat
      rw [List.length_append, List.length_take] at hfits
      have hless : last.data.length < myfsFileBlockSize := hless
      have hinfo : last.info.length = last.data.length := rfl
      have hindex : b.index = last.index := hindex
      rw [hinfo] at hfits hroom
      have hnotFull : b.data.length < myfsFileBlockSize := by omega
      rw [hsplit] at hc
      have hpost := hc.eq_nil_of_lt hnotFull
      subst hpost
      have hpos := hc.index_eq
      rw [canonical_append_singleton] at hc
      have hbytes' : (db.content f).length = myfsFileBlockSize * b.index + b.data.length := by
        rw [content, hsplit, List.map_append, List.flatten_append, List.length_append,
          Chunks.length_flatten hc.1.2, List.length_map, hpos, List.map_singleton,
          List.flatten_singleton]
      rw [hindex] at hbytes'
      omega
    · rename_i hfull
      have hfull : ¬last.data.length < myfsFileBlockSize := hfull
      obtain ⟨b', hb', hindex'⟩ := htaken (last.index + 1) (by rw [Nat.mul_succ]; omega)
      refine not_eval_insertBlocks hb' ?_ hnew h
      have hlt := hv.index_lt hb'
      rw [hindex', Block.info, Nat.mod_eq_of_lt (by rwa [hindex'] at hlt)]

/-- A truncation to a larger size that has read the last block before. -/
theorem holdsContent_growBlocks {old own : Database} (hold : HoldsContent f (old.content f) old)
    (h : HoldsContent f c db) (hextends : Extends old db)
    (hcontent : c = old.content f ∨ c = old.content f ++ data) (hn : (old.content f).length < n)
    (hinformed : db.content f = old.content f ∨ ∀ i ∈ (Query.lastBlock f).ask old,
      myfsFileBlockSize < i.length + data.length + (n - (old.content f).length))
    (he : (Change.setSize f n).exec db = some own)
    (heval : (growBlocks f (n - (old.content f).length) ((Query.lastBlock f).ask old)).eval engine own
      = (.ok (), db')) :
    HoldsContent f (truncated n c) db' := by
  obtain ⟨hv, hc, rfl, hs⟩ := h
  rw [eq_resize_of_setSize he, growBlocks_eq (lastBlock_pos hold.valid f)] at heval
  have hv₁ := hv.resize f fun _ => n
  have hstale : Stale ((Query.lastBlock f).ask old) ((db.resize f fun _ => n).blocks f) := by
    rw [blocks_resize]
    exact hextends.stale (stale_lastBlock old f)
  have hc₁ : Canonical ((db.resize f fun _ => n).blocks f) := by rwa [blocks_resize]
  have hsame : db.content f = old.content f := by
    rcases hcontent with hsame | happended
    · exact hsame
    · by_contra hne
      have hdata : data ≠ [] := by
        rintro rfl
        rw [List.append_nil] at happended
        exact hne happended
      refine not_eval_appendBlocks hv₁ hc₁ hold.canonical hstale (by rwa [content_resize]) hdata ?_ ?_
        heval
      · rw [← List.length_pos_iff, length_spaces]
        omega
      · rw [length_spaces]
        exact hinformed.resolve_left hne
  obtain ⟨hcanonical, hgrown⟩ := appendBlocks_spec hv₁ hc₁ hstale heval
  have honly := (adds_appendBlocks hstale heval).onlyData
  rw [content_resize] at hgrown
  rw [truncated, if_neg (by rw [hsame]; omega)]
  refine ⟨valid_of_eval hv₁ heval, hcanonical, ?_, ?_⟩
  · rw [hgrown, hsame]
  · rw [honly.fileSize, fileSize_resize, if_pos rfl, hs, List.length_append, length_spaces, hsame,
      Nat.add_sub_cancel' hn.le]
    rfl

theorem worksFrom_truncateBody {old : Database} (hold : HoldsContent f (old.content f) old)
    (h : HoldsContent f c db) (hextends : Extends old db)
    (hcontent : c = old.content f ∨ c = old.content f ++ data)
    (hinformed : TruncateInformed f n data old db) :
    WorksFrom engine versions (truncateBody f n) (HoldsContent f (truncated n c)) old db := by
  intro x p own hqueries he shared a t' heval
  rw [afterQueries_truncateBody hold] at hqueries
  split at hqueries
  · cases hqueries
  rename_i hne
  obtain ⟨rfl, hp⟩ := dbQuery_andThen_inj hqueries
  have he : (Change.setSize f n).exec db = some own := he
  have hunlocked : ∀ y, Key.block y ∉ db.fileKeys f := by
    intro y
    rw [fileKeys]
    split
    · simp
    · exact List.not_mem_nil
  rw [hp] at heval
  split at heval
  · rename_i hgrows
    rw [TruncateInformed, if_neg (by omega)] at hinformed
    refine holdsContent_growBlocks hold h hextends hcontent hgrows hinformed he ?_
    have heval : (growBlocks f (n - (old.content f).length)
        ((inside engine versions).ask (.lastBlock f) ⟨some old, own, db.fileKeys f, shared⟩)).eval
          (inside engine versions) ⟨some old, own, db.fileKeys f, shared⟩ = (.ok a, t') := heval
    rw [ask_lastBlock_of_unlocked rfl hunlocked] at heval
    exact eval_blind_inside (blind_growBlocks f _ _) heval
  · have hshrinks : n < (old.content f).length := by omega
    rw [TruncateInformed, if_pos hshrinks] at hinformed
    have hne : old.blocks f ≠ [] := by
      intro hnil
      rw [content, hnil] at hshrinks
      exact Nat.not_lt_zero n hshrinks
    obtain ⟨init, b, new, hlast, hblocks⟩ := hinformed.exists_append hne
    have hsame : truncated n c = truncated n (old.content f) := by
      rcases hcontent with rfl | rfl
      · rfl
      · rw [truncated, truncated, if_pos hshrinks, cutAt_append_right hshrinks.le, if_pos]
        rw [List.length_append]
        omega
    rw [hsame]
    rw [eq_resize_of_setSize he] at heval
    have hsize : (db.resize f fun _ => n).fileSize f = some n := by
      rw [fileSize_resize, if_pos rfl, h.size]
      rfl
    have hown : (db.resize f fun _ => n).blocks f = init ++ [{ b with data := new }] := by
      rw [blocks_resize]
      exact hblocks
    exact holdsContent_shrinkBlocks_inside hold rfl hunlocked (h.valid.resize f fun _ => n) hsize
      hshrinks hlast hown heval

/-! ## One after the other -/

theorem HoldsContent.appendBody (h : HoldsContent f c db)
    (heval : (appendBody f data).eval engine db = (.ok (), db')) : HoldsContent f (c ++ data) db' := by
  rw [MyFS.appendBody, eval_dbSelect_andThen] at heval
  obtain ⟨own, he, heval⟩ := eval_dbQuery_andThen.mp heval
  refine holdsContent_appendBlocks h (.inr fun i hi => ?_) he heval
  obtain ⟨b, hb, hid, hindex, hle⟩ := stale_lastBlock db f i hi
  exact ⟨b, hb, hid, hindex, .inl hle⟩

/-- What one of the two calls leaves after the other, in one order or the other. -/
def OneAfterOther (f n : ℕ) (c data : List Byte) (db : Database) : Prop :=
  HoldsContent f (truncated n c ++ data) db ∨ HoldsContent f (truncated n (c ++ data)) db

theorem oneAfterOther_of_eval {db₁ db₂ : Database} (h : HoldsContent f c db)
    (hcalls : (truncateBody f n).eval engine db = (.ok (), db₁) ∧
        (appendBody f data).eval engine db₁ = (.ok (), db₂) ∨
      (appendBody f data).eval engine db = (.ok (), db₁) ∧
        (truncateBody f n).eval engine db₁ = (.ok (), db₂)) : OneAfterOther f n c data db₂ := by
  rcases hcalls with ⟨htruncate, happend⟩ | ⟨happend, htruncate⟩
  · exact .inl ((h.truncateBody htruncate).appendBody happend)
  · exact .inr ((h.appendBody happend).truncateBody htruncate)

/-! ## All interleavings -/

/-- What the two mounts do, inside a transaction: the first one appends, the second one truncates. -/
def appendOrTruncateBody (f n : ℕ) (data : List Byte) : Bool → Prog (Except Failure Unit)
  | false => appendBody f data
  | true => truncateBody f n

/-- What the two mounts call. -/
def appendOrTruncate (f n : ℕ) (data : List Byte) : Bool → Prog Bool
  | false => myfsDbFileAppend f data
  | true => myfsDbFileTruncate f n

theorem appendOrTruncate_eq (f n : ℕ) (data : List Byte) :
    appendOrTruncate f n data = fun i => transaction (appendOrTruncateBody f n data i) := by
  funext i
  cases i <;> rfl

/-- What each of them leaves of what it has locked. -/
def Leaves (f n : ℕ) (data : List Byte) (db : Database) : Bool → Database → Prop
  | false, db' => HoldsContent f (db.content f ++ data) db' ∧ Extends db db'
  | true, db' => HoldsContent f (truncated n (db.content f)) db'

/-- What each of them may have read: the truncation the newest state, or the one before the append. -/
def MayHaveRead (f : ℕ) (data : List Byte) (st : Mounts Bool Bool) : Bool → Database → Prop
  | false, _ => True
  | true, old => HoldsContent f (old.content f) old ∧ Extends old st.store ∧
      (st.store.content f = old.content f ∨
        false ∈ st.commits ∧ st.store.content f = old.content f ++ data)

/-- What each of them has read is good enough. -/
def InformedCall (f n : ℕ) (data : List Byte) (old db : Database) : Bool → Prop
  | false => AppendInformed f data old db
  | true => TruncateInformed f n data old db

instance instDecidableInformedCall (f n : ℕ) (data : List Byte) (old db : Database) :
    (i : Bool) → Decidable (InformedCall f n data old db i)
  | false => inferInstanceAs (Decidable (AppendInformed f data old db))
  | true => inferInstanceAs (Decidable (TruncateInformed f n data old db))

/-- If the next statement of a mount is its update of the size, what it has read before is good
enough. -/
def Informed (f n : ℕ) (data : List Byte) (st : Mounts Bool Bool) (i : Bool) (fail : Bool) : Prop :=
  fail = false → (st.nextChange i).isSome → ∀ t ∈ (st.client i).txn, t.locked = [] →
    ∀ old ∈ t.snapshot, InformedCall f n data old st.store i

instance instDecidableInformed (f n : ℕ) (data : List Byte) (st : Mounts Bool Bool) (i : Bool)
    (fail : Bool) : Decidable (Informed f n data st i fail) := by
  unfold Informed
  infer_instance

/-- What the file holds, by the calls that have been committed. -/
inductive Between (n : ℕ) (c data : List Byte) : List Bool → List Byte → Prop
  | nothing : Between n c data [] c
  | appended : Between n c data [false] (c ++ data)
  | truncated : Between n c data [true] (truncated n c)
  | both {commits : List Bool} {c' : List Byte} (hfalse : false ∈ commits) (htrue : true ∈ commits)
      (hc : c' = MyFS.truncated n c ++ data ∨ c' = MyFS.truncated n (c ++ data)) :
      Between n c data commits c'

section

variable {st : Mounts Bool Bool}

/-- The invariant of the two calls. -/
structure Racing (f n : ℕ) (c data : List Byte) (st : Mounts Bool Bool) : Prop where
  latched : st.Latched versions (.file f)
  holds : HoldsContent f (st.store.content f) st.store
  between : Between n c data st.commits (st.store.content f)
  stage : ∀ i, Stage engine versions (.file f) .query (appendOrTruncateBody f n data i) Database.Valid
    (MayHaveRead f data st i) (Leaves f n data st.store i) (i ∈ st.commits) (st.client i)

theorem body_appendOrTruncate (f n : ℕ) (data : List Byte) (i : Bool) :
    Body .query (appendOrTruncateBody f n data i) := by
  cases i with
  | false => exact body_appendBody f data
  | true => exact body_truncateBody f n

theorem reads_appendOrTruncate (f n : ℕ) (data : List Byte) (i : Bool) :
    ∃ q p, appendOrTruncateBody f n data i = .call (.query q) p := by
  cases i with
  | false => exact ⟨_, _, rfl⟩
  | true => exact ⟨_, _, rfl⟩

theorem racing_start (h : HoldsContent f c db) :
    Racing f n c data (Cluster.start db (appendOrTruncate f n data)) where
  latched := Cluster.latched_start ..
  holds := by
    show HoldsContent f (db.content f) db
    rw [h.content]
    exact h
  between := by
    show Between n c data [] (db.content f)
    rw [h.content]
    exact .nothing
  stage i := by
    rw [appendOrTruncate_eq]
    exact .before List.not_mem_nil

theorem Racing.locksFirst (h : Racing f n c data st) (i : Bool) :
    LocksFirst engine versions (.file f) (appendOrTruncateBody f n data i) (MayHaveRead f data st i)
      st.store := by
  obtain ⟨r, hr, -⟩ := Option.map_eq_some_iff.mp h.holds.size
  intro old x p s' hpast hqueries _
  cases i with
  | false =>
    have hqueries : (dbQuery (.addSize f data.length)).andThen
        (fun _ => appendBlocks f data ((Query.lastBlock f).ask old)) = .call (.change x) p := hqueries
    obtain ⟨rfl, -⟩ := dbQuery_andThen_inj hqueries
    exact mem_fileKeys hr
  | true =>
    have hqueries : (truncateBody f n).afterQueries engine old = .call (.change x) p := hqueries
    rw [afterQueries_truncateBody hpast.1] at hqueries
    split at hqueries
    · cases hqueries
    · obtain ⟨rfl, -⟩ := dbQuery_andThen_inj hqueries
      exact mem_fileKeys hr

theorem Racing.worksFrom (h : Racing f n c data st) {i : Bool} {old : Database}
    (hpast : MayHaveRead f data st i old) (hinformed : InformedCall f n data old st.store i) :
    WorksFrom engine versions (appendOrTruncateBody f n data i) (Leaves f n data st.store i) old st.store := by
  cases i with
  | false => exact worksFrom_appendBody h.holds hinformed
  | true =>
    obtain ⟨hold, hextends, hcontent⟩ := hpast
    exact worksFrom_truncateBody hold h.holds hextends (hcontent.imp_right And.right) hinformed

/-- A call that has been committed leaves what is expected after it. -/
theorem Racing.committed (h : Racing f n c data st) {i : Bool} {db' : Database}
    (hnew : i ∉ st.commits)
    (heffect : StageEffect engine versions (appendOrTruncateBody f n data i) Database.Valid
      (MayHaveRead f data st i) (Leaves f n data st.store i) st.store db' true) :
    HoldsContent f (db'.content f) db' ∧ Between n c data (st.commits ++ [i]) (db'.content f) ∧
      (i = false → db'.content f = st.store.content f ++ data ∧ Extends st.store db') := by
  have hself : ∀ {c' : List Byte} {db : Database}, HoldsContent f c' db →
      HoldsContent f (db.content f) db := by
    intro c' db h
    rwa [h.content]
  have hbetween := h.between
  cases i with
  | false =>
    obtain ⟨hdone, hextends⟩ | ⟨-, old, a, -, hnothing⟩ := heffect
    · refine ⟨hself hdone, ?_, fun _ => ⟨hdone.content, hextends⟩⟩
      rw [hdone.content]
      generalize st.commits = commits, st.store.content f = c' at hnew hbetween ⊢
      cases hbetween with
      | nothing => exact .appended
      | appended => exact absurd List.mem_cons_self hnew
      | truncated => exact .both (by simp) (by simp) (.inl rfl)
      | both hfalse => exact absurd hfalse hnew
    · cases hnothing
  | true =>
    obtain hdone | ⟨hsame, old, a, ⟨hold, -, hcontent⟩, hnothing⟩ := heffect
    · have hdone : HoldsContent f (truncated n (st.store.content f)) db' := hdone
      refine ⟨hself hdone, ?_, nofun⟩
      rw [hdone.content]
      generalize st.commits = commits, st.store.content f = c' at hnew hbetween ⊢
      cases hbetween with
      | nothing => exact .truncated
      | appended => exact .both (by simp) (by simp) (.inr rfl)
      | truncated => exact absurd List.mem_cons_self hnew
      | both _ htrue => exact absurd htrue hnew
    · -- the size that was read is the right one
      subst hsame
      refine ⟨h.holds, ?_, nofun⟩
      have hsize : n = (old.content f).length := by
        have hnothing : (truncateBody f n).afterQueries engine old = .ret (.ok a) := hnothing
        rw [afterQueries_truncateBody hold] at hnothing
        by_contra hne
        rw [if_neg hne] at hnothing
        cases hnothing
      have htruncated : truncated n (old.content f) = old.content f := by
        rw [truncated, if_neg (by omega), hsize, Nat.sub_self, spaces, List.replicate_zero,
          List.append_nil]
      generalize st.commits = commits, st.store.content f = c' at hnew hbetween hcontent ⊢
      cases hbetween with
      | nothing =>
        obtain hcontent | ⟨hmem, -⟩ := hcontent
        · have hafter : Between n c data [true] (truncated n c) := .truncated
          rwa [hcontent, htruncated, ← hcontent] at hafter
        · cases hmem
      | appended =>
        refine .both (by simp) (by simp) ?_
        obtain hcontent | ⟨-, hcontent⟩ := hcontent
        · right
          rw [hcontent, htruncated]
        · left
          rw [List.append_cancel_right_eq] at hcontent
          rw [hcontent, htruncated]
      | truncated => exact absurd List.mem_cons_self hnew
      | both _ htrue => exact absurd htrue hnew

/-- What may have been read does not depend on the keys that are generated. -/
theorem Racing.advance {st' : Mounts Bool Bool} {own : Database} {j : Bool}
    (hstore : st'.store = st.store ∨ st'.store = Database.advance st.store own)
    (hcommits : st'.commits = st.commits) :
    (∀ old, MayHaveRead f data st j old → MayHaveRead f data st' j old) ∧
      ∀ db, Leaves f n data st.store j db → Leaves f n data st'.store j db := by
  have hcontent : st'.store.content f = st.store.content f := by
    rcases hstore with hsame | hsame
    · rw [hsame]
    · rw [hsame, Database.content, blocks_advance, Database.content]
  have hrows : ∀ x, st'.store.fileData.row x = st.store.fileData.row x := by
    rcases hstore with hsame | hsame
    · rw [hsame]
      exact fun _ => rfl
    · rw [hsame]
      exact fun _ => rfl
  have hextends : Extends st.store st'.store := fun x r hr => ⟨r, (hrows x).trans hr, rfl, rfl, le_rfl⟩
  have hextends' : Extends st'.store st.store :=
    fun x r hr => ⟨r, (hrows x).symm.trans hr, rfl, rfl, le_rfl⟩
  constructor
  · intro old hold
    cases j with
    | false => trivial
    | true =>
      obtain ⟨hholds, hext, hsame⟩ := hold
      refine ⟨hholds, hext.trans hextends, ?_⟩
      rwa [hcontent, hcommits]
  · intro db hleaves
    cases j with
    | false =>
      obtain ⟨hholds, hext⟩ := hleaves
      refine ⟨?_, hextends'.trans hext⟩
      rwa [hcontent]
    | true =>
      show HoldsContent f (truncated n (st'.store.content f)) db
      rw [hcontent]
      exact hleaves

/-- What the other mount has read before an append is committed. -/
theorem Racing.readBefore {st' : Mounts Bool Bool} {i j : Bool} (hj : j ≠ i) (hnew : i ∉ st.commits)
    (hi : i ∈ st'.commits)
    (happended : i = false → st'.store.content f = st.store.content f ++ data ∧
      Extends st.store st'.store) {old : Database} (h : MayHaveRead f data st j old) :
    MayHaveRead f data st' j old := by
  cases j with
  | false => trivial
  | true =>
    obtain rfl : i = false := eq_false_of_ne_true hj.symm
    obtain ⟨hholds, hextends, hcontent⟩ := h
    obtain ⟨hcontent', hextends'⟩ := happended rfl
    have hsame := hcontent.resolve_right fun hafter => hnew hafter.1
    exact ⟨hholds, hextends.trans hextends', .inr ⟨hi, by rw [hcontent', hsame]⟩⟩

/-- A step of one of the two mounts keeps the invariant, if what it has read is good enough. -/
theorem Racing.step (h : Racing f n c data st) {i : Bool} {fail : Bool}
    (hok : CommitSucceeds st i fail ∧ Informed f n data st i fail) :
    Racing f n c data (st.step engine versions i fail) := by
  have hstage := h.stage i
  have hfirst := reads_appendOrTruncate f n data i
  obtain ⟨hlatched, heq | ⟨⟨c', now, hturn, hclient, hcommits⟩, halone⟩⟩ :=
    h.latched.step lawful_versions (hstage.ready hfirst (h.locksFirst i)) fail
  · rwa [heq]
  have hself : MayHaveRead f data st i st.store := by
    cases i with
    | false => trivial
    | true => exact ⟨h.holds, .refl _, .inl rfl⟩
  obtain ⟨hnext, hnew, heffect⟩ := hstage.turn hfirst (body_appendOrTruncate f n data i) Valid.exec
    lawful_versions h.holds.valid hself
    (fun hfail t old ht hlocked hold hpast ⟨x, p, hprog⟩ => h.worksFrom hpast
      (hok.2 hfail (by rw [Cluster.nextChange, hprog]; rfl) t ht hlocked old hold)) hok.1 hturn
  generalize st.step engine versions i fail = st' at *
  have hmem : ∀ j, j ∈ st'.commits ↔ j ∈ st.commits ∨ j = i ∧ now = true := by
    intro j
    rw [hcommits]
    cases now <;> simp
  cases now with
  | false =>
    have hcommits : st'.commits = st.commits := hcommits
    obtain ⟨own, hown, hstore⟩ : ∃ own : Database, own.Valid ∧
        (st'.store = st.store ∨ st'.store = Database.advance st.store own) := by
      obtain hsame | ⟨own, hown, hsame⟩ := heffect
      · exact ⟨st.store, h.holds.valid, .inl hsame⟩
      · exact ⟨own, hown, .inr hsame⟩
    have hholds : HoldsContent f (st.store.content f) st'.store := by
      rcases hstore with hsame | hsame
      · rw [hsame]
        exact h.holds
      · rw [hsame]
        exact h.holds.advance hown
    have hadvance (j : Bool) := @Racing.advance f n data st st' own j hstore hcommits
    refine ⟨hlatched, ?_, ?_, fun j => ?_⟩
    · rw [hholds.content]
      exact hholds
    · rw [hcommits, hholds.content]
      exact h.between
    · obtain ⟨hpast, hgoal⟩ := hadvance j
      rw [hmem, hclient]
      by_cases hj : j = i
      · subst hj
        rw [Function.update_self, eq_self, true_and]
        exact hnext.mono hpast (.inr hgoal)
      · rw [Function.update_of_ne hj, or_iff_left fun hji => hj hji.1]
        exact (h.stage j).mono hpast (.inr hgoal)
  | true =>
    have hcommits : st'.commits = st.commits ++ [i] := hcommits
    obtain ⟨hholds, hbetween, happended⟩ := h.committed (hnew rfl) heffect
    refine ⟨hlatched, hholds, by rwa [hcommits], fun j => ?_⟩
    rw [hmem, hclient]
    by_cases hj : j = i
    · subst hj
      rw [Function.update_self, eq_self, true_and]
      exact hnext.of_committed (.inr rfl)
    · rw [Function.update_of_ne hj, or_iff_left fun hji => hj hji.1]
      have hi : i ∈ st'.commits := (hmem i).mpr (.inr ⟨rfl, rfl⟩)
      refine (h.stage j).mono (fun old hold => Racing.readBefore hj (hnew rfl) hi happended hold) ?_
      rcases halone with hsame | hothers
      · right
        intro db hleaves
        rwa [hsame]
      · exact .inl fun t ht => hothers j t hj ht

/-- When an append and a truncation of the same file from two mounts have both returned true, the file
is as if one of them had run after the other, whatever the order of their statements and whichever of
these fail but `COMMIT`, if what each of them has read is good enough when it locks the file. -/
theorem oneAfterOther_of_reaches (h : HoldsContent f c db)
    (hreach : Mounts.Reaches (fun st i fail => CommitSucceeds st i fail ∧ Informed f n data st i fail)
      db (appendOrTruncate f n data) st)
    (hdone : ∀ i, (st.client i).prog = .ret true) : OneAfterOther f n c data st.store := by
  have hracing : Racing f n c data st :=
    hreach.invariant (racing_start h) fun hracing hok => hracing.step hok
  have hmem : ∀ i, i ∈ st.commits := fun i =>
    ((hracing.stage i).prog_eq_iff (reads_appendOrTruncate f n data i)).mp (hdone i)
  have hbetween := hracing.between
  have hholds := hracing.holds
  have hfalse := hmem false
  have htrue := hmem true
  generalize st.commits = commits, st.store.content f = c' at hbetween hholds hfalse htrue
  cases hbetween with
  | nothing => cases hfalse
  | appended => simp at htrue
  | truncated => simp at hfalse
  | both _ _ hc' =>
    rcases hc' with rfl | rfl
    · exact .inl hholds
    · exact .inr hholds

end

/-- The append finds the block with the byte before the other mount makes the file longer, and appends
to it afterwards. -/
def grownBeforeAppend : Mounts Bool Bool :=
  Mounts.follow [false, false, true, true, true, true, true, true, false, false, false]
    (Cluster.start oneByte (appendOrTruncate 1 3 [98]))

theorem holdsContent_oneByte : HoldsContent 1 [97] oneByte where
  valid := reachable_oneByte.valid
  canonical := (canonical_of_reachable reachable_oneByte (f := 1) (s := 1) (by decide)).1
  content := by decide
  size := by decide

theorem oneAfterOther_grownBeforeAppend :
    OneAfterOther 1 3 [97] [98] grownBeforeAppend.store ∧
      grownBeforeAppend.store.content 1 = [97, 32, 32, 98] := by
  refine ⟨oneAfterOther_of_reaches holdsContent_oneByte ?_ ?_, by decide +kernel⟩
  · refine Cluster.Reaches.start.follow (Cluster.Along.and (along_commitSucceeds _ _) ?_)
    decide +kernel
  · intro i
    rw [← Program.result_eq_some]
    cases i
    · decide +kernel
    · decide +kernel

/-- An append that has read the block before the other mount deletes it puts its byte nowhere. -/
example :
    let st := Mounts.follow [false, false, true, true, true, true, true, true, false, false, false]
      (Cluster.start oneByte (appendOrTruncate 1 0 [98]))
    (∀ i, (st.client i).prog.result = some true) ∧ st.store.fileSize 1 = some 1 ∧
      st.store.blocks 1 = [] := by
  decide +kernel

end MyFS
