import MyFS.Appending
import MyFS.Changes
import MyFS.Extending
import MyFS.Mounts
import MyFS.Sql.Latch

/-!
# Appending from several mounts

`myfs_db_file_append` looks for the last block of a file before it locks anything, so that what it
knows may be out of date. The update of the size locks the row of the file: from then on it is
alone. The block that it has found has at most become longer by then, and if it is not the last one
any more, it is full. What does not go behind the newest content is refused by the length of
`data`, or by the key `(file_id,index)`: `serialised`.
-/

namespace MyFS

open Sql Database

variable {db db' db'' : Database} {f : ℕ} {data : List Byte}

/-! ## What an append does to the rows -/

/-- The blocks have at most become longer, and some have been added. -/
def Extends (db db' : Database) : Prop :=
  ∀ id r, db.fileData.row id = some r → ∃ r', db'.fileData.row id = some r' ∧
    r'.fileId = r.fileId ∧ r'.index = r.index ∧ r.data.length ≤ r'.data.length

theorem Extends.refl (db : Database) : Extends db db := fun _ r hr => ⟨r, hr, rfl, rfl, le_rfl⟩

theorem Extends.trans (h : Extends db db') (h' : Extends db' db'') : Extends db db'' := by
  intro id r hr
  obtain ⟨r', hr', hfile, hindex, hle⟩ := h id r hr
  obtain ⟨r'', hr'', hfile', hindex', hle'⟩ := h' id r' hr'
  exact ⟨r'', hr'', hfile'.trans hfile, hindex'.trans hindex, hle.trans hle'⟩

/-- What is known of the last block stays true, if it may be out of date. -/
theorem Extends.stale (h : Extends db db') {last : Option BlockInfo}
    (hstale : Stale last (db.blocks f)) : Stale last (db'.blocks f) := by
  intro i hi
  obtain ⟨b, hb, hid, hindex, hle⟩ := hstale i hi
  obtain ⟨r, hr, hfile, hindex', hle'⟩ := h _ _ (mem_blocks.mp hb)
  obtain rfl : r.fileId = f := hfile
  exact ⟨⟨b.fileDataId, r.index, r.data⟩, mem_blocks.mpr hr, hid, hindex'.trans hindex,
    hle.trans hle'⟩

/-- The changes that an append makes. -/
def Change.Appends : Change → Prop
  | .addSize .. | .concatBlock .. | .insertBlock .. => True
  | _ => False

theorem Change.Appends.extends {c : Change} (hc : c.Appends) (he : c.exec db = some db') :
    Extends db db' := by
  cases c with
  | addSize id n =>
    rw [eq_resize_of_addSize he]
    exact .refl db
  | concatBlock id new =>
    rw [Change.exec] at he
    intro x r hr
    cases hid : db.fileData.row id with
    | none =>
      rw [updateBlock, hid] at he
      cases he
      exact ⟨r, hr, rfl, rfl, le_rfl⟩
    | some b =>
      obtain ⟨-, rfl⟩ := updateBlock_cases hid he
      by_cases hx : x = id
      · refine ⟨{ r with data := r.data ++ new }, ?_, rfl, rfl, ?_⟩
        · rw [Table.row_modify, if_pos hx, hr, Option.map_some]
        · rw [List.length_append]
          exact Nat.le_add_right _ _
      · exact ⟨r, by rw [Table.row_modify, if_neg hx, hr], rfl, rfl, le_rfl⟩
  | insertBlock f' i d =>
    obtain ⟨-, -, rfl⟩ := insertBlock_cases he
    intro x r hr
    exact ⟨r, by rw [Table.row_insert, if_neg (Table.lt_next hr).ne, hr], rfl, rfl, le_rfl⟩
  | insertFile | deleteFile | setSize | setParent | setParentName | setTimes | setOwner | setMode
  | spliceBlock | setBlock | deleteBlock => exact hc.elim

/-- What a completed append leaves of a file: the data stand behind the content, the file is
canonical, and other files are as they were. -/
structure Appended (f : ℕ) (data : List Byte) (db db' : Database) : Prop where
  valid : db'.Valid
  canonical : Canonical (db'.blocks f)
  content : db'.content f = db.content f ++ data
  size : db'.fileSize f = (db.fileSize f).map (· + data.length)
  files : ∀ f' ≠ f, db'.files.row f' = db.files.row f'
  blocks : ∀ f' ≠ f, db'.blocks f' = db.blocks f'

/-- What a completed append does from the newest state of the file on, whatever it knows of the last
block. -/
theorem appended_of_stale {last : Option BlockInfo} (hv : db.Valid) (hc : Canonical (db.blocks f))
    (hstale : Stale last (db.blocks f)) (he : (Change.addSize f data.length).exec db = some db')
    (h : (appendBlocks f data last).eval engine db' = (.ok (), db'')) : Appended f data db db'' := by
  obtain rfl := eq_resize_of_addSize he
  have hblocks : (db.resize f (· + data.length)).blocks f = db.blocks f := by rw [blocks_resize]
  rw [← hblocks] at hc hstale
  obtain ⟨hcanonical, hcontent⟩ := appendBlocks_spec (hv.resize f _) hc hstale h
  have honly := (adds_appendBlocks hstale h).onlyData
  refine ⟨valid_of_eval (hv.resize f _) h, hcanonical, ?_, ?_, ?_, ?_⟩
  · rw [hcontent, content_resize]
  · rw [honly.fileSize, fileSize_resize, if_pos rfl]
  · intro f' hf
    rw [honly.files, resize, Table.row_modify, if_neg hf]
  · intro f' hf
    rw [honly.blocks f' hf, blocks_resize]

/-! ## The phases of an append -/

/-- How far a mount is with its append, and what the newest committed state has to do with it. -/
inductive Appending (f : ℕ) (data : List Byte) (store : Database) (committed : Prop) :
    Client Query Query.Answer Change Database Key Bool → Prop
  | before {n : ℕ} (hc : ¬committed) :
      Appending f data store committed ⟨myfsDbFileAppend f data, none, n⟩
  | reading {t : Txn Database Key} {n : ℕ} (hc : ¬committed) (hlocked : t.locked = [])
      (hsnapshot : t.snapshot = none) :
      Appending f data store committed ⟨finish (appendBody f data), some t, n⟩
  /-- It knows the last block, perhaps as it was before. -/
  | sizing {t : Txn Database Key} {n : ℕ} {last : Option BlockInfo} (hc : ¬committed)
      (hlocked : t.locked = []) (hstale : Stale last (store.blocks f)) :
      Appending f data store committed
        ⟨finish ((dbQuery (.addSize f data.length)).andThen fun _ => appendBlocks f data last),
          some t, n⟩
  /-- It has locked the row of the file, and is alone with it. -/
  | writing {t : Txn Database Key} {n : ℕ} {p : Prog (Except Failure Unit)} (hc : ¬committed)
      (hlocked : .file f ∈ t.locked) (hblind : Blind .query p) (honly : p.Only Change.Appends)
      (hextends : Extends store t.own) (hvalid : t.own.Valid)
      (hdone : ∀ db', p.eval engine t.own = (.ok (), db') → Appended f data store db') :
      Appending f data store committed ⟨finish p, some t, n⟩
  | failing {t : Txn Database Key} {n : ℕ} (hc : ¬committed) (e : Failure) :
      Appending f data store committed
        ⟨finish (.ret (.error e) : Prog (Except Failure Unit)), some t, n⟩
  | returned {txn : Option (Txn Database Key)} {n : ℕ} {b : Bool} (hc : b = true ↔ committed) :
      Appending f data store committed ⟨.ret b, txn, n⟩

section

variable {store store' : Database} {committed : Prop}
  {c : Client Query Query.Answer Change Database Key Bool}

/-- Every statement has its place. -/
theorem Appending.ready (h : Appending f data store committed c)
    (hfile : (store.fileSize f).isSome) : c.Ready engine versions (.file f) store := by
  cases h with
  | before => rfl
  | reading => exact Option.some_ne_none _
  | sizing =>
    refine ⟨_, rfl, fun _ s' _ => ?_⟩
    show Key.file f ∈ store.fileKeys f
    rw [fileSize, Option.isSome_map] at hfile
    rw [fileKeys, if_pos hfile]
    exact List.mem_singleton_self _
  | writing hc hlocked hblind =>
    cases hblind with
    | ret r =>
      cases r with
      | error e => exact Option.some_ne_none _
      | ok a => exact Option.some_ne_none _
    | change c k =>
      refine ⟨_, rfl, fun hnil => ?_⟩
      rw [hnil] at hlocked
      cases hlocked
  | failing => exact Option.some_ne_none _
  | returned => trivial

/-- A mount that has locked nothing does not notice that others have appended. -/
theorem Appending.of_extends (h : Appending f data store committed c)
    (hunlocked : ∀ t, c.txn = some t → t.locked = []) (hextends : Extends store store') :
    Appending f data store' committed c := by
  cases h with
  | before hc => exact .before hc
  | reading hc hlocked hsnapshot => exact .reading hc hlocked hsnapshot
  | sizing hc hlocked hstale => exact .sizing hc hlocked (hextends.stale hstale)
  | writing hc hlocked =>
    rw [hunlocked _ rfl] at hlocked
    cases hlocked
  | failing hc e => exact .failing hc e
  | returned hc => exact .returned hc

theorem Appended.advance {own : Database} (h : Appended f data store db') :
    Appended f data (Database.advance store own) db' where
  valid := h.valid
  canonical := h.canonical
  content := by rw [h.content, Database.content, Database.content, blocks_advance]
  size := h.size
  files := h.files
  blocks f' hf := by rw [h.blocks f' hf, blocks_advance]

theorem Appended.refl (hv : store.Valid) (hc : Canonical (store.blocks f)) :
    Appended f [] store store where
  valid := hv
  canonical := hc
  content := (List.append_nil _).symm
  size := by cases store.fileSize f <;> rfl
  files _ _ := rfl
  blocks _ _ := rfl

theorem Appended.trans {new : List Byte} (h : Appended f data db store)
    (h' : Appended f new store store') : Appended f (data ++ new) db store' where
  valid := h'.valid
  canonical := h'.canonical
  content := by rw [h'.content, h.content, List.append_assoc]
  size := by
    rw [h'.size, h.size, Option.map_map]
    congr 1
    funext n
    rw [Function.comp_apply, List.length_append, Nat.add_assoc]
  files f' hf := (h'.files f' hf).trans (h.files f' hf)
  blocks f' hf := (h'.blocks f' hf).trans (h.blocks f' hf)

theorem Appended.generated {own : Database} (h : Appended f data db store) (hown : own.Valid) :
    Appended f data db (Database.advance store own) where
  valid := h.valid.advance hown
  canonical := by
    rw [blocks_advance]
    exact h.canonical
  content := by
    rw [← h.content, Database.content, Database.content, blocks_advance]
  size := h.size
  files := h.files
  blocks f' hf := by rw [blocks_advance, h.blocks f' hf]

/-- A mount that has committed has returned true, and only such a one. -/
theorem Appending.prog_eq_iff (h : Appending f data store committed c) :
    c.prog = .ret true ↔ committed := by
  have hcall : ∀ {r : Request Query Change} {k : Reply Query.Answer r → Prog Bool},
      Program.call r k ≠ .ret true := by
    intro r k hprog
    cases hprog
  cases h with
  | before hc | reading hc | sizing hc | failing hc => exact iff_of_false hcall hc
  | writing hc hlocked hblind =>
    refine iff_of_false ?_ hc
    cases hblind with
    | ret r => cases r <;> exact hcall
    | change => exact hcall
  | @returned txn n b hc =>
    rw [← hc]
    constructor
    · intro heq
      exact Program.ret.inj heq
    · rintro rfl
      rfl

/-- What a turn of a mount does to what is committed: nothing but that keys have been generated, or
its append is done. -/
def AppendEffect (f : ℕ) (data : List Byte) (store store' : Database) (committed : Bool) : Prop :=
  if committed then Appended f data store store' ∧ Extends store store'
  else store' = store ∨ ∃ own : Database, own.Valid ∧ store' = Database.advance store own

/-- A turn takes a mount from one phase to the next. -/
theorem Appending.turn {fail now : Bool} {c' : Client Query Query.Answer Change Database Key Bool}
    (hv : store.Valid) (hc : Canonical (store.blocks f)) (h : Appending f data store committed c)
    (hcommit : ∀ k, c.prog = .call .commit k → fail = false)
    (hturn : ClientStep engine versions (.file f) fail store c store' c' now) :
    Appending f data store' (committed ∨ now = true) c' ∧ (now = true → ¬committed) ∧
      AppendEffect f data store store' now := by
  have hstill : ¬committed → ¬(committed ∨ false = true) := by simp
  cases h with
  | before hnot =>
    obtain ⟨rfl, rfl, rfl | rfl⟩ := ClientStep.of_start hturn
    · exact ⟨.returned (iff_of_false Bool.false_ne_true (hstill hnot)), nofun, .inl rfl⟩
    · exact ⟨.reading (hstill hnot) rfl rfl, nofun, .inl rfl⟩
  | @reading t n hnot hlocked hsnapshot =>
    obtain ⟨rfl, rfl, rfl | ⟨_, ht, rfl⟩⟩ := ClientStep.of_query hturn
    · exact ⟨.failing (hstill hnot) .query, nofun, .inl rfl⟩
    · obtain rfl := Option.some.inj ht
      refine ⟨.sizing (hstill hnot) hlocked ?_, nofun, .inl rfl⟩
      -- the first query of a transaction reads what is committed
      have hreads : Txn.reads versions store' (some t) = store' := by
        rw [Txn.reads, hlocked, hsnapshot, lawful_versions.merge_nil, Option.getD_none]
      rw [hreads]
      exact stale_lastBlock store' f
  | sizing hnot hlocked hstale =>
    obtain ⟨rfl, ⟨rfl, rfl⟩ | ⟨t, own, ht, rfl, ⟨-, -, hexec, hk, rfl⟩ | ⟨hk, -⟩⟩⟩ :=
      ClientStep.of_change hturn
    · exact ⟨.failing (hstill hnot) .query, nofun, .inl rfl⟩
    · have hexec : (Change.addSize f data.length).exec store = some own := hexec
      have hown := hv.exec hexec
      refine ⟨.writing (hstill hnot) hk (blind_appendBlocks f data _) ?_ ?_ hown ?_, nofun,
        .inr ⟨own, hown, rfl⟩⟩
      · exact only_appendBlocks (fun _ _ _ => trivial) (fun _ _ => trivial) data
      · show Extends store own
        have happends : (Change.addSize f data.length).Appends := trivial
        exact happends.extends hexec
      · intro db' heval
        exact (appended_of_stale hv hc hstale hexec heval).advance
    · obtain rfl := Option.some.inj ht
      rw [hlocked] at hk
      cases hk
  | writing hnot hlocked hblind honly hextends hvalid hdone =>
    cases hblind with
    | ret r =>
      cases r with
      | error e =>
        obtain ⟨rfl, rfl, rfl | rfl⟩ := ClientStep.of_rollback hturn
        · exact ⟨.returned (iff_of_false Bool.false_ne_true (hstill hnot)), nofun, .inl rfl⟩
        · exact ⟨.returned (iff_of_false Bool.false_ne_true (hstill hnot)), nofun, .inl rfl⟩
      | ok a =>
        obtain ⟨rfl, rfl, t, ht, ⟨-, rfl⟩ | ⟨hnil, -⟩⟩ := ClientStep.of_commit hturn (hcommit _ rfl)
        · obtain rfl := Option.some.inj ht
          exact ⟨.returned (iff_of_true rfl (.inr rfl)), fun _ => hnot, hdone _ rfl, hextends⟩
        · obtain rfl := Option.some.inj ht
          rw [hnil] at hlocked
          cases hlocked
    | change x k hfail hk =>
      obtain ⟨rfl, ⟨rfl, rfl⟩ | ⟨t, own, ht, rfl, ⟨-, hnil, -⟩ | ⟨-, hexec, rfl⟩⟩⟩ :=
        ClientStep.of_change hturn
      · refine ⟨?_, nofun, .inl rfl⟩
        rw [hfail]
        exact .failing (hstill hnot) .query
      · obtain rfl := Option.some.inj ht
        rw [hnil] at hlocked
        cases hlocked
      · obtain rfl := Option.some.inj ht
        have hown : own.Valid := Valid.exec (c := x) hvalid hexec
        refine ⟨.writing (hstill hnot) (List.mem_append_left _ hlocked) hk (honly.2 true) ?_ hown ?_,
          nofun, .inr ⟨own, hown, rfl⟩⟩
        · exact hextends.trans ((honly.1 x rfl).extends hexec)
        · intro db' heval
          refine (hdone db' ?_).advance
          rwa [Program.eval_change_of_some engine k hexec]
  | failing hnot e =>
    obtain ⟨rfl, rfl, rfl | rfl⟩ := ClientStep.of_rollback hturn
    · exact ⟨.returned (iff_of_false Bool.false_ne_true (hstill hnot)), nofun, .inl rfl⟩
    · exact ⟨.returned (iff_of_false Bool.false_ne_true (hstill hnot)), nofun, .inl rfl⟩
  | returned => cases hturn

end

/-! ## All interleavings -/

variable {ι : Type} [Fintype ι] [DecidableEq ι] {st : Mounts ι Bool} {datas : ι → List Byte}

/-- The next statement of the mount does not fail, if it is `COMMIT`. -/
def CommitSucceeds (st : Mounts ι Bool) (i : ι) (fail : Bool) : Prop :=
  ∀ k, (st.client i).prog = .call .commit k → fail = false

/-- The file `f` of `db` has been lengthened by the data of exactly the appends that have returned
true, one after the other in the order of their commits. -/
structure Serialised (f : ℕ) (datas : ι → List Byte) (db : Database) (st : Mounts ι Bool) :
    Prop where
  appended : Appended f (st.commits.map datas).flatten db st.store
  size : st.store.fileSize f = some (st.store.content f).length
  once : st.commits.Nodup
  returned : ∀ i, (st.client i).prog = .ret true ↔ i ∈ st.commits

/-- The invariant of the appends. -/
structure AppendsKeep (f : ℕ) (datas : ι → List Byte) (db : Database) (st : Mounts ι Bool) :
    Prop where
  latched : st.Latched versions (.file f)
  appended : Appended f (st.commits.map datas).flatten db st.store
  once : st.commits.Nodup
  phase : ∀ i, Appending f (datas i) st.store (i ∈ st.commits) (st.client i)

omit [Fintype ι] [DecidableEq ι] in
theorem appendsKeep_start (hv : db.Valid) (hc : Canonical (db.blocks f)) (datas : ι → List Byte) :
    AppendsKeep f datas db (Cluster.start db fun i => myfsDbFileAppend f (datas i)) where
  latched := Cluster.latched_start ..
  appended := .refl hv hc
  once := List.nodup_nil
  phase _ := .before List.not_mem_nil

/-- A step of a mount keeps the invariant. -/
theorem AppendsKeep.step (hfile : (db.fileSize f).isSome) (h : AppendsKeep f datas db st) {i : ι}
    {fail : Bool} (hok : CommitSucceeds st i fail) :
    AppendsKeep f datas db (st.step engine versions i fail) := by
  have hfile' : (st.store.fileSize f).isSome := by rwa [h.appended.size, Option.isSome_map]
  obtain ⟨hlatched, heq | ⟨⟨c, now, hturn, hclient, hcommits⟩, halone⟩⟩ :=
    h.latched.step lawful_versions ((h.phase i).ready hfile') fail
  · rwa [heq]
  obtain ⟨hphase, hnew, heffect⟩ :=
    (h.phase i).turn h.appended.valid h.appended.canonical hok hturn
  generalize st.step engine versions i fail = st' at *
  have hextends : Extends st.store st'.store := by
    cases now with
    | true => exact heffect.2
    | false =>
      obtain hsame | ⟨own, -, hsame⟩ := heffect
      · rw [hsame]
        exact .refl _
      · rw [hsame]
        exact .refl st.store
  have hmem : ∀ j, j ∈ st'.commits ↔ j ∈ st.commits ∨ j = i ∧ now = true := by
    intro j
    rw [hcommits]
    cases now <;> simp
  refine ⟨hlatched, ?_, ?_, fun j => ?_⟩
  · cases now with
    | true =>
      rw [hcommits, if_pos rfl, List.map_append, List.flatten_append, List.map_singleton,
        List.flatten_singleton]
      exact h.appended.trans heffect.1
    | false =>
      rw [hcommits, if_neg Bool.false_ne_true]
      obtain hsame | ⟨own, hown, hsame⟩ := heffect
      · rw [hsame]
        exact h.appended
      · rw [hsame]
        exact h.appended.generated hown
  · cases now with
    | true =>
      rw [hcommits, if_pos rfl, ← List.concat_eq_append]
      exact h.once.concat (hnew rfl)
    | false =>
      rw [hcommits, if_neg Bool.false_ne_true]
      exact h.once
  · rw [hmem, hclient]
    by_cases hj : j = i
    · subst hj
      rw [Function.update_self, eq_self, true_and]
      exact hphase
    · rw [Function.update_of_ne hj, or_iff_left fun hji => hj hji.1]
      rcases halone with hsame | hothers
      · rw [hsame]
        exact h.phase j
      · exact (h.phase j).of_extends (fun t ht => hothers j t hj ht) hextends

/-- Whatever the order of their statements, and whichever of these fail but `COMMIT`, appends to
one canonical file add the data of those that return true, in the order of their commits. -/
theorem serialised (hv : db.Valid) (hc : Canonical (db.blocks f))
    (hs : db.fileSize f = some (db.content f).length)
    (h : Mounts.Reaches CommitSucceeds db (fun i => myfsDbFileAppend f (datas i)) st) :
    Serialised f datas db st := by
  have hkeep : AppendsKeep f datas db st := by
    refine h.invariant (appendsKeep_start hv hc datas) fun hkeep hok => hkeep.step ?_ hok
    rw [hs]
    rfl
  refine ⟨hkeep.appended, ?_, hkeep.once, fun i => (hkeep.phase i).prog_eq_iff⟩
  rw [hkeep.appended.size, hs, hkeep.appended.content, List.length_append]
  rfl

/-! ## Two mounts -/

/-- With no statement failing, no `COMMIT` fails. -/
theorem along_commitSucceeds (turns : List ι) (st : Mounts ι Bool) :
    Cluster.Along engine versions CommitSucceeds (turns.map fun i => (i, false)) st := by
  induction turns generalizing st with
  | nil => trivial
  | cons i turns ih => exact ⟨fun _ _ => rfl, ih _⟩

/-- Each of two mounts appends a byte. -/
def appendedByte : Bool → List Byte
  | false => [98]
  | true => [99]

/-- Both have found the block with the byte that was there, when the first one appends to it. -/
def bothAppended : Mounts Bool Bool :=
  Mounts.follow [false, true, false, true, false, false, false, true, true, true]
    (Cluster.start oneByte fun i => myfsDbFileAppend 1 (appendedByte i))

theorem serialised_bothAppended :
    Serialised 1 appendedByte oneByte bothAppended ∧ bothAppended.commits = [false, true] ∧
      bothAppended.store.content 1 = [97, 98, 99] := by
  refine ⟨?_, by decide +kernel, by decide +kernel⟩
  have hc := (canonical_of_reachable reachable_oneByte (f := 1) (s := 1) (by decide)).1
  refine serialised reachable_oneByte.valid hc (by decide) ?_
  exact Cluster.Reaches.start.follow (along_commitSucceeds _ _)

end MyFS
