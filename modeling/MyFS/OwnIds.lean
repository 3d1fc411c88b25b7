import MyFS.Changes
import MyFS.Creation
import MyFS.Sql.Threads

/-!
# The id of a new file

`myfs_db_file_create` inserts a row and then asks the connection for the key it has generated, in a
call of its own. All threads of a mount share the connection, and what they insert between the two
calls has keys as well, in `files` and in `file_data`. A creation that no other thread disturbs there
is told its own key or none, and `myfs_symlink` then appends to its own link only: `ownId_follow`.
-/

namespace MyFS

open Sql Database

variable {env : Env} {path : List Byte} {op : CreateOp} {id : ℕ}
variable {known : List (Fact Query Query.Answer Change)}

/-- The row that a creation inserts in the directory `p`. -/
def CreateOp.insertion (env : Env) (path : List Byte) (op : CreateOp) (p : ℕ) : Change :=
  createChange env (utilBasename path (myfsFileNameMaxLen + 1)) op.type p op.mode

/-- The changes that append to the file `f`: to its size, new blocks, and to the block that the server
has named as its last one. -/
def AppendsTo (known : List (Fact Query Query.Answer Change)) (f : ℕ) (c : Change) : Prop :=
  (∃ n, c = .addSize f n) ∨ (∃ i d, c = .insertBlock f i d) ∨
    ∃ (b : BlockInfo) (d : List Byte), c = .concatBlock b.fileDataId d ∧
      .asked (.lastBlock f) (some b) ∈ known

theorem AppendsTo.mono {known' : List (Fact Query Query.Answer Change)} {c : Change}
    (h : AppendsTo known id c) (hsub : ∀ f ∈ known, f ∈ known') : AppendsTo known' id c := by
  rcases h with h | h | ⟨b, d, hc, hb⟩
  · exact .inl h
  · exact .inr (.inl h)
  · exact .inr (.inr ⟨b, d, hc, hsub _ hb⟩)

/-- An id that a creation is told is that of its row, and everything else that it changes belongs to
this row. -/
structure OwnId (env : Env) (path : List Byte) (op : CreateOp)
    (known : List (Fact Query Query.Answer Change)) : Prop where
  told : ∀ id, .told id ∈ known → id ≠ 0 →
    id < uintRange ∧ ∃ p, .made (op.insertion env path p) id ∈ known
  made : ∀ c key, .made c key ∈ known → (∃ p, c = op.insertion env path p) ∨
    ∃ id p, id ≠ 0 ∧ .made (op.insertion env path p) id ∈ known ∧ AppendsTo known id c

/-- Only queries have been answered. -/
def OnlyAsked (known : List (Fact Query Query.Answer Change)) : Prop :=
  ∀ f ∈ known, ∃ q a, f = .asked q a

theorem OnlyAsked.ownId (h : OnlyAsked known) : OwnId env path op known := by
  constructor
  · intro id hid
    obtain ⟨q, a, hf⟩ := h _ hid
    cases hf
  · intro c key hc
    obtain ⟨q, a, hf⟩ := h _ hc
    cases hf

theorem OnlyAsked.asked (h : OnlyAsked known) (q : Query) (a : q.Answer) :
    OnlyAsked (known ++ [.asked q a]) := by
  intro f hf
  rcases List.mem_append.mp hf with hf | hf
  · exact h f hf
  · exact ⟨q, a, List.mem_singleton.mp hf⟩

/-- The creation has been told its id. -/
structure CreatedRow (env : Env) (path : List Byte) (op : CreateOp) (id : ℕ)
    (known : List (Fact Query Query.Answer Change)) : Prop where
  own : OwnId env path op known
  pos : id ≠ 0
  row : ∃ p, .made (op.insertion env path p) id ∈ known

theorem OwnId.asked (h : OwnId env path op known) (q : Query) (a : q.Answer) :
    OwnId env path op (known ++ [.asked q a]) := by
  have hsub : ∀ f ∈ known, f ∈ known ++ [.asked q a] := fun f hf => List.mem_append_left _ hf
  constructor
  · intro id hid hne
    simp only [List.mem_append, List.mem_singleton, reduceCtorEq, or_false] at hid
    obtain ⟨hlt, p, hp⟩ := h.told id hid hne
    exact ⟨hlt, p, hsub _ hp⟩
  · intro c key hc
    simp only [List.mem_append, List.mem_singleton, reduceCtorEq, or_false] at hc
    rcases h.made c key hc with hins | ⟨id, p, hne, hp, happ⟩
    · exact .inl hins
    · exact .inr ⟨id, p, hne, hsub _ hp, happ.mono hsub⟩

theorem CreatedRow.asked (h : CreatedRow env path op id known) (q : Query) (a : q.Answer) :
    CreatedRow env path op id (known ++ [.asked q a]) := by
  obtain ⟨p, hp⟩ := h.row
  exact ⟨h.own.asked q a, h.pos, p, List.mem_append_left _ hp⟩

/-- A change that appends to the new file. -/
theorem CreatedRow.made (h : CreatedRow env path op id known) {c : Change} (hc : AppendsTo known id c)
    (key : ℕ) : CreatedRow env path op id (known ++ [.made c key]) := by
  obtain ⟨p, hp⟩ := h.row
  have hsub : ∀ f ∈ known, f ∈ known ++ [.made c key] := fun f hf => List.mem_append_left _ hf
  refine ⟨⟨?_, ?_⟩, h.pos, p, hsub _ hp⟩
  · intro id' hid hne
    simp only [List.mem_append, List.mem_singleton, reduceCtorEq, or_false] at hid
    obtain ⟨hlt, p', hp'⟩ := h.own.told id' hid hne
    exact ⟨hlt, p', hsub _ hp'⟩
  · intro c' key' hc'
    rw [List.mem_append, List.mem_singleton, Fact.made.injEq] at hc'
    rcases hc' with hc' | ⟨rfl, -⟩
    · rcases h.own.made c' key' hc' with hins | ⟨id', p', hne, hp', happ⟩
      · exact .inl hins
      · exact .inr ⟨id', p', hne, hsub _ hp', happ.mono hsub⟩
    · exact .inr ⟨id, p, h.pos, hsub _ hp, hc.mono hsub⟩

/-! ## What the callbacks learn -/

/-- `myfs_db_file_create` returns 0 or the id of the row that it has inserted. -/
theorem follows_myfsDbFileCreate (hknown : OnlyAsked known) (p : ℕ) :
    (myfsDbFileCreate env (utilBasename path (myfsFileNameMaxLen + 1)) op.type p op.mode).Follows
      engine (OwnId env path op) (fun known id => id = 0 ∨ CreatedRow env path op id known) known := by
  have hown : OwnId env path op known := hknown.ownId
  have hfresh : ∀ {c key}, .made c key ∉ known := fun hc => by
    obtain ⟨q, a, hf⟩ := hknown _ hc
    cases hf
  rw [myfsDbFileCreate_eq]
  change (Program.call (.change (op.insertion env path p)) _).Follows _ _ _ _
  refine ⟨hown, ⟨hown, .inl rfl⟩, fun s s' he => ?_⟩
  obtain ⟨r, -, -, -, -, -, -, -, hlt, -⟩ := insertFile_cases he
  change engine.newId (op.insertion env path p) s < uintRange at hlt
  generalize engine.newId (op.insertion env path p) s = key at hlt
  -- the row is there, and nothing has been told
  have hnone : ∀ {id}, .told id ∉ known ++ [.made (op.insertion env path p) key] := fun hid => by
    simp only [List.mem_append, List.mem_singleton, reduceCtorEq, or_false] at hid
    obtain ⟨q, a, hf⟩ := hknown _ hid
    cases hf
  have hmade : ∀ c key', .made c key' ∈ known ++ [.made (op.insertion env path p) key] →
      ∃ p, c = op.insertion env path p := by
    intro c key' hc
    rw [List.mem_append, List.mem_singleton, Fact.made.injEq] at hc
    exact ⟨p, (hc.resolve_left hfresh).1⟩
  refine ⟨⟨fun id hid => absurd hid hnone, fun c key' hc => .inl (hmade c key' hc)⟩, fun id hid => ?_⟩
  rw [Fact.lastKey_made] at hid
  have hmod : id % uintRange = id := Nat.mod_eq_of_lt (by unfold uintRange at *; omega)
  have htold : OwnId env path op
      (known ++ [.made (op.insertion env path p) key] ++ [.told id]) := by
    constructor
    · intro id' hid' hne
      rw [List.mem_append, List.mem_singleton, Fact.told.injEq] at hid'
      obtain rfl := hid'.resolve_left hnone
      obtain rfl := hid.resolve_left hne
      exact ⟨hlt, p, by simp⟩
    · intro c key' hc
      rw [List.mem_append, List.mem_singleton] at hc
      exact .inl (hmade c key' (hc.resolve_right fun h => by cases h))
  change (Program.ret (id % uintRange)).Follows _ _ _ _
  rw [hmod]
  refine ⟨htold, ?_⟩
  by_cases hzero : id = 0
  · exact .inl hzero
  · obtain rfl := hid.resolve_left hzero
    exact .inr ⟨htold, hzero, p, by simp⟩

/-- The body of an append makes no change but those that append to the file. -/
theorem follows_appendBody (data : List Byte) (h : CreatedRow env path op id known) :
    (appendBody id data).Follows engine (OwnId env path op)
      (fun known _ => CreatedRow env path op id known) known := by
  refine ⟨h.own, ⟨h.own, h⟩, fun last => ?_⟩
  -- the block that has been named is kept in mind
  have hrest : Body .query ((dbQuery (.addSize id data.length)).andThen fun _ =>
      appendBlocks id data last) :=
    (body_dbQuery _).andThen fun _ => (blind_appendBlocks id data last).body
  have honly : ((dbQuery (.addSize id data.length)).andThen fun _ =>
      appendBlocks id data last).Only fun c => (∃ n, c = .addSize id n) ∨
        (∃ i d, c = .insertBlock id i d) ∨
        ∃ (b : BlockInfo) (d : List Byte), c = .concatBlock b.fileDataId d ∧ last = some b := by
    apply (only_dbQuery (.inl ⟨_, rfl⟩)).andThen
    intro _
    apply only_appendBlocks
    · exact fun b hb d => .inr (.inr ⟨b, d, rfl, hb⟩)
    · exact fun i d => .inr (.inl ⟨i, d, rfl⟩)
  have hstart : CreatedRow env path op id (known ++ [.asked (.lastBlock id) last]) ∧
      .asked (.lastBlock id) last ∈ known ++ [.asked (.lastBlock id) last] :=
    ⟨h.asked _ _, by simp⟩
  have hfollows := hrest.follows (E := engine) (G := OwnId env path op)
    (I := fun known => CreatedRow env path op id known ∧ .asked (.lastBlock id) last ∈ known) honly
    (fun _ h => h.1.own) (fun _ q a h => ⟨h.1.asked q a, List.mem_append_left _ h.2⟩)
    (fun known c key hc h => ⟨h.1.made ?_ key, List.mem_append_left _ h.2⟩)
    hstart
  · exact hfollows.mono fun _ _ h => h.1
  · rcases hc with hc | hc | ⟨b, d, hc, rfl⟩
    · exact .inl hc
    · exact .inr (.inl hc)
    · exact .inr (.inr ⟨b, d, hc, h.2⟩)

/-- After it, the callback makes no change but those that append to the new row. -/
theorem follows_after (h : CreatedRow env path op id known) :
    (op.after env path id).Follows engine (OwnId env path op) (fun _ _ => True) known := by
  cases op with
  | mkdir mode => exact ⟨h.own, trivial⟩
  | create files =>
    have hread : (myfsOpenHelper env path false false files).ReadOnly :=
      readOnly_myfsOpenHelper env path rfl files
    apply (hread.follows (fun _ h => h.own) (fun _ q a h => h.asked q a) h).andThen
    · exact fun _ _ hown _ => ⟨hown, trivial⟩
    · exact fun _ _ _ => trivial
  | symlink target =>
    apply (follows_transaction (follows_appendBody target h) h.own h).bind
    intro known success hown _
    cases success with
    | true => exact ⟨hown, trivial⟩
    | false => exact ⟨hown, trivial⟩

theorem follows_prog (env : Env) (path : List Byte) (op : CreateOp) :
    (op.prog env path).Follows engine (OwnId env path op) (fun _ _ => True) [] := by
  have hempty : OnlyAsked [] := fun _ hf => by cases hf
  rw [CreateOp.prog_eq]
  apply ((readOnly_myfsFileGet env _ false).follows (fun _ h => h.ownId)
    (fun _ q a h => h.asked q a) hempty).andThen
  · intro known parent hown hasked
    cases parent with
    | none => exact ⟨hown, trivial⟩
    | some parent =>
      apply (follows_myfsDbFileCreate hasked parent.fileId).bind
      intro known id hown hid
      by_cases hzero : id = 0
      · rw [if_pos hzero]
        exact ⟨hown, trivial⟩
      · rw [if_neg hzero]
        exact follows_after (hid.resolve_left hzero)
  · exact fun _ _ _ => trivial

/-- In every run of the threads of a mount, a creation that no other thread disturbs is told the id of
its own row or none, and appends to this row only. -/
theorem ownId_follow {ι : Type} [DecidableEq ι] {t : ι}
    {st : Threads Query Query.Answer Change Database ι} (hprog : st.prog t = ⟨_, op.prog env path⟩)
    (hfacts : st.facts t = []) {steps : List (ι × Bool)} (hsteps : st.Undisturbed engine t steps) :
    OwnId env path op ((st.follow engine steps).facts t) := by
  apply follows_follow _ _ hsteps
  · rw [hprog, hfacts]
    exact follows_prog env path op
  · rw [hprog, CreateOp.prog_eq]
    exact nofun

/-! ## Two links -/

/-- One thread makes the link `/a` to `x`, the other one the link `/b` to `y`. -/
def twoLinks : Threads Query Query.Answer Change Database Bool where
  sess := Session.idle emptyStore
  prog
    | true => ⟨_, (CreateOp.symlink [120]).prog nobody [slash, 97]⟩
    | false => ⟨_, (CreateOp.symlink [121]).prog nobody [slash, 98]⟩
  facts := fun _ => []

/-- The two threads insert their rows one after the other, and the second one its block as well, when
the first one has its id. -/
theorem ownId_twoLinks :
    OwnId nobody [slash, 97] (.symlink [120]) ((twoLinks.follow engine
      (List.replicate 2 (false, false) ++ List.replicate 4 (true, false) ++
        List.replicate 6 (false, false) ++ List.replicate 5 (true, false))).facts true) :=
  ownId_follow (t := true) rfl rfl (by decide +kernel)

/-- The key of a file that a thread has inserted. -/
def insertedKey : Fact Query Query.Answer Change → Option ℕ
  | .made (.insertFile ..) key => some key
  | _ => none

/-- The second thread inserts its block before the first one asks for its id: the first thread has
inserted the row 2, is told the id 1, and appends to the link of the second thread. -/
theorem symlink_appends_to_other_link :
    let known := (twoLinks.follow engine (List.replicate 7 (false, false) ++
      List.replicate 3 (true, false) ++ [(false, false)] ++ List.replicate 6 (true, false))).facts true
    known.filterMap insertedKey = [2] ∧ known.filterMap Fact.toldId = [1] ∧
      ¬OwnId nobody [slash, 97] (.symlink [120]) known := by
  set known := (twoLinks.follow engine (List.replicate 7 (false, false) ++
    List.replicate 3 (true, false) ++ [(false, false)] ++ List.replicate 6 (true, false))).facts true
    with hknown
  have hinserted : known.filterMap insertedKey = [2] := by decide +kernel
  have htold : known.filterMap Fact.toldId = [1] := by decide +kernel
  refine ⟨hinserted, htold, fun hown => ?_⟩
  obtain ⟨f, hf, hid⟩ := List.mem_filterMap.mp (htold ▸ List.mem_singleton_self 1)
  obtain ⟨id, rfl⟩ : ∃ id, f = .told id := by
    cases f with
    | told id => exact ⟨id, rfl⟩
    | asked | made => cases hid
  obtain rfl := Option.some.inj hid
  obtain ⟨-, p, hp⟩ := hown.told 1 hf one_ne_zero
  have hmem : 1 ∈ known.filterMap insertedKey := List.mem_filterMap.mpr ⟨_, hp, rfl⟩
  rw [hinserted] at hmem
  exact absurd hmem (by decide)

end MyFS
