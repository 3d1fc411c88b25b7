import MyFS.Hierarchy

/-!
# Setting attributes

`myfs_chown`, `myfs_chmod` and `myfs_utimens` change one row of `files`, and of that row only
the columns that the call is about. A call that sets only one of the two times has to leave
the other; FUSE says so with `UTIME_OMIT` in `tv_nsec`, and with `UTIME_NOW` that the time is
the current one. `myfs_utimens` looks at `tv_sec` only.

`reported_of_run` says of runs of any length that `myfs_getattr` reports what was last set, if
`tv_sec` is right in every call.
-/

namespace MyFS

open Sql Database

/-! ## What is set and what is reported -/

/-- `UTIME_NOW` in `tv_nsec`: the current time. -/
def utimeNow : ℤ := 2 ^ 30 - 1

/-- `UTIME_OMIT` in `tv_nsec`: leave the time as it is. -/
def utimeOmit : ℤ := 2 ^ 30 - 2

/-- The time that a `struct timespec` asks for, if any. -/
def Timespec.asks (now : ℤ) (ts : Timespec) : Option ℤ :=
  if ts.tvNsec = utimeOmit then none
  else if ts.tvNsec = utimeNow then some now
  else some ts.tvSec

/-- The attributes that can be set. -/
inductive Attribute
  | owner
  | group
  | mode
  | accessTime
  | modificationTime
deriving DecidableEq, Repr

/-- The value of an attribute in a `struct stat`. -/
def Stat.attribute (st : Stat) : Attribute → ℤ
  | .owner => st.stUid
  | .group => st.stGid
  | .mode => st.stMode
  | .accessTime => st.stAtime
  | .modificationTime => st.stMtime

/-- A callback that sets attributes. -/
inductive AttributeOp
  | chown (uid gid : ℕ)
  | chmod (mode : ℕ)
  | utimens (atime mtime : Timespec)

/-- The value that a call asks for, unless it leaves the attribute as it is. -/
def AttributeOp.asks (now : ℤ) : AttributeOp → Attribute → Option ℤ
  | .chown uid _, .owner => if uid = unchangedId then none else some uid
  | .chown _ gid, .group => if gid = unchangedId then none else some gid
  | .chmod mode, .mode => some mode
  | .utimens atime _, .accessTime => atime.asks now
  | .utimens _ mtime, .modificationTime => mtime.asks now
  | _, _ => none

/-- A call of a callback: by path, or through an open file, with the time at which it is made. -/
structure AttributeCall where
  op : AttributeOp
  path : List Byte
  fi : Option Handle
  files : Files
  now : ℤ

def AttributeCall.prog (env : Env) (call : AttributeCall) : Prog (Except Fault ℤ) :=
  match call.op with
  | .chown uid gid => myfsChown env call.files call.path uid gid call.fi
  | .chmod mode => myfsChmod env call.files call.path mode call.fi
  | .utimens atime mtime => myfsUtimens env call.files call.path atime mtime call.fi

/-- The call is about the file `id`. -/
def AttributeCall.Targets (db : Database) (call : AttributeCall) (id : ℕ) : Prop :=
  match call.fi with
  | none => db.resolve (strtok (call.path.drop 1)) = some id
  | some fh => (db.files.row id).isSome ∧ ∃ file, call.files fh = some file ∧ file.fileId = id

/-- The user and group databases map the ids and names of accounts to each other. An id that
has no name is an error. -/
structure Accounts (env : Env) : Prop where
  userId : ∀ {uid name}, env.userName uid = .ok name → env.userId name = some uid
  groupId : ∀ {gid name}, env.groupName gid = .ok name → env.groupId name = some gid
  userLe : ∀ {uid name}, env.userName uid = .ok name → name.length ≤ myfsUserNameMaxLen
  groupLe : ∀ {gid name}, env.groupName gid = .ok name → name.length ≤ myfsUserNameMaxLen
  userError : ∀ {uid error}, env.userName uid = .error error → 0 < error
  groupError : ∀ {gid error}, env.groupName gid = .error error → 0 < error

/-! ## What the callbacks do -/

variable {env : Env} {db : Database} {id : ℕ}

/-- The statement that a callback sends for the file `id`, or the error that it returns. -/
def AttributeOp.change (env : Env) (id : ℕ) : AttributeOp → Except ℤ Change
  | .chown uid gid =>
    if id = 0 then .error eperm
    else
      match ownerName env.userName uid with
      | .error error => .error error
      | .ok user =>
        match ownerName env.groupName gid with
        | .error error => .error error
        | .ok group =>
          if user = [] ∧ group = [] then .error eio
          else .ok (.setOwner id (if user = [] then none else some user)
            (if group = [] then none else some group))
  | .chmod mode => if id = 0 then .error eperm else .ok (.setMode id mode)
  | .utimens atime mtime => .ok (.setTimes id atime.tvSec mtime.tvSec)

/-- What a callback does once it has looked for the file. -/
def AttributeOp.act (env : Env) (op : AttributeOp) : Option ℕ → Prog (Except Fault ℤ)
  | none => .ret (.ok (-enoent))
  | some id =>
    match op.change env id with
    | .error error => .ret (.ok (-error))
    | .ok c => .call (.change c) fun success => .ret (.ok (if success then 0 else -eio))

/-- The three callbacks begin alike, and send one statement. -/
theorem AttributeCall.prog_eq (env : Env) (call : AttributeCall) :
    call.prog env =
      (myfsGetFileId env call.files call.path call.fi).andThen (call.op.act env) := by
  obtain ⟨op, path, fi, files, now⟩ := call
  have hend : ∀ {success : Bool}, (if success = true then .ret (.ok 0) else .ret (.ok (-eio))
      : Prog (Except Fault ℤ)) = .ret (.ok (if success = true then 0 else -eio)) := by
    intro success
    cases success <;> rfl
  cases op with
  | chown uid gid =>
    show myfsChown env files path uid gid fi = _
    unfold myfsChown
    congr 1
    funext fileId
    cases fileId with
    | none => rfl
    | some id =>
      dsimp only [AttributeOp.act, AttributeOp.change]
      split
      · rfl
      · cases ownerName env.userName uid with
        | error error => rfl
        | ok user =>
          cases ownerName env.groupName gid with
          | error error => rfl
          | ok group =>
            dsimp only
            unfold myfsDbFileChown
            split
            · rfl
            · simp only [hend]
              rfl
  | chmod mode =>
    show myfsChmod env files path mode fi = _
    unfold myfsChmod
    congr 1
    funext fileId
    cases fileId with
    | none => rfl
    | some id =>
      dsimp only [AttributeOp.act, AttributeOp.change]
      split
      · rfl
      · simp only [hend]
        rfl
  | utimens atime mtime =>
    show myfsUtimens env files path atime mtime fi = _
    unfold myfsUtimens
    congr 1
    funext fileId
    cases fileId with
    | none => rfl
    | some id =>
      simp only [hend]
      rfl

theorem readOnly_myfsGetFileId (env : Env) (files : Files) (path : List Byte)
    (fi : Option Handle) : (myfsGetFileId env files path fi).ReadOnly := by
  cases fi with
  | none => exact (readOnly_myfsFileGet env path false).andThen fun _ => .ret _
  | some fh => exact .ret _

theorem eval_myfsGetFileId (env : Env) (htree : db.Tree) (hnext : db.files.next ≤ uintRange)
    {call : AttributeCall} (ht : call.Targets db id) :
    ((myfsGetFileId env call.files call.path call.fi).eval engine db).1 = .ok (some id) := by
  unfold AttributeCall.Targets at ht
  cases hfi : call.fi with
  | none =>
    rw [hfi] at ht
    obtain ⟨file, heval, hfile⟩ := eval_myfsFileGet_some env htree hnext ht
    rw [myfsGetFileId, Program.ReadOnly.eval_andThen engine (readOnly_myfsFileGet _ _ _)
      (congrArg Prod.fst heval)]
    show Except.ok (some file.fileId) = _
    rw [hfile.fileId_eq]
  | some fh =>
    rw [hfi] at ht
    obtain ⟨-, file, hfile, rfl⟩ := ht
    show Except.ok ((call.files fh).map MyfsFile.fileId) = _
    rw [hfile]
    rfl

/-! ## What a call changes -/

/-- An attribute as `myfs_db_file_query` finds it in a row. -/
def FileRow.attribute (env : Env) (r : FileRow) : Attribute → ℤ
  | .owner => env.stUid r.user
  | .group => env.stGid r.group
  | .mode => r.mode
  | .accessTime => r.lastAccessedOn
  | .modificationTime => r.lastModifiedOn

theorem attribute_fileOfRow (env : Env) (id : ℕ) (r : FileRow) (parent : Option MyfsFile)
    (a : Attribute) : (fileOfRow env id r parent).st.attribute a = r.attribute env a := by
  cases a <;> rfl

/-- The field `tv_sec` is the time that is asked for, and the old one if none is. -/
def Timespec.Exact (now old : ℤ) (ts : Timespec) : Prop :=
  (ts.tvNsec = utimeOmit → ts.tvSec = old) ∧ (ts.tvNsec = utimeNow → ts.tvSec = now)

/-- The times in the call are exact, and no account in it has an empty name. -/
def AttributeCall.Exact (env : Env) (db : Database) (call : AttributeCall) (id : ℕ) : Prop :=
  match call.op with
  | .chown uid gid =>
    (uid ≠ unchangedId → env.userName uid ≠ .ok []) ∧
      (gid ≠ unchangedId → env.groupName gid ≠ .ok [])
  | .chmod _ => True
  | .utimens atime mtime =>
    ∀ r, db.files.row id = some r →
      atime.Exact call.now r.lastAccessedOn ∧ mtime.Exact call.now r.lastModifiedOn

theorem Timespec.Exact.getD_asks {now old : ℤ} {ts : Timespec} (h : ts.Exact now old) :
    (ts.asks now).getD old = ts.tvSec := by
  unfold Timespec.asks
  split
  · exact (h.1 ‹_›).symm
  · split
    · exact (h.2 ‹_›).symm
    · rfl

/-- The name of an owner that is to be set is put into its buffer whole. -/
theorem ownerName_cases {find : ℕ → Except ℤ (List Byte)} {owner : ℕ} {name : List Byte}
    (hle : ∀ {name}, find owner = .ok name → name.length ≤ myfsUserNameMaxLen)
    (h : ownerName find owner = .ok name) :
    owner = unchangedId ∧ name = [] ∨ owner ≠ unchangedId ∧ find owner = .ok name := by
  unfold ownerName at h
  split at h
  · rename_i howner
    cases hf : find owner with
    | error error =>
      rw [hf] at h
      cases h
    | ok name' =>
      rw [hf] at h
      have hname : strlcpy name' (myfsUserNameMaxLen + 1) = name := Except.ok.inj h
      rw [strlcpy, Nat.add_sub_cancel, List.take_of_length_le (hle hf)] at hname
      exact .inr ⟨howner, by rw [hname]⟩
  · rename_i howner
    exact .inl ⟨not_not.mp howner, (Except.ok.inj h).symm⟩

theorem ownerName_error {find : ℕ → Except ℤ (List Byte)} {owner : ℕ} {error : ℤ}
    (hpos : ∀ {error}, find owner = .error error → 0 < error)
    (h : ownerName find owner = .error error) : 0 < error := by
  unfold ownerName at h
  split at h
  · cases hf : find owner with
    | error error' =>
      rw [hf] at h
      cases h
      exact hpos hf
    | ok name =>
      rw [hf] at h
      cases h
  · cases h

/-- The id of an owner after the call: the one asked for, or the old one. -/
theorem stId_of_ownerName {find : ℕ → Except ℤ (List Byte)} {st : List Byte → ℕ} {owner : ℕ}
    {name old : List Byte}
    (hle : ∀ {name}, find owner = .ok name → name.length ≤ myfsUserNameMaxLen)
    (hst : ∀ {name}, find owner = .ok name → st name = owner)
    (hne : owner ≠ unchangedId → find owner ≠ .ok []) (h : ownerName find owner = .ok name) :
    (st ((if name = [] then none else some name).getD old) : ℤ) =
      (if owner = unchangedId then none else some (owner : ℤ)).getD (st old) := by
  rcases ownerName_cases hle h with ⟨howner, rfl⟩ | ⟨howner, hf⟩
  · rw [if_pos rfl, if_pos howner]
    rfl
  · have hname : name ≠ [] := fun h => hne howner (h ▸ hf)
    rw [if_neg hname, if_neg howner]
    show ((st name : ℕ) : ℤ) = _
    rw [hst hf]
    rfl

theorem AttributeOp.change_error_pos (hacc : Accounts env) {op : AttributeOp} {error : ℤ}
    (h : op.change env id = .error error) : 0 < error := by
  cases op with
  | chown uid gid =>
    dsimp only [change] at h
    split at h
    · cases h
      decide
    · split at h
      · rename_i huser
        cases h
        exact ownerName_error hacc.userError huser
      · split at h
        · rename_i hgroup
          cases h
          exact ownerName_error hacc.groupError hgroup
        · split at h
          · cases h
            decide
          · cases h
  | chmod mode =>
    dsimp only [change] at h
    split at h
    · cases h
      decide
    · cases h
  | utimens atime mtime => cases h

/-- The call sets what it asks for, and leaves everything else as it was. -/
structure Sets (env : Env) (call : AttributeCall) (id : ℕ) (db db' : Database) : Prop where
  sameTree : SameTree db db'
  next : db'.files.next = db.files.next
  value : ∀ {x r r'}, db.files.row x = some r → db'.files.row x = some r' → ∀ a,
    r'.attribute env a =
      if x = id then (call.op.asks call.now a).getD (r.attribute env a) else r.attribute env a

theorem sets_modify {call : AttributeCall} {u : FileRow → FileRow}
    (htree : ∀ r, ((u r).parentId, (u r).name, (u r).type) = (r.parentId, r.name, r.type))
    (hu : ∀ r, db.files.row id = some r →
      ∀ a, (u r).attribute env a = (call.op.asks call.now a).getD (r.attribute env a)) :
    Sets env call id db { db with files := db.files.modify id u } := by
  refine ⟨fun x => ?_, rfl, fun {x r r'} hr hr' a => ?_⟩
  · rw [Table.row_modify]
    split
    · cases db.files.row x with
      | none => rfl
      | some r => exact congrArg some (htree r)
    · rfl
  · rw [Table.row_modify] at hr'
    split at hr'
    · rename_i hx
      subst hx
      rw [hr] at hr'
      obtain rfl := Option.some.inj hr'
      rw [if_pos rfl]
      exact hu r hr a
    · rename_i hx
      rw [hr] at hr'
      obtain rfl := Option.some.inj hr'
      rw [if_neg hx]

/-- The statement of an exact call sets what the call asks for. -/
theorem sets_change (hacc : Accounts env) {call : AttributeCall} (hexact : call.Exact env db id)
    {c : Change} (hc : call.op.change env id = .ok c) {db' : Database} (he : c.exec db = some db') :
    Sets env call id db db' := by
  obtain ⟨op, path, fi, files, now⟩ := call
  cases op with
  | chown uid gid =>
    dsimp only [AttributeOp.change] at hc
    split at hc
    · cases hc
    · split at hc
      · cases hc
      · rename_i user huser
        split at hc
        · cases hc
        · rename_i group hgroup
          split at hc
          · cases hc
          · cases hc
            rw [eq_of_updateFile he]
            refine sets_modify (fun _ => rfl) fun r hr a => ?_
            have hst : ∀ {name}, env.userName uid = .ok name → env.stUid name = uid := by
              intro name hname
              rw [Env.stUid, hacc.userId hname]
            have hst' : ∀ {name}, env.groupName gid = .ok name → env.stGid name = gid := by
              intro name hname
              rw [Env.stGid, hacc.groupId hname]
            cases a with
            | owner => exact stId_of_ownerName hacc.userLe hst hexact.1 huser
            | group => exact stId_of_ownerName hacc.groupLe hst' hexact.2 hgroup
            | mode | accessTime | modificationTime => rfl
  | chmod mode =>
    dsimp only [AttributeOp.change] at hc
    split at hc
    · cases hc
    · cases hc
      rw [eq_of_updateFile he]
      refine sets_modify (fun _ => rfl) fun r hr a => ?_
      cases a <;> rfl
  | utimens atime mtime =>
    cases hc
    rw [Change.exec] at he
    rw [eq_of_updateFile he]
    refine sets_modify (fun _ => rfl) fun r hr a => ?_
    obtain ⟨hatime, hmtime⟩ := hexact r hr
    cases a with
    | accessTime => exact hatime.getD_asks.symm
    | modificationTime => exact hmtime.getD_asks.symm
    | owner | group | mode => rfl

/-! ## Runs -/

/-- A call that has succeeded, and the file it was about. -/
structure Done where
  call : AttributeCall
  id : ℕ

/-- The value that was last asked for, if any. -/
def lastAsked (done : List Done) (id : ℕ) (a : Attribute) : Option ℤ :=
  ((done.filter fun d => d.id = id).filterMap fun d => d.call.op.asks d.call.now a).getLast?

/-- Runs of calls on files, one after the other, in which no query fails. The list is of the
calls that have succeeded. -/
inductive AttributeRun (env : Env) (Ok : Database → AttributeCall → ℕ → Prop) (db : Database) :
    Conn Unit → List Done → Prop
  | start : AttributeRun env Ok db (Session.idle db) []
  | call {s : Conn Unit} {done : List Done} {call : AttributeCall} {id : ℕ}
      (h : AttributeRun env Ok db s done) (ht : call.Targets s.visible id)
      (hok : Ok s.visible call id) :
      AttributeRun env Ok db (Sql.run engine () (call.prog env) noFailure s).sess
        (if (Sql.run engine () (call.prog env) noFailure s).result = .ok 0 then done ++ [⟨call, id⟩]
          else done)

theorem lastAsked_append (done : List Done) (call : AttributeCall) (id x : ℕ) (a : Attribute) :
    lastAsked (done ++ [⟨call, id⟩]) x a =
      if x = id then (call.op.asks call.now a).or (lastAsked done x a) else lastAsked done x a := by
  unfold lastAsked
  rw [List.filter_append, List.filterMap_append]
  split
  · rename_i hx
    rw [List.filter_singleton, decide_eq_true hx.symm]
    cases h : call.op.asks call.now a with
    | none => simp [h]
    | some v => simp [h]
  · rename_i hx
    rw [List.filter_singleton, decide_eq_false (Ne.symm hx)]
    simp

section

variable {s : Conn Unit} {call : AttributeCall} (hs : s.working = none)
  (htree : s.committed.Tree) (hnext : s.committed.files.next ≤ uintRange)
  (ht : call.Targets s.committed id)
include hs htree hnext ht

theorem run_attributeCall (env : Env) : ∃ s₁ : Conn Unit, s₁.working = none ∧
    s₁.committed = s.committed ∧
    (Sql.run engine () (call.prog env) noFailure s).result =
      (Sql.run engine () (call.op.act env (some id)) noFailure s₁).result ∧
    (Sql.run engine () (call.prog env) noFailure s).sess =
      (Sql.run engine () (call.op.act env (some id)) noFailure s₁).sess := by
  have heval := eval_myfsGetFileId env htree hnext ht
  rw [← Session.visible_of_none hs] at heval
  rw [AttributeCall.prog_eq]
  obtain ⟨s₁, hcom, hwork, hrun⟩ := run_readOnly_andThen engine ()
    (readOnly_myfsGetFileId env call.files call.path call.fi) (call.op.act env) s heval
  exact ⟨s₁, hwork.trans hs, hcom, hrun⟩

/-- A call that sends no statement. -/
theorem run_attributeCall_error {error : ℤ} (hc : call.op.change env id = .error error) :
    let o := Sql.run engine () (call.prog env) noFailure s
    o.result = .ok (-error) ∧ o.sess.committed = s.committed ∧ o.sess.working = none := by
  obtain ⟨s₁, hwork, hcom, hres, hsess⟩ := run_attributeCall hs htree hnext ht env
  dsimp only
  rw [hres, hsess, AttributeOp.act, hc]
  exact ⟨rfl, hcom, hwork⟩

/-- A call fails and changes nothing, or it succeeds and sets what it asks for. -/
theorem run_attributeCall_cases (hacc : Accounts env)
    (hexact : call.Exact env s.committed id) :
    let o := Sql.run engine () (call.prog env) noFailure s
    o.sess.working = none ∧
      (o.result ≠ .ok 0 ∧ o.sess.committed = s.committed ∨
        o.result = .ok 0 ∧ Sets env call id s.committed o.sess.committed) := by
  cases hc : call.op.change env id with
  | error error =>
    obtain ⟨hres, hcom, hwork⟩ := run_attributeCall_error hs htree hnext ht hc
    have hpos := AttributeOp.change_error_pos hacc hc
    refine ⟨hwork, .inl ⟨fun h => ?_, hcom⟩⟩
    rw [hres, Except.ok.injEq] at h
    omega
  | ok c =>
    obtain ⟨s₁, hwork, hcom, hres, hsess⟩ := run_attributeCall hs htree hnext ht env
    dsimp only
    rw [hres, hsess, AttributeOp.act, hc]
    obtain ⟨s₂, hwork₂, hcom₂, hres₂, hsess₂⟩ := run_change_noFailure engine () c
      (fun success => .ret (.ok (if success then 0 else -eio)) : Bool → Prog (Except Fault ℤ)) hwork
    dsimp only
    rw [hres₂, hsess₂]
    refine ⟨hwork₂, ?_⟩
    rw [hcom] at hcom₂ ⊢
    cases he : engine.exec c s.committed with
    | none =>
      rw [he] at hcom₂
      refine .inl ⟨fun h => ?_, hcom₂⟩
      exact absurd (Except.ok.inj h) (by decide)
    | some db' =>
      rw [he] at hcom₂
      refine .inr ⟨rfl, ?_⟩
      show Sets env call id s.committed s₂.committed
      rw [hcom₂]
      exact sets_change hacc hexact hc he

end

/-- On every file `myfs_getattr` reports what was last asked for, or else what it reported in
the store `db` at the start. -/
def Reported (env : Env) (db : Database) (s : Conn Unit) (done : List Done) : Prop :=
  ∀ path id, db.resolve (strtok (path.drop 1)) = some id → ∃ st₀ st,
    (Sql.run engine () (myfsGetattr env path) noFailure (Session.idle db : Conn Unit)).result
      = .ok ⟨0, some st₀⟩ ∧
    (Sql.run engine () (myfsGetattr env path) noFailure s).result = .ok ⟨0, some st⟩ ∧
    ∀ a, st.attribute a = (lastAsked done id a).getD (st₀.attribute a)

/-- A call of `myfs_chown` or `myfs_chmod` on the root is refused and changes nothing. -/
def RootRefused (env : Env) (s : Conn Unit) : Prop :=
  ∀ call : AttributeCall, call.Targets s.visible 0 → (∀ a m, call.op ≠ .utimens a m) →
    (Sql.run engine () (call.prog env) noFailure s).result = .ok (-eperm) ∧
    (Sql.run engine () (call.prog env) noFailure s).sess.visible = s.visible

/-- What a run has done to the rows. -/
structure Recorded (env : Env) (db : Database) (s : Conn Unit) (done : List Done) : Prop where
  working : s.working = none
  sameTree : SameTree db s.committed
  next : s.committed.files.next = db.files.next
  value : ∀ {id r r'}, db.files.row id = some r → s.committed.files.row id = some r' → ∀ a,
    r'.attribute env a = (lastAsked done id a).getD (r.attribute env a)

theorem recorded_of_run (hacc : Accounts env) (htree : db.Tree) (hnext : db.files.next ≤ uintRange)
    {s : Conn Unit} {done : List Done}
    (h : AttributeRun env (fun v call id => call.Exact env v id) db s done) :
    Recorded env db s done := by
  induction h with
  | start =>
    refine ⟨rfl, fun _ => rfl, rfl, fun hr hr' a => ?_⟩
    rw [Option.some.inj (hr.symm.trans hr')]
    rfl
  | @call s done call id _ ht hexact ih =>
    rw [Session.visible_of_none ih.working] at ht hexact
    have htree' := ih.sameTree.tree htree
    have hnext' : s.committed.files.next ≤ uintRange := ih.next ▸ hnext
    obtain ⟨hwork, ⟨hres, hcom⟩ | ⟨hres, hsets⟩⟩ :=
      run_attributeCall_cases ih.working htree' hnext' ht hacc hexact
    · rw [if_neg hres]
      refine ⟨hwork, by rw [hcom]; exact ih.sameTree, by rw [hcom]; exact ih.next, ?_⟩
      rw [hcom]
      exact ih.value
    · rw [if_pos hres]
      refine ⟨hwork, fun x => (hsets.sameTree x).trans (ih.sameTree x), hsets.next.trans ih.next, ?_⟩
      intro x r r' hr hr' a
      obtain ⟨r₁, hr₁, -⟩ := ih.sameTree.exists_row hr
      rw [hsets.value hr₁ hr' a, ih.value hr hr₁ a, lastAsked_append]
      split
      · cases call.op.asks call.now a <;> rfl
      · rfl

/-- What `myfs_getattr` reports of a file. -/
theorem run_myfsGetattr (env : Env) {s : Conn Unit} (htree : s.visible.Tree)
    (hnext : s.visible.files.next ≤ uintRange) {path : List Byte}
    (hres : s.visible.resolve (strtok (path.drop 1)) = some id) :
    ∃ r st, s.visible.files.row id = some r ∧
      (Sql.run engine () (myfsGetattr env path) noFailure s).result = .ok ⟨0, some st⟩ ∧
      ∀ a, st.attribute a = r.attribute env a := by
  obtain ⟨file, heval, hfile⟩ := eval_myfsFileGet_some env htree hnext hres
  obtain ⟨r, parent, hr, rfl⟩ := hfile.exists_row
  refine ⟨r, (fileOfRow env id r parent).st, hr, ?_, attribute_fileOfRow env id r parent⟩
  rw [run_readOnly_noFailure engine ()]
  · rw [myfsGetattr, Program.ReadOnly.eval_andThen engine (readOnly_myfsFileGet _ _ _)
      (congrArg Prod.fst heval)]
    rfl
  · refine (readOnly_myfsFileGet env path false).andThen fun file => ?_
    cases file <;> exact .ret _

/-- After every run of exact calls every attribute is reported as it was last set. -/
theorem reported_of_run (hacc : Accounts env) (hv : db.Valid) (htree : db.Tree)
    {s : Conn Unit} {done : List Done}
    (h : AttributeRun env (fun v call id => call.Exact env v id) db s done) :
    Reported env db s done ∧ RootRefused env s := by
  have hrec := recorded_of_run hacc htree hv.filesNextLe h
  have htree' := hrec.sameTree.tree htree
  have hnext' : s.committed.files.next ≤ uintRange := hrec.next ▸ hv.filesNextLe
  have hvis := Session.visible_of_none hrec.working
  refine ⟨fun path id hres => ?_, fun call ht hop => ?_⟩
  · obtain ⟨r₀, st₀, hr₀, hres₀, hst₀⟩ := run_myfsGetattr env (s := Session.idle db) htree
      hv.filesNextLe hres
    rw [← hrec.sameTree.resolve_eq htree] at hres
    obtain ⟨r, st, hr, hres, hst⟩ := run_myfsGetattr env (s := s) (by rw [hvis]; exact htree')
      (by rw [hvis]; exact hnext') (by rw [hvis]; exact hres)
    refine ⟨st₀, st, hres₀, hres, fun a => ?_⟩
    rw [hvis] at hr
    rw [hst, hst₀, hrec.value hr₀ hr]
  · rw [hvis] at ht
    have hc : call.op.change env 0 = .error eperm := by
      cases hcall : call.op with
      | chown uid gid => rfl
      | chmod mode => rfl
      | utimens a m => exact absurd hcall (hop a m)
    obtain ⟨hres, hcom, hwork⟩ := run_attributeCall_error hrec.working htree' hnext' ht hc
    exact ⟨hres, by rw [Session.visible_of_none hwork, hcom, hvis]⟩

/-! ## A time that is left as it is -/

/-- The root, last accessed at 5. -/
def accessedStore : Database := rootStore { rootRow with lastAccessedOn := 5 } 0

theorem hierarchy_accessedStore : accessedStore.Hierarchy := hierarchy_rootStore rfl rfl rfl

theorem accounts_nobody : Accounts nobody where
  userId := nofun
  groupId := nofun
  userLe := nofun
  groupLe := nofun
  userError h := by cases h; decide
  groupError h := by cases h; decide

/-- A call on the root, made with the time 100. -/
def utimensRoot (atime mtime : Timespec) : AttributeCall :=
  ⟨.utimens atime mtime, [slash], none, fun _ => none, 100⟩

theorem reported_of_run_utimens :
    Reported nobody accessedStore
        (Sql.run engine () ((utimensRoot ⟨100, utimeNow⟩ ⟨9, 0⟩).prog nobody) noFailure
          (Session.idle accessedStore : Conn Unit)).sess
        [⟨utimensRoot ⟨100, utimeNow⟩ ⟨9, 0⟩, 0⟩] ∧
      RootRefused nobody
        (Sql.run engine () ((utimensRoot ⟨100, utimeNow⟩ ⟨9, 0⟩).prog nobody) noFailure
          (Session.idle accessedStore : Conn Unit)).sess := by
  have hnow : utimeNow ≠ utimeOmit := by decide
  have hexact : (utimensRoot ⟨100, utimeNow⟩ ⟨9, 0⟩).Exact nobody accessedStore 0 :=
    fun r _ => ⟨⟨fun h => absurd h hnow, fun _ => rfl⟩, ⟨nofun, nofun⟩⟩
  exact reported_of_run accounts_nobody hierarchy_accessedStore.valid hierarchy_accessedStore.tree
    (.call .start rfl hexact)

/-- The access time is to be left as it is, and is set to 0. -/
theorem omitted_time_set :
    ¬∀ (env : Env) (db : Database) (s : Conn Unit) (done : List Done), Accounts env → db.Valid →
      db.Tree → AttributeRun env (fun _ _ _ => True) db s done → Reported env db s done := by
  intro hall
  have ht : (utimensRoot ⟨0, utimeOmit⟩ ⟨9, 0⟩).Targets accessedStore 0 := rfl
  have hrun : AttributeRun nobody (fun _ _ _ => True) accessedStore _ _ := .call .start ht trivial
  obtain ⟨st₀, st, hst₀, hst, hvalue⟩ := hall _ _ _ _ accounts_nobody hierarchy_accessedStore.valid
    hierarchy_accessedStore.tree hrun [slash] 0 rfl
  have accessed : ∀ {r : Except Fault Attributes} {st : Stat}, r = .ok ⟨0, some st⟩ →
      (r.toOption.bind Attributes.st).map (fun st => st.attribute .accessTime)
        = some (st.attribute .accessTime) := by
    intro r st hr
    rw [hr]
    rfl
  have h₀ : some 5 = some (st₀.attribute .accessTime) := accessed hst₀
  have h₁ : some 0 = some (st.attribute .accessTime) := accessed hst
  have h : st.attribute .accessTime = st₀.attribute .accessTime := hvalue .accessTime
  rw [← Option.some.inj h₀, ← Option.some.inj h₁] at h
  exact absurd h (by decide)

end MyFS
