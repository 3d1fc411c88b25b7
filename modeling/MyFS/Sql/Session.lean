import MyFS.Sql.Program

/-!
# One connection and its transactions

A `Session` is what the server keeps for one connection: the committed state and, while a
transaction is open, the state with the transaction's own changes. Every change carries
its author, so that the `log` says whose changes have become durable.

`Session.handle` answers one request; it may be told to fail the statement, and a failed
statement has no effect. `START TRANSACTION` commits a transaction that is still open.
`run` executes a whole program under a pattern of failures and records the statements
it sent. The spec of a transaction body is `Body.run_spec`: until its first failure it
does what `Program.eval` says, and it touches nothing but the open transaction.
-/

namespace Sql

variable {Q C S T α ε : Type} {A : Q → Type}

/-- The uncommitted side of a session. -/
structure Pending (S C T : Type) where
  state : S
  log : List (T × C)

structure Session (S C T : Type) where
  committed : S
  log : List (T × C)
  working : Option (Pending S C T)
  insertId : ℕ

namespace Session

/-- A connection with no transaction open, on a given database. -/
def idle (s : S) : Session S C T := ⟨s, [], none, 0⟩

/-- What the connection reads. -/
def visible (s : Session S C T) : S :=
  match s.working with
  | some w => w.state
  | none => s.committed

/-- The changes of the open transaction. -/
def pending (s : Session S C T) : List (T × C) :=
  match s.working with
  | some w => w.log
  | none => []

def startTransaction (s : Session S C T) : Session S C T :=
  ⟨s.visible, s.log ++ s.pending, some ⟨s.visible, []⟩, 0⟩

def commit (s : Session S C T) : Session S C T := ⟨s.visible, s.log ++ s.pending, none, 0⟩

def rollback (s : Session S C T) : Session S C T := ⟨s.committed, s.log, none, 0⟩

/-- Make a change, in the open transaction or else at once. -/
def change (E : Engine Q A C S) (who : T) (c : C) (s : Session S C T) :
    Option (Session S C T) :=
  (E.exec c s.visible).map fun v =>
    match s.working with
    | some w => ⟨s.committed, s.log, some ⟨v, w.log ++ [(who, c)]⟩, E.newId c s.visible⟩
    | none => ⟨v, s.log ++ [(who, c)], none, E.newId c s.visible⟩

/-- Forget the key that the last statement generated. -/
def clearId (s : Session S C T) : Session S C T := { s with insertId := 0 }

/-- Answer one request of the client `who`; with `fail` the statement fails. -/
def handle (E : Engine Q A C S) (who : T) (fail : Bool) :
    (r : Request Q C) → Session S C T → Reply A r × Session S C T
  | .insertId, s => (s.insertId, s)
  | .query q, s => if fail then (none, s.clearId) else (some (E.ask q s.visible), s.clearId)
  | .change c, s =>
    if fail then (false, s.clearId)
    else match s.change E who c with
      | some s' => (true, s')
      | none => (false, s.clearId)
  | .startTransaction, s => if fail then (false, s.clearId) else (true, s.startTransaction)
  | .commit, s => if fail then (false, s.clearId) else (true, s.commit)
  | .rollback, s => if fail then (false, s.clearId) else (true, s.rollback)

@[simp] theorem committed_idle (s : S) : (idle s : Session S C T).committed = s := rfl
@[simp] theorem log_idle (s : S) : (idle s : Session S C T).log = [] := rfl
@[simp] theorem working_idle (s : S) : (idle s : Session S C T).working = none := rfl
@[simp] theorem visible_idle (s : S) : (idle s : Session S C T).visible = s := rfl

@[simp] theorem committed_clearId (s : Session S C T) : s.clearId.committed = s.committed := rfl
@[simp] theorem log_clearId (s : Session S C T) : s.clearId.log = s.log := rfl
@[simp] theorem working_clearId (s : Session S C T) : s.clearId.working = s.working := rfl
@[simp] theorem visible_clearId (s : Session S C T) : s.clearId.visible = s.visible := rfl
@[simp] theorem pending_clearId (s : Session S C T) : s.clearId.pending = s.pending := rfl

theorem visible_of_some {s : Session S C T} {w : Pending S C T} (h : s.working = some w) :
    s.visible = w.state := by
  rw [visible, h]

theorem visible_of_none {s : Session S C T} (h : s.working = none) : s.visible = s.committed := by
  rw [visible, h]

theorem pending_of_some {s : Session S C T} {w : Pending S C T} (h : s.working = some w) :
    s.pending = w.log := by
  rw [pending, h]

theorem pending_of_none {s : Session S C T} (h : s.working = none) : s.pending = [] := by
  rw [pending, h]

/-- The committed side does not move while a transaction makes its changes. -/
theorem change_of_open {E : Engine Q A C S} {who : T} {c : C} {s s' : Session S C T}
    {w : Pending S C T} (hw : s.working = some w) (h : s.change E who c = some s') :
    ∃ v, E.exec c w.state = some v ∧ s'.committed = s.committed ∧ s'.log = s.log ∧
      s'.working = some ⟨v, w.log ++ [(who, c)]⟩ := by
  rw [change, visible_of_some hw, hw, Option.map_eq_some_iff] at h
  obtain ⟨v, hv, rfl⟩ := h
  exact ⟨v, hv, rfl, rfl, rfl⟩

theorem change_of_closed {E : Engine Q A C S} {who : T} {c : C} {s s' : Session S C T}
    (hw : s.working = none) (h : s.change E who c = some s') :
    ∃ v, E.exec c s.committed = some v ∧ s'.committed = v ∧ s'.log = s.log ++ [(who, c)] ∧
      s'.working = none := by
  rw [change, visible_of_none hw, hw, Option.map_eq_some_iff] at h
  obtain ⟨v, hv, rfl⟩ := h
  exact ⟨v, hv, rfl, rfl, rfl⟩

/-- A change acts on what the connection reads. -/
theorem visible_change {E : Engine Q A C S} {who : T} {c : C} {s s' : Session S C T}
    (h : s.change E who c = some s') :
    E.exec c s.visible = some s'.visible ∧
      (s'.committed = s.committed ∨ s'.committed = s'.visible) := by
  cases hw : s.working with
  | some w =>
    obtain ⟨v, hv, hcom, -, hwork⟩ := change_of_open hw h
    rw [visible_of_some hw, visible_of_some hwork]
    exact ⟨hv, .inl hcom⟩
  | none =>
    obtain ⟨v, hv, hcom, -, hwork⟩ := change_of_closed hw h
    rw [visible_of_none hw, visible_of_none hwork, hcom]
    exact ⟨hv, .inr rfl⟩

end Session

/-! ## Running a program on a session -/

/-- A statement that was sent, and whether it succeeded. -/
structure Event (Q C : Type) where
  request : Request Q C
  ok : Bool

/-- The changes among a list of events that succeeded. -/
def changesOf : List (Event Q C) → List C
  | [] => []
  | ⟨.change c, true⟩ :: t => c :: changesOf t
  | _ :: t => changesOf t

/-- No statement of a trace has failed. -/
def AllOk (trace : List (Event Q C)) : Prop := ∀ ev ∈ trace, ev.ok = true

instance (trace : List (Event Q C)) : Decidable (AllOk trace) :=
  inferInstanceAs (Decidable (∀ ev ∈ trace, ev.ok = true))

/-- A finished run: what the program returned, the session it left, and what it sent. -/
structure Outcome (α Q C S T : Type) where
  result : α
  sess : Session S C T
  trace : List (Event Q C)

/-- A pattern of failures: `fails n r` says whether `r` fails as the `n`-th request. -/
abbrev Failures (Q C : Type) := ℕ → Request Q C → Bool

/-- Run a program under a pattern of failures. -/
def run (E : Engine Q A C S) (who : T) :
    Program Q A C α → Failures Q C → Session S C T → Outcome α Q C S T
  | .ret a, _, s => ⟨a, s, []⟩
  | .call r k, fails, s =>
    let (x, s') := s.handle E who (fails 0 r) r
    let o := run E who (k x) (fun n => fails (n + 1)) s'
    ⟨o.result, o.sess, ⟨r, Reply.ok r x⟩ :: o.trace⟩

/-- The failure pattern in which every statement reaches the server and is executed. -/
def noFailure : Failures Q C := fun _ _ => false

@[simp] theorem noFailure_apply (n : ℕ) (r : Request Q C) : noFailure n r = false := rfl

variable (E : Engine Q A C S) (who : T)

@[simp] theorem run_ret (a : α) (fails : Failures Q C) (s : Session S C T) :
    run E who (.ret a : Program Q A C α) fails s = ⟨a, s, []⟩ := rfl

theorem run_call (r : Request Q C) (k : Reply A r → Program Q A C α) (fails : Failures Q C)
    (s : Session S C T) :
    run E who (.call r k) fails s =
      let x := s.handle E who (fails 0 r) r
      let o := run E who (k x.1) (fun n => fails (n + 1)) x.2
      ⟨o.result, o.sess, ⟨r, Reply.ok r x.1⟩ :: o.trace⟩ := rfl

/-- A sequence is run by running its first part, then the second where the first left
the failures and the session. -/
theorem run_bind {β : Type} (p : Program Q A C α) (f : α → Program Q A C β)
    (fails : Failures Q C) (s : Session S C T) :
    run E who (p >>= f) fails s =
      let b := run E who p fails s
      let o := run E who (f b.result) (fun n => fails (n + b.trace.length)) b.sess
      ⟨o.result, o.sess, b.trace ++ o.trace⟩ := by
  induction p generalizing fails s with
  | ret a => rfl
  | call r k ih =>
    rw [Program.call_bind, run_call, run_call]
    simp only [ih, List.length_cons, List.cons_append]
    rfl

/-- A program whose reply depends on whether another one has succeeded. -/
theorem run_bind_ite {β : Type} (p : Program Q A C Bool) (x y : β) (fails : Failures Q C)
    (s : Session S C T) :
    run E who (p >>= fun success => if success then .ret x else .ret y) fails s =
      let b := run E who p fails s
      ⟨if b.result then x else y, b.sess, b.trace⟩ := by
  rw [run_bind]
  dsimp only
  cases (run E who p fails s).result <;> simp

theorem run_query {q : Q} (k : Option (A q) → Program Q A C α) (fails : Failures Q C)
    (s : Session S C T) :
    run E who (.call (.query q) k) fails s =
      let x := if fails 0 (.query q) then none else some (E.ask q s.visible)
      let o := run E who (k x) (fun n => fails (n + 1)) s.clearId
      ⟨o.result, o.sess, ⟨.query q, x.isSome⟩ :: o.trace⟩ := by
  rw [run_call, Session.handle]
  cases fails 0 (.query q) <;> rfl

/-- A change is rejected when the statement fails or the engine refuses it. -/
theorem run_change_false {c : C} (k : Bool → Program Q A C α) {fails : Failures Q C}
    {s : Session S C T} (h : fails 0 (.change c) = true ∨ E.exec c s.visible = none) :
    run E who (.call (.change c) k) fails s =
      let o := run E who (k false) (fun n => fails (n + 1)) s.clearId
      ⟨o.result, o.sess, ⟨.change c, false⟩ :: o.trace⟩ := by
  rw [run_call, Session.handle]
  cases hf : fails 0 (.change c) with
  | true => rfl
  | false =>
    rw [hf] at h
    rw [Session.change, h.resolve_left Bool.false_ne_true]
    rfl

theorem run_change_true {c : C} (k : Bool → Program Q A C α) {fails : Failures Q C}
    {s s' : Session S C T} (hf : fails 0 (.change c) = false) (h : s.change E who c = some s') :
    run E who (.call (.change c) k) fails s =
      let o := run E who (k true) (fun n => fails (n + 1)) s'
      ⟨o.result, o.sess, ⟨.change c, true⟩ :: o.trace⟩ := by
  rw [run_call, Session.handle, hf, h]
  rfl

/-- Reading leaves everything as it is, and reads what is there unless a statement fails. -/
theorem run_readOnly {p : Program Q A C α} (hp : p.ReadOnly) (fails : Failures Q C)
    (s : Session S C T) :
    let o := run E who p fails s
    o.sess.committed = s.committed ∧ o.sess.log = s.log ∧ o.sess.working = s.working ∧
      ((∃ e ∈ o.trace, e.ok = false) ∨ o.result = (p.eval E s.visible).1) := by
  induction hp generalizing fails s with
  | ret a => exact ⟨rfl, rfl, rfl, .inr rfl⟩
  | query q k _ ih =>
    rw [run_query]
    obtain ⟨hcom, hlog, hwork, hres⟩ :=
      ih (if fails 0 (.query q) then none else some (E.ask q s.visible)) (fun n => fails (n + 1))
        s.clearId
    refine ⟨hcom, hlog, hwork, ?_⟩
    cases hf : fails 0 (.query q) with
    | true => exact .inl ⟨_, List.mem_cons_self, rfl⟩
    | false =>
      rw [hf] at hres
      exact hres.imp_left fun ⟨e, he, hok⟩ => ⟨e, List.mem_cons_of_mem _ he, hok⟩

theorem run_readOnly_noFailure {p : Program Q A C α} (hp : p.ReadOnly) (s : Session S C T) :
    (run E who p noFailure s).result = (p.eval E s.visible).1 := by
  induction hp generalizing s with
  | ret a => rfl
  | query q k _ ih =>
    rw [run_query]
    exact ih _ s.clearId

theorem run_ensures {R : α → Prop} {p : Program Q A C α} {s : Session S C T}
    (hp : p.Ensures E s.visible R) (fails : Failures Q C) : R (run E who p fails s).result := by
  induction p generalizing fails s with
  | ret a => exact hp
  | call r k ih =>
    cases r with
    | query q =>
      rw [run_query]
      cases fails 0 (.query q) with
      | true => exact ih none (s := s.clearId) hp.1 _
      | false => exact ih (some (E.ask q s.visible)) (s := s.clearId) hp.2 _
    | startTransaction | commit | rollback | change | insertId => exact hp.elim

/-- What comes after a step that only reads is run on the same state, if it is run at all, with what
the step ensures whatever fails. -/
theorem run_ensures_andThen {β : Type} {R : α → Prop} {p : Program Q A C (Except ε α)}
    (hp : p.ReadOnly) (f : α → Program Q A C (Except ε β)) (fails : Failures Q C)
    {s : Session S C T} (hR : p.Ensures E s.visible fun r => ∀ a, r = .ok a → R a) :
    (∃ e, (run E who (p.andThen f) fails s).result = .error e ∧
      (run E who (p.andThen f) fails s).sess.committed = s.committed ∧
      (run E who (p.andThen f) fails s).sess.working = s.working) ∨
    ∃ (a : α) (fails' : Failures Q C) (s₁ : Session S C T), R a ∧
      s₁.committed = s.committed ∧ s₁.working = s.working ∧
      (run E who (p.andThen f) fails s).result = (run E who (f a) fails' s₁).result ∧
      (run E who (p.andThen f) fails s).sess = (run E who (f a) fails' s₁).sess := by
  obtain ⟨hcom, -, hwork, -⟩ := run_readOnly E who hp fails s
  have hres := run_ensures E who hR fails
  rw [Program.andThen, run_bind]
  dsimp only
  cases hr : (run E who p fails s).result with
  | error e => exact .inl ⟨e, rfl, hcom, hwork⟩
  | ok a => exact .inr ⟨a, _, _, hres a hr, hcom, hwork, rfl, rfl⟩

/-- What a program can return it does return under some failures, and what comes after it goes on
from there under any others. -/
theorem run_can_bind {β : Type} {p : Program Q A C α} {a : α} {s : Session S C T}
    (hp : p.Can E s.visible a) (f : α → Program Q A C β) :
    ∃ s₁ : Session S C T, s₁.committed = s.committed ∧ s₁.working = s.working ∧
      ∀ rest : Failures Q C, ∃ fails : Failures Q C,
        (run E who (p >>= f) fails s).result = (run E who (f a) rest s₁).result ∧
        (run E who (p >>= f) fails s).sess = (run E who (f a) rest s₁).sess ∧
        ∀ ev ∈ (run E who (f a) rest s₁).trace, ev ∈ (run E who (p >>= f) fails s).trace := by
  induction p generalizing s with
  | ret b =>
    obtain rfl : b = a := hp
    exact ⟨s, rfl, rfl, fun rest => ⟨rest, rfl, rfl, fun _ h => h⟩⟩
  | call r k ih =>
    cases r with
    | query q =>
      -- the query fails or not, and then those of the rest do as they have to
      rcases hp with hfail | hask
      · obtain ⟨s₁, hcom, hwork, hrest⟩ := ih none (s := s.clearId) hfail
        refine ⟨s₁, hcom, hwork, fun rest => ?_⟩
        obtain ⟨fails, hres, hsess, htrace⟩ := hrest rest
        refine ⟨fun n r => match n with | 0 => true | n + 1 => fails n r, ?_⟩
        rw [Program.call_bind, run_query]
        exact ⟨hres, hsess, fun ev hev => List.mem_cons_of_mem _ (htrace ev hev)⟩
      · obtain ⟨s₁, hcom, hwork, hrest⟩ :=
          ih (some (E.ask q s.visible)) (s := s.clearId) hask
        refine ⟨s₁, hcom, hwork, fun rest => ?_⟩
        obtain ⟨fails, hres, hsess, htrace⟩ := hrest rest
        refine ⟨fun n r => match n with | 0 => false | n + 1 => fails n r, ?_⟩
        rw [Program.call_bind, run_query]
        exact ⟨hres, hsess, fun ev hev => List.mem_cons_of_mem _ (htrace ev hev)⟩
    | startTransaction | commit | rollback | change | insertId => exact hp.elim

/-- After a step that reads, with only the queries in `may` failing: what it yields, the rest of the
run, and whether a statement has failed in one of the two. -/
theorem run_yields_bind {β : Type} {may : Q → Prop} {R : Bool → α → Prop} {p : Program Q A C α}
    {s : Session S C T} (hp : p.Yields E s.visible may R true) (f : α → Program Q A C β)
    {fails : Failures Q C} (hfails : ∀ n q, fails n (.query q) = true → may q) :
    ∃ (ok : Bool) (a : α) (rest : Failures Q C) (s₁ : Session S C T), R ok a ∧
      s₁.committed = s.committed ∧ s₁.working = s.working ∧
      (∀ n r, rest n r = true → ∃ m, fails m r = true) ∧
      (run E who (p >>= f) fails s).result = (run E who (f a) rest s₁).result ∧
      (run E who (p >>= f) fails s).sess = (run E who (f a) rest s₁).sess ∧
      (AllOk (run E who (p >>= f) fails s).trace ↔
        ok = true ∧ AllOk (run E who (f a) rest s₁).trace) := by
  suffices h : ∀ {ok₀ : Bool}, p.Yields E s.visible may R ok₀ →
      ∃ (ok : Bool) (a : α) (rest : Failures Q C) (s₁ : Session S C T), R ok a ∧
        s₁.committed = s.committed ∧ s₁.working = s.working ∧
        (∀ n r, rest n r = true → ∃ m, fails m r = true) ∧
        (run E who (p >>= f) fails s).result = (run E who (f a) rest s₁).result ∧
        (run E who (p >>= f) fails s).sess = (run E who (f a) rest s₁).sess ∧
        (ok₀ = true ∧ AllOk (run E who (p >>= f) fails s).trace ↔
          ok = true ∧ AllOk (run E who (f a) rest s₁).trace) by
    simpa using h hp
  clear hp
  intro ok₀ hp
  induction p generalizing fails s ok₀ with
  | ret a => exact ⟨ok₀, a, fails, s, hp, rfl, rfl, fun n _ h => ⟨n, h⟩, rfl, rfl, Iff.rfl⟩
  | call r k ih =>
    cases r with
    | query q =>
      rw [Program.call_bind, run_query]
      have hrest : ∀ n q', fails (n + 1) (.query q') = true → may q' := fun n => hfails (n + 1)
      cases hfail : fails 0 (.query q) with
      | true =>
        obtain ⟨ok, a, rest, s₁, hR, hcom, hwork, hback, hres, hsess, hok⟩ :=
          ih none (s := s.clearId) hrest (hp.1 (hfails 0 q hfail))
        refine ⟨ok, a, rest, s₁, hR, hcom, hwork, ?_, hres, hsess, ?_⟩
        · intro n r h
          obtain ⟨m, hm⟩ := hback n r h
          exact ⟨m + 1, hm⟩
        · rw [← hok]
          simp [AllOk]
      | false =>
        obtain ⟨ok, a, rest, s₁, hR, hcom, hwork, hback, hres, hsess, hok⟩ :=
          ih (some (E.ask q s.visible)) (s := s.clearId) hrest hp.2
        refine ⟨ok, a, rest, s₁, hR, hcom, hwork, ?_, hres, hsess, ?_⟩
        · intro n r h
          obtain ⟨m, hm⟩ := hback n r h
          exact ⟨m + 1, hm⟩
        · rw [← hok]
          simp [AllOk]
    | startTransaction | commit | rollback | change | insertId => exact hp.elim

/-- The same for a step that gives up in no case. -/
theorem run_yields_andThen {β : Type} {may : Q → Prop} {R : Bool → α → Prop}
    {p : Program Q A C (Except ε α)} {s : Session S C T}
    (hp : p.Yields E s.visible may (fun ok r => ∃ a, r = .ok a ∧ R ok a) true)
    (f : α → Program Q A C (Except ε β)) {fails : Failures Q C}
    (hfails : ∀ n q, fails n (.query q) = true → may q) :
    ∃ (ok : Bool) (a : α) (rest : Failures Q C) (s₁ : Session S C T), R ok a ∧
      s₁.committed = s.committed ∧ s₁.working = s.working ∧
      (∀ n r, rest n r = true → ∃ m, fails m r = true) ∧
      (run E who (p.andThen f) fails s).result = (run E who (f a) rest s₁).result ∧
      (run E who (p.andThen f) fails s).sess = (run E who (f a) rest s₁).sess ∧
      (AllOk (run E who (p.andThen f) fails s).trace ↔
        ok = true ∧ AllOk (run E who (f a) rest s₁).trace) := by
  rw [Program.andThen]
  obtain ⟨ok, _, rest, s₁, ⟨a, rfl, hR⟩, hrun⟩ := run_yields_bind E who hp _ hfails
  exact ⟨ok, a, rest, s₁, hR, hrun⟩

/-- Failures of statements in `may`, at least one of which comes, can make a run from `s` end with
`a`. -/
def FailsWith (may : Request Q C → Bool) (p : Program Q A C α) (s : Session S C T) (a : α) : Prop :=
  ∃ fails : Failures Q C, (∀ n r, fails n r = true → may r = true) ∧
    (run E who p fails s).result = a ∧ ¬AllOk (run E who p fails s).trace

section FailsWith

variable {may : Request Q C → Bool} {s : Session S C T} {a : α} {q : Q}
  {k : Option (A q) → Program Q A C α}

/-- The first query fails. -/
theorem failsWith_query_none (hmay : may (.query q) = true) (hk : k none = .ret a) :
    FailsWith E who may (.call (.query q) k) s a := by
  refine ⟨fun n r => n == 0 && may r, fun n r h => (Bool.and_eq_true_iff.mp h).2, ?_⟩
  rw [run_query]
  simp only [beq_self_eq_true, Bool.true_and, hmay, if_true, hk, run_ret]
  exact ⟨trivial, by simp [AllOk]⟩

/-- The first query is answered, and a later one fails. -/
theorem failsWith_query_some (h : FailsWith E who may (k (some (E.ask q s.visible))) s.clearId a) :
    FailsWith E who may (.call (.query q) k) s a := by
  obtain ⟨fails, hmay, hres, hfailed⟩ := h
  -- the failures of the rest, one query later
  refine ⟨fun n r => match n with | 0 => false | n + 1 => fails n r, ?_, ?_⟩
  · intro n r h
    cases n with
    | zero => cases h
    | succ n => exact hmay n r h
  · rw [run_query]
    exact ⟨hres, fun hall => hfailed fun ev hev => hall ev (List.mem_cons_of_mem _ hev)⟩

/-- Failures can come after a step that reads, and none in it. -/
theorem failsWith_andThen {β : Type} {p : Program Q A C (Except ε α)} (hp : p.ReadOnly)
    {f : α → Program Q A C (Except ε β)} {b : Except ε β}
    (heval : (p.eval E s.visible).1 = .ok a)
    (h : ∀ s₁ : Session S C T, s₁.committed = s.committed → s₁.working = s.working →
      FailsWith E who may (f a) s₁ b) :
    FailsWith E who may (p.andThen f) s b := by
  induction hp generalizing s with
  | ret r =>
    obtain rfl : r = .ok a := heval
    exact h s rfl rfl
  | query q k _ ih =>
    rw [Program.call_andThen]
    apply failsWith_query_some
    exact ih (some (E.ask q s.visible)) (s := s.clearId) heval h

end FailsWith

/-- With nothing failing, what comes after a step that reads is run where that step began. -/
theorem run_readOnly_andThen {β : Type} {p : Program Q A C (Except ε α)} (hp : p.ReadOnly)
    (f : α → Program Q A C (Except ε β)) (s : Session S C T) {a : α}
    (h : (p.eval E s.visible).1 = .ok a) :
    ∃ s₁ : Session S C T, s₁.committed = s.committed ∧ s₁.working = s.working ∧
      (run E who (p.andThen f) noFailure s).result = (run E who (f a) noFailure s₁).result ∧
      (run E who (p.andThen f) noFailure s).sess = (run E who (f a) noFailure s₁).sess := by
  obtain ⟨hcom, -, hwork, -⟩ := run_readOnly E who hp noFailure s
  have hres := run_readOnly_noFailure E who hp s
  rw [h] at hres
  refine ⟨(run E who p noFailure s).sess, hcom, hwork, ?_⟩
  rw [Program.andThen, run_bind]
  dsimp only
  rw [hres]
  exact ⟨rfl, rfl⟩

/-- Outside of a transaction a change is made at once, or rejected. -/
theorem run_change_noFailure (c : C) (k : Bool → Program Q A C α) {s : Session S C T}
    (hs : s.working = none) :
    ∃ s₁ : Session S C T, s₁.working = none ∧
      s₁.committed = (E.exec c s.committed).getD s.committed ∧
      (run E who (.call (.change c) k) noFailure s).result =
        (run E who (k (E.exec c s.committed).isSome) noFailure s₁).result ∧
      (run E who (.call (.change c) k) noFailure s).sess =
        (run E who (k (E.exec c s.committed).isSome) noFailure s₁).sess := by
  cases he : E.exec c s.committed with
  | none =>
    refine ⟨s.clearId, hs, rfl, ?_⟩
    rw [run_change_false E who k (.inr (by rw [Session.visible_of_none hs, he]))]
    exact ⟨rfl, rfl⟩
  | some v =>
    obtain ⟨s', hs'⟩ : ∃ s', s.change E who c = some s' := by
      rw [Session.change, Session.visible_of_none hs, he]
      exact ⟨_, rfl⟩
    obtain ⟨v', hv', hcom, -, hwork⟩ := Session.change_of_closed hs hs'
    rw [he, Option.some.injEq] at hv'
    refine ⟨s', hwork, hcom.trans hv'.symm, ?_⟩
    rw [run_change_true E who k rfl hs']
    exact ⟨rfl, rfl⟩

/-! ## Bodies run inside their transaction -/

/-- What a transaction body does to a session in which its transaction is open. Either it
stopped with `e` at a failed statement, or it did exactly what `Program.eval` says. -/
structure RanInside (e : ε) (p : Program Q A C (Except ε α)) (s : Session S C T)
    (w : Pending S C T) (o : Outcome (Except ε α) Q C S T) : Prop where
  committed : o.sess.committed = s.committed
  log : o.sess.log = s.log
  working : ∃ v, o.sess.working = some ⟨v, w.log ++ (changesOf o.trace).map (who, ·)⟩ ∧
    ∀ a, o.result = .ok a → p.eval E w.state = (.ok a, v)
  inside : ∀ ev ∈ o.trace, ev.request ≠ .commit ∧ ev.request ≠ .rollback
  failed : o.result = .error e → ∃ ev ∈ o.trace, ev.ok = false
  stopped : o.result = .error e ∨ (p.eval E w.state).1 = o.result

theorem Body.run_spec {e : ε} {p : Program Q A C (Except ε α)} (hp : Body e p)
    (fails : Failures Q C) {s : Session S C T} {w : Pending S C T} (hw : s.working = some w) :
    RanInside E who e p s w (run E who p fails s) := by
  induction hp generalizing fails s w with
  | ret r hr =>
    refine ⟨rfl, rfl, ⟨w.state, by simp [hw, changesOf], ?_⟩, by simp, fun h => absurd h hr,
      .inr rfl⟩
    intro a h
    exact Prod.ext h rfl
  | query q k hfail _ ih =>
    have hw' : s.clearId.working = some w := hw
    rw [run_query]
    cases hf : fails 0 (.query q) with
    | true =>
      refine ⟨?_, ?_, ⟨w.state, ?_, ?_⟩, ?_, fun _ => ⟨⟨.query q, false⟩, ?_⟩, .inl ?_⟩ <;>
        simp [hfail, hw, changesOf]
    | false =>
      have h := ih (E.ask q w.state) (fun n => fails (n + 1)) hw'
      rw [Session.visible_of_some hw]
      refine ⟨h.committed, h.log, h.working, ?_, fun he => ?_, h.stopped⟩
      · simpa using h.inside
      · obtain ⟨ev, hev, h0⟩ := h.failed he
        exact ⟨ev, List.mem_cons_of_mem _ hev, h0⟩
  | change c k hfail _ ih =>
    by_cases hc : fails 0 (.change c) = true ∨ E.exec c s.visible = none
    · rw [run_change_false E who k hc, hfail]
      refine ⟨?_, ?_, ⟨w.state, ?_, ?_⟩, ?_, fun _ => ⟨⟨.change c, false⟩, ?_⟩, .inl ?_⟩ <;>
        simp [hw, changesOf]
    · simp only [not_or, Bool.not_eq_true] at hc
      obtain ⟨hf, hv⟩ := hc
      obtain ⟨s', hs'⟩ : ∃ s', s.change E who c = some s' :=
        ⟨_, by rw [Session.change, Option.eq_some_of_isSome (Option.isSome_iff_ne_none.mpr hv)]
               rfl⟩
      obtain ⟨v, hv, hcom, hlog, hwork⟩ := Session.change_of_open hw hs'
      have h := ih (fun n => fails (n + 1)) hwork
      rw [run_change_true E who k hf hs']
      have heval : (Program.call (.change c) k : Program Q A C (Except ε α)).eval E w.state
          = (k true).eval E v := Program.eval_change_of_some E k hv
      obtain ⟨v', hv', hok⟩ := h.working
      refine ⟨h.committed.trans hcom, h.log.trans hlog, ⟨v', ?_, ?_⟩, ?_, fun he => ?_, ?_⟩
      · simpa [changesOf] using hv'
      · rw [heval]; exact hok
      · simpa using h.inside
      · obtain ⟨ev, hev, h0⟩ := h.failed he
        exact ⟨ev, List.mem_cons_of_mem _ hev, h0⟩
      · rw [heval]; exact h.stopped

/-! ## The log -/

@[simp] theorem changesOf_append (t t' : List (Event Q C)) :
    changesOf (t ++ t') = changesOf t ++ changesOf t' := by
  induction t with
  | nil => rfl
  | cons e t ih =>
    rcases e with ⟨_ | _ | _ | q | c | _, _ | _⟩ <;> simp [changesOf, ih]

/-- Make a list of changes, one after the other. -/
def replay (log : List (T × C)) (s : S) : Option S := log.foldlM (fun s e => E.exec e.2 s) s

theorem replay_append (log log' : List (T × C)) (s : S) :
    replay E (log ++ log') s = (replay E log s).bind (replay E log') := List.foldlM_append

/-- The log accounts for the committed state, and with the open transaction's changes for
what the connection reads. -/
structure Session.Accounts (s₀ : S) (s : Session S C T) : Prop where
  committed : replay E s.log s₀ = some s.committed
  visible : replay E (s.log ++ s.pending) s₀ = some s.visible

/-- With nothing uncommitted the two accounts are one. -/
theorem Session.Accounts.of_clean {s₀ : S} {s : Session S C T}
    (h : replay E s.log s₀ = some s.committed) (hp : s.pending = [])
    (hv : s.visible = s.committed) : Accounts E s₀ s :=
  ⟨h, by rw [hp, List.append_nil, hv, h]⟩

theorem Session.accounts_idle (s₀ : S) : Accounts E s₀ (Session.idle s₀ : Session S C T) :=
  ⟨rfl, rfl⟩

theorem Session.Accounts.change {s₀ : S} {s s' : Session S C T} {c : C} (h : Accounts E s₀ s)
    (hc : s.change E who c = some s') : Accounts E s₀ s' := by
  have step : ∀ v, E.exec c s.visible = some v →
      replay E (s.log ++ s.pending ++ [(who, c)]) s₀ = some v := by
    intro v hv
    rw [replay_append, h.visible]
    simpa [replay] using hv
  cases hw : s.working with
  | some w =>
    obtain ⟨v, hv, hcom, hlog, hwork⟩ := Session.change_of_open hw hc
    rw [← Session.visible_of_some hw] at hv
    refine ⟨by rw [hcom, hlog, h.committed], ?_⟩
    rw [hlog, Session.pending_of_some hwork, Session.visible_of_some hwork,
      ← Session.pending_of_some hw, ← List.append_assoc]
    exact step v hv
  | none =>
    obtain ⟨v, hv, hcom, hlog, hwork⟩ := Session.change_of_closed hw hc
    have hstep := step v (by rw [Session.visible_of_none hw]; exact hv)
    rw [Session.pending_of_none hw, List.append_nil, ← hlog, ← hcom] at hstep
    refine ⟨hstep, ?_⟩
    rw [Session.pending_of_none hwork, List.append_nil, Session.visible_of_none hwork]
    exact hstep

/-- Every request keeps the account. -/
theorem Session.Accounts.handle {s₀ : S} {s : Session S C T} (h : Accounts E s₀ s) (fail : Bool)
    (r : Request Q C) : Accounts E s₀ (s.handle E who fail r).2 := by
  have hclear : Accounts E s₀ s.clearId := ⟨h.committed, h.visible⟩
  cases r with
  | insertId => exact h
  | query q => cases fail <;> exact hclear
  | change c =>
    cases fail with
    | true => exact hclear
    | false =>
      rw [Session.handle]
      cases hc : s.change E who c with
      | none => exact hclear
      | some s' => exact h.change E who hc
  | startTransaction =>
    cases fail with
    | true => exact hclear
    | false => exact .of_clean E h.visible rfl rfl
  | commit =>
    cases fail with
    | true => exact hclear
    | false => exact .of_clean E h.visible rfl rfl
  | rollback =>
    cases fail with
    | true => exact hclear
    | false => exact .of_clean E h.committed rfl rfl

/-- At every time the committed state is what the logged changes make of the first one. -/
theorem accounts_run {s₀ : S} (p : Program Q A C α) (fails : Failures Q C) {s : Session S C T}
    (h : s.Accounts E s₀) : (run E who p fails s).sess.Accounts E s₀ := by
  induction p generalizing fails s with
  | ret a => exact h
  | call r k ih => exact ih _ _ (h.handle E who _ r)

end Sql
