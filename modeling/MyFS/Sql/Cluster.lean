import MyFS.Sql.Program
import Mathlib.Data.Fintype.Basic
import Mathlib.Logic.Function.Basic

/-!
# Several connections

Clients with a connection each, on one server with isolation level `REPEATABLE READ`. What a
client sends outside of a transaction takes effect at once. In a transaction its queries read the
snapshot that the first of them took, together with what the client has changed itself. A change
acts on the newest committed rows, and locks what it touches until the transaction ends, what it
only refers to with a shared lock; a client whose change needs what another one has locked waits,
or gives up. Generated keys are never given back.

`Versions` says what the library needs to know of the rows of a store. `Reaches` are the states
that interleavings lead to, whatever statements fail.
-/

namespace Sql

/-- The rows of a store, as far as transactions are concerned. -/
structure Versions (C S K : Type) where
  /-- What a change locks, in the state on which it acts. -/
  locks : C → S → List K
  /-- What a change needs to stay as it is. -/
  shares : C → S → List K
  /-- `base`, with the rows under the keys `ks` as they are in `own`. -/
  merge : (ks : List K) → (base own : S) → S
  /-- `base`, where the keys that were generated in `own` are not generated again. -/
  advance : (base own : S) → S

/-- The rows that a change touches are among those that it locks. -/
structure Versions.Lawful {Q C S K : Type} {A : Q → Type} (E : Engine Q A C S)
    (V : Versions C S K) : Prop where
  merge_nil : ∀ base own, V.merge [] base own = base
  /-- A transaction that has made a change reads what the change has led to. -/
  merge_exec : ∀ {c ks store own s'}, E.exec c (V.merge ks store own) = some s' →
    V.merge (ks ++ V.locks c (V.merge ks store own)) (V.advance store s') s' = s'

/-- An open transaction. -/
structure Txn (S K : Type) where
  /-- What its queries read, from the first one on. -/
  snapshot : Option S
  /-- Its own rows, under the keys in `locked`. -/
  own : S
  locked : List K
  shared : List K

structure Client (Q : Type) (A : Q → Type) (C S K α : Type) where
  prog : Program Q A C α
  txn : Option (Txn S K)
  insertId : ℕ

/-- The clients `ι` of one server. -/
structure Cluster (Q : Type) (A : Q → Type) (C S K ι α : Type) where
  /-- What is committed. -/
  store : S
  client : ι → Client Q A C S K α
  /-- Whose transactions have been committed, in order. -/
  commits : List ι

variable {Q C S K ι α : Type} {A : Q → Type}

namespace Txn

variable (V : Versions C S K)

/-- The rows on which a change acts. -/
def current (store : S) : Option (Txn S K) → S
  | none => store
  | some t => V.merge t.locked store t.own

/-- The rows that a query reads. -/
def reads (store : S) : Option (Txn S K) → S
  | none => store
  | some t => V.merge t.locked (t.snapshot.getD store) t.own

/-- The transaction after a query. -/
def look (store : S) (t : Txn S K) : Txn S K :=
  { t with snapshot := some (t.snapshot.getD store) }

end Txn

/-- What a request comes to: the reply, what is committed, the transaction, and the key that was
generated. -/
structure Answer (A : Q → Type) (C S K : Type) (r : Request Q C) where
  reply : Reply A r
  store : S
  txn : Option (Txn S K)
  insertId : ℕ

/-- A statement that fails changes nothing. -/
def Answer.failed {r : Request Q C} (store : S) (txn : Option (Txn S K)) : Answer A C S K r :=
  ⟨Reply.failed r, store, txn, 0⟩

/-- Answer one request of a client; with `fail` the statement fails. -/
def answer (E : Engine Q A C S) (V : Versions C S K) (fail : Bool) (store : S)
    (txn : Option (Txn S K)) (insertId : ℕ) : (r : Request Q C) → Answer A C S K r
  | .insertId => ⟨insertId, store, txn, insertId⟩
  | .query q =>
    if fail then .failed store txn
    else ⟨some (E.ask q (Txn.reads V store txn)), store, txn.map (Txn.look store), 0⟩
  | .change c =>
    if fail then .failed store txn
    else
      match E.exec c (Txn.current V store txn) with
      | none => .failed store txn
      | some s =>
        match txn with
        | none => ⟨true, s, none, E.newId c store⟩
        | some t =>
          ⟨true, V.advance store s,
            some { t with
              own := s
              locked := t.locked ++ V.locks c (Txn.current V store (some t))
              shared := t.shared ++ V.shares c (Txn.current V store (some t)) },
            E.newId c (Txn.current V store (some t))⟩
  | .startTransaction =>
    if fail then .failed store txn
    else ⟨true, Txn.current V store txn, some ⟨none, Txn.current V store txn, [], []⟩, 0⟩
  | .commit =>
    if fail then .failed store txn else ⟨true, Txn.current V store txn, none, 0⟩
  | .rollback => if fail then .failed store txn else ⟨true, store, none, 0⟩

section answer

variable {E : Engine Q A C S} {V : Versions C S K} {store s' : S} {n : ℕ} {c : C}

theorem answer_change_of_none (txn : Option (Txn S K))
    (h : E.exec c (Txn.current V store txn) = none) :
    answer E V false store txn n (.change c) = .failed store txn := by
  simp only [answer, h, Bool.false_eq_true, if_false]

/-- A change outside of a transaction. -/
theorem answer_change_of_some (h : E.exec c store = some s') :
    answer E V false store none n (.change c) = ⟨true, s', none, E.newId c store⟩ := by
  have hcurrent : Txn.current V store none = store := rfl
  simp only [answer, hcurrent, h, Bool.false_eq_true, if_false]

/-- A change inside a transaction. -/
theorem answer_change_of_txn {t : Txn S K} (h : E.exec c (Txn.current V store (some t)) = some s') :
    answer E V false store (some t) n (.change c) =
      ⟨true, V.advance store s',
        some { t with
          own := s'
          locked := t.locked ++ V.locks c (Txn.current V store (some t))
          shared := t.shared ++ V.shares c (Txn.current V store (some t)) },
        E.newId c (Txn.current V store (some t))⟩ := by
  simp only [answer, h, Bool.false_eq_true, if_false]

end answer

namespace Cluster

/-- All clients before their first statement. -/
def start (s : S) (prog : ι → Program Q A C α) : Cluster Q A C S K ι α :=
  ⟨s, fun i => ⟨prog i, none, 0⟩, []⟩

/-- The rows on which a change of the client acts. -/
def current (V : Versions C S K) (st : Cluster Q A C S K ι α) (i : ι) : S :=
  Txn.current V st.store (st.client i).txn

/-- The locks of the transaction do not allow the change. -/
def Conflicts (V : Versions C S K) (t : Txn S K) (c : C) (s : S) : Prop :=
  (∃ k ∈ V.locks c s, k ∈ t.locked ∨ k ∈ t.shared) ∨ ∃ k ∈ V.shares c s, k ∈ t.locked

/-- The client `j` has locked what a change of the client `i` needs. -/
def Holds (V : Versions C S K) (st : Cluster Q A C S K ι α) (j i : ι) (c : C) : Prop :=
  ∃ t ∈ (st.client j).txn, Conflicts V t c (st.current V i)

/-- The request of a client has to wait. -/
def Waits (V : Versions C S K) (st : Cluster Q A C S K ι α) (i : ι) : Request Q C → Prop
  | .change c => ∃ j, j ≠ i ∧ st.Holds V j i c
  | _ => False

variable [Fintype ι] [DecidableEq ι] [DecidableEq K]

instance (V : Versions C S K) (t : Txn S K) (c : C) (s : S) : Decidable (Conflicts V t c s) :=
  inferInstanceAs (Decidable (_ ∨ _))

instance (V : Versions C S K) (st : Cluster Q A C S K ι α) (j i : ι) (c : C) :
    Decidable (st.Holds V j i c) :=
  match h : (st.client j).txn with
  | none => .isFalse fun ⟨t, ht, _⟩ => by
    rw [h] at ht
    cases ht
  | some t =>
    decidable_of_iff (Conflicts V t c (st.current V i)) <| by
      unfold Holds
      rw [h]
      exact ⟨fun hk => ⟨t, rfl, hk⟩, fun ⟨t', ht', hk⟩ => by cases ht'; exact hk⟩

instance (V : Versions C S K) (st : Cluster Q A C S K ι α) (i : ι) (r : Request Q C) :
    Decidable (st.Waits V i r) :=
  match r with
  | .change c => inferInstanceAs (Decidable (∃ j, j ≠ i ∧ st.Holds V j i c))
  | .query _ | .startTransaction | .commit | .rollback | .insertId => .isFalse id

/-- A request that need not wait has been answered. -/
def serve (st : Cluster Q A C S K ι α) (i : ι) (r : Request Q C) (a : Answer A C S K r)
    (k : Reply A r → Program Q A C α) : Cluster Q A C S K ι α where
  store := a.store
  client := Function.update st.client i ⟨k a.reply, a.txn, a.insertId⟩
  commits :=
    match r, a.reply with
    | .commit, true => st.commits ++ [i]
    | _, _ => st.commits

/-- Let a client execute its next statement, if it need not wait; with `fail` the statement
fails, as it also does when the client has waited too long. -/
def step (E : Engine Q A C S) (V : Versions C S K) (i : ι) (fail : Bool)
    (st : Cluster Q A C S K ι α) : Cluster Q A C S K ι α :=
  match (st.client i).prog with
  | .ret _ => st
  | .call r k =>
    if fail = false ∧ st.Waits V i r then st
    else
      st.serve i r (answer E V fail st.store (st.client i).txn (st.client i).insertId r) k

/-- The states that interleavings lead to whose steps all meet `Ok`. -/
inductive Reaches (E : Engine Q A C S) (V : Versions C S K)
    (Ok : Cluster Q A C S K ι α → ι → Bool → Prop) (st₀ : Cluster Q A C S K ι α) :
    Cluster Q A C S K ι α → Prop
  | start : Reaches E V Ok st₀ st₀
  | step {st : Cluster Q A C S K ι α} (i : ι) (fail : Bool) (h : Reaches E V Ok st₀ st)
      (hok : Ok st i fail) : Reaches E V Ok st₀ (st.step E V i fail)

/-- Follow a schedule: which client moves, and whether its statement fails. -/
def follow (E : Engine Q A C S) (V : Versions C S K) :
    List (ι × Bool) → Cluster Q A C S K ι α → Cluster Q A C S K ι α
  | [], st => st
  | (i, fail) :: steps, st => follow E V steps (st.step E V i fail)

variable {E : Engine Q A C S} {V : Versions C S K} {Ok : Cluster Q A C S K ι α → ι → Bool → Prop}
  {st st₀ : Cluster Q A C S K ι α} {i j : ι} {fail : Bool}

/-- Every step of the schedule meets `Ok`. -/
def Along (E : Engine Q A C S) (V : Versions C S K)
    (Ok : Cluster Q A C S K ι α → ι → Bool → Prop) :
    List (ι × Bool) → Cluster Q A C S K ι α → Prop
  | [], _ => True
  | (i, fail) :: steps, st => Ok st i fail ∧ Along E V Ok steps (st.step E V i fail)

instance instDecidableAlong [∀ st i fail, Decidable (Ok st i fail)] :
    (steps : List (ι × Bool)) → (st : Cluster Q A C S K ι α) → Decidable (Along E V Ok steps st)
  | [], _ => .isTrue trivial
  | (i, fail) :: steps, st =>
    haveI := instDecidableAlong steps (st.step E V i fail)
    inferInstanceAs (Decidable (_ ∧ _))

theorem along_of_forall (hok : ∀ st i fail, Ok st i fail) (steps : List (ι × Bool))
    (st : Cluster Q A C S K ι α) : Along E V Ok steps st := by
  induction steps generalizing st with
  | nil => trivial
  | cons step steps ih => exact ⟨hok _ _ _, ih _⟩

theorem Along.mono {Ok' : Cluster Q A C S K ι α → ι → Bool → Prop}
    (hok : ∀ {st i fail}, Ok st i fail → Ok' st i fail) {steps : List (ι × Bool)}
    (h : Along E V Ok steps st) : Along E V Ok' steps st := by
  induction steps generalizing st with
  | nil => trivial
  | cons step steps ih => exact ⟨hok h.1, ih h.2⟩

theorem Along.and {Ok' : Cluster Q A C S K ι α → ι → Bool → Prop} {steps : List (ι × Bool)}
    (h : Along E V Ok steps st) (h' : Along E V Ok' steps st) :
    Along E V (fun st i fail => Ok st i fail ∧ Ok' st i fail) steps st := by
  induction steps generalizing st with
  | nil => trivial
  | cons step steps ih => exact ⟨⟨h.1, h'.1⟩, ih h.2 h'.2⟩

/-- A schedule leads to a state that can be reached. -/
theorem Reaches.follow {steps : List (ι × Bool)} (h : Reaches E V Ok st₀ st)
    (hok : Along E V Ok steps st) : Reaches E V Ok st₀ (follow E V steps st) := by
  induction steps generalizing st with
  | nil => exact h
  | cons step steps ih => exact ih (h.step step.1 step.2 hok.1) hok.2

/-- What holds at the start and is kept by every step that meets `Ok` holds in every state. -/
theorem Reaches.invariant {I : Cluster Q A C S K ι α → Prop} (h : Reaches E V Ok st₀ st)
    (hstart : I st₀) (hstep : ∀ {st i fail}, I st → Ok st i fail → I (st.step E V i fail)) : I st := by
  induction h with
  | start => exact hstart
  | step i fail _ hok ih => exact hstep ih hok

/-- A step does nothing, or answers the request of its client. -/
theorem step_cases (E : Engine Q A C S) (V : Versions C S K) (st : Cluster Q A C S K ι α) (i : ι)
    (fail : Bool) :
    st.step E V i fail = st ∨ ∃ r k, (st.client i).prog = .call r k ∧
      (fail = false → ¬st.Waits V i r) ∧ st.step E V i fail =
        st.serve i r (answer E V fail st.store (st.client i).txn (st.client i).insertId r) k := by
  unfold step
  split
  · exact .inl rfl
  · next r k hprog =>
    split
    · exact .inl rfl
    · next hwaits => exact .inr ⟨r, k, hprog, fun hfail hw => hwaits ⟨hfail, hw⟩, rfl⟩

omit [Fintype ι] [DecidableEq K] in
@[simp] theorem store_serve {r : Request Q C} {a : Answer A C S K r}
    {k : Reply A r → Program Q A C α} : (st.serve i r a k).store = a.store := rfl

omit [Fintype ι] [DecidableEq K] in
@[simp] theorem client_serve_self {r : Request Q C} {a : Answer A C S K r}
    {k : Reply A r → Program Q A C α} :
    (st.serve i r a k).client i = ⟨k a.reply, a.txn, a.insertId⟩ := Function.update_self ..

omit [Fintype ι] [DecidableEq K] in
theorem client_serve_of_ne {r : Request Q C} {a : Answer A C S K r}
    {k : Reply A r → Program Q A C α} (h : j ≠ i) : (st.serve i r a k).client j = st.client j :=
  Function.update_of_ne h ..

/-! ## The next statement of a client -/

/-- The change that the client makes next. -/
def nextChange (st : Cluster Q A C S K ι α) (i : ι) : Option C :=
  match (st.client i).prog with
  | .call (.change c) _ => some c
  | _ => none

end Cluster

/-! ## Clients without transactions -/

/-- No transaction statement, and a change only if it satisfies `P`. -/
def Request.Plain (P : C → Prop) : Request Q C → Prop
  | .change c => P c
  | .query _ | .insertId => True
  | .startTransaction | .commit | .rollback => False

namespace Program

/-- The program sends no transaction statement, and its changes satisfy `P`. -/
def Plain (P : C → Prop) : Program Q A C α → Prop
  | .ret _ => True
  | .call r k => r.Plain P ∧ ∀ x, (k x).Plain P

variable {P : C → Prop} {ε β : Type}

theorem Plain.bind {p : Program Q A C α} {f : α → Program Q A C β} (hp : p.Plain P)
    (hf : ∀ a, (f a).Plain P) : (p >>= f).Plain P := by
  induction p with
  | ret a => exact hf a
  | call r k ih => exact ⟨hp.1, fun x => ih x (hp.2 x)⟩

theorem Plain.andThen {p : Program Q A C (Except ε α)} {f : α → Program Q A C (Except ε β)}
    (hp : p.Plain P) (hf : ∀ a, (f a).Plain P) : (p.andThen f).Plain P := by
  refine hp.bind fun r => ?_
  cases r with
  | error e => trivial
  | ok a => exact hf a

theorem ReadOnly.plain {p : Program Q A C α} (hp : p.ReadOnly) : p.Plain P := by
  induction hp with
  | ret a => trivial
  | query q k _ ih => exact ⟨trivial, ih⟩

end Program

namespace Cluster

/-- No client is in a transaction, or will be. -/
structure Plain (P : C → Prop) (st : Cluster Q A C S K ι α) : Prop where
  txn : ∀ i, (st.client i).txn = none
  prog : ∀ i, (st.client i).prog.Plain P

theorem plain_start {P : C → Prop} {s : S} {prog : ι → Program Q A C α}
    (h : ∀ i, (prog i).Plain P) : (start s prog : Cluster Q A C S K ι α).Plain P :=
  ⟨fun _ => rfl, h⟩

section

variable [Fintype ι] [DecidableEq ι] [DecidableEq K] {E : Engine Q A C S} {V : Versions C S K}
  {P : C → Prop} {st : Cluster Q A C S K ι α} {i : ι} {fail : Bool}

/-- A step of a client that is in no transaction changes nothing, or makes one change. -/
theorem Plain.step (h : st.Plain P) (i : ι) (fail : Bool) :
    (st.step E V i fail).Plain P ∧ ((st.step E V i fail).store = st.store ∨
      ∃ c, fail = false ∧ st.nextChange i = some c ∧ P c ∧
        E.exec c st.store = some (st.step E V i fail).store) := by
  obtain heq | ⟨r, k, hprog, -, heq⟩ := step_cases E V st i fail
  · rw [heq]
    exact ⟨h, .inl rfl⟩
  · obtain ⟨hr, hk⟩ : r.Plain P ∧ ∀ x, (k x).Plain P := by
      have := h.prog i
      rwa [hprog] at this
    -- whatever the answer, the client is in no transaction and goes on with `k`
    have key : ∀ a : Answer A C S K r, a.txn = none → (st.serve i r a k).Plain P := by
      intro a ha
      constructor
      · intro j
        by_cases hj : j = i
        · rw [hj, client_serve_self]
          exact ha
        · rw [client_serve_of_ne hj]
          exact h.txn j
      · intro j
        by_cases hj : j = i
        · rw [hj, client_serve_self]
          exact hk _
        · rw [client_serve_of_ne hj]
          exact h.prog j
    rw [heq, h.txn i, store_serve]
    cases r with
    | startTransaction | commit | rollback => exact hr.elim
    | insertId => exact ⟨key _ rfl, .inl rfl⟩
    | query q =>
      cases fail with
      | true => exact ⟨key _ rfl, .inl rfl⟩
      | false => exact ⟨key _ rfl, .inl rfl⟩
    | change c =>
      cases fail with
      | true => exact ⟨key _ rfl, .inl rfl⟩
      | false =>
        cases hc : E.exec c st.store with
        | none =>
          rw [answer_change_of_none (V := V) none hc]
          exact ⟨key _ rfl, .inl rfl⟩
        | some s' =>
          rw [answer_change_of_some hc]
          exact ⟨key _ rfl, .inr ⟨c, rfl, by rw [nextChange, hprog], hr, hc⟩⟩

/-- What every change that the clients make keeps holds of the store in every state. -/
theorem Reaches.plain {s : S} {prog : ι → Program Q A C α}
    {Ok : Cluster Q A C S K ι α → ι → Bool → Prop} {I : S → Prop}
    (h : Reaches E V Ok (Cluster.start s prog) st) (hprog : ∀ i, (prog i).Plain P) (hs : I s)
    (hI : ∀ {st i c s'}, Ok st i false → st.nextChange i = some c → P c → I st.store →
      E.exec c st.store = some s' → I s') : st.Plain P ∧ I st.store := by
  refine h.invariant (I := fun st => st.Plain P ∧ I st.store) ⟨plain_start hprog, hs⟩ ?_
  intro st i fail ⟨hplain, hst⟩ hok
  obtain ⟨hplain', hstore | ⟨c, rfl, hnext, hc, hexec⟩⟩ := hplain.step (E := E) (V := V) i fail
  · rw [hstore]
    exact ⟨hplain', hst⟩
  · exact ⟨hplain', hI hok hnext hc hst hexec⟩

end

end Cluster

end Sql
