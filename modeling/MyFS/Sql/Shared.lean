import MyFS.Sql.Transaction

/-!
# Several programs on one connection

Threads that share a connection send their statements one by one, in any order. The
connection has one transaction at most, and it is nobody's: a `START TRANSACTION`, `COMMIT`
or `ROLLBACK` of one thread ends what another thread has begun.

`Shared` is the connection with the programs still to be run and the changes each of them
has made. `allOrNothing_shared` is the positive result: transactions are all or nothing in
every interleaving whose steps are `Undisturbed`.
-/

namespace Sql

variable {Q C S α ε ι : Type} {A : Q → Type} [DecidableEq ι]

/-- A connection shared by the threads `ι`. -/
structure Shared (Q : Type) (A : Q → Type) (C S ι : Type) where
  sess : Session S C ι
  prog : ι → Program Q A C Bool
  /-- The changes that a thread has made, in order. -/
  made : ι → List C

namespace Shared

/-- All threads before their first statement. -/
def start (s : S) (prog : ι → Program Q A C Bool) : Shared Q A C S ι :=
  ⟨Session.idle s, prog, fun _ => []⟩

/-- Let the thread `i` execute its next statement; with `fail` the statement fails. -/
def step (E : Engine Q A C S) (i : ι) (fail : Bool) (st : Shared Q A C S ι) :
    Shared Q A C S ι :=
  match st.prog i with
  | .ret _ => st
  | .call r k =>
    let (x, s') := st.sess.handle E i fail r
    ⟨s', Function.update st.prog i (k x),
      Function.update st.made i (st.made i ++ changesOf [⟨r, Reply.ok r x⟩])⟩

/-- The states that interleavings lead to whose steps all meet `Ok`. -/
inductive Reaches (E : Engine Q A C S) (Ok : Shared Q A C S ι → ι → Bool → Prop)
    (st₀ : Shared Q A C S ι) : Shared Q A C S ι → Prop
  | start : Reaches E Ok st₀ st₀
  | step {st : Shared Q A C S ι} (i : ι) (fail : Bool) (h : Reaches E Ok st₀ st)
      (hok : Ok st i fail) : Reaches E Ok st₀ (st.step E i fail)

/-- A thread that is done has all of its changes committed if it reported success, and none
of them otherwise. -/
def AllOrNothing (st : Shared Q A C S ι) : Prop :=
  ∀ i b, st.prog i = .ret b →
    changesBy i st.sess.log = if b then st.made i else []

/-- The next statement of the thread `i` interferes with no other thread. A statement that
ends the open transaction finds only its own thread's changes in it, a change finds a
transaction open, and `COMMIT` and `ROLLBACK` succeed. -/
def Undisturbed (st : Shared Q A C S ι) (i : ι) (fail : Bool) : Prop :=
  match st.prog i with
  | .ret _ => True
  | .call .startTransaction _ => ∀ e ∈ st.sess.pending, e.1 = i
  | .call .commit _ => (∀ e ∈ st.sess.pending, e.1 = i) ∧ fail = false
  | .call .rollback _ => (∀ e ∈ st.sess.pending, e.1 = i) ∧ fail = false
  | .call (.change _) _ => st.sess.working.isSome
  | .call (.query _) _ => True
  | .call .insertId _ => True

instance (st : Shared Q A C S ι) (i : ι) (fail : Bool) : Decidable (st.Undisturbed i fail) := by
  unfold Undisturbed
  split <;> infer_instance

/-- Follow a schedule: which thread moves, and whether its statement fails. -/
def follow (E : Engine Q A C S) : List (ι × Bool) → Shared Q A C S ι → Shared Q A C S ι
  | [], st => st
  | (i, fail) :: steps, st => follow E steps (st.step E i fail)

/-- Every step of a schedule meets `Ok`. -/
def Meets (E : Engine Q A C S) (Ok : Shared Q A C S ι → ι → Bool → Prop) :
    List (ι × Bool) → Shared Q A C S ι → Prop
  | [], _ => True
  | (i, fail) :: steps, st => Ok st i fail ∧ Meets E Ok steps (st.step E i fail)

instance decidableMeets {Ok : Shared Q A C S ι → ι → Bool → Prop}
    [∀ st i fail, Decidable (Ok st i fail)] (E : Engine Q A C S) :
    (steps : List (ι × Bool)) → (st : Shared Q A C S ι) → Decidable (Meets E Ok steps st)
  | [], _ => .isTrue trivial
  | (i, fail) :: steps, st =>
    haveI : Decidable (Meets E Ok steps (st.step E i fail)) := decidableMeets E steps _
    inferInstanceAs (Decidable (Ok st i fail ∧ Meets E Ok steps (st.step E i fail)))

theorem Reaches.follow {E : Engine Q A C S} {Ok : Shared Q A C S ι → ι → Bool → Prop}
    {st₀ st : Shared Q A C S ι} (h : Reaches E Ok st₀ st) {steps : List (ι × Bool)}
    (hok : Meets E Ok steps st) : Reaches E Ok st₀ (follow E steps st) := by
  induction steps generalizing st with
  | nil => exact h
  | cons step steps ih => exact ih (h.step step.1 step.2 hok.1) hok.2

/-- Whatever the threads do, what is committed is what the logged changes make of the first state. -/
theorem Reaches.accounts {E : Engine Q A C S} {Ok : Shared Q A C S ι → ι → Bool → Prop} {s : S}
    {prog : ι → Program Q A C Bool} {st : Shared Q A C S ι} (h : Reaches E Ok (Shared.start s prog) st) :
    st.sess.Accounts E s := by
  induction h with
  | start => exact Session.accounts_idle E s
  | step i fail _ _ ih =>
    unfold Shared.step
    split
    · exact ih
    · exact ih.handle E i fail _

/-! ## The phases of a thread -/

/-- Where a thread stands whose program is the transaction with body `p`, and what the
connection holds of its changes. -/
inductive Phase (e : ε) (p : Program Q A C (Except ε α)) (st : Shared Q A C S ι) (i : ι) : Prop
  | waiting (hprog : st.prog i = transaction p) (hmade : st.made i = [])
      (hlog : changesBy i st.sess.log = []) (hpending : changesBy i st.sess.pending = [])
  | inside (q : Program Q A C (Except ε α)) (hq : q = .ret (.error e) ∨ Body e q)
      (hprog : st.prog i = finish q)
      (hlog : changesBy i st.sess.log = []) (hpending : changesBy i st.sess.pending = st.made i)
  | done (b : Bool) (hprog : st.prog i = .ret b)
      (hlog : changesBy i st.sess.log = if b then st.made i else [])
      (hpending : changesBy i st.sess.pending = [])

variable {E : Engine Q A C S} {e : ε} {p : Program Q A C (Except ε α)} {st : Shared Q A C S ι}
  {i j : ι} {fail : Bool}

theorem step_call {r : Request Q C} {k : Reply A r → Program Q A C Bool}
    (h : st.prog i = .call r k) :
    st.step E i fail =
      ⟨(st.sess.handle E i fail r).2,
        Function.update st.prog i (k (st.sess.handle E i fail r).1),
        Function.update st.made i (st.made i ++
          changesOf [⟨r, Reply.ok r (st.sess.handle E i fail r).1⟩])⟩ := by
  rw [step, h]

theorem step_ret {b : Bool} (h : st.prog i = .ret b) : st.step E i fail = st := by
  rw [step, h]

omit [DecidableEq ι] in
/-- A change in the open transaction, or a failed one. -/
theorem handle_change (E : Engine Q A C S) (i : ι) (fail : Bool) (c : C) {s : Session S C ι}
    (hw : s.working.isSome) :
    ((s.handle E i fail (.change c)).1 = false ∧ (s.handle E i fail (.change c)).2 = s.clearId) ∨
      ((s.handle E i fail (.change c)).1 = true ∧
        (s.handle E i fail (.change c)).2.log = s.log ∧
        (s.handle E i fail (.change c)).2.pending = s.pending ++ [(i, c)]) := by
  obtain ⟨w, hw⟩ := Option.isSome_iff_exists.mp hw
  rw [Session.handle]
  cases fail with
  | true => exact .inl ⟨rfl, rfl⟩
  | false =>
    cases hc : s.change E i c with
    | none => exact .inl ⟨by simp, by simp⟩
    | some s' =>
      obtain ⟨v, -, -, hlog, hwork⟩ := Session.change_of_open hw hc
      refine .inr ⟨by simp, by simpa using hlog, ?_⟩
      simpa [Session.pending_of_some hw] using Session.pending_of_some hwork

/-- An undisturbed statement leaves the changes of the other threads where they are. -/
theorem step_other (hok : st.Undisturbed i fail) (hij : j ≠ i) :
    changesBy j (st.step E i fail).sess.log = changesBy j st.sess.log ∧
      changesBy j (st.step E i fail).sess.pending = changesBy j st.sess.pending := by
  have mine : ∀ {log : List (ι × C)}, (∀ e ∈ log, e.1 = i) → changesBy j log = [] :=
    fun h => changesBy_eq_nil fun e he heq => hij (heq.symm.trans (h e he))
  unfold Undisturbed at hok
  cases hp : st.prog i with
  | ret b =>
    rw [step_ret hp]
    exact ⟨rfl, rfl⟩
  | call r k =>
    rw [hp] at hok
    rw [step_call hp]
    cases r with
    | insertId => exact ⟨rfl, rfl⟩
    | query q => cases fail <;> exact ⟨rfl, rfl⟩
    | change c =>
      rcases handle_change E i fail c hok with ⟨-, h⟩ | ⟨-, h, h'⟩
      · dsimp only
        rw [h]
        exact ⟨rfl, rfl⟩
      · dsimp only
        rw [h, h', changesBy_append, @mine [(i, c)] (by simp), List.append_nil]
        exact ⟨rfl, rfl⟩
    | startTransaction =>
      cases fail with
      | true => exact ⟨rfl, rfl⟩
      | false =>
        show changesBy j (st.sess.log ++ st.sess.pending) = _ ∧ changesBy j [] = _
        rw [changesBy_append, mine hok, List.append_nil]
        exact ⟨rfl, rfl⟩
    | commit =>
      obtain ⟨hown, rfl⟩ := hok
      show changesBy j (st.sess.log ++ st.sess.pending) = _ ∧ changesBy j [] = _
      rw [changesBy_append, mine hown, List.append_nil]
      exact ⟨rfl, rfl⟩
    | rollback =>
      obtain ⟨hown, rfl⟩ := hok
      show changesBy j st.sess.log = _ ∧ changesBy j [] = _
      rw [mine hown]
      exact ⟨rfl, rfl⟩

/-- A step of another thread leaves a thread in its phase. -/
theorem Phase.step_other (h : Phase e p st j) (hok : st.Undisturbed i fail) (hij : j ≠ i) :
    Phase e p (st.step E i fail) j := by
  obtain ⟨hlog', hpending'⟩ := Shared.step_other (E := E) hok hij
  have hsame : (st.step E i fail).prog j = st.prog j ∧ (st.step E i fail).made j = st.made j := by
    cases hp : st.prog i with
    | ret b => rw [step_ret hp]; exact ⟨rfl, rfl⟩
    | call r k =>
      rw [step_call hp]
      exact ⟨Function.update_of_ne hij _ _, Function.update_of_ne hij _ _⟩
  cases h with
  | waiting hprog hmade hlog hpending =>
    exact .waiting (by rw [hsame.1, hprog]) (by rw [hsame.2, hmade]) (by rw [hlog', hlog])
      (by rw [hpending', hpending])
  | inside q hq hprog hlog hpending =>
    exact .inside q hq (by rw [hsame.1, hprog]) (by rw [hlog', hlog])
      (by rw [hpending', hpending, hsame.2])
  | done b hprog hlog hpending =>
    exact .done b (by rw [hsame.1, hprog]) (by rw [hlog', hlog, hsame.2])
      (by rw [hpending', hpending])

/-- A step of a thread takes it from one phase to the next. -/
theorem Phase.step_self (hbody : Body e p) (h : Phase e p st i) (hok : st.Undisturbed i fail) :
    Phase e p (st.step E i fail) i := by
  unfold Undisturbed at hok
  cases h with
  | waiting hprog hmade hlog hpending =>
    rw [transaction_eq] at hprog
    rw [hprog] at hok
    rw [step_call hprog]
    cases fail with
    | true =>
      exact .done false (Function.update_self ..) hlog hpending
    | false =>
      -- what `START TRANSACTION` commits is not this thread's
      refine .inside p (.inr hbody) (Function.update_self ..) ?_ ?_
      · show changesBy i (st.sess.log ++ st.sess.pending) = []
        rw [changesBy_append, hlog, hpending, List.append_nil]
      · show [] = Function.update st.made i _ i
        rw [Function.update_self, hmade]
        rfl
  | inside q hq hprog hlog hpending =>
    have hrolled : ∀ e', q = .ret (.error e') → Phase e p (st.step E i fail) i := by
      intro e' hq
      rw [hq, finish_error] at hprog
      rw [hprog] at hok
      obtain ⟨-, rfl⟩ := hok
      rw [step_call hprog]
      exact .done false (Function.update_self ..) hlog rfl
    rcases hq with hq | hq
    · exact hrolled e hq
    cases hq with
    | ret r hr =>
      cases r with
      | error e' => exact hrolled e' rfl
      | ok a =>
        rw [finish_ok] at hprog
        rw [hprog] at hok
        obtain ⟨-, rfl⟩ := hok
        rw [step_call hprog]
        refine .done true (Function.update_self ..) ?_ rfl
        show changesBy i (st.sess.log ++ st.sess.pending) = Function.update st.made i _ i
        rw [changesBy_append, hlog, List.nil_append, hpending, Function.update_self]
        exact (List.append_nil _).symm
    | query q k hfail hk =>
      rw [finish_call] at hprog
      rw [step_call hprog]
      have hmade : ∀ b, Function.update st.made i (st.made i ++ changesOf
          [(⟨.query q, b⟩ : Event Q C)]) i = st.made i := fun b => by
        rw [Function.update_self]
        exact List.append_nil _
      cases fail with
      | true =>
        refine .inside (k none) (.inl hfail) (Function.update_self ..) hlog ?_
        exact hpending.trans (hmade _).symm
      | false =>
        refine .inside (k (some (E.ask q st.sess.visible))) (.inr (hk _))
          (Function.update_self ..) hlog ?_
        exact hpending.trans (hmade _).symm
    | change c k hfail hk =>
      rw [finish_call] at hprog
      rw [hprog] at hok
      rw [step_call hprog]
      rcases handle_change E i fail c hok with
        ⟨hx, hs⟩ | ⟨hx, hlog', hpending'⟩
      · refine .inside (k false) (.inl hfail) ?_ ?_ ?_
        · dsimp only
          rw [Function.update_self, hx]
        · dsimp only
          rw [hs]
          exact hlog
        · dsimp only
          rw [hs, hx, Function.update_self]
          exact hpending.trans (List.append_nil _).symm
      · refine .inside (k true) (.inr hk) ?_ ?_ ?_
        · dsimp only
          rw [Function.update_self, hx]
        · dsimp only
          rw [hlog', hlog]
        · dsimp only
          rw [hpending', hx, Function.update_self, changesBy_append, hpending]
          exact congrArg (st.made i ++ ·) (changesBy_self i [c])
  | done b hprog hlog hpending =>
    rw [step_ret hprog]
    exact .done b hprog hlog hpending

theorem phase_of_reaches {prog : ι → Program Q A C (Except ε α)} (hp : ∀ i, Body e (prog i)) {s : S}
    (h : Reaches E Undisturbed (start s fun i => transaction (prog i)) st) (i : ι) :
    Phase e (prog i) st i := by
  induction h with
  | start => exact .waiting rfl rfl rfl rfl
  | @step st j fail _ hok ih =>
    by_cases hij : i = j
    · subst hij
      exact ih.step_self (hp i) hok
    · exact ih.step_other hok hij

/-- Transactions on a shared connection are all or nothing if no step disturbs another
thread. -/
theorem allOrNothing_shared {prog : ι → Program Q A C (Except ε α)} (hp : ∀ i, Body e (prog i)) {s : S}
    (h : Reaches E Undisturbed (start s fun i => transaction (prog i)) st) : AllOrNothing st := by
  intro i b hb
  cases phase_of_reaches hp h i with
  | waiting hprog => rw [transaction_eq, hb] at hprog; cases hprog
  | inside q hq hprog =>
    rw [hb] at hprog
    rcases hq with rfl | hq
    · cases hprog
    cases hq with
    | ret r => cases r <;> cases hprog
    | query => cases hprog
    | change => cases hprog
  | done b' hprog hlog =>
    rw [hb] at hprog
    cases hprog
    exact hlog

end Shared

end Sql
