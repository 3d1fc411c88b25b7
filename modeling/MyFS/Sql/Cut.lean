import MyFS.Sql.Ends

/-!
# Clients that end in between

A client may be gone before it has sent all of its requests. The server then rolls back the transaction
that is open, and what has been committed stays; `cut` is the connection at that time.

So much may happen to a client that lives on, if its statements fail: `exists_fails_of_cut`. So what is
known of a program whichever statements fail is known of it when it ends in between. It must have closed
each transaction when it starts the next one, and when it is done, as `Program.Balanced` says.
-/

namespace Sql

variable {Q C S T α β ε : Type} {A : Q → Type} {E : Engine Q A C S} {who : T}

/-- The connection of a client that is gone after `n` requests. -/
def cut (E : Engine Q A C S) (who : T) :
    ℕ → Program Q A C α → Failures Q C → Session S C T → Session S C T
  | 0, _, _, s => s
  | _ + 1, .ret _, _, s => s
  | n + 1, .call r k, fails, s =>
    let (x, s') := s.handle E who (fails 0 r) r
    cut E who n (k x) (fun n => fails (n + 1)) s'

@[simp] theorem cut_zero (p : Program Q A C α) (fails : Failures Q C) (s : Session S C T) :
    cut E who 0 p fails s = s := by
  rw [cut]

@[simp] theorem cut_ret (n : ℕ) (a : α) (fails : Failures Q C) (s : Session S C T) :
    cut E who n (.ret a : Program Q A C α) fails s = s := by
  cases n <;> rw [cut]

theorem cut_call (n : ℕ) (r : Request Q C) (k : Reply A r → Program Q A C α) (fails : Failures Q C)
    (s : Session S C T) :
    cut E who (n + 1) (.call r k) fails s =
      cut E who n (k (s.handle E who (fails 0 r) r).1) (fun n => fails (n + 1))
        (s.handle E who (fails 0 r) r).2 := by
  rw [cut]

/-! ## Failures -/

/-- Everything fails but what closes a transaction. -/
def onlyClosing : Failures Q C := fun _ r =>
  match r with
  | .commit | .rollback => false
  | _ => true

theorem closesOk_onlyClosing : ClosesOk (onlyClosing : Failures Q C) := fun _ => ⟨rfl, rfl⟩

/-- The first request fails as under `fails`, and those after it as under `rest`. -/
def Failures.first (fails rest : Failures Q C) : Failures Q C
  | 0 => fails 0
  | n + 1 => rest n

theorem ClosesOk.first {fails rest : Failures Q C} (hf : ClosesOk fails) (hrest : ClosesOk rest) :
    ClosesOk (fails.first rest) := by
  intro n
  cases n with
  | zero => exact hf 0
  | succ n => exact hrest n

theorem run_first (r : Request Q C) (k : Reply A r → Program Q A C α) (fails rest : Failures Q C)
    (s : Session S C T) :
    (run E who (.call r k) (fails.first rest) s).sess =
      (run E who (k (s.handle E who (fails 0 r) r).1) rest (s.handle E who (fails 0 r) r).2).sess :=
  rfl

/-- A client that gets nothing done commits nothing, if no transaction has been open. -/
theorem committed_run_onlyClosing (p : Program Q A C α) {s : Session S C T}
    (hwork : s.working = none) : (run E who p onlyClosing s).sess.committed = s.committed := by
  induction p generalizing s with
  | ret a => rfl
  | call r k ih =>
    have hvis : s.visible = s.committed := Session.visible_of_none hwork
    cases r with
    | commit => exact (ih true (s := s.commit) rfl).trans hvis
    | rollback => exact ih true (s := s.rollback) rfl
    | insertId => exact ih s.insertId hwork
    | query q => exact ih none (s := s.clearId) hwork
    | startTransaction | change c => exact ih false (s := s.clearId) hwork

/-! ## Programs that close their transactions -/

namespace Program

/-- No transaction is open when another one is started, or at the end. The flag says whether one is open
before the program. -/
def Balanced : (isOpen : Bool) → Program Q A C α → Prop
  | isOpen, .ret _ => isOpen = false
  | isOpen, .call .startTransaction k =>
    isOpen = false ∧ (k true).Balanced true ∧ (k false).Balanced false
  | _, .call .commit k | _, .call .rollback k => (k true).Balanced false
  | isOpen, .call (.query _) k => ∀ rows, (k rows).Balanced isOpen
  | isOpen, .call (.change _) k => ∀ success, (k success).Balanced isOpen
  | isOpen, .call .insertId k => ∀ id, (k id).Balanced isOpen

theorem Balanced.bind {isOpen : Bool} {p : Program Q A C α} {f : α → Program Q A C β}
    (hp : p.Balanced isOpen) (hf : ∀ a, (f a).Balanced false) : (p >>= f).Balanced isOpen := by
  induction p generalizing isOpen with
  | ret a =>
    obtain rfl : isOpen = false := hp
    exact hf a
  | call r k ih =>
    cases r with
    | startTransaction => exact ⟨hp.1, ih true hp.2.1, ih false hp.2.2⟩
    | commit | rollback => exact ih true hp
    | query | change | insertId => exact fun x => ih x (hp x)

theorem Balanced.andThen {isOpen : Bool} {p : Program Q A C (Except ε α)}
    {f : α → Program Q A C (Except ε β)} (hp : p.Balanced isOpen) (hf : ∀ a, (f a).Balanced false) :
    (p.andThen f).Balanced isOpen := by
  refine hp.bind fun r => ?_
  cases r with
  | error e => exact rfl
  | ok a => exact hf a

theorem ReadOnly.balanced {p : Program Q A C α} (hp : p.ReadOnly) : p.Balanced false := by
  induction hp with
  | ret a => rfl
  | query q k _ ih => exact ih

end Program

theorem Body.balanced_finish {e : ε} {p : Program Q A C (Except ε α)} (hp : Body e p) :
    (finish p).Balanced true := by
  induction hp with
  | ret r _ => cases r <;> exact rfl
  | query q k hfail _ ih =>
    intro rows
    cases rows with
    | none =>
      show (finish (k none)).Balanced true
      rw [hfail]
      exact rfl
    | some a => exact ih a
  | change c k hfail _ ih =>
    intro success
    cases success with
    | false =>
      show (finish (k false)).Balanced true
      rw [hfail]
      exact rfl
    | true => exact ih

theorem Body.balanced_transaction {e : ε} {p : Program Q A C (Except ε α)} (hp : Body e p) :
    (transaction p).Balanced false :=
  ⟨rfl, hp.balanced_finish, rfl⟩

/-! ## What is left of a client -/

variable {fails : Failures Q C} {s : Session S C T}

/-- What some run from the second request on commits, some run of the whole client commits. -/
theorem exists_fails_call {r : Request Q C} {k : Reply A r → Program Q A C α} {n : ℕ}
    (hf : ClosesOk fails)
    (h : ∃ fails', ClosesOk fails' ∧
      (run E who (k (s.handle E who (fails 0 r) r).1) fails'
          (s.handle E who (fails 0 r) r).2).sess.committed =
        (cut E who n (k (s.handle E who (fails 0 r) r).1) (fun n => fails (n + 1))
          (s.handle E who (fails 0 r) r).2).committed) :
    ∃ fails', ClosesOk fails' ∧ (run E who (.call r k) fails' s).sess.committed =
      (cut E who (n + 1) (.call r k) fails s).committed := by
  obtain ⟨fails', hf', hrun⟩ := h
  refine ⟨fails.first fails', hf.first hf', ?_⟩
  rw [run_first, hrun, cut_call]

/-- A change leaves a transaction open, or there is none. -/
theorem Session.isSome_working_change {c : C} {s' : Session S C T} (h : s.change E who c = some s') :
    s'.working.isSome = s.working.isSome := by
  cases hwork : s.working with
  | some w =>
    obtain ⟨v, -, -, -, hwork'⟩ := Session.change_of_open hwork h
    rw [hwork']
    rfl
  | none =>
    obtain ⟨v, -, -, -, hwork'⟩ := Session.change_of_closed hwork h
    rw [hwork']

/-- After a request the rest is balanced, and what is committed is the same if a transaction is open. -/
theorem Program.Balanced.handle (E : Engine Q A C S) (who : T) {r : Request Q C} {k : Reply A r → Program Q A C α}
    (hp : (Program.call r k).Balanced s.working.isSome) (hf : ClosesOk fails) :
    (k (s.handle E who (fails 0 r) r).1).Balanced (s.handle E who (fails 0 r) r).2.working.isSome ∧
      ((s.handle E who (fails 0 r) r).2.working.isSome →
        (s.handle E who (fails 0 r) r).2.committed = s.committed) := by
  rw [Session.handle.eq_def]
  cases r with
  | insertId => exact ⟨hp _, fun _ => rfl⟩
  | query q => cases fails 0 (.query q) <;> exact ⟨hp _, fun _ => rfl⟩
  | commit =>
    dsimp only
    rw [(hf 0).1]
    exact ⟨hp, nofun⟩
  | rollback =>
    dsimp only
    rw [(hf 0).2]
    exact ⟨hp, nofun⟩
  | startTransaction =>
    obtain ⟨hclosed, htrue, hfalse⟩ := hp
    dsimp only
    cases fails 0 .startTransaction with
    | true =>
      refine ⟨?_, fun _ => rfl⟩
      show (k false).Balanced s.working.isSome
      rw [hclosed]
      exact hfalse
    | false =>
      have hwork : s.working = none := by rwa [← Option.not_isSome_iff_eq_none, Bool.not_eq_true]
      exact ⟨htrue, fun _ => Session.visible_of_none hwork⟩
  | change c =>
    dsimp only
    cases fails 0 (.change c) with
    | true => exact ⟨hp false, fun _ => rfl⟩
    | false =>
      cases hc : s.change E who c with
      | none => exact ⟨hp false, fun _ => rfl⟩
      | some s' =>
        have hopen := Session.isSome_working_change hc
        refine ⟨hopen ▸ hp true, fun hsome => ?_⟩
        obtain ⟨w, hwork⟩ := Option.isSome_iff_exists.mp (hopen ▸ hsome)
        obtain ⟨v, -, hcom, -, -⟩ := Session.change_of_open hwork hc
        exact hcom

/-- A client that is gone has lost its transaction, or has committed what it commits if certain
statements fail. -/
theorem committed_cut (E : Engine Q A C S) (who : T) {p : Program Q A C α} (hp : p.Balanced s.working.isSome) (hf : ClosesOk fails)
    (n : ℕ) :
    s.working.isSome ∧ (cut E who n p fails s).committed = s.committed ∨
      ∃ fails', ClosesOk fails' ∧
        (run E who p fails' s).sess.committed = (cut E who n p fails s).committed := by
  -- one that has committed nothing may have had nothing but failures
  have hnothing : ∀ {p : Program Q A C α} {n : ℕ} {fails : Failures Q C} {s : Session S C T},
      (cut E who n p fails s).committed = s.committed →
      s.working.isSome ∧ (cut E who n p fails s).committed = s.committed ∨
        ∃ fails', ClosesOk fails' ∧
          (run E who p fails' s).sess.committed = (cut E who n p fails s).committed := by
    intro p n fails s hcut
    cases hwork : s.working with
    | some w => exact .inl ⟨rfl, hcut⟩
    | none =>
      exact .inr ⟨onlyClosing, closesOk_onlyClosing, (committed_run_onlyClosing p hwork).trans hcut.symm⟩
  induction n generalizing p fails s with
  | zero => exact hnothing (by rw [cut_zero])
  | succ n ih =>
    cases p with
    | ret a => exact hnothing (by rw [cut_ret])
    | call r k =>
      obtain ⟨hk, hsame⟩ := hp.handle E who hf
      rcases ih hk (hf.tail 1) with ⟨hopen, hcut⟩ | hrun
      · apply hnothing
        rw [cut_call, hcut, hsame hopen]
      · exact .inr (exists_fails_call hf hrun)

/-- What a client that is gone has committed is what it commits if certain statements fail. -/
theorem exists_fails_of_cut (E : Engine Q A C S) (who : T) {p : Program Q A C α} (hp : p.Balanced false) (hf : ClosesOk fails)
    (hwork : s.working = none) (n : ℕ) :
    ∃ fails', ClosesOk fails' ∧
      (run E who p fails' s).sess.committed = (cut E who n p fails s).committed := by
  refine (committed_cut E who (by rwa [hwork]) hf n).resolve_left ?_
  rintro ⟨hopen, -⟩
  rw [hwork] at hopen
  cases hopen

end Sql
