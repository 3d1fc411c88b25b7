import MyFS.Sql.Session

/-!
# Transactions on one connection

`run_transaction` describes every run of `transaction p` on a connection with no
transaction open, for any pattern of failures. From it:

* `committed_transaction`: the committed state is the old one, or the complete effect of
  the body;
* `AllOrNothing`, for a sequence of calls on one connection: a call that returned true has
  all of its changes in the durable log and a call that returned false none, at once and
  at every later time. `allOrNothing_runCalls` proves it when no closing statement fails.
-/

namespace Sql

variable {Q C S T α ε : Type} {A : Q → Type} (E : Engine Q A C S) (who : T) {e : ε}

/-- The statement that closes a transaction. -/
def closing : (success : Bool) → Request Q C
  | true => .commit
  | false => .rollback

/-- The session after the closing statement of a transaction whose body ended in `b`. -/
def closeSession (b : Outcome (Except ε α) Q C S T) (ok : Bool) : Session S C T :=
  if ok then (if b.result.isOk then b.sess.commit else b.sess.rollback) else b.sess.clearId

/-- The closing statement itself. -/
def closeEvent (b : Outcome (Except ε α) Q C S T) (ok : Bool) : Event Q C :=
  ⟨closing b.result.isOk, ok⟩

theorem run_stop (success : Bool) (fails : Failures Q C) (s : Session S C T) :
    run E who (stop success >>= fun _ => Program.ret success : Program Q A C Bool) fails s =
      ⟨success, if fails 0 (closing success) then s.clearId
        else if success then s.commit else s.rollback,
        [⟨closing success, !fails 0 (closing success)⟩]⟩ := by
  cases success with
  | false =>
    show run E who (.call .rollback _) fails s = _
    rw [run_call, Session.handle, closing]
    cases fails 0 .rollback <;> rfl
  | true =>
    show run E who (.call .commit _) fails s = _
    rw [run_call, Session.handle, closing]
    cases fails 0 .commit <;> rfl

theorem run_finish (p : Program Q A C (Except ε α)) (fails : Failures Q C) (s : Session S C T) :
    run E who (finish p) fails s =
      let b := run E who p fails s
      let ok := !fails b.trace.length (closing b.result.isOk)
      ⟨b.result.isOk, closeSession b ok, b.trace ++ [closeEvent b ok]⟩ := by
  rw [finish, run_bind]
  simp only [Program.pure_eq, run_stop, closeSession, closeEvent, Nat.zero_add]
  cases fails (run E who p fails s).trace.length _ <;> rfl

/-- Every run of a transaction: `START TRANSACTION` failed and nothing happened, or the
body ran inside the transaction and one closing statement followed it. -/
theorem run_transaction {p : Program Q A C (Except ε α)} (hp : Body e p) (fails : Failures Q C)
    {s : Session S C T} (hs : s.working = none) :
    run E who (transaction p) fails s = ⟨false, s.clearId, [⟨.startTransaction, false⟩]⟩ ∨
      ∃ (b : Outcome (Except ε α) Q C S T) (ok : Bool),
        RanInside E who e p s.startTransaction ⟨s.committed, []⟩ b ∧
        ok = !fails (b.trace.length + 1) (closing b.result.isOk) ∧
        run E who (transaction p) fails s
          = ⟨b.result.isOk, closeSession b ok,
              ⟨.startTransaction, true⟩ :: b.trace ++ [closeEvent b ok]⟩ := by
  have hw : s.startTransaction.working = some ⟨s.committed, []⟩ := by
    rw [Session.startTransaction, Session.visible_of_none hs]
  rw [transaction_eq, run_call, Session.handle]
  cases fails 0 .startTransaction with
  | true => exact .inl rfl
  | false =>
    have hb := hp.run_spec E who (fun n => fails (n + 1)) hw
    refine .inr ⟨_, _, hb, rfl, ?_⟩
    simp only [Bool.false_eq_true, if_false, if_true]
    rw [run_finish]
    rfl

/-- A transaction commits the complete effect of its body or nothing, whatever fails. -/
theorem committed_transaction {p : Program Q A C (Except ε α)} (hp : Body e p)
    (fails : Failures Q C) {s : Session S C T} (hs : s.working = none) :
    (run E who (transaction p) fails s).sess.committed = s.committed ∨
      ∃ a, p.eval E s.committed
        = (.ok a, (run E who (transaction p) fails s).sess.committed) := by
  rcases run_transaction E who hp fails hs with h | ⟨b, ok, hb, -, h⟩
  · exact .inl (by rw [h]; rfl)
  · obtain ⟨v, hv, hok⟩ := hb.working
    have hcom : b.sess.committed = s.committed :=
      hb.committed.trans (Session.visible_of_none hs)
    cases hr : b.result with
    | error e =>
      left
      rw [h]
      cases ok <;> simp [closeSession, hr, Except.isOk, Except.toBool, hcom, Session.rollback]
    | ok a =>
      cases ok with
      | false => exact .inl (by rw [h]; simp [closeSession, hcom])
      | true =>
        refine .inr ⟨a, ?_⟩
        rw [h, hok a hr]
        simp [closeSession, hr, Except.isOk, Except.toBool, Session.commit,
          Session.visible_of_some hv]

/-- A transaction reports failure only if a statement failed, unless its body gives up for a
reason of its own. -/
theorem run_transaction_failed {p : Program Q A C (Except ε α)} (hp : Body e p)
    (fails : Failures Q C) {s : Session S C T} (hs : s.working = none)
    (he : ∀ e', (p.eval E s.committed).1 = .error e' → e' = e)
    (hres : (run E who (transaction p) fails s).result = false) :
    ∃ ev ∈ (run E who (transaction p) fails s).trace, ev.ok = false := by
  rcases run_transaction E who hp fails hs with h | ⟨b, ok, hb, -, h⟩
  · rw [h]
    exact ⟨_, List.mem_singleton_self _, rfl⟩
  · rw [h] at hres ⊢
    have herr : b.result = .error e := by
      rcases hb.stopped with herr | heval
      · exact herr
      · cases hr : b.result with
        | ok a =>
          rw [hr] at hres
          cases hres
        | error e' => rw [he e' (heval.trans hr)]
    obtain ⟨ev, hev, h0⟩ := hb.failed herr
    exact ⟨ev, List.mem_append_left _ (List.mem_cons_of_mem _ hev), h0⟩

/-- If no statement has failed, and the body gives up for no other reason, the transaction returns
true and has committed the complete effect of the body. -/
theorem run_transaction_allOk {p : Program Q A C (Except ε α)} (hp : Body e p)
    {fails : Failures Q C} {s : Session S C T} (hs : s.working = none)
    (he : ∀ e', (p.eval E s.committed).1 = .error e' → e' = e)
    (h : AllOk (run E who (transaction p) fails s).trace) :
    (run E who (transaction p) fails s).result = true ∧
      ∃ a, p.eval E s.committed
        = (.ok a, (run E who (transaction p) fails s).sess.committed) := by
  rcases run_transaction E who hp fails hs with hrun | ⟨b, ok, hb, -, hrun⟩
  · rw [hrun] at h
    exact absurd (h _ (List.mem_singleton_self _)) Bool.false_ne_true
  · rw [hrun] at h ⊢
    have hne : b.result ≠ .error e := by
      intro herr
      obtain ⟨ev, hev, h0⟩ := hb.failed herr
      have := h ev (List.mem_append_left _ (List.mem_cons_of_mem _ hev))
      rw [h0] at this
      cases this
    have hok : ok = true := h (closeEvent b ok) (List.mem_append_right _ (List.mem_singleton_self _))
    obtain ⟨v, hv, hdone⟩ := hb.working
    cases hr : b.result with
    | error e' =>
      have heval := hb.stopped.resolve_left hne
      rw [hr] at heval hne
      exact absurd (congrArg Except.error (he e' heval)) hne
    | ok a =>
      refine ⟨rfl, a, ?_⟩
      rw [closeSession, if_pos hok, hr]
      show p.eval E s.committed = (.ok a, b.sess.visible)
      rw [Session.visible_of_some hv]
      exact hdone a hr

/-- A body that has succeeded has met no failure. -/
theorem Body.allOk {p : Program Q A C (Except ε α)} (hp : Body e p) {fails : Failures Q C}
    {s : Session S C T} {a : α} (hres : (run E who p fails s).result = .ok a) :
    AllOk (run E who p fails s).trace := by
  induction hp generalizing fails s with
  | ret r _ => exact fun ev hev => by cases hev
  | query q k hfail _ ih =>
    rw [run_query] at hres ⊢
    cases hf : fails 0 (.query q) with
    | true =>
      rw [hf] at hres
      dsimp only at hres
      rw [if_pos rfl, hfail] at hres
      cases hres
    | false =>
      rw [hf] at hres
      simp only [AllOk, List.forall_mem_cons]
      exact ⟨rfl, ih _ hres⟩
  | change c k hfail _ ih =>
    by_cases hc : fails 0 (.change c) = true ∨ E.exec c s.visible = none
    · rw [run_change_false E who k hc, hfail] at hres
      cases hres
    · rw [not_or, Bool.not_eq_true] at hc
      obtain ⟨v, hv⟩ := Option.ne_none_iff_exists'.mp hc.2
      obtain ⟨s', hs'⟩ : ∃ s', s.change E who c = some s' :=
        ⟨_, by rw [Session.change, hv]; rfl⟩
      rw [run_change_true E who k hc.1 hs'] at hres ⊢
      simp only [AllOk, List.forall_mem_cons]
      exact ⟨trivial, ih hres⟩

/-- A transaction that reports failure has committed nothing. -/
theorem run_transaction_false {p : Program Q A C (Except ε α)} (hp : Body e p)
    (fails : Failures Q C) {s : Session S C T} (hs : s.working = none)
    (hres : (run E who (transaction p) fails s).result = false) :
    (run E who (transaction p) fails s).sess.committed = s.committed := by
  rcases run_transaction E who hp fails hs with hrun | ⟨b, ok, hb, -, hrun⟩
  · rw [hrun]
    rfl
  · rw [hrun] at hres ⊢
    have hcom : b.sess.committed = s.committed :=
      hb.committed.trans (Session.visible_of_none hs)
    have hclose : closeSession b ok = if ok then b.sess.rollback else b.sess.clearId := by
      rw [closeSession, if_neg (Bool.eq_false_iff.mp hres)]
    dsimp only
    rw [hclose]
    cases ok <;> exact hcom

/-- A transaction that reports success had a body that could be completed. -/
theorem isOk_of_run_transaction {p : Program Q A C (Except ε α)} (hp : Body e p)
    (fails : Failures Q C) {s : Session S C T} (hs : s.working = none)
    (hres : (run E who (transaction p) fails s).result = true) :
    (p.eval E s.committed).1.isOk = true := by
  rcases run_transaction E who hp fails hs with hrun | ⟨b, ok, hb, -, hrun⟩
  · rw [hrun] at hres
    cases hres
  · rw [hrun] at hres
    obtain ⟨a, ha⟩ := Except.isOk_iff.mp hres
    obtain ⟨v, -, hdone⟩ := hb.working
    rw [hdone a ha]
    rfl

/-- No `COMMIT` fails. -/
def CommitsOk (fails : Failures Q C) : Prop := ∀ n, fails n .commit = false

theorem commitsOk_noFailure : CommitsOk (noFailure : Failures Q C) := fun _ => rfl

/-- A transaction that reports success has met no failure if its `COMMIT` has not failed, and has
committed the complete effect of its body. -/
theorem run_transaction_true {p : Program Q A C (Except ε α)} (hp : Body e p)
    {fails : Failures Q C} (hcommit : CommitsOk fails) {s : Session S C T}
    (hs : s.working = none) (hres : (run E who (transaction p) fails s).result = true) :
    AllOk (run E who (transaction p) fails s).trace ∧
      ∃ a, p.eval E s.committed
        = (.ok a, (run E who (transaction p) fails s).sess.committed) := by
  have hall : AllOk (run E who (transaction p) fails s).trace := by
    rw [transaction_eq, run_call, Session.handle] at hres ⊢
    cases hstart : fails 0 .startTransaction with
    | true =>
      rw [hstart] at hres
      cases hres
    | false =>
      rw [hstart] at hres
      simp only [Bool.false_eq_true, if_false, if_true, run_finish] at hres ⊢
      obtain ⟨a, ha⟩ := Except.isOk_iff.mp hres
      have hbody := hp.allOk E who ha
      simp only [AllOk, List.forall_mem_cons, List.forall_mem_append, closeEvent, ha,
        List.not_mem_nil, false_implies, implies_true, and_true]
      exact ⟨rfl, hbody, congrArg not (hcommit _)⟩
  refine ⟨hall, ?_⟩
  rcases run_transaction E who hp fails hs with hrun | ⟨b, ok, hb, -, hrun⟩
  · rw [hrun] at hres
    cases hres
  · rw [hrun] at hres hall ⊢
    obtain ⟨a, ha⟩ := Except.isOk_iff.mp hres
    obtain ⟨v, hv, hdone⟩ := hb.working
    have hok : ok = true :=
      hall (closeEvent b ok) (List.mem_append_right _ (List.mem_singleton_self _))
    refine ⟨a, ?_⟩
    rw [closeSession, if_pos hok, ha]
    show p.eval E s.committed = (.ok a, b.sess.visible)
    rw [Session.visible_of_some hv]
    exact hdone a ha

/-! ## Runs without failures -/

/-- With nothing failing but `COMMIT` a body does what `Program.eval` says, to the end. -/
theorem Body.run_quiet {p : Program Q A C (Except ε α)} (hp : Body e p) {fails : Failures Q C}
    (hfails : ∀ n r, r ≠ .commit → fails n r = false) {s : Session S C T} {w : Pending S C T}
    (hw : s.working = some w) :
    (run E who p fails s).result = (p.eval E w.state).1 ∧
      (run E who p fails s).sess.visible = (p.eval E w.state).2 := by
  induction hp generalizing fails s w with
  | ret r => exact ⟨rfl, Session.visible_of_some hw⟩
  | query q k _ _ ih =>
    rw [run_query, Session.visible_of_some hw, hfails 0 _ (by simp)]
    exact ih (E.ask q w.state) (fun n => hfails (n + 1)) (w := w) (by exact hw)
  | change c k hfail _ ih =>
    cases hv : E.exec c w.state with
    | none =>
      rw [run_change_false E who k (.inr (by rw [Session.visible_of_some hw, hv])),
        Program.eval_change_of_none E k hv, hfail]
      exact ⟨rfl, by simp [Session.visible_of_some hw]⟩
    | some v =>
      obtain ⟨s', hs'⟩ : ∃ s', s.change E who c = some s' :=
        ⟨_, by rw [Session.change, Session.visible_of_some hw, hv]; rfl⟩
      obtain ⟨v', hv', -, -, hwork⟩ := Session.change_of_open hw hs'
      obtain rfl : v = v' := Option.some.inj (hv.symm.trans hv')
      rw [run_change_true E who k (hfails 0 _ (by simp)) hs', Program.eval_change_of_some E k hv]
      exact ih (fun n => hfails (n + 1)) hwork

/-- With nothing failing a body does what `Program.eval` says, to the end. -/
theorem Body.run_noFailure {p : Program Q A C (Except ε α)} (hp : Body e p)
    {s : Session S C T} {w : Pending S C T} (hw : s.working = some w) :
    (run E who p noFailure s).result = (p.eval E w.state).1 ∧
      (run E who p noFailure s).sess.visible = (p.eval E w.state).2 :=
  hp.run_quiet E who (fun _ _ _ => rfl) hw

/-- With nothing failing a transaction reports what its body came to, commits exactly
that, and leaves no transaction open. -/
theorem run_transaction_noFailure {p : Program Q A C (Except ε α)} (hp : Body e p)
    {s : Session S C T} (hs : s.working = none) :
    (run E who (transaction p) noFailure s).result = (p.eval E s.committed).1.isOk ∧
    (run E who (transaction p) noFailure s).sess.committed
      = (if (p.eval E s.committed).1.isOk then (p.eval E s.committed).2 else s.committed) ∧
    (run E who (transaction p) noFailure s).sess.working = none := by
  have hw : s.startTransaction.working = some ⟨s.committed, []⟩ := by
    rw [Session.startTransaction, Session.visible_of_none hs]
  have hrun : run E who (transaction p) noFailure s =
      let b := run E who p noFailure s.startTransaction
      ⟨b.result.isOk, closeSession b true,
        ⟨.startTransaction, true⟩ :: b.trace ++ [closeEvent b true]⟩ := by
    rw [transaction_eq, run_call, Session.handle]
    simp only [noFailure, Bool.false_eq_true, if_false, if_true]
    rw [run_finish]
    rfl
  obtain ⟨hres, hvis⟩ := hp.run_noFailure E who hw
  have hcom := (hp.run_spec E who noFailure hw).committed
  rw [hrun]
  simp only [closeSession, if_true, hres]
  refine ⟨trivial, ?_, ?_⟩
  · split
    · exact hvis
    · exact hcom.trans (Session.visible_of_none hs)
  · split <;> rfl

/-- The failure pattern in which every `COMMIT` fails and nothing else. -/
def lostCommits : Failures Q C := fun _ r =>
  match r with
  | .commit => true
  | _ => false

/-- A transaction whose `COMMIT` fails reports success all the same. -/
theorem run_transaction_lostCommits {p : Program Q A C (Except ε α)} (hp : Body e p)
    {s : Session S C T} (hs : s.working = none) (hok : (p.eval E s.committed).1.isOk = true) :
    (run E who (transaction p) lostCommits s).result = true ∧
      (⟨.commit, false⟩ : Event Q C) ∈ (run E who (transaction p) lostCommits s).trace := by
  have hw : s.startTransaction.working = some ⟨s.committed, []⟩ := by
    rw [Session.startTransaction, Session.visible_of_none hs]
  have hquiet : ∀ n r, r ≠ .commit → (lostCommits : Failures Q C) n r = false := fun _ r hr => by
    cases r <;> first | rfl | exact absurd rfl hr
  obtain ⟨hres, -⟩ := hp.run_quiet E who hquiet hw
  obtain ⟨a, ha⟩ := Except.isOk_iff.mp hok
  rw [ha] at hres
  rw [transaction_eq, run_call, Session.handle]
  simp only [lostCommits, Bool.false_eq_true, if_false, if_true, run_finish]
  have hshift : (fun n => lostCommits (n + 1)) = (lostCommits : Failures Q C) := rfl
  rw [hshift, closeEvent, hres]
  exact ⟨rfl, List.mem_cons_of_mem _ (List.mem_append_right _ (List.mem_singleton.mpr rfl))⟩

/-- What holds whenever a transaction reports success, and its `COMMIT` does not fail, is what
holds of the complete effect of its body. -/
theorem forall_run_transaction_iff {p : Program Q A C (Except ε α)} (hp : Body e p)
    {s : Session S C T} (hs : s.working = none) {R : S → Prop} :
    (∀ fails : Failures Q C, CommitsOk fails →
      (run E who (transaction p) fails s).result = true →
        R (run E who (transaction p) fails s).sess.committed) ↔
      ∀ a v, p.eval E s.committed = (.ok a, v) → R v := by
  constructor
  · intro h a v heval
    obtain ⟨hres, hcom, -⟩ := run_transaction_noFailure E who hp hs
    rw [heval] at hres hcom
    have hR := h noFailure (fun _ => rfl) hres
    rw [hcom] at hR
    exact hR
  · intro h fails hf hres
    rcases run_transaction E who hp fails hs with hnone | ⟨b, ok, hb, hok, hrun⟩
    · rw [hnone] at hres
      cases hres
    · rw [hrun] at hres
      obtain ⟨a, ha⟩ : ∃ a, b.result = .ok a := by
        cases hr : b.result with
        | error e =>
          rw [hr] at hres
          cases hres
        | ok a => exact ⟨a, rfl⟩
      obtain ⟨v, hv, heval⟩ := hb.working
      have htrue : ok = true := by
        rw [hok, ha]
        show (!fails _ .commit) = true
        rw [hf]
        rfl
      refine h a _ ?_
      rw [hrun, heval a ha, htrue]
      simp [closeSession, ha, Except.isOk, Except.toBool, Session.commit, Session.visible_of_some hv]

/-! ## Whose changes a log holds -/

/-- The changes of one author in a log. -/
def changesBy [DecidableEq T] (who : T) (log : List (T × C)) : List C :=
  (log.filter fun e => e.1 = who).map Prod.snd

section changesBy

variable [DecidableEq T] (who : T)

@[simp] theorem changesBy_nil : changesBy who ([] : List (T × C)) = [] := rfl

@[simp] theorem changesBy_append (log log' : List (T × C)) :
    changesBy who (log ++ log') = changesBy who log ++ changesBy who log' := by
  simp [changesBy]

theorem changesBy_eq_nil {who : T} {log : List (T × C)} (h : ∀ e ∈ log, e.1 ≠ who) :
    changesBy who log = [] := by
  rw [changesBy, List.filter_eq_nil_iff.mpr (by simpa using h), List.map_nil]

theorem changesBy_self (cs : List C) : changesBy who (cs.map (who, ·)) = cs := by
  induction cs with
  | nil => rfl
  | cons c cs ih => simpa [changesBy] using ih

end changesBy

/-! ## Sequences of calls -/

/-- Calls made one after the other on one connection, each with its own failures. The
changes of a call are logged under its number. -/
def runCalls (E : Engine Q A C S) : (n : ℕ) → List (Program Q A C Bool × Failures Q C) →
    Session S C ℕ → List (Outcome Bool Q C S ℕ)
  | _, [], _ => []
  | n, (p, fails) :: calls, s =>
    let o := run E n p fails s
    o :: runCalls E (n + 1) calls o.sess

/-- After each of the calls, what is committed is what the logged changes make of the first state. -/
theorem accounts_runCalls {s₀ : S} {calls : List (Program Q A C Bool × Failures Q C)} {n : ℕ}
    {s : Session S C ℕ} (h : s.Accounts E s₀) {o : Outcome Bool Q C S ℕ}
    (ho : o ∈ runCalls E n calls s) : o.sess.Accounts E s₀ := by
  induction calls generalizing n s with
  | nil => cases ho
  | cons c calls ih =>
    have hnext := accounts_run E n c.1 c.2 h
    rcases List.mem_cons.mp ho with rfl | ho
    · exact hnext
    · exact ih hnext ho

/-- At the end of every later call, a call that returned true has all of its changes in the
durable log and a call that returned false has none there. -/
def AllOrNothing (os : List (Outcome Bool Q C S ℕ)) : Prop :=
  ∀ (i j : ℕ) (o o' : Outcome Bool Q C S ℕ), i ≤ j → os[i]? = some o → os[j]? = some o' →
    changesBy i o'.sess.log = if o.result then changesOf o.trace else []

/-- No closing statement fails. -/
def ClosesOk (fails : Failures Q C) : Prop := ∀ n, fails n .commit = false ∧ fails n .rollback = false

/-- If its closing statement does not fail, a transaction leaves none open, and logs all of
its changes or none. -/
theorem run_transaction_closed {p : Program Q A C (Except ε α)} (hp : Body e p)
    {fails : Failures Q C} (hf : ClosesOk fails) {s : Session S C T} (hs : s.working = none) :
    let o := run E who (transaction p) fails s
    o.sess.working = none ∧
      o.sess.log = s.log ++ if o.result then (changesOf o.trace).map (who, ·) else [] := by
  dsimp only
  rcases run_transaction E who hp fails hs with h | ⟨b, ok, hb, hok, h⟩
  · rw [h]
    exact ⟨hs, by simp⟩
  · have htrue : ok = true := by
      rw [hok]
      cases b.result.isOk with
      | true => simp [closing, (hf _).1]
      | false => simp [closing, (hf _).2]
    obtain ⟨v, hv, -⟩ := hb.working
    have hlog : b.sess.log = s.log := by
      rw [hb.log, Session.startTransaction, Session.pending_of_none hs, List.append_nil]
    have hchanges : ∀ e : Event Q C, e = closeEvent b true →
        changesOf (⟨.startTransaction, true⟩ :: b.trace ++ [e]) = changesOf b.trace := by
      rintro e rfl
      rw [closeEvent]
      cases b.result.isOk <;> simp [closing, changesOf]
    rw [h, htrue, hchanges _ rfl, closeSession, if_pos rfl]
    cases b.result.isOk with
    | true => simp [Session.commit, hlog, Session.pending_of_some hv]
    | false => simp [Session.rollback, hlog]

/-- The log after any of a sequence of calls: what was there before and changes of these
calls. With it, all or nothing. -/
theorem runCalls_spec {calls : List (Program Q A C Bool × Failures Q C)}
    (hp : ∀ c ∈ calls, ∃ (α : Type) (p : Program Q A C (Except ε α)), Body e p ∧ c.1 = transaction p)
    (hf : ∀ c ∈ calls, ClosesOk c.2) {n : ℕ} {s : Session S C ℕ} (hs : s.working = none)
    (hlog : ∀ e ∈ s.log, e.1 < n) (j : ℕ) {o' : Outcome Bool Q C S ℕ}
    (hj : (runCalls E n calls s)[j]? = some o') :
    (∃ ext, o'.sess.log = s.log ++ ext ∧ ∀ e ∈ ext, n ≤ e.1) ∧
      ∀ i o, i ≤ j → (runCalls E n calls s)[i]? = some o →
        changesBy (n + i) o'.sess.log = if o.result then changesOf o.trace else [] := by
  induction calls generalizing n s j with
  | nil => cases hj
  | cons c calls ih =>
    obtain ⟨p, fails⟩ := c
    rw [List.forall_mem_cons] at hp hf
    obtain ⟨⟨α, q, hq, rfl⟩, hp⟩ := hp
    obtain ⟨hw₁, hlog₁⟩ := run_transaction_closed E n hq hf.1 hs
    set o₁ := run E n (transaction q) fails s
    have hother : ∀ e ∈ s.log, e.1 ≠ n := fun e he => Nat.ne_of_lt (hlog e he)
    -- this call's own changes in the log it leaves
    have hown : changesBy n o₁.sess.log = if o₁.result then changesOf o₁.trace else [] := by
      rw [hlog₁, changesBy_append, changesBy_eq_nil hother, List.nil_append]
      split
      · exact changesBy_self n _
      · rfl
    have hnew : ∀ e ∈ (if o₁.result then (changesOf o₁.trace).map (n, ·) else []), n = e.1 := by
      intro e he
      split at he
      · obtain ⟨c, -, rfl⟩ := List.mem_map.mp he
        rfl
      · cases he
    cases j with
    | zero =>
      obtain rfl : o₁ = o' := Option.some.inj hj
      refine ⟨⟨_, hlog₁, fun e he => Nat.le_of_eq (hnew e he)⟩, fun i o hi ho => ?_⟩
      obtain rfl : i = 0 := by omega
      obtain rfl : o₁ = o := Option.some.inj ho
      exact hown
    | succ j =>
      have hlt : ∀ e ∈ o₁.sess.log, e.1 < n + 1 := by
        intro e he
        rw [hlog₁] at he
        rcases List.mem_append.mp he with he | he
        · exact Nat.lt_succ_of_lt (hlog e he)
        · rw [hnew e he]
          exact Nat.lt_succ_self _
      obtain ⟨⟨ext, hext, hge⟩, hall⟩ := ih hp hf.2 hw₁ hlt j hj
      refine ⟨⟨_, by rw [hext, hlog₁, List.append_assoc], ?_⟩, fun i o hi ho => ?_⟩
      · intro e he
        rcases List.mem_append.mp he with he | he
        · exact Nat.le_of_eq (hnew e he)
        · exact Nat.le_of_succ_le (hge e he)
      · cases i with
        | zero =>
          obtain rfl : o₁ = o := Option.some.inj ho
          have hlater : changesBy n ext = [] := changesBy_eq_nil fun e he => by
            have := hge e he
            omega
          rw [hext, Nat.add_zero, changesBy_append, hlater, List.append_nil]
          exact hown
        | succ i =>
          have := hall i o (by omega) ho
          rwa [show n + 1 + i = n + (i + 1) by omega] at this

/-- Calls of transactions whose closing statements do not fail are all or nothing. -/
theorem allOrNothing_runCalls {calls : List (Program Q A C Bool × Failures Q C)}
    (hp : ∀ c ∈ calls, ∃ (α : Type) (p : Program Q A C (Except ε α)), Body e p ∧ c.1 = transaction p)
    (hf : ∀ c ∈ calls, ClosesOk c.2) (s : S) :
    AllOrNothing (runCalls E 0 calls (Session.idle s)) := by
  intro i j o o' hij hi hj
  have h := (runCalls_spec E hp hf rfl (by simp) j hj).2 i o hij hi
  rwa [Nat.zero_add] at h

end Sql
