import MyFS.Sql.Transaction

/-!
# What programs come to, whatever fails

`Program.Ends E s R p`: on a connection with no transaction open, on which `s` is committed, the
program returns an `a` and leaves an `s'` committed with `R a s'`, and no transaction open, whichever
statements fail. Only those that close a transaction do not.

A program is followed with the rules `Ends.bind`, `ends_query` and `ends_change`;
`ReadOnly.ends_andThen` is for a step that reads, `ends_transaction` for a whole transaction, which
does all that its body does, or nothing.
-/

namespace Sql

variable {Q C S α β ε : Type} {A : Q → Type} {E : Engine Q A C S} {s : S}

theorem ClosesOk.tail {fails : Failures Q C} (h : ClosesOk fails) (k : ℕ) :
    ClosesOk fun n => fails (n + k) := fun n => h (n + k)

theorem closesOk_noFailure : ClosesOk (noFailure : Failures Q C) := fun _ => ⟨rfl, rfl⟩

namespace Program

def Ends (E : Engine Q A C S) (s : S) (R : α → S → Prop) (p : Program Q A C α) : Prop :=
  ∀ (T : Type) (who : T) (fails : Failures Q C) (sess : Session S C T), ClosesOk fails →
    sess.working = none → sess.committed = s →
      R (run E who p fails sess).result (run E who p fails sess).sess.committed ∧
        (run E who p fails sess).sess.working = none

theorem ends_ret {R : α → S → Prop} {a : α} (h : R a s) :
    (ret a : Program Q A C α).Ends E s R := by
  intro T who fails sess _ hwork hcom
  subst hcom
  exact ⟨h, hwork⟩

theorem Ends.mono {R R' : α → S → Prop} {p : Program Q A C α} (hp : p.Ends E s R)
    (hR : ∀ a s', R a s' → R' a s') : p.Ends E s R' := by
  intro T who fails sess hf hwork hcom
  obtain ⟨h, hwork'⟩ := hp T who fails sess hf hwork hcom
  exact ⟨hR _ _ h, hwork'⟩

theorem Ends.bind {R : α → S → Prop} {R' : β → S → Prop} {p : Program Q A C α}
    {f : α → Program Q A C β} (hp : p.Ends E s R) (hf : ∀ a s', R a s' → (f a).Ends E s' R') :
    (p >>= f).Ends E s R' := by
  intro T who fails sess hfails hwork hcom
  obtain ⟨h, hwork'⟩ := hp T who fails sess hfails hwork hcom
  rw [run_bind]
  exact hf _ _ h T who _ _ (hfails.tail _) hwork' rfl

/-- A result that is only put into another form. -/
theorem Ends.andThen_ret {R : Except ε β → S → Prop} {p : Program Q A C (Except ε α)}
    {g : α → Except ε β} (hp : p.Ends E s fun r s' => R (r.bind g) s') :
    (p.andThen fun a => ret (g a)).Ends E s R := by
  refine Ends.bind hp fun r s' hr => ?_
  cases r with
  | error e => exact ends_ret hr
  | ok a => exact ends_ret hr

/-- A step that reads, with what it ensures. -/
theorem ReadOnly.ends {R : α → Prop} {p : Program Q A C α} (hp : p.ReadOnly)
    (hR : p.Ensures E s R) : p.Ends E s fun a s' => R a ∧ s' = s := by
  intro T who fails sess _ hwork hcom
  obtain ⟨hcom', -, hwork', -⟩ := run_readOnly E who hp fails sess
  have hvis : sess.visible = s := (Session.visible_of_none hwork).trans hcom
  exact ⟨⟨run_ensures E who (hvis ▸ hR) fails, hcom'.trans hcom⟩, hwork'.trans hwork⟩

/-- A step that reads and may end the program, with what it ensures if it does not. -/
theorem ReadOnly.ends_andThen {R : α → Prop} {R' : Except ε β → S → Prop}
    {p : Program Q A C (Except ε α)} {f : α → Program Q A C (Except ε β)} (hp : p.ReadOnly)
    (hR : p.Ensures E s fun r => ∀ a, r = .ok a → R a) (herror : ∀ e, R' (.error e) s)
    (hf : ∀ a, R a → (f a).Ends E s R') : (p.andThen f).Ends E s R' := by
  refine (hp.ends hR).bind fun r s' ⟨hr, hs'⟩ => ?_
  subst hs'
  cases r with
  | error e => exact ends_ret (herror e)
  | ok a => exact hf a (hr a rfl)

theorem ends_query {R : α → S → Prop} {q : Q} {k : Option (A q) → Program Q A C α}
    (hnone : (k none).Ends E s R) (hsome : (k (some (E.ask q s))).Ends E s R) :
    (call (.query q) k : Program Q A C α).Ends E s R := by
  intro T who fails sess hf hwork hcom
  have hvis : sess.visible = s := (Session.visible_of_none hwork).trans hcom
  rw [run_query, hvis]
  cases fails 0 (.query q) with
  | true => exact hnone T who _ sess.clearId (hf.tail 1) hwork hcom
  | false => exact hsome T who _ sess.clearId (hf.tail 1) hwork hcom

/-- A change outside of a transaction is durable at once, or nothing happens. -/
theorem ends_change {R : α → S → Prop} {c : C} {k : Bool → Program Q A C α}
    (hfalse : (k false).Ends E s R) (htrue : ∀ s', E.exec c s = some s' → (k true).Ends E s' R) :
    (call (.change c) k : Program Q A C α).Ends E s R := by
  intro T who fails sess hf hwork hcom
  have hvis : sess.visible = s := (Session.visible_of_none hwork).trans hcom
  by_cases hfail : fails 0 (.change c) = true ∨ E.exec c sess.visible = none
  · rw [run_change_false E who k hfail]
    exact hfalse T who _ sess.clearId (hf.tail 1) hwork hcom
  · rw [not_or, Bool.not_eq_true] at hfail
    obtain ⟨v, hv⟩ := Option.ne_none_iff_exists'.mp hfail.2
    obtain ⟨sess', hsess'⟩ : ∃ sess', sess.change E who c = some sess' :=
      ⟨_, by rw [Session.change, hv]; rfl⟩
    obtain ⟨v', hv', hcom', -, hwork'⟩ := Session.change_of_closed hwork hsess'
    rw [run_change_true E who k hfail.1 hsess']
    subst hcom
    exact htrue _ (hcom' ▸ hv') T who _ _ (hf.tail 1) hwork' rfl

/-- A transaction that returns true has done what its body does, one that returns false nothing. -/
theorem ends_transaction {e : ε} {p : Program Q A C (Except ε α)} (hp : Body e p)
    {R : Bool → S → Prop} (hfalse : R false s)
    (htrue : ∀ a s', p.eval E s = (.ok a, s') → R true s') : (transaction p).Ends E s R := by
  intro T who fails sess hf hwork hcom
  refine ⟨?_, (run_transaction_closed E who hp hf hwork).1⟩
  subst hcom
  cases hres : (run E who (transaction p) fails sess).result with
  | false =>
    rw [run_transaction_false E who hp fails hwork hres]
    exact hfalse
  | true =>
    obtain ⟨-, a, heval⟩ := run_transaction_true E who hp (fun n => (hf n).1) hwork hres
    exact htrue a _ heval

/-- A transaction, and what goes by whether it has been committed. -/
theorem ends_transaction_bind {e : ε} {p : Program Q A C (Except ε α)} (hp : Body e p)
    {R : β → S → Prop} {f : Bool → Program Q A C β} (hfalse : (f false).Ends E s R)
    (htrue : ∀ a s', p.eval E s = (.ok a, s') → (f true).Ends E s' R) :
    (transaction p >>= f).Ends E s R := by
  refine Ends.bind (ends_transaction hp (R := fun success s' => (f success).Ends E s' R) hfalse htrue)
    fun success s' h => h

end Program

end Sql
