import MyFS.Sql.Session

/-!
# Scripts

A script sends its changes one after the other, outside of a transaction, and stops at the first
that fails. A run that reports success has made all of them (`run_script_bind`), and without
failures it does if the engine accepts each where those before it lead (`run_script_noFailure`).
-/

namespace Sql

variable {Q C S T α : Type} {A : Q → Type}

/-- Send changes until one fails; whether none did. -/
def script : List C → Program Q A C Bool
  | [] => .ret true
  | c :: cs => .call (.change c) fun success => if success then script cs else .ret false

theorem only_script {P : C → Prop} {cs : List C} (h : ∀ c ∈ cs, P c) :
    (script cs : Program Q A C Bool).Only P := by
  induction cs with
  | nil => trivial
  | cons c cs ih =>
    refine ⟨fun c' hc => ?_, fun success => ?_⟩
    · cases hc
      exact h c List.mem_cons_self
    · cases success with
      | false => trivial
      | true => exact ih fun c' hc' => h c' (List.mem_cons_of_mem c hc')

/-- The state that changes lead to, if none is rejected. -/
def execAll (E : Engine Q A C S) : List C → S → Option S
  | [], s => some s
  | c :: cs, s => (E.exec c s).bind (execAll E cs)

variable (E : Engine Q A C S) (who : T)

theorem execAll_append (cs cs' : List C) (s : S) :
    execAll E (cs ++ cs') s = (execAll E cs s).bind (execAll E cs') := by
  induction cs generalizing s with
  | nil => rfl
  | cons c cs ih =>
    rw [List.cons_append, execAll, execAll, Option.bind_assoc]
    exact congrArg (Option.bind (E.exec c s)) (funext ih)

/-- Outside of a transaction a change is made, or the statement fails or is rejected. -/
theorem run_change_closed (c : C) (k : Bool → Program Q A C α) (fails : Failures Q C)
    {s : Session S C T} (hs : s.working = none) :
    ∃ (success : Bool) (s' : Session S C T), s'.working = none ∧
      (success = true ∧ fails 0 (.change c) = false ∧ E.exec c s.committed = some s'.committed ∨
        success = false ∧ (fails 0 (.change c) = true ∨ E.exec c s.committed = none) ∧
          s'.committed = s.committed) ∧
      (run E who (.call (.change c) k) fails s).result =
        (run E who (k success) (fun n => fails (n + 1)) s').result ∧
      (run E who (.call (.change c) k) fails s).sess =
        (run E who (k success) (fun n => fails (n + 1)) s').sess := by
  by_cases hc : fails 0 (.change c) = true ∨ E.exec c s.committed = none
  · rw [run_change_false E who k (by rwa [Session.visible_of_none hs])]
    exact ⟨false, s.clearId, hs, .inr ⟨rfl, hc, rfl⟩, rfl, rfl⟩
  · rw [not_or, Bool.not_eq_true] at hc
    obtain ⟨hf, hexec⟩ := hc
    obtain ⟨v, hv⟩ := Option.ne_none_iff_exists'.mp hexec
    obtain ⟨s', hs'⟩ : ∃ s', s.change E who c = some s' := by
      rw [Session.change, Session.visible_of_none hs, hv]
      exact ⟨_, rfl⟩
    obtain ⟨v', hv', hcom, -, hwork⟩ := Session.change_of_closed hs hs'
    rw [run_change_true E who k hf hs']
    exact ⟨true, s', hwork, .inl ⟨rfl, hf, hcom ▸ hv'⟩, rfl, rfl⟩

/-- What comes after a script is run where all its changes lead, if it is told that it succeeded. -/
theorem run_script_bind (cs : List C) (k : Bool → Program Q A C α) (fails : Failures Q C)
    {s : Session S C T} (hs : s.working = none) :
    ∃ (success : Bool) (fails' : Failures Q C) (s' : Session S C T), s'.working = none ∧
      (success = true → execAll E cs s.committed = some s'.committed) ∧
      (run E who (script cs >>= k) fails s).result = (run E who (k success) fails' s').result ∧
      (run E who (script cs >>= k) fails s).sess = (run E who (k success) fails' s').sess := by
  induction cs generalizing fails s with
  | nil => exact ⟨true, fails, s, hs, fun _ => rfl, rfl, rfl⟩
  | cons c cs ih =>
    obtain ⟨success, s₁, hs₁, hstep, hres, hsess⟩ := run_change_closed E who c
      (fun success => (if success then script cs else .ret false) >>= k) fails hs
    rw [script, Program.call_bind, hres, hsess]
    rcases hstep with ⟨rfl, -, hexec⟩ | ⟨rfl, -⟩
    · rw [execAll, hexec]
      exact ih _ hs₁
    · exact ⟨false, _, s₁, hs₁, nofun, rfl, rfl⟩

/-- Without failures a script makes its changes, if none is rejected. -/
theorem run_script_noFailure (cs : List C) {s : Session S C T} {v : S} (hs : s.working = none)
    (h : execAll E cs s.committed = some v) :
    (run E who (script cs) noFailure s).result = true ∧
      (run E who (script cs) noFailure s).sess.committed = v := by
  induction cs generalizing s with
  | nil => exact ⟨rfl, Option.some.inj h⟩
  | cons c cs ih =>
    obtain ⟨w, hw, hrest⟩ := Option.bind_eq_some_iff.mp h
    obtain ⟨success, s', hs', hstep, hres, hsess⟩ := run_change_closed E who c
      (fun success => if success then script cs else .ret false) noFailure hs
    rw [script, hres, hsess]
    rcases hstep with ⟨rfl, -, hexec⟩ | ⟨-, hreject, -⟩
    · rw [hw, Option.some.injEq] at hexec
      rw [hexec] at hrest
      exact ih hs' hrest
    · -- the change is not rejected
      rw [hw] at hreject
      exact absurd (hreject.resolve_left Bool.false_ne_true) nofun

end Sql
