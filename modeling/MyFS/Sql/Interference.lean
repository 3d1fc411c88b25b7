import MyFS.Sql.Cluster

/-!
# Programs under interference

Clients of one server that are in no transaction may find another state with every query they
make. `Within` says what a program that only reads returns then, `Opening` how a program begins that
reads first. `Reaches` states are followed with two lemmas: `opening_step` for a client at its
beginning, and `holds_step` for what a client's changes keep, inside a transaction and outside.
-/

namespace Sql

variable {Q C S K ι α β ε : Type} {A : Q → Type}

namespace Program

variable {E : Engine Q A C S} {I : S → Prop}

/-- The program only reads, and what it returns satisfies `R`, if each of its queries fails or is
answered in a state that satisfies `I`. -/
def Within (E : Engine Q A C S) (I : S → Prop) (R : α → Prop) : Program Q A C α → Prop
  | .ret a => R a
  | .call (.query q) k => (k none).Within E I R ∧ ∀ s, I s → (k (some (E.ask q s))).Within E I R
  | .call .startTransaction _ | .call .commit _ | .call .rollback _ | .call (.change _) _
  | .call .insertId _ => False

theorem Within.bind {R : α → Prop} {R' : β → Prop} {p : Program Q A C α}
    {f : α → Program Q A C β} (hp : p.Within E I R) (hf : ∀ a, R a → (f a).Within E I R') :
    (p >>= f).Within E I R' := by
  induction p with
  | ret a => exact hf a hp
  | call r k ih =>
    cases r with
    | query q => exact ⟨ih _ hp.1, fun s hs => ih _ (hp.2 s hs)⟩
    | startTransaction | commit | rollback | change | insertId => exact hp.elim

theorem Within.mono {R R' : α → Prop} {p : Program Q A C α} (hp : p.Within E I R)
    (hR : ∀ a, R a → R' a) : p.Within E I R' := by
  induction p with
  | ret a => exact hR a hp
  | call r k ih =>
    cases r with
    | query q => exact ⟨ih _ hp.1, fun s hs => ih _ (hp.2 s hs)⟩
    | startTransaction | commit | rollback | change | insertId => exact hp.elim

/-- After a step that may have failed, with a property of what it returns if it did not. -/
theorem Within.andThen {R : α → Prop} {R' : β → Prop} {p : Program Q A C (Except ε α)}
    {f : α → Program Q A C (Except ε β)} (hp : p.Within E I fun r => ∀ a, r = .ok a → R a)
    (hf : ∀ a, R a → (f a).Within E I fun r => ∀ b, r = .ok b → R' b) :
    (p.andThen f).Within E I fun r => ∀ b, r = .ok b → R' b := by
  apply hp.bind
  intro r hr
  cases r with
  | error e => exact nofun
  | ok a => exact hf a (hr a rfl)

theorem ReadOnly.within {p : Program Q A C α} (hp : p.ReadOnly) :
    p.Within E I fun _ => True := by
  induction hp with
  | ret a => trivial
  | query q k _ ih => exact ⟨ih _, fun s _ => ih _⟩

/-- How a program begins if each of its queries fails or is answered in a state that satisfies `I`.
It reads until it makes a change or opens a transaction, as `Turn` says; if that succeeds it is
`Late` from then on. If it never does, what the program returns satisfies `R`. -/
def Opening (E : Engine Q A C S) (I : S → Prop) (Turn : Request Q C → Prop)
    (Late : Program Q A C α → Prop) (R : α → Prop) : Program Q A C α → Prop
  | .ret a => R a
  | .call (.query q) k =>
    (k none).Opening E I Turn Late R ∧ ∀ s, I s → (k (some (E.ask q s))).Opening E I Turn Late R
  | .call (.change c) k =>
    Turn (.change c) ∧ (k false).Opening E I Turn Late R ∧ Late (k true)
  | .call .startTransaction k =>
    Turn .startTransaction ∧ (k false).Opening E I Turn Late R ∧ Late (k true)
  | .call .commit _ | .call .rollback _ | .call .insertId _ => False

variable {Turn : Request Q C → Prop}

theorem Within.opening_bind {R : α → Prop} {Late : Program Q A C β → Prop} {R' : β → Prop}
    {p : Program Q A C α} {f : α → Program Q A C β} (hp : p.Within E I R)
    (hf : ∀ a, R a → (f a).Opening E I Turn Late R') : (p >>= f).Opening E I Turn Late R' := by
  induction p with
  | ret a => exact hf a hp
  | call r k ih =>
    cases r with
    | query q => exact ⟨ih _ hp.1, fun s hs => ih _ (hp.2 s hs)⟩
    | startTransaction | commit | rollback | change | insertId => exact hp.elim

theorem Within.opening_andThen {R : α → Prop} {Late : Program Q A C (Except ε β) → Prop}
    {R' : Except ε β → Prop} {p : Program Q A C (Except ε α)}
    {f : α → Program Q A C (Except ε β)} (hp : p.Within E I fun r => ∀ a, r = .ok a → R a)
    (herror : ∀ e, R' (.error e)) (hf : ∀ a, R a → (f a).Opening E I Turn Late R') :
    (p.andThen f).Opening E I Turn Late R' := by
  apply hp.opening_bind
  intro r hr
  cases r with
  | error e => exact herror e
  | ok a => exact hf a (hr a rfl)

end Program

namespace Cluster

variable [Fintype ι] [DecidableEq ι] [DecidableEq K] {E : Engine Q A C S} {V : Versions C S K}
  {st : Cluster Q A C S K ι α} {i j : ι} {fail : Bool}

/-- Only the client that takes a step changes. -/
theorem client_step_of_ne (h : j ≠ i) : (st.step E V i fail).client j = st.client j := by
  obtain heq | ⟨r, k, -, -, heq⟩ := step_cases E V st i fail
  · rw [heq]
  · rw [heq, client_serve_of_ne h]

/-- A client that is done takes no more steps. -/
theorem step_of_ret {a : α} (h : (st.client i).prog = .ret a) : st.step E V i fail = st := by
  unfold step
  rw [h]

omit [Fintype ι] [DecidableEq ι] [DecidableEq K] in
theorem of_nextChange {P : C → Prop} {c : C} (h : (st.client i).prog.Only P)
    (hnext : st.nextChange i = some c) : P c := by
  unfold nextChange at hnext
  split at hnext
  · next k hprog =>
    rw [hprog] at h
    obtain rfl := Option.some.inj hnext
    exact h.1 _ rfl
  · cases hnext

theorem only_step {P : C → Prop} (h : (st.client i).prog.Only P) :
    ((st.step E V i fail).client i).prog.Only P := by
  obtain heq | ⟨r, k, hprog, -, heq⟩ := step_cases E V st i fail
  · rw [heq]
    exact h
  · rw [heq, client_serve_self]
    rw [hprog] at h
    exact h.2 _

/-- A client at its beginning makes a query, or fails, or takes its turn. -/
theorem opening_step {I : S → Prop} {Turn : Request Q C → Prop}
    {Late : Program Q A C α → Prop} {R : α → Prop} (htxn : (st.client i).txn = none)
    (hprog : (st.client i).prog.Opening E I Turn Late R) (hI : I st.store) (fail : Bool) :
    (st.step E V i fail).store = st.store ∧ ((st.step E V i fail).client i).txn = none ∧
        ((st.step E V i fail).client i).prog.Opening E I Turn Late R ∨
      Late ((st.step E V i fail).client i).prog ∧ fail = false ∧
        ((∃ c, Turn (.change c) ∧ st.nextChange i = some c ∧
            E.exec c st.store = some (st.step E V i fail).store ∧
            ((st.step E V i fail).client i).txn = none) ∨
          Turn .startTransaction ∧ (st.step E V i fail).store = st.store ∧
            ((st.step E V i fail).client i).txn = some ⟨none, st.store, [], []⟩) := by
  obtain heq | ⟨r, k, hcall, -, heq⟩ := step_cases E V st i fail
  · rw [heq]
    exact .inl ⟨rfl, htxn, hprog⟩
  · rw [heq, htxn, store_serve, client_serve_self]
    rw [hcall] at hprog
    cases r with
    | commit | rollback | insertId => exact hprog.elim
    | query q =>
      cases fail with
      | true => exact .inl ⟨rfl, rfl, hprog.1⟩
      | false => exact .inl ⟨rfl, rfl, hprog.2 _ hI⟩
    | startTransaction =>
      cases fail with
      | true => exact .inl ⟨rfl, rfl, hprog.2.1⟩
      | false => exact .inr ⟨hprog.2.2, rfl, .inr ⟨hprog.1, rfl, rfl⟩⟩
    | change c =>
      cases fail with
      | true => exact .inl ⟨rfl, rfl, hprog.2.1⟩
      | false =>
        have hnext : st.nextChange i = some c := by rw [nextChange, hcall]
        cases hc : E.exec c st.store with
        | none =>
          rw [answer_change_of_none (V := V) none hc]
          exact .inl ⟨rfl, rfl, hprog.2.1⟩
        | some s' =>
          rw [answer_change_of_some hc]
          exact .inr ⟨hprog.2.2, rfl, .inl ⟨c, hprog.1, hnext, hc, rfl⟩⟩

/-- What the changes of a client keep holds after its step of the store and of the rows on which
its next change acts, if the generated keys do not matter. -/
theorem holds_step (hV : V.Lawful E) (st : Cluster Q A C S K ι α) (i : ι) (fail : Bool) {G : S → Prop}
    (hG : ∀ {store s'}, G store → G (V.advance store s')) (hstore : G st.store)
    (hcurrent : G (st.current V i))
    (hexec : ∀ c s', fail = false → st.nextChange i = some c →
      E.exec c (st.current V i) = some s' → G s') :
    G (st.step E V i fail).store ∧ G ((st.step E V i fail).current V i) := by
  obtain heq | ⟨r, k, hcall, -, heq⟩ := step_cases E V st i fail
  · rw [heq]
    exact ⟨hstore, hcurrent⟩
  · rw [heq, store_serve]
    unfold Cluster.current at hcurrent hexec ⊢
    rw [client_serve_self, store_serve]
    cases r with
    | insertId => exact ⟨hstore, hcurrent⟩
    | query q =>
      cases fail with
      | true => exact ⟨hstore, hcurrent⟩
      | false =>
        refine ⟨hstore, ?_⟩
        -- a snapshot does not change what the next change acts on
        cases htxn : (st.client i).txn with
        | none => exact hstore
        | some t =>
          rw [htxn] at hcurrent
          exact hcurrent
    | startTransaction =>
      cases fail with
      | true => exact ⟨hstore, hcurrent⟩
      | false =>
        refine ⟨hcurrent, ?_⟩
        have hnil := hV.merge_nil (Txn.current V st.store (st.client i).txn)
          (Txn.current V st.store (st.client i).txn)
        show G (V.merge [] (Txn.current V st.store (st.client i).txn)
          (Txn.current V st.store (st.client i).txn))
        rw [hnil]
        exact hcurrent
    | commit =>
      cases fail with
      | true => exact ⟨hstore, hcurrent⟩
      | false => exact ⟨hcurrent, hcurrent⟩
    | rollback =>
      cases fail with
      | true => exact ⟨hstore, hcurrent⟩
      | false => exact ⟨hstore, hstore⟩
    | change c =>
      cases fail with
      | true => exact ⟨hstore, hcurrent⟩
      | false =>
        have hnext : st.nextChange i = some c := by rw [nextChange, hcall]
        cases hc : E.exec c (Txn.current V st.store (st.client i).txn) with
        | none =>
          rw [answer_change_of_none _ hc]
          exact ⟨hstore, hcurrent⟩
        | some s' =>
          have hs' := hexec c s' rfl hnext hc
          cases htxn : (st.client i).txn with
          | none =>
            rw [htxn] at hc
            have hc : E.exec c st.store = some s' := hc
            rw [answer_change_of_some hc]
            exact ⟨hs', hs'⟩
          | some t =>
            rw [htxn] at hc
            rw [answer_change_of_txn hc]
            refine ⟨hG hstore, ?_⟩
            show G (V.merge (t.locked ++ V.locks c (V.merge t.locked st.store t.own)) _ _)
            rw [hV.merge_exec hc]
            exact hs'

end Cluster

end Sql
