import MyFS.Sql.Cluster

/-!
# Transactions that begin with the same lock

Clients whose transactions lock a key `k` with their first change. From then on no other client
makes a change until the transaction ends, so that it goes on from what was committed when it took
the lock; only what it has read before may be older. `Latched.step` says all that a step can do.
-/

namespace Sql

variable {Q C S K ι α : Type} {A : Q → Type}

/-- A transaction that has locked nothing yet, or `k`, and then goes on from its own rows. -/
def Txn.Settled (V : Versions C S K) (k : K) (store : S) (t : Txn S K) : Prop :=
  t.locked = [] ∨ k ∈ t.locked ∧ V.merge t.locked store t.own = t.own

/-- The next statement has its place: the only ones outside of a transaction are those that start
it, and its first change locks `k`. -/
def Client.Ready (E : Engine Q A C S) (V : Versions C S K) (k : K) (store : S)
    (c : Client Q A C S K α) : Prop :=
  match c.prog with
  | .ret _ => True
  | .call .startTransaction _ => c.txn = none
  | .call (.query _) _ | .call .commit _ | .call .rollback _ => c.txn ≠ none
  | .call (.change x) _ =>
    ∃ t, c.txn = some t ∧ (t.locked = [] → ∀ s', E.exec x store = some s' → k ∈ V.locks x store)
  | .call .insertId _ => False

/-- What the next statement of a client does to what is committed, and to the client. The last
argument tells whether it has committed the client's transaction. -/
inductive ClientStep (E : Engine Q A C S) (V : Versions C S K) (k : K) (fail : Bool) (s : S) :
    Client Q A C S K α → S → Client Q A C S K α → Bool → Prop
  | failed {r : Request Q C} {p : Reply A r → Program Q A C α} {txn : Option (Txn S K)} {n : ℕ}
      (h : fail = true ∨ ∃ c, r = .change c) :
      ClientStep E V k fail s ⟨.call r p, txn, n⟩ s ⟨p (Reply.failed r), txn, 0⟩ false
  | start {p : Bool → Program Q A C α} {n : ℕ} :
      ClientStep E V k fail s ⟨.call .startTransaction p, none, n⟩ s
        ⟨p true, some ⟨none, s, [], []⟩, 0⟩ false
  | look {q : Q} {p : Option (A q) → Program Q A C α} {t : Txn S K} {n : ℕ} :
      ClientStep E V k fail s ⟨.call (.query q) p, some t, n⟩ s
        ⟨p (some (E.ask q (Txn.reads V s (some t)))), some (t.look s), 0⟩ false
  | latch {c : C} {p : Bool → Program Q A C α} {t : Txn S K} {n : ℕ} {s' : S}
      (hfail : fail = false) (hlocked : t.locked = []) (hk : k ∈ V.locks c s)
      (hexec : E.exec c s = some s') :
      ClientStep E V k fail s ⟨.call (.change c) p, some t, n⟩ (V.advance s s')
        ⟨p true, some ⟨t.snapshot, s', V.locks c s, t.shared ++ V.shares c s⟩, E.newId c s⟩ false
  | change {c : C} {p : Bool → Program Q A C α} {t : Txn S K} {n : ℕ} {s' : S}
      (hlocked : k ∈ t.locked) (hexec : E.exec c t.own = some s') :
      ClientStep E V k fail s ⟨.call (.change c) p, some t, n⟩ (V.advance s s')
        ⟨p true, some ⟨t.snapshot, s', t.locked ++ V.locks c t.own, t.shared ++ V.shares c t.own⟩,
          E.newId c t.own⟩ false
  | commit {p : Bool → Program Q A C α} {t : Txn S K} {n : ℕ} (hlocked : k ∈ t.locked) :
      ClientStep E V k fail s ⟨.call .commit p, some t, n⟩ t.own ⟨p true, none, 0⟩ true
  | commitNothing {p : Bool → Program Q A C α} {t : Txn S K} {n : ℕ} (hlocked : t.locked = []) :
      ClientStep E V k fail s ⟨.call .commit p, some t, n⟩ s ⟨p true, none, 0⟩ true
  | rollback {p : Bool → Program Q A C α} {t : Txn S K} {n : ℕ} :
      ClientStep E V k fail s ⟨.call .rollback p, some t, n⟩ s ⟨p true, none, 0⟩ false

/-! ## The turns by statement -/

namespace ClientStep

variable {E : Engine Q A C S} {V : Versions C S K} {k : K} {fail : Bool} {s s' : S} {n : ℕ}
  {txn : Option (Txn S K)} {c' : Client Q A C S K α} {committed : Bool}

theorem of_start {p : Bool → Program Q A C α}
    (h : ClientStep E V k fail s ⟨.call .startTransaction p, txn, n⟩ s' c' committed) :
    committed = false ∧ s' = s ∧
      (c' = ⟨p false, txn, 0⟩ ∨ c' = ⟨p true, some ⟨none, s, [], []⟩, 0⟩) := by
  cases h with
  | failed => exact ⟨rfl, rfl, .inl rfl⟩
  | start => exact ⟨rfl, rfl, .inr rfl⟩

theorem of_query {q : Q} {p : Option (A q) → Program Q A C α}
    (h : ClientStep E V k fail s ⟨.call (.query q) p, txn, n⟩ s' c' committed) :
    committed = false ∧ s' = s ∧ (c' = ⟨p none, txn, 0⟩ ∨ ∃ t, txn = some t ∧
      c' = ⟨p (some (E.ask q (Txn.reads V s (some t)))), some (t.look s), 0⟩) := by
  cases h with
  | failed => exact ⟨rfl, rfl, .inl rfl⟩
  | look => exact ⟨rfl, rfl, .inr ⟨_, rfl, rfl⟩⟩

/-- A change is refused, or it is the first one, or one of those that follow. -/
theorem of_change {c : C} {p : Bool → Program Q A C α}
    (h : ClientStep E V k fail s ⟨.call (.change c) p, txn, n⟩ s' c' committed) :
    committed = false ∧ (s' = s ∧ c' = ⟨p false, txn, 0⟩ ∨ ∃ t s₁, txn = some t ∧
      s' = V.advance s s₁ ∧
        (fail = false ∧ t.locked = [] ∧ E.exec c s = some s₁ ∧ k ∈ V.locks c s ∧
          c' = ⟨p true, some ⟨t.snapshot, s₁, V.locks c s, t.shared ++ V.shares c s⟩, E.newId c s⟩ ∨
        k ∈ t.locked ∧ E.exec c t.own = some s₁ ∧
          c' = ⟨p true, some ⟨t.snapshot, s₁, t.locked ++ V.locks c t.own,
            t.shared ++ V.shares c t.own⟩, E.newId c t.own⟩)) := by
  cases h with
  | failed => exact ⟨rfl, .inl ⟨rfl, rfl⟩⟩
  | latch hfail hlocked hk hexec =>
    exact ⟨rfl, .inr ⟨_, _, rfl, rfl, .inl ⟨hfail, hlocked, hexec, hk, rfl⟩⟩⟩
  | change hlocked hexec => exact ⟨rfl, .inr ⟨_, _, rfl, rfl, .inr ⟨hlocked, hexec, rfl⟩⟩⟩

theorem of_commit {p : Bool → Program Q A C α}
    (h : ClientStep E V k fail s ⟨.call .commit p, txn, n⟩ s' c' committed) (hfail : fail = false) :
    committed = true ∧ c' = ⟨p true, none, 0⟩ ∧ ∃ t, txn = some t ∧
      (k ∈ t.locked ∧ s' = t.own ∨ t.locked = [] ∧ s' = s) := by
  cases h with
  | failed h =>
    rw [hfail] at h
    obtain h | ⟨c, h⟩ := h
    · cases h
    · cases h
  | commit hlocked => exact ⟨rfl, rfl, _, rfl, .inl ⟨hlocked, rfl⟩⟩
  | commitNothing hlocked => exact ⟨rfl, rfl, _, rfl, .inr ⟨hlocked, rfl⟩⟩

theorem of_rollback {p : Bool → Program Q A C α}
    (h : ClientStep E V k fail s ⟨.call .rollback p, txn, n⟩ s' c' committed) :
    committed = false ∧ s' = s ∧ (c' = ⟨p false, txn, 0⟩ ∨ c' = ⟨p true, none, 0⟩) := by
  cases h with
  | failed => exact ⟨rfl, rfl, .inl rfl⟩
  | rollback => exact ⟨rfl, rfl, .inr rfl⟩

end ClientStep

namespace Cluster

/-- Only one transaction has locked `k`, and the others have locked nothing. -/
structure Latched (V : Versions C S K) (k : K) (st : Cluster Q A C S K ι α) : Prop where
  settled : ∀ {i t}, (st.client i).txn = some t → t.Settled V k st.store
  alone : ∀ {i j t u}, (st.client i).txn = some t → (st.client j).txn = some u → k ∈ t.locked →
    k ∈ u.locked → i = j

/-- Nobody else has locked anything. -/
def Alone (st : Cluster Q A C S K ι α) (i : ι) : Prop :=
  ∀ j t, j ≠ i → (st.client j).txn = some t → t.locked = []

theorem latched_start (V : Versions C S K) (k : K) (s : S) (prog : ι → Program Q A C α) :
    (start s prog : Cluster Q A C S K ι α).Latched V k := by
  constructor
  · intro i t ht
    cases ht
  · intro i j t u ht
    cases ht

section

variable {E : Engine Q A C S} {V : Versions C S K} {k : K} {st st' : Cluster Q A C S K ι α} {i : ι}

/-- Where one client has `k` the others have nothing. -/
theorem Latched.others (h : st.Latched V k) {t : Txn S K} (ht : (st.client i).txn = some t)
    (hk : k ∈ t.locked) : st.Alone i := by
  intro j u hj hu
  rcases h.settled hu with hnil | ⟨hku, -⟩
  · exact hnil
  · exact absurd (h.alone hu ht hku hk) hj

/-- A client goes on, and what is committed changes only if it alone has locked anything. -/
theorem Latched.update [DecidableEq ι] (h : st.Latched V k) {c : Client Q A C S K α}
    (hclient : st'.client = Function.update st.client i c)
    (hstore : st'.store = st.store ∨ st.Alone i)
    (hsettled : ∀ t, c.txn = some t → t.Settled V k st'.store)
    (halone : ∀ t, c.txn = some t → k ∈ t.locked → st.Alone i) : st'.Latched V k := by
  have hself : st'.client i = c := by rw [hclient, Function.update_self]
  have hother : ∀ {j}, j ≠ i → st'.client j = st.client j := by
    intro j hj
    rw [hclient, Function.update_of_ne hj]
  constructor
  · intro j t ht
    by_cases hj : j = i
    · subst hj
      rw [hself] at ht
      exact hsettled t ht
    · rw [hother hj] at ht
      rcases hstore with hsame | hothers
      · rw [hsame]
        exact h.settled ht
      · exact .inl (hothers j t hj ht)
  · intro j l t u ht hu hkt hku
    by_contra hne
    -- one of the two is the client that goes on, or they were both there before
    by_cases hj : j = i
    · subst hj
      rw [hself] at ht
      rw [hother (Ne.symm hne)] at hu
      rw [halone t ht hkt l u (Ne.symm hne) hu] at hku
      cases hku
    · by_cases hl : l = i
      · subst hl
        rw [hself] at hu
        rw [hother hj] at ht
        rw [halone u hu hku j t hj ht] at hkt
        cases hkt
      · rw [hother hj] at ht
        rw [hother hl] at hu
        exact hne (h.alone ht hu hkt hku)

variable [Fintype ι] [DecidableEq ι] [DecidableEq K]

omit [Fintype ι] [DecidableEq ι] [DecidableEq K] in
/-- The client that has locked `k` is the only one that can change anything. -/
theorem Latched.alone_of_latch (h : st.Latched V k) {c : C} (hk : k ∈ V.locks c (st.current V i))
    (hwaits : ¬st.Waits V i (.change c : Request Q C)) : st.Alone i := by
  intro j t hj ht
  rcases h.settled ht with hnil | ⟨hkt, -⟩
  · exact hnil
  · exact absurd ⟨j, hj, t, ht, .inl ⟨k, hk, .inl hkt⟩⟩ hwaits

/-- What a step can do, if it does anything. -/
structure Steps (E : Engine Q A C S) (V : Versions C S K) (k : K) (fail : Bool) (i : ι)
    (st st' : Cluster Q A C S K ι α) : Prop where
  turn : ∃ c committed, ClientStep E V k fail st.store (st.client i) st'.store c committed ∧
    st'.client = Function.update st.client i c ∧
    st'.commits = if committed then st.commits ++ [i] else st.commits
  store : st'.store = st.store ∨ st.Alone i

/-- A step does nothing, or it is one of the turns, and while another client has locked anything,
what is committed stays as it is. -/
theorem Latched.step (hV : V.Lawful E) (h : st.Latched V k)
    (hready : (st.client i).Ready E V k st.store) (fail : Bool) :
    (st.step E V i fail).Latched V k ∧
      (st.step E V i fail = st ∨ Steps E V k fail i st (st.step E V i fail)) := by
  obtain heq | ⟨r, p, hprog, hwaits, heq⟩ := step_cases E V st i fail
  · rw [heq]
    exact ⟨h, .inl rfl⟩
  rw [heq]
  have hsettled := @h.settled i
  have hothers := @h.others (i := i)
  have hcurrent : st.current V i = Txn.current V st.store (st.client i).txn := rfl
  -- it is enough to say what the answer is
  suffices key : ∀ a, answer E V fail st.store (st.client i).txn (st.client i).insertId r = a →
      ∃ committed, ClientStep E V k fail st.store (st.client i) a.store ⟨p a.reply, a.txn, a.insertId⟩
          committed ∧
        (st.serve i r a p).commits = (if committed then st.commits ++ [i] else st.commits) ∧
        (a.store = st.store ∨ st.Alone i) ∧
        ∀ t, a.txn = some t → t.Settled V k a.store ∧ (k ∈ t.locked → st.Alone i) by
    obtain ⟨committed, hturn, hcommits, hstore, htxn⟩ := key _ rfl
    exact ⟨h.update rfl hstore (fun t ht => (htxn t ht).1) fun t ht => (htxn t ht).2,
      .inr ⟨⟨_, committed, hturn, rfl, hcommits⟩, hstore⟩⟩
  generalize st.client i = c at *
  obtain ⟨prog, txn, n⟩ := c
  obtain rfl : prog = .call r p := hprog
  dsimp only at *
  -- a statement that fails leaves everything as it is
  have hfailed : ∀ t, txn = some t → t.Settled V k st.store ∧ (k ∈ t.locked → st.Alone i) :=
    fun t ht => ⟨hsettled ht, fun hk => hothers ht hk⟩
  rintro a rfl
  cases r with
  | insertId => exact hready.elim
  | startTransaction =>
    obtain rfl : txn = none := hready
    cases fail with
    | true => exact ⟨false, .failed (.inl rfl), rfl, .inl rfl, hfailed⟩
    | false =>
      refine ⟨false, .start, rfl, .inl rfl, ?_⟩
      rintro t ⟨⟩
      exact ⟨.inl rfl, fun hk => by cases hk⟩
  | rollback =>
    cases fail with
    | true => exact ⟨false, .failed (.inl rfl), rfl, .inl rfl, hfailed⟩
    | false =>
      obtain ⟨t, rfl⟩ := Option.ne_none_iff_exists'.mp hready
      refine ⟨false, .rollback, rfl, .inl rfl, ?_⟩
      rintro t ⟨⟩
  | commit =>
    cases fail with
    | true => exact ⟨false, .failed (.inl rfl), rfl, .inl rfl, hfailed⟩
    | false =>
      obtain ⟨t, rfl⟩ := Option.ne_none_iff_exists'.mp hready
      have hnone : ∀ {P : Txn S K → Prop} t, (none : Option (Txn S K)) = some t → P t := by
        intro P t ht
        cases ht
      rcases hsettled rfl with hnil | ⟨hk, hown⟩
      · have hstore : V.merge t.locked st.store t.own = st.store := by rw [hnil, hV.merge_nil]
        refine ⟨true, ?_, rfl, .inl hstore, hnone⟩
        show ClientStep E V k false st.store _ (V.merge t.locked st.store t.own) _ true
        rw [hstore]
        exact .commitNothing hnil
      · refine ⟨true, ?_, rfl, .inr (hothers rfl hk), hnone⟩
        show ClientStep E V k false st.store _ (V.merge t.locked st.store t.own) _ true
        rw [hown]
        exact .commit hk
  | query q =>
    cases fail with
    | true => exact ⟨false, .failed (.inl rfl), rfl, .inl rfl, hfailed⟩
    | false =>
      obtain ⟨t, rfl⟩ := Option.ne_none_iff_exists'.mp hready
      refine ⟨false, .look, rfl, .inl rfl, ?_⟩
      rintro u ⟨⟩
      exact hfailed t rfl
  | change c =>
    obtain ⟨t, rfl, hfirst⟩ := hready
    cases fail with
    | true => exact ⟨false, .failed (.inl rfl), rfl, .inl rfl, hfailed⟩
    | false =>
      cases hexec : E.exec c (Txn.current V st.store (some t)) with
      | none =>
        rw [answer_change_of_none _ hexec]
        exact ⟨false, .failed (.inr ⟨c, rfl⟩), rfl, .inl rfl, hfailed⟩
      | some s' =>
        have hmerge := hV.merge_exec hexec
        rw [answer_change_of_txn hexec]
        rcases hsettled rfl with hnil | ⟨hk, hown⟩
        · -- the first change
          have hstore : V.merge t.locked st.store t.own = st.store := by rw [hnil, hV.merge_nil]
          have hcur : Txn.current V st.store (some t) = st.store := hstore
          rw [hcur] at hexec
          have hlocks := hfirst hnil s' hexec
          have halone := h.alone_of_latch (by rw [hcurrent, hcur]; exact hlocks) (hwaits rfl)
          rw [hstore, hnil, List.nil_append] at hmerge
          rw [hcur, hnil, List.nil_append]
          refine ⟨false, .latch rfl hnil hlocks hexec, rfl, .inr halone, ?_⟩
          rintro u ⟨⟩
          exact ⟨.inr ⟨hlocks, hmerge⟩, fun _ => halone⟩
        · have hstore : Txn.current V st.store (some t) = t.own := hown
          rw [hstore] at hexec ⊢
          refine ⟨false, .change hk hexec, rfl, .inr (hothers rfl hk), ?_⟩
          rintro u ⟨⟩
          refine ⟨.inr ⟨List.mem_append_left _ hk, ?_⟩, fun _ => hothers rfl hk⟩
          rw [hown] at hmerge
          exact hmerge

end

end Cluster

end Sql
