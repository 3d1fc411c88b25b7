import MyFS.Sql.Transaction
import Mathlib.Data.Int.Notation

/-!
# Losing the connection

The client repeats a statement that failed, as far as it is configured to. Below that loop
the connection can go down: the server rolls the open transaction back, the statement that
is being sent fails, and the client library reconnects, so that the next attempt finds a
new session, in which no transaction is open.

`run_lossy` says what becomes of a transaction when the connection is lost once, at any
attempt of any of its statements, in terms of where the loss finds it (`Fate`).
`intact_iff` is the condition under which the committed state is the old one or the
complete effect nevertheless. The time that passes between two attempts plays no role here.
-/

namespace Sql

variable {Q C S T α ε : Type} {A : Q → Type}

/-- `failed_query_retry_wait` and `failed_query_retry_count`. -/
structure Retry where
  wait : ℤ
  count : ℤ

/-- Whether a statement is sent again after its `failed`-th failure. -/
def Retry.again (cfg : Retry) (failed : ℕ) : Bool :=
  cfg.wait ≠ -1 && (cfg.count = -1 || (failed : ℤ) < cfg.count)

/-- How often a statement is sent that always fails, if there is an end to it. -/
def Retry.attempts (cfg : Retry) : Option ℕ :=
  if cfg.wait = -1 then some 1
  else if cfg.count = -1 then none
  else some (max 1 cfg.count.toNat)

theorem Retry.again_eq (cfg : Retry) {failed : ℕ} (hpos : 0 < failed) :
    cfg.again failed = match cfg.attempts with
      | none => true
      | some limit => decide (failed < limit) := by
  unfold again attempts
  by_cases hw : cfg.wait = -1
  · simp [hw]
    omega
  · by_cases hc : cfg.count = -1
    · simp [hw, hc]
    · simp only [hw, hc, ne_eq, not_false_eq_true, decide_true, Bool.true_and, decide_false,
        Bool.false_or, if_false]
      congr 1
      rw [eq_iff_iff]
      omega

theorem Retry.attempts_pos (cfg : Retry) {limit : ℕ} (h : cfg.attempts = some limit) :
    0 < limit := by
  unfold attempts at h
  split at h
  · cases h
    exact Nat.one_pos
  · split at h
    · cases h
    · cases h
      omega

variable (cfg : Retry) (E : Engine Q A C S) (who : T)

/-- Send a statement once. The connection is lost with the attempt that `lost` counts down
to. -/
def attempt (r : Request Q C) (lost : Option ℕ) (s : Session S C T) :
    Reply A r × Session S C T × Option ℕ :=
  match lost with
  | some 0 => (Reply.failed r, s.rollback, none)
  | some (n + 1) => ((s.handle E who false r).1, (s.handle E who false r).2, some n)
  | none => ((s.handle E who false r).1, (s.handle E who false r).2, none)

/-- Send a statement until it succeeds or enough attempts have failed. No result means that
it is still being repeated after `fuel` attempts. -/
def dbQueryTimed (r : Request Q C) : (fuel failed : ℕ) → Option ℕ → Session S C T →
    Option (Reply A r × Session S C T × Option ℕ)
  | 0, _, _, _ => none
  | fuel + 1, failed, lost, s =>
    let (x, s', lost') := attempt E who r lost s
    if Reply.ok r x then some (x, s', lost')
    else if cfg.again (failed + 1) then dbQueryTimed r fuel (failed + 1) lost' s'
    else some (x, s', lost')

/-- Run a program all of whose statements go through `dbQueryTimed`. -/
def runTimed (fuel : ℕ) : Program Q A C α → Option ℕ → Session S C T →
    Option (α × Session S C T)
  | .ret a, _, s => some (a, s)
  | .call .insertId k, lost, s => runTimed fuel (k s.insertId) lost s
  | .call r k, lost, s =>
    (dbQueryTimed cfg E who r fuel 0 lost s).bind fun (x, s', lost') =>
      runTimed fuel (k x) lost' s'

/-! ## Where the loss finds a transaction -/

/-- Where the loss of the connection finds the body of a transaction. -/
inductive Fate (Q : Type) (A : Q → Type) (C S ε α : Type)
  /-- At a statement of the body, with `rest` still to be done, that statement included. -/
  | body (rest : Program Q A C (Except ε α)) (state : S) (again : Bool)
  /-- At the closing statement. -/
  | closing (result : Except ε α) (state : S)
  /-- The transaction is over before. -/
  | never

/-- Follow a body to its `n`-th attempt. -/
def fate : Program Q A C (Except ε α) → S → ℕ → Fate Q A C S ε α
  | .ret r, s, n => if n = 0 then .closing r s else .never
  | .call (.query q) k, s, n =>
    if n = 0 then .body (.call (.query q) k) s (cfg.again 1)
    else fate (k (some (E.ask q s))) s (n - 1)
  | .call (.change c) k, s, n =>
    match E.exec c s with
    | some s' => if n = 0 then .body (.call (.change c) k) s (cfg.again 1) else fate (k true) s' (n - 1)
    | none =>
      match cfg.attempts with
      | none => .body (.call (.change c) k) s true
      | some limit =>
        if n < limit then .body (.call (.change c) k) s (n + 1 < limit)
        else fate (k false) s (n - limit)
  | .call .insertId _, _, _ => .never
  | .call .startTransaction _, _, _ => .never
  | .call .commit _, _, _ => .never
  | .call .rollback _, _, _ => .never

theorem fate_query (q : Q) (k : Option (A q) → Program Q A C (Except ε α)) (v : S) (n : ℕ) :
    fate cfg E (.call (.query q) k) v n =
      if n = 0 then .body (.call (.query q) k) v (cfg.again 1)
      else fate cfg E (k (some (E.ask q v))) v (n - 1) := rfl

theorem fate_change_of_some {c : C} {v v' : S} (k : Bool → Program Q A C (Except ε α)) (n : ℕ)
    (hc : E.exec c v = some v') :
    fate cfg E (.call (.change c) k) v n =
      if n = 0 then .body (.call (.change c) k) v (cfg.again 1)
      else fate cfg E (k true) v' (n - 1) := by
  rw [fate, hc]

theorem fate_change_of_none {c : C} {v : S} (k : Bool → Program Q A C (Except ε α)) (n : ℕ)
    (hc : E.exec c v = none) :
    fate cfg E (.call (.change c) k) v n =
      match cfg.attempts with
      | none => .body (.call (.change c) k) v true
      | some limit =>
        if n < limit then .body (.call (.change c) k) v (n + 1 < limit)
        else fate cfg E (k false) v (n - limit) := by
  rw [fate, hc]

variable {cfg E who} {s s' : Session S C T} {fuel failed : ℕ} {lost lost' : Option ℕ}

/-! ## One statement -/

theorem dbQueryTimed_of_ok {r : Request Q C} (h : Reply.ok r (attempt E who r lost s).1 = true) :
    dbQueryTimed cfg E who r (fuel + 1) failed lost s = some (attempt E who r lost s) := by
  rw [dbQueryTimed]
  exact if_pos h

theorem dbQueryTimed_of_not_ok {r : Request Q C}
    (h : Reply.ok r (attempt E who r lost s).1 = false) :
    dbQueryTimed cfg E who r (fuel + 1) failed lost s =
      if cfg.again (failed + 1) then
        dbQueryTimed cfg E who r fuel (failed + 1) (attempt E who r lost s).2.2
          (attempt E who r lost s).2.1
      else some (attempt E who r lost s) := by
  rw [dbQueryTimed]
  have hne : ¬Reply.ok r (attempt E who r lost s).1 = true := by
    rw [h]
    exact Bool.false_ne_true
  exact if_neg hne

theorem attempt_of_rejected (who : T) {c : C} (hc : E.exec c s.visible = none) :
    attempt E who (.change c : Request Q C) none s = (false, s.clearId, none) ∧
      ∀ n, attempt E who (.change c : Request Q C) (some (n + 1)) s
        = (false, s.clearId, some n) := by
  simp only [attempt, Session.handle, Session.change, hc]
  exact ⟨rfl, fun _ => rfl⟩

/-- A change that the engine rejects, with no loss of the connection to come. -/
theorem dbQueryTimed_rejected {c : C} {x : Bool} (hc : E.exec c s.visible = none)
    (h : dbQueryTimed cfg E who (.change c : Request Q C) fuel failed none s
      = some (x, s', lost')) :
    x = false ∧ lost' = none ∧ s'.committed = s.committed ∧ s'.working = s.working := by
  induction fuel generalizing failed s with
  | zero => cases h
  | succ fuel ih =>
    have hatt := (attempt_of_rejected who hc).1
    rw [dbQueryTimed_of_not_ok (by rw [hatt]; rfl), hatt] at h
    split at h
    · exact ih (s := s.clearId) hc h
    · cases h
      exact ⟨rfl, rfl, rfl, rfl⟩

/-- A change that the engine accepts, at an attempt with which the connection is not lost. -/
theorem dbQueryTimed_accepted (cfg : Retry) (who : T) (fuel failed : ℕ) (lost : Option ℕ)
    {c : C} {v : S} (hc : E.exec c s.visible = some v) (hl : lost ≠ some 0) :
    ∃ s₁ : Session S C T, dbQueryTimed cfg E who (.change c : Request Q C) (fuel + 1) failed lost s
        = some (true, s₁, lost.map Nat.pred) ∧ s₁.visible = v ∧
      (s.working = none → s₁.working = none) ∧
      (s.working ≠ none → s₁.working ≠ none ∧ s₁.committed = s.committed) := by
  obtain ⟨s₁, hs₁⟩ : ∃ s₁, s.change E who c = some s₁ := ⟨_, by rw [Session.change, hc]; rfl⟩
  have hatt : attempt E who (.change c : Request Q C) lost s = (true, s₁, lost.map Nat.pred) := by
    cases lost with
    | none => simp only [attempt, Session.handle, hs₁]; rfl
    | some n =>
      cases n with
      | zero => exact absurd rfl hl
      | succ n => simp only [attempt, Session.handle, hs₁]; rfl
  refine ⟨s₁, by rw [dbQueryTimed_of_ok (by rw [hatt]; rfl), hatt], ?_⟩
  cases hw : s.working with
  | none =>
    obtain ⟨v', hv', hcom, -, hwork⟩ := Session.change_of_closed hw hs₁
    rw [← Session.visible_of_none hw, hc] at hv'
    refine ⟨?_, fun _ => hwork, fun h => absurd rfl h⟩
    rw [Session.visible_of_none hwork, hcom, Option.some.inj hv']
  | some w =>
    obtain ⟨v', hv', hcom, -, hwork⟩ := Session.change_of_open hw hs₁
    rw [← Session.visible_of_some hw, hc] at hv'
    refine ⟨?_, fun h => (by cases h), fun _ => ⟨?_, hcom⟩⟩
    · rw [Session.visible_of_some hwork, Option.some.inj hv']
    · rw [hwork]
      exact Option.some_ne_none _

/-- The attempt with which the connection is lost, and those after it. -/
theorem dbQueryTimed_lost {r : Request Q C} {x : Reply A r}
    (hr : Reply.ok r (Reply.failed r : Reply A r) = false)
    (h : dbQueryTimed cfg E who r fuel failed (some 0) s = some (x, s', lost')) :
    if cfg.again (failed + 1) then
      ∃ fuel', dbQueryTimed cfg E who r fuel' (failed + 1) none s.rollback = some (x, s', lost')
    else x = Reply.failed r ∧ s' = s.rollback ∧ lost' = none := by
  cases fuel with
  | zero => cases h
  | succ fuel =>
    rw [dbQueryTimed_of_not_ok hr] at h
    split at h
    · rename_i hagain
      rw [if_pos hagain]
      exact ⟨fuel, h⟩
    · rename_i hagain
      rw [if_neg hagain]
      cases h
      exact ⟨rfl, rfl, rfl⟩

/-- A change that the engine rejects inside a transaction, with the loss of the connection
to come: either enough attempts fail before it, or the loss is at one of them. -/
theorem dbQueryTimed_rejected_lossy {c : C} {x : Bool} {n : ℕ} (hc : E.exec c s.visible = none)
    (hf : ∀ limit, cfg.attempts = some limit → failed < limit)
    (h : dbQueryTimed cfg E who (.change c : Request Q C) fuel failed (some n) s
      = some (x, s', lost')) :
    (∃ limit, cfg.attempts = some limit ∧ limit ≤ failed + n ∧ x = false ∧
        lost' = some (n - (limit - failed)) ∧ s'.committed = s.committed ∧
        s'.working = s.working) ∨
      (∀ limit, cfg.attempts = some limit → failed + n < limit) ∧
        ∃ s₁ fuel', s₁.committed = s.committed ∧
          dbQueryTimed cfg E who (.change c : Request Q C) fuel' (failed + n) (some 0) s₁
            = some (x, s', lost') := by
  -- on the fuel: each rejected attempt brings the loss one nearer
  induction fuel generalizing failed s n with
  | zero => cases h
  | succ fuel ih =>
    cases n with
    | zero => exact .inr ⟨hf, s, _, rfl, h⟩
    | succ n =>
      have hatt := (attempt_of_rejected who hc).2 n
      rw [dbQueryTimed_of_not_ok (by rw [hatt]; rfl), hatt, cfg.again_eq (Nat.succ_pos _)] at h
      -- without a limit the statement is repeated for ever; with one it may be given up first
      cases hlim : cfg.attempts with
      | none =>
        rw [hlim, if_pos rfl] at h
        rcases ih (s := s.clearId) hc (by simp [hlim]) h with ⟨limit, hl, -⟩ | ⟨-, s₁, fuel', hs₁⟩
        · rw [hlim] at hl
          cases hl
        · rw [show failed + 1 + n = failed + (n + 1) by omega] at hs₁
          exact .inr ⟨by simp, s₁, fuel', hs₁⟩
      | some limit =>
        have hflt := hf limit hlim
        simp only [hlim, decide_eq_true_eq] at h
        split at h
        · rename_i hlt
          rcases ih (s := s.clearId) hc (by simpa [hlim] using hlt) h with
            ⟨limit', hl, hle, hx, hlost, hs⟩ | ⟨hle, s₁, fuel', hs₁⟩
          · obtain rfl : limit = limit' := Option.some.inj (hlim.symm.trans hl)
            refine .inl ⟨limit, rfl, by omega, hx, ?_, hs⟩
            rw [hlost]
            congr 1
            omega
          · rw [show failed + 1 + n = failed + (n + 1) by omega] at hs₁ hle
            exact .inr ⟨by simpa [hlim] using hle, s₁, fuel', hs₁⟩
        · cases h
          refine .inl ⟨limit, rfl, by omega, rfl, ?_, rfl, rfl⟩
          congr 1
          omega

theorem runTimed_call {r : Request Q C} {k : Reply A r → Program Q A C α} {o : α × Session S C T}
    (hr : r ≠ .insertId) (h : runTimed cfg E who fuel (.call r k) lost s = some o) :
    ∃ x s₁ lost₁, dbQueryTimed cfg E who r fuel 0 lost s = some (x, s₁, lost₁) ∧
      runTimed cfg E who fuel (k x) lost₁ s₁ = some o := by
  have hbind : runTimed cfg E who fuel (.call r k) lost s =
      (dbQueryTimed cfg E who r fuel 0 lost s).bind fun y =>
        runTimed cfg E who fuel (k y.1) y.2.2 y.2.1 := by
    cases r with
    | insertId => exact absurd rfl hr
    | _ => rfl
  rw [hbind, Option.bind_eq_some_iff] at h
  obtain ⟨⟨x, s₁, lost₁⟩, h₁, h₂⟩ := h
  exact ⟨x, s₁, lost₁, h₁, h₂⟩

/-! ## The rest of a transaction, with no loss to come -/

/-- What running the rest `q` of a transaction and closing it comes to, if its session is
`s`. If the transaction is still open it commits its effect or nothing; if it is gone, every
change is committed as it is made. -/
def Ended (E : Engine Q A C S) (q : Program Q A C (Except ε α)) (s : Session S C T) (b : Bool)
    (committed : S) : Prop :=
  b = (q.eval E s.visible).1.isOk ∧
    committed = if s.working ≠ none ∧ b = false then s.committed else (q.eval E s.visible).2

theorem ended_ret {r : Except ε α} {b : Bool}
    (h : runTimed cfg E who fuel (finish (.ret r : Program Q A C (Except ε α))) none s
      = some (b, s')) :
    Ended E (.ret r : Program Q A C (Except ε α)) s b s'.committed := by
  cases r with
  | error e =>
    obtain ⟨x, s₁, l, h₁, h⟩ := runTimed_call (by simp) h
    cases fuel with
    | zero => cases h₁
    | succ fuel =>
      rw [dbQueryTimed_of_ok rfl] at h₁
      cases h₁
      cases h
      refine ⟨rfl, ?_⟩
      show s.committed = _
      cases hw : s.working with
      | none => simp [Session.visible_of_none hw]
      | some w => exact (if_pos ⟨Option.some_ne_none _, rfl⟩).symm
  | ok a =>
    obtain ⟨x, s₁, l, h₁, h⟩ := runTimed_call (by simp) h
    cases fuel with
    | zero => cases h₁
    | succ fuel =>
      rw [dbQueryTimed_of_ok rfl] at h₁
      cases h₁
      cases h
      refine ⟨rfl, ?_⟩
      show s.visible = _
      exact (if_neg fun h => Bool.noConfusion h.2).symm

theorem ended_query {q : Q} {k : Option (A q) → Program Q A C (Except ε α)} {fuel₁ : ℕ} {b : Bool}
    {x : Option (A q)} {s₁ : Session S C T}
    (ih : ∀ (a : A q) {s : Session S C T},
      runTimed cfg E who fuel (finish (k (some a))) none s = some (b, s') →
        Ended E (k (some a)) s b s'.committed)
    (h₁ : dbQueryTimed cfg E who (.query q : Request Q C) fuel₁ failed none s = some (x, s₁, lost'))
    (h : runTimed cfg E who fuel (finish (k x)) lost' s₁ = some (b, s')) :
    Ended E (.call (.query q) k) s b s'.committed := by
  cases fuel₁ with
  | zero => cases h₁
  | succ fuel₁ =>
    rw [dbQueryTimed_of_ok rfl] at h₁
    cases h₁
    exact ih (E.ask q s.visible) (s := s.clearId) h

theorem ended_change {c : C} {k : Bool → Program Q A C (Except ε α)} {e : ε} {fuel₁ : ℕ}
    {b x : Bool} {s₁ : Session S C T} (hfail : k false = .ret (.error e))
    (ih : ∀ {s : Session S C T}, runTimed cfg E who fuel (finish (k true)) none s = some (b, s') →
      Ended E (k true) s b s'.committed)
    (h₁ : dbQueryTimed cfg E who (.change c : Request Q C) fuel₁ failed none s
      = some (x, s₁, lost'))
    (h : runTimed cfg E who fuel (finish (k x)) lost' s₁ = some (b, s')) :
    Ended E (.call (.change c) k) s b s'.committed := by
  cases hc : E.exec c s.visible with
  | none =>
    obtain ⟨rfl, rfl, hcom, hwork⟩ := dbQueryTimed_rejected hc h₁
    rw [hfail] at h
    have hvis : s₁.visible = s.visible := by
      rw [Session.visible, hwork, hcom, Session.visible]
    have hend := ended_ret h
    unfold Ended at hend ⊢
    rw [Program.eval_change_of_none E k hc, hfail]
    rwa [hvis, hwork, hcom] at hend
  | some v =>
    cases fuel₁ with
    | zero => cases h₁
    | succ fuel₁ =>
      obtain ⟨s₂, hs₂, hvis, hclosed, hopen⟩ :=
        dbQueryTimed_accepted cfg who fuel₁ failed none hc (by simp)
      rw [hs₂] at h₁
      cases h₁
      obtain ⟨hb, hcom⟩ := ih h
      unfold Ended
      rw [Program.eval_change_of_some E k hc, ← hvis]
      refine ⟨hb, ?_⟩
      rw [hcom]
      cases hw : s.working with
      | none => simp [hclosed hw]
      | some w =>
        obtain ⟨hne, hcom'⟩ := hopen (by rw [hw]; exact Option.some_ne_none _)
        simp [hne, hcom']

theorem ended_of_runTimed {q : Program Q A C (Except ε α)} (hq : Body e q) {b : Bool}
    (h : runTimed cfg E who fuel (finish q) none s = some (b, s')) : Ended E q s b s'.committed := by
  induction hq generalizing s with
  | ret r => exact ended_ret h
  | query q k hfail hk ih =>
    rw [finish_call] at h
    obtain ⟨x, s₁, l, h₁, h⟩ := runTimed_call (by simp) h
    exact ended_query (fun a => ih a) h₁ h
  | change c k hfail hk ih =>
    rw [finish_call] at h
    obtain ⟨x, s₁, l, h₁, h⟩ := runTimed_call (by simp) h
    exact ended_change hfail ih h₁ h

/-! ## The loss -/

/-- The rest of a transaction, beginning with the statement at which the connection is lost. -/
theorem ended_of_lost {r : Request Q C} {k : Reply A r → Program Q A C (Except ε α)} {fuel₁ : ℕ}
    {b : Bool} {x : Reply A r} {s₁ : Session S C T} (hbody : Body e (.call r k))
    (h₁ : dbQueryTimed cfg E who r fuel₁ failed (some 0) s = some (x, s₁, lost'))
    (h : runTimed cfg E who fuel (finish (k x)) lost' s₁ = some (b, s')) :
    if cfg.again (failed + 1) then Ended E (.call r k) s.rollback b s'.committed
    else b = false ∧ s'.committed = s.committed := by
  cases hbody with
  | query q k hfail hk =>
    have hl := dbQueryTimed_lost rfl h₁
    split at hl
    · rename_i hagain
      obtain ⟨fuel', hl⟩ := hl
      rw [if_pos hagain]
      exact ended_query (fun a => ended_of_runTimed (hk a)) hl h
    · rename_i hagain
      obtain ⟨rfl, rfl, rfl⟩ := hl
      rw [if_neg hagain]
      rw [show k (Reply.failed (.query q : Request Q C)) = _ from hfail] at h
      exact ended_ret h
  | change c k hfail hk =>
    have hl := dbQueryTimed_lost rfl h₁
    split at hl
    · rename_i hagain
      obtain ⟨fuel', hl⟩ := hl
      rw [if_pos hagain]
      exact ended_change hfail (ended_of_runTimed hk) hl h
    · rename_i hagain
      obtain ⟨rfl, rfl, rfl⟩ := hl
      rw [if_neg hagain]
      rw [show k (Reply.failed (.change c : Request Q C)) = _ from hfail] at h
      exact ended_ret h

/-- What a transaction comes to that reads `v`, by where the loss finds it: its result, and
the committed state, which was `s`. -/
def Fate.Leads (E : Engine Q A C S) (q : Program Q A C (Except ε α)) (v s : S) (b : Bool)
    (committed : S) : Fate Q A C S ε α → Prop
  | .body rest _ true => b = (rest.eval E s).1.isOk ∧ committed = (rest.eval E s).2
  | .body _ _ false => b = false ∧ committed = s
  | .closing r w => b = r.isOk ∧ committed = s ∧ q.eval E v = (r, w)
  | .never =>
    b = (q.eval E v).1.isOk ∧ committed = if b then (q.eval E v).2 else s

theorem Fate.Leads.congr {f : Fate Q A C S ε α} {q q' : Program Q A C (Except ε α)} {v v' t t' : S}
    {b : Bool} (h : f.Leads E q v t b t') (heq : q'.eval E v' = q.eval E v) :
    f.Leads E q' v' t b t' := by
  cases f with
  | body rest w again => cases again <;> exact h
  | closing r w => exact ⟨h.1, h.2.1, heq.trans h.2.2⟩
  | never =>
    unfold Leads at h ⊢
    rwa [heq]

theorem leads_of_ended {q : Program Q A C (Except ε α)} {v t : S} {b again : Bool}
    (h : if again then Ended E q s.rollback b t else b = false ∧ t = s.committed) :
    (Fate.body q v again).Leads E q v s.committed b t := by
  cases again with
  | false => exact h
  | true => exact ⟨h.1, h.2⟩

/-- The closing statement, which may be the one at which the connection is lost. -/
theorem leads_ret {r : Except ε α} {w : Pending S C T} {n : ℕ} {b : Bool}
    (hw : s.working = some w)
    (h : runTimed cfg E who fuel (finish (.ret r : Program Q A C (Except ε α))) (some n) s
      = some (b, s')) :
    (fate cfg E (.ret r) w.state n).Leads E (.ret r : Program Q A C (Except ε α)) w.state
      s.committed b s'.committed := by
  -- `COMMIT` or `ROLLBACK`, by the result of the body
  have hclose : ∃ (req : Request Q C) (x : Reply A req) (s₁ : Session S C T) (l : Option ℕ),
      req = closing r.isOk ∧ dbQueryTimed cfg E who req fuel 0 (some n) s = some (x, s₁, l) ∧
        r.isOk = b ∧ s₁ = s' := by
    cases r with
    | error e =>
      obtain ⟨x, s₁, l, h₁, h⟩ := runTimed_call (by simp) h
      cases h
      exact ⟨_, x, _, l, rfl, h₁, rfl, rfl⟩
    | ok a =>
      obtain ⟨x, s₁, l, h₁, h⟩ := runTimed_call (by simp) h
      cases h
      exact ⟨_, x, _, l, rfl, h₁, rfl, rfl⟩
  obtain ⟨req, x, s₁, l, rfl, h₁, rfl, rfl⟩ := hclose
  cases n with
  | zero =>
    refine ⟨rfl, ?_, rfl⟩
    have hl := dbQueryTimed_lost (by cases r.isOk <;> rfl) h₁
    -- the connection is lost at it: the transaction is gone, and a `COMMIT` of nothing succeeds
    split at hl
    · obtain ⟨fuel', hl⟩ := hl
      cases fuel' with
      | zero => cases hl
      | succ fuel' =>
        cases r <;> (rw [dbQueryTimed_of_ok rfl] at hl; cases hl; rfl)
    · obtain ⟨-, rfl, -⟩ := hl
      rfl
  | succ n =>
    cases fuel with
    | zero => cases h₁
    | succ fuel =>
      refine ⟨rfl, ?_⟩
      cases r with
      | error e =>
        rw [dbQueryTimed_of_ok rfl] at h₁
        cases h₁
        rfl
      | ok a =>
        rw [dbQueryTimed_of_ok rfl] at h₁
        cases h₁
        exact Session.visible_of_some hw

/-- A transaction in which the connection is lost at the `n`-th attempt from now on. -/
theorem runTimed_lossy {q : Program Q A C (Except ε α)} (hq : Body e q) {w : Pending S C T} {n : ℕ}
    {b : Bool} (hw : s.working = some w)
    (h : runTimed cfg E who fuel (finish q) (some n) s = some (b, s')) :
    (fate cfg E q w.state n).Leads E q w.state s.committed b s'.committed := by
  -- on the body, the loss coming nearer with every statement
  induction hq generalizing s w n with
  | ret r => exact leads_ret hw h
  | query q k hfail hk ih =>
    rw [finish_call] at h
    obtain ⟨x, s₁, l, h₁, h₂⟩ := runTimed_call (by simp) h
    cases n with
    | zero => exact leads_of_ended (ended_of_lost (.query q k hfail hk) h₁ h₂)
    | succ n =>
      cases fuel with
      | zero => cases h₁
      | succ fuel =>
        rw [dbQueryTimed_of_ok rfl] at h₁
        cases h₁
        have hrest := ih (E.ask q s.visible) (s := s.clearId) hw h₂
        rw [Session.visible_of_some hw] at hrest
        exact hrest.congr rfl
  | change c k hfail hk ih =>
    rw [finish_call] at h
    obtain ⟨x, s₁, l, h₁, h₂⟩ := runTimed_call (by simp) h
    have hvis := Session.visible_of_some hw
    cases hc : E.exec c w.state with
    | some v =>
      rw [fate_change_of_some cfg E k n hc]
      cases n with
      | zero => exact leads_of_ended (ended_of_lost (.change c k hfail hk) h₁ h₂)
      | succ n =>
        cases fuel with
        | zero => cases h₁
        | succ fuel =>
          obtain ⟨s₂, hs₂, hv, -, hopen⟩ := dbQueryTimed_accepted cfg who fuel 0
            (some (n + 1)) (by rw [hvis, hc]) (by simp)
          rw [hs₂] at h₁
          cases h₁
          obtain ⟨hne, hcom⟩ := hopen (by rw [hw]; exact Option.some_ne_none _)
          obtain ⟨w₂, hw₂⟩ := Option.ne_none_iff_exists'.mp hne
          have hrest := ih hw₂ h₂
          rw [← Session.visible_of_some hw₂, hv, hcom] at hrest
          exact hrest.congr (Program.eval_change_of_some E k hc)
    | none =>
      have heval := Program.eval_change_of_none E k hc
      rw [fate_change_of_none cfg E k n hc]
      rcases dbQueryTimed_rejected_lossy (by rw [hvis, hc]) (fun _ => cfg.attempts_pos) h₁ with
        ⟨limit, hlim, hle, rfl, rfl, hcom, hwork⟩ | ⟨hlt, s₂, fuel', hcom, hlost⟩
      · -- the statement is given up before the loss
        rw [hfail] at h₂ heval
        have hret := leads_ret (hwork.trans hw) h₂
        rw [hcom] at hret
        simp only [hlim, hfail]
        rw [if_neg (by omega)]
        exact hret.congr heval
      · -- the loss is at one of its attempts
        have hend := leads_of_ended (q := .call (.change c) k) (v := w.state)
          (ended_of_lost (.change c k hfail hk) hlost h₂)
        rw [hcom, cfg.again_eq (Nat.succ_pos _), Nat.zero_add] at hend
        cases hlim : cfg.attempts with
        | none => simpa only [hlim] using hend
        | some limit =>
          have hn := hlt limit hlim
          simp only [hlim] at hend ⊢
          rwa [if_pos (by omega)]

/-! ## All or nothing in spite of the loss -/

/-- The committed state is the old one `s` or the complete effect of the body, and it is the
complete effect when the result is true. -/
def Intact (E : Engine Q A C S) (p : Program Q A C (Except ε α)) (s : S) (b : Bool)
    (committed : S) : Prop :=
  (committed = s ∨ ∃ a, p.eval E s = (.ok a, committed)) ∧
    (b = true → ∃ a, p.eval E s = (.ok a, committed))

/-- What is left to do is refused before it changes anything. -/
def Refused (E : Engine Q A C S) (rest : Program Q A C (Except ε α)) (s : S) : Prop :=
  (rest.eval E s).1.isOk = false ∧ (rest.eval E s).2 = s

/-- The rest of a body, done on the old state alone, has the complete effect. -/
def MadeUp (E : Engine Q A C S) (p rest : Program Q A C (Except ε α)) (s : S) : Prop :=
  (p.eval E s).1.isOk = true ∧ (p.eval E s).2 = (rest.eval E s).2

/-- When the loss of the connection does no harm. -/
def Fate.Harmless (E : Engine Q A C S) (p : Program Q A C (Except ε α)) (s : S) :
    Fate Q A C S ε α → Prop
  | .never => True
  | .closing r w => r.isOk = true → w = s
  | .body _ _ false => True
  | .body rest w true =>
    w = s ∧ ((p.eval E s).1.isOk = true ∨ (p.eval E s).2 = s) ∨
      w ≠ s ∧ (Refused E rest s ∨ MadeUp E p rest s)

theorem eval_eq_ok_iff {p : Program Q A C (Except ε α)} {v t : S} :
    (∃ a, p.eval E v = (.ok a, t)) ↔ (p.eval E v).1.isOk = true ∧ (p.eval E v).2 = t := by
  rw [Except.isOk_iff]
  constructor
  · intro ⟨a, h⟩
    exact ⟨⟨a, by rw [h]⟩, by rw [h]⟩
  · intro ⟨⟨a, h₁⟩, h₂⟩
    exact ⟨a, Prod.ext h₁ h₂⟩

/-- Up to the loss the body has done what it does without one. -/
theorem eval_of_fate {q rest : Program Q A C (Except ε α)} (hq : Body e q) {v w : S} {n : ℕ}
    {again : Bool} (h : fate cfg E q v n = .body rest w again) : q.eval E v = rest.eval E w := by
  induction hq generalizing v n with
  | ret r =>
    rw [fate] at h
    split at h <;> cases h
  | query q k hfail hk ih =>
    rw [fate_query] at h
    split at h
    · cases h
      rfl
    · exact ih _ h
  | change c k hfail hk ih =>
    cases hc : E.exec c v with
    | some v' =>
      rw [fate_change_of_some cfg E k n hc] at h
      split at h
      · cases h
        rfl
      · rw [Program.eval_change_of_some E k hc]
        exact ih h
    | none =>
      rw [fate_change_of_none cfg E k n hc, hfail] at h
      split at h
      · cases h
        rfl
      · split at h
        · cases h
          rfl
        · rw [fate] at h
          split at h <;> cases h

/-- A transaction in which the connection is lost is all or nothing exactly if the loss is
harmless. -/
theorem Fate.Leads.intact_iff {f : Fate Q A C S ε α} {p : Program Q A C (Except ε α)} {v t : S}
    {b : Bool} (h : f.Leads E p v v b t)
    (heval : ∀ rest w again, f = .body rest w again → p.eval E v = rest.eval E w) :
    Intact E p v b t ↔ f.Harmless E p v := by
  unfold Intact
  rw [eval_eq_ok_iff]
  -- by what the loss meets: nothing, the closing statement, or a statement of the body
  cases f with
  | never =>
    obtain ⟨hb, ht⟩ := h
    unfold Harmless
    rw [← hb]
    cases b with
    | false => simp [ht]
    | true => simp [ht]
  | closing r w =>
    obtain ⟨hb, ht, hp⟩ := h
    unfold Harmless
    rw [hp, ← hb, ht]
    cases b with
    | false => simp [← hb]
    | true => simp [← hb]
  | body rest w again =>
    specialize heval rest w again rfl
    cases again with
    | false =>
      obtain ⟨hb, ht⟩ := h
      unfold Harmless
      rw [hb, ht]
      simp
    | true =>
      obtain ⟨hb, ht⟩ := h
      show _ ↔ w = v ∧ _ ∨ w ≠ v ∧ (Refused E rest v ∨ MadeUp E p rest v)
      unfold Refused MadeUp
      rw [← hb, ← ht]
      by_cases hw : w = v
      · -- nothing has been changed before the loss: the rest is the whole transaction
        rw [hw] at heval
        rw [heval, ← hb, ← ht]
        cases b with
        | false => simp [hw]
        | true => simp [hw]
      · cases b with
        | false => simp [hw, or_comm, and_comm]
        | true =>
          simp only [hw, reduceCtorEq, false_and, true_and, false_or, ne_eq, not_false_eq_true,
            forall_const]
          tauto

/-- The rest of a transaction that is still open, with no loss to come. -/
theorem leads_never {q : Program Q A C (Except ε α)} {w : Pending S C T} {b : Bool} {t : S}
    (hw : s.working = some w) (h : Ended E q s b t) :
    Fate.never.Leads E q w.state s.committed b t := by
  obtain ⟨hb, ht⟩ := h
  rw [Session.visible_of_some hw] at hb ht
  refine ⟨hb, ht.trans ?_⟩
  cases b with
  | false => exact if_pos ⟨by simp [hw], rfl⟩
  | true => exact if_neg fun h => Bool.noConfusion h.2

/-- Where the loss at an attempt of a whole transaction finds it: the first attempt is that
of `START TRANSACTION`, at which there is nothing to lose. -/
def lossAt (cfg : Retry) (E : Engine Q A C S) (p : Program Q A C (Except ε α)) (s : S) :
    ℕ → Fate Q A C S ε α
  | 0 => .never
  | n + 1 => fate cfg E p s n

/-- A transaction with the connection lost at any of its attempts is all or nothing exactly
if the loss is harmless where it finds the transaction. -/
theorem intact_iff {p : Program Q A C (Except ε α)} (hp : Body e p) {n : ℕ} {b : Bool}
    (hs : s.working = none)
    (h : runTimed cfg E who fuel (transaction p) (some n) s = some (b, s')) :
    Intact E p s.committed b s'.committed ↔
      (lossAt cfg E p s.committed n).Harmless E p s.committed := by
  have hw : s.startTransaction.working = some ⟨s.committed, []⟩ := by
    rw [Session.startTransaction, Session.visible_of_none hs]
  have hcom : s.startTransaction.committed = s.committed := Session.visible_of_none hs
  rw [transaction_eq] at h
  obtain ⟨x, s₁, l, h₁, h₂⟩ := runTimed_call (by simp) h
  cases n with
  | zero =>
    have hl := dbQueryTimed_lost rfl h₁
    split at hl
    · obtain ⟨fuel', hl⟩ := hl
      cases fuel' with
      | zero => cases hl
      | succ fuel' =>
        rw [dbQueryTimed_of_ok rfl] at hl
        cases hl
        have hlead := leads_never (s := s.rollback.startTransaction) rfl (ended_of_runTimed hp h₂)
        exact hlead.intact_iff fun _ _ _ h => by cases h
    · obtain ⟨rfl, rfl, rfl⟩ := hl
      cases h₂
      exact iff_of_true ⟨.inl rfl, fun h => absurd h Bool.false_ne_true⟩ trivial
  | succ n =>
    cases fuel with
    | zero => cases h₁
    | succ fuel =>
      rw [dbQueryTimed_of_ok rfl] at h₁
      cases h₁
      have hlead := runTimed_lossy hp hw h₂
      rw [hcom] at hlead
      exact hlead.intact_iff fun rest w again hf => eval_of_fate hp hf

/-! ## What the loss takes away for good -/

/-- A loss within a sequence is one within its first part, or within its second one. -/
theorem fate_andThen {β : Type} {p : Program Q A C (Except ε α)}
    {f : α → Program Q A C (Except ε β)} {v w : S} {n : ℕ} {again : Bool}
    {rest : Program Q A C (Except ε β)}
    (h : fate cfg E (p.andThen f) v n = .body rest w again) :
    (∃ rest₁, rest = rest₁.andThen f ∧ fate cfg E p v n = .body rest₁ w again) ∨
      ∃ a v' m, p.eval E v = (.ok a, v') ∧ fate cfg E (f a) v' m = .body rest w again := by
  -- on the first part: either the loss is at one of its statements, or fewer attempts are left
  induction p generalizing v n with
  | ret r =>
    cases r with
    | error e =>
      rw [Program.ret_error_andThen, fate] at h
      split at h <;> cases h
    | ok a => exact .inr ⟨a, v, n, rfl, h⟩
  | call r k ih =>
    rw [Program.call_andThen] at h
    cases r with
    | query q =>
      rw [fate_query] at h ⊢
      split at h
      · rename_i hn
        cases h
        exact .inl ⟨.call (.query q) k, rfl, if_pos hn⟩
      · rename_i hn
        rw [if_neg hn]
        exact ih _ h
    | change c =>
      cases hc : E.exec c v with
      | some v' =>
        rw [fate_change_of_some cfg E _ n hc] at h ⊢
        rw [Program.eval_change_of_some E k hc]
        split at h
        · rename_i hn
          cases h
          exact .inl ⟨.call (.change c) k, rfl, if_pos hn⟩
        · rename_i hn
          rw [if_neg hn]
          exact ih _ h
      | none =>
        rw [fate_change_of_none cfg E _ n hc] at h ⊢
        rw [Program.eval_change_of_none E k hc]
        cases hlim : cfg.attempts with
        | none =>
          simp only [hlim] at h ⊢
          cases h
          exact .inl ⟨.call (.change c) k, rfl, rfl⟩
        | some limit =>
          simp only [hlim] at h ⊢
          split at h
          · rename_i hn
            cases h
            exact .inl ⟨.call (.change c) k, rfl, if_pos hn⟩
          · rename_i hn
            rw [if_neg hn]
            exact ih _ h
    | insertId => cases h
    | startTransaction => cases h
    | commit => cases h
    | rollback => cases h

/-- What every change of a body keeps holds at the loss, and the rest has the same changes. -/
theorem fate_only {P : C → Prop} {I : S → Prop}
    (hI : ∀ {c s s'}, P c → I s → E.exec c s = some s' → I s')
    {p rest : Program Q A C (Except ε α)} (hp : p.Only P) {v w : S} {n : ℕ} {again : Bool}
    (hv : I v) (h : fate cfg E p v n = .body rest w again) : rest.Only P ∧ I w := by
  induction p generalizing v n with
  | ret r =>
    rw [fate] at h
    split at h <;> cases h
  | call r k ih =>
    cases r with
    | query q =>
      rw [fate_query] at h
      split at h
      · cases h
        exact ⟨hp, hv⟩
      · exact ih _ (hp.2 _) hv h
    | change c =>
      cases hc : E.exec c v with
      | some v' =>
        rw [fate_change_of_some cfg E k n hc] at h
        split at h
        · cases h
          exact ⟨hp, hv⟩
        · exact ih _ (hp.2 _) (hI (hp.1 c rfl) hv hc) h
      | none =>
        rw [fate_change_of_none cfg E k n hc] at h
        split at h
        · cases h
          exact ⟨hp, hv⟩
        · split at h
          · cases h
            exact ⟨hp, hv⟩
          · exact ih _ (hp.2 _) hv h
    | insertId => cases h
    | startTransaction => cases h
    | commit => cases h
    | rollback => cases h

/-- A change that is lost is not made up for if the rest keeps both what there is with it
and what there is without it. -/
theorem not_madeUp {P : C → Prop} {I J : S → Prop} {p rest : Program Q A C (Except ε α)} {v w : S}
    (heval : p.eval E v = rest.eval E w) (hrest : rest.Only P)
    (hI : ∀ {c s s'}, P c → I s → E.exec c s = some s' → I s')
    (hJ : ∀ {c s s'}, P c → J s → E.exec c s = some s' → J s')
    (hw : I w) (hv : J v) (hne : ∀ t, I t → ¬J t) : ¬MadeUp E p rest v := by
  intro h
  have hlost : (rest.eval E w).2 = (rest.eval E v).2 := by
    rw [← heval]
    exact h.2
  apply hne (rest.eval E w).2
  · exact hrest.eval E hI hw
  · rw [hlost]
    exact hrest.eval E hJ hv

/-! ## Returning -/

/-- If a statement is sent a bounded number of times, it comes to an end. -/
theorem dbQueryTimed_isSome (E : Engine Q A C S) (who : T) (lost : Option ℕ) (s : Session S C T)
    {r : Request Q C} {limit : ℕ} (hlim : cfg.attempts = some limit)
    (hf : limit ≤ failed + fuel) (hpos : 0 < fuel) :
    (dbQueryTimed cfg E who r fuel failed lost s).isSome := by
  induction fuel generalizing failed lost s with
  | zero => cases hpos
  | succ fuel ih =>
    cases hok : Reply.ok r (attempt E who r lost s).1 with
    | true =>
      rw [dbQueryTimed_of_ok hok]
      rfl
    | false =>
      rw [dbQueryTimed_of_not_ok hok, cfg.again_eq (Nat.succ_pos _), hlim]
      simp only [decide_eq_true_eq]
      split
      · exact ih _ _ (by omega) (by omega)
      · rfl

/-- With a bounded number of attempts every program returns. -/
theorem runTimed_isSome {limit : ℕ} (hlim : cfg.attempts = some limit) (hf : limit ≤ fuel)
    (p : Program Q A C α) (lost : Option ℕ) (s : Session S C T) :
    (runTimed cfg E who fuel p lost s).isSome := by
  have hpos := cfg.attempts_pos hlim
  induction p generalizing lost s with
  | ret a => rfl
  | call r k ih =>
    by_cases hr : r = .insertId
    · subst hr
      exact ih _ _ _
    · obtain ⟨⟨x, s₁, l⟩, hx⟩ := Option.isSome_iff_exists.mp
        (dbQueryTimed_isSome (r := r) E who lost s hlim
          (by omega : limit ≤ 0 + fuel) (by omega))
      have hnext := ih x l s₁
      cases r with
      | insertId => exact absurd rfl hr
      | _ => simpa only [runTimed, hx, Option.bind_some] using hnext

end Sql
