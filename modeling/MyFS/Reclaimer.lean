import Mathlib.Tactic.Common
import Mathlib.Data.Nat.Notation

/-!
# The reclaimer

The thread of `reclaimer.c` runs `OPTIMIZE TABLE` from time to time. Callbacks notify it of
what they did; it keeps a mark of that (`last_action` at the optimistic level, `run` at the
aggressive one), tests the mark at the head of its loop, runs the query and clears the mark.

`System.step` lets the callbacks and the thread take turns, with the test of the mark, the
test of `next_try`, the query's start and its end, and the clearing of the mark as steps of
their own. `Run` are the runs all of whose steps meet a condition.

* `pending_of_run`: a notification that has come since the start of the last successful
  `OPTIMIZE` is still marked if the mark is only cleared when none came in the meantime.
* `notice_lost`: in general it is not.
-/

namespace MyFS

/-- `reclaimer_level_t`. -/
inductive Level
  | off
  | optimistic
  | aggressive
deriving DecidableEq, Repr

/-- `reclaimer_action_t`. -/
inductive Action
  | general
  | delete
deriving DecidableEq, Repr

/-- `RECLAIMER_QUERY_RETRY_TIME`. -/
def reclaimerQueryRetryTime : ℕ := 30

/-- `RECLAIMER_OPTIMISTIC_WAIT_TIME`. -/
def reclaimerOptimisticWaitTime : ℕ := 60 * 30

/-- The shared part of `reclaimer_t`. -/
structure Reclaimer where
  level : Level
  lastAction : ℕ
  run : Bool
deriving DecidableEq, Repr

namespace Reclaimer

def shouldRun (r : Reclaimer) (now : ℕ) : Bool :=
  match r.level with
  | .off => false
  | .optimistic => r.lastAction > 0 && now - r.lastAction ≥ reclaimerOptimisticWaitTime
  | .aggressive => r.run

def reset (r : Reclaimer) : Reclaimer :=
  match r.level with
  | .off => r
  | .optimistic => { r with lastAction := 0 }
  | .aggressive => { r with run := false }

def notify (r : Reclaimer) (now : ℕ) (action : Action) : Reclaimer :=
  match r.level with
  | .off => r
  | .optimistic => { r with lastAction := now }
  | .aggressive => if action = .delete then { r with run := true } else r

/-- Whether the mark of the level is set. -/
def pending (r : Reclaimer) : Bool :=
  match r.level with
  | .off => false
  | .optimistic => r.lastAction > 0
  | .aggressive => r.run

@[simp] theorem level_reset (r : Reclaimer) : r.reset.level = r.level := by
  unfold reset
  split <;> rfl

@[simp] theorem level_notify (r : Reclaimer) (now : ℕ) (action : Action) :
    (r.notify now action).level = r.level := by
  unfold notify
  split
  · rfl
  · rfl
  · split <;> rfl

theorem pending_notify_delete {r : Reclaimer} {now : ℕ} (hr : r.level ≠ .off) (hnow : 0 < now) :
    (r.notify now .delete).pending = true := by
  unfold notify pending
  cases hl : r.level with
  | off => exact absurd hl hr
  | optimistic => simpa using hnow
  | aggressive => simp

/-- A notification never takes a mark away. -/
theorem pending_notify {r : Reclaimer} {now : ℕ} {action : Action} (hnow : 0 < now)
    (h : r.pending = true) : (r.notify now action).pending = true := by
  unfold notify pending at *
  cases hl : r.level with
  | off => simp [hl] at h
  | optimistic => simpa using hnow
  | aggressive =>
    rw [hl] at h
    by_cases ha : action = .delete
    · simp [ha]
    · simpa [ha, hl] using h

end Reclaimer

/-! ## The thread and the callbacks -/

/-- Where the thread of `reclaimer_process` stands. -/
inductive Pc
  /-- At the head of the loop. -/
  | head
  /-- `should_run` is true; `next_try` is tested next. -/
  | checked
  /-- The query is running. -/
  | querying
  /-- The query has succeeded; the mark is cleared next. -/
  | optimized
deriving DecidableEq, Repr

structure System where
  reclaimer : Reclaimer
  pc : Pc
  nextTry : ℕ
  /-- What `time(NULL)` returns. -/
  now : ℕ
deriving DecidableEq, Repr

/-- The steps: time passes, a callback of the kind `κ` completes, the thread moves. -/
inductive Act (κ : Type)
  | tick (seconds : ℕ)
  | call (callback : κ)
  | check
  /-- `next_try` has not come yet: back to the head of the loop. -/
  | wait
  /-- `OPTIMIZE TABLE` is sent. -/
  | start
  | success
  | failure
  | reset

namespace System

variable {κ : Type}

/-- Whether a failed query is not to be tried again yet. -/
def waiting (s : System) : Bool := s.nextTry > 0 && s.nextTry > s.now

/-- What the notification of a callback does, if it sends one. -/
def notice (s : System) : Option Action → System
  | some action => { s with reclaimer := s.reclaimer.notify s.now action }
  | none => s

/-- Take a step; `none` if the thread is elsewhere. -/
def step (notifies : κ → Option Action) (s : System) : Act κ → Option System
  | .tick seconds => some { s with now := s.now + seconds }
  | .call callback => some (s.notice (notifies callback))
  | .check =>
    if s.pc = .head then
      some { s with pc := if s.reclaimer.shouldRun s.now then .checked else .head }
    else none
  | .wait => if s.pc = .checked ∧ s.waiting = true then some { s with pc := .head } else none
  | .start =>
    if s.pc = .checked ∧ s.waiting = false then some { s with pc := .querying, nextTry := 0 }
    else none
  | .success => if s.pc = .querying then some { s with pc := .optimized } else none
  | .failure =>
    if s.pc = .querying then
      some { s with pc := .head, nextTry := s.now + reclaimerQueryRetryTime }
    else none
  | .reset =>
    if s.pc = .optimized then some { s with pc := .head, reclaimer := s.reclaimer.reset }
    else none

/-- The thread has just been started. -/
def started (level : Level) (now : ℕ) : System := ⟨⟨level, 0, false⟩, .head, 0, now⟩

end System

/-- The runs from the start of the thread, the latest step first, all of whose steps meet
`Ok`. The clock counts seconds from an epoch long past. -/
inductive Run {κ : Type} (notifies : κ → Option Action) (level : Level)
    (Ok : System → List (Act κ) → Act κ → Prop) : System → List (Act κ) → Prop
  | start (now : ℕ) (hnow : 0 < now) : Run notifies level Ok (.started level now) []
  | step {s s' : System} {history : List (Act κ)} (act : Act κ)
      (h : Run notifies level Ok s history) (hok : Ok s history act)
      (hs : s.step notifies act = some s') : Run notifies level Ok s' (act :: history)

section

variable {κ : Type} {notifies : κ → Option Action} {level : Level}
  {Ok : System → List (Act κ) → Act κ → Prop} {s s' : System} {history : List (Act κ)} {act : Act κ}

/-- What a step can do. -/
theorem System.step_cases (h : s.step notifies act = some s') :
    (∃ seconds, act = .tick seconds ∧ s' = { s with now := s.now + seconds }) ∨
    (∃ callback, act = .call callback ∧ s' = s.notice (notifies callback)) ∨
    (act = .check ∧ s.pc = .head ∧
      s' = { s with pc := if s.reclaimer.shouldRun s.now then .checked else .head }) ∨
    (act = .wait ∧ s.pc = .checked ∧ s.waiting = true ∧ s' = { s with pc := .head }) ∨
    (act = .start ∧ s.pc = .checked ∧ s.waiting = false ∧
      s' = { s with pc := .querying, nextTry := 0 }) ∨
    (act = .success ∧ s.pc = .querying ∧ s' = { s with pc := .optimized }) ∨
    (act = .failure ∧ s.pc = .querying ∧
      s' = { s with pc := .head, nextTry := s.now + reclaimerQueryRetryTime }) ∨
    (act = .reset ∧ s.pc = .optimized ∧
      s' = { s with pc := .head, reclaimer := s.reclaimer.reset }) := by
  cases act <;> simp only [System.step, Option.ite_none_right_eq_some, Option.some.injEq] at h
  case tick seconds => exact .inl ⟨seconds, rfl, h.symm⟩
  case call callback => exact .inr (.inl ⟨callback, rfl, h.symm⟩)
  case check => exact .inr (.inr (.inl ⟨rfl, h.1, h.2.symm⟩))
  case wait => exact .inr (.inr (.inr (.inl ⟨rfl, h.1.1, h.1.2, h.2.symm⟩)))
  case start => exact .inr (.inr (.inr (.inr (.inl ⟨rfl, h.1.1, h.1.2, h.2.symm⟩))))
  case success => exact .inr (.inr (.inr (.inr (.inr (.inl ⟨rfl, h.1, h.2.symm⟩)))))
  case failure => exact .inr (.inr (.inr (.inr (.inr (.inr (.inl ⟨rfl, h.1, h.2.symm⟩))))))
  case reset => exact .inr (.inr (.inr (.inr (.inr (.inr (.inr ⟨rfl, h.1, h.2.symm⟩))))))

@[simp] theorem System.now_notice (s : System) (a : Option Action) : (s.notice a).now = s.now := by
  cases a <;> rfl

@[simp] theorem System.pc_notice (s : System) (a : Option Action) : (s.notice a).pc = s.pc := by
  cases a <;> rfl

@[simp] theorem System.level_notice (s : System) (a : Option Action) :
    (s.notice a).reclaimer.level = s.reclaimer.level := by
  cases a with
  | none => rfl
  | some action => exact Reclaimer.level_notify _ _ _

theorem Run.now_pos (h : Run notifies level Ok s history) : 0 < s.now := by
  induction h with
  | start now hnow => exact hnow
  | step act _ _ hs ih =>
    rcases System.step_cases hs with ⟨seconds, -, rfl⟩ | ⟨callback, -, rfl⟩ | ⟨-, -, rfl⟩ |
      ⟨-, -, -, rfl⟩ | ⟨-, -, -, rfl⟩ | ⟨-, -, rfl⟩ | ⟨-, -, rfl⟩ | ⟨-, -, rfl⟩
    · exact Nat.add_pos_left ih seconds
    · rw [System.now_notice]
      exact ih
    all_goals exact ih

theorem Run.level_eq (h : Run notifies level Ok s history) : s.reclaimer.level = level := by
  induction h with
  | start now hnow => rfl
  | step act _ _ hs ih =>
    rcases System.step_cases hs with ⟨seconds, -, rfl⟩ | ⟨callback, -, rfl⟩ | ⟨-, -, rfl⟩ |
      ⟨-, -, -, rfl⟩ | ⟨-, -, -, rfl⟩ | ⟨-, -, rfl⟩ | ⟨-, -, rfl⟩ | ⟨-, -, rfl⟩
    · exact ih
    · rw [System.level_notice]
      exact ih
    all_goals first | exact ih | exact (Reclaimer.level_reset _).trans ih

end

/-! ## Notifications that are not served yet -/

/-- A notification of a deletion has come since `OPTIMIZE` was last started. -/
def noticeSinceStart : List (Act Action) → Bool
  | [] => false
  | .start :: _ => false
  | .call .delete :: _ => true
  | _ :: history => noticeSinceStart history

/-- A notification of a deletion has come since the start of the last `OPTIMIZE` that was
successful, or ever if there was none. -/
def noticeUnserved : List (Act Action) → Bool
  | [] => false
  | .call .delete :: _ => true
  | .success :: history => noticeSinceStart history
  | _ :: history => noticeUnserved history

/-- The mark is not cleared when a notification came after the query was started. -/
def ClearsInTime (_ : System) (history : List (Act Action)) : Act Action → Prop
  | .reset => noticeSinceStart history = false
  | _ => True

section

variable {level : Level} {s : System} {history : List (Act Action)}

theorem noticeUnserved_of_sinceStart (h : noticeSinceStart history = true) :
    noticeUnserved history = true := by
  induction history with
  | nil => cases h
  | cons act history ih =>
    cases act with
    | call action =>
      cases action with
      | delete => rfl
      | general => exact ih h
    | start => cases h
    | success => exact h
    | tick | check | wait | failure | reset => exact ih h

/-- Once a query has succeeded the two agree, until the mark is cleared. -/
theorem Run.noticeUnserved_eq {Ok : System → List (Act Action) → Act Action → Prop}
    (h : Run some level Ok s history) (hpc : s.pc = .optimized) :
    noticeUnserved history = noticeSinceStart history := by
  induction h with
  | start now hnow => cases hpc
  | step act _ _ hs ih =>
    rcases System.step_cases hs with ⟨seconds, rfl, rfl⟩ | ⟨action, rfl, rfl⟩ | ⟨-, -, rfl⟩ |
      ⟨-, -, -, rfl⟩ | ⟨-, -, -, rfl⟩ | ⟨rfl, -, rfl⟩ | ⟨-, -, rfl⟩ | ⟨-, -, rfl⟩
    · exact ih hpc
    · cases action with
      | general => exact ih hpc
      | delete => rfl
    · dsimp only at hpc
      split at hpc <;> cases hpc
    · cases hpc
    · cases hpc
    · rfl
    · cases hpc
    · cases hpc

/-- In a run in which the mark is never cleared when a notification came after the query was
started, every notification since the start of the last successful query is marked: in
particular whenever the thread is at the head of its loop. -/
theorem pending_of_run (hlevel : level ≠ .off) (h : Run some level ClearsInTime s history)
    (hn : noticeUnserved history = true) : s.reclaimer.pending = true := by
  induction h with
  | start now hnow => cases hn
  | @step s s' history act hrun hok hs ih =>
    rcases System.step_cases hs with ⟨seconds, rfl, rfl⟩ | ⟨action, rfl, rfl⟩ | ⟨rfl, -, rfl⟩ |
      ⟨rfl, -, -, rfl⟩ | ⟨rfl, -, -, rfl⟩ | ⟨rfl, -, rfl⟩ | ⟨rfl, -, rfl⟩ | ⟨rfl, hpc, rfl⟩
    · exact ih hn
    · have hl : s.reclaimer.level ≠ .off := by rw [hrun.level_eq]; exact hlevel
      cases action with
      | general => exact Reclaimer.pending_notify hrun.now_pos (ih hn)
      | delete => exact Reclaimer.pending_notify_delete hl hrun.now_pos
    · exact ih hn
    · exact ih hn
    · exact ih hn
    · exact ih (noticeUnserved_of_sinceStart hn)
    · exact ih hn
    · -- the mark is cleared: nothing came since the start of this query
      have hsince : noticeSinceStart history = false := hok
      rw [← hrun.noticeUnserved_eq hpc] at hsince
      have hn : noticeUnserved history = true := hn
      rw [hsince] at hn
      cases hn

/-- A notification, a query that serves it, and another notification before the next one. -/
theorem pending_of_run_twice :
    (System.mk ⟨.aggressive, 0, true⟩ .head 0 1).reclaimer.pending = true :=
  have h : Run some .aggressive ClearsInTime (System.mk ⟨.aggressive, 0, true⟩ .head 0 1)
      [.call .delete, .reset, .success, .start, .check, .call .delete] :=
    .step _ (.step _ (.step _ (.step _ (.step _ (.step _ (.start 1 (by decide)) trivial rfl)
      trivial rfl) trivial rfl) trivial rfl) rfl rfl) trivial rfl
  pending_of_run (by decide) h rfl

/-- A notification that comes while the query runs is wiped out by the clearing that follows. -/
theorem notice_lost :
    ¬ ∀ (level : Level) (s : System) (history : List (Act Action)), level ≠ .off →
      Run some level (fun _ _ _ => True) s history → s.pc = .head →
      noticeUnserved history = true → s.reclaimer.pending = true := by
  intro hall
  have h := hall .aggressive ⟨⟨.aggressive, 0, false⟩, .head, 0, 1⟩
    [.reset, .success, .call .delete, .start, .check, .call .delete] (by decide)
    (.step _ (.step _ (.step _ (.step _ (.step _ (.step _ (.start 1 (by decide)) trivial rfl)
      trivial rfl) trivial rfl) trivial rfl) trivial rfl) trivial rfl) rfl rfl
  cases h

end

end MyFS
