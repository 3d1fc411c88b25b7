import MyFS.Install
import MyFS.Sql.Keeps

/-!
# Undoing a failed setup

`create_cleanup` removes the config file. It names the database in single quotes, which makes a
string of it, and it has no statement for the account, so that a setup that fails is undone only if
it fails before there is a database (`undone_iff`).
-/

namespace MyFS

open Sql Text

variable {α : Type} {valid : SetupStatement → MariaDb → Bool} {configs : List Config}
  {params : CreateRunParams} {fails : Failures Empty Effect} {w : World}

/-! ## No database is dropped -/

/-- Whether the server can take the effect for a `DROP DATABASE`. -/
def Effect.drops : Effect → Bool
  | .statement (.dropDatabase name) => name.wellFormed
  | _ => false

theorem isSome_databases_exec {e : Effect} {w' : World} {d : List Byte} (he : e.drops = false)
    (hd : (w.server.databases d).isSome = true) (h : e.exec valid w = some w') :
    (w'.server.databases d).isSome = true := by
  cases e with
  | writeFile path contents =>
    rw [← Option.some.inj h]
    exact hd
  | unlink path =>
    rw [Effect.exec, Option.ite_none_right_eq_some] at h
    rw [← Option.some.inj h.2]
    exact hd
  | statement st =>
    obtain ⟨server, hexec, rfl⟩ := Option.map_eq_some_iff.mp h
    obtain ⟨⟨hwf, -⟩, rfl⟩ := Statement.execIf_eq_some.mp hexec
    apply Statement.isSome_databases_effect
    · rintro name rfl
      -- a name that is no identifier is rejected
      exact absurd (hwf.symm.trans he) (by decide)
    · exact hd

theorem isSome_databases_run {p : SetupProg α} (hp : p.Only fun e => e.drops = false)
    {s : Session World Effect Unit} {d : List Byte} (hs : s.working = none)
    (hd : (s.committed.server.databases d).isSome = true) :
    ((Sql.run (setupEngine valid) () p fails s).sess.committed.server.databases d).isSome = true := by
  have hvisible : (s.visible.server.databases d).isSome = true := by
    rwa [Session.visible_of_none hs]
  have hkeeps := Program.keeps_of_only (E := setupEngine valid)
    (G := fun w => (w.server.databases d).isSome = true) isSome_databases_exec hp hvisible
  exact (keeps_run () (fun _ q => q.elim) hkeeps ⟨hd, hvisible⟩).committed

theorem drops_databaseStatements {st : SetupStatement} (h : st ∈ databaseStatements params) :
    (Effect.statement st).drops = false := by
  have hall : (databaseStatements params).all fun st => !(Effect.statement st).drops := by
    rw [databaseStatements]
    split
    · rfl
    · rfl
  simpa using List.all_eq_true.mp hall st h

theorem only_call {e : Effect} {k : Bool → SetupProg α} (he : e.drops = false)
    (hk : ∀ success, (k success).Only fun e => e.drops = false) :
    (Program.call (.change e) k : SetupProg α).Only fun e => e.drops = false := by
  refine ⟨fun e' h => ?_, hk⟩
  cases h
  exact he

theorem only_createRunCreateDatabase (created : Created) :
    (createRunCreateDatabase params created).Only fun e => e.drops = false := by
  refine only_call rfl fun success => ?_
  cases success with
  | false => trivial
  | true =>
    refine (only_script fun e he => ?_).bind fun success => ?_
    · obtain ⟨st, hst, rfl⟩ := List.mem_map.mp he
      exact drops_databaseStatements hst
    · cases success with
      | false => trivial
      | true => exact only_call rfl fun _ => trivial

/-- The name in quotes is no identifier. -/
theorem only_createCleanup (created : Created) (success : Bool) :
    (createCleanup params created success).Only fun e => e.drops = false := by
  obtain ⟨config, database⟩ := created
  cases success with
  | true => trivial
  | false =>
    cases config <;> cases database
    · trivial
    · exact only_call rfl fun _ => trivial
    · exact only_call rfl fun _ => trivial
    · exact only_call rfl fun _ => only_call rfl fun _ => trivial

/-! ## Failed runs -/

/-- `'mariadb_user'@'mariadb_user_host'` -/
def CreateRunParams.account (params : CreateRunParams) : Account :=
  ⟨params.mariadbUser.val, params.mariadbUserHost.val⟩

/-- The effect of `create_run_create_config`. -/
def configEffect (configs : List Config) (params : CreateRunParams) : Effect :=
  .writeFile params.configPath.val (createRunCreateConfig configs params.toCreateParams)

/-- The first effect of `create_run_create_database`. -/
def databaseEffect (params : CreateRunParams) : Effect :=
  .statement (createGetSqlDatabase params.mariadbDatabase.val)

/-- What setup is to create is not there yet. -/
structure Fresh (params : CreateRunParams) (w : World) : Prop where
  config : w.files params.configPath.val = none
  database : w.server.databases params.mariadbDatabase.val = none
  account : params.createDatabaseUser = true → w.server.accounts params.account = none

/-- There is no config file, and no database and no account that was not there before. -/
structure Undone (params : CreateRunParams) (w w' : World) : Prop where
  config : w'.files params.configPath.val = none
  databases : ∀ d, w.server.databases d = none → w'.server.databases d = none
  accounts : ∀ a, w.server.accounts a = none → w'.server.accounts a = none

def runCreate (valid : SetupStatement → MariaDb → Bool) (configs : List Config)
    (params : CreateRunParams) (fails : Failures Empty Effect) (w : World) :
    Outcome Bool Empty Effect World Unit :=
  Sql.run (setupEngine valid) () (createRun configs params) fails (Session.idle w)

/-- The steps of setup may fail, but not `unlink`. -/
def UnlinkOk (fails : Failures Empty Effect) : Prop :=
  ∀ n path, fails n (.change (.unlink path)) = false

/-- The config file cannot be opened, or the database cannot be created. -/
def FailsEarly (valid : SetupStatement → MariaDb → Bool) (configs : List Config)
    (params : CreateRunParams) (fails : Failures Empty Effect) (w : World) : Prop :=
  fails 0 (.change (configEffect configs params)) = true ∨
    fails 1 (.change (databaseEffect params)) = true ∨
    valid (createGetSqlDatabase params.mariadbDatabase.val) w.server = false

/-- Without a database there is only the config file to be removed. -/
theorem run_cleanup_config (hunlink : UnlinkOk fails) {s : Session World Effect Unit}
    (hs : s.working = none) (hfile : (s.committed.files params.configPath.val).isSome = true) :
    let w' := (Sql.run (setupEngine valid) () (createCleanup params ⟨true, false⟩ false) fails
      s).sess.committed
    w'.files params.configPath.val = none ∧ w'.server = s.committed.server := by
  obtain ⟨success, s', -, hstep, -, hsess⟩ := run_change_closed (setupEngine valid) ()
    (.unlink params.configPath.val) _ fails hs
  have hrun : (Sql.run (setupEngine valid) () (createCleanup params ⟨true, false⟩ false) fails
    s).sess = _ := hsess
  have hexec : (setupEngine valid).exec (.unlink params.configPath.val) s.committed = some _ :=
    if_pos hfile
  rw [hexec, hunlink] at hstep
  rcases hstep with ⟨rfl, -, hw⟩ | ⟨-, hrejected, -⟩
  · rw [hrun]
    show s'.committed.files _ = none ∧ s'.committed.server = _
    rw [← Option.some.inj hw]
    exact ⟨Function.update_self .., rfl⟩
  · simp at hrejected

/-- What `create_run` goes on with once the config file is there. -/
def afterConfig (params : CreateRunParams) : SetupProg Bool :=
  createRunCreateDatabase params ⟨true, false⟩ >>= fun (success, created) =>
    createCleanup params created success >>= fun _ => .ret success

theorem exec_databaseEffect_of_valid
    (h : valid (createGetSqlDatabase params.mariadbDatabase.val) w.server = true) :
    (databaseEffect params).exec valid w = some { w with
      server := (createGetSqlDatabase params.mariadbDatabase.val).effect w.server } := by
  rw [databaseEffect, Effect.exec, Statement.execIf, h]
  rfl

theorem exec_databaseEffect_of_not_valid
    (h : valid (createGetSqlDatabase params.mariadbDatabase.val) w.server = false) :
    (databaseEffect params).exec valid w = none := by
  rw [databaseEffect, Effect.exec, Statement.execIf, h]
  rfl

/-- Once there is a database, it stays. -/
theorem run_afterConfig (hunlink : UnlinkOk fails) {s : Session World Effect Unit}
    (hs : s.working = none) (hfile : (s.committed.files params.configPath.val).isSome = true) :
    let w' := (Sql.run (setupEngine valid) () (afterConfig params) fails s).sess.committed
    let Refused := fails 0 (.change (databaseEffect params)) = true ∨
      valid (createGetSqlDatabase params.mariadbDatabase.val) s.committed.server = false
    (Refused ∧ w'.files params.configPath.val = none ∧ w'.server = s.committed.server) ∨
      (¬Refused ∧ (w'.server.databases params.mariadbDatabase.val).isSome = true) := by
  obtain ⟨success, s', hs', hstep, -, hsess⟩ := run_change_closed (setupEngine valid) ()
    (databaseEffect params) _ fails hs
  have hrun : (Sql.run (setupEngine valid) () (afterConfig params) fails s).sess = _ := hsess
  rw [hrun]
  cases hvalid : valid (createGetSqlDatabase params.mariadbDatabase.val) s.committed.server with
  | false =>
    left
    rcases hstep with ⟨-, -, hexec⟩ | ⟨rfl, -, hw⟩
    · exact absurd (hexec.symm.trans (exec_databaseEffect_of_not_valid hvalid)) nofun
    · refine ⟨.inr rfl, ?_⟩
      rw [← hw] at hfile ⊢
      exact run_cleanup_config (fun n path => hunlink (n + 1) path) hs' hfile
  | true =>
    rcases hstep with ⟨rfl, hf, hexec⟩ | ⟨rfl, hf, hw⟩
    · right
      refine ⟨by simp [hf], ?_⟩
      have hrest : (Program.Only (fun e => e.drops = false) (afterConfig params)) :=
        (only_createRunCreateDatabase _).bind fun _ => (only_createCleanup _ _).bind fun _ => trivial
      refine isSome_databases_run (hrest.2 true) hs' ?_
      have hdone := hexec.symm.trans (exec_databaseEffect_of_valid hvalid)
      rw [Option.some.inj hdone]
      show (Function.update s.committed.server.databases _ _ _).isSome = true
      rw [Function.update_self]
      rfl
    · left
      have hexec := exec_databaseEffect_of_valid hvalid
      have hf' : fails 0 (.change (databaseEffect params)) = true := by
        refine hf.resolve_right fun hnone => ?_
        exact absurd (hexec.symm.trans hnone) nofun
      refine ⟨.inl hf', ?_⟩
      rw [← hw] at hfile ⊢
      exact run_cleanup_config (fun n path => hunlink (n + 1) path) hs' hfile

/-- Setup leaves nothing behind exactly if it fails before there is a database. The server may take
any statements for valid. -/
theorem undone_iff (hunlink : UnlinkOk fails) (hfresh : Fresh params w) :
    Undone params w (runCreate valid configs params fails w).sess.committed ↔
      FailsEarly valid configs params fails w := by
  obtain ⟨opened, s, hs, hstep, -, hsess⟩ := run_change_closed (setupEngine valid) ()
    (configEffect configs params) _ fails (Session.working_idle w)
  have hrun : (runCreate valid configs params fails w).sess = _ := hsess
  rw [Session.committed_idle] at hstep
  rw [hrun]
  rcases hstep with ⟨rfl, hf, hexec⟩ | ⟨rfl, hf, hw⟩
  · -- the file is there
    have hw := Option.some.inj hexec
    have hfile : (s.committed.files params.configPath.val).isSome = true := by
      rw [← hw]
      show (Function.update w.files _ _ _).isSome = true
      rw [Function.update_self]
      rfl
    have hserver : s.committed.server = w.server := by rw [← hw]
    rcases run_afterConfig (fun n path => hunlink (n + 1) path) hs hfile with
      ⟨hrefused, hconfig, hsame⟩ | ⟨haccepted, hdatabase⟩
    · rw [hserver] at hrefused hsame
      refine iff_of_true ⟨hconfig, fun d hd => ?_, fun a ha => ?_⟩ (.inr hrefused)
      · exact (congrArg (fun server => server.databases d) hsame).trans hd
      · exact (congrArg (fun server => server.accounts a) hsame).trans ha
    · rw [hserver] at haccepted
      refine iff_of_false (fun hundone => ?_) (not_or.mpr ⟨by simp [hf], haccepted⟩)
      have hnone := hundone.databases _ hfresh.database
      exact absurd (hdatabase.symm.trans (congrArg Option.isSome hnone)) nofun
  · -- nothing was done
    have hdone : Undone params w s.committed := by
      rw [hw]
      exact ⟨hfresh.config, fun _ hd => hd, fun _ ha => ha⟩
    exact iff_of_true hdone (.inl (hf.resolve_right nofun))

/-! ## A server without databases -/

/-- What the prompts propose, for an account that is to be created. -/
def proposed : CreateRunParams where
  mariadbHost := ⟨ascii "127.0.0.1", by decide⟩
  mariadbUser := ⟨ascii "myfs", by decide⟩
  mariadbDatabase := ⟨ascii "myfs", by decide⟩
  mariadbPort := ⟨ascii "3306", by decide⟩
  mount := ⟨ascii "/mnt/myfs", by decide⟩
  user := ⟨ascii "root", by decide⟩
  group := ⟨ascii "root", by decide⟩
  configPath := ⟨ascii "/etc/myfs.d/myfs.conf", by decide⟩
  mariadbUserHost := ⟨ascii "%", by decide⟩
  mariadbPassword1 := ⟨ascii "secret", by decide⟩
  createDatabaseUser := true

def proposedConfigs : List Config := mainConfigs (ascii "root") (ascii "root")

def newWorld : World where
  files := fun _ => none
  server :=
    { databases := fun _ => none
      accounts := fun _ => none
      privileges := fun _ _ => false
      current := none
      autoValueOnZero := true
      unixTimestamp := 0 }

theorem fresh_newWorld : Fresh proposed newWorld := ⟨rfl, rfl, fun _ => rfl⟩

/-- Only `CREATE DATABASE` fails. -/
def createDatabaseFails : Failures Empty Effect
  | _, .change (.statement (.createDatabase _)) => true
  | _, _ => false

/-- The config file is removed again if the database cannot be created. -/
theorem undone_createDatabaseFails :
    Undone proposed newWorld
      (runCreate Statement.valid proposedConfigs proposed createDatabaseFails newWorld).sess.committed :=
  (undone_iff (fun _ _ => rfl) fresh_newWorld).mpr (.inr (.inl rfl))

/-- The server rejects the root row, and the database stays. -/
theorem database_left_behind :
    Fresh proposed newWorld ∧ UnlinkOk noFailure ∧
      (runCreate Statement.valid proposedConfigs proposed noFailure newWorld).result = false ∧
      ¬Undone proposed newWorld
        (runCreate Statement.valid proposedConfigs proposed noFailure newWorld).sess.committed := by
  refine ⟨fresh_newWorld, fun _ _ => rfl, by decide, fun hundone => ?_⟩
  have hnone := hundone.databases (ascii "myfs") rfl
  have hsome : ((runCreate Statement.valid proposedConfigs proposed noFailure
      newWorld).sess.committed.server.databases (ascii "myfs")).isSome = true := by decide
  rw [hnone] at hsome
  cases hsome

end MyFS
