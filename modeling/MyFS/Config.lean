import MyFS.Data.Text

/-!
# The configuration

`config.c`: a table of parameters, each with a default, a command line switch and a key of the
config file. The command line is walked twice, for the parameters with priority before the config
file is read and for the others after it.
-/

namespace MyFS
open Text

/-- A handler of a parameter: its verdict, and the value that it sets for the parameter. -/
abbrev ConfigFunc := List UInt8 → List UInt8 → Bool × Option (List UInt8)

structure Config where
  name : List UInt8
  nameCommandLine : Option (List UInt8)
  nameConfigFile : Option (List UInt8)
  value : Option (List UInt8)
  valueDefault : Option (List UInt8)
  func : Option ConfigFunc
  priority : Bool

def configSetDefault (configs : List Config) (name : List UInt8)
    (nameCommandLine nameConfigFile valueDefault : Option (List UInt8))
    (func : Option ConfigFunc) : List Config :=
  { name, nameCommandLine, nameConfigFile, value := valueDefault, valueDefault, func,
    priority := false } :: configs

def configFind (configs : List Config) (name : List UInt8) : Option Config :=
  configs.find? (·.name = name)

/-- Changes the first parameter of a name. -/
def configUpdate (f : Config → Config) (name : List UInt8) : List Config → List Config
  | [] => []
  | c :: cs => if c.name = name then f c :: cs else c :: configUpdate f name cs

def configSetPriority (configs : List Config) (name : List UInt8) : List Config :=
  configUpdate (fun c => { c with priority := true }) name configs

def configSet (configs : List Config) (name value : List UInt8) : List Config :=
  configUpdate (fun c => { c with value := some value }) name configs

def configGet (configs : List Config) (name : List UInt8) : Option (List UInt8) :=
  (configFind configs name).bind (·.value)

def configGetInt (configs : List Config) (name : List UInt8) : ℤ :=
  match configGet configs name with
  | none => 0
  | some value => atoi value

/-- Gives a value to a parameter, through its handler if it has one, whose verdict is returned. -/
def configHandle (configs : List Config) (config : Config) (value : List UInt8) :
    Option Bool × List Config :=
  match config.func with
  | some func =>
    match func config.name value with
    | (verdict, some value) => (some verdict, configSet configs config.name value)
    | (verdict, none) => (some verdict, configs)
  | none => (none, configSet configs config.name value)

/-! ## The config file -/

/-- The key and the value of a line. Blank lines and lines that start with a `#` have none. -/
def lineKeyValue (line : List UInt8) : Option (List UInt8 × List UInt8) :=
  let line := trim (cString line)
  if line = [] ∨ line.head? = some 35 then none
  else
    match token 61 line with
    | none => none
    | some (key, save) =>
      match token newline save with
      | none => none
      | some (value, _) => some (trim key, trim value)

/-- The settings that a config file makes, with the lines cut as the buffer cuts them. -/
def settings (contents : List UInt8) : List (List UInt8 × List UInt8) :=
  (lines 512 contents).filterMap lineKeyValue

/-- One setting of the file. The verdict of a handler replaces `success`. -/
def configReadSetting (state : Bool × List Config) (setting : List UInt8 × List UInt8) :
    Bool × List Config :=
  match state.2.find? (·.nameConfigFile = some setting.1) with
  | none => (false, state.2)
  | some config =>
    let handled := configHandle state.2 config setting.2
    (handled.1.getD state.1, handled.2)

/-- Reads the config file with the given contents, if it can be opened. -/
def configReadFile (configs : List Config) (file : Option (List UInt8)) : Bool × List Config :=
  match file with
  | none => (false, configs)
  | some contents => (settings contents).foldl configReadSetting (true, configs)

/-! ## The command line -/

/-- What a walk over the command line leaves: its verdict, the parameters, and the positions of
the arguments that were applied as switches. -/
structure CommandLine where
  accepted : Bool
  configs : List Config
  applied : List ℕ

/-- Walks over the arguments from position `i` on. -/
def configReadArguments (priority : Bool) (configs : List Config) (i : ℕ) :
    List (List UInt8) → CommandLine
  | [] => ⟨true, configs, []⟩
  | [_] => ⟨false, configs, []⟩
  | argument :: value :: rest =>
    if argument = ascii "--help" then ⟨false, configs, []⟩
    else
      match configs.find? (·.nameCommandLine = some argument) with
      | none => ⟨false, configs, []⟩
      | some config =>
        if priority = config.priority then
          let handled := configHandle configs config value
          if handled.1 = some false then ⟨false, handled.2, [i]⟩
          else
            let result := configReadArguments priority handled.2 (i + 2) rest
            { result with applied := i :: result.applied }
        else configReadArguments priority configs (i + 2) rest

def configReadCommandLine (priority : Bool) (configs : List Config) (argv : List (List UInt8)) :
    CommandLine :=
  configReadArguments priority configs 1 (argv.drop 1)

/-- The three phases. Which file is read may depend on what the first phase has set. -/
def configRead (configs : List Config) (argv : List (List UInt8))
    (file : List Config → Option (List UInt8)) : CommandLine :=
  let first := configReadCommandLine true configs argv
  if first.accepted then
    let read := configReadFile first.configs (file first.configs)
    if read.1 then
      let second := configReadCommandLine false read.2 argv
      { second with applied := first.applied ++ second.applied }
    else ⟨false, read.2, first.applied⟩
  else first

/-! ## The parameters of the program -/

def configSetDefaultInt (configs : List Config) (name : List UInt8)
    (nameCommandLine nameConfigFile : Option (List UInt8)) (valueDefault : ℤ)
    (func : Option ConfigFunc) : List Config :=
  configSetDefault configs name nameCommandLine nameConfigFile (some (sprintfD valueDefault)) func

def configSetDefaultBool (configs : List Config) (name : List UInt8)
    (nameCommandLine nameConfigFile : Option (List UInt8)) (valueDefault : Bool)
    (func : Option ConfigFunc) : List Config :=
  configSetDefault configs name nameCommandLine nameConfigFile
    (some (if valueDefault then ascii "true" else ascii "false")) func

/-- Sets up a new file system, after which the program is not to go on. -/
def configHandleCreate : ConfigFunc := fun _ _ => (false, none)

def configHandlePrintCreateSql : ConfigFunc := fun _ _ => (false, none)

def configHandleLogStdout : ConfigFunc := fun _ value =>
  (true, some (if value = ascii "true" then ascii "true" else ascii "false"))

def configHandleLogSyslog : ConfigFunc := fun _ value =>
  (true, some (if value = ascii "true" then ascii "true" else ascii "false"))

def configHandleReclaimerLevel : ConfigFunc := fun _ value =>
  let level := atoi value
  if level = 0 ∨ level = 1 ∨ level = 2 then (true, some (sprintfD level)) else (false, none)

/-- The table that `main` sets up, for a process of the given user and group. -/
def mainConfigs (user group : List UInt8) : List Config :=
  let c := configSetDefault [] (ascii "config_file") (some (ascii "--config-file")) none
    (some (ascii "/etc/myfs.d/myfs.conf")) none
  let c := configSetDefaultBool c (ascii "create") (some (ascii "--create")) none false
    (some configHandleCreate)
  let c := configSetDefaultInt c (ascii "failed_query_retry_wait")
    (some (ascii "--failed-query-retry-wait")) (some (ascii "failed_query_retry_wait")) (-1) none
  let c := configSetDefaultInt c (ascii "failed_query_retry_count")
    (some (ascii "--failed-query-retry-count")) (some (ascii "failed_query_retry_count")) (-1) none
  let c := configSetDefault c (ascii "group") (some (ascii "--group")) (some (ascii "group"))
    (some group) none
  let c := configSetDefaultBool c (ascii "log_stdout") (some (ascii "--log-stdout"))
    (some (ascii "log_stdout")) true (some configHandleLogStdout)
  let c := configSetDefaultBool c (ascii "log_syslog") (some (ascii "--log-syslog"))
    (some (ascii "log_syslog")) false (some configHandleLogSyslog)
  let c := configSetDefault c (ascii "mariadb_database") (some (ascii "--mariadb-database"))
    (some (ascii "mariadb_database")) (some (ascii "myfs")) none
  let c := configSetDefault c (ascii "mariadb_host") (some (ascii "--mariadb-host"))
    (some (ascii "mariadb_host")) (some (ascii "127.0.0.1")) none
  let c := configSetDefault c (ascii "mariadb_password") (some (ascii "--mariadb-password"))
    (some (ascii "mariadb_password")) none none
  let c := configSetDefault c (ascii "mariadb_port") (some (ascii "--mariadb-port"))
    (some (ascii "mariadb_port")) (some (ascii "3306")) none
  let c := configSetDefault c (ascii "mariadb_user") (some (ascii "--mariadb-user"))
    (some (ascii "mariadb_user")) (some (ascii "myfs")) none
  let c := configSetDefault c (ascii "mount") (some (ascii "--mount")) (some (ascii "mount"))
    (some (ascii "/mnt/myfs")) none
  let c := configSetDefaultBool c (ascii "print_create_sql") (some (ascii "--print-create-sql"))
    none false (some configHandlePrintCreateSql)
  let c := configSetDefaultInt c (ascii "reclaimer_level") (some (ascii "--reclaimer-level"))
    (some (ascii "reclaimer_level")) 1 (some configHandleReclaimerLevel)
  let c := configSetDefault c (ascii "user") (some (ascii "--user")) (some (ascii "user"))
    (some user) none
  let c := configSetPriority c (ascii "config_file")
  let c := configSetPriority c (ascii "create")
  configSetPriority c (ascii "print_create_sql")

/-! ## What a setting changes -/

/-- A parameter as it was registered, whatever its value is now. -/
def Config.declared (c : Config) : Config := { c with value := none }

variable {C T : List Config} {c p : Config} {n k v : List UInt8}

theorem configUpdate_declared {f : Config → Config} (hf : ∀ c, (f c).declared = c.declared) :
    ∀ C : List Config, (configUpdate f n C).map Config.declared = C.map Config.declared
  | [] => rfl
  | c :: C => by
    rw [configUpdate]
    split
    · rw [List.map_cons, List.map_cons, hf]
    · rw [List.map_cons, List.map_cons, configUpdate_declared hf C]

@[simp] theorem configSet_declared :
    (configSet C n v).map Config.declared = C.map Config.declared :=
  configUpdate_declared (f := fun c => { c with value := some v }) (fun _ => rfl) C

@[simp] theorem configHandle_declared :
    (configHandle C c v).2.map Config.declared = C.map Config.declared := by
  unfold configHandle
  split
  · split <;> simp
  · simp

@[simp] theorem configReadSetting_declared {state : Bool × List Config}
    {setting : List UInt8 × List UInt8} :
    (configReadSetting state setting).2.map Config.declared = state.2.map Config.declared := by
  unfold configReadSetting
  split <;> simp

theorem configGet_configSet_self (h : n ∈ C.map (·.name)) :
    configGet (configSet C n v) n = some v := by
  induction C with
  | nil => exact absurd h (List.not_mem_nil)
  | cons c C ih =>
    unfold configGet configFind configSet at ih ⊢
    by_cases hc : c.name = n
    · simp [configUpdate, hc]
    · rw [List.map_cons, List.mem_cons] at h
      rw [configUpdate, if_neg hc, List.find?_cons_of_neg (by simpa using hc)]
      exact ih (h.resolve_left (Ne.symm hc))

theorem configGet_configSet_of_ne (h : c.name ≠ n) :
    configGet (configSet C c.name v) n = configGet C n := by
  induction C with
  | nil => rfl
  | cons d C ih =>
    unfold configGet configFind configSet at ih ⊢
    rw [configUpdate]
    by_cases hd : d.name = c.name
    · have hn : ¬d.name = n := fun h' => h (hd.symm.trans h')
      rw [if_pos hd, List.find?_cons_of_neg (by simpa using hn),
        List.find?_cons_of_neg (by simpa using hn)]
    · rw [if_neg hd]
      by_cases hn : d.name = n
      · rw [List.find?_cons_of_pos (by simpa using hn), List.find?_cons_of_pos (by simpa using hn)]
      · rw [List.find?_cons_of_neg (by simpa using hn), List.find?_cons_of_neg (by simpa using hn)]
        exact ih

/-- A handler changes its own parameter only. -/
theorem configGet_configHandle_of_ne (h : c.name ≠ n) :
    configGet (configHandle C c v).2 n = configGet C n := by
  unfold configHandle
  split
  · split
    · exact configGet_configSet_of_ne h
    · rfl
  · exact configGet_configSet_of_ne h

theorem configGet_configHandle_self (hfunc : c.func = none) (h : c.name ∈ C.map (·.name)) :
    configGet (configHandle C c v).2 c.name = some v := by
  unfold configHandle
  rw [hfunc]
  exact configGet_configSet_self h

/-- No two parameters share what `f` gives them, a name, a switch or a key. -/
def Distinct (f : Config → Option (List UInt8)) (T : List Config) : Prop := (T.filterMap f).Nodup

theorem Distinct.eq {f : Config → Option (List UInt8)} (h : Distinct f T) {c d : Config}
    (hc : c ∈ T) (hd : d ∈ T) (hck : f c = some k) (hdk : f d = some k) : c = d := by
  have hpair : T.Pairwise fun a b => f a = some k → f b = some k → a = b :=
    (List.pairwise_filterMap.mp h).imp fun hab ha hb => absurd rfl (hab k ha k hb)
  have hflip : T.Pairwise fun a b => f b = some k → f a = some k → b = a :=
    hpair.imp fun hab hb ha => (hab ha hb).symm
  exact List.Pairwise.forall_of_forall_of_flip (fun _ _ _ _ => rfl) hpair hflip hc hd hck hdk

/-- The search for a key or a switch finds the parameter that was registered with it. -/
theorem find?_declared {f : Config → Option (List UInt8)} (hf : ∀ c : Config, f c.declared = f c)
    (hT : C.map Config.declared = T) : (C.find? (f · = some k)).map Config.declared =
      T.find? (f · = some k) := by
  rw [← hT, List.find?_map]
  simp only [Function.comp_def, hf]

theorem find?_eq_some {f : Config → Option (List UInt8)} (h : Distinct f T) (hp : p ∈ T)
    (hk : f p = some k) : T.find? (f · = some k) = some p := by
  cases hfind : T.find? (f · = some k) with
  | none => exact absurd hk (by simpa using List.find?_eq_none.mp hfind p hp)
  | some d =>
    have hd : f d = some k := by simpa using List.find?_some hfind
    rw [h.eq (List.mem_of_find?_eq_some hfind) hp hd hk]

/-- Keys and switches are distinct, so the search finds the only parameter that has it. -/
theorem eq_declared_of_find? {f : Config → Option (List UInt8)}
    (hf : ∀ c : Config, f c.declared = f c) (hT : C.map Config.declared = T)
    (hdist : Distinct f T) (hp : p ∈ T) (hfind : C.find? (f · = some k) = some c)
    (hk : f p = some k) : p = c.declared := by
  have hc : T.find? (f · = some k) = some c.declared := by
    rw [← find?_declared hf hT, hfind, Option.map_some]
  rw [find?_eq_some hdist hp hk] at hc
  exact Option.some.inj hc

/-- What giving a value to the parameter of a key or a switch does to a parameter without a
handler. -/
theorem configGet_configHandle {f : Config → Option (List UInt8)}
    (hf : ∀ c : Config, f c.declared = f c) (hT : C.map Config.declared = T)
    (hnames : Distinct (some ·.name) T) (hdist : Distinct f T) (hp : p ∈ T) (hfunc : p.func = none)
    (hfind : C.find? (f · = some k) = some c) :
    configGet (configHandle C c v).2 p.name =
      if f p = some k then some v else configGet C p.name := by
  split
  · next hk =>
    have heq := eq_declared_of_find? hf hT hdist hp hfind hk
    rw [heq]
    exact configGet_configHandle_self (by rw [heq] at hfunc; exact hfunc)
      (List.mem_map_of_mem (List.mem_of_find?_eq_some hfind))
  · next hk =>
    refine configGet_configHandle_of_ne fun hname => hk ?_
    have hmem : c.declared ∈ T := by
      rw [← hT]
      exact List.mem_map_of_mem (List.mem_of_find?_eq_some hfind)
    have heq : c.declared = p := hnames.eq hmem hp rfl (congrArg some hname.symm)
    rw [← heq, hf]
    simpa using List.find?_some hfind

/-! ## The last setting wins -/

/-- The value that the last setting of a key gives it. -/
def lastOf (key : Option (List UInt8)) :
    List (List UInt8 × List UInt8) → Option (List UInt8)
  | [] => none
  | (k, v) :: rest => (lastOf key rest).or (if key = some k then some v else none)

theorem lastOf_none : ∀ l, lastOf none l = none
  | [] => rfl
  | (k, v) :: rest => by rw [lastOf, lastOf_none rest, if_neg (by simp), Option.none_or]

theorem lastOf_append (key : Option (List UInt8)) : ∀ l m : List (List UInt8 × List UInt8),
    lastOf key (l ++ m) = (lastOf key m).or (lastOf key l)
  | [], m => (Option.or_none).symm
  | (k, v) :: l, m => by
    rw [List.cons_append, lastOf, lastOf, lastOf_append key l m, Option.or_assoc]

theorem configGet_configReadSetting {state : Bool × List Config}
    {setting : List UInt8 × List UInt8} (hT : state.2.map Config.declared = T)
    (hnames : Distinct (some ·.name) T) (hkeys : Distinct (·.nameConfigFile) T) (hp : p ∈ T)
    (hfunc : p.func = none) :
    configGet (configReadSetting state setting).2 p.name =
      if p.nameConfigFile = some setting.1 then some setting.2 else configGet state.2 p.name := by
  unfold configReadSetting
  split
  · next hfind =>
    -- an unknown key is no key of `p`
    have hnone : T.find? (·.nameConfigFile = some setting.1) = none := by
      rw [← find?_declared (f := (·.nameConfigFile)) (fun _ => rfl) hT, hfind, Option.map_none]
    have hne : ¬p.nameConfigFile = some setting.1 := by
      simpa using List.find?_eq_none.mp hnone p hp
    rw [if_neg hne]
  · next hfind =>
    exact configGet_configHandle (f := (·.nameConfigFile)) (fun _ => rfl) hT hnames hkeys hp hfunc
      hfind

theorem foldl_declared : ∀ (l : List (List UInt8 × List UInt8)) (state : Bool × List Config),
    (l.foldl configReadSetting state).2.map Config.declared = state.2.map Config.declared
  | [], _ => rfl
  | _ :: l, _ => (foldl_declared l _).trans configReadSetting_declared

theorem configGet_foldl (hnames : Distinct (some ·.name) T) (hkeys : Distinct (·.nameConfigFile) T)
    (hp : p ∈ T) (hfunc : p.func = none) (l : List (List UInt8 × List UInt8)) :
    ∀ state : Bool × List Config, state.2.map Config.declared = T →
      configGet (l.foldl configReadSetting state).2 p.name =
        (lastOf p.nameConfigFile l).or (configGet state.2 p.name) := by
  induction l with
  | nil => exact fun _ _ => rfl
  | cons setting l ih =>
    intro state hT
    rw [List.foldl_cons, ih _ (configReadSetting_declared.trans hT),
      configGet_configReadSetting hT hnames hkeys hp hfunc, lastOf, Option.or_assoc]
    split <;> simp

/-- After the config file a parameter without a handler has the value of its last line. -/
theorem configGet_configReadFile (hT : C.map Config.declared = T)
    (hnames : Distinct (some ·.name) T) (hkeys : Distinct (·.nameConfigFile) T) (hp : p ∈ T)
    (hfunc : p.func = none) (contents : List UInt8) :
    configGet (configReadFile C (some contents)).2 p.name =
      (lastOf p.nameConfigFile (settings contents)).or (configGet C p.name) :=
  configGet_foldl hnames hkeys hp hfunc _ _ hT

theorem configReadFile_declared (file : Option (List UInt8)) :
    (configReadFile C file).2.map Config.declared = C.map Config.declared := by
  cases file with
  | none => rfl
  | some contents => exact foldl_declared _ _

/-! ## The two walks over the command line -/

/-- The switches of the command line with their values, paired from the front. -/
def switches : List (List UInt8) → List (List UInt8 × List UInt8)
  | argument :: value :: rest => (argument, value) :: switches rest
  | _ => []

theorem configReadArguments_declared (priority : Bool) (C : List Config) (i : ℕ)
    (args : List (List UInt8)) :
    (configReadArguments priority C i args).configs.map Config.declared =
      C.map Config.declared := by
  fun_induction configReadArguments priority C i args with
  | case5 => exact configHandle_declared
  | case6 C i argument value rest _ config _ _ handled _ result ih =>
    exact ih.trans configHandle_declared
  | case7 C i argument value rest _ config _ _ ih => exact ih
  | _ => rfl

/-- A walk gives a parameter of its priority the value of its last switch, and leaves the others. -/
theorem configGet_configReadArguments (hnames : Distinct (some ·.name) T)
    (hswitches : Distinct (·.nameCommandLine) T) (hp : p ∈ T) (hfunc : p.func = none)
    (priority : Bool) (C : List Config) (i : ℕ) (args : List (List UInt8))
    (hT : C.map Config.declared = T)
    (haccepted : (configReadArguments priority C i args).accepted = true) :
    configGet (configReadArguments priority C i args).configs p.name =
      (if p.priority = priority then lastOf p.nameCommandLine (switches args) else none).or
        (configGet C p.name) := by
  fun_induction configReadArguments priority C i args with
  | case1 => simp [switches, lastOf]
  | case6 C i argument value rest _ config hfind hpri handled _ result ih =>
    show configGet result.configs p.name = _
    rw [ih (configHandle_declared.trans hT) haccepted,
      configGet_configHandle (f := (·.nameCommandLine)) (fun _ => rfl) hT hnames hswitches hp hfunc
        hfind, switches, lastOf]
    by_cases hp' : p.priority = priority
    · rw [if_pos hp', if_pos hp', Option.or_assoc]
      split <;> simp
    · -- the switch is of a parameter of the other priority
      rw [if_neg hp', if_neg hp', if_neg fun hk => hp' ?_]
      rw [eq_declared_of_find? (f := (·.nameCommandLine)) (fun _ => rfl) hT hswitches hp hfind hk]
      exact hpri.symm
  | case7 C i argument value rest _ config hfind hpri ih =>
    rw [ih hT haccepted, switches, lastOf]
    by_cases hp' : p.priority = priority
    · rw [if_pos hp', if_pos hp', if_neg, Option.or_none]
      intro hk
      apply hpri
      rw [← hp',
        eq_declared_of_find? (f := (·.nameCommandLine)) (fun _ => rfl) hT hswitches hp hfind hk]
      rfl
    · rw [if_neg hp', if_neg hp']
  | _ => exact absurd haccepted Bool.false_ne_true

/-- What an accepted walk does with a switch and its value, and with which table it goes on. -/
theorem configReadArguments_cons {priority : Bool} {i : ℕ} {argument value : List UInt8}
    {rest : List (List UInt8)}
    (h : (configReadArguments priority C i (argument :: value :: rest)).accepted = true) :
    ∃ config D, C.find? (·.nameCommandLine = some argument) = some config ∧
      D.map Config.declared = C.map Config.declared ∧
      (configReadArguments priority D (i + 2) rest).accepted = true ∧
      (configReadArguments priority C i (argument :: value :: rest)).applied =
        (if priority = config.priority then [i] else []) ++
          (configReadArguments priority D (i + 2) rest).applied := by
  rw [configReadArguments] at h ⊢
  split at h
  · exact absurd h Bool.false_ne_true
  · next hhelp =>
    rw [if_neg hhelp]
    cases hfind : C.find? (·.nameCommandLine = some argument) with
    | none => simp [hfind] at h
    | some config =>
      simp only [hfind] at h ⊢
      by_cases hpri : priority = config.priority
      · rw [if_pos hpri] at h ⊢
        split at h
        · exact absurd h Bool.false_ne_true
        · next hok =>
          rw [if_neg hok]
          exact ⟨config, _, rfl, configHandle_declared, h, by rw [if_pos hpri]; rfl⟩
      · rw [if_neg hpri] at h ⊢
        exact ⟨config, C, rfl, rfl, h, by rw [if_neg hpri]; rfl⟩

/-- Between them the two walks apply every argument in switch position once, and no other. -/
theorem count_applied (args : List (List UInt8)) : ∀ (C D : List Config) (i : ℕ),
    C.map Config.declared = D.map Config.declared →
    (configReadArguments true C i args).accepted = true →
    (configReadArguments false D i args).accepted = true → ∀ k,
    ((configReadArguments true C i args).applied ++
        (configReadArguments false D i args).applied).count k =
      if i ≤ k ∧ (k - i) % 2 = 0 ∧ k < i + args.length then 1 else 0 := by
  fun_induction switches args with
  | case1 argument value rest ih =>
    intro C D i hCD hC hD k
    obtain ⟨c, C', hc, hC', hC, happC⟩ := configReadArguments_cons hC
    obtain ⟨d, D', hd, hD', hD, happD⟩ := configReadArguments_cons hD
    -- both walks find the same parameter, and it has one priority
    have hcd : c.declared = d.declared := by
      have h1 := find?_declared (f := (·.nameCommandLine)) (k := argument) (fun _ => rfl) hCD
      have h2 := find?_declared (f := (·.nameCommandLine)) (k := argument) (fun _ => rfl)
        (rfl : D.map Config.declared = _)
      rw [hc] at h1
      rw [hd, ← h1] at h2
      exact (Option.some.inj h2).symm
    have hpri : c.priority = d.priority := by
      show c.declared.priority = d.declared.priority
      rw [hcd]
    have hrest := ih C' D' (i + 2) (hC'.trans (hCD.trans hD'.symm)) hC hD k
    rw [happC, happD, hpri]
    simp only [List.count_append, List.length_cons] at hrest ⊢
    have hone : (if true = d.priority then [i] else []).count k +
        (if false = d.priority then [i] else []).count k = if i = k then 1 else 0 := by
      cases d.priority <;> simp [List.count_singleton]
    calc _ = (if i = k then 1 else 0) +
            (if i + 2 ≤ k ∧ (k - (i + 2)) % 2 = 0 ∧ k < i + 2 + rest.length then 1 else 0) := by
          rw [← hrest, ← hone]
          omega
      _ = _ := by split_ifs <;> omega
  | case2 args hargs =>
    intro C D i _ hC _ k
    match args, hargs with
    | [], _ =>
      rw [if_neg (by rw [List.length_nil]; omega)]
      rfl
    | [argument], _ => exact absurd hC Bool.false_ne_true
    | argument :: value :: rest, hargs => exact absurd rfl (hargs argument value rest)

/-! ## Precedence -/

/-- A table before anything is read: parameters with names, switches and keys of their own, those
with priority without a key, each with its default. -/
structure Registered (configs : List Config) : Prop where
  names : Distinct (some ·.name) configs
  switches : Distinct (·.nameCommandLine) configs
  keys : Distinct (·.nameConfigFile) configs
  priority : ∀ c ∈ configs, c.priority = true → c.nameConfigFile = none
  values : ∀ c ∈ configs, c.value = c.valueDefault

theorem registered_mainConfigs (user group : List UInt8) : Registered (mainConfigs user group) where
  names := by
    show ((mainConfigs [] []).filterMap (some ·.name)).Nodup
    decide
  switches := by
    show ((mainConfigs [] []).filterMap (·.nameCommandLine)).Nodup
    decide
  keys := by
    show ((mainConfigs [] []).filterMap (·.nameConfigFile)).Nodup
    decide
  priority := by
    have h : (mainConfigs user group).all fun c => !c.priority || c.nameConfigFile.isNone := rfl
    intro c hc hp
    simpa [hp] using List.all_eq_true.mp h c hc
  values := List.map_inj_left.mp rfl

/-- What a parameter is to have in the end: its last switch, else its last line, else the
default. -/
def chosen (argv : List (List UInt8)) (contents : List UInt8) (c : Config) : Option (List UInt8) :=
  ((lastOf c.nameCommandLine (switches (argv.drop 1))).or
    (lastOf c.nameConfigFile (settings contents))).or c.valueDefault

/-- The precedence of switch, line and default. Switches are the arguments in odd positions, and
each is applied once. -/
structure Precedence (configs : List Config) (argv : List (List UInt8)) (contents : List UInt8)
    (result : CommandLine) : Prop where
  values : ∀ c ∈ configs, c.func = none →
    configGet result.configs c.name = chosen argv contents c
  applied : ∀ i, result.applied.count i = if i % 2 = 1 ∧ i < argv.length then 1 else 0

theorem distinct_declared {f : Config → Option (List UInt8)} (hf : ∀ c : Config, f c.declared = f c)
    (h : Distinct f C) : Distinct f (C.map Config.declared) := by
  unfold Distinct at h ⊢
  rw [List.filterMap_map]
  simpa only [Function.comp_def, hf] using h

theorem configGet_of_mem (hnames : Distinct (some ·.name) C) (hc : c ∈ C) :
    configGet C c.name = c.value := by
  have hfind : C.find? (fun d => some d.name = some c.name) = some c := find?_eq_some hnames hc rfl
  unfold configGet configFind
  simp only [Option.some.injEq] at hfind
  rw [hfind, Option.bind_some]

theorem chosen_of_phases {configs : List Config} {argv : List (List UInt8)} {contents : List UInt8}
    {read : Bool × List Config} (hreg : Registered configs)
    (hread : configReadFile (configReadCommandLine true configs argv).configs (some contents) = read)
    (hfirst : (configReadCommandLine true configs argv).accepted = true)
    (hsecond : (configReadCommandLine false read.2 argv).accepted = true) (hc : c ∈ configs)
    (hfunc : c.func = none) :
    configGet (configReadCommandLine false read.2 argv).configs c.name =
      chosen argv contents c := by
  have hnames := distinct_declared (fun _ => rfl) hreg.names
  have hswitches := distinct_declared (fun _ => rfl) hreg.switches
  have hkeys := distinct_declared (fun _ => rfl) hreg.keys
  have hp : c.declared ∈ configs.map Config.declared := List.mem_map_of_mem hc
  have hT1 : (configReadCommandLine true configs argv).configs.map Config.declared =
      configs.map Config.declared := configReadArguments_declared _ _ _ _
  have hT2 : read.2.map Config.declared = configs.map Config.declared := by
    rw [← hread, configReadFile_declared, hT1]
  -- the phases from the last to the first, each over what the one before it left
  have h3 := configGet_configReadArguments hnames hswitches hp hfunc false read.2 1 (argv.drop 1)
    hT2 hsecond
  have h2 := configGet_configReadFile hT1 hnames hkeys hp hfunc contents
  have h1 := configGet_configReadArguments hnames hswitches hp hfunc true configs 1 (argv.drop 1)
    rfl hfirst
  have h0 : configGet configs c.name = c.valueDefault :=
    (configGet_of_mem hreg.names hc).trans (hreg.values c hc)
  rw [hread] at h2
  change configGet (configReadCommandLine false read.2 argv).configs c.name =
    (if c.priority = false then _ else none).or (configGet read.2 c.name) at h3
  change configGet read.2 c.name = (lastOf c.nameConfigFile _).or
    (configGet (configReadCommandLine true configs argv).configs c.name) at h2
  change configGet (configReadCommandLine true configs argv).configs c.name =
    (if c.priority = true then _ else none).or (configGet configs c.name) at h1
  rw [h3, h2, h1, h0, chosen]
  cases hpri : c.priority with
  | true => simp [hreg.priority c hc hpri, lastOf_none, Config.declared]
  | false => simp [Config.declared, Option.or_assoc]

/-- Whatever the table, the arguments and the file, if the three phases succeed every parameter
ends with the value that has precedence, and every switch has been applied once. -/
theorem precedence_of_read {configs : List Config} {argv : List (List UInt8)}
    {file : List Config → Option (List UInt8)} (hreg : Registered configs)
    (hread : (configRead configs argv file).accepted = true) :
    ∃ contents, file (configReadCommandLine true configs argv).configs = some contents ∧
      Precedence configs argv contents (configRead configs argv file) := by
  unfold configRead at hread ⊢
  dsimp only at hread ⊢
  by_cases hfirst : (configReadCommandLine true configs argv).accepted = true
  · rw [if_pos hfirst] at hread ⊢
    cases hcontents : file (configReadCommandLine true configs argv).configs with
    | none =>
      rw [hcontents] at hread
      exact absurd hread Bool.false_ne_true
    | some contents =>
      rw [hcontents] at hread
      by_cases hfile : (configReadFile (configReadCommandLine true configs argv).configs
          (some contents)).1 = true
      · rw [if_pos hfile] at hread ⊢
        refine ⟨contents, rfl, fun c hc hfunc => ?_, fun i => ?_⟩
        · exact chosen_of_phases hreg rfl hfirst hread hc hfunc
        · have hT : configs.map Config.declared = (configReadFile
              (configReadCommandLine true configs argv).configs
                (some contents)).2.map Config.declared :=
            ((configReadFile_declared _).trans (configReadArguments_declared _ _ _ _)).symm
          refine (count_applied (argv.drop 1) _ _ 1 hT hfirst hread i).trans ?_
          rw [List.length_drop]
          split_ifs <;> omega
      · rw [if_neg hfile] at hread
        exact absurd hread Bool.false_ne_true
  · rw [if_neg hfirst] at hread
    exact absurd hread hfirst

/-- `--help` as a value is no switch, and the switch wins over the file. -/
theorem precedence_of_read_mount :
    ∃ contents, some (ascii "mount = /a\n") = some contents ∧
      Precedence (mainConfigs (ascii "root") (ascii "root"))
        [ascii "myfs", ascii "--mount", ascii "--help"] contents
        (configRead (mainConfigs (ascii "root") (ascii "root"))
          [ascii "myfs", ascii "--mount", ascii "--help"] fun _ => some (ascii "mount = /a\n")) :=
  have h : (configRead (mainConfigs (ascii "root") (ascii "root"))
      [ascii "myfs", ascii "--mount", ascii "--help"]
        fun _ => some (ascii "mount = /a\n")).accepted = true := by decide
  precedence_of_read (registered_mainConfigs _ _) h

end MyFS
