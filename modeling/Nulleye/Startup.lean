import Nulleye.ConfigAssignments
import Nulleye.LogLines

/-!
The start of the program: from the command line to the database. A command line is
the words of exactly one list of options, and what it asks for is read off these. The
log is opened before the configuration is read and `--diag` never reads it, so that
neither the `log_file` of a configuration nor what `--diag` prints of one has any effect.
-/
namespace Nulleye.Startup
open Nulleye.CStrings Nulleye.Decimals Nulleye.Lines Nulleye.ConfigFiles Nulleye.ConfigAssignments
open Nulleye.LogLines (Level)

/-! ### The command line -/

/-- `config_path`, `run_tui` and `want_diag`. -/
structure Options where
  configPath : Mem
  runTui : Bool
  wantDiag : Bool
  deriving DecidableEq

def Options.initial : Options := ⟨ascii "/etc/nulleye/config.yaml",true,false⟩

/-- How the loop over the words ends. -/
inductive Parsed where
  | help
  | version
  | ended (o : Options)
  deriving DecidableEq

def isDaemon (word : Mem) : Bool := word = ascii "-d" ∨ word = ascii "--daemon"

def isConfig (word : Mem) : Bool := word = ascii "-c" ∨ word = ascii "--config"

/-- The loop over `argv[1]`, `argv[2]` and so on. -/
def parse : List Mem → Options → Parsed
  | [],o => .ended o
  | word :: rest,o =>
    if isDaemon word then parse rest { o with runTui := false }
    else if isConfig word ∧ rest ≠ [] then parse rest.tail { o with configPath := rest.headD [] }
    else if word = ascii "--help" then .help
    else if word = ascii "--version" then .version
    else if word = ascii "--diag" then parse rest { o with wantDiag := true }
    else parse rest o
termination_by words => words.length
decreasing_by all_goals (simp only [List.length_cons,List.length_tail]; omega)

/-- An option as it stands in the command line. -/
inductive Flag where
  | daemon (long : Bool)
  | config (long : Bool) (path : Mem)
  | help
  | version
  | diag
  | other (word : Mem)
  deriving DecidableEq

def Flag.words : Flag → List Mem
  | .daemon long => [if long then ascii "--daemon" else ascii "-d"]
  | .config long path => [if long then ascii "--config" else ascii "-c",path]
  | .help => [ascii "--help"]
  | .version => [ascii "--version"]
  | .diag => [ascii "--diag"]
  | .other word => [word]

def Flag.path : Flag → Option Mem
  | .config _ path => some path
  | _ => none

def Flag.isDaemon : Flag → Bool
  | .daemon _ => true
  | _ => false

/-- The options that are words of their own. -/
def single : List Mem := [ascii "-d",ascii "--daemon",ascii "--help",ascii "--version",ascii "--diag"]

/-- No other word is an option; `-c` and `--config` are other words where nothing follows them. -/
def WellFormed : List Flag → Prop
  | [] => True
  | .other word :: rest => word ∉ single ∧ (isConfig word = true → rest = []) ∧ WellFormed rest
  | _ :: rest => WellFormed rest

/-- What some options change. -/
def Options.after (o : Options) (flags : List Flag) : Options :=
  ⟨((flags.filterMap Flag.path).getLast?).getD o.configPath,o.runTui && !flags.any Flag.isDaemon,o.wantDiag || decide (.diag ∈ flags)⟩

/-- What a list of options asks for: what `--help` or `--version` asks for, whichever is first, or else a run with the
    last path. -/
def meaning (o : Options) (flags : List Flag) : Parsed :=
  match flags.find? fun flag => flag = .help ∨ flag = .version with
  | some .help => .help
  | some _ => .version
  | none => .ended (o.after flags)

/-- The options of a command line. -/
def flagsOf : List Mem → List Flag
  | [] => []
  | word :: rest =>
    if isDaemon word then .daemon (word = ascii "--daemon") :: flagsOf rest
    else if isConfig word ∧ rest ≠ [] then .config (word = ascii "--config") (rest.headD []) :: flagsOf rest.tail
    else if word = ascii "--help" then .help :: flagsOf rest
    else if word = ascii "--version" then .version :: flagsOf rest
    else if word = ascii "--diag" then .diag :: flagsOf rest
    else .other word :: flagsOf rest
termination_by words => words.length
decreasing_by all_goals (simp only [List.length_cons,List.length_tail]; omega)

/-- The words of the options are different. -/
@[local simp]
theorem isDaemon_words : isDaemon (ascii "-d") = true ∧ isDaemon (ascii "--daemon") = true ∧ isDaemon (ascii "-c") = false ∧
    isDaemon (ascii "--config") = false ∧ isDaemon (ascii "--help") = false ∧ isDaemon (ascii "--version") = false ∧
    isDaemon (ascii "--diag") = false := by decide

@[local simp]
theorem isConfig_words : isConfig (ascii "-c") = true ∧ isConfig (ascii "--config") = true ∧ isConfig (ascii "--help") = false ∧
    isConfig (ascii "--version") = false ∧ isConfig (ascii "--diag") = false := by decide

@[local simp]
theorem words_differ : ascii "-d" ≠ ascii "--daemon" ∧ ascii "-c" ≠ ascii "--config" ∧ ascii "--version" ≠ ascii "--help" ∧
    ascii "--diag" ≠ ascii "--help" ∧ ascii "--diag" ≠ ascii "--version" := by decide

theorem isDaemon_iff {word : Mem} : isDaemon word = true ↔ word = ascii "-d" ∨ word = ascii "--daemon" := by
  simp [isDaemon]

theorem isConfig_iff {word : Mem} : isConfig word = true ↔ word = ascii "-c" ∨ word = ascii "--config" := by
  simp [isConfig]

/-- The options are the words. -/
theorem flagsOf_words (words : List Mem) : (flagsOf words).flatMap Flag.words = words := by
  fun_induction flagsOf words with
  | case1 => rfl
  | case2 word rest daemon ih =>
    rcases isDaemon_iff.mp daemon with rfl | rfl <;> simpa [Flag.words] using ih
  | case3 word rest _ config ih =>
    obtain ⟨config,more⟩ := config
    obtain ⟨path,rest,rfl⟩ := List.exists_cons_of_ne_nil more
    rcases isConfig_iff.mp config with rfl | rfl <;> simpa [Flag.words] using ih
  | _ => simp_all [Flag.words]

theorem flagsOf_wellFormed (words : List Mem) : WellFormed (flagsOf words) := by
  fun_induction flagsOf words with
  | case1 => trivial
  | case7 word rest not_daemon not_config not_help not_version not_diag ih =>
    rw [isDaemon_iff] at not_daemon
    refine ⟨by simp_all [single],?_,ih⟩
    intro config
    obtain rfl : rest = [] := by simpa [config] using not_config
    simp [flagsOf]
  | _ => simpa only [WellFormed]

/-- No other well formed list of options has these words. -/
theorem flagsOf_flatMap {flags : List Flag} (formed : WellFormed flags) : flagsOf (flags.flatMap Flag.words) = flags := by
  induction flags with
  | nil => simp [flagsOf]
  | cons flag flags ih =>
    cases flag with
    | daemon long => cases long <;> simpa [Flag.words,flagsOf] using ih formed
    | config long path => cases long <;> simpa [Flag.words,flagsOf] using ih formed
    | help => simpa [Flag.words,flagsOf] using ih formed
    | version => simpa [Flag.words,flagsOf] using ih formed
    | diag => simpa [Flag.words,flagsOf] using ih formed
    | other word =>
      obtain ⟨unlike,last,formed⟩ := formed
      simp only [single,List.mem_cons,List.not_mem_nil,or_false,not_or] at unlike
      have not_daemon : isDaemon word = false := by simp [isDaemon,unlike]
      have not_config : ¬(isConfig word = true ∧ flags.flatMap Flag.words ≠ []) := by
        rintro ⟨config,more⟩
        simp [last config] at more
      rw [List.flatMap_cons,Flag.words,List.singleton_append,flagsOf,if_neg not_config,ih formed]
      simp [not_daemon,unlike]

theorem after_cons (o : Options) (flag : Flag) (flags : List Flag) : o.after (flag :: flags) = (o.after [flag]).after flags := by
  cases flag <;> simp [Options.after,Flag.path,Flag.isDaemon,List.getLast?_cons]

/-- An option that does not end the program changes what the others are read with. -/
theorem meaning_cons (o : Options) {flag : Flag} (flags : List Flag) (goes_on : flag ≠ .help ∧ flag ≠ .version) :
    meaning o (flag :: flags) = meaning (o.after [flag]) flags := by
  rw [meaning,List.find?_cons_of_neg (by simpa using goes_on),after_cons]
  rfl

/-- The loop reads the options. -/
theorem parse_flagsOf (words : List Mem) (o : Options) : parse words o = meaning o (flagsOf words) := by
  fun_induction parse words o with
  | case1 o => simp [flagsOf,meaning,Options.after]
  | case2 word rest o daemon ih =>
    rw [flagsOf,if_pos daemon,meaning_cons _ _ (by simp),ih]
    simp [Options.after,Flag.path,Flag.isDaemon]
  | case3 word rest o not_daemon config ih =>
    rw [flagsOf,if_neg not_daemon,if_pos config,meaning_cons _ _ (by simp),ih]
    simp [Options.after,Flag.path,Flag.isDaemon]
  | case4 rest o => simp [flagsOf,meaning]
  | case5 rest o => simp [flagsOf,meaning]
  | case6 rest o _ _ _ _ ih =>
    rw [ih]
    simp [flagsOf,meaning_cons,Options.after,Flag.path,Flag.isDaemon]
  | case7 word rest o not_daemon not_config not_help not_version not_diag ih =>
    rw [flagsOf,if_neg not_daemon,if_neg not_config,if_neg not_help,if_neg not_version,if_neg not_diag,meaning_cons _ _ (by simp),ih]
    simp [Options.after,Flag.path,Flag.isDaemon]

/-- Every command line is the words of exactly one well formed list of options, and is read as these. -/
theorem command_line (words : List Mem) : ∃ flags,WellFormed flags ∧ flags.flatMap Flag.words = words ∧
    (∀ other,WellFormed other → other.flatMap Flag.words = words → other = flags) ∧
    parse words .initial = meaning .initial flags := by
  refine ⟨flagsOf words,flagsOf_wellFormed words,flagsOf_words words,?_,parse_flagsOf words .initial⟩
  rintro other formed rfl
  exact (flagsOf_flatMap formed).symm

/-! ### Up to the database -/

/-- `NYE_NO_LIBYAML`, `HAVE_NCURSES` and what `ebpf_compiled` returns. -/
structure Build where
  noLibyaml : Bool
  haveNcurses : Bool
  ebpfCompiled : Bool

/-- What happens outside: whether the log can be opened, the configuration file at each path, and whether the first and
    the second `db_init` return 0. -/
structure Env where
  logOpens : Bool
  config : Mem → Option Mem
  first : Bool
  second : Bool

/-- What the program does, with paths and messages. -/
inductive Act where
  | stdout (text : Mem)
  | stderr (text : Mem)
  | openLog (path : Mem)
  | log (level : Level) (message : Mem)
  | readConfig (path : Mem)
  | dbInit (path : Mem)
  deriving DecidableEq

/-- How it goes on. -/
inductive Next where
  | returned (status : Int)
  | running (runTui : Bool) (s : Settings)
  deriving DecidableEq

/-- `NYE_VERSION`. -/
def nyeVersion : Mem := ascii "0.1.0"

/-- A line with a newline. -/
def line (text : Mem) : Mem := text ++ [10]

/-- A dash in UTF-8, with its spaces. -/
def dash : Mem := [32,0xe2,0x80,0x94,32]

/-- What `--help` prints. -/
def usage (program : Mem) : Mem :=
  line (ascii "NullEye - usage: " ++ program ++ ascii " [options]") ++
  line (ascii "  -d, --daemon         run as daemon") ++
  line (ascii "  -c, --config <path>  configuration file (default: /etc/nulleye/config.yaml)") ++
  line (ascii "  --version            print build version and exit") ++
  line (ascii "  --diag               print runtime diagnostics and exit")

/-- `print_diag`, with the settings and the pending events as they are. -/
def printDiag (build : Build) (configPath : Mem) (s : Settings) (pending : Nat) : Option Mem := do
  let database ← cstr (configGetDatabase s)
  return line (ascii "NullEye diagnostics") ++
    line (ascii "  version: " ++ nyeVersion) ++
    line (ascii "  config: " ++ configPath) ++
    line (ascii "  database: " ++ database) ++
    line (ascii "  event-bus ringbuf size (config): " ++ decimal (configGetEbpfRingbufSize s).toInt) ++
    line (ascii "  event-bus pending: " ++ decimal pending) ++
    line (ascii "  compiled features:") ++
    line (ascii "    - YAML config: " ++ if build.noLibyaml then ascii "disabled (libyaml missing)" else ascii "enabled") ++
    line (ascii "    - ncurses TUI: " ++ if build.haveNcurses then ascii "enabled" else ascii "disabled (stdout fallback)") ++
    line (ascii "    - eBPF compiled-in: " ++ if build.ebpfCompiled then ascii "yes" else ascii "no") ++
    line (ascii "  built-in modules: AIEngine, FileIntegrity, ProcessMonitor, NetworkMonitor, UserMonitor")

/-- `db_init` and the fallback to `:memory:`. -/
def openDatabase (env : Env) (path : Mem) : List Act × Bool :=
  if env.first then ([.dbInit path],true)
  else
    let failed := [.dbInit path,
      .log .warn (ascii "Database init failed (" ++ path ++ ascii ")" ++ dash ++ ascii "falling back to in-memory DB"),
      .dbInit (ascii ":memory:")]
    if env.second then (failed,true)
    else (failed ++ [.log .err (ascii "In-memory database initialization failed")],false)

/-- `logger_init(NULL)`. -/
def openLogger (env : Env) (path : Mem) : List Act :=
  if env.logOpens then [.openLog path]
  else [.openLog path,.stderr (line (ascii "logger_init failed; continuing without file logger"))]

/-- `config_load`, which returned `loaded`. -/
def readConfig (path : Mem) (loaded : Int) : List Act :=
  if loaded = 0 then [.readConfig path]
  else [.readConfig path,
    .log .warn (ascii "Config '" ++ path ++ ascii "' not found or unreadable" ++ dash ++ ascii "using defaults")]

/-- `main` from the handlers of the signals to the database. -/
def start (env : Env) (o : Options) : Option (List Act × Next) := do
  let logger := openLogger env (← cstr (configGetLogFile .initial))
  let (s,loaded) ← configLoad (env.config o.configPath) .initial
  let (database,opened) := openDatabase env (← cstr (configGetDatabase s))
  return (logger ++ .log .info (ascii "Starting NullEye") :: (readConfig o.configPath loaded ++ database),
    if opened then .running o.runTui s else .returned 1)

/-- `main` up to the database. -/
def main (build : Build) (env : Env) (argv : List Mem) : Option (List Act × Next) :=
  match parse argv.tail .initial with
  | .help => some ([.stdout (usage (argv.headD []))],.returned 0)
  | .version => some ([.stdout (line (ascii "NullEye " ++ nyeVersion))],.returned 0)
  | .ended o =>
    if o.wantDiag then do return ([.stdout (← printDiag build o.configPath .initial 0)],.returned 0) else start env o

/-! ### What a start uses -/

/-- The acts that use a file. -/
def Act.isFile : Act → Bool
  | .openLog _ | .readConfig _ | .dbInit _ => true
  | _ => false

/-- The database that a configuration file asks for. -/
def databaseOf (config : Option Mem) : Mem :=
  ((config.map fun file => assignments (pieces 1023 file)).bind (latest .database)).elim (ascii "/var/lib/nulleye/nulleye.db")
    (List.take 255)

/-- The values that are assigned are strings. -/
theorem assignOf_plain {piece : Mem} {k : Key} {val : Mem} (made : assignOf piece = some (k,val)) : 0 ∉ val := by
  rw [assignOf] at made
  split_ifs at made
  obtain ⟨⟨key,val'⟩,scanned,made⟩ := Option.bind_eq_some_iff.mp made
  obtain ⟨k',_,made⟩ := Option.map_eq_some_iff.mp made
  cases made
  exact zero_not_mem_pairOf (plain_dropWhile (zero_not_mem_text piece) isBlank) scanned

theorem latest_mem {k : Key} {made : List (Key × Mem)} {val : Mem} (last : latest k made = some val) : (k,val) ∈ made := by
  obtain ⟨⟨k',val'⟩,found,rfl⟩ := Option.map_eq_some_iff.mp last
  obtain ⟨member,same⟩ := List.mem_filter.mp (List.mem_of_getLast? found)
  obtain rfl : k' = k := by simpa using same
  exact member

theorem cstr_initial : cstr (configGetDatabase .initial) = some (ascii "/var/lib/nulleye/nulleye.db") ∧
    cstr (configGetLogFile .initial) = some (ascii "/var/log/nulleye/nulleye.log") := by
  constructor <;> decide +kernel

/-- After `config_load` the database is the one that the file asks for. -/
theorem configLoad_database (config : Option Mem) : ∃ s loaded,configLoad config .initial = some (s,loaded) ∧
    cstr (configGetDatabase s) = some (databaseOf config) := by
  cases config with
  | none => exact ⟨.initial,-1,rfl,cstr_initial.1⟩
  | some file =>
    refine ⟨_,0,configLoad_eq file .initial,?_⟩
    generalize made_eq : assignments (pieces 1023 file) = made
    have same : Agree .database (Settings.initial.assignAll made) _ := last_wins .database made .initial
    have buffer : configGetDatabase (Settings.initial.assignAll made) = _ := congrArg (fun v => Vector.toList v ++ [0]) same
    rw [buffer]
    simp only [databaseOf,Option.map_some,Option.bind_some,made_eq]
    cases last : latest .database made with
    | none => exact cstr_initial.1
    | some val =>
      have member := latest_mem last
      rw [← made_eq] at member
      obtain ⟨piece,_,assigned⟩ := List.mem_filterMap.mp member
      exact cstr_held (assignOf_plain assigned) 255

theorem openDatabase_files (env : Env) (path : Mem) :
    (openDatabase env path).1.filter Act.isFile = .dbInit path :: (if env.first then [] else [.dbInit (ascii ":memory:")]) ∧
      (openDatabase env path).2 = (env.first || env.second) := by
  rw [openDatabase]
  cases env.first <;> cases env.second <;> simp [List.filter,Act.isFile]

/-- A start opens the built-in log, reads the configuration that it was told to read, and opens the database of that. -/
theorem start_files (env : Env) (o : Options) : ∃ acts s loaded,configLoad (env.config o.configPath) .initial = some (s,loaded) ∧
    start env o = some (acts,if env.first || env.second then .running o.runTui s else .returned 1) ∧
    acts.filter Act.isFile = [.openLog (ascii "/var/log/nulleye/nulleye.log"),.readConfig o.configPath,
      .dbInit (databaseOf (env.config o.configPath))] ++ (if env.first then [] else [.dbInit (ascii ":memory:")]) := by
  obtain ⟨s,loaded,load,database⟩ := configLoad_database (env.config o.configPath)
  obtain ⟨files,opened⟩ := openDatabase_files env (databaseOf (env.config o.configPath))
  have log_files : ∀ path,(openLogger env path).filter Act.isFile = [.openLog path] := by
    intro path
    cases opens : env.logOpens <;> simp [openLogger,opens,List.filter,Act.isFile]
  have config_files : ∀ path,(readConfig path loaded).filter Act.isFile = [.readConfig path] := by
    intro path
    by_cases read : loaded = 0 <;> simp [readConfig,read,List.filter,Act.isFile]
  refine ⟨openLogger env (ascii "/var/log/nulleye/nulleye.log") ++ .log .info (ascii "Starting NullEye") ::
    (readConfig o.configPath loaded ++ (openDatabase env (databaseOf (env.config o.configPath))).1),s,loaded,load,?_,?_⟩
  · simp only [start,cstr_initial.2,Option.bind_eq_bind,Option.bind_some,load,database,opened,Option.pure_def]
  · rw [List.filter_append,List.filter_cons_of_neg (by simp [Act.isFile]),List.filter_append,log_files,config_files,files]
    rfl

/-- What `--diag` prints holds the built-in settings. -/
theorem printDiag_initial (build : Build) (path : Mem) : ∃ text,printDiag build path .initial 0 = some text ∧
    line (ascii "  database: /var/lib/nulleye/nulleye.db") ++ line (ascii "  event-bus ringbuf size (config): 4096") <:+: text := by
  have database : line (ascii "  database: " ++ ascii "/var/lib/nulleye/nulleye.db") =
      line (ascii "  database: /var/lib/nulleye/nulleye.db") := by decide +kernel
  have size : line (ascii "  event-bus ringbuf size (config): " ++ decimal (configGetEbpfRingbufSize .initial).toInt) =
      line (ascii "  event-bus ringbuf size (config): 4096") := by decide +kernel
  have shape : ∀ a b c d e rest : Mem,d ++ e <:+: a ++ (b ++ (c ++ (d ++ (e ++ rest)))) := fun a b c d e rest =>
    ⟨a ++ (b ++ c),rest,by simp only [List.append_assoc]⟩
  rw [printDiag,cstr_initial.1]
  refine ⟨_,rfl,?_⟩
  rw [database,size]
  simp only [List.append_assoc]
  exact shape _ _ _ _ _ _

/-- **What the program does up to the database.** Whatever the command line, the configuration files and the failures are:
    the log is the built-in one, the database is the one that the configuration asks for last, and `--diag` knows of no
    configuration. -/
theorem main_start (build : Build) (env : Env) (argv : List Mem) : ∃ acts next,main build env argv = some (acts,next) ∧
    match meaning .initial (flagsOf argv.tail) with
    | .help => acts = [.stdout (usage (argv.headD []))] ∧ next = .returned 0
    | .version => acts = [.stdout (line (ascii "NullEye 0.1.0"))] ∧ next = .returned 0
    | .ended o =>
      if o.wantDiag then
        ∃ text,acts = [.stdout text] ∧ next = .returned 0 ∧ printDiag build o.configPath .initial 0 = some text ∧
          line (ascii "  database: /var/lib/nulleye/nulleye.db") ++ line (ascii "  event-bus ringbuf size (config): 4096") <:+: text
      else
        acts.filter Act.isFile = [.openLog (ascii "/var/log/nulleye/nulleye.log"),.readConfig o.configPath,
          .dbInit (databaseOf (env.config o.configPath))] ++ (if env.first then [] else [.dbInit (ascii ":memory:")]) ∧
        ∃ s loaded,configLoad (env.config o.configPath) .initial = some (s,loaded) ∧
          next = if env.first || env.second then .running o.runTui s else .returned 1 := by
  rw [main,parse_flagsOf]
  cases meaning .initial (flagsOf argv.tail) with
  | help => exact ⟨_,_,rfl,rfl,rfl⟩
  | version => exact ⟨_,_,rfl,by decide +kernel,rfl⟩
  | ended o =>
    by_cases diag : o.wantDiag = true
    · obtain ⟨text,printed,shown⟩ := printDiag_initial build o.configPath
      simp [diag,printed,shown]
    · obtain ⟨acts,s,loaded,load,started,files⟩ := start_files env o
      simp only [diag,Bool.false_eq_true,if_false]
      exact ⟨acts,_,started,files,s,loaded,load,rfl⟩

end Nulleye.Startup
