import Nulleye.DbFallbacks
import Nulleye.EbpfBalance
import Nulleye.EventBus
import Nulleye.LogRings
import Nulleye.MetricsServer
import Nulleye.ModuleLifecycles
import Nulleye.Sandbox

/-!
Runs of the whole program. `main` starts one part after another, waits for the end of the
interface or for a signal, and stops the parts in its order, while the threads that run use
the database, the bus and the log at any time. A call of one of their functions is one step,
also where it makes several calls of SQLite on a statement that other threads use, and so is
a join, which comes after the last step of the thread. A run begins behind the options, with
the handlers of the signals set: none prints the help, the version or the diagnostics.
-/
namespace Nulleye.MainRuns
open Nulleye.Ledgers Nulleye.Runs Nulleye.Events Nulleye.EventBus Nulleye.DbHandles Nulleye.DbFallbacks Nulleye.EbpfLoader
open Nulleye.EbpfBalance Nulleye.LogRings Nulleye.ModuleLifecycles

/-- How the program was compiled, and what its arguments made of `run_tui`. -/
structure Build where
  ncurses : Bool
  libbpf : Bool
  runTui : Bool

/-- The call that `main` comes to next. -/
inductive Pc where
  /-- The first `db_init`. -/
  | opens
  /-- `db_init(":memory:")`. -/
  | reopens
  | allocates
  | registers
  | loads
  | attaches
  | serves
  /-- `module_start_workers`, with the modules that are left. -/
  | starts (rest : List Registration)
  | limits
  /-- `tui_run` up to its thread, or the loop of the daemon. -/
  | interface
  | loops
  | stopsServer
  | stops (rest : List Registration)
  | detaches
  | unloads
  | shuts
  | closes
  | finishes
  /-- The message before `return 1`. -/
  | fails
  | returned (rc : Int)
  /-- A system call ended the main thread. -/
  | killed

structure World where
  ring : Ring
  db : Db
  bus : Bus 64
  gBuiltins : List Registration
  system : System
  loader : Loader
  metrics : MetricsServer.World
  /-- `g_erun` and `g_consumer` of the interface. -/
  consumer : Worker
  task : Sandbox.Task
  gRunning : Bool
  main : Pc

/-- After the handlers of the signals are set. -/
def initial (task : Sandbox.Task) : World :=
  ⟨.initial,.initial,⟨none,0,0⟩,[],.initial,.initial,MetricsServer.initial,⟨false,false,false⟩,task,true,.opens⟩

/-- What the calls of `main` get from those that they make. -/
inductive Result where
  | opened (r : InitResults)
  | reopened (r : InitResults)
  | allocated (calloc : Bool)
  | registered (alloc initOk created : Module → Bool)
  | loaded (dir : Option (List PluginEntry))
  | attached (r : Round)
  | listens (r : MetricsServer.Starting)
  | limited (e : Sandbox.Env)
  | created (ok : Bool)
  /-- What `getch` returns; -1 is `none`. -/
  | key (ch : Option UInt8)
  | done

/-- `ch == 'q' || ch == 'Q'`. -/
def quits (ch : Option UInt8) : Bool := ch = some 113 || ch = some 81

/-- The next call of `main`. -/
def mainStep (b : Build) (s : World) (r : Result) : Option World :=
  match s.main, r with
  | .opens, .opened r => some { s with db := (dbInit r s.db).1, main := if (dbInit r s.db).2 ≠ 0 then .reopens else .allocates }
  | .reopens, .reopened r => some { s with db := (dbInit r s.db).1, main := if (dbInit r s.db).2 ≠ 0 then .fails else .allocates }
  | .allocates, .allocated calloc =>
    some { s with
      bus := (eventBusInit calloc 8192 s.bus).1
      main := if (eventBusInit calloc 8192 s.bus).2 ≠ 0 then .fails else .registers }
  | .registers, .registered alloc initOk created => some { s with gBuiltins := mainBuiltins alloc initOk created, main := .loads }
  | .loads, .loaded dir => some { s with system := moduleLoadAll s.gBuiltins dir s.system, main := .attaches }
  | .attaches, .attached r =>
    some { s with
      loader := if b.libbpf then (ebpfLoaderStart r.dir r.ringBuffer r.thread s.loader).1 else s.loader
      main := .serves }
  | .serves, .listens r => some { s with metrics := (MetricsServer.metricsStart r s.metrics).1, main := .starts s.gBuiltins }
  | .starts [], .done => some { s with main := .limits }
  | .starts (r :: rest), .done => some { s with system := moduleStartWorkers [r] s.system, main := .starts rest }
  | .limits, .limited e =>
    match Sandbox.sandboxApplyLimits e (s.task,[]) with
    | .error task => some { s with task, main := .killed }
    | .ok (_,task,_) => some { s with task, main := .interface }
  | .interface, .created ok => if b.runTui then some { s with consumer := startWorker ok s.consumer, main := .loops } else none
  | .interface, .done => if b.runTui then none else some { s with main := .loops }
  | .loops, .key ch =>
    if b.runTui && b.ncurses then
      if quits ch then some { s with consumer := stopWorker s.consumer, main := .stopsServer } else some s
    else none
  | .loops, .done =>
    if b.runTui then if b.ncurses then none else some s
    else if s.gRunning then some s
    else some { s with main := .stopsServer }
  | .stopsServer, .done =>
    (MetricsServer.metricsStop s.metrics).map fun r =>
      { s with metrics := r.1, main := if r.2 = .stopped then .stops s.gBuiltins else .stopsServer }
  | .stops [], .done => some { s with main := .detaches }
  | .stops (r :: rest), .done => some { s with system := moduleStopWorkers [r] s.system, main := .stops rest }
  | .detaches, .done => some { s with loader := if b.libbpf then ebpfLoaderStop s.loader else s.loader, main := .unloads }
  | .unloads, .done => some { s with system := moduleUnloadAll s.gBuiltins s.system, main := .shuts }
  | .shuts, .done => some { s with bus := eventBusShutdown s.bus, main := .closes }
  | .closes, .done => some { s with db := dbClose s.db, main := .finishes }
  | .finishes, .done => some { s with ring := s.ring.fini, main := .returned 0 }
  | .fails, .done => some { s with main := .returned 1 }
  | _, _ => none

/-! ### The threads -/

inductive Thread where
  | main
  | worker (m : Module)
  | rbPoll
  | consumer
  | server

/-- A call of a function that the threads share, from its beginning to its end. -/
inductive Use where
  | database (op : Operation)
  | publish (ev : NuleyeEvent)
  | consume (out : NuleyeEvent)
  | log (strdup : Bool) (out : List UInt8)

/-- What a call does and returns when no other comes in between. -/
def Use.run : Use → World → World × Int
  | .database op, s => ({ s with db := (op.run s.db).1 },(op.run s.db).2)
  | .publish ev, s => ({ s with bus := (eventBusPublish (some ev) s.bus).1 },(eventBusPublish (some ev) s.bus).2)
  | .consume out, s => ({ s with bus := (eventBusConsume (some out) s.bus).1 },(eventBusConsume (some out) s.bus).2.2)
  | .log strdup out, s => ({ s with ring := s.ring.log strdup out },0)

/-- The calls after which `main` comes to the next part and logs. -/
def Pc.logs : Pc → Bool
  | .opens | .reopens | .loads | .attaches | .serves | .starts _ | .limits | .interface | .stopsServer | .stops _ | .detaches
  | .fails => true
  | _ => false

/-- What the threads of the modules call: `ai_thread`, `scan_thread`, `proc_thread`, `net_thread` and `user_thread`. -/
def calls : WorkerFn → Use → Bool
  | .ai, .consume _ | .ai, .database (.insertAlert _) | .ai, .database (.storeModel _) | .ai, .log .. => true
  | .fi, .database (.updateFileEntry _) | .fi, .publish _ | .fi, .log .. => true
  | .pm, .consume _ | .pm, .database (.insertEvent _) => true
  | .nm, .consume _ | .nm, .database (.insertEvent _) => true
  | .um, .database (.insertEvent _) => true
  | _, _ => false

/-- A thread that is there, and a call that it makes. In `main`, `ai_init` loads the model. -/
def Thread.calls (s : World) : Thread → Use → Bool
  | .main, .log .. => s.main.logs
  | .main, .database (.loadModel ..) => match s.main with | .loads => true | _ => false
  | .worker m, use => (s.system.workers m).thread && MainRuns.calls (m.start.getD .other) use
  | .rbPoll, .publish _ | .rbPoll, .log .. => s.loader.rbRunning
  | .consumer, .consume _ => s.consumer.thread
  | .server, .log .. => s.metrics.thread.isSome
  | _, _ => false

/-! ### Steps -/

inductive Action where
  | signal
  | main (r : Result)
  | use (t : Thread) (use : Use)
  /-- A step of the thread of the metrics server. -/
  | serve (a : MetricsServer.Action)

inductive Label where
  | signalled
  | called (r : Result)
  | used (t : Thread) (use : Use) (rc : Int)
  | served (label : MetricsServer.Label)

def step (b : Build) (s : World) : Action → Option (World × Label)
  /- `handle_signal`. -/
  | .signal => some ({ s with gRunning := false },.signalled)
  | .main r => (mainStep b s r).map fun t => (t,.called r)
  | .use t use => if t.calls s use then some ((use.run s).1,.used t use (use.run s).2) else none
  | .serve (.start _) | .serve .stop => none
  | .serve a => (MetricsServer.step s.metrics a).map fun r => ({ s with metrics := r.1 },.served r.2)

/-! ### One call of `main` -/

/-- Everything that a call of `main` can do. -/
inductive Moves (b : Build) (s : World) : Result → World → Prop
  | opened {r} : s.main = .opens → (dbInit r s.db).2 = 0 → Moves b s (.opened r) { s with db := (dbInit r s.db).1, main := .allocates }
  | unopened {r} : s.main = .opens → (dbInit r s.db).2 ≠ 0 → Moves b s (.opened r) { s with db := (dbInit r s.db).1, main := .reopens }
  | reopened {r} : s.main = .reopens → (dbInit r s.db).2 = 0 →
      Moves b s (.reopened r) { s with db := (dbInit r s.db).1, main := .allocates }
  | gone {r} : s.main = .reopens → (dbInit r s.db).2 ≠ 0 → Moves b s (.reopened r) { s with db := (dbInit r s.db).1, main := .fails }
  | allocated : s.main = .allocates →
      Moves b s (.allocated true) { s with bus := (eventBusInit true 8192 s.bus).1, main := .registers }
  | exhausted : s.main = .allocates →
      Moves b s (.allocated false) { s with bus := (eventBusInit false 8192 s.bus).1, main := .fails }
  | registers {alloc initOk created} : s.main = .registers →
      Moves b s (.registered alloc initOk created) { s with gBuiltins := mainBuiltins alloc initOk created, main := .loads }
  | loads {dir} : s.main = .loads → Moves b s (.loaded dir) { s with system := moduleLoadAll s.gBuiltins dir s.system, main := .attaches }
  | attaches {r} : s.main = .attaches →
      Moves b s (.attached r)
        { s with
          loader := if b.libbpf then (ebpfLoaderStart r.dir r.ringBuffer r.thread s.loader).1 else s.loader
          main := .serves }
  | serves {r} : s.main = .serves →
      Moves b s (.listens r) { s with metrics := (MetricsServer.metricsStart r s.metrics).1, main := .starts s.gBuiltins }
  | started : s.main = .starts [] → Moves b s .done { s with main := .limits }
  | starts {r rest} : s.main = .starts (r :: rest) →
      Moves b s .done { s with system := moduleStartWorkers [r] s.system, main := .starts rest }
  | killed {e task} : s.main = .limits → Sandbox.sandboxApplyLimits e (s.task,[]) = .error task →
      Moves b s (.limited e) { s with task, main := .killed }
  | limited {e rc task logged} : s.main = .limits → Sandbox.sandboxApplyLimits e (s.task,[]) = .ok (rc,task,logged) →
      Moves b s (.limited e) { s with task, main := .interface }
  | launches {ok} : s.main = .interface → b.runTui = true →
      Moves b s (.created ok) { s with consumer := startWorker ok s.consumer, main := .loops }
  | daemon : s.main = .interface → b.runTui = false → Moves b s .done { s with main := .loops }
  | quits {ch} : s.main = .loops → b.runTui = true → b.ncurses = true → quits ch = true →
      Moves b s (.key ch) { s with consumer := stopWorker s.consumer, main := .stopsServer }
  | ignores {ch} : s.main = .loops → Moves b s (.key ch) s
  | idles : s.main = .loops → Moves b s .done s
  | stopped : s.main = .loops → b.runTui = false → s.gRunning = false → Moves b s .done { s with main := .stopsServer }
  | stopping {metrics label} : s.main = .stopsServer → MetricsServer.metricsStop s.metrics = some (metrics,label) → label ≠ .stopped →
      Moves b s .done { s with metrics, main := .stopsServer }
  | stoppedServer {metrics} : s.main = .stopsServer → MetricsServer.metricsStop s.metrics = some (metrics,.stopped) →
      Moves b s .done { s with metrics, main := .stops s.gBuiltins }
  | joined : s.main = .stops [] → Moves b s .done { s with main := .detaches }
  | joins {r rest} : s.main = .stops (r :: rest) →
      Moves b s .done { s with system := moduleStopWorkers [r] s.system, main := .stops rest }
  | detaches : s.main = .detaches →
      Moves b s .done { s with loader := if b.libbpf then ebpfLoaderStop s.loader else s.loader, main := .unloads }
  | unloads : s.main = .unloads → Moves b s .done { s with system := moduleUnloadAll s.gBuiltins s.system, main := .shuts }
  | shuts : s.main = .shuts → Moves b s .done { s with bus := eventBusShutdown s.bus, main := .closes }
  | closes : s.main = .closes → Moves b s .done { s with db := dbClose s.db, main := .finishes }
  | finishes : s.main = .finishes → Moves b s .done { s with ring := s.ring.fini, main := .returned 0 }
  | fails : s.main = .fails → Moves b s .done { s with main := .returned 1 }

variable {b : Build} {s t : World} {r : Result} {trace : List Label}

theorem mainStep_moves (moved : mainStep b s r = some t) : Moves b s r t := by
  unfold mainStep at moved
  split at moved
  · rename_i r at_pc
    cases moved
    split_ifs with failed
    · exact .unopened at_pc failed
    · exact .opened at_pc (by simpa using failed)
  · rename_i r at_pc
    cases moved
    split_ifs with failed
    · exact .gone at_pc failed
    · exact .reopened at_pc (by simpa using failed)
  · rename_i calloc at_pc
    cases moved
    cases calloc with
    | true => exact .allocated at_pc
    | false => exact .exhausted at_pc
  · rename_i at_pc
    cases moved
    exact .registers at_pc
  · rename_i at_pc
    cases moved
    exact .loads at_pc
  · rename_i at_pc
    cases moved
    exact .attaches at_pc
  · rename_i at_pc
    cases moved
    exact .serves at_pc
  · rename_i at_pc
    cases moved
    exact .started at_pc
  · rename_i at_pc
    cases moved
    exact .starts at_pc
  · rename_i e at_pc
    split at moved
    · rename_i task ended
      cases moved
      exact .killed at_pc ended
    · rename_i rc task logged ran
      cases moved
      exact .limited at_pc ran
  · rename_i at_pc
    split_ifs at moved with tui
    cases moved
    exact .launches at_pc tui
  · rename_i at_pc
    split_ifs at moved with tui
    cases moved
    exact .daemon at_pc (by simpa using tui)
  · rename_i ch at_pc
    split_ifs at moved with interface quitting
    · cases moved
      simp only [Bool.and_eq_true] at interface
      exact .quits at_pc interface.1 interface.2 quitting
    · cases moved
      exact .ignores at_pc
  · rename_i at_pc
    split_ifs at moved with tui ncurses running
    · cases moved
      exact .idles at_pc
    · cases moved
      exact .idles at_pc
    · cases moved
      exact .stopped at_pc (by simpa using tui) (by simpa using running)
  · rename_i at_pc
    obtain ⟨⟨metrics,label⟩,stopping,rfl⟩ := Option.map_eq_some_iff.mp moved
    dsimp only
    split_ifs with last
    · subst last
      exact .stoppedServer at_pc stopping
    · exact .stopping at_pc stopping last
  · rename_i at_pc
    cases moved
    exact .joined at_pc
  · rename_i at_pc
    cases moved
    exact .joins at_pc
  · rename_i at_pc
    cases moved
    exact .detaches at_pc
  · rename_i at_pc
    cases moved
    exact .unloads at_pc
  · rename_i at_pc
    cases moved
    exact .shuts at_pc
  · rename_i at_pc
    cases moved
    exact .closes at_pc
  · rename_i at_pc
    cases moved
    exact .finishes at_pc
  · rename_i at_pc
    cases moved
    exact .fails at_pc
  · cases moved

/-- How far `main` has come. -/
def Pc.stage : Pc → Nat
  | .opens => 0
  | .reopens => 1
  | .allocates => 2
  | .registers => 3
  | .loads => 4
  | .attaches => 5
  | .serves => 6
  | .starts _ => 7
  | .limits => 8
  | .killed => 8
  | .interface => 9
  | .loops => 10
  | .stopsServer => 11
  | .stops _ => 12
  | .detaches => 13
  | .unloads => 14
  | .shuts => 15
  | .closes => 16
  | .finishes => 17
  | .returned rc => if rc = 0 then 18 else 19
  | .fails => 19

attribute [local simp] Pc.stage

/-! ### The bus, the interface and the server -/

/-- The bus is there from its initialisation to its shutdown. -/
def HasBus (n : Nat) (bus : Bus 64) : Prop := bus.slots.isSome = decide (3 ≤ n ∧ n ≤ 15)

theorem bus_moves (moves : Moves b s r t) (bus : HasBus s.main.stage s.bus) : HasBus t.main.stage t.bus := by
  unfold HasBus at bus ⊢
  cases moves with
  | allocated at_pc => rfl
  | exhausted at_pc => rfl
  | shuts at_pc => rfl
  | _ => simp_all

/-- The thread of the interface runs in its loop only. -/
def Shown (b : Build) (n : Nat) (consumer : Worker) : Prop := consumer.thread = true → n = 10 ∧ b.runTui = true

theorem consumer_moves (moves : Moves b s r t) (shown : Shown b s.main.stage s.consumer) : Shown b t.main.stage t.consumer := by
  unfold Shown at shown ⊢
  cases moves with
  | quits at_pc => exact fun there => by cases there
  | _ => simp_all

/-- The server's thread runs between its start and its stop, and `main` is in `metrics_stop` only there. -/
structure Served (n : Nat) (metrics : MetricsServer.World) : Prop where
  inv : MetricsServer.Inv metrics
  thread : metrics.thread.isSome = true → 7 ≤ n ∧ n ≤ 11
  main : metrics.main ≠ .outside → n = 11

theorem metricsStart_main (r : MetricsServer.Starting) (s : MetricsServer.World) : (MetricsServer.metricsStart r s).1.main = s.main := by
  unfold MetricsServer.metricsStart
  split_ifs <;> rfl

/-- Where `metrics_stop` returns, there is no thread. -/
theorem metricsStop_returns {s t : MetricsServer.World} (inv : MetricsServer.Inv s)
    (moved : MetricsServer.metricsStop s = some (t,.stopped)) : t.thread = none ∧ t.main = .outside := by
  obtain ⟨phase,_⟩ := inv
  cases phase with
  | down =>
    cases moved
    exact ⟨rfl,rfl⟩
  | up | shuts | closes => cases moved
  | joins =>
    simp only [MetricsServer.metricsStop] at moved
    split_ifs at moved
    cases moved
    exact ⟨rfl,rfl⟩

theorem server_moves (moves : Moves b s r t) (served : Served s.main.stage s.metrics) : Served t.main.stage t.metrics := by
  obtain ⟨inv,thread,main⟩ := served
  cases moves with
  | serves at_pc =>
    have outside : s.metrics.main = .outside := by
      by_contra inside
      simpa [at_pc] using main inside
    exact ⟨MetricsServer.inv_start inv outside _,fun _ => by simp,fun inside => absurd ((metricsStart_main _ _).trans outside) inside⟩
  | stopping at_pc stopping => exact ⟨MetricsServer.inv_stop inv stopping,fun _ => by simp,fun _ => rfl⟩
  | stoppedServer at_pc stopping =>
    obtain ⟨none_left,outside⟩ := metricsStop_returns inv stopping
    exact ⟨MetricsServer.inv_stop inv stopping,by simp [none_left],fun inside => absurd outside inside⟩
  | _ => constructor <;> simp_all

/-! ### What was answered -/

/-- The results of the calls that are made once. -/
structure Answers where
  opened : Option InitResults
  loaded : Option (Option (List PluginEntry))
  attached : Option Round

def Answers.note (a : Answers) : Label → Answers
  | .called (.opened r) => { a with opened := some r }
  | .called (.loaded dir) => { a with loaded := some dir }
  | .called (.attached r) => { a with attached := some r }
  | _ => a

/-- The results in a run. -/
def answers (trace : List Label) : Answers := trace.foldl Answers.note ⟨none,none,none⟩

/-- The connection that the first `db_init` left open where it failed. -/
def Answers.lost (a : Answers) : List Nat :=
  match a.opened with
  | some r => if (dbInit r Db.initial).2 = 0 then [] else Opened.made r.opened Db.initial
  | none => []

/-- What `ebpf_loader_start` made of the loader. -/
def Answers.loader (b : Build) (a : Answers) : Loader :=
  match a.attached with
  | some r => if b.libbpf then (ebpfLoaderStart r.dir r.ringBuffer r.thread .initial).1 else .initial
  | none => .initial

variable {a : Answers}

attribute [local simp] Answers.note

/-! ### The database -/

/-- From the `db_init` that succeeded to `db_close` the database serves. -/
structure Databases (a : Answers) (n : Nat) (db : Db) : Prop where
  unmisused : db.engine.misused = false
  before : n = 0 → db = .initial
  failed : n = 1 → Abandoned a.lost db
  serving : 2 ≤ n → n ≤ 16 → ∃ conn,Serving conn a.lost db
  closed : 17 ≤ n → n ≤ 18 → db.gDb = none ∧ Abandoned a.lost db

theorem databases_moves (moves : Moves b s r t) (databases : Databases a s.main.stage s.db) :
    Databases (a.note (.called r)) t.main.stage t.db := by
  obtain ⟨unmisused,before,failed,serving,closed⟩ := databases
  cases moves with
  | @opened r at_pc succeeded =>
    have first : s.db = .initial := before (by simp [at_pc])
    rw [first] at succeeded ⊢
    have serves := abandoned_initial.serving succeeded
    have nothing : (a.note (.called (.opened r))).lost = [] := by simp [Answers.lost,succeeded]
    refine ⟨serves.abandoned.unmisused,by simp,by simp,fun _ _ => ⟨Db.initial.engine.connections.fresh,?_⟩,by simp⟩
    rw [nothing]
    exact serves
  | @unopened r at_pc failing =>
    have first : s.db = .initial := before (by simp [at_pc])
    rw [first] at failing ⊢
    have kept := abandoned_initial.dbInit r
    have lost : (a.note (.called (.opened r))).lost = Opened.made r.opened Db.initial ++ [] := by simp [Answers.lost,failing]
    refine ⟨kept.unmisused,by simp,fun _ => ?_,by simp,by simp⟩
    rw [lost]
    exact kept
  | reopened at_pc succeeded =>
    have serves := (failed (by simp [at_pc])).serving succeeded
    exact ⟨serves.abandoned.unmisused,by simp,by simp,fun _ _ => ⟨_,serves⟩,by simp⟩
  | gone at_pc failing =>
    exact ⟨((failed (by simp [at_pc])).dbInit _).unmisused,by simp,by simp,by simp,by simp⟩
  | closes at_pc =>
    obtain ⟨conn,serves⟩ := serving (by simp [at_pc]) (by simp [at_pc])
    obtain ⟨abandoned,closed⟩ := serves.dbClose
    exact ⟨abandoned.unmisused,by simp,by simp,by simp,fun _ _ => ⟨closed,abandoned⟩⟩
  | loads | attaches =>
    constructor <;> simp_all
    exact serving
  | _ => constructor <;> simp_all

/-! ### The log and the loader -/

/-- Every copy of a line that is not in the ring was freed once; after `logger_fini`, all of them. -/
def Logged (n : Nat) (ring : Ring) : Prop := ring.ledger.Owes (if n = 18 then [] else ring.held)

theorem logged_moves (moves : Moves b s r t) (logged : Logged s.main.stage s.ring) : Logged t.main.stage t.ring := by
  unfold Logged at logged ⊢
  cases moves with
  | finishes at_pc =>
    rw [at_pc] at logged
    exact fini_owes (by simpa using logged)
  | _ => simp_all

/-- The loader is started once and stopped once. -/
structure Loads (b : Build) (a : Answers) (n : Nat) (loader : Loader) : Prop where
  before : n < 6 ∨ n = 19 → loader = .initial
  during : 6 ≤ n → n ≤ 13 → loader = a.loader b
  after : 14 ≤ n → n ≤ 18 → loader = if b.libbpf then ebpfLoaderStop (a.loader b) else a.loader b

theorem loader_stopped : (if b.libbpf then ebpfLoaderStop (a.loader b) else a.loader b).rbRunning = false := by
  cases compiled : b.libbpf with
  | true => rfl
  | false =>
    unfold Answers.loader
    cases a.attached <;> simp [compiled,Loader.initial]

theorem loads_moves (moves : Moves b s r t) (loads : Loads b a s.main.stage s.loader) :
    Loads b (a.note (.called r)) t.main.stage t.loader := by
  obtain ⟨before,during,after⟩ := loads
  cases moves with
  | attaches at_pc =>
    have initially : s.loader = .initial := before (by simp [at_pc])
    refine ⟨by simp,fun _ _ => ?_,by simp⟩
    simp only [initially,Answers.loader,Answers.note]
  | detaches at_pc =>
    have started : s.loader = a.loader b := during (by simp [at_pc]) (by simp [at_pc])
    refine ⟨by simp,by simp,fun _ _ => ?_⟩
    simp only [started]
    rfl
  | _ => constructor <;> simp_all [Answers.loader]

/-! ### The modules -/

/-- What `main` has made of the modules, with the directory of the plugins. -/
def Pc.modules (gBuiltins : List Registration) (dir : Option (List PluginEntry)) : Pc → System → Prop
  | .attaches, s | .serves, s => s = moduleLoadAll gBuiltins dir .initial
  | .starts rest, s =>
    ∃ front,gBuiltins = front ++ rest ∧ s = moduleStartWorkers front (moduleLoadAll gBuiltins dir .initial)
  | .limits, s | .interface, s | .loops, s | .stopsServer, s | .killed, s =>
    s = moduleStartWorkers gBuiltins (moduleLoadAll gBuiltins dir .initial)
  | .stops rest, s => ∃ front,gBuiltins = front ++ rest ∧
    s = moduleStopWorkers front (moduleStartWorkers gBuiltins (moduleLoadAll gBuiltins dir .initial))
  | .detaches, s | .unloads, s =>
    s = moduleStopWorkers gBuiltins (moduleStartWorkers gBuiltins (moduleLoadAll gBuiltins dir .initial))
  | .shuts, s | .closes, s | .finishes, s => s = mainRun gBuiltins dir
  | .returned rc, s => s = if rc = 0 then mainRun gBuiltins dir else .initial
  | _, s => s = .initial

theorem callAll_append (present : Module → Bool) (c : Registration → Callback) (effect : Registration → Worker → Worker)
    (front back : List Registration) (s : System) :
    callAll present c effect (front ++ back) s = callAll present c effect back (callAll present c effect front s) := by
  induction front generalizing s with
  | nil => rfl
  | cons r rest ih => exact ih _

/-- The calls of the modules are those of the run that is considered alone. -/
theorem modules_moves (moves : Moves b s r t) (modules : s.main.modules s.gBuiltins (a.loaded.getD none) s.system) :
    t.main.modules t.gBuiltins ((a.note (.called r)).loaded.getD none) t.system := by
  cases moves with
  | serves at_pc =>
    rw [at_pc] at modules
    exact ⟨[],rfl,modules⟩
  | started at_pc =>
    rw [at_pc] at modules
    obtain ⟨front,whole,system⟩ := modules
    rw [List.append_nil] at whole
    subst whole
    exact system
  | @starts r rest at_pc =>
    rw [at_pc] at modules
    obtain ⟨front,whole,system⟩ := modules
    refine ⟨front ++ [r],by rw [whole,List.append_assoc,List.singleton_append],?_⟩
    simp only [system,moduleStartWorkers,callAll_append]
    rfl
  | stoppedServer at_pc =>
    rw [at_pc] at modules
    exact ⟨[],rfl,modules⟩
  | joined at_pc =>
    rw [at_pc] at modules
    obtain ⟨front,whole,system⟩ := modules
    rw [List.append_nil] at whole
    subst whole
    exact system
  | @joins r rest at_pc =>
    rw [at_pc] at modules
    obtain ⟨front,whole,system⟩ := modules
    refine ⟨front ++ [r],by rw [whole,List.append_assoc,List.singleton_append],?_⟩
    simp only [system,moduleStopWorkers,callAll_append]
    rfl
  | _ => simp_all [Pc.modules,mainRun]

/-! ### The threads of the modules -/

/-- The modules whose threads are still to be joined. -/
def Pc.joins (gBuiltins : List Registration) : Pc → List Registration
  | .starts _ | .limits | .killed | .interface | .loops | .stopsServer => gBuiltins
  | .stops rest => rest
  | _ => []

/-- The modules that `main` registers. -/
def builtins : List Module := [aiModule,fileIntegrityModule,processMonitorModule,networkMonitorModule,userMonitorModule]

theorem registered_builtin (alloc initOk created : Module → Bool) :
    ∀ r ∈ mainBuiltins alloc initOk created,r.module ∈ builtins := by
  have each : ∀ (modules : List Module) (gBuiltins : List Registration),modules ⊆ builtins → (∀ r ∈ gBuiltins,r.module ∈ builtins) →
      ∀ r ∈ modules.foldl (fun gBuiltins m => (moduleRegisterBuiltin (alloc m) ⟨m,initOk m,created m⟩ gBuiltins).1) gBuiltins,
        r.module ∈ builtins := by
    intro modules
    induction modules with
    | nil => exact fun _ _ known => known
    | cons m rest ih =>
      intro gBuiltins inside known
      refine ih _ (fun n member => inside (List.mem_cons_of_mem _ member)) fun r member => ?_
      simp only [moduleRegisterBuiltin] at member
      split_ifs at member
      · rcases List.mem_append.mp member with member | member
        · exact known r member
        · rw [List.mem_singleton.mp member]
          exact inside List.mem_cons_self
      · exact known r member
  exact each builtins [] (fun _ member => member) (by simp)

/-- The stop of a module of `main` joins its thread. -/
theorem builtin_stops {r : Registration} (builtin : r.module ∈ builtins) : r.module.stop.isSome = true ∧ ∀ w,(r.stopWorker w).thread = false := by
  simp only [builtins,List.mem_cons,List.not_mem_nil,or_false] at builtin
  unfold Registration.stopWorker
  rcases builtin with same | same | same | same | same <;> rw [same] <;> exact ⟨rfl,fun _ => rfl⟩

/-- One turn of a loop over the registry. -/
theorem workers_turn (present : Module → Bool) (c : Registration → Callback) (effect : Registration → Worker → Worker)
    (r : Registration) (s : System) (m : Module) :
    (ModuleLifecycles.callAll present c effect [r] s).workers m =
      if present r.module = true ∧ r.module = m then effect r (s.workers m) else s.workers m := by
  simp only [ModuleLifecycles.callAll]
  cases there : present r.module <;> simp [workers_call]

/-- Loops that leave the workers alone. -/
theorem workers_idle (present : Module → Bool) (c : Registration → Callback) (gBuiltins : List Registration) (s : System) :
    (callAll present c (fun _ => id) gBuiltins s).workers = s.workers := by
  funext m
  rw [workers_callAll]
  have unchanged : ∀ rs : List Registration,rs.foldl (fun w _ => id w) (s.workers m) = s.workers m := by
    intro rs
    induction rs with
    | nil => rfl
    | cons r rest ih => exact ih
  split_ifs
  · exact unchanged _
  · rfl

theorem workers_load (gBuiltins : List Registration) (dir : Option (List PluginEntry)) (s : System) :
    (moduleLoadAll gBuiltins dir s).workers = s.workers := by
  unfold moduleLoadAll
  cases dir with
  | none => exact workers_idle _ _ _ _
  | some entries =>
    funext m
    dsimp only
    rw [(loadPlugins_eq _ _ m).2,workers_idle]

/-- A thread belongs to a registered module that is not stopped. -/
structure Works (pc : Pc) (gBuiltins : List Registration) (system : System) : Prop where
  builtin : ∀ r ∈ gBuiltins,r.module ∈ builtins
  thread : ∀ m,(system.workers m).thread = true → ∃ r ∈ pc.joins gBuiltins,r.module = m

theorem works_moves (moves : Moves b s r t) (modules : s.main.modules s.gBuiltins (a.loaded.getD none) s.system)
    (works : Works s.main s.gBuiltins s.system) : Works t.main t.gBuiltins t.system := by
  obtain ⟨builtin,thread⟩ := works
  cases moves with
  | registers at_pc =>
    refine ⟨registered_builtin _ _ _,fun m there => ?_⟩
    simpa [at_pc,Pc.joins] using thread m there
  | loads at_pc =>
    refine ⟨builtin,fun m there => ?_⟩
    simp only [workers_load] at there
    simpa [at_pc,Pc.joins] using thread m there
  | unloads at_pc =>
    refine ⟨builtin,fun m there => ?_⟩
    simp only [moduleUnloadAll,workers_idle] at there
    simpa [at_pc,Pc.joins] using thread m there
  | @starts r rest at_pc =>
    rw [at_pc] at modules
    obtain ⟨front,whole,_⟩ := modules
    refine ⟨builtin,fun m there => ?_⟩
    by_cases same : r.module = m
    · exact ⟨r,by simp [Pc.joins,whole],same⟩
    · have before : (s.system.workers m).thread = true := by simpa [moduleStartWorkers,workers_turn,same] using there
      simpa [at_pc,Pc.joins] using thread m before
  | @joins r rest at_pc =>
    rw [at_pc] at modules
    obtain ⟨front,whole,_⟩ := modules
    obtain ⟨stops,joined⟩ := builtin_stops (builtin r (by simp [whole]))
    refine ⟨builtin,fun m there => ?_⟩
    simp only [moduleStopWorkers,workers_turn,stops,true_and] at there
    by_cases same : r.module = m
    · simp [same,joined] at there
    · have before : (s.system.workers m).thread = true := by simpa [same] using there
      obtain ⟨other,member,found⟩ := thread m before
      rw [at_pc] at member
      rcases List.mem_cons.mp member with rfl | member
      · exact absurd found same
      · exact ⟨other,member,found⟩
  | joined at_pc => exact ⟨builtin,fun m there => by simpa [at_pc,Pc.joins] using thread m there⟩
  | _ => constructor <;> simp_all [Pc.joins]

theorem joins_stage {pc : Pc} {gBuiltins : List Registration} {r : Registration} (member : r ∈ pc.joins gBuiltins) :
    7 ≤ pc.stage ∧ pc.stage ≤ 12 := by
  cases pc <;> simp_all [Pc.joins]

/-! ### Uses -/

/-- What holds of every state that a run reaches, with what was answered in it. -/
structure Inv (b : Build) (a : Answers) (s : World) : Prop where
  bus : HasBus s.main.stage s.bus
  shown : Shown b s.main.stage s.consumer
  served : Served s.main.stage s.metrics
  databases : Databases a s.main.stage s.db
  logged : Logged s.main.stage s.ring
  loads : Loads b a s.main.stage s.loader
  modules : s.main.modules s.gBuiltins (a.loaded.getD none) s.system
  works : Works s.main s.gBuiltins s.system

theorem inv_initial (task : Sandbox.Task) : Inv b (answers []) (initial task) where
  bus := rfl
  shown there := by cases there
  served := ⟨MetricsServer.inv_initial,by simp [initial,MetricsServer.initial],fun inside => absurd rfl inside⟩
  databases := ⟨rfl,fun _ => rfl,by simp [initial],by simp [initial],by simp [initial]⟩
  logged := kept_initial.owes
  loads := ⟨fun _ => rfl,by simp [initial],by simp [initial]⟩
  modules := rfl
  works := ⟨by simp [initial],by simp [initial,System.initial]⟩

theorem inv_moves (inv : Inv b a s) (moves : Moves b s r t) : Inv b (a.note (.called r)) t where
  bus := bus_moves moves inv.bus
  shown := consumer_moves moves inv.shown
  served := server_moves moves inv.served
  databases := databases_moves moves inv.databases
  logged := logged_moves moves inv.logged
  loads := loads_moves moves inv.loads
  modules := modules_moves moves inv.modules
  works := works_moves moves inv.modules inv.works

/-- Where `main` is while something can be used. -/
def Use.Available (n : Nat) : Use → Prop
  | .database _ => 2 ≤ n ∧ n ≤ 16
  | .publish _ | .consume _ => 3 ≤ n ∧ n ≤ 15
  | .log .. => n ≠ 18

/-- A thread other than the main thread is there only while everything can be used. -/
theorem available_between {n : Nat} (started : 6 ≤ n) (unstopped : n ≤ 13) (use : Use) : use.Available n := by
  cases use <;> simp only [Use.Available] <;> omega

theorem stage_bounded (pc : Pc) : pc.stage ≤ 19 := by
  cases pc <;> simp
  split_ifs <;> omega

theorem calls_available (inv : Inv b a s) {thread : Thread} {use : Use} (calls : thread.calls s use = true) :
    use.Available s.main.stage := by
  cases thread with
  | main =>
    unfold Thread.calls at calls
    split at calls
    · cases at_pc : s.main <;> simp_all [Pc.logs,Use.Available]
    · cases at_pc : s.main <;> simp_all [Use.Available]
    all_goals simp_all
  | worker m =>
    simp only [Thread.calls,Bool.and_eq_true] at calls
    obtain ⟨r,member,_⟩ := inv.works.thread m calls.1
    obtain ⟨started,unstopped⟩ := joins_stage member
    exact available_between (by omega) (by omega) use
  | rbPoll =>
    have running : s.loader.rbRunning = true := by
      cases use <;> first | exact calls | cases calls
    by_cases early : s.main.stage < 6 ∨ s.main.stage = 19
    · rw [inv.loads.before early] at running
      cases running
    · by_cases late : 14 ≤ s.main.stage
      · have bounded : s.main.stage ≤ 18 := by
          have last := stage_bounded s.main
          omega
        rw [inv.loads.after late bounded,loader_stopped] at running
        cases running
      · exact available_between (by omega) (by omega) use
  | consumer =>
    have there : s.consumer.thread = true := by
      cases use <;> first | exact calls | cases calls
    have stage := (inv.shown there).1
    exact available_between (by omega) (by omega) use
  | server =>
    have there : s.metrics.thread.isSome = true := by
      cases use <;> first | exact calls | cases calls
    obtain ⟨started,unstopped⟩ := inv.served.thread there
    exact available_between (by omega) (by omega) use

/-- What a call returns while everything can be used. -/
def Use.Served : Use → Int → Prop
  | .database op, rc => op.name ∈ required → rc = if succeeds op then 0 else -1
  | .publish _, rc => rc = 0 ∨ rc = -ENOBUFS
  | .consume _, rc => rc = 0 ∨ rc = 1
  | .log .., rc => rc = 0

theorem publish_present {bus : Bus 64} (present : bus.slots.isSome = true) (ev : NuleyeEvent) :
    (eventBusPublish (some ev) bus).1.slots.isSome = true ∧
      ((eventBusPublish (some ev) bus).2 = 0 ∨ (eventBusPublish (some ev) bus).2 = -ENOBUFS) := by
  obtain ⟨slots,there⟩ := Option.isSome_iff_exists.mp present
  simp only [eventBusPublish,there]
  split_ifs
  · exact ⟨present,.inr rfl⟩
  · exact ⟨rfl,.inl rfl⟩

theorem consume_present {bus : Bus 64} (present : bus.slots.isSome = true) (out : NuleyeEvent) :
    (eventBusConsume (some out) bus).1.slots.isSome = true ∧
      ((eventBusConsume (some out) bus).2.2 = 0 ∨ (eventBusConsume (some out) bus).2.2 = 1) := by
  obtain ⟨slots,there⟩ := Option.isSome_iff_exists.mp present
  simp only [eventBusConsume,there]
  split_ifs
  · exact ⟨rfl,.inl rfl⟩
  · exact ⟨rfl,.inr rfl⟩

/-- A use leaves all but its own part as it is. -/
theorem inv_use (inv : Inv b a s) {use : Use} (available : use.Available s.main.stage) :
    Inv b a (use.run s).1 ∧ use.Served (use.run s).2 := by
  obtain ⟨bus,shown,served,databases,logged,loads,modules,works⟩ := inv
  cases use with
  | database op =>
    obtain ⟨opened,unclosed⟩ := available
    obtain ⟨conn,serving⟩ := databases.serving opened unclosed
    have later := serving.run op
    have kept : Databases a s.main.stage (op.run s.db).1 := {
      unmisused := later.abandoned.unmisused
      before := fun first => by omega
      failed := fun first => by omega
      serving := fun _ _ => ⟨conn,later⟩
      closed := fun late _ => by omega }
    exact ⟨⟨bus,shown,served,kept,logged,loads,modules,works⟩,fun needed => serving.returned needed⟩
  | publish ev =>
    have there : 3 ≤ s.main.stage ∧ s.main.stage ≤ 15 := available
    obtain ⟨still,rc⟩ := publish_present (bus.trans (decide_eq_true there)) ev
    exact ⟨⟨still.trans (decide_eq_true there).symm,shown,served,databases,logged,loads,modules,works⟩,rc⟩
  | consume out =>
    have there : 3 ≤ s.main.stage ∧ s.main.stage ≤ 15 := available
    obtain ⟨still,rc⟩ := consume_present (bus.trans (decide_eq_true there)) out
    exact ⟨⟨still.trans (decide_eq_true there).symm,shown,served,databases,logged,loads,modules,works⟩,rc⟩
  | log strdup out =>
    have unfinished : s.main.stage ≠ 18 := available
    rw [Logged,if_neg unfinished] at logged
    have kept : Logged s.main.stage (s.ring.log strdup out) := by
      rw [Logged,if_neg unfinished]
      exact log_owes logged strdup out
    exact ⟨⟨bus,shown,served,databases,kept,loads,modules,works⟩,rfl⟩

/-! ### Runs -/

/-- A step of the server's thread leaves `main` where it is, and the thread. -/
theorem serve_frame {s t : MetricsServer.World} {action : MetricsServer.Action} {label : MetricsServer.Label}
    (moved : MetricsServer.step s action = some (t,label)) (starts : ∀ r,action ≠ .start r) (stops : action ≠ .stop) :
    t.main = s.main ∧ t.thread.isSome = s.thread.isSome := by
  cases action with
  | start r => exact absurd rfl (starts r)
  | stop => exact absurd rfl stops
  | turn stale =>
    obtain ⟨pc,at_pc,moved⟩ := Option.bind_eq_some_iff.mp moved
    rw [at_pc]
    cases pc with
    | test | calls | closes =>
      cases moved
      exact ⟨rfl,rfl⟩
    | replies fd chunk =>
      obtain ⟨bytes,_,same⟩ := Option.map_eq_some_iff.mp moved
      cases same
      exact ⟨rfl,rfl⟩
    | accepts | receives | ended => cases moved
  | accept result =>
    simp only [MetricsServer.step] at moved
    split at moved
    · rename_i listenFd at_pc
      rw [at_pc]
      cases result <;> simp only [MetricsServer.metricsAccept] at moved <;> try split_ifs at moved
      all_goals
        cases moved
        exact ⟨rfl,rfl⟩
    · cases moved
  | recv chunk =>
    simp only [MetricsServer.step] at moved
    split at moved
    · rename_i fd at_pc
      rw [at_pc]
      simp only [MetricsServer.metricsRecv] at moved
      split_ifs at moved
      all_goals
        cases moved
        exact ⟨rfl,rfl⟩
    · cases moved

/-- A step of the server's thread is its own business. -/
theorem inv_serve {m : MetricsServer.World} {action : MetricsServer.Action} {label : MetricsServer.Label} (inv : Inv b a s)
    (moved : MetricsServer.step s.metrics action = some (m,label)) (starts : ∀ r,action ≠ .start r) (stops : action ≠ .stop) :
    Inv b a { s with metrics := m } := by
  obtain ⟨same_main,same_thread⟩ := serve_frame moved starts stops
  obtain ⟨bus,shown,⟨server,thread,main⟩,databases,logged,loads,modules,works⟩ := inv
  have served : Served s.main.stage m :=
    ⟨MetricsServer.inv_step server moved,fun there => thread (same_thread ▸ there),fun inside => main (same_main ▸ inside)⟩
  exact ⟨bus,shown,served,databases,logged,loads,modules,works⟩

/-- Everything that a step can do: a signal, a call of `main`, a use, or a step of the server's thread. -/
theorem step_cases {action : Action} {label : Label} (moved : step b s action = some (t,label)) :
    (t = { s with gRunning := false } ∧ label = .signalled) ∨
      (∃ r,Moves b s r t ∧ label = .called r) ∨
      (∃ thread use,thread.calls s use = true ∧ t = (use.run s).1 ∧ label = .used thread use (use.run s).2) ∨
      ∃ action m served,MetricsServer.step s.metrics action = some (m,served) ∧ (∀ r,action ≠ .start r) ∧ action ≠ .stop ∧
        t = { s with metrics := m } ∧ label = .served served := by
  cases action with
  | signal =>
    cases moved
    exact .inl ⟨rfl,rfl⟩
  | main r =>
    obtain ⟨_,called,same⟩ := Option.map_eq_some_iff.mp moved
    cases same
    exact .inr (.inl ⟨r,mainStep_moves called,rfl⟩)
  | use thread use =>
    simp only [step] at moved
    split_ifs at moved with calls
    cases moved
    exact .inr (.inr (.inl ⟨thread,use,calls,rfl,rfl⟩))
  | serve action =>
    have free : (∀ r,action ≠ .start r) ∧ action ≠ .stop := by
      cases action with
      | start | stop => cases moved
      | turn | accept | recv => exact ⟨by simp,by simp⟩
    have own : (MetricsServer.step s.metrics action).map (fun r => ({ s with metrics := r.1 },.served r.2)) = some (t,label) := by
      cases action with
      | start | stop => cases moved
      | turn | accept | recv => exact moved
    obtain ⟨⟨m,served⟩,stepped,same⟩ := Option.map_eq_some_iff.mp own
    cases same
    exact .inr (.inr (.inr ⟨action,m,served,stepped,free.1,free.2,rfl,rfl⟩))

theorem inv_step {action : Action} {label : Label} (inv : Inv b a s) (moved : step b s action = some (t,label)) :
    Inv b (a.note label) t ∧ ∀ thread use rc,label = .used thread use rc → use.Served rc := by
  rcases step_cases moved with ⟨rfl,rfl⟩ | ⟨r,moves,rfl⟩ | ⟨thread,use,calls,rfl,rfl⟩ | ⟨action,m,served,stepped,starts,stops,rfl,rfl⟩
  · obtain ⟨bus,shown,served,databases,logged,loads,modules,works⟩ := inv
    refine ⟨⟨bus,shown,served,databases,logged,loads,modules,works⟩,fun thread use rc same => ?_⟩
    cases same
  · exact ⟨inv_moves inv moves,fun thread use rc same => by cases same⟩
  · obtain ⟨kept,served⟩ := inv_use inv (calls_available inv calls)
    refine ⟨kept,fun thread' use' rc same => ?_⟩
    cases same
    exact served
  · exact ⟨inv_serve inv stepped starts stops,fun thread use rc same => by cases same⟩

/-- In every run. -/
theorem inv_run {task : Sandbox.Task} (run : Run (step b) free (initial task) trace t) :
    Inv b (answers trace) t ∧ ∀ thread use rc,.used thread use rc ∈ trace → use.Served rc := by
  refine run.invariant (I := fun trace t => Inv b (answers trace) t ∧ ∀ thread use rc,.used thread use rc ∈ trace → use.Served rc)
    ⟨inv_initial task,fun thread use rc member => by cases member⟩ ?_
  intro trace t action u label _ ⟨inv,served⟩ _ moved
  obtain ⟨kept,last⟩ := inv_step inv moved
  refine ⟨by simpa [answers] using kept,fun thread use rc member => ?_⟩
  rcases List.mem_append.mp member with member | member
  · exact served thread use rc member
  · exact last thread use rc (List.mem_singleton.mp member).symm

/-- Whatever calls the threads make one after the other and whatever fails, every call finds what it uses: no publish finds
    the bus gone and no consume either, no operation that the library carries out fails, no statement is used after it
    was finalized, and no line is freed twice. -/
theorem uses_served {task : Sandbox.Task} (run : Run (step b) free (initial task) trace s) :
    (∀ thread use rc,.used thread use rc ∈ trace → use.Served rc) ∧ s.db.engine.misused = false ∧
      ∀ n ∈ s.ring.ledger.releases,n ≤ 1 := by
  obtain ⟨inv,served⟩ := inv_run run
  refine ⟨served,inv.databases.unmisused,fun n member => ?_⟩
  obtain ⟨i,inside,rfl⟩ := List.getElem_of_mem member
  have once := inv.logged.once i inside
  omega

/-- A kernel without strict seccomp. -/
private def unsupported : Sandbox.Env where
  noFile := none
  core := none
  noNewPrivs := none
  strict := some 22
  nobody := none
  setgid := none
  setuid := none
  strerror := fun _ => []
  syslog := [.other 44]
  sends := ⟨.other 44,List.mem_singleton_self _,rfl⟩
  getpwnam := []
  plain := fun c member => by rw [List.mem_singleton.mp member]; rfl

/-- A start where all succeeds but the loader, the server and strict seccomp, up to the loop of the daemon. -/
private def starting : List Action :=
  [.main (.opened ⟨.ok,true,true,fun _ => true⟩),.main (.allocated true),
    .main (.registered (fun _ => true) (fun _ => true) fun _ => true),.main (.loaded none),.main (.attached ⟨none,true,true⟩),
    .main (.listens ⟨false,true,true,true⟩)] ++ List.replicate 6 (.main .done) ++ [.main (.limited unsupported),.main .done]

private def user : Sandbox.Task := ⟨1024,0,false,false,0,0⟩

/-- A worker consumes while the program runs. -/
theorem uses_served_consume : ∃ trace s,Run (step ⟨false,true,false⟩) free (initial user) trace s ∧ s.db.engine.misused = false ∧
    ∃ thread out rc,.used thread (.consume out) rc ∈ trace ∧ (rc = 0 ∨ rc = 1) := by
  obtain ⟨trace,s,run,checked⟩ := exists_run_of_check (step ⟨false,true,false⟩) free (initial user)
    (fun _ trace => trace.any fun label => match label with | .used _ (.consume _) _ => true | _ => false)
    (starting ++ [.use (.worker processMonitorModule) (.consume zeroEvent)]) (by decide +kernel)
  obtain ⟨served,unmisused,_⟩ := uses_served run
  obtain ⟨label,member,consumed⟩ := List.any_eq_true.mp checked
  split at consumed
  · exact ⟨trace,s,run,unmisused,_,_,_,member,served _ _ _ member⟩
  · cases consumed

/-! ### After `main` -/

/-- What ends the loop of `main`: a signal for a daemon, a key for the interface with ncurses. -/
def Quit (b : Build) (trace : List Label) : Prop :=
  b.runTui = false ∧ .signalled ∈ trace ∨ b.runTui = true ∧ b.ncurses = true ∧ ∃ ch,quits ch = true ∧ .called (.key ch) ∈ trace

theorem quit_later {label : Label} (quit : Quit b trace) : Quit b (trace ++ [label]) := by
  rcases quit with ⟨daemon,member⟩ | ⟨tui,ncurses,ch,quitting,member⟩
  · exact .inl ⟨daemon,List.mem_append_left _ member⟩
  · exact .inr ⟨tui,ncurses,ch,quitting,List.mem_append_left _ member⟩

/-- Strict seccomp was granted to the main thread. -/
def Granted (trace : List Label) : Prop := ∃ e,.called (.limited e) ∈ trace ∧ e.strict = none

/-- The ways that `main` has come. -/
structure Way (b : Build) (task : Sandbox.Task) (trace : List Label) (s : World) : Prop where
  signalled : s.gRunning = false → .signalled ∈ trace
  quit : 11 ≤ s.main.stage → s.main.stage ≤ 18 → Quit b trace
  rc : ∀ rc,s.main = .returned rc → rc = 0 ∨ rc = 1
  confined : s.main.stage ≤ 8 → s.main = .killed ∨ s.task = task
  user : s.main = .killed → s.task.strict = true ∧ s.task.uid = task.uid ∧ s.task.gid = task.gid
  granted : Granted trace ↔ s.main = .killed

theorem way_initial (task : Sandbox.Task) : Way b task [] (initial task) where
  signalled running := by cases running
  quit late := absurd late (by simp [initial])
  rc rc returned := by cases returned
  confined _ := .inr rfl
  user killed := by cases killed
  granted := by simp [Granted,initial]

/-- A label that grants nothing. -/
theorem granted_other {label : Label} (other : ∀ e,label ≠ .called (.limited e)) : Granted (trace ++ [label]) ↔ Granted trace := by
  unfold Granted
  constructor
  · rintro ⟨e,member,strict⟩
    rcases List.mem_append.mp member with member | member
    · exact ⟨e,member,strict⟩
    · exact absurd (List.mem_singleton.mp member).symm (other e)
  · rintro ⟨e,member,strict⟩
    exact ⟨e,List.mem_append_left _ member,strict⟩

/-- A step that leaves the main thread where it is. -/
theorem way_other {task : Sandbox.Task} {label : Label} (way : Way b task trace s) (same_main : t.main = s.main)
    (same_task : t.task = s.task) (running : t.gRunning = false → .signalled ∈ trace ++ [label])
    (other : ∀ e,label ≠ .called (.limited e)) : Way b task (trace ++ [label]) t where
  signalled := running
  quit late early := quit_later (way.quit (same_main ▸ late) (same_main ▸ early))
  rc rc returned := way.rc rc (same_main ▸ returned)
  confined early := by
    rw [same_main,same_task]
    exact way.confined (same_main ▸ early)
  user killed := by
    rw [same_task]
    exact way.user (same_main ▸ killed)
  granted := by rw [granted_other other,same_main,way.granted]

theorem quit_moves (signalled : s.gRunning = false → .signalled ∈ trace)
    (quit : 11 ≤ s.main.stage → s.main.stage ≤ 18 → Quit b trace) (moves : Moves b s r t) (late : 11 ≤ t.main.stage)
    (early : t.main.stage ≤ 18) : Quit b (trace ++ [.called r]) := by
  cases moves with
  | stopped at_pc daemon asked => exact .inl ⟨daemon,List.mem_append_left _ (signalled asked)⟩
  | @quits ch at_pc tui ncurses quitting => exact .inr ⟨tui,ncurses,ch,quitting,by simp⟩
  | _ => exact quit_later (quit (by simp_all) (by simp_all))

theorem prepared_user (e : Sandbox.Env) (task : Sandbox.Task) :
    (Sandbox.prepared e task).uid = task.uid ∧ (Sandbox.prepared e task).gid = task.gid := by
  unfold Sandbox.prepared Sandbox.Task.after
  split_ifs <;> exact ⟨rfl,rfl⟩

theorem way_moves {task : Sandbox.Task} (unconfined : task.strict = false) (way : Way b task trace s) (moves : Moves b s r t) :
    Way b task (trace ++ [.called r]) t := by
  have quit := quit_moves way.signalled way.quit moves
  have earlier : s.gRunning = false → Label.signalled ∈ trace ++ [.called r] := fun asked =>
    List.mem_append_left _ (way.signalled asked)
  obtain ⟨_,_,rc,confined,user,granted⟩ := way
  cases moves with
  | @killed e task' at_pc ended =>
    have same : s.task = task := (confined (by simp [at_pc])).resolve_left (by simp [at_pc])
    rw [same,Sandbox.limits_eq unconfined] at ended
    split_ifs at ended with strict
    cases ended
    obtain ⟨uid,gid⟩ := prepared_user e task
    exact ⟨earlier,quit,by simp,fun _ => .inl rfl,fun _ => ⟨rfl,uid,gid⟩,⟨fun _ => rfl,fun _ => ⟨e,by simp,strict⟩⟩⟩
  | @limited e rc' task' logged at_pc ran =>
    have same : s.task = task := (confined (by simp [at_pc])).resolve_left (by simp [at_pc])
    rw [same,Sandbox.limits_eq unconfined] at ran
    split_ifs at ran with strict
    refine ⟨earlier,quit,by simp,by simp,by simp,⟨?_,by simp⟩⟩
    rintro ⟨e',member,strict'⟩
    rcases List.mem_append.mp member with member | member
    · have killed := granted.mp ⟨e',member,strict'⟩
      simp [at_pc] at killed
    · cases List.mem_singleton.mp member
      exact absurd strict' strict
  | ignores at_pc | idles at_pc =>
    exact ⟨earlier,quit,rc,by simp [at_pc],by simp [at_pc],by rw [granted_other (by simp),granted]⟩
  | stopping at_pc | stoppedServer at_pc | joined at_pc | joins at_pc | detaches at_pc | unloads at_pc | shuts at_pc
  | closes at_pc | finishes at_pc | fails at_pc | quits at_pc | stopped at_pc | launches at_pc | daemon at_pc =>
    exact ⟨earlier,quit,by simp,by simp,by simp,by rw [granted_other (by simp),granted]; simp [at_pc]⟩
  | _ =>
    refine ⟨earlier,quit,by simp,fun early => .inr ((confined (by simp_all)).resolve_left (by simp_all)),by simp,?_⟩
    rw [granted_other (by simp),granted]
    simp_all

theorem way_run {task : Sandbox.Task} (unconfined : task.strict = false) (run : Run (step b) free (initial task) trace t) :
    Way b task trace t := by
  refine run.invariant (I := fun trace t => Way b task trace t) (way_initial task) ?_
  intro trace s action t label _ way _ moved
  rcases step_cases moved with ⟨rfl,rfl⟩ | ⟨r,moves,rfl⟩ | ⟨thread,use,_,rfl,rfl⟩ | ⟨action,m,served,_,_,_,rfl,rfl⟩
  · exact way_other way rfl rfl (fun _ => by simp) (by simp)
  · exact way_moves unconfined way moves
  · refine way_other way ?_ ?_ (fun asked => List.mem_append_left _ (way.signalled ?_)) (by simp)
    all_goals cases use <;> first | rfl | exact asked
  · exact way_other way rfl rfl (fun asked => List.mem_append_left _ (way.signalled asked)) (by simp)

/-- Behind the options `main` returns 0 or 1. Before it returns 0 a daemon got a signal, and the interface with ncurses a key that quits;
    the interface without ncurses never ends, and a signal ends no interface. Where strict seccomp is granted, and only
    there, the main thread is killed with the user that it had, and nothing is ever stopped. -/
theorem endings {task : Sandbox.Task} (unconfined : task.strict = false) (run : Run (step b) free (initial task) trace s) :
    (∀ rc,s.main = .returned rc → rc = 0 ∨ rc = 1) ∧ (s.main = .returned 0 → Quit b trace) ∧
      (Granted trace ↔ s.main = .killed) ∧ (s.main = .killed → s.task.strict = true ∧ s.task.uid = task.uid ∧ s.task.gid = task.gid) := by
  have way := way_run unconfined run
  exact ⟨way.rc,fun returned => way.quit (by simp [returned]) (by simp [returned]),way.granted,way.user⟩

/-- The daemon had got its signal. -/
theorem endings_daemon : ∃ trace s,Run (step ⟨false,true,false⟩) free (initial user) trace s ∧ s.main = .returned 0 ∧
    Quit ⟨false,true,false⟩ trace ∧ ¬ Granted trace := by
  obtain ⟨trace,s,run,checked⟩ := exists_run_of_check (step ⟨false,true,false⟩) free (initial user)
    (fun s _ => match s.main with | .returned rc => rc = 0 | _ => false)
    (starting ++ .signal :: List.replicate 13 (.main .done)) (by decide +kernel)
  have returned : s.main = .returned 0 := by
    split at checked
    · rename_i rc at_pc
      rw [at_pc,of_decide_eq_true checked]
    · cases checked
  obtain ⟨_,quit,granted,_⟩ := endings rfl run
  refine ⟨trace,s,run,returned,quit returned,fun there => ?_⟩
  have killed := granted.mp there
  rw [returned] at killed
  cases killed

end Nulleye.MainRuns
