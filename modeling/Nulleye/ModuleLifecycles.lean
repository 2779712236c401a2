import Mathlib.Logic.Function.Basic
import Nulleye.CStrings

/-!
The modules between `module_load_all` and `module_unload_all`. Four loops over the registry
call what is not NULL, whether the module was initialised or not, plugins are initialised
and then forgotten, and a worker that was never created is joined.
-/
namespace Nulleye.ModuleLifecycles
open Nulleye.CStrings

/-- `g_run` and `g_thread` of a module: whether there is a thread to join, and whether one was joined that was not there. -/
structure Worker where
  gRun : Bool
  thread : Bool
  misjoined : Bool
  deriving DecidableEq

/-! ### The workers of the built-in modules -/

/-- Starting a worker; where `pthread_create` fails, `g_run` is cleared again. -/
def startWorker (created : Bool) (w : Worker) : Worker := { w with gRun := created, thread := w.thread || created }

/-- Stopping a worker joins its thread. -/
def stopWorker (w : Worker) : Worker := { gRun := false, thread := false, misjoined := w.misjoined || !w.thread }

def aiStart := startWorker
def aiStop := stopWorker
def fiStart := startWorker
def fiStop := stopWorker
def pmStart := startWorker
def pmStop := stopWorker
def nmStart := startWorker
def nmStop := stopWorker
def umStart := startWorker
def umStop := stopWorker

/-- The functions that start and stop the worker of a module: those of the built-in modules, and others without a thread. -/
inductive WorkerFn where
  | ai
  | fi
  | pm
  | nm
  | um
  | other
  deriving DecidableEq

def WorkerFn.start : WorkerFn → Bool → Worker → Worker
  | .ai => aiStart
  | .fi => fiStart
  | .pm => pmStart
  | .nm => nmStart
  | .um => umStart
  | .other => fun _ w => w

def WorkerFn.stop : WorkerFn → Worker → Worker
  | .ai => aiStop
  | .fi => fiStop
  | .pm => pmStop
  | .nm => nmStop
  | .um => umStop
  | .other => id

/-- `nuleye_module_t`: where it lies, its name, and its callbacks; `init` and `fini` are there or NULL. -/
structure Module where
  address : Nat
  name : String
  init : Bool
  fini : Bool
  start : Option WorkerFn
  stop : Option WorkerFn
  deriving DecidableEq

def aiModule : Module := ⟨0,"AIEngine",true,true,some .ai,some .ai⟩
def fileIntegrityModule : Module := ⟨1,"FileIntegrity",true,true,some .fi,some .fi⟩
def processMonitorModule : Module := ⟨2,"ProcessMonitor",true,true,some .pm,some .pm⟩
def networkMonitorModule : Module := ⟨3,"NetworkMonitor",true,true,some .nm,some .nm⟩
def userMonitorModule : Module := ⟨4,"UserMonitor",true,true,some .um,some .um⟩

/-- A call of one of them; `init` with its success. -/
inductive Callback where
  | init (ok : Bool)
  | start
  | stop
  | fini
  deriving DecidableEq

/-- The calls of the callbacks, and the workers. -/
structure System where
  calls : List (Module × Callback)
  workers : Module → Worker

def System.initial : System := ⟨[],fun _ => ⟨false,false,false⟩⟩

/-- An entry of `g_builtins`, with the results of its `init` and of its `pthread_create`. -/
structure Registration where
  module : Module
  initOk : Bool
  created : Bool
  deriving DecidableEq

def moduleRegisterBuiltin (alloc : Bool) (r : Registration) (gBuiltins : List Registration) : List Registration × Int :=
  if alloc then (gBuiltins ++ [r],0) else (gBuiltins,-1)

/-! ### The loops of `core/module.c` -/

/-- Calling a callback, with its effect on the worker. -/
def System.call (m : Module) (c : Callback) (effect : Worker → Worker) (s : System) : System :=
  { calls := s.calls ++ [(m,c)], workers := Function.update s.workers m (effect (s.workers m)) }

/-- A loop over the registry that calls one of the callbacks where it is not NULL. -/
def callAll (present : Module → Bool) (c : Registration → Callback) (effect : Registration → Worker → Worker) :
    List Registration → System → System
  | [], s => s
  | r :: rest, s => callAll present c effect rest (if present r.module then s.call r.module (c r) (effect r) else s)

/-- An entry of the plugin directory: whether it is a regular file or a link, its name, whether `dlopen` succeeds, what
    `nulleye_module_get` returns if there is one, and the result of the module's `init`. -/
structure PluginEntry where
  regular : Bool
  dName : Mem
  dlopen : Bool
  getmod : Option (Option Module)
  initOk : Bool
  deriving DecidableEq

def PluginEntry.isPlugin (ent : PluginEntry) : Bool := ent.regular && ((strstr (ascii ".so") (ent.dName ++ [0])).join).isSome

def loadPlugins : List PluginEntry → System → System
  | [], s => s
  | ent :: rest, s =>
    if !ent.isPlugin then loadPlugins rest s
    else if !ent.dlopen then loadPlugins rest s
    else
      match ent.getmod with
      | none => loadPlugins rest s
      | some none => loadPlugins rest s
      | some (some pm) => loadPlugins rest (if pm.init then s.call pm (.init ent.initOk) id else s)

def moduleLoadAll (gBuiltins : List Registration) (dir : Option (List PluginEntry)) (s : System) : System :=
  let s := callAll Module.init (fun r => .init r.initOk) (fun _ => id) gBuiltins s
  match dir with
  | none => s
  | some entries => loadPlugins entries s

def Registration.startWorker (r : Registration) : Worker → Worker := (r.module.start.getD .other).start r.created

def Registration.stopWorker (r : Registration) : Worker → Worker := (r.module.stop.getD .other).stop

def moduleStartWorkers : List Registration → System → System :=
  callAll (fun m => m.start.isSome) (fun _ => .start) Registration.startWorker

def moduleStopWorkers : List Registration → System → System :=
  callAll (fun m => m.stop.isSome) (fun _ => .stop) Registration.stopWorker

def moduleUnloadAll : List Registration → System → System := callAll Module.fini (fun _ => .fini) (fun _ => id)

/-- The calls of `main`. -/
def mainRun (gBuiltins : List Registration) (dir : Option (List PluginEntry)) : System :=
  moduleUnloadAll gBuiltins (moduleStopWorkers gBuiltins (moduleStartWorkers gBuiltins (moduleLoadAll gBuiltins dir .initial)))

/-- The registry of `main`. -/
def mainBuiltins (alloc initOk created : Module → Bool) : List Registration :=
  [aiModule,fileIntegrityModule,processMonitorModule,networkMonitorModule,userMonitorModule].foldl
    (fun gBuiltins m => (moduleRegisterBuiltin (alloc m) ⟨m,initOk m,created m⟩ gBuiltins).1) []

/-! ### Lifecycles -/

/-- The callbacks that a module sees. -/
def System.seen (s : System) (m : Module) : List Callback := (s.calls.filter fun call => call.1 = m).map Prod.snd

/-- `init` fails and nothing comes after it. -/
def Failed (m : Module) (seen : List Callback) : Prop := m.init = true ∧ seen = [.init false]

/-- `init` succeeds, and `start`, `stop` and `fini` are called once each, as far as they are there. -/
def Lived (m : Module) (seen : List Callback) : Prop :=
  seen = (if m.init then [.init true] else []) ++
    ((if m.start.isSome then [.start] else []) ++ ((if m.stop.isSome then [.stop] else []) ++ (if m.fini then [.fini] else [])))

/-- The plugins that are loaded, with the results of their `init`. -/
def plugins (dir : Option (List PluginEntry)) : List (Module × Bool) :=
  ((dir.getD []).filter fun ent => ent.isPlugin && ent.dlopen).filterMap fun ent => (ent.getmod.join).map (·,ent.initOk)

/-- The modules of a run. -/
def modules (gBuiltins : List Registration) (dir : Option (List PluginEntry)) : List Module :=
  gBuiltins.map Registration.module ++ (plugins dir).map Prod.fst

/-- Every module has one of the two lifecycles, and only threads that were created are joined. -/
def Orderly (gBuiltins : List Registration) (dir : Option (List PluginEntry)) : Prop :=
  (∀ m ∈ modules gBuiltins dir,
      Xor (Failed m ((mainRun gBuiltins dir).seen m)) (Lived m ((mainRun gBuiltins dir).seen m))) ∧
    ∀ r ∈ gBuiltins,((mainRun gBuiltins dir).workers r.module).misjoined = false

/-- The registrations of a module. -/
def registrations (gBuiltins : List Registration) (m : Module) : List Registration := gBuiltins.filter fun r => r.module = m

/-- The results of the calls of its `init`. -/
def initResults (gBuiltins : List Registration) (dir : Option (List PluginEntry)) (m : Module) : List Bool :=
  (registrations gBuiltins m).map Registration.initOk ++ ((plugins dir).filter fun p => p.1 = m).map Prod.snd

/-- The callback joins a thread. -/
def Registration.joins (r : Registration) : Prop := ∃ f ∈ r.module.stop,f ≠ .other

/-- A thread was created for it. -/
def Registration.threaded (r : Registration) : Prop := r.created = true ∧ ∃ f ∈ r.module.start,f ≠ .other

/-- A module with a callback that comes after `init`. -/
def Module.works (m : Module) : Prop := m.start.isSome = true ∨ m.stop.isSome = true ∨ m.fini = true

/-- Its only `init` fails and nothing is registered that could be called later, or all is called once. -/
def Fits (gBuiltins : List Registration) (dir : Option (List PluginEntry)) (m : Module) : Prop :=
  m.init = true ∧ initResults gBuiltins dir m = [false] ∧ (m.works → registrations gBuiltins m = []) ∨
    (m.init = true → initResults gBuiltins dir m = [true]) ∧ (m.works → (registrations gBuiltins m).length = 1)

/-! ### What a module sees -/

theorem seen_call (m other : Module) (c : Callback) (effect : Worker → Worker) (s : System) :
    (s.call m c effect).seen other = s.seen other ++ if m = other then [c] else [] := by
  by_cases same : m = other <;> simp [System.seen,System.call,List.filter_append,same]

theorem workers_call (m other : Module) (c : Callback) (effect : Worker → Worker) (s : System) :
    (s.call m c effect).workers other = if m = other then effect (s.workers other) else s.workers other := by
  by_cases same : m = other
  · subst same
    simp [System.call]
  · simp [System.call,same,Function.update_of_ne (Ne.symm same)]

theorem registrations_cons (r : Registration) (rest : List Registration) (m : Module) :
    registrations (r :: rest) m = if r.module = m then r :: registrations rest m else registrations rest m := by
  by_cases same : r.module = m <;> simp [registrations,same]

/-- What one module sees of a loop over the built-in modules is folded over its own registrations. -/
theorem callAll_fold {α : Type} (seen_by : System → α) (next : α → Registration → α) {c : Registration → Callback}
    {effect : Registration → Worker → Worker} {m : Module}
    (one : ∀ s r,seen_by (s.call r.module (c r) (effect r)) = if r.module = m then next (seen_by s) r else seen_by s)
    (present : Module → Bool) (gBuiltins : List Registration) (s : System) :
    seen_by (callAll present c effect gBuiltins s) =
      if present m then (registrations gBuiltins m).foldl next (seen_by s) else seen_by s := by
  induction gBuiltins generalizing s with
  | nil => simp [callAll,registrations]
  | cons r rest ih =>
    unfold callAll
    rw [ih,registrations_cons]
    by_cases same : r.module = m
    · subst same
      cases there : present r.module <;> simp [one]
    · cases there : present r.module <;> simp [one,same]

theorem seen_callAll (present : Module → Bool) (c : Registration → Callback) (effect : Registration → Worker → Worker)
    (gBuiltins : List Registration) (s : System) (m : Module) :
    (callAll present c effect gBuiltins s).seen m =
      s.seen m ++ if present m then (registrations gBuiltins m).map c else [] := by
  have one : ∀ (s : System) (r : Registration),(s.call r.module (c r) (effect r)).seen m =
      if r.module = m then s.seen m ++ [c r] else s.seen m := by
    intro s r
    rw [seen_call]
    split_ifs <;> simp
  rw [callAll_fold (System.seen · m) (fun seen r => seen ++ [c r]) one]
  split_ifs
  · rw [List.foldl_append_eq_append,← List.flatMap_def,← List.map_eq_flatMap]
  · rw [List.append_nil]

theorem workers_callAll (present : Module → Bool) (c : Registration → Callback) (effect : Registration → Worker → Worker)
    (gBuiltins : List Registration) (s : System) (m : Module) :
    (callAll present c effect gBuiltins s).workers m =
      if present m then (registrations gBuiltins m).foldl (fun w r => effect r w) (s.workers m) else s.workers m := by
  refine callAll_fold (System.workers · m) (fun w r => effect r w) ?_ present gBuiltins s
  intro s r
  exact workers_call r.module m (c r) (effect r) s

theorem plugins_cons (ent : PluginEntry) (rest : List PluginEntry) :
    plugins (some (ent :: rest)) =
      (if ent.isPlugin && ent.dlopen then (ent.getmod.join.map (·,ent.initOk)).toList else []) ++ plugins (some rest) := by
  unfold plugins
  cases loaded : ent.isPlugin && ent.dlopen with
  | false => simp [loaded]
  | true => cases pm : ent.getmod.join <;> simp [loaded,pm]

theorem loadPlugins_eq (entries : List PluginEntry) (s : System) (m : Module) :
    (loadPlugins entries s).seen m =
        s.seen m ++ (if m.init then (((plugins (some entries)).filter fun p => p.1 = m).map Prod.snd).map .init else []) ∧
      (loadPlugins entries s).workers m = s.workers m := by
  induction entries generalizing s with
  | nil => simp [loadPlugins,plugins]
  | cons ent rest ih =>
    rw [plugins_cons]
    unfold loadPlugins
    cases plugin : ent.isPlugin with
    | false => simpa using ih s
    | true =>
      cases opened : ent.dlopen with
      | false => simpa using ih s
      | true =>
        cases getmod : ent.getmod with
        | none => simpa [getmod] using ih s
        | some found =>
          cases found with
          | none => simpa [getmod] using ih s
          | some pm =>
            by_cases same : pm = m
            · subst same
              cases init : pm.init <;> simp [init,ih,seen_call,workers_call]
            · cases init : pm.init <;> simp [init,ih,seen_call,workers_call,same]

/-- The callbacks that a module sees are those that it has, each as often as it is registered. -/
theorem seen_mainRun (gBuiltins : List Registration) (dir : Option (List PluginEntry)) (m : Module) :
    (mainRun gBuiltins dir).seen m =
      (if m.init then (initResults gBuiltins dir m).map .init else []) ++
        ((if m.start.isSome then (registrations gBuiltins m).map fun _ => .start else []) ++
          ((if m.stop.isSome then (registrations gBuiltins m).map fun _ => .stop else []) ++
            (if m.fini then (registrations gBuiltins m).map fun _ => .fini else []))) := by
  have loaded : (moduleLoadAll gBuiltins dir .initial).seen m =
      if m.init then (initResults gBuiltins dir m).map .init else [] := by
    have initial : System.initial.seen m = [] := rfl
    unfold moduleLoadAll initResults
    cases dir with
    | none => cases init : m.init <;> simp [seen_callAll,initial,init,plugins]
    | some entries => cases init : m.init <;> simp [seen_callAll,loadPlugins_eq,initial,init]
  unfold mainRun moduleUnloadAll moduleStopWorkers moduleStartWorkers
  rw [seen_callAll,seen_callAll,seen_callAll,loaded]
  simp only [List.append_assoc]

/-! ### The shapes of a lifecycle -/

/-- Two lists whose first parts are told from their rests by a property of the elements. -/
theorem append_eq_append {α : Type} {front front' back back' : List α} (p : α → Bool) (inside : ∀ x ∈ front,p x = true)
    (inside' : ∀ x ∈ front',p x = true) (outside : ∀ x ∈ back,p x = false) (outside' : ∀ x ∈ back',p x = false) :
    front ++ back = front' ++ back' ↔ front = front' ∧ back = back' := by
  constructor
  · intro same
    have fronts := congrArg (List.filter p) same
    rw [List.filter_append,List.filter_append,List.filter_eq_self.mpr inside,List.filter_eq_self.mpr inside',
      List.filter_eq_nil_iff.mpr (by simpa using outside),List.filter_eq_nil_iff.mpr (by simpa using outside')] at fronts
    simp only [List.append_nil] at fronts
    exact ⟨fronts,List.append_cancel_left (fronts ▸ same)⟩
  · rintro ⟨rfl,rfl⟩
    rfl

/-- The callbacks of a module in the order of the loops. -/
def stages (m : Module) (results : List Bool) (n : Nat) : List Callback :=
  (if m.init then results.map .init else []) ++
    ((if m.start.isSome then List.replicate n .start else []) ++
      ((if m.stop.isSome then List.replicate n .stop else []) ++ (if m.fini then List.replicate n .fini else [])))

theorem mem_if {α : Type} {b : Bool} {l : List α} {x : α} (member : x ∈ if b then l else []) : x ∈ l := by
  cases b with
  | false => cases member
  | true => exact member

theorem replicate_if {α : Type} {b : Bool} {n n' : Nat} {x : α} :
    (if b then List.replicate n x else []) = (if b then List.replicate n' x else []) ↔ (b = true → n = n') := by
  cases b <;> simp [(List.replicate_left_injective x).eq_iff]

theorem results_if {b : Bool} {results results' : List Bool} :
    (if b then results.map Callback.init else []) = (if b then results'.map Callback.init else []) ↔
      (b = true → results = results') := by
  have injective : Function.Injective Callback.init := fun _ _ same => Callback.init.inj same
  cases b <;> simp [(List.map_injective_iff.mpr injective).eq_iff]

/-- The position of the loop that calls a callback. -/
def Callback.stage : Callback → Nat
  | .init _ => 0
  | .start => 1
  | .stop => 2
  | .fini => 3

theorem stages_eq {m : Module} {results results' : List Bool} {n n' : Nat} :
    stages m results n = stages m results' n' ↔ (m.init = true → results = results') ∧ (m.works → n = n') := by
  have inits : ∀ results : List Bool,∀ x ∈ (if m.init then results.map Callback.init else []),x.stage = 0 := by
    intro results x member
    obtain ⟨ok,_,rfl⟩ := List.mem_map.mp (mem_if member)
    rfl
  have calls : ∀ (b : Bool) (n : Nat) (c : Callback),∀ x ∈ (if b then List.replicate n c else []),x.stage = c.stage := by
    intro b n c x member
    rw [List.eq_of_mem_replicate (mem_if member)]
  unfold stages Module.works
  rw [append_eq_append (fun c => c.stage = 0),append_eq_append (fun c => c.stage = 1),append_eq_append (fun c => c.stage = 2),
    results_if,replicate_if,replicate_if,replicate_if,or_imp,or_imp]
  -- what is left are the stages of the parts
  all_goals grind [Callback.stage]

theorem stages_shapes (m : Module) (results : List Bool) (n : Nat) :
    (Failed m (stages m results n) ↔ m.init = true ∧ results = [false] ∧ (m.works → n = 0)) ∧
      (Lived m (stages m results n) ↔ (m.init = true → results = [true]) ∧ (m.works → n = 1)) := by
  constructor
  · have failed : Failed m (stages m results n) ↔ m.init = true ∧ stages m results n = stages m [false] 0 := by
      unfold Failed
      refine and_congr_right fun init => ?_
      simp [stages,init]
    rw [failed,stages_eq]
    exact and_congr_right fun init => by simp [init]
  · have lived : Lived m (stages m results n) ↔ stages m results n = stages m [true] 1 := Iff.rfl
    rw [lived,stages_eq]

theorem seen_stages (gBuiltins : List Registration) (dir : Option (List PluginEntry)) (m : Module) :
    (mainRun gBuiltins dir).seen m = stages m (initResults gBuiltins dir m) (registrations gBuiltins m).length := by
  rw [seen_mainRun]
  simp only [stages,List.map_const']

/-- The two lifecycles exclude each other. -/
theorem shape_iff (gBuiltins : List Registration) (dir : Option (List PluginEntry)) (m : Module) :
    Xor (Failed m ((mainRun gBuiltins dir).seen m)) (Lived m ((mainRun gBuiltins dir).seen m)) ↔ Fits gBuiltins dir m := by
  obtain ⟨failed,lived⟩ := stages_shapes m (initResults gBuiltins dir m) (registrations gBuiltins m).length
  rw [seen_stages,failed,lived,Fits,← List.length_eq_zero_iff]
  constructor
  · rintro (⟨fails,_⟩ | ⟨lives,_⟩)
    · exact .inl fails
    · exact .inr lives
  · have apart : ¬ ((m.init = true ∧ initResults gBuiltins dir m = [false] ∧ (m.works → (registrations gBuiltins m).length = 0)) ∧
        (m.init = true → initResults gBuiltins dir m = [true]) ∧ (m.works → (registrations gBuiltins m).length = 1)) := by
      rintro ⟨⟨init,fails,_⟩,lives,_⟩
      rw [lives init] at fails
      cases fails
    rintro (fails | lives)
    · exact .inl ⟨fails,fun lives => apart ⟨fails,lives⟩⟩
    · exact .inr ⟨lives,fun fails => apart ⟨fails,lives⟩⟩

/-! ### The threads -/

theorem start_worker (f : WorkerFn) (created : Bool) (w : Worker) :
    (f.start created w).thread = (w.thread || (f ≠ .other && created)) ∧ (f.start created w).misjoined = w.misjoined := by
  cases f <;> simp [WorkerFn.start,aiStart,fiStart,pmStart,nmStart,umStart,startWorker]

theorem stop_worker (f : WorkerFn) (w : Worker) :
    (f.stop w).misjoined = (w.misjoined || (f ≠ .other && !w.thread)) := by
  cases f <;> simp [WorkerFn.stop,aiStop,fiStop,pmStop,nmStop,umStop,stopWorker]

theorem foldl_same {α β : Type} (l : List α) (w : β) : l.foldl (fun w _ => w) w = w := by
  induction l with
  | nil => rfl
  | cons _ rest ih => exact ih

/-- The worker of a module after the loops over the registry. -/
theorem workers_mainRun (gBuiltins : List Registration) (dir : Option (List PluginEntry)) (m : Module) :
    (mainRun gBuiltins dir).workers m =
      (if m.stop.isSome then (registrations gBuiltins m).foldl (fun w r => r.stopWorker w) else id)
        ((if m.start.isSome then (registrations gBuiltins m).foldl (fun w r => r.startWorker w) else id) ⟨false,false,false⟩) := by
  have loaded : (moduleLoadAll gBuiltins dir .initial).workers m = ⟨false,false,false⟩ := by
    unfold moduleLoadAll
    cases dir <;> simp [workers_callAll,loadPlugins_eq,System.initial]
  unfold mainRun moduleUnloadAll moduleStopWorkers moduleStartWorkers
  rw [workers_callAll,workers_callAll,workers_callAll,loaded]
  simp only [id,foldl_same,ite_self]
  cases m.stop.isSome <;> cases m.start.isSome <;> rfl

/-- The worker of a module that is registered once. -/
theorem misjoined_iff {gBuiltins : List Registration} {dir : Option (List PluginEntry)} {r : Registration} (member : r ∈ gBuiltins)
    (fits : Fits gBuiltins dir r.module) :
    ((mainRun gBuiltins dir).workers r.module).misjoined = false ↔ (r.joins → r.threaded) := by
  have own : r ∈ registrations gBuiltins r.module := List.mem_filter.mpr ⟨member,by simp⟩
  rw [workers_mainRun]
  by_cases works : r.module.works
  · have once : (registrations gBuiltins r.module).length = 1 := by
      rcases fits with ⟨_,_,absent⟩ | ⟨_,once⟩
      · rw [absent works] at own
        cases own
      · exact once works
    obtain ⟨alone,only⟩ := List.length_eq_one_iff.mp once
    rw [only] at own ⊢
    obtain rfl := List.mem_singleton.mp own
    unfold Registration.joins Registration.threaded
    cases stop : r.module.stop with
    | none => cases start : r.module.start <;> simp [Registration.startWorker,start,start_worker]
    | some f =>
      cases start : r.module.start with
      | none => simp [Registration.stopWorker,stop,stop_worker]
      | some g =>
        simp [Registration.startWorker,Registration.stopWorker,start,stop,start_worker,stop_worker,and_comm]
  · have idle : r.module.stop = none ∧ r.module.start = none := by
      simp only [Module.works,not_or,Bool.not_eq_true,Option.isSome_eq_false_iff,Option.isNone_iff_eq_none] at works
      exact ⟨works.2.1,works.1⟩
    simp [Registration.joins,idle.1,idle.2]

/-- The lifecycles of all modules are orderly exactly if each module fits and threads are created for those that are joined. -/
theorem lifecycles_orderly (gBuiltins : List Registration) (dir : Option (List PluginEntry)) :
    Orderly gBuiltins dir ↔
      (∀ m ∈ modules gBuiltins dir,Fits gBuiltins dir m) ∧ ∀ r ∈ gBuiltins,r.joins → r.threaded := by
  unfold Orderly
  simp only [shape_iff]
  refine and_congr_right fun fits => forall₂_congr fun r member => ?_
  exact misjoined_iff member (fits r.module (List.mem_append_left _ (List.mem_map_of_mem member)))

/-- The module of `plugins/example_plugin.c`. -/
def examplePlugin : Module := ⟨5,"example_plugin",true,true,some .other,some .other⟩

/-- The plugin directory with that plugin. -/
def exampleDir : List PluginEntry := [⟨true,ascii "example_plugin.so",true,some (some examplePlugin),true⟩]

/-- The example plugin is initialised, and never started, stopped or finished. -/
theorem plugin_forgotten : ¬ ∀ gBuiltins dir,Orderly gBuiltins dir := by
  intro always
  have shape := (always (mainBuiltins (fun _ => true) (fun _ => true) fun _ => true) (some exampleDir)).1 examplePlugin (by decide)
  have seen : (mainRun (mainBuiltins (fun _ => true) (fun _ => true) fun _ => true) (some exampleDir)).seen examplePlugin =
      [.init true] := by decide
  rw [seen] at shape
  revert shape
  unfold Failed Lived
  decide

end Nulleye.ModuleLifecycles
