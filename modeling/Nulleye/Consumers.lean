import Nulleye.CStrings
import Nulleye.Events
import Nulleye.Models
import Nulleye.SharedQueues

/-!
The four loops that consume events from the bus. They share one queue, so an event
that one loop takes is seen by no other: each subsystem records what it is to record
of its own share of the published events.
-/
namespace Nulleye.Consumers
open Nulleye.CStrings Nulleye.Codecs Nulleye.Events Nulleye.Models Nulleye.Runs Nulleye.SharedQueues

/-- `ai_thread`, `proc_thread`, `net_thread` and the `consumer` of the TUI. -/
inductive Loop where
  | ai
  | proc
  | net
  | tui
  deriving DecidableEq

/-- The globals of the loops, and the calls by which they record something, oldest first. -/
structure Records where
  gModel : Iforest
  /-- `wcount`. -/
  wcount : Nat
  /-- The events that were scored, each with its score. -/
  scored : List (NuleyeEvent × Int)
  /-- The events for which `db_insert_alert` was called. -/
  alerts : List NuleyeEvent
  /-- The models for which `ai_model_save` was called. -/
  saved : List Iforest
  /-- The calls of `db_insert_event`: the module, and the event. -/
  inserted : List (String × NuleyeEvent)
  gEvents : Vector NuleyeEvent 1024
  gEhead : Nat

/-- What `iforest_init` gets from `calloc` and, one after the other, from `rand`. -/
structure Random where
  calloc : Bool
  rand : Nat → Nat

/-- `iforest_init`. -/
def iforestInit (r : Random) (nTrees maxDepth : Int32) : Option Iforest :=
  if 0 < nTrees ∧ !r.calloc then none else
    some ⟨nTrees,maxDepth,(List.range nTrees.toNatClampNeg).map fun i =>
      ⟨Int32.ofNat (r.rand (2 * i) % 6),Int32.ofNat (r.rand (2 * i + 1) % 256)⟩⟩

/-- The bytes of an event from `path` on. -/
def pathAt (ev : NuleyeEvent) : Mem := ev.path.toList ++ ev.payload.toList ++ leBytes 8 ev.payloadLen.toNat

/-- `ai_extract_features`; `hour` is what `localtime_r` finds for a number of seconds. -/
def aiExtractFeatures (hour : UInt64 → Int32) (ev : NuleyeEvent) : Option (List Int32) := do
  let comm ← cstr (ev.comm.toList ++ pathAt ev)
  let path ← cstr (pathAt ev)
  return [(ev.pid &&& 0xFFF).toInt32,(ev.ppid &&& 0xFFF).toInt32,ev.uid.toInt32,Int32.ofNat comm.length,
    Int32.ofNat path.length,hour (ev.ts / 1000000000)]

/-- What `ai_thread` does with an event. -/
def aiThread (hour : UInt64 → Int32) (random : Random) (ev : NuleyeEvent) (r : Records) : Option Records := do
  let f ← aiExtractFeatures hour ev
  let wcount := if r.wcount < 10000 then r.wcount + 1 else r.wcount
  let score ← iforestScore (some r.gModel) (some f) featureCount
  let r := { r with
    wcount := wcount
    scored := r.scored ++ [(ev,score)]
    alerts := if 85 ≤ score then r.alerts ++ [ev] else r.alerts }
  if wcount = 10000 then
    (iforestInit random 32 8).map fun model => { r with gModel := model, saved := r.saved ++ [model], wcount := 0 }
  else some r

/-- What `proc_thread` does with an event. -/
def procThread (ev : NuleyeEvent) (r : Records) : Records :=
  if ev.module = NYE_MODULE_EBPF then { r with inserted := r.inserted ++ [("process_monitor",ev)] } else r

/-- What `net_thread` does with an event. -/
def netThread (ev : NuleyeEvent) (r : Records) : Records :=
  if ev.module = NYE_MODULE_EBPF then
    if ev.pathless then { r with inserted := r.inserted ++ [("network_monitor",ev)] } else r
  else r

/-- What `consumer` does with an event; `g_ehead` is an `int`. -/
def consumer (ev : NuleyeEvent) (r : Records) : Option Records :=
  if r.gEhead + 1 < 2 ^ 31 then
    some { r with
      gEvents := r.gEvents.set (r.gEhead % 1024) ev (Nat.mod_lt _ (by decide))
      gEhead := r.gEhead + 1 }
  else none

/-- The body of a loop behind `event_bus_consume`. -/
def body (hour : UInt64 → Int32) : Loop → Random → NuleyeEvent → Records → Option Records
  | .ai,random,ev,r => aiThread hour random ev r
  | .proc,_,ev,r => some (procThread ev r)
  | .net,_,ev,r => some (netThread ev r)
  | .tui,_,ev,r => consumer ev r

/-- The program before the first event. -/
def initial (model : Iforest) : World NuleyeEvent Loop Records :=
  ⟨[],fun _ => none,⟨model,0,[],[],[],[],Vector.replicate 1024 zeroEvent,0⟩⟩

/-- The steps of the producers and of the loops on a bus with `capacity` slots. -/
abbrev steps (capacity : Nat) (hour : UInt64 → Int32) := step capacity (body hour)

/-- The kernel events among these. -/
def kernelEvents (evs : List NuleyeEvent) : List NuleyeEvent := evs.filter fun ev => ev.module = NYE_MODULE_EBPF

/-- The events with an empty path among these. -/
def pathlessEvents (evs : List NuleyeEvent) : List NuleyeEvent := evs.filter NuleyeEvent.pathless

/-- Every subsystem has recorded what it is to record of the events `evs`. -/
def EverySeen (evs : List NuleyeEvent) (r : Records) : Prop :=
  (∀ ev ∈ evs,ev ∈ r.scored.map Prod.fst) ∧
    (∀ ev ∈ kernelEvents evs,ev ∈ share "process_monitor" r.inserted) ∧
    ∀ ev ∈ pathlessEvents (kernelEvents evs),ev ∈ share "network_monitor" r.inserted

/-! ### One event -/

/-- What the loops have recorded of the events that they handled. -/
structure Recorded (done : List (Loop × NuleyeEvent)) (r : Records) : Prop where
  scored : r.scored.map Prod.fst = share .ai done
  processes : share "process_monitor" r.inserted = kernelEvents (share .proc done)
  network : share "network_monitor" r.inserted = pathlessEvents (kernelEvents (share .net done))

/-- An event of the AI loop is scored; what the other loops record is left alone. -/
theorem aiThread_records {hour : UInt64 → Int32} {random : Random} {ev : NuleyeEvent} {r r' : Records}
    (ran : aiThread hour random ev r = some r') :
    r'.scored.map Prod.fst = r.scored.map Prod.fst ++ [ev] ∧ r'.inserted = r.inserted ∧
      r'.gEvents = r.gEvents ∧ r'.gEhead = r.gEhead := by
  obtain ⟨f,_,ran⟩ := Option.bind_eq_some_iff.mp ran
  obtain ⟨score,_,ran⟩ := Option.bind_eq_some_iff.mp ran
  dsimp only at ran
  by_cases full : (if r.wcount < 10000 then r.wcount + 1 else r.wcount) = 10000
  · rw [if_pos full] at ran
    obtain ⟨model,_,rfl⟩ := Option.map_eq_some_iff.mp ran
    simp
  · rw [if_neg full] at ran
    obtain rfl := Option.some.inj ran
    simp

theorem body_recorded {hour : UInt64 → Int32} {done : List (Loop × NuleyeEvent)} {l : Loop} {random : Random}
    {ev : NuleyeEvent} {r r' : Records} (recorded : Recorded done r) (ran : body hour l random ev r = some r') :
    Recorded (done ++ [(l,ev)]) r' := by
  obtain ⟨scored,processes,network⟩ := recorded
  cases l with
  | ai =>
    obtain ⟨one_more,same,_⟩ := aiThread_records ran
    constructor
    · rw [one_more,scored]
      simp
    · simpa [same] using processes
    · simpa [same] using network
  | proc =>
    cases ran
    by_cases kernel : ev.module = NYE_MODULE_EBPF <;>
      constructor <;> simp [procThread,kernel,kernelEvents,scored,processes,network]
  | net =>
    cases ran
    by_cases kernel : ev.module = NYE_MODULE_EBPF <;> cases empty : ev.pathless <;>
      constructor <;> simp [netThread,kernel,empty,kernelEvents,pathlessEvents,scored,processes,network]
  | tui =>
    simp only [body,consumer] at ran
    split_ifs at ran
    cases ran
    constructor <;> simp [scored,processes,network]

/-! ### Every schedule -/

/-- In every drained state each published event was taken by one of the loops, in the order
    of publication, and each subsystem has recorded what it is to record of its share. -/
theorem shares_recorded {capacity : Nat} {hour : UInt64 → Int32} {model : Iforest} {trace : List (Label NuleyeEvent Loop)}
    {t : World NuleyeEvent Loop Records} (run : Run (steps capacity hour) free (initial model) trace t)
    (drained : Drained t) :
    (taken trace).map Prod.snd = published trace ∧
      t.records.scored.map Prod.fst = share .ai (taken trace) ∧
      share "process_monitor" t.records.inserted = kernelEvents (share .proc (taken trace)) ∧
      share "network_monitor" t.records.inserted = pathlessEvents (kernelEvents (share .net (taken trace))) := by
  obtain ⟨ordered,shares⟩ := drained_shares run ⟨rfl,fun _ => rfl⟩ drained
  obtain ⟨scored,processes,network⟩ := records_invariant (I := Recorded) ⟨rfl,rfl,rfl⟩
    (fun _ _ _ _ _ _ recorded ran => body_recorded recorded ran) run
  rw [shares] at scored processes network
  exact ⟨ordered,scored,processes,network⟩

/-- A kernel event with a path. -/
private def opened : NuleyeEvent :=
  { zeroEvent with module := NYE_MODULE_EBPF, path := overwrite zeroEvent.path (ascii "/tmp") }

private def oneTree : Iforest := ⟨1,8,[⟨0,0⟩]⟩

private def toProc : List (Label NuleyeEvent Loop) := [.published opened,.took .proc opened,.handled .proc opened]

private theorem toProc_run (hour : UInt64 → Int32) : ∃ t,Run (steps 1 hour) free (initial oneTree) toProc t ∧ Drained t ∧
    t.records.scored = [] ∧ t.records.inserted = [("process_monitor",opened)] := by
  have executed : exec (steps 1 hour) free (initial oneTree) [.publish opened,.consume .proc,.handle .proc ⟨true,id⟩] =
    some (_,toProc) := rfl
  refine ⟨_,run_of_exec executed,⟨rfl,?_⟩,rfl,rfl⟩
  intro l
  cases l <;> rfl

/-- A kernel event without a path. -/
private def connected : NuleyeEvent := { zeroEvent with module := NYE_MODULE_EBPF, pid := 7 }

/-- An event of another module. -/
private def hashed : NuleyeEvent := { zeroEvent with module := 2 }

/-- Of five events each monitor, the engine and the interface get their share, in the order of publication. -/
theorem shares_recorded_proc : ∃ trace t,Run (steps 4 fun _ => 0) free (initial oneTree) trace t ∧
    published trace = [opened,hashed,connected,connected,opened] ∧ t.records.scored.map Prod.fst = [hashed] ∧
    share "process_monitor" t.records.inserted = [opened,opened] ∧ share "network_monitor" t.records.inserted = [connected] := by
  have executed : exec (steps 4 fun _ => 0) free (initial oneTree)
    [.publish opened,.publish hashed,.consume .proc,.publish connected,.consume .ai,.handle .ai ⟨true,id⟩,.publish connected,
      .consume .net,.consume .tui,.handle .net ⟨true,id⟩,.handle .tui ⟨true,id⟩,.handle .proc ⟨true,id⟩,.publish opened,
      .consume .proc,.handle .proc ⟨true,id⟩] = some (_,_) := rfl
  have run := run_of_exec executed
  obtain ⟨_,scored,processes,network⟩ := shares_recorded run ⟨rfl,fun l => by cases l <;> rfl⟩
  exact ⟨_,_,run,rfl,scored,processes,network⟩

/-- An event that `proc_thread` takes is never scored. -/
theorem taken_event_unscored :
    ¬ ∀ (trace : List (Label NuleyeEvent Loop)) (t : World NuleyeEvent Loop Records),
      Run (steps 1 fun _ => 0) free (initial oneTree) trace t → Drained t → EverySeen (published trace) t.records := by
  intro always
  obtain ⟨t,run,drained,unscored,_⟩ := toProc_run fun _ => 0
  have seen := (always toProc t run drained).1 opened (List.mem_singleton_self _)
  rw [unscored] at seen
  cases seen

end Nulleye.Consumers
