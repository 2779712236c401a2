import Nulleye.Consumers
import Nulleye.KernelEvents
import Mathlib.Data.List.Perm.Subperm

/-!
Kernel records on their way to the rows of the database. The monitors store the bytes of
an event as they lie in memory. What a row says is exactly the time, the process, its user
and the two strings of the record: the parent, the group, the result and the program that
made the record are in no row.
-/
namespace Nulleye.TelemetryRows
open Nulleye.CStrings Nulleye.Codecs Nulleye.Events Nulleye.Models Nulleye.Runs Nulleye.SharedQueues Nulleye.Consumers
open Nulleye.KernelEvents

/-- `nuleye_event_t` in memory. -/
def nuleyeEvent : Codec NuleyeEvent :=
  (uint64.pair (uint32.pair (uint32.pair (uint32.pair (uint32.pair (uint32.pair (uint32.pair
    ((byteArray 16).pair ((byteArray 256).pair ((byteArray 256).pair uint64)))))))))).via
    (fun ev => (ev.ts,ev.module,ev.type,ev.pid,ev.ppid,ev.uid,ev.gid,ev.comm,ev.path,ev.payload,ev.payloadLen))
    (fun x => ⟨x.1,x.2.1,x.2.2.1,x.2.2.2.1,x.2.2.2.2.1,x.2.2.2.2.2.1,x.2.2.2.2.2.2.1,x.2.2.2.2.2.2.2.1,x.2.2.2.2.2.2.2.2.1,
      x.2.2.2.2.2.2.2.2.2.1,x.2.2.2.2.2.2.2.2.2.2⟩)
    fun _ => rfl

/-- `sizeof(nuleye_event_t)`. -/
theorem nuleyeEvent_size : nuleyeEvent.size = 568 := rfl

/-- What a monitor gives the database for its rows: the calls of `db_insert_event(&ev, sizeof(ev), module)`. -/
def blobs (module : String) (r : Records) : List (List UInt8) := (share module r.inserted).map nuleyeEvent.encode

/-! ### What a row says -/

/-- What a record says: the time, the process, its user and its strings, as far as they are copied. -/
structure Saying where
  ts : UInt64
  pid : UInt32
  uid : UInt32
  comm : Mem
  path : Mem

/-- `behind` is the memory behind `e->filename`. -/
def said (e : BpfEvent) (behind : Mem) : Saying :=
  ⟨e.ts,e.pid,e.uid,(text e.comm.toList).take 15,(text (e.filename.toList ++ behind)).take 255⟩

/-- The event with what was said. -/
def Saying.event (s : Saying) : NuleyeEvent :=
  { zeroEvent with
    ts := s.ts
    module := NYE_MODULE_EBPF
    pid := s.pid
    uid := s.uid
    comm := overwrite zeroEvent.comm (padded 15 s.comm)
    path := overwrite zeroEvent.path (padded 255 s.path) }

/-- What the loader publishes for a record is made from what the record says. -/
theorem rbEvent_said {e : BpfEvent} {behind : Mem} {ev : NuleyeEvent} (built : rbEvent e behind = some ev) :
    ev = (said e behind).event := by
  obtain ⟨comm,comm_copied,built⟩ := Option.bind_eq_some_iff.mp built
  obtain ⟨path,path_copied,built⟩ := Option.bind_eq_some_iff.mp built
  cases built
  rw [strncpy_eq comm_copied,strncpy_eq path_copied]
  rfl

/-- The event determines what was said. -/
theorem event_inj {s s' : Saying} (plain : 0 ∉ s.comm ∧ 0 ∉ s.path) (plain' : 0 ∉ s'.comm ∧ 0 ∉ s'.path)
    (short : s.comm.length ≤ 15 ∧ s.path.length ≤ 255) (short' : s'.comm.length ≤ 15 ∧ s'.path.length ≤ 255)
    (same : s.event = s'.event) : s = s' := by
  simp only [Saying.event,NuleyeEvent.mk.injEq] at same
  obtain ⟨ts,-,-,pid,-,uid,-,comms,paths,-⟩ := same
  have comm := overwrite_padded_inj _ (Nat.le_succ 15) plain.1 plain'.1 short.1 short'.1 comms
  have path := overwrite_padded_inj _ (Nat.le_succ 255) plain.2 plain'.2 short.2 short'.2 paths
  cases s
  cases s'
  simp_all

theorem said_plain (e : BpfEvent) (behind : Mem) : 0 ∉ (said e behind).comm ∧ 0 ∉ (said e behind).path :=
  ⟨plain_take (zero_not_mem_text _) _,plain_take (zero_not_mem_text _) _⟩

theorem said_short (e : BpfEvent) (behind : Mem) : (said e behind).comm.length ≤ 15 ∧ (said e behind).path.length ≤ 255 :=
  ⟨List.length_take_le _ _,List.length_take_le _ _⟩

/-- Two records, whatever programs made them, have the same row exactly if they have the same time, process and user, and
    the same strings as far as they are copied. -/
theorem row_iff {e e' : BpfEvent} {behind behind' : Mem} {ev ev' : NuleyeEvent} (built : rbEvent e behind = some ev)
    (built' : rbEvent e' behind' = some ev') :
    nuleyeEvent.encode ev = nuleyeEvent.encode ev' ↔
      e.ts = e'.ts ∧ e.pid = e'.pid ∧ e.uid = e'.uid ∧ (text e.comm.toList).take 15 = (text e'.comm.toList).take 15 ∧
        (text (e.filename.toList ++ behind)).take 255 = (text (e'.filename.toList ++ behind')).take 255 := by
  rw [rbEvent_said built,rbEvent_said built']
  constructor
  · intro same
    have stated := event_inj (said_plain _ _) (said_plain _ _) (said_short _ _) (said_short _ _) (encode_inj nuleyeEvent same)
    simpa [said] using stated
  · rintro ⟨ts,pid,uid,comm,path⟩
    simp only [said,ts,pid,uid,comm,path]

/-- The parent, the group and the result are in no row. -/
theorem row_iff_result : ∃ ev ev',rbEvent (stale 0 0) [] = some ev ∧
    rbEvent { stale 0 0 with ppid := 1, gid := 5, retval := -13 } [] = some ev' ∧ nuleyeEvent.encode ev = nuleyeEvent.encode ev' := by
  have built : rbEvent (stale 0 0) [] = some (said (stale 0 0) []).event := rfl
  have built' : rbEvent { stale 0 0 with ppid := 1, gid := 5, retval := -13 } [] = some (said (stale 0 0) []).event := rfl
  exact ⟨_,_,built,built',(row_iff built built').mpr ⟨rfl,rfl,rfl,rfl,rfl⟩⟩

/-! ### The rows of a run -/

variable {capacity : Nat} {hour : UInt64 → Int32} {model : Iforest} {trace : List (Label NuleyeEvent Loop)}
variable {t : World NuleyeEvent Loop Records}

/-- What the loops recorded, at any time of a run. -/
theorem run_recorded (run : Run (steps capacity hour) free (initial model) trace t) : Recorded (handled trace) t.records :=
  records_invariant (I := Recorded) ⟨rfl,rfl,rfl⟩ (fun _ _ _ _ _ _ recorded ran => body_recorded recorded ran) run

/-- The elements of two workers among all that were taken. -/
theorem shares_subperm {i j : Loop} (differ : i ≠ j) (pairs : List (Loop × NuleyeEvent)) :
    (share i pairs ++ share j pairs).Subperm (pairs.map Prod.snd) := by
  induction pairs with
  | nil => exact List.Subperm.refl _
  | cons pair rest ih =>
    obtain ⟨k,x⟩ := pair
    have split : ∀ l,share l ((k,x) :: rest) = (if k = l then [x] else []) ++ share l rest := fun l =>
      (share_append l [(k,x)] rest).trans (by rw [share_one])
    rw [split i,split j,List.map_cons]
    by_cases first : k = i
    · subst first
      simpa [differ] using (List.subperm_cons x).mpr ih
    · by_cases second : k = j
      · subst second
        simpa [first] using List.perm_middle.subperm_right.mpr ((List.subperm_cons x).mpr ih)
      · simpa [first,second] using ih.trans (List.sublist_cons_self x _).subperm

/-- What was handled is a part of what was published. -/
theorem handled_subperm {i j : Loop} (differ : i ≠ j) (run : Run (steps capacity hour) free (initial model) trace t) :
    (share i (handled trace) ++ share j (handled trace)).Subperm (published trace) := by
  obtain ⟨ordered,shares⟩ : InOrder trace t ∧ Shares trace t := by
    refine @Run.invariant _ _ _ (steps capacity hour) free (initial model) (fun trace t => InOrder trace t ∧ Shares trace t)
      ⟨rfl,fun i => rfl⟩ ?_ trace t run
    rintro trace t a u label _ ⟨ordered,shares⟩ _ moved
    exact ⟨step_in_order ordered moved,step_shares shares moved⟩
  have part : ∀ l,(share l (handled trace)).Sublist (share l (taken trace)) := by
    intro l
    rw [shares l]
    exact List.sublist_append_left _ _
  rw [ordered]
  exact ((part i).append (part j)).subperm.trans ((shares_subperm differ _).trans (List.sublist_append_left _ _).subperm)

/-- At any time of any run over a queue whose calls are single steps, what the two monitors have given the database are
    the bytes of kernel events that were published, none of them twice, and those of the network monitor have an empty
    path. -/
theorem rows_from_kernel (run : Run (steps capacity hour) free (initial model) trace t) :
    ∃ processes network : List NuleyeEvent,(blobs "process_monitor" t.records).map nuleyeEvent.decode = processes.map some ∧
      (blobs "network_monitor" t.records).map nuleyeEvent.decode = network.map some ∧ (∀ ev ∈ network,ev.pathless = true) ∧
      (processes ++ network).Subperm (kernelEvents (published trace)) := by
  have recorded := run_recorded run
  have decoded : ∀ evs : List NuleyeEvent,(evs.map nuleyeEvent.encode).map nuleyeEvent.decode = evs.map some := by
    intro evs
    rw [List.map_map]
    refine List.map_congr_left fun ev _ => ?_
    simpa using nuleyeEvent.decode_encode ev []
  refine ⟨kernelEvents (share .proc (handled trace)),pathlessEvents (kernelEvents (share .net (handled trace))),?_,?_,?_,?_⟩
  · rw [blobs,recorded.processes,decoded]
  · rw [blobs,recorded.network,decoded]
  · intro ev member
    exact (List.mem_filter.mp member).2
  · have differ : Loop.proc ≠ Loop.net := by decide
    have filtered := (handled_subperm differ run).filter (fun ev => ev.module = NYE_MODULE_EBPF)
    rw [List.filter_append] at filtered
    exact ((List.Sublist.refl _).append List.filter_sublist).subperm.trans filtered

/-- One kernel event, taken by the process monitor. -/
theorem rows_from_kernel_one : ∃ (trace : List (Label NuleyeEvent Loop)) (t : World NuleyeEvent Loop Records),
    published trace = [{ zeroEvent with module := NYE_MODULE_EBPF }] ∧ (blobs "process_monitor" t.records).length = 1 ∧
    ∃ processes network : List NuleyeEvent,(blobs "process_monitor" t.records).map nuleyeEvent.decode = processes.map some ∧
      (blobs "network_monitor" t.records).map nuleyeEvent.decode = network.map some ∧ (∀ ev ∈ network,ev.pathless = true) ∧
      (processes ++ network).Subperm (kernelEvents (published trace)) := by
  have executed : exec (steps 1 fun _ => 0) free (initial ⟨1,8,[⟨0,0⟩]⟩)
    [.publish { zeroEvent with module := NYE_MODULE_EBPF },.consume .proc,.handle .proc ⟨true,id⟩] = some (_,_) := rfl
  exact ⟨_,_,rfl,rfl,rows_from_kernel (run_of_exec executed)⟩

end Nulleye.TelemetryRows
