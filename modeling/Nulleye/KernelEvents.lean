import Nulleye.CStrings
import Nulleye.EventBus

/-!
Kernel events on their way to the bus. Each of the programs in the kernel fills some
fields of a record whose memory still holds what an earlier record left there, and
the loader copies the same fields of every record. What it publishes depends on the
program alone exactly if the program writes all of these fields.
-/
namespace Nulleye.KernelEvents
open Nulleye.CStrings Nulleye.Events Nulleye.EventBus

/-- `struct bpf_event`. -/
structure BpfEvent where
  ts : UInt64
  pid : UInt32
  ppid : UInt32
  uid : UInt32
  gid : UInt32
  comm : Vector UInt8 16
  retval : Int32
  filename : Vector UInt8 128

/-- What the helpers give to one invocation of a program. The string at an argument is
    `none` if its memory cannot be read. -/
structure Invocation where
  ktimeGetNs : UInt64
  currentPidTgid : UInt64
  currentUidGid : UInt64
  currentComm : Mem
  args : Nat → Option Mem
  comm_plain : 0 ∉ currentComm
  comm_short : currentComm.length < 16
  args_plain : ∀ n,∀ s ∈ args n,0 ∉ s

/-- `bpf_get_current_comm`: the name and its terminator. -/
def bpfGetCurrentComm (i : Invocation) (buf : Vector UInt8 16) : Vector UInt8 16 := overwrite buf (i.currentComm ++ [0])

/-- `bpf_probe_read_user_str`: as much of the string as fits, and a terminator; zeros where it fails. -/
def bpfProbeReadUserStr (s : Option Mem) (dst : Vector UInt8 128) : Vector UInt8 128 :=
  match s with
  | some s => overwrite dst (s.take 127 ++ [0])
  | none => .replicate 128 0

/-- A program that fills the record that `bpf_ringbuf_reserve` gave it, if it gave one: the
    time, the process and its name, the user if `uid`, and the string at argument `arg`. -/
def trace (uid : Bool) (arg : Option Nat) (i : Invocation) (e : Option BpfEvent) : Option BpfEvent :=
  e.map fun e => { e with
    ts := i.ktimeGetNs
    pid := (i.currentPidTgid >>> 32).toUInt32
    uid := if uid then i.currentUidGid.toUInt32 else e.uid
    comm := bpfGetCurrentComm i e.comm
    filename := match arg with
      | some n => bpfProbeReadUserStr (i.args n) e.filename
      | none => e.filename }

/-! ### The programs -/

def traceAccept := trace false none
def traceBind := trace false none
def traceClone := trace false none
def traceConnect := trace false none
def traceExecve := trace true (some 0)
def traceExecveat := trace false (some 1)
def traceExit := trace false none
def traceKill := trace false none
def traceListen := trace false none
def traceOpen := trace false (some 0)
def traceOpenat := trace false (some 1)
def tracePtrace := trace false none
def traceRecvfrom := trace false none
def traceRename := trace false (some 0)
def traceSfo := trace false none
def traceSendto := trace false none
def traceSetgid := trace true none
def traceSetuid := trace true none
def traceSocket := trace false none
def traceUnlink := trace false (some 0)
def traceVfsRead := trace false none
def traceVfsWrite := trace false none

/-- The files with a program. -/
inductive Program where
  | accept
  | bind
  | clone
  | connect
  | execve
  | execveat
  | exit
  | kill
  | listen
  | open
  | openat
  | ptrace
  | recvfrom
  | rename
  | securityFileOpen
  | sendto
  | setgid
  | setuid
  | socket
  | unlink
  | vfsRead
  | vfsWrite
  deriving DecidableEq

def Program.run : Program → Invocation → Option BpfEvent → Option BpfEvent
  | .accept => traceAccept
  | .bind => traceBind
  | .clone => traceClone
  | .connect => traceConnect
  | .execve => traceExecve
  | .execveat => traceExecveat
  | .exit => traceExit
  | .kill => traceKill
  | .listen => traceListen
  | .open => traceOpen
  | .openat => traceOpenat
  | .ptrace => tracePtrace
  | .recvfrom => traceRecvfrom
  | .rename => traceRename
  | .securityFileOpen => traceSfo
  | .sendto => traceSendto
  | .setgid => traceSetgid
  | .setuid => traceSetuid
  | .socket => traceSocket
  | .unlink => traceUnlink
  | .vfsRead => traceVfsRead
  | .vfsWrite => traceVfsWrite

/-- The programs with an assignment to `e->uid`. -/
def Program.writesUid (p : Program) : Bool := p ∈ [.execve,.setgid,.setuid]

/-- The programs with a call of `bpf_probe_read_user_str` for `e->filename`. -/
def Program.writesFilename (p : Program) : Bool := p ∈ [.execve,.execveat,.open,.openat,.rename,.unlink]

/-! ### The loader -/

/-- The event that `handle_rb_event` builds; `behind` is the memory behind `e->filename`. -/
def rbEvent (e : BpfEvent) (behind : Mem) : Option NuleyeEvent := do
  let comm ← strncpy 15 e.comm.toList
  let path ← strncpy 255 (e.filename.toList ++ behind)
  return { zeroEvent with
    ts := e.ts
    module := NYE_MODULE_EBPF
    pid := e.pid
    uid := e.uid
    comm := overwrite zeroEvent.comm comm
    path := overwrite zeroEvent.path path }

/-- `handle_rb_event`; a failed publish is only logged. -/
def handleRbEvent {w : Nat} (e : BpfEvent) (behind : Mem) (b : Bus w) : Option (Bus w × Int) :=
  (rbEvent e behind).map fun ev => ((eventBusPublish (some ev) b).1,0)

/-- The event that the loader publishes for an invocation of a program that gets the record `old`. -/
def publishedEvent (p : Program) (i : Invocation) (old : BpfEvent) (behind : Mem) : Option NuleyeEvent :=
  (p.run i (some old)).bind fun e => rbEvent e behind

/-- What the loader publishes for a program depends on no byte that the program did not
    write, it is read inside the record, and without a file name it has an empty path. -/
def Clean (p : Program) : Prop :=
  ∀ (i : Invocation) (old old' : BpfEvent) (behind behind' : Mem),
    publishedEvent p i old behind = publishedEvent p i old' behind' ∧ (publishedEvent p i old []).isSome ∧
      (p.writesFilename = false → ∀ ev ∈ publishedEvent p i old behind,ev.pathless)

/-! ### Records -/

theorem run_eq (p : Program) : ∃ arg : Option Nat,p.run = trace p.writesUid arg ∧ arg.isSome = p.writesFilename := by
  cases p <;> first | exact ⟨none,rfl,rfl⟩ | exact ⟨some 0,rfl,rfl⟩ | exact ⟨some 1,rfl,rfl⟩

theorem overwrite_first {n : Nat} (old : Vector UInt8 (n + 1)) (b : UInt8) (bytes : Mem) :
    (overwrite old (b :: bytes))[0] = b := by
  simp [overwrite]

/-- The name that is copied from a record. -/
theorem comm_copied (i : Invocation) (buf : Vector UInt8 16) :
    strncpy 15 (bpfGetCurrentComm i buf).toList = some (padded 15 i.currentComm) := by
  have fits : (i.currentComm ++ [0]).length ≤ 16 := by simpa [Nat.lt_succ_iff] using i.comm_short
  rw [bpfGetCurrentComm,overwrite_toList buf fits,List.append_assoc,List.singleton_append,strncpy_terminated i.comm_plain]

/-- The file name that a program wrote into a record. -/
def fileName (s : Option Mem) : Mem := (s.getD []).take 127

/-- A file name that the program wrote is copied from the record alone. -/
theorem filename_copied (i : Invocation) (n : Nat) (buf : Vector UInt8 128) (behind : Mem) :
    strncpy 255 ((bpfProbeReadUserStr (i.args n) buf).toList ++ behind) = some (padded 255 (fileName (i.args n))) := by
  cases arg : i.args n with
  | none =>
    have zeros : (Vector.replicate 128 (0 : UInt8)).toList = [] ++ 0 :: List.replicate 127 0 := rfl
    rw [bpfProbeReadUserStr,zeros,List.append_assoc,List.cons_append,strncpy_terminated List.not_mem_nil]
    rfl
  | some s =>
    have plain := plain_take (i.args_plain n s arg) 127
    have fits : (s.take 127 ++ [0]).length ≤ 128 := by simp
    rw [bpfProbeReadUserStr,overwrite_toList buf fits,List.append_assoc,List.append_assoc,List.singleton_append,
      strncpy_terminated plain]
    rfl

/-! ### Published events -/

/-- On a bus that holds a queue the handler adds the event of a program if there is room, and else loses it. It returns 0
    either way. -/
theorem handle_publishes {w : Nat} {c : BitVec w} {b : Bus w} {n : Nat} {q : List NuleyeEvent} (rep : Represents c b n q)
    (fits : q.length < c.toNat → n + 1 < 2 ^ w) {p : Program} {i : Invocation} {old e : BpfEvent} {behind : Mem}
    {ev : NuleyeEvent} (recorded : p.run i (some old) = some e) (published : publishedEvent p i old behind = some ev) :
    ∃ b',handleRbEvent e behind b = some (b',0) ∧
      Represents c b' (n + if q.length < c.toNat then 1 else 0) (fifoCall c.toNat q (.publish ev)).1 := by
  rw [publishedEvent,recorded,Option.bind_some] at published
  refine ⟨(busCall b (.publish ev)).1,?_,publish_represents rep ev fits⟩
  rw [handleRbEvent,published,Option.map_some]
  rfl

/-- The event that the loader publishes when the file name copied from the record is `path`. -/
def eventOf (p : Program) (i : Invocation) (old : BpfEvent) (path : Mem) : NuleyeEvent :=
  { zeroEvent with
    ts := i.ktimeGetNs
    module := NYE_MODULE_EBPF
    pid := (i.currentPidTgid >>> 32).toUInt32
    uid := if p.writesUid then i.currentUidGid.toUInt32 else old.uid
    comm := overwrite zeroEvent.comm (padded 15 i.currentComm)
    path := overwrite zeroEvent.path path }

/-- A program that writes no file name leaves the old one to be copied. -/
theorem published_stale {p : Program} (silent : p.writesFilename = false) (i : Invocation) (old : BpfEvent) (behind : Mem) :
    publishedEvent p i old behind = (strncpy 255 (old.filename.toList ++ behind)).map (eventOf p i old) := by
  obtain ⟨arg,ran,written⟩ := run_eq p
  cases arg with
  | some n =>
    rw [silent] at written
    cases written
  | none =>
    simp only [publishedEvent,ran,trace,Option.map_some,Option.bind_some,rbEvent,comm_copied,Option.bind_eq_bind]
    cases strncpy 255 (old.filename.toList ++ behind) <;> rfl

/-- A program that writes the file name has it copied. -/
theorem published_written {p : Program} (written : p.writesFilename = true) (i : Invocation) :
    ∃ path,∀ old behind,publishedEvent p i old behind = some (eventOf p i old path) := by
  obtain ⟨arg,ran,same⟩ := run_eq p
  cases arg with
  | none =>
    rw [written] at same
    cases same
  | some n =>
    refine ⟨padded 255 (fileName (i.args n)),?_⟩
    intro old behind
    simp only [publishedEvent,ran,trace,Option.map_some,Option.bind_some,rbEvent,comm_copied,filename_copied,
      Option.bind_eq_bind]
    rfl

/-- A record whose memory is zero but for these two fields. -/
def stale (uid : UInt32) (first : UInt8) : BpfEvent :=
  ⟨0,0,0,uid,0,.replicate 16 0,0,(Vector.replicate 128 0).set 0 first⟩

/-- An invocation by a process without a name. -/
def unnamed : Invocation := ⟨0,0,0,[],fun _ => none,List.not_mem_nil,by decide,by simp⟩

/-- A byte that a file name left in the record becomes the path of an event without one. -/
theorem silent_not_clean {p : Program} (silent : p.writesFilename = false) : ¬ Clean p := by
  intro clean
  have left : (stale 0 120).filename.toList ++ [] = [120] ++ 0 :: List.replicate 126 0 := rfl
  have copied := published_stale silent unnamed (stale 0 120) []
  have path : padded 255 [120] = 120 :: List.replicate 254 0 := rfl
  rw [left,strncpy_terminated (by decide : (0 : UInt8) ∉ [120]),path,Option.map_some] at copied
  obtain ⟨_,_,empty⟩ := clean unnamed (stale 0 120) (stale 0 120) [] []
  have first := empty silent _ copied
  simp only [NuleyeEvent.pathless,eventOf,overwrite_first] at first
  revert first
  decide

/-- Of all programs those that write both the user and the file name, which is `trace_execve`,
    have their events published clean of what the record held before. -/
theorem clean_iff (p : Program) : Clean p ↔ p.writesUid = true ∧ p.writesFilename = true := by
  constructor
  · intro clean
    have name : p.writesFilename = true := by
      by_contra silent
      exact silent_not_clean (Bool.eq_false_iff.mpr silent) clean
    refine ⟨?_,name⟩
    by_contra anonymous
    obtain ⟨path,published⟩ := published_written name unnamed
    obtain ⟨same,_⟩ := clean unnamed (stale 0 0) (stale 1 0) [] []
    rw [published,published] at same
    have user : (0 : UInt32) = 1 := by
      simpa [eventOf,anonymous,stale] using congrArg NuleyeEvent.uid (Option.some.inj same)
    revert user
    decide
  · rintro ⟨user,name⟩ i old old' behind behind'
    obtain ⟨path,published⟩ := published_written name i
    refine ⟨?_,?_,?_⟩
    · rw [published,published,eventOf,eventOf,if_pos user,if_pos user]
    · rw [published]
      rfl
    · intro silent
      rw [name] at silent
      cases silent

/-- The name of a file that was opened earlier becomes the path of a connection. -/
theorem connect_not_clean : ¬ Clean .connect := silent_not_clean rfl

end Nulleye.KernelEvents
