import Mathlib.Data.Vector.Basic

/-!
The fixed-size event that every producer and every consumer of the program
exchanges, and the return codes of the functions that handle it.
-/
namespace Nulleye.Events

/-- The `errno` values that the functions of the event bus return negated. -/
def EINVAL : Int := 22
def ENOMEM : Int := 12
def ENOBUFS : Int := 105

/-- The module that kernel events carry. -/
def NYE_MODULE_EBPF : UInt32 := 1

/-- `nuleye_event_t`: the fields in order, without padding between them. -/
structure NuleyeEvent where
  ts : UInt64
  module : UInt32
  type : UInt32
  pid : UInt32
  ppid : UInt32
  uid : UInt32
  gid : UInt32
  comm : Vector UInt8 16
  path : Vector UInt8 256
  payload : Vector UInt8 256
  payloadLen : UInt64
  deriving DecidableEq

/-- `ev.path[0] == '\0'`. -/
def NuleyeEvent.pathless (ev : NuleyeEvent) : Bool := ev.path[0] = 0

/-- The event whose bytes are all zero, as `calloc` and `{0}` leave it. -/
def zeroEvent : NuleyeEvent where
  ts := 0
  module := 0
  type := 0
  pid := 0
  ppid := 0
  uid := 0
  gid := 0
  comm := Vector.replicate 16 0
  path := Vector.replicate 256 0
  payload := Vector.replicate 256 0
  payloadLen := 0

end Nulleye.Events
