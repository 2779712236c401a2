import Nulleye.Events
import Nulleye.Rings
import Nulleye.Words
import Mathlib.Data.List.Count

/-!
The event bus as its functions run one after another: initialisation, publishing,
consuming and counting the pending events, over counters of `w` bits that wrap.
As long as fewer than `2 ^ w` publishes succeed, the bus is a queue of at most
`capacity` events.
-/
namespace Nulleye.EventBus
open Nulleye.Events Nulleye.Rings Nulleye.Words

variable {w : Nat}

/-- The ring that `event_bus_init` allocates: `g_capacity` slots, never none. -/
structure Slots (w : Nat) where
  gCapacity : BitVec w
  positive : 0 < gCapacity.toNat
  gRing : Vector NuleyeEvent gCapacity.toNat

/-- The globals of the bus. Without slots `g_ring` is NULL, and `g_capacity` is not read. -/
structure Bus (w : Nat) where
  slots : Option (Slots w)
  gHead : BitVec w
  gTail : BitVec w

/-- `idx % g_capacity`, a position inside the ring. -/
def Slots.pos (s : Slots w) (idx : BitVec w) : Fin s.gCapacity.toNat :=
  ⟨(idx % s.gCapacity).toNat,by rw [BitVec.toNat_umod]; exact Nat.mod_lt _ s.positive⟩

/-- `memcpy(&g_ring[idx % g_capacity], ev, sizeof(nuleye_event_t))`. -/
def Slots.copyIn (s : Slots w) (idx : BitVec w) (ev : NuleyeEvent) : Slots w :=
  { s with gRing := s.gRing.set (s.pos idx) ev }

/-- What `memcpy(out, &g_ring[idx % g_capacity], sizeof(nuleye_event_t))` copies. -/
def Slots.copyOut (s : Slots w) (idx : BitVec w) : NuleyeEvent := s.gRing[s.pos idx]

/-- The test by which `event_bus_publish` finds the ring full: `head - tail >= g_capacity`. -/
def Slots.full (s : Slots w) (head tail : BitVec w) : Prop := s.gCapacity ≤ head - tail

instance (s : Slots w) (head tail : BitVec w) : Decidable (s.full head tail) :=
  inferInstanceAs (Decidable (_ ≤ _))

/-- The zeroed ring of a successful `calloc`. -/
def Slots.zeroed (capacity : BitVec w) (positive : 0 < capacity.toNat) : Slots w :=
  ⟨capacity,positive,Vector.replicate _ zeroEvent⟩

/-- `event_bus_init`; `calloc` tells whether the allocation succeeds. -/
def eventBusInit (calloc : Bool) (capacity : BitVec w) (b : Bus w) : Bus w × Int :=
  if positive : 0 < capacity.toNat then
    if calloc then (⟨some (Slots.zeroed capacity positive),0,0⟩,0) else ({ b with slots := none },-ENOMEM)
  else (b,-EINVAL)

/-- `event_bus_shutdown`. -/
def eventBusShutdown (b : Bus w) : Bus w := { b with slots := none }

/-- `event_bus_publish`; a NULL event is `none`. -/
def eventBusPublish (ev : Option NuleyeEvent) (b : Bus w) : Bus w × Int :=
  match b.slots, ev with
  | some s, some ev =>
    let head := b.gHead
    let tail := b.gTail
    if s.full head tail then (b,-ENOBUFS) else
      let idx := b.gHead
      ({ b with slots := some (s.copyIn idx ev), gHead := idx + 1 },0)
  | _, _ => (b,-EINVAL)

/-- `event_bus_consume`: the bus, the content of the output buffer and the return
    code; a NULL buffer is `none`. -/
def eventBusConsume (out : Option NuleyeEvent) (b : Bus w) : Bus w × Option NuleyeEvent × Int :=
  match b.slots, out with
  | some s, some _ =>
    let tail := b.gTail
    let added := { b with gTail := tail + 1 }
    let head := added.gHead
    if tail ≥ head then ({ added with gTail := added.gTail - 1 },out,0) else (added,some (s.copyOut tail),1)
  | _, _ => (b,out,-1)

/-- `event_bus_pending`. -/
def eventBusPending (b : Bus w) : BitVec w := b.gHead - b.gTail

/-! ### Ring positions -/

theorem pos_eq (s : Slots w) (idx : BitVec w) : s.pos idx = slot s.positive idx.toNat := by
  apply Fin.ext
  simp [Slots.pos,slot,BitVec.toNat_umod]

theorem copyIn_ring (s : Slots w) (idx : BitVec w) (ev : NuleyeEvent) :
    (s.copyIn idx ev).gRing = store s.positive s.gRing idx.toNat ev := by
  simp [Slots.copyIn,store,pos_eq]

theorem copyOut_eq (s : Slots w) (idx : BitVec w) : s.copyOut idx = load s.positive s.gRing idx.toNat := by
  simp [Slots.copyOut,load,pos_eq]

@[simp] theorem load_copyIn_self (s : Slots w) (idx : BitVec w) (ev : NuleyeEvent) :
    load (s.copyIn idx ev).positive (s.copyIn idx ev).gRing idx.toNat = ev := by
  rw [copyIn_ring]
  exact load_store_self _ _ _ _

/-- Copying an event in leaves every other index of the same lap alone. -/
theorem load_copyIn_of_lap (s : Slots w) {idx : BitVec w} {k : Nat} (ev : NuleyeEvent) (other : idx.toNat ≠ k)
    (after : idx.toNat < k + s.gCapacity.toNat) (before : k < idx.toNat + s.gCapacity.toNat) :
    load (s.copyIn idx ev).positive (s.copyIn idx ev).gRing k = load s.positive s.gRing k := by
  rw [copyIn_ring]
  exact load_store_of_lap _ _ _ other after before

/-- Between a tail and a head that did not wrap, the fullness test compares their distance. -/
theorem full_iff (s : Slots w) {head tail : BitVec w} (ordered : tail ≤ head) :
    s.full head tail ↔ s.gCapacity.toNat ≤ head.toNat - tail.toNat := by
  rw [Slots.full,BitVec.le_def,BitVec.toNat_sub_of_le ordered]

/-! ### The queue that the bus represents -/

/-- One call on the bus, with the event passed to a publish and the former content
    of the output buffer passed to a consume. -/
inductive Call where
  | publish (ev : NuleyeEvent)
  | consume (out : NuleyeEvent)
  | pending
  deriving DecidableEq

/-- What a call gives back: return codes, and the content of the output buffer afterwards. -/
inductive Reply where
  | published (rc : Int)
  | consumed (rc : Int) (out : Option NuleyeEvent)
  | pending (n : Nat)
  deriving DecidableEq

/-- One call on the bus. -/
def busCall (b : Bus w) : Call → Bus w × Reply
  | .publish ev =>
    let (b',rc) := eventBusPublish (some ev) b
    (b',.published rc)
  | .consume out =>
    let (b',out',rc) := eventBusConsume (some out) b
    (b',.consumed rc out')
  | .pending => (b,.pending (eventBusPending b).toNat)

/-- The same call on a queue of at most `c` events. -/
def fifoCall (c : Nat) (q : List NuleyeEvent) : Call → List NuleyeEvent × Reply
  | .publish ev =>
    let (q',room) := push c q ev
    (q',.published (if room then 0 else -ENOBUFS))
  | .consume out =>
    match pop q with
    | (q',some ev) => (q',.consumed 1 (some ev))
    | (q',none) => (q',.consumed 0 (some out))
  | .pending => (q,.pending q.length)

/-- Calls one after another, with their replies in order. -/
def callAll {State : Type} (one : State → Call → State × Reply) : State → List Call → State × List Reply
  | s, [] => (s,[])
  | s, op :: ops =>
    let (t,reply) := one s op
    let (u,replies) := callAll one t ops
    (u,reply :: replies)

/-- The bus holds the queue `q` in slots of capacity `c` after `n` successful publishes. -/
structure Represents (c : BitVec w) (b : Bus w) (n : Nat) (q : List NuleyeEvent) : Prop where
  slots : ∃ s, b.slots = some s ∧ s.gCapacity = c ∧ Holds s.positive s.gRing b.gTail.toNat q
  head : b.gHead.toNat = n
  length : b.gHead.toNat = b.gTail.toNat + q.length
  bounded : q.length ≤ c.toNat

theorem represents_init {calloc : Bool} {c : BitVec w} {b0 b : Bus w} (ready : eventBusInit calloc c b0 = (b,0)) :
    Represents c b 0 [] := by
  unfold eventBusInit at ready
  split at ready
  · split at ready
    · rename_i positive _
      cases ready
      exact ⟨⟨_,rfl,rfl,holds_nil _ _ _⟩,by simp,by simp,by simp⟩
    · simp [ENOMEM] at ready
  · simp [EINVAL] at ready

/-- While the bus represents a queue, it finds itself full exactly when the queue is. -/
theorem full_represents {c : BitVec w} {b : Bus w} {n : Nat} {q : List NuleyeEvent} (rep : Represents c b n q)
    {s : Slots w} (present : b.slots = some s) : s.full b.gHead b.gTail ↔ ¬ q.length < c.toNat := by
  obtain ⟨⟨s',present',rfl,_⟩,_,length,_⟩ := rep
  cases present.symm.trans present'
  have ordered : b.gTail ≤ b.gHead := by rw [BitVec.le_def]; omega
  rw [full_iff s ordered]
  omega

theorem publish_reply {c : BitVec w} {b : Bus w} {n : Nat} {q : List NuleyeEvent} (rep : Represents c b n q)
    (ev : NuleyeEvent) : (busCall b (.publish ev)).2 = (fifoCall c.toNat q (.publish ev)).2 := by
  obtain ⟨s,present,_⟩ := rep.slots
  have test := full_represents rep present
  by_cases room : q.length < c.toNat
  · have notFull : ¬ s.full b.gHead b.gTail := by rw [test]; exact not_not_intro room
    simp [busCall,fifoCall,eventBusPublish,present,notFull,push,room]
  · have full : s.full b.gHead b.gTail := test.mpr room
    simp [busCall,fifoCall,eventBusPublish,present,full,push,room]

theorem publish_represents {c : BitVec w} {b : Bus w} {n : Nat} {q : List NuleyeEvent} (rep : Represents c b n q)
    (ev : NuleyeEvent) (fits : q.length < c.toNat → n + 1 < 2 ^ w) :
    Represents c (busCall b (.publish ev)).1 (n + if q.length < c.toNat then 1 else 0)
      (fifoCall c.toNat q (.publish ev)).1 := by
  obtain ⟨s,present,_⟩ := rep.slots
  have test := full_represents rep present
  obtain ⟨⟨s',present',rfl,holds⟩,head,length,bounded⟩ := rep
  cases present.symm.trans present'
  by_cases room : q.length < s.gCapacity.toNat
  · have notFull : ¬ s.full b.gHead b.gTail := by rw [test]; exact not_not_intro room
    have := fits room
    have advanced := toNat_succ (x := b.gHead) (by omega)
    simp only [busCall,fifoCall,eventBusPublish,present,notFull,push,room,if_false,if_true]
    refine ⟨⟨s.copyIn b.gHead ev,rfl,rfl,?_⟩,by simp only; omega,?_,by simp; omega⟩
    · simp only
      rw [copyIn_ring,length]
      exact holds.push s.positive room ev
    · simp only [List.length_append,List.length_singleton]
      omega
  · have full : s.full b.gHead b.gTail := test.mpr room
    simp only [busCall,fifoCall,eventBusPublish,present,full,push,room,if_false,if_true]
    exact ⟨⟨s,present,rfl,holds⟩,by omega,length,bounded⟩

theorem consume_refines {c : BitVec w} {b : Bus w} {n : Nat} {q : List NuleyeEvent} (rep : Represents c b n q)
    (out : NuleyeEvent) :
    (busCall b (.consume out)).2 = (fifoCall c.toNat q (.consume out)).2 ∧
      Represents c (busCall b (.consume out)).1 n (fifoCall c.toNat q (.consume out)).1 := by
  obtain ⟨⟨s,present,rfl,holds⟩,head,length,bounded⟩ := rep
  cases q with
  | nil =>
    have empty : b.gTail ≥ b.gHead := by rw [ge_iff_le,BitVec.le_def,length]; simp
    refine ⟨by simp [busCall,fifoCall,eventBusConsume,present,empty,pop],?_⟩
    simp only [busCall,fifoCall,eventBusConsume,present,empty,pop,if_true,BitVec.add_sub_cancel]
    exact ⟨⟨s,rfl,rfl,holds⟩,head,length,bounded⟩
  | cons ev q =>
    simp only [List.length_cons] at length bounded
    have occupied : ¬ b.gTail ≥ b.gHead := by rw [ge_iff_le,BitVec.le_def,length]; omega
    have limit := b.gHead.isLt
    have advanced := toNat_succ (x := b.gTail) (by omega)
    have oldest : s.copyOut b.gTail = ev := by rw [copyOut_eq]; exact holds.front
    refine ⟨by simp [busCall,fifoCall,eventBusConsume,present,occupied,pop,oldest],?_⟩
    simp only [busCall,fifoCall,eventBusConsume,present,occupied,pop,if_false]
    refine ⟨⟨s,rfl,rfl,?_⟩,head,by simp only; omega,by omega⟩
    simp only [advanced]
    exact holds.pop

theorem pending_refines {c : BitVec w} {b : Bus w} {n : Nat} {q : List NuleyeEvent} (rep : Represents c b n q) :
    (busCall b .pending).2 = (fifoCall c.toNat q .pending).2 := by
  have length := rep.length
  have ordered : b.gTail ≤ b.gHead := by rw [BitVec.le_def]; omega
  simp only [busCall,fifoCall,eventBusPending,BitVec.toNat_sub_of_le ordered,Reply.pending.injEq]
  omega

/-- Publishes that returned 0, among some replies. -/
def successes (replies : List Reply) : Nat := replies.count (.published 0)

@[simp] theorem successes_nil : successes [] = 0 := rfl

theorem successes_publish (c : Nat) (q : List NuleyeEvent) (ev : NuleyeEvent) (replies : List Reply) :
    successes ((fifoCall c q (.publish ev)).2 :: replies) = (if q.length < c then 1 else 0) + successes replies := by
  by_cases room : q.length < c
  · simp [successes,fifoCall,push,room,Nat.add_comm]
  · simp [successes,fifoCall,push,room,ENOBUFS]

theorem successes_consume (c : Nat) (q : List NuleyeEvent) (out : NuleyeEvent) (replies : List Reply) :
    successes ((fifoCall c q (.consume out)).2 :: replies) = successes replies := by
  cases q <;> simp [successes,fifoCall,pop]

theorem successes_pending (c : Nat) (q : List NuleyeEvent) (replies : List Reply) :
    successes ((fifoCall c q .pending).2 :: replies) = successes replies := by
  simp [successes,fifoCall]

theorem fifo_bounded {c : Nat} {q : List NuleyeEvent} (bounded : q.length ≤ c) (op : Call) :
    (fifoCall c q op).1.length ≤ c := by
  cases op with
  | publish ev => exact push_bounded bounded ev
  | consume out =>
    cases q with
    | nil => exact pop_bounded bounded
    | cons x q => exact pop_bounded (q := x :: q) bounded
  | pending => exact bounded

/-- From a bus that holds a queue, every sequence of calls gets the replies of the
    queue and ends with the bus holding the queue's final content. -/
theorem calls_refine {c : BitVec w} (ops : List Call) {b : Bus w} {n : Nat} {q : List NuleyeEvent}
    (rep : Represents c b n q) (few : n + successes (callAll busCall b ops).2 < 2 ^ w) :
    (callAll busCall b ops).2 = (callAll (fifoCall c.toNat) q ops).2 ∧
      Represents c (callAll busCall b ops).1 (n + successes (callAll (fifoCall c.toNat) q ops).2)
        (callAll (fifoCall c.toNat) q ops).1 := by
  induction ops generalizing b n q with
  | nil => exact ⟨rfl,rep⟩
  | cons op ops ih =>
    simp only [callAll] at few ⊢
    cases op with
    | publish ev =>
      have same := publish_reply rep ev
      rw [same,successes_publish,← Nat.add_assoc] at few
      rw [same,successes_publish,← Nat.add_assoc]
      have next := publish_represents rep ev (fun room => by rw [if_pos room] at few; omega)
      obtain ⟨later,final⟩ := ih next few
      exact ⟨by rw [later],final⟩
    | consume out =>
      obtain ⟨same,next⟩ := consume_refines rep out
      rw [same,successes_consume] at few
      rw [same,successes_consume]
      obtain ⟨later,final⟩ := ih next few
      exact ⟨by rw [later],final⟩
    | pending =>
      have same := pending_refines rep
      rw [same,successes_pending] at few
      rw [same,successes_pending]
      obtain ⟨later,final⟩ := ih rep few
      exact ⟨congrArg _ later,final⟩

theorem fifo_all_bounded {c : Nat} (ops : List Call) {q : List NuleyeEvent} (bounded : q.length ≤ c) :
    (callAll (fifoCall c) q ops).1.length ≤ c := by
  induction ops generalizing q with
  | nil => exact bounded
  | cons op ops ih => exact ih (fifo_bounded bounded op)

/-- After a successful initialisation, any sequence of calls with fewer than `2 ^ w`
    successful publishes gets exactly the replies of a queue of at most `c` events,
    and the bus ends up holding that queue's content. -/
theorem event_bus_refines_fifo {calloc : Bool} {c : BitVec w} {b0 b : Bus w}
    (ready : eventBusInit calloc c b0 = (b,0)) (ops : List Call)
    (few : successes (callAll busCall b ops).2 < 2 ^ w) :
    (callAll busCall b ops).2 = (callAll (fifoCall c.toNat) [] ops).2 ∧
      Represents c (callAll busCall b ops).1 (successes (callAll busCall b ops).2)
        (callAll (fifoCall c.toNat) [] ops).1 ∧
      (callAll (fifoCall c.toNat) [] ops).1.length ≤ c.toNat := by
  obtain ⟨same,final⟩ := calls_refine ops (represents_init ready) (by simpa using few)
  refine ⟨same,?_,fifo_all_bounded ops (by simp)⟩
  rw [same]
  simpa using final

/-- A ring of four slots takes four of five publishes and gives back the oldest. -/
theorem event_bus_refines_fifo_four :
    (callAll (fifoCall 4) [] (List.replicate 5 (.publish zeroEvent) ++ [.consume zeroEvent,.pending])).2 =
      List.replicate 4 (.published 0) ++ [.published (-ENOBUFS),.consumed 1 (some zeroEvent),.pending 3] ∧
    (callAll busCall (eventBusInit true 4#64 ⟨none,0,0⟩).1
      (List.replicate 5 (.publish zeroEvent) ++ [.consume zeroEvent,.pending])).2 =
      (callAll (fifoCall 4) [] (List.replicate 5 (.publish zeroEvent) ++ [.consume zeroEvent,.pending])).2 :=
  ⟨rfl,(event_bus_refines_fifo (show eventBusInit true 4#64 ⟨none,0,0⟩ = (_,0) from rfl) _
    (Nat.lt_of_le_of_lt List.count_le_length (by decide))).1⟩

end Nulleye.EventBus
