import Nulleye.EventBus

/-!
The bus at the end of its counters. Publishing and counting use the difference of the
counters modulo `2 ^ w`, consuming compares them, so from the publish on that takes
`g_head` to zero events are pending that no call delivers.
-/
namespace Nulleye.BusWraps
open Nulleye.EventBus Nulleye.Events Nulleye.Rings Nulleye.Words

variable {w : Nat}

/-- The published events that are not delivered yet, after one more call. -/
def unread (q : List NuleyeEvent) : Call → Reply → List NuleyeEvent
  | .publish ev,.published rc => if rc = 0 then q ++ [ev] else q
  | .consume _,.consumed rc _ => if rc = 1 then q.tail else q
  | _,_ => q

/-- A call does what the number of pending events asks for: a publish succeeds as long as
    they are fewer than the slots, and a consume delivers the oldest one if there is any. -/
def Right (c : BitVec w) (b : Bus w) (q : List NuleyeEvent) : Call → Prop
  | .publish ev => (eventBusPublish (some ev) b).2 = 0 ↔ (eventBusPending b).toNat < c.toNat
  | .consume out =>
    let (_,out',rc) := eventBusConsume (some out) b
    (rc = 1 ↔ eventBusPending b ≠ 0) ∧ (rc = 1 → out' = q.head?)
  | .pending => True

/-- `g_head` is not behind `g_tail` when an event is consumed. -/
def Ordered (b : Bus w) (_ : List NuleyeEvent) : Call → Prop
  | .consume _ => b.gTail ≤ b.gHead
  | _ => True

/-- Something holds at every call of a run. -/
def Everywhere (P : Bus w → List NuleyeEvent → Call → Prop) : Bus w → List NuleyeEvent → List Call → Prop
  | _,_,[] => True
  | b,q,op :: ops => P b q op ∧ Everywhere P (busCall b op).1 (unread q op (busCall b op).2) ops

/-! ### Before and after the wrap -/

/-- `g_head` has wrapped and `g_tail` has not. -/
structure Wrapped (c : BitVec w) (b : Bus w) : Prop where
  slots : ∃ s,b.slots = some s ∧ s.gCapacity = c
  behind : b.gHead.toNat < b.gTail.toNat
  bounded : b.gHead.toNat + 2 ^ w - b.gTail.toNat ≤ c.toNat

theorem Wrapped.pending {c : BitVec w} {b : Bus w} (wrapped : Wrapped c b) :
    (eventBusPending b).toNat = b.gHead.toNat + 2 ^ w - b.gTail.toNat := by
  have behind := wrapped.behind
  have limit := b.gTail.isLt
  rw [eventBusPending,BitVec.toNat_sub,Nat.mod_eq_of_lt (by omega)]
  omega

/-- Behind the wrap publishing still compares the number of pending events. -/
theorem Wrapped.publish {c : BitVec w} {b : Bus w} (wrapped : Wrapped c b) (q : List NuleyeEvent) (ev : NuleyeEvent) :
    Right c b q (.publish ev) ∧ Wrapped c (busCall b (.publish ev)).1 := by
  have pending := wrapped.pending
  obtain ⟨⟨s,present,rfl⟩,behind,bounded⟩ := wrapped
  have limit := s.gCapacity.isLt
  have test : s.full b.gHead b.gTail ↔ s.gCapacity.toNat ≤ b.gHead.toNat + 2 ^ w - b.gTail.toNat := by
    rw [Slots.full,BitVec.le_def,← pending]
    rfl
  by_cases full : s.full b.gHead b.gTail
  · have many := test.mp full
    simp only [Right,busCall,eventBusPublish,present,full,if_true]
    refine ⟨?_,⟨s,present,rfl⟩,behind,bounded⟩
    simp only [ENOBUFS]
    omega
  · have few := mt test.mpr full
    have advanced := toNat_succ (x := b.gHead) (by have := b.gTail.isLt; omega)
    simp only [Right,busCall,eventBusPublish,present,full,if_false]
    refine ⟨iff_of_true trivial (by omega),⟨s.copyIn b.gHead ev,rfl,rfl⟩,?_,?_⟩
    · simp only [advanced]
      omega
    · simp only [advanced]
      omega

/-- Behind the wrap no call consumes an event, however many are pending. -/
theorem Wrapped.consume {c : BitVec w} {b : Bus w} (wrapped : Wrapped c b) (q : List NuleyeEvent) (out : NuleyeEvent) :
    ¬ Right c b q (.consume out) ∧ Wrapped c (busCall b (.consume out)).1 := by
  have pending := wrapped.pending
  obtain ⟨⟨s,present,rfl⟩,behind,bounded⟩ := wrapped
  have refused : b.gTail ≥ b.gHead := by rw [ge_iff_le,BitVec.le_def]; omega
  have some_pending : eventBusPending b ≠ 0 := by
    intro nothing
    have none_left : (0 : BitVec w).toNat = 0 := by simp
    have := b.gTail.isLt
    rw [nothing,none_left] at pending
    omega
  simp only [Right,busCall,eventBusConsume,present,refused,if_true,BitVec.add_sub_cancel]
  refine ⟨?_,⟨s,rfl,rfl⟩,behind,bounded⟩
  rintro ⟨delivers,_⟩
  exact absurd (delivers.mpr some_pending) (by decide)

/-- A bus that represents the queue of the unread events answers rightly. -/
theorem represents_right {c : BitVec w} {b : Bus w} {n : Nat} {q : List NuleyeEvent} (rep : Represents c b n q) (op : Call) :
    Right c b q op ∧ Ordered b q op := by
  have length := rep.length
  have ordered : b.gTail ≤ b.gHead := by rw [BitVec.le_def]; omega
  have pending : (eventBusPending b).toNat = q.length := by
    rw [eventBusPending,BitVec.toNat_sub_of_le ordered]
    omega
  cases op with
  | publish ev =>
    have reply := publish_reply rep ev
    refine ⟨?_,trivial⟩
    rw [Right,pending]
    by_cases room : q.length < c.toNat <;> simp [busCall,fifoCall,push,room,ENOBUFS] at reply ⊢ <;> simp [reply]
  | consume out =>
    have reply := (consume_refines rep out).1
    have some_pending : eventBusPending b ≠ 0 ↔ q ≠ [] := by
      rw [ne_eq,ne_eq,← BitVec.toNat_inj,pending]
      simp
    refine ⟨?_,ordered⟩
    rw [Right,some_pending]
    cases q with
    | nil =>
      simp [busCall,fifoCall,pop] at reply
      simp [reply]
    | cons ev q =>
      simp [busCall,fifoCall,pop] at reply
      simp [reply]
  | pending => exact ⟨trivial,trivial⟩

/-- The publish by which `g_head` wraps. -/
theorem represents_wrap {c : BitVec w} {b : Bus w} {n : Nat} {q : List NuleyeEvent} (rep : Represents c b n q)
    (ev : NuleyeEvent) (room : q.length < c.toNat) (last : ¬ n + 1 < 2 ^ w) : Wrapped c (busCall b (.publish ev)).1 := by
  obtain ⟨s,present,_⟩ := rep.slots
  have test := full_represents rep present
  obtain ⟨⟨s',present',rfl,_⟩,head,length,bounded⟩ := rep
  cases present.symm.trans present'
  have not_full : ¬ s.full b.gHead b.gTail := by rw [test]; exact not_not_intro room
  have limit := b.gHead.isLt
  have small := s.gCapacity.isLt
  have wrapped : (b.gHead + 1).toNat = 0 := by
    have one : (1 : BitVec w).toNat = 1 := toNat_one (by omega)
    rw [BitVec.toNat_add,one,show b.gHead.toNat + 1 = 2 ^ w by omega,Nat.mod_self]
  simp only [busCall,eventBusPublish,present,not_full,if_false]
  refine ⟨⟨s.copyIn b.gHead ev,rfl,rfl⟩,?_,?_⟩
  · simp only [wrapped]
    omega
  · simp only [wrapped]
    omega

/-- The queue that refines the bus is that of the unread events. -/
theorem unread_fifo (c : Nat) (q : List NuleyeEvent) (op : Call) : unread q op (fifoCall c q op).2 = (fifoCall c q op).1 := by
  cases op with
  | publish ev =>
    by_cases room : q.length < c <;> simp [unread,fifoCall,push,room,ENOBUFS]
  | consume out =>
    cases q <;> simp [unread,fifoCall,pop]
  | pending => rfl

/-- What a run from the initialisation on keeps. -/
def Reached (c : BitVec w) (b : Bus w) (q : List NuleyeEvent) : Prop := (∃ n,Represents c b n q) ∨ Wrapped c b

/-- Before the wrap every call is right, and behind it all but those that consume. -/
theorem right_iff_ordered {c : BitVec w} {b : Bus w} {q : List NuleyeEvent} (reached : Reached c b q) (op : Call) :
    Right c b q op ↔ Ordered b q op := by
  rcases reached with ⟨n,rep⟩ | wrapped
  · obtain ⟨right,ordered⟩ := represents_right rep op
    exact iff_of_true right ordered
  · cases op with
    | publish ev => exact iff_of_true (wrapped.publish q ev).1 trivial
    | consume out =>
      have behind := wrapped.behind
      refine iff_of_false (wrapped.consume q out).1 ?_
      rw [Ordered,BitVec.le_def]
      omega
    | pending => exact Iff.rfl

theorem reached_call {c : BitVec w} {b : Bus w} {q : List NuleyeEvent} (reached : Reached c b q) (op : Call) :
    Reached c (busCall b op).1 (unread q op (busCall b op).2) := by
  rcases reached with ⟨n,rep⟩ | wrapped
  · cases op with
    | publish ev =>
      rw [publish_reply rep ev,unread_fifo]
      by_cases fits : q.length < c.toNat → n + 1 < 2 ^ w
      · exact .inl ⟨_,publish_represents rep ev fits⟩
      · obtain ⟨room,last⟩ := Classical.not_imp.mp fits
        exact .inr (represents_wrap rep ev room last)
    | consume out =>
      obtain ⟨same,next⟩ := consume_refines rep out
      rw [same,unread_fifo]
      exact .inl ⟨n,next⟩
    | pending => exact .inl ⟨n,rep⟩
  · right
    cases op with
    | publish ev => exact (wrapped.publish q ev).2
    | consume out => exact (wrapped.consume q out).2
    | pending => exact wrapped

/-- **The bus answers rightly exactly as long as no consume meets a wrapped head.** -/
theorem wrap_right {calloc : Bool} {c : BitVec w} {b0 b : Bus w} (ready : eventBusInit calloc c b0 = (b,0)) (ops : List Call) :
    Everywhere (Right c) b [] ops ↔ Everywhere Ordered b [] ops := by
  have every : ∀ (ops : List Call) (b : Bus w) (q : List NuleyeEvent),Reached c b q →
      (Everywhere (Right c) b q ops ↔ Everywhere Ordered b q ops) := by
    intro ops
    induction ops with
    | nil => exact fun _ _ _ => Iff.rfl
    | cons op ops ih =>
      intro b q reached
      exact and_congr (right_iff_ordered reached op) (ih _ _ (reached_call reached op))
  exact every ops b [] (.inl ⟨0,represents_init ready⟩)

theorem wrap_right_four :
    Everywhere (Right 4#64) (eventBusInit true 4#64 ⟨none,0,0⟩).1 [] [.publish zeroEvent,.consume zeroEvent] :=
  (wrap_right (show eventBusInit true 4#64 ⟨none,0,0⟩ = (_,0) from rfl) _).mpr
    ⟨trivial,show (0 : BitVec 64) ≤ 1 by decide,trivial⟩

/-- Publishing and consuming an event, again and again. -/
def rounds : Nat → List Call
  | 0 => []
  | n + 1 => .publish zeroEvent :: .consume zeroEvent :: rounds n

/-- As many rounds as there are counter values bring the bus to its last one. -/
theorem rounds_represent {c : BitVec w} (some_slot : 0 < c.toNat) {P : Bus w → List NuleyeEvent → Call → Prop} {rest : List Call}
    (n : Nat) {b : Bus w} {k : Nat} (rep : Represents c b k []) (few : k + n < 2 ^ w)
    (every : Everywhere P b [] (rounds n ++ rest)) : ∃ b',Represents c b' (k + n) [] ∧ Everywhere P b' [] rest := by
  induction n generalizing b k with
  | zero => exact ⟨b,rep,every⟩
  | succ n ih =>
    have published := publish_represents rep zeroEvent (fun _ => by omega)
    obtain ⟨consume_reply,consumed⟩ := consume_refines published zeroEvent
    obtain ⟨_,_,every⟩ := every
    rw [consume_reply,publish_reply rep zeroEvent,unread_fifo,unread_fifo] at every
    have one : (fifoCall c.toNat [] (.publish zeroEvent)).1 = [zeroEvent] := by simp [fifoCall,push,some_slot]
    rw [List.length_nil,if_pos some_slot,one] at consumed
    rw [one] at every
    obtain ⟨b',rep',last⟩ := ih consumed (by omega) every
    exact ⟨b',by rw [show k + (n + 1) = k + 1 + n by omega]; exact rep',last⟩

/-- With the publish behind the last counter value the bus of the program falls silent: a capacity
    that divides `2 ^ w` does not help. -/
theorem wrap_silences : ¬ ∀ (w : Nat) (c : BitVec w) (calloc : Bool) (b0 b : Bus w),c.toNat ∣ 2 ^ w →
    eventBusInit calloc c b0 = (b,0) → ∀ ops,Everywhere (Right c) b [] ops := by
  intro always
  have ready : eventBusInit true 8192#64 ⟨none,0,0⟩ = (⟨some (Slots.zeroed 8192#64 (by decide)),0,0⟩,0) := rfl
  have right := always 64 8192#64 true _ _ (by decide) ready (rounds (2 ^ 64 - 1) ++ [.publish zeroEvent,.consume zeroEvent])
  have some_slot : 0 < (8192#64).toNat := by decide
  obtain ⟨b,rep,_,consume_right,_⟩ := rounds_represent some_slot _ (represents_init ready) (by decide) right
  have wrapped := represents_wrap rep zeroEvent some_slot (by decide)
  exact (wrapped.consume _ zeroEvent).1 consume_right

end Nulleye.BusWraps
