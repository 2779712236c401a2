import Nulleye.BusLedger

/-!
Handing events over from one thread that only publishes to one thread that only
consumes. Both move a shared counter before they copy, so what the counters say
about a slot is true only up to a copy that is still to be made. Where no copy runs
into the other thread's copy of the same slot, the consumer gets exactly the
published events in the order of their reservations.
-/
namespace Nulleye.BusHandover
open Nulleye.Events Nulleye.EventBus Nulleye.Rings Nulleye.Runs Nulleye.Words Nulleye.BusThreads Nulleye.BusLedger

variable {w : Nat} {capacity : BitVec w} {positive : 0 < capacity.toNat} {trace : List (Label w)} {s : World w}

/-- Thread 0 only publishes and thread 1 only consumes. -/
def OneEach : Action → Prop
  | .call 0 (.publish _) => True
  | .call 1 .consume => True
  | .call _ _ => False
  | .advance _ => True

instance : DecidablePred OneEach
  | .call 0 (.publish _) | .call 1 .consume | .advance _ => .isTrue trivial
  | .call 0 .consume | .call 0 .pending | .call 1 (.publish _) | .call 1 .pending | .call (_ + 2) _ => .isFalse id

/-- The consumer copies an index out only when its publisher is not still to copy it
    in; the publisher copies an index in only when the consumer does not still hold the
    index one lap before; and while the consumer is about to undo its `fetch_add`, the
    publisher loads the tail only if the ring is not full without it. -/
def Separated (s : World w) : Pc w → Prop
  | .publishHead _ head => ∀ tail ∈ held Pc.empty? s, tail + s.slots.gCapacity.toNat ≠ head.toNat
  | .publishIdx _ idx =>
    ∀ tail ∈ held Pc.tail? s ++ held Pc.found? s, tail + s.slots.gCapacity.toNat ≠ idx.toNat
  | .consumeFound tail => ∀ filling ∈ held Pc.idx? s, filling.1 ≠ tail.toNat
  | _ => True

instance : ∀ (s : World w) (pc : Pc w), Decidable (Separated s pc)
  | s, .publishHead _ head =>
    inferInstanceAs (Decidable (∀ tail ∈ held Pc.empty? s, tail + s.slots.gCapacity.toNat ≠ head.toNat))
  | s, .publishIdx _ idx => inferInstanceAs (Decidable (∀ tail ∈ held Pc.tail? s ++ held Pc.found? s,
      tail + s.slots.gCapacity.toNat ≠ idx.toNat))
  | s, .consumeFound tail => inferInstanceAs (Decidable (∀ filling ∈ held Pc.idx? s, filling.1 ≠ tail.toNat))
  | _, .idle | _, .publish _ | _, .publishTail _ _ _ | _, .consume | _, .consumeTail _ | _, .consumeEmpty _
  | _, .pending | _, .pendingHead _ => .isTrue trivial

/-- One publisher and one consumer whose copies are separated. -/
def Paired (s : World w) (a : Action) : Prop := OneEach a ∧ advancing Separated s a

instance (s : World w) (a : Action) : Decidable (Paired s a) := inferInstanceAs (Decidable (_ ∧ _))

/-! ### The two threads -/

/-- The places of a thread that only publishes. -/
@[simp] def Publishing : Pc w → Prop
  | .idle | .publish _ | .publishHead _ _ | .publishTail _ _ _ | .publishIdx _ _ => True
  | _ => False

/-- The places of a thread that only consumes. -/
@[simp] def Consuming : Pc w → Prop
  | .idle | .consume | .consumeTail _ | .consumeEmpty _ | .consumeFound _ => True
  | _ => False

/-- The ticket that a consumer has taken and neither undone nor copied out. -/
@[simp] def ticket? : Pc w → Option (BitVec w)
  | .consumeTail tail | .consumeEmpty tail | .consumeFound tail => some tail
  | _ => none

/-- The ticket that a consumer may still read the slot of. -/
@[simp] def reading? : Pc w → Option (BitVec w)
  | .consumeTail tail | .consumeFound tail => some tail
  | _ => none

/-- The index that a publisher past its fullness test is going to copy in. -/
@[simp] def target? (g : Shared w) : Pc w → Option (BitVec w)
  | .publishTail _ _ _ => some g.gHead
  | .publishIdx _ idx => some idx
  | _ => none

/-- What holds between a publisher at `p` and a consumer at `q`, after the given
    reservations, copies in and copies out; `rest` has been copied in and not copied out. -/
structure Between (reserved copied delivered rest : List (Nat × NuleyeEvent)) (g : Shared w) (p q : Pc w) : Prop where
  publishing : Publishing p
  consuming : Consuming q
  indices : reserved.map Prod.fst = List.range reserved.length
  head : g.gHead.toNat = reserved.length
  filled : reserved = copied ++ (Pc.idx? p).toList
  handed : copied = delivered ++ rest
  queue : Holds g.slots.positive g.slots.gRing delivered.length (rest.map Prod.snd)
  waiting : ticket? q = none → g.gTail.toNat = delivered.length
  ticket : ∀ t, ticket? q = some t → t.toNat = delivered.length ∧ g.gTail = t + 1
  found : ∀ t, q = .consumeFound t → t.toNat < reserved.length
  loaded : ∀ ev head, p = .publishHead ev head → head = g.gHead
  room : ∀ i, target? g p = some i → i.toNat < delivered.length + g.slots.gCapacity.toNat ∨
    i.toNat = delivered.length + g.slots.gCapacity.toNat ∧ (reading? q).isSome

section Moves
variable {g : Shared w} {p q r : Pc w} {reserved copied delivered rest : List (Nat × NuleyeEvent)}

/-- Reserved indices count up, so an index is its own position. -/
theorem index_eq (indices : reserved.map Prod.fst = List.range reserved.length)
    {front back : List (Nat × NuleyeEvent)} {x : Nat × NuleyeEvent} (whole : reserved = front ++ x :: back) :
    x.1 = front.length := by
  have position := congrArg (fun l => l[front.length]?) indices
  rw [whole] at position
  simpa using position

/-- The index that is still to be copied in is the last one. -/
theorem Between.filling (inv : Between reserved copied delivered rest g p q) {ev : NuleyeEvent} {idx : BitVec w}
    (at_idx : p = .publishIdx ev idx) : idx.toNat = copied.length ∧ reserved.length = copied.length + 1 := by
  subst at_idx
  have filled : reserved = copied ++ [(idx.toNat,ev)] := inv.filled
  exact ⟨index_eq inv.indices filled,by rw [filled,List.length_append,List.length_singleton]⟩

/-- A tail one past the head makes the ring look full. -/
theorem full_of_ahead (g : Shared w) (ahead : g.gTail = g.gHead + 1) : g.slots.full g.gHead g.gTail := by
  have limit := g.slots.gCapacity.isLt
  have wrapped : g.gHead - g.gTail = BitVec.allOnes w := by
    rw [ahead,← BitVec.neg_one_eq_allOnes]
    grind
  rw [Slots.full,wrapped,BitVec.le_def,BitVec.toNat_allOnes]
  omega

/-- A publisher that finds room has room, or finds the room of the slot that the consumer is reading. -/
theorem Between.roomy (inv : Between reserved copied delivered rest g p q) (test : ¬ g.slots.full g.gHead g.gTail)
    (separated : ∀ t, q = .consumeEmpty t → t.toNat + g.slots.gCapacity.toNat ≠ g.gHead.toNat) :
    g.gHead.toNat < delivered.length + g.slots.gCapacity.toNat ∨
      g.gHead.toNat = delivered.length + g.slots.gCapacity.toNat ∧ (reading? q).isSome := by
  have head := inv.head
  have lengths := congrArg List.length inv.filled
  have handed := congrArg List.length inv.handed
  rw [List.length_append] at lengths handed
  cases taken : ticket? q with
  | none =>
    have counted := inv.waiting taken
    have ordered : g.gTail ≤ g.gHead := by rw [BitVec.le_def]; omega
    rw [full_iff _ ordered] at test
    omega
  | some t =>
    obtain ⟨own,tail⟩ := inv.ticket t taken
    by_cases level : t = g.gHead
    · exact absurd (full_of_ahead g (level ▸ tail)) test
    · have behind : t.toNat ≠ g.gHead.toNat := fun same => level (BitVec.eq_of_toNat_eq same)
      have limit := g.gHead.isLt
      have counted : g.gTail.toNat = t.toNat + 1 := by rw [tail]; exact toNat_succ (by omega)
      have ordered : g.gTail ≤ g.gHead := by rw [BitVec.le_def]; omega
      rw [full_iff _ ordered] at test
      cases q with
      | consumeTail tail' | consumeFound tail' => simp; omega
      | consumeEmpty tail' =>
        cases taken
        have := separated t rfl
        omega
      | _ => cases taken

/-- The publisher is somewhere else, without a reservation and a target, or with the target it had. -/
theorem Between.wander (inv : Between reserved copied delivered rest g p q) (publishing : Publishing r)
    (before : Pc.idx? p = none) (after : Pc.idx? r = none)
    (loaded : ∀ ev head, r = .publishHead ev head → head = g.gHead)
    (room : ∀ i, target? g r = some i → i.toNat < delivered.length + g.slots.gCapacity.toNat ∨
      i.toNat = delivered.length + g.slots.gCapacity.toNat ∧ (reading? q).isSome) :
    Between reserved copied delivered rest g r q where
  publishing := publishing
  consuming := inv.consuming
  indices := inv.indices
  head := inv.head
  filled := by rw [inv.filled,before,after]
  handed := inv.handed
  queue := inv.queue
  waiting := inv.waiting
  ticket := inv.ticket
  found := inv.found
  loaded := loaded
  room := room

theorem Between.reserve {ev : NuleyeEvent} {head tail : BitVec w}
    (inv : Between reserved copied delivered rest g (.publishTail ev head tail) q)
    (fits : reserved.length + 1 < 2 ^ w) :
    Between (reserved ++ [(g.gHead.toNat,ev)]) copied delivered rest { g with gHead := g.gHead + 1 }
      (.publishIdx ev g.gHead) q where
  publishing := trivial
  consuming := inv.consuming
  indices := by simp [inv.indices,inv.head,List.range_succ]
  head := by
    have head := inv.head
    rw [List.length_append,← head]
    exact toNat_succ (by omega)
  filled := by
    have filled : reserved = copied ++ [] := inv.filled
    rw [filled,List.append_nil]
    rfl
  handed := inv.handed
  queue := inv.queue
  waiting := inv.waiting
  ticket := inv.ticket
  found := by
    intro t at_found
    have := inv.found t at_found
    rw [List.length_append]
    omega
  loaded := by simp
  room := inv.room

theorem Between.copyIn {ev : NuleyeEvent} {idx : BitVec w}
    (inv : Between reserved copied delivered rest g (.publishIdx ev idx) q)
    (separated : ∀ t, reading? q = some t → t.toNat + g.slots.gCapacity.toNat ≠ idx.toNat) :
    Between reserved (copied ++ [(idx.toNat,ev)]) delivered (rest ++ [(idx.toNat,ev)])
      { g with slots := g.slots.copyIn idx ev } .idle q where
  publishing := trivial
  consuming := inv.consuming
  indices := inv.indices
  head := inv.head
  filled := by rw [inv.filled]; simp
  handed := by rw [inv.handed,List.append_assoc]
  queue := by
    obtain ⟨last,_⟩ := inv.filling rfl
    have handed := congrArg List.length inv.handed
    rw [List.length_append] at handed
    have close : idx.toNat < delivered.length + g.slots.gCapacity.toNat := by
      rcases inv.room idx rfl with close | ⟨lap,busy⟩
      · exact close
      · obtain ⟨t,reading⟩ := Option.isSome_iff_exists.mp busy
        have taken : ticket? q = some t := by cases q <;> first | exact reading | cases reading
        have own := (inv.ticket t taken).1
        exact absurd (by omega) (separated t reading)
    have pushed := inv.queue.push g.slots.positive (by simp; omega) ev
    rw [List.length_map,← handed,← last] at pushed
    rw [List.map_append,copyIn_ring]
    exact pushed
  waiting := inv.waiting
  ticket := inv.ticket
  found := inv.found
  loaded := by simp
  room := by simp

/-- A publisher's target is at most the head. -/
theorem Between.target_le (inv : Between reserved copied delivered rest g p q) {i : BitVec w}
    (target : target? g p = some i) : i.toNat ≤ g.gHead.toNat := by
  have head := inv.head
  cases p with
  | publishTail ev head' tail =>
    cases target
    exact le_refl _
  | publishIdx ev idx =>
    cases target
    obtain ⟨last,more⟩ := inv.filling rfl
    omega
  | _ => cases target

/-- The consumer moves on with the ticket it has, or still without one. -/
theorem Between.linger (inv : Between reserved copied delivered rest g p q) (consuming : Consuming r)
    (same : ticket? r = ticket? q) (found : ∀ t, r = .consumeFound t → t.toNat < reserved.length)
    (reads : ∀ i, target? g p = some i → i.toNat = delivered.length + g.slots.gCapacity.toNat →
      (reading? q).isSome → (reading? r).isSome) : Between reserved copied delivered rest g p r where
  publishing := inv.publishing
  consuming := consuming
  indices := inv.indices
  head := inv.head
  filled := inv.filled
  handed := inv.handed
  queue := inv.queue
  waiting := by rw [same]; exact inv.waiting
  ticket := by rw [same]; exact inv.ticket
  found := found
  loaded := inv.loaded
  room := by
    intro i target
    rcases inv.room i target with close | ⟨lap,busy⟩
    · exact .inl close
    · exact .inr ⟨lap,reads i target lap busy⟩

/-- What a publisher writes next does not depend on the tail. -/
theorem target_tail (g : Shared w) (tail : BitVec w) (p : Pc w) : target? { g with gTail := tail } p = target? g p := by
  cases p <;> rfl

theorem Between.take (inv : Between reserved copied delivered rest g p .consume) :
    Between reserved copied delivered rest { g with gTail := g.gTail + 1 } p (.consumeTail g.gTail) where
  publishing := inv.publishing
  consuming := trivial
  indices := inv.indices
  head := inv.head
  filled := inv.filled
  handed := inv.handed
  queue := inv.queue
  waiting := by simp
  ticket := by
    rintro t ⟨⟩
    exact ⟨inv.waiting rfl,rfl⟩
  found := by simp
  loaded := inv.loaded
  room := by
    intro i target
    rw [target_tail] at target
    exact .inl ((inv.room i target).resolve_right (by simp))

theorem Between.undo {t : BitVec w} (inv : Between reserved copied delivered rest g p (.consumeEmpty t)) :
    Between reserved copied delivered rest { g with gTail := g.gTail - 1 } p .idle where
  publishing := inv.publishing
  consuming := trivial
  indices := inv.indices
  head := inv.head
  filled := inv.filled
  handed := inv.handed
  queue := inv.queue
  waiting := by
    intro _
    obtain ⟨own,tail⟩ := inv.ticket t rfl
    have restored : g.gTail - 1 = t := by rw [tail]; exact BitVec.add_sub_cancel t 1
    rw [restored,own]
  ticket := by simp
  found := by simp
  loaded := inv.loaded
  room := by
    intro i target
    rw [target_tail] at target
    exact .inl ((inv.room i target).resolve_right (by simp))

/-- The slot that the consumer copies out holds the oldest event not yet delivered. -/
theorem Between.oldest {t : BitVec w} (inv : Between reserved copied delivered rest g p (.consumeFound t))
    (separated : ∀ filling ∈ (Pc.idx? p).toList, filling.1 ≠ t.toNat) :
    ∃ later, rest = (t.toNat,g.slots.copyOut t) :: later := by
  have own := (inv.ticket t rfl).1
  have below := inv.found t rfl
  have filled := inv.filled
  have handed := inv.handed
  cases rest with
  | nil =>
    -- All reserved events but the one still to be copied in are delivered, so the ticket is that one's index.
    rw [List.append_nil] at handed
    cases filling : Pc.idx? p with
    | none =>
      rw [filling,Option.toList_none,List.append_nil] at filled
      rw [filled,handed,own] at below
      exact absurd below (lt_irrefl _)
    | some x =>
      rw [filling,Option.toList_some] at filled
      have position := index_eq inv.indices filled
      rw [handed,← own] at position
      exact absurd position (separated x (by rw [filling]; simp))
  | cons x later =>
    rw [handed,List.append_assoc] at filled
    have position := index_eq inv.indices filled
    have front : load g.slots.positive g.slots.gRing delivered.length = x.2 := inv.queue.front
    refine ⟨later,?_⟩
    rw [copyOut_eq,own,front,← position]

theorem Between.copyOut {t : BitVec w} (inv : Between reserved copied delivered rest g p (.consumeFound t))
    (separated : ∀ filling ∈ (Pc.idx? p).toList, filling.1 ≠ t.toNat) :
    ∃ later, Between reserved copied (delivered ++ [(t.toNat,g.slots.copyOut t)]) later g p .idle := by
  obtain ⟨later,rfl⟩ := inv.oldest separated
  obtain ⟨own,tail⟩ := inv.ticket t rfl
  have below := inv.found t rfl
  have head := inv.head
  have limit := g.gHead.isLt
  refine ⟨later,{ inv with
    consuming := trivial
    handed := ?_
    queue := ?_
    waiting := ?_
    ticket := by simp
    found := by simp
    room := ?_ }⟩
  · rw [inv.handed,List.append_assoc,List.singleton_append]
  · rw [List.length_append]
    exact inv.queue.pop
  · intro _
    rw [tail,toNat_succ (by omega),own,List.length_append,List.length_singleton]
  · intro i target
    rw [List.length_append,List.length_singleton]
    rcases inv.room i target with close | ⟨lap,_⟩
    · exact .inl (by omega)
    · exact .inl (by omega)

end Moves

/-! ### The two threads together -/

/-- What holds between the threads after a run. -/
def InStep (trace : List (Label w)) (g : Shared w) (p q : Pc w) : Prop :=
  ∃ rest, Between (reserves trace) (copiesIn trace) (copiesOut trace) rest g p q

/-- The publisher's steps. -/
theorem InStep.publish {g g' : Shared w} {p p' q : Pc w} {obs : Obs w} (together : InStep trace g p q)
    (move : Move g p obs g' p') (calls : ∀ op, obs = .called op → ∃ ev, op = .publish ev)
    (separated : Separated ⟨g,[p,q]⟩ p) (few : (reserves (trace ++ [⟨0,obs⟩])).length < 2 ^ w) :
    InStep (trace ++ [⟨0,obs⟩]) g' p' q := by
  obtain ⟨rest,inv⟩ := together
  simp only [InStep,reserves,copiesIn,copiesOut,seen_snoc] at inv few ⊢
  cases move with
  | call op =>
    obtain ⟨ev,rfl⟩ := calls op rfl
    simpa using ⟨rest,inv.wander trivial rfl rfl (by simp) (by simp)⟩
  | loadHead ev => simpa using ⟨rest,inv.wander trivial rfl rfl (by simp) (by simp)⟩
  | full ev head' test => simpa using ⟨rest,inv.wander trivial rfl rfl (by simp) (by simp)⟩
  | roomy ev head' test =>
    obtain rfl := inv.loaded ev head' rfl
    have room := inv.roomy test (by
      rintro t rfl
      exact separated t.toNat (by simp [held]))
    refine ⟨rest,?_⟩
    simpa using inv.wander (r := .publishTail ev g.gHead g.gTail) trivial rfl rfl (by simp)
      (by rintro i ⟨⟩; exact room)
  | reserve ev head' tail =>
    refine ⟨rest,?_⟩
    simpa using inv.reserve (by simpa using few)
  | copyIn ev idx =>
    have copied := inv.copyIn (by
      intro t reading
      refine separated t.toNat ?_
      cases q with
      | consumeTail tail | consumeFound tail =>
        cases reading
        simp [held]
      | _ => cases reading)
    exact ⟨_,by simpa using copied⟩
  | _ => exact inv.publishing.elim

/-- The consumer's steps. -/
theorem InStep.consume {g g' : Shared w} {p q q' : Pc w} {obs : Obs w} (together : InStep trace g p q)
    (move : Move g q obs g' q') (calls : ∀ op, obs = .called op → op = .consume)
    (separated : Separated ⟨g,[p,q]⟩ q) : InStep (trace ++ [⟨1,obs⟩]) g' p q' := by
  obtain ⟨rest,inv⟩ := together
  simp only [InStep,reserves,copiesIn,copiesOut,seen_snoc] at inv ⊢
  have head := inv.head
  cases move with
  | call op =>
    obtain rfl := calls op rfl
    refine ⟨rest,?_⟩
    simpa using inv.linger (r := .consume) trivial rfl (by simp) (by simp)
  | take =>
    refine ⟨rest,?_⟩
    simpa using inv.take
  | claim tail test =>
    rw [BitVec.lt_def] at test
    refine ⟨rest,?_⟩
    simpa using inv.linger (r := .consumeFound tail) trivial rfl (by rintro t ⟨⟩; omega) (by simp)
  | miss tail test =>
    rw [BitVec.le_def] at test
    refine ⟨rest,?_⟩
    -- Without a valid ticket of the consumer the publisher's target is less than one lap ahead.
    have lap := g.slots.positive
    have own := (inv.ticket tail rfl).1
    simpa using inv.linger (r := .consumeEmpty tail) trivial rfl (by simp)
      (by intro i target far; have := inv.target_le target; omega)
  | undo tail =>
    refine ⟨rest,?_⟩
    simpa using inv.undo
  | copyOut tail =>
    have filling : held Pc.idx? ⟨g,[p,.consumeFound tail]⟩ = (Pc.idx? p).toList := by cases p <;> rfl
    obtain ⟨later,next⟩ := inv.copyOut (by simpa only [Separated,filling] using separated)
    exact ⟨later,by simpa using next⟩
  | _ => exact inv.consuming.elim

theorem in_step (run : Run step Paired (World.initial capacity positive 2) trace s)
    (few : (reserves trace).length < 2 ^ w) : ∃ p q, s.threads = [p,q] ∧ InStep trace s.toShared p q := by
  refine run_induction (I := fun trace s => (reserves trace).length < 2 ^ w →
    ∃ p q, s.threads = [p,q] ∧ InStep trace s.toShared p q) ?_ ?_ run few
  · intro _
    refine ⟨.idle,.idle,rfl,[],?_⟩
    exact {
      publishing := trivial
      consuming := trivial
      indices := rfl
      head := by simp [World.initial,reserves,seen]
      filled := rfl
      handed := rfl
      queue := holds_nil _ _ _
      waiting := by simp [World.initial,copiesOut,seen]
      ticket := by simp
      found := by simp
      loaded := by simp
      room := by simp }
  · intro trace g pool i old obs g' new _ earlier allowed found move few
    obtain ⟨p,q,pair,together⟩ := earlier (reserves_shorter trace _ few)
    cases pair
    obtain ⟨roles,separated⟩ := allowed
    rcases i with _ | _ | i
    · have separated := advancing_of_move separated found move trivial
      cases found
      have next := together.publish move (by
        rintro op rfl
        cases op with
        | publish ev => exact ⟨ev,rfl⟩
        | _ => exact roles.elim) separated few
      exact ⟨new,q,rfl,next⟩
    · have separated := advancing_of_move separated found move trivial
      cases found
      have next := together.consume move (by
        rintro op rfl
        cases op with
        | consume => rfl
        | _ => exact roles.elim) separated
      exact ⟨p,new,rfl,next⟩
    · simp at found

/-- In every run of one publisher and one consumer with fewer than `2 ^ w` reservations
    and with separated copies, the consumer is delivered the reserved events, in the
    order of their reservations and with their indices. -/
theorem handed_over (run : Run step Paired (World.initial capacity positive 2) trace s)
    (few : (reserves trace).length < 2 ^ w) : copiesOut trace <+: reserves trace := by
  obtain ⟨p,q,_,rest,inv⟩ := in_step run few
  refine ⟨rest ++ (Pc.idx? p).toList,?_⟩
  rw [inv.filled,inv.handed,List.append_assoc]

/-- A ring of one slot: the publisher finds room while the consumer reads the slot, and waits with its copy. -/
theorem handed_over_one : ∃ trace : List (Label 64),
    (copiesOut trace).map (fun x => (x.1,x.2.pid)) = [(0,1),(1,2)] ∧ copiesOut trace <+: reserves trace := by
  obtain ⟨trace,s,run,checked⟩ := exists_run_of_check step Paired (World.initial 1#64 (by decide) 2)
    (fun _ trace => decide ((reserves trace).length = 2 ∧
      (copiesOut trace).map (fun x => (x.1,x.2.pid)) = [(0,1),(1,2)]))
    (wholeCall 0 (.publish { zeroEvent with pid := 1 }) 4 ++ wholeCall 1 .consume 1 ++
      wholeCall 0 (.publish { zeroEvent with pid := 2 }) 3 ++ [.advance 1,.advance 1,.advance 0] ++
      wholeCall 1 .consume 3)
    (by decide)
  obtain ⟨two,delivered⟩ := of_decide_eq_true checked
  exact ⟨trace,delivered,handed_over run (by omega)⟩

/-- The consumer takes and claims index 0 between the reservation and the copy of its
    publisher: it delivers the zeroed slot. -/
theorem handed_over_early : ∃ (trace : List (Label 64)) (s : World 64),
    Run step (fun _ a => OneEach a) (World.initial 1#64 (by decide) 2) trace s ∧ (reserves trace).length < 2 ^ 64 ∧
    (reserves trace).map (fun x => (x.1,x.2.pid)) = [(0,1)] ∧
    (copiesOut trace).map (fun x => (x.1,x.2.pid)) = [(0,0)] ∧ ¬ copiesOut trace <+: reserves trace := by
  obtain ⟨trace,s,run,checked⟩ := exists_run_of_check step (fun _ a => OneEach a) (World.initial 1#64 (by decide) 2)
    (fun _ trace => decide ((reserves trace).length = 1 ∧
      (reserves trace).map (fun x => (x.1,x.2.pid)) = [(0,1)] ∧
      (copiesOut trace).map (fun x => (x.1,x.2.pid)) = [(0,0)]))
    (wholeCall 0 (.publish { zeroEvent with pid := 1 }) 3 ++ wholeCall 1 .consume 3)
    (by decide)
  obtain ⟨one,published,delivered⟩ := of_decide_eq_true checked
  refine ⟨trace,s,run,by omega,published,delivered,?_⟩
  intro handed
  have same := handed.map (fun x => (x.1,x.2.pid))
  rw [published,delivered] at same
  exact absurd same (by decide)

end Nulleye.BusHandover
