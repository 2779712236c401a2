import Nulleye.BusLedger

/-!
What the counters of the bus say about its content while threads interleave. The
successful consumes never outnumber the reservations, and between calls the
difference of the counters is the number of events published and not consumed.
During calls the difference can wrap below zero; it does not when between the two
loads of a call, and while it loads the tail, no consumer is on its way with a
ticket at or beyond the loaded head.
-/
namespace Nulleye.BusAccounting
open Nulleye.Counting Nulleye.Events Nulleye.EventBus Nulleye.Runs Nulleye.Words Nulleye.BusThreads Nulleye.BusLedger

variable {w : Nat} {ok : World w → Action → Prop} {capacity : BitVec w} {positive : 0 < capacity.toNat} {n : Nat}
  {trace : List (Label w)} {s : World w}

/-! ### Accounting between calls -/

/-- No call is in progress. -/
def Quiet (s : World w) : Prop := ∀ pc ∈ s.threads, pc = .idle

theorem held_quiet {β : Type} {f : Pc w → Option β} (idle : f .idle = none) (quiet : Quiet s) : held f s = [] := by
  rw [held,List.filterMap_eq_nil_iff]
  intro pc member
  rw [quiet pc member,idle]

/-- A run with fewer than `2 ^ w` reservations and fewer than `2 ^ w` tickets never wraps a counter. -/
theorem noWrap_of_few (run : Run step ok (World.initial capacity positive n) trace s)
    (reserved : (reserves trace).length < 2 ^ w) (taken : (takes trace).length < 2 ^ w) :
    Run step (advancing NoWrap) (World.initial capacity positive n) trace s := by
  refine run.strengthen (fun trace => (reserves trace).length < 2 ^ w ∧ (takes trace).length < 2 ^ w)
    ?_ ?_ ⟨reserved,taken⟩
  · intro trace label bounded
    refine ⟨reserves_shorter trace label bounded.1,?_⟩
    simp only [takes,seen_snoc,List.length_append] at bounded ⊢
    omega
  · intro trace t a u label before _ moved bounded
    refine noWrap_of_step before moved bounded.1 ?_
    rintro took full
    have tail := tail_eq before
    have few := bounded.2
    rw [full,BitVec.toNat_allOnes] at tail
    simp only [takes,seen_snoc,List.length_append,took,Obs.took?,Option.toList,List.length_singleton] at few tail
    omega

/-- Whatever duplicate or late tickets there are, the consumes that decided to return 1
    never outnumber the reservations. -/
theorem claims_le_reserves (run : Run step (advancing NoWrap) (World.initial capacity positive n) trace s) :
    (claims trace).length ≤ (reserves trace).length := by
  have below := live_below run (reserves trace).length
  have all : (claims trace).countP (fun t => decide (t < (reserves trace).length)) = (claims trace).length :=
    List.countP_eq_length.mpr (fun k member => by simpa using claims_below run k member)
  omega

/-- Between calls the counters differ by the events published and not yet consumed. -/
theorem pending_quiet (run : Run step (advancing NoWrap) (World.initial capacity positive n) trace s)
    (quiet : Quiet s) : (eventBusPending s.toShared.bus).toNat + (copiesOut trace).length = (copiesIn trace).length := by
  have reserved := (reserves_flow run).length_eq
  have claimed := (claims_flow run).length_eq
  have head := head_eq run
  have tail := tail_live run
  have ordered := claims_le_reserves run
  rw [held_quiet rfl quiet,List.append_nil] at reserved claimed
  rw [held_quiet rfl quiet,held_quiet rfl quiet] at tail
  simp only [List.length_map,List.length_nil] at claimed tail
  have below : s.gTail ≤ s.gHead := by rw [BitVec.le_def]; omega
  simp only [eventBusPending,Shared.bus,BitVec.toNat_sub_of_le below]
  omega

/-- In every run with fewer than `2 ^ w` operations, which leaves fewer than `2 ^ w` on
    each counter, the consumes that decided to return 1 never outnumber the
    reservations, and whenever no call is in progress `event_bus_pending` is the number
    of publishes that returned 0 less the number of consumes that returned 1. -/
theorem event_bus_accounting (run : Run step free (World.initial capacity positive n) trace s)
    (reserved : (reserves trace).length < 2 ^ w) (taken : (takes trace).length < 2 ^ w) :
    (claims trace).length ≤ (reserves trace).length ∧
      (Quiet s → (eventBusPending s.toShared.bus).toNat + (copiesOut trace).length = (copiesIn trace).length) :=
  have safe := noWrap_of_few run reserved taken
  ⟨claims_le_reserves safe,pending_quiet safe⟩

/-- An empty poll, two publishes and a consume. -/
theorem event_bus_accounting_polled : ∃ (trace : List (Label 64)) (s : World 64), Quiet s ∧
    (reserves trace).length = 2 ∧ (misses trace).length = 1 ∧ (claims trace).length ≤ (reserves trace).length ∧
    (eventBusPending s.toShared.bus).toNat + (copiesOut trace).length = (copiesIn trace).length := by
  obtain ⟨trace,s,run,checked⟩ := exists_run_of_check step free (World.initial 4#64 (by decide) 2)
    (fun s trace => decide ((∀ pc ∈ s.threads, pc = .idle) ∧ (reserves trace).length = 2 ∧
      (misses trace).length = 1 ∧ (takes trace).length = 2))
    (wholeCall 0 .consume 3 ++ wholeCall 1 (.publish zeroEvent) 4 ++ wholeCall 1 (.publish zeroEvent) 4 ++
      wholeCall 0 .consume 3)
    (by decide)
  obtain ⟨quiet,two,one,polls⟩ := of_decide_eq_true checked
  obtain ⟨below,counted⟩ := event_bus_accounting run (by omega) (by omega)
  exact ⟨trace,s,quiet,two,one,below,counted quiet⟩

/-! ### Occupancy during calls -/

/-- A consumer that took `k` as its ticket, and has not found the bus empty with it, claims `k`. -/
def Claimed (trace : List (Label w)) (k : Nat) : Prop := (misses trace).count k < (takes trace).count k

instance (trace : List (Label w)) (k : Nat) : Decidable (Claimed trace k) := inferInstanceAs (Decidable (_ < _))

/-- How many indices are reserved and not yet claimed. -/
def unclaimed (trace : List (Label w)) : Nat :=
  (List.range (reserves trace).length).countP (fun k => decide (¬ Claimed trace k))

/-- What the occupancy that publish and pending compute may be used for: a publish
    finds the bus full only if at some moment of that call at least `capacity` indices
    were reserved and not yet claimed, pending never counts more events than were
    reserved, and the difference of a loaded head and tail never wraps below zero. -/
structure SoundOccupancy (capacity : BitVec w) (trace : List (Label w)) : Prop where
  full : ∀ before i ev during head tail after,
    trace = before ++ ⟨i,.called (.publish ev)⟩ :: (during ++ ⟨i,.full head tail⟩ :: after) →
    (∀ op, ⟨i,.called op⟩ ∉ during) →
    ∃ m ≤ during.length, capacity.toNat ≤ unclaimed (before ++ ⟨i,.called (.publish ev)⟩ :: during.take m)
  pending : ∀ before i head tail after, trace = before ++ ⟨i,.pended head tail⟩ :: after →
    (head - tail).toNat ≤ (reserves before).length
  ordered : ∀ label ∈ trace, ∀ head tail, label.obs = .full head tail ∨ label.obs = .roomy head tail ∨
    label.obs = .pended head tail → tail ≤ head

/-- The head that a publish or a pending between its two loads has loaded. -/
@[simp] def Pc.head? : Pc w → Option Nat
  | .publishHead _ head | .pendingHead head => some head.toNat
  | _ => none

/-- A publish or a pending loads the tail only when no consumer still has to decide on, or
    to undo, a ticket at or beyond the head that the call loaded before; a consumer finds
    its ticket reserved only when it lies below every head that a call between its two
    loads has loaded; and no `fetch_add` wraps its counter. -/
def Undisturbed (s : World w) : Pc w → Prop
  | .publishHead _ head => ∀ t ∈ held Pc.tail? s ++ held Pc.empty? s, t < head.toNat
  | .pendingHead head => ∀ t ∈ held Pc.tail? s ++ held Pc.empty? s, t < head.toNat
  | .consumeTail tail => tail < s.gHead → ∀ head ∈ held Pc.head? s, tail.toNat < head
  | pc => NoWrap s pc

instance : ∀ (s : World w) (pc : Pc w), Decidable (Undisturbed s pc)
  | s, .publishHead _ head | s, .pendingHead head =>
    inferInstanceAs (Decidable (∀ t ∈ held Pc.tail? s ++ held Pc.empty? s, t < head.toNat))
  | s, .consumeTail tail => inferInstanceAs (Decidable (tail < s.gHead → ∀ head ∈ held Pc.head? s, tail.toNat < head))
  | s, .idle => inferInstanceAs (Decidable (NoWrap s .idle))
  | s, .publish ev => inferInstanceAs (Decidable (NoWrap s (.publish ev)))
  | s, .publishTail ev head tail => inferInstanceAs (Decidable (NoWrap s (.publishTail ev head tail)))
  | s, .publishIdx ev idx => inferInstanceAs (Decidable (NoWrap s (.publishIdx ev idx)))
  | s, .consume => inferInstanceAs (Decidable (NoWrap s .consume))
  | s, .consumeEmpty tail => inferInstanceAs (Decidable (NoWrap s (.consumeEmpty tail)))
  | s, .consumeFound tail => inferInstanceAs (Decidable (NoWrap s (.consumeFound tail)))
  | s, .pending => inferInstanceAs (Decidable (NoWrap s .pending))

theorem undisturbed_noWrap (s : World w) (pc : Pc w) (undisturbed : Undisturbed s pc) : NoWrap s pc := by
  cases pc with
  | publishHead | pendingHead | consumeTail => trivial
  | _ => exact undisturbed

/-- A head that a call between its two loads has loaded is at most the number of reservations. -/
theorem loaded_le (run : Run step (advancing NoWrap) (World.initial capacity positive n) trace s) :
    ∀ head ∈ held Pc.head? s, head ≤ (reserves trace).length := by
  refine run_induction (I := fun trace s => ∀ head ∈ held Pc.head? s, head ≤ (reserves trace).length) ?_ ?_ run
  · simp [held_initial (f := Pc.head?) rfl]
  · intro trace g pool i old obs g' new before below _ found move head member
    have counted := head_eq before
    have heads := (filterMap_set_perm found Pc.head? new).mem_iff.mp (List.mem_append_right _ member)
    simp only [reserves,seen_snoc,List.length_append] at below counted ⊢
    rcases List.mem_append.mp heads with now | earlier
    · cases move with
      | call op => cases op <;> cases now
      | loadHead | loadPending =>
        simp only [Pc.head?,Option.toList,List.mem_singleton] at now
        omega
      | _ => cases now
    · have := below head earlier
      omega

/-- Every claimed index lies below every head that a call between its two loads has loaded. -/
theorem claims_below_loaded (run : Run step (advancing Undisturbed) (World.initial capacity positive n) trace s) :
    ∀ head ∈ held Pc.head? s, ∀ k ∈ claims trace, k < head := by
  refine run_induction (I := fun trace s => ∀ head ∈ held Pc.head? s, ∀ k ∈ claims trace, k < head) ?_ ?_ run
  · simp [held_initial (f := Pc.head?) rfl]
  · intro trace g pool i old obs g' new before below allowed found move head member k claimed
    have safe := before.weaken (advancing_weaken undisturbed_noWrap)
    have heads := (filterMap_set_perm found Pc.head? new).mem_iff.mp (List.mem_append_right _ member)
    rw [claims,seen_snoc,List.mem_append] at claimed
    cases move with
    | claim tail test =>
      rcases claimed with earlier | now
      · exact below head heads k earlier
      · simp only [Obs.claimed?,Option.toList,List.mem_singleton] at now
        subst now
        exact advancing_of_found allowed found test head heads
    | call op => cases op <;> exact below head heads k (claimed.resolve_right (by simp))
    | loadHead | loadPending =>
      have earlier := claimed.resolve_right (by simp)
      rcases List.mem_append.mp heads with now | loaded
      · simp only [Pc.head?,Option.toList,List.mem_singleton] at now
        have reserved := claims_below safe k earlier
        have counted := head_eq safe
        simp only at counted
        omega
      · exact below head loaded k earlier
    | _ => exact below head heads k (claimed.resolve_right (by simp))

/-- Where all tickets that were claimed or are still held lie below `k`, so does the tail. -/
theorem tail_le (run : Run step (advancing NoWrap) (World.initial capacity positive n) trace s) {k : Nat}
    (claimed : ∀ t ∈ claims trace, t < k) (holds : ∀ t ∈ held Pc.tail? s ++ held Pc.empty? s, t < k) :
    s.gTail.toNat ≤ k := by
  have below := live_below run k
  have live := tail_live run
  have all : ∀ l : List Nat, (∀ t ∈ l, t < k) → l.countP (fun t => decide (t < k)) = l.length :=
    fun l small => List.countP_eq_length.mpr (by simpa using small)
  rw [all _ claimed,all _ (fun t member => holds t (List.mem_append_left _ member)),
    all _ (fun t member => holds t (List.mem_append_right _ member))] at below
  omega

/-- At least `reservations - tail` indices are reserved and not yet claimed. -/
theorem unclaimed_ge (run : Run step (advancing NoWrap) (World.initial capacity positive n) trace s) :
    (reserves trace).length ≤ unclaimed trace + s.gTail.toNat := by
  have covered := range_covered_le (claims trace ++ held Pc.tail? s) (reserves trace).length
  have tail := tail_live run
  have taken := takes_flow run
  have whole := List.length_eq_countP_add_countP (fun k => decide (Claimed trace k))
    (l := List.range (reserves trace).length)
  have claimed : (List.range (reserves trace).length).countP (fun k => decide (Claimed trace k)) ≤
      (List.range (reserves trace).length).countP (fun k => decide (k ∈ claims trace ++ held Pc.tail? s)) := by
    refine List.countP_mono_left ?_
    intro k _ holds
    have more : (misses trace).count k < (takes trace).count k := of_decide_eq_true holds
    rw [taken.count_eq k,List.count_append,List.count_append] at more
    have some : 0 < (claims trace ++ held Pc.tail? s).count k := by rw [List.count_append]; omega
    exact decide_eq_true (List.count_pos_iff.mp some)
  simp only [List.length_append,List.length_range,decide_eq_true_eq] at covered whole
  simp only [unclaimed]
  omega

/-- Wherever a run loads the tail, the loaded tail is the counter's value there, and
    it has not passed the head loaded before, which is at most the reservations. -/
theorem tail_load {front back : List (Label w)} {label : Label w} {head tail : BitVec w}
    (run : Run step (advancing Undisturbed) (World.initial capacity positive n) (front ++ label :: back) s)
    (loads : label.obs = .full head tail ∨ label.obs = .roomy head tail ∨ label.obs = .pended head tail) :
    ∃ t : World w, Run step (advancing NoWrap) (World.initial capacity positive n) front t ∧ tail = t.gTail ∧
      tail ≤ head ∧ head.toNat ≤ (reserves front).length ∧
      (label.obs = .full head tail → t.slots.full head tail) := by
  obtain ⟨t,a,u,before,allowed,moved⟩ := run.at_label
  have safe := before.weaken (advancing_weaken undisturbed_noWrap)
  obtain ⟨rfl,old,new,found,_,move⟩ := step_move moved
  obtain ⟨i,obs⟩ := label
  have member := fun head (loaded : Pc.head? old = some head) =>
    List.mem_filterMap.mpr ⟨old,List.mem_of_getElem? found,loaded⟩
  have behind := fun (head : BitVec w) (loaded : Pc.head? old = some head.toNat)
    (holds : ∀ x ∈ held Pc.tail? t ++ held Pc.empty? t, x < head.toNat) =>
      BitVec.le_def.mpr (tail_le safe (claims_below_loaded before _ (member _ loaded)) holds)
  generalize u.toShared = g' at move
  refine ⟨t,safe,?_⟩
  cases move with
  | full ev head' test =>
    simp only [Obs.full.injEq,reduceCtorEq,or_false] at loads
    obtain ⟨rfl,rfl⟩ := loads
    exact ⟨rfl,behind _ rfl (advancing_of_found allowed found),loaded_le safe _ (member _ rfl),fun _ => test⟩
  | roomy ev head' test =>
    simp only [Obs.roomy.injEq,reduceCtorEq,false_or,or_false] at loads
    obtain ⟨rfl,rfl⟩ := loads
    exact ⟨rfl,behind _ rfl (advancing_of_found allowed found),loaded_le safe _ (member _ rfl),fun same => by cases same⟩
  | pend head' =>
    simp only [Obs.pended.injEq,reduceCtorEq,false_or] at loads
    obtain ⟨rfl,rfl⟩ := loads
    exact ⟨rfl,behind _ rfl (advancing_of_found allowed found),loaded_le safe _ (member _ rfl),fun same => by cases same⟩
  | _ => simp at loads

/-- In every run in which no ticket at or beyond a loaded head is claimed before the tail
    is loaded, or held when it is, and in which no counter wraps, the occupancy is sound. -/
theorem occupancy_sound (run : Run step (advancing Undisturbed) (World.initial capacity positive n) trace s) :
    SoundOccupancy capacity trace where
  full := by
    intro before i ev during head tail after whole _
    rw [whole,← List.cons_append,← List.append_assoc] at run
    obtain ⟨t,front,rfl,ordered,loaded,test⟩ := tail_load run (.inl rfl)
    -- The bus is as full as the test says at the moment of the test.
    have occupied := (full_iff t.slots ordered).mp (test rfl)
    rw [capacity_eq front] at occupied
    have least := unclaimed_ge front
    refine ⟨during.length,le_refl _,?_⟩
    rw [List.take_length]
    omega
  pending := by
    intro before i head tail after whole
    rw [whole] at run
    obtain ⟨t,_,_,ordered,loaded,_⟩ := tail_load run (.inr (.inr rfl))
    rw [BitVec.toNat_sub_of_le ordered]
    omega
  ordered := by
    intro label member head tail loads
    obtain ⟨front,back,rfl⟩ := List.append_of_mem member
    obtain ⟨_,_,_,ordered,_⟩ := tail_load run loads
    exact ordered

/-- After an empty poll a full ring of one slot refuses the second of two publishes, and one event is pending. -/
theorem occupancy_sound_full : ∃ trace : List (Label 64), ⟨1,.undone 0⟩ ∈ trace ∧ ⟨0,.full 1 0⟩ ∈ trace ∧
    ⟨1,.pended 1 0⟩ ∈ trace ∧ SoundOccupancy 1#64 trace := by
  have executed : exec step (advancing Undisturbed) (World.initial 1#64 (by decide) 2)
      (wholeCall 1 .consume 3 ++ wholeCall 0 (.publish zeroEvent) 4 ++ wholeCall 0 (.publish zeroEvent) 2 ++
        wholeCall 1 .pending 2) =
      some (⟨⟨(Slots.zeroed 1#64 (by decide)).copyIn 0 zeroEvent,1,0⟩,[.idle,.idle]⟩,
        [⟨1,.called .consume⟩,⟨1,.took 0⟩,⟨1,.missed 0⟩,⟨1,.undone 0⟩,⟨0,.called (.publish zeroEvent)⟩,
          ⟨0,.loadedHead 0⟩,⟨0,.roomy 0 0⟩,⟨0,.reserved 0 zeroEvent⟩,⟨0,.copiedIn 0 zeroEvent⟩,
          ⟨0,.called (.publish zeroEvent)⟩,⟨0,.loadedHead 1⟩,⟨0,.full 1 0⟩,⟨1,.called .pending⟩,⟨1,.loadedHead 1⟩,
          ⟨1,.pended 1 0⟩]) := rfl
  exact ⟨_,by simp,by simp,by simp,occupancy_sound (run_of_exec executed)⟩

/-- A consumer inside an empty poll makes an empty bus look full to a publisher, and
    full beyond any capacity to a caller of pending. -/
def emptyPoll : List (Label 64) :=
  [⟨0,.called .consume⟩,⟨0,.took 0⟩,⟨1,.called (.publish zeroEvent)⟩,⟨1,.loadedHead 0⟩,⟨1,.full 0 1⟩,
    ⟨2,.called .pending⟩,⟨2,.loadedHead 0⟩,⟨2,.pended 0 1⟩]

theorem occupancy_wraps : (∃ s, Run step free (World.initial 4#64 (by decide) 3) emptyPoll s) ∧
    ¬ SoundOccupancy 4#64 emptyPoll := by
  have executed : exec step free (World.initial 4#64 (by decide) 3)
      ([.call 0 .consume,.advance 0] ++ wholeCall 1 (.publish zeroEvent) 2 ++ wholeCall 2 .pending 2) =
      some (⟨⟨Slots.zeroed 4#64 (by decide),0,1⟩,[.consumeTail 0,.idle,.idle]⟩,emptyPoll) := rfl
  refine ⟨⟨_,run_of_exec executed⟩,?_⟩
  intro sound
  obtain ⟨m,_,crowded⟩ := sound.full [⟨0,.called .consume⟩,⟨0,.took 0⟩] 1 zeroEvent [⟨1,.loadedHead 0⟩] 0 1 _ rfl
    (by simp)
  rcases m with _ | m <;> simp [unclaimed,reserves,seen] at crowded

end Nulleye.BusAccounting
