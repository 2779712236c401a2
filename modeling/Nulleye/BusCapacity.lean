import Nulleye.BusClaiming

/-!
How many events the bus holds while threads interleave. The fullness test of a
publish is made before its reservation, and on a tail that late consumers have
raised, so it bounds the ring only where no other publisher reserves in between and
no consumer is late; and a reserved slot is free only when the publisher and the
consumer of one lap before are done with it.
-/
namespace Nulleye.BusCapacity
open Nulleye.Counting Nulleye.Events Nulleye.EventBus Nulleye.Rings Nulleye.Runs Nulleye.Words Nulleye.BusThreads
  Nulleye.BusLedger Nulleye.BusAccounting Nulleye.BusClaiming

variable {w : Nat} {ok : World w → Action → Prop} {capacity : BitVec w} {positive : 0 < capacity.toNat} {n : Nat}
  {trace : List (Label w)} {s : World w}

/-- The indices that calls in progress hold: reserved and to be copied in, or taken and not copied out. -/
def inProgress (s : World w) : List Nat :=
  (held Pc.idx? s).map Prod.fst ++ (held Pc.tail? s ++ held Pc.found? s)

/-- The steps are in order and wrap no counter. A publisher that finds room loads the tail
    only when no consumer is late, and reserves the head only when it is still the head it
    loaded, no other publisher having reserved since, and when every index that a call in
    progress holds is less than one lap behind. -/
def Spacious (s : World w) : Pc w → Prop
  | .publishHead _ head => s.slots.full head s.gTail ∨ late s = 0
  | .publishTail ev head tail => InOrder s (.publishTail ev head tail) ∧ s.gHead ≠ BitVec.allOnes w ∧ head = s.gHead ∧
      ∀ k ∈ inProgress s, s.gHead.toNat < k + s.slots.gCapacity.toNat
  | pc => InOrder s pc

instance : ∀ (s : World w) (pc : Pc w), Decidable (Spacious s pc)
  | s, .publishHead _ head => inferInstanceAs (Decidable (s.slots.full head s.gTail ∨ late s = 0))
  | s, .publishTail ev head tail => inferInstanceAs (Decidable (InOrder s (.publishTail ev head tail) ∧
      s.gHead ≠ BitVec.allOnes w ∧ head = s.gHead ∧ ∀ k ∈ inProgress s, s.gHead.toNat < k + s.slots.gCapacity.toNat))
  | s, .consume => inferInstanceAs (Decidable (InOrder s .consume))
  | _, .idle | _, .publish _ | _, .publishIdx _ _ | _, .consumeTail _ | _, .consumeEmpty _ | _, .consumeFound _
  | _, .pending | _, .pendingHead _ => .isTrue trivial

theorem spacious_inOrder (s : World w) (pc : Pc w) (spacious : Spacious s pc) : InOrder s pc ∧ NoWrap s pc := by
  cases pc with
  | publishTail ev head tail => exact ⟨spacious.1,spacious.2.1⟩
  | consume => exact ⟨spacious,spacious.1⟩
  | publishHead ev head => exact ⟨trivial,trivial⟩
  | _ => exact ⟨spacious,trivial⟩

/-- How many indices are reserved and not yet claimed by a consume that returns 1.
    Unlike `unclaimed` this counts an index until its consumer has decided. -/
def undecided (trace : List (Label w)) : Nat :=
  (List.range (reserves trace).length).countP (fun k => decide (k ∉ claims trace))

/-- At most `capacity` indices are reserved and not claimed, and every event whose
    publish returned 0 stays in its slot until a consume has copied it out. -/
structure NothingLost (capacity : BitVec w) (trace : List (Label w)) (s : World w) : Prop where
  bounded : undecided trace ≤ capacity.toNat
  kept : ∀ k ev, (k,ev) ∈ copiesIn trace → k ∉ (copiesOut trace).map Prod.fst →
    s.slots.copyOut (BitVec.ofNat w k) = ev

/-! ### The room that the fullness test finds -/

theorem spacious_run (run : Run step (advancing Spacious) (World.initial capacity positive n) trace s) :
    Run step (advancing (fun s pc => InOrder s pc ∧ NoWrap s pc)) (World.initial capacity positive n) trace s :=
  run.weaken (advancing_weaken spacious_inOrder)

/-- Where the loaded tail has passed the loaded head, or lies less than one lap behind it, there is room. -/
theorem lt_of_roomy {slots : Slots w} {head tail : BitVec w} (test : ¬ slots.full head tail) :
    head.toNat < tail.toNat + slots.gCapacity.toNat := by
  by_cases ordered : tail ≤ head
  · have far := mt (full_iff slots ordered).mpr test
    omega
  · rw [BitVec.le_def] at ordered
    omega

/-- The heads that publishers past the fullness test have loaded. -/
@[simp] def Pc.reserving? : Pc w → Option Nat
  | .publishTail _ head _ => some head.toNat
  | _ => none

/-- Publishers past the fullness test loaded a head that has been reached, and where the
    head is still there, fewer than `g_capacity` indices are without an owner. -/
def Room (s : World w) : Prop := ∀ head ∈ held Pc.reserving? s, head ≤ s.gHead.toNat ∧
  (head = s.gHead.toNat → s.gHead.toNat + late s < s.gTail.toNat + s.slots.gCapacity.toNat)

/-- Steps of which the tail and the late consumers profit alike leave the room alone. -/
theorem Room.congr {s' : World w} (inv : Room s) (heads : ∀ head ∈ held Pc.reserving? s', head ∈ held Pc.reserving? s)
    (head : s'.gHead = s.gHead) (same : s'.slots.gCapacity = s.slots.gCapacity)
    (tail : s.gTail.toNat + late s' ≤ s'.gTail.toNat + late s) : Room s' := by
  intro h member
  obtain ⟨reached,room⟩ := inv h (heads h member)
  rw [head,same]
  exact ⟨reached,fun here => by have := room here; omega⟩

theorem room (run : Run step (advancing Spacious) (World.initial capacity positive n) trace s) : Room s := by
  refine run_induction (I := fun _ s => Room s) ?_ ?_ run
  · intro head member
    rw [held_initial rfl] at member
    cases member
  · intro trace g pool i old obs g' new before inv allowed found move
    have safe := noWrap_run (spacious_run before)
    have tails := filterMap_set_perm found Pc.tail? new
    have empties := filterMap_set_perm found Pc.empty? new
    have heads := fun h member =>
      (filterMap_set_perm found Pc.reserving? new).mem_iff (a := h).mp (List.mem_append_right _ member)
    cases move with
    | call op =>
      cases op <;>
      · refine inv.congr heads rfl rfl (Nat.add_le_add_left (Nat.le_of_eq ?_) _)
        exact late_congr rfl tails empties
    | roomy ev head test =>
      have loaded := loaded_le safe head.toNat (List.mem_filterMap.mpr ⟨_,List.mem_of_getElem? found,rfl⟩)
      have counted := head_eq safe
      have same := late_congr (s := ⟨g,pool⟩) (u := ⟨g,pool.set i (.publishTail ev head g.gTail)⟩) rfl tails empties
      intro h member
      rw [same]
      rcases List.mem_append.mp (heads h member) with now | earlier
      · simp only [Pc.reserving?,Option.toList,List.mem_singleton] at now
        subst now
        have nobody : late ⟨g,pool⟩ = 0 := (advancing_of_found allowed found).resolve_left test
        have below := lt_of_roomy test
        simp only at counted ⊢
        exact ⟨by omega,fun here => by omega⟩
      · exact inv h earlier
    | reserve ev head tail =>
      have advanced := toNat_succ_of_ne (advancing_of_found allowed found).2.1
      intro h member
      obtain ⟨reached,_⟩ := inv h (heads h member)
      simp only at advanced reached ⊢
      exact ⟨by omega,fun here => by omega⟩
    | take =>
      have advanced := toNat_succ_of_ne (advancing_of_found allowed found).1
      have more := late_take (s := ⟨g,pool⟩) (u := ⟨{ g with gTail := g.gTail + 1 },pool.set i (.consumeTail g.gTail)⟩)
        rfl tails empties
      refine inv.congr heads rfl rfl ?_
      simp only at advanced more ⊢
      split at more <;> omega
    | claim tail test =>
      refine inv.congr heads rfl rfl (Nat.add_le_add_left (Nat.le_of_eq ?_) _)
      exact late_claim (BitVec.lt_def.mp test) rfl tails empties
    | miss tail test =>
      refine inv.congr heads rfl rfl (Nat.add_le_add_left (Nat.le_of_eq ?_) _)
      exact late_miss (BitVec.le_def.mp test) rfl tails empties
    | undo tail =>
      have reduced := tail_undo safe found
      have fewer := late_undo (s := ⟨g,pool⟩) (u := ⟨{ g with gTail := g.gTail - 1 },pool.set i .idle⟩) rfl tails empties
      refine inv.congr heads rfl rfl ?_
      simp only at reduced fewer ⊢
      omega
    | _ =>
      refine inv.congr heads rfl rfl (Nat.add_le_add_left (Nat.le_of_eq ?_) _)
      exact late_congr rfl tails empties

/-! ### The open indices -/

/-- Every index that was reserved and not copied out is held by a call in progress or has no owner. -/
theorem open_cases (run : Run step ok (World.initial capacity positive n) trace s) {k : Nat}
    (kept : k ∉ (copiesOut trace).map Prod.fst) :
    k ∈ inProgress s ∨ (claims trace).count k + (held Pc.tail? s).count k = 0 := by
  by_cases held : k ∈ held Pc.tail? s
  · exact .inl (List.mem_append_right _ (List.mem_append_left _ held))
  · by_cases member : k ∈ claims trace
    · have found := (List.mem_append.mp ((claims_flow run).mem_iff.mp member)).resolve_left kept
      exact .inl (List.mem_append_right _ (List.mem_append_right _ found))
    · exact .inr (by rw [List.count_eq_zero.mpr held,List.count_eq_zero.mpr member])

/-- Every index still to be copied in, and every reserved index not copied out, is at
    most one lap behind the head. -/
structure Window (trace : List (Label w)) (s : World w) : Prop where
  filling : ∀ k ev, (k,ev) ∈ held Pc.idx? s → s.gHead.toNat ≤ k + s.slots.gCapacity.toNat
  opened : ∀ k < s.gHead.toNat, k ∉ (copiesOut trace).map Prod.fst → s.gHead.toNat ≤ k + s.slots.gCapacity.toNat

theorem Window.shrink {trace' : List (Label w)} {s' : World w} (inv : Window trace s) (head : s'.gHead = s.gHead)
    (same : s'.slots.gCapacity = s.slots.gCapacity) (filling : ∀ x ∈ held Pc.idx? s', x ∈ held Pc.idx? s)
    (copied : ∀ k ∈ (copiesOut trace).map Prod.fst, k ∈ (copiesOut trace').map Prod.fst) : Window trace' s' := by
  constructor
  · intro k ev member
    rw [head,same]
    exact inv.filling k ev (filling _ member)
  · intro k below kept
    rw [head] at below
    rw [head,same]
    exact inv.opened k below (fun member => kept (copied k member))

/-- A publisher that reserves the head leaves one lap of room to every open index. -/
theorem window_reserve (run : Run step (advancing Spacious) (World.initial capacity positive n) trace s)
    (below : s.gHead.toNat + late s < s.gTail.toNat + s.slots.gCapacity.toNat)
    (apart : ∀ k ∈ inProgress s, s.gHead.toNat < k + s.slots.gCapacity.toNat) {k : Nat} (reserved : k < s.gHead.toNat)
    (kept : k ∉ (copiesOut trace).map Prod.fst) : s.gHead.toNat < k + s.slots.gCapacity.toNat := by
  rcases open_cases run kept with busy | free
  · exact apart k busy
  · by_contra far
    have := (once_each (spacious_run run)).owned k reserved (by omega)
    omega

theorem window (run : Run step (advancing Spacious) (World.initial capacity positive n) trace s) : Window trace s := by
  refine run_induction (I := Window) ?_ ?_ run
  · constructor
    · intro k ev member
      rw [held_initial rfl] at member
      cases member
    · intro k below
      simp [World.initial] at below
  · intro trace g pool i old obs g' new before inv allowed found move
    have fills := fun x => (filterMap_set_perm found Pc.idx? new).mem_iff (a := x)
    have copied : ∀ k ∈ (copiesOut trace).map Prod.fst, k ∈ (copiesOut (trace ++ [⟨i,obs⟩])).map Prod.fst := by
      intro k member
      rw [copiesOut,seen_snoc,List.map_append]
      exact List.mem_append_left _ member
    cases move with
    | reserve ev head' tail =>
      obtain ⟨_,fits,still,apart⟩ := advancing_of_found allowed found
      have below := (room before head'.toNat (List.mem_filterMap.mpr ⟨_,List.mem_of_getElem? found,rfl⟩)).2
        (congrArg BitVec.toNat still)
      have advanced := toNat_succ_of_ne fits
      have lap := g.slots.positive
      constructor
      · intro k ev' member
        simp only [advanced]
        rcases List.mem_append.mp ((fills _).mp (List.mem_append_right _ member)) with new | earlier
        · simp only [Pc.idx?,Option.toList,List.mem_singleton,Prod.mk.injEq] at new
          omega
        · exact apart k (List.mem_append_left _ (List.mem_map_of_mem earlier))
      · intro k reserved kept
        simp only [advanced] at reserved ⊢
        rcases Nat.lt_or_ge k g.gHead.toNat with earlier | new
        · exact window_reserve before below apart earlier (fun member => kept (copied k member))
        · omega
    | call op =>
      cases op <;>
        exact inv.shrink rfl rfl (fun x member => (fills x).mp (List.mem_append_right _ member)) copied
    | _ => exact inv.shrink rfl rfl (fun x member => (fills x).mp (List.mem_append_right _ member)) copied

/-! ### The content of the slots -/

theorem copied_below (run : Run step ok (World.initial capacity positive n) trace s)
    (few : (reserves trace).length < 2 ^ w) {k : Nat} {ev : NuleyeEvent} (copied : (k,ev) ∈ copiesIn trace) :
    k < (reserves trace).length := by
  have reserved : k ∈ (reserves trace).map Prod.fst :=
    List.mem_map_of_mem ((reserves_flow run).mem_iff.mpr (List.mem_append_left _ copied))
  rw [reserves_indices run few] at reserved
  exact List.mem_range.mp reserved

/-- No index is reserved twice, so an index still to be copied in has not been copied in before. -/
theorem filling_fresh (run : Run step ok (World.initial capacity positive n) trace s)
    (few : (reserves trace).length < 2 ^ w) {k j : Nat} {ev ev' : NuleyeEvent} (copied : (k,ev) ∈ copiesIn trace)
    (filling : (j,ev') ∈ held Pc.idx? s) : j < (reserves trace).length ∧ j ≠ k := by
  have flowed := (reserves_flow run).map Prod.fst
  rw [reserves_indices run few,List.map_append] at flowed
  have distinct := flowed.nodup_iff.mp List.nodup_range
  have first : k ∈ (copiesIn trace).map Prod.fst := List.mem_map_of_mem copied
  have second : j ∈ (held Pc.idx? s).map Prod.fst := List.mem_map_of_mem filling
  exact ⟨List.mem_range.mp (flowed.mem_iff.mpr (List.mem_append_right _ second)),
    ((List.nodup_append.mp distinct).2.2 k first j second).symm⟩

theorem events_kept (run : Run step (advancing Spacious) (World.initial capacity positive n) trace s) :
    ∀ k ev, (k,ev) ∈ copiesIn trace → k ∉ (copiesOut trace).map Prod.fst →
      load s.slots.positive s.slots.gRing k = ev := by
  refine run_induction (I := fun trace s => ∀ k ev, (k,ev) ∈ copiesIn trace →
    k ∉ (copiesOut trace).map Prod.fst → load s.slots.positive s.slots.gRing k = ev) ?_ ?_ run
  · intro k ev member
    cases member
  · intro trace g pool i old obs g' new before inv allowed found move k ev member kept
    have safe := noWrap_run (spacious_run before)
    have head := head_eq safe
    have limit := g.gHead.isLt
    have open_now : k ∉ (copiesOut trace).map Prod.fst := by
      intro earlier
      apply kept
      rw [copiesOut,seen_snoc,List.map_append]
      exact List.mem_append_left _ earlier
    rw [copiesIn,seen_snoc,List.mem_append] at member
    cases move with
    | copyIn ev' idx =>
      rcases member with earlier | now
      · have filling : (idx.toNat,ev') ∈ held Pc.idx? ⟨g,pool⟩ :=
          List.mem_filterMap.mpr ⟨_,List.mem_of_getElem? found,rfl⟩
        have below := copied_below before (by omega) earlier
        obtain ⟨above,other⟩ := filling_fresh before (by omega) earlier filling
        have first := (window before).filling _ _ filling
        have second := (window before).opened k (by omega) open_now
        simp only at first second head
        exact (load_copyIn_of_lap _ _ other (by omega) (by omega)).trans (inv k ev earlier open_now)
      · simp only [Obs.copiedIn?,Option.toList,List.mem_singleton,Prod.mk.injEq] at now
        obtain ⟨rfl,rfl⟩ := now
        exact load_copyIn_self _ _ _
    | _ =>
      simp only [Obs.copiedIn?,Option.toList,List.not_mem_nil,or_false] at member
      exact inv k ev member open_now

/-- In every run in which no publisher reserves between the loads and the reservation of
    another, no consumer is late when room is found, and no call in progress is a lap
    behind, at most `capacity` indices are reserved and not claimed, and no event whose
    publish returned 0 is overwritten before it is consumed. -/
theorem nothing_lost (run : Run step (advancing Spacious) (World.initial capacity positive n) trace s) :
    NothingLost capacity trace s where
  bounded := by
    have head := head_eq (noWrap_run (spacious_run run))
    have same := capacity_eq run
    have near : undecided trace ≤ (List.range (reserves trace).length).countP
        (fun k => decide ((reserves trace).length - capacity.toNat ≤ k)) := by
      refine List.countP_mono_left ?_
      intro k member waiting
      have below : k < s.gHead.toNat := by rw [head]; exact List.mem_range.mp member
      have kept : k ∉ (copiesOut trace).map Prod.fst := fun copied =>
        of_decide_eq_true waiting ((claims_flow run).mem_iff.mpr (List.mem_append_left _ copied))
      have lap := (window run).opened k below kept
      rw [same] at lap
      exact decide_eq_true (by omega)
    rw [range_from] at near
    omega
  kept := by
    intro k ev member kept
    have head := head_eq (noWrap_run (spacious_run run))
    have limit := s.gHead.isLt
    have below := copied_below run (by omega) member
    rw [copyOut_eq,BitVec.toNat_ofNat,Nat.mod_eq_of_lt (by omega)]
    exact events_kept run k ev member kept

/-- A ring of one slot: an event is published, a consumer takes it, and the next event waits for the copy. -/
theorem nothing_lost_one : ∃ (trace : List (Label 64)) (s : World 64), (copiesIn trace).length = 2 ∧
    (copiesOut trace).length = 1 ∧ NothingLost 1#64 trace s := by
  obtain ⟨trace,s,run,checked⟩ := exists_run_of_check step (advancing Spacious) (World.initial 1#64 (by decide) 2)
    (fun _ trace => decide ((copiesIn trace).length = 2 ∧ (copiesOut trace).length = 1))
    (wholeCall 0 (.publish zeroEvent) 4 ++ wholeCall 1 .consume 1 ++ wholeCall 0 (.publish zeroEvent) 2 ++
      [.advance 1,.advance 1,.advance 0,.advance 0])
    (by decide)
  obtain ⟨two,one⟩ := of_decide_eq_true checked
  exact ⟨trace,s,two,one,nothing_lost run⟩

/-- Two publishers pass the fullness test of a ring of one slot before either of them
    reserves; the second event overwrites the first, whose publish returned 0. -/
theorem publishers_overrun : ∃ (trace : List (Label 64)) (s : World 64),
    Run step free (World.initial 1#64 (by decide) 2) trace s ∧ undecided trace = 2 ∧ unclaimed trace = 2 ∧
    (copiesIn trace).map (fun x => (x.1,x.2.pid)) = [(0,1),(1,0)] ∧ copiesOut trace = [] ∧
    (s.slots.copyOut 0).pid = 0 ∧ ¬ NothingLost 1#64 trace s := by
  obtain ⟨trace,s,run,checked⟩ := exists_run_of_check step free (World.initial 1#64 (by decide) 2)
    (fun s trace => decide (undecided trace = 2 ∧ unclaimed trace = 2 ∧
      (copiesIn trace).map (fun x => (x.1,x.2.pid)) = [(0,1),(1,0)] ∧ copiesOut trace = [] ∧
      (s.slots.copyOut 0).pid = 0))
    (wholeCall 0 (.publish { zeroEvent with pid := 1 }) 2 ++ wholeCall 1 (.publish zeroEvent) 2 ++
      [.advance 0,.advance 0,.advance 1,.advance 1])
    (by decide)
  obtain ⟨two,unclaimed,copied,none,lost⟩ := of_decide_eq_true checked
  exact ⟨trace,s,run,two,unclaimed,copied,none,lost,fun kept => absurd kept.bounded (by rw [two]; decide)⟩

end Nulleye.BusCapacity
