import Nulleye.BusThreads

/-!
What a run of the bus has done so far and what its threads still hold. Every
ticket a consumer takes is claimed, missed or still held; every missed ticket is
undone or still to be undone; every claimed index is copied out or still to be
copied out; every reserved index is copied in or still to be copied in. Without
wrap-around the two counters count exactly these.
-/
namespace Nulleye.BusLedger
open Nulleye.Counting Nulleye.Events Nulleye.EventBus Nulleye.Runs Nulleye.Words Nulleye.BusThreads

variable {w : Nat} {β : Type}

/-! ### What is seen and what is held -/

@[simp] def Obs.reserved? : Obs w → Option (Nat × NuleyeEvent)
  | .reserved idx ev => some (idx.toNat,ev)
  | _ => none
@[simp] def Obs.copiedIn? : Obs w → Option (Nat × NuleyeEvent)
  | .copiedIn idx ev => some (idx.toNat,ev)
  | _ => none
@[simp] def Obs.took? : Obs w → Option Nat
  | .took tail => some tail.toNat
  | _ => none
@[simp] def Obs.claimed? : Obs w → Option Nat
  | .claimed tail => some tail.toNat
  | _ => none
@[simp] def Obs.missed? : Obs w → Option Nat
  | .missed tail => some tail.toNat
  | _ => none
@[simp] def Obs.undone? : Obs w → Option Nat
  | .undone tail => some tail.toNat
  | _ => none
@[simp] def Obs.copiedOut? : Obs w → Option (Nat × NuleyeEvent)
  | .copiedOut tail ev => some (tail.toNat,ev)
  | _ => none

@[simp] def Pc.idx? : Pc w → Option (Nat × NuleyeEvent)
  | .publishIdx ev idx => some (idx.toNat,ev)
  | _ => none
@[simp] def Pc.tail? : Pc w → Option Nat
  | .consumeTail tail => some tail.toNat
  | _ => none
@[simp] def Pc.empty? : Pc w → Option Nat
  | .consumeEmpty tail => some tail.toNat
  | _ => none
@[simp] def Pc.found? : Pc w → Option Nat
  | .consumeFound tail => some tail.toNat
  | _ => none

/-- What the steps of a run show, oldest first. -/
def seen (f : Obs w → Option β) (trace : List (Label w)) : List β := trace.filterMap (fun l => f l.obs)
/-- What the threads hold. -/
def held (f : Pc w → Option β) (s : World w) : List β := s.threads.filterMap f

/-- The indices that publishers reserved, with their events. -/
def reserves (trace : List (Label w)) : List (Nat × NuleyeEvent) := seen Obs.reserved? trace
/-- The indices and events of the publishes that returned 0. -/
def copiesIn (trace : List (Label w)) : List (Nat × NuleyeEvent) := seen Obs.copiedIn? trace
/-- The tickets that consumers took. -/
def takes (trace : List (Label w)) : List Nat := seen Obs.took? trace
/-- The tickets of the consumes that decided to return 1. -/
def claims (trace : List (Label w)) : List Nat := seen Obs.claimed? trace
/-- The tickets of the consumes that found the bus empty. -/
def misses (trace : List (Label w)) : List Nat := seen Obs.missed? trace
/-- The tickets of the consumes that returned 0. -/
def undoes (trace : List (Label w)) : List Nat := seen Obs.undone? trace
/-- The tickets of the consumes that returned 1, with the events they delivered. -/
def copiesOut (trace : List (Label w)) : List (Nat × NuleyeEvent) := seen Obs.copiedOut? trace

theorem seen_snoc (f : Obs w → Option β) (trace : List (Label w)) (label : Label w) :
    seen f (trace ++ [label]) = seen f trace ++ (f label.obs).toList := by
  rw [seen,List.filterMap_append,List.filterMap_cons,List.filterMap_nil]
  cases f label.obs <;> rfl

/-! ### Flows -/

variable {ok : World w → Action → Prop} {capacity : BitVec w} {positive : 0 < capacity.toNat} {n : Nat}
  {trace : List (Label w)} {s : World w}

/-- Threads outside every call hold nothing. -/
theorem held_initial {f : Pc w → Option β} (idle : f .idle = none) :
    held f (World.initial capacity positive n) = [] := by
  rw [held,List.filterMap_eq_nil_iff]
  intro pc member
  rw [(List.mem_replicate.mp member).2,idle]

/-- What enters the threads by one kind of step leaves them by one of two kinds or is still held. -/
theorem flow [DecidableEq β] (enter leave escape : Obs w → Option β) (hold : Pc w → Option β)
    (idle : hold .idle = none)
    (moves : ∀ {g g' : Shared w} {pc pc' : Pc w} {obs : Obs w}, Move g pc obs g' pc' →
      (enter obs).toList ++ (hold pc).toList = (leave obs).toList ++ ((escape obs).toList ++ (hold pc').toList))
    (run : Run step ok (World.initial capacity positive n) trace s) :
    (seen enter trace).Perm (seen leave trace ++ (seen escape trace ++ held hold s)) := by
  refine run_induction (I := fun trace s =>
    (seen enter trace).Perm (seen leave trace ++ (seen escape trace ++ held hold s))) ?_ ?_ run
  · simp [seen,held_initial idle]
  · intro trace g pool i old obs g' new _ balance _ found move
    have pool := filterMap_set_perm found hold new
    rw [List.perm_iff_count] at balance pool ⊢
    intro x
    have before := balance x
    have replaced := pool x
    have moving := congrArg (List.count x) (moves move)
    simp only [seen_snoc,held,List.count_append] at before replaced moving ⊢
    omega

/-- Every ticket taken was claimed, was missed, or is held by a consumer about to decide. -/
theorem takes_flow (run : Run step ok (World.initial capacity positive n) trace s) :
    (takes trace).Perm (claims trace ++ (misses trace ++ held Pc.tail? s)) :=
  flow Obs.took? Obs.claimed? Obs.missed? Pc.tail? rfl
    (fun move => by cases move with | call op => cases op <;> rfl | _ => rfl) run

/-- Every missed ticket was undone or is held by a consumer about to undo it. -/
theorem misses_flow (run : Run step ok (World.initial capacity positive n) trace s) :
    (misses trace).Perm (undoes trace ++ held Pc.empty? s) := by
  have balance := flow Obs.missed? Obs.undone? (fun _ => none) Pc.empty? rfl
    (fun move => by cases move with | call op => cases op <;> rfl | _ => rfl) run
  simpa [seen,misses,undoes] using balance

/-- Every claimed ticket was copied out or is held by a consumer about to copy. -/
theorem claims_flow (run : Run step ok (World.initial capacity positive n) trace s) :
    (claims trace).Perm ((copiesOut trace).map Prod.fst ++ held Pc.found? s) := by
  have balance := flow Obs.claimed? (fun obs => (Obs.copiedOut? obs).map Prod.fst) (fun _ => none) Pc.found? rfl
    (fun move => by cases move with | call op => cases op <;> rfl | _ => rfl) run
  simpa [seen,claims,copiesOut,List.map_filterMap] using balance

/-- Every reserved index was copied in, with its event, or is held by a publisher about to copy. -/
theorem reserves_flow (run : Run step ok (World.initial capacity positive n) trace s) :
    (reserves trace).Perm (copiesIn trace ++ held Pc.idx? s) := by
  have balance := flow Obs.reserved? Obs.copiedIn? (fun _ => none) Pc.idx? rfl
    (fun move => by cases move with | call op => cases op <;> rfl | _ => rfl) run
  simpa [seen,reserves,copiesIn] using balance

/-- The capacity is that of the initialisation. -/
theorem capacity_eq (run : Run step ok (World.initial capacity positive n) trace s) :
    s.slots.gCapacity = capacity := by
  refine run_induction (I := fun _ s => s.slots.gCapacity = capacity) rfl ?_ run
  intro trace g pool i old obs g' new _ same _ _ move
  cases move with
  | _ => exact same

/-! ### The counters -/

/-- The thread's next `fetch_add`, if it is one, does not wrap its counter. -/
def NoWrap (s : World w) : Pc w → Prop
  | .publishTail _ _ _ => s.gHead ≠ BitVec.allOnes w
  | .consume => s.gTail ≠ BitVec.allOnes w
  | _ => True

instance : ∀ (s : World w) (pc : Pc w), Decidable (NoWrap s pc)
  | s, .publishTail _ _ _ => inferInstanceAs (Decidable (s.gHead ≠ BitVec.allOnes w))
  | s, .consume => inferInstanceAs (Decidable (s.gTail ≠ BitVec.allOnes w))
  | _, .idle | _, .publish _ | _, .publishHead _ _ | _, .publishIdx _ _ | _, .consumeTail _ | _, .consumeEmpty _
  | _, .consumeFound _ | _, .pending | _, .pendingHead _ => .isTrue trivial

theorem noWrap_run {cond : World w → Pc w → Prop}
    (run : Run step (advancing (fun s pc => cond s pc ∧ NoWrap s pc)) (World.initial capacity positive n) trace s) :
    Run step (advancing NoWrap) (World.initial capacity positive n) trace s :=
  run.weaken (advancing_weaken (fun _ _ both => both.2))

/-- In every run the head counts the reservations, modulo `2 ^ w`. -/
theorem head_mod (run : Run step ok (World.initial capacity positive n) trace s) :
    s.gHead = BitVec.ofNat w (reserves trace).length := by
  refine run_induction (I := fun trace s => s.gHead = BitVec.ofNat w (reserves trace).length) rfl ?_ run
  intro trace g pool i old obs g' new _ count _ _ move
  simp only [reserves,seen_snoc,List.length_append] at count ⊢
  cases move with
  | reserve ev head tail =>
    simp only [count,Obs.reserved?,Option.toList,List.length_singleton,BitVec.ofNat_add]
    rfl
  | _ => exact count

theorem head_of_few (run : Run step ok (World.initial capacity positive n) trace s)
    (few : (reserves trace).length < 2 ^ w) : s.gHead.toNat = (reserves trace).length := by
  rw [head_mod run,BitVec.toNat_ofNat,Nat.mod_eq_of_lt few]

theorem head_eq (run : Run step (advancing NoWrap) (World.initial capacity positive n) trace s) :
    s.gHead.toNat = (reserves trace).length := by
  refine run_induction (I := fun trace s => s.gHead.toNat = (reserves trace).length) ?_ ?_ run
  · simp [World.initial,reserves,seen]
  · intro trace g pool i old obs g' new _ count allowed found move
    simp only [reserves,seen_snoc,List.length_append] at count ⊢
    cases move with
    | reserve ev head tail =>
      have advanced := toNat_succ_of_ne (advancing_of_found allowed found : g.gHead ≠ BitVec.allOnes w)
      simp only [advanced,count]
      rfl
    | _ => exact count

theorem tail_eq (run : Run step (advancing NoWrap) (World.initial capacity positive n) trace s) :
    s.gTail.toNat + (undoes trace).length = (takes trace).length := by
  refine run_induction (I := fun trace s => s.gTail.toNat + (undoes trace).length = (takes trace).length) ?_ ?_ run
  · simp [World.initial,undoes,takes,seen]
  · intro trace g pool i old obs g' new before count allowed found move
    simp only [undoes,takes,seen_snoc,List.length_append] at count ⊢
    cases move with
    | take =>
      have advanced := toNat_succ_of_ne (advancing_of_found allowed found : g.gTail ≠ BitVec.allOnes w)
      simp only [advanced,Obs.undone?,Obs.took?,Option.toList,List.length_nil,List.length_singleton]
      omega
    | undo tail =>
      have taken := (takes_flow before).length_eq
      have missed := (misses_flow before).length_eq
      have pending : tail.toNat ∈ held Pc.empty? ⟨g,pool⟩ :=
        List.mem_filterMap.mpr ⟨_,List.mem_of_getElem? found,rfl⟩
      have some := List.length_pos_of_mem pending
      simp only [takes,undoes,List.length_append] at taken missed
      have reduced := toNat_pred (x := g.gTail) (by omega)
      simp only [reduced,Obs.undone?,Obs.took?,Option.toList,List.length_nil,List.length_singleton]
      omega
    | _ => exact count

/-- Without wrap-around, the tail counts the claims and the tickets that consumers still hold. -/
theorem tail_live (run : Run step (advancing NoWrap) (World.initial capacity positive n) trace s) :
    s.gTail.toNat = (claims trace).length + (held Pc.tail? s).length + (held Pc.empty? s).length := by
  have taken := (takes_flow run).length_eq
  have missed := (misses_flow run).length_eq
  have counted := tail_eq run
  simp only [List.length_append] at taken missed
  omega

/-- A consumer that is about to undo its `fetch_add` finds the tail above 0. -/
theorem tail_undo {g : Shared w} {pool : List (Pc w)} {i : Nat} {tail : BitVec w}
    (run : Run step (advancing NoWrap) (World.initial capacity positive n) trace ⟨g,pool⟩)
    (found : pool[i]? = some (.consumeEmpty tail)) : (g.gTail - 1).toNat + 1 = g.gTail.toNat := by
  have live := tail_live run
  have pending : tail.toNat ∈ held Pc.empty? ⟨g,pool⟩ :=
    List.mem_filterMap.mpr ⟨_,List.mem_of_getElem? found,rfl⟩
  have some := List.length_pos_of_mem pending
  simp only at live
  have reduced := toNat_pred (x := g.gTail) (by omega)
  omega

/-- A step that leaves fewer than `2 ^ w` reservations, and that takes no ticket from a
    tail at its largest value, does not wrap a counter. -/
theorem noWrap_of_step (run : Run step (advancing NoWrap) (World.initial capacity positive n) trace s) {a : Action}
    {u : World w} {label : Label w} (moved : step s a = some (u,label))
    (reserved : (reserves (trace ++ [label])).length < 2 ^ w)
    (taken : label.obs = .took s.gTail → s.gTail ≠ BitVec.allOnes w) : advancing NoWrap s a := by
  obtain ⟨rfl,old,new,found,_,move⟩ := step_move moved
  have head := head_eq run
  obtain ⟨i,obs⟩ := label
  simp only [reserves,seen_snoc,List.length_append] at reserved head
  generalize u.toShared = g' at move
  cases move with
  | call op => trivial
  | reserve ev head' tail =>
    simp only [Obs.reserved?,Option.toList,List.length_singleton] at reserved
    have : s.gHead ≠ BitVec.allOnes w := by
      rintro full
      rw [full,BitVec.toNat_allOnes] at head
      omega
    simpa [advancing,Label.action,found,NoWrap] using this
  | take => simpa [advancing,Label.action,found,NoWrap] using taken rfl
  | _ => simp [advancing,Label.action,found,NoWrap]

theorem reserves_shorter {bound : Nat} (trace : List (Label w)) (label : Label w)
    (few : (reserves (trace ++ [label])).length < bound) : (reserves trace).length < bound := by
  simp only [reserves,seen_snoc,List.length_append] at few ⊢
  omega

/-- Every claimed index was reserved. -/
theorem claims_below (run : Run step (advancing NoWrap) (World.initial capacity positive n) trace s) :
    ∀ k ∈ claims trace, k < (reserves trace).length := by
  refine run_induction (I := fun trace s => ∀ k ∈ claims trace, k < (reserves trace).length) ?_ ?_ run
  · simp [claims,seen]
  · intro trace g pool i old obs g' new before below _ _ move k member
    have head := head_eq before
    simp only [claims,reserves,seen_snoc,List.length_append,List.mem_append] at member below head ⊢
    rcases member with earlier | now
    · have := below k earlier
      omega
    · cases move with
      | claim tail test =>
        simp only [Obs.claimed?,Option.toList,List.mem_singleton] at now
        subst now
        have := BitVec.lt_def.mp test
        omega
      | _ => cases now

/-- The reserved indices count up from 0. -/
theorem reserves_indices (run : Run step ok (World.initial capacity positive n) trace s)
    (few : (reserves trace).length < 2 ^ w) : (reserves trace).map Prod.fst = List.range (reserves trace).length := by
  refine run_induction (I := fun trace s => (reserves trace).length < 2 ^ w →
    (reserves trace).map Prod.fst = List.range (reserves trace).length) (fun _ => rfl) ?_ run few
  intro trace g pool i old obs g' new before indices _ _ move few
  have fewer := reserves_shorter trace _ few
  have head := head_of_few before fewer
  have earlier := indices fewer
  simp only [reserves,seen_snoc,List.length_append,List.map_append] at earlier head ⊢
  cases move with
  | reserve ev head' tail => simp [earlier,head,List.range_succ]
  | _ => simpa using earlier

/-- However the tickets are handed out, at most `k` of those that are claimed or
    still held are below `k`. Tickets need not be distinct for this, nor the tail
    at most the head. -/
theorem live_below (run : Run step (advancing NoWrap) (World.initial capacity positive n) trace s) (k : Nat) :
    (claims trace).countP (fun t => decide (t < k)) + (held Pc.tail? s).countP (fun t => decide (t < k)) +
      (held Pc.empty? s).countP (fun t => decide (t < k)) ≤ k := by
  refine run_induction (I := fun trace s => (claims trace).countP (fun t => decide (t < k)) +
    (held Pc.tail? s).countP (fun t => decide (t < k)) + (held Pc.empty? s).countP (fun t => decide (t < k)) ≤ k)
    ?_ ?_ run
  · simp [claims,seen,held_initial (f := Pc.tail?) rfl,held_initial (f := Pc.empty?) rfl]
  · intro trace g pool i old obs g' new before below _ found move
    have live := tail_live before
    have total : ∀ l : List Nat, l.countP (fun t => decide (t < k)) ≤ l.length := fun _ => List.countP_le_length
    have allClaims := total (claims trace)
    have allTails := total (held Pc.tail? ⟨g,pool⟩)
    have allEmpties := total (held Pc.empty? ⟨g,pool⟩)
    have tails := (filterMap_set_perm found Pc.tail? new).countP_eq (fun t => decide (t < k))
    have empties := (filterMap_set_perm found Pc.empty? new).countP_eq (fun t => decide (t < k))
    simp only [claims,held,seen_snoc,List.countP_append] at *
    cases move with
    | call op => cases op <;> simp at tails empties ⊢ <;> omega
    | take =>
      -- The new ticket counts below `k` only if the tail, and with it every live ticket, is.
      simp [List.countP_cons] at tails empties ⊢
      split at tails <;> omega
    | _ => simp [List.countP_cons] at tails empties ⊢; omega

end Nulleye.BusLedger
