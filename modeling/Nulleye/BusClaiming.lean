import Nulleye.BusAccounting

/-!
Which consumer gets which index. An idle poll adds one to the tail for a moment, so
a ticket may lie beyond the head, and undoing the poll hands out again whatever
ticket was taken last. Every index is claimed once as long as no valid ticket is
handed out past such a poll, and as long as the head passes a waiting ticket only
when every index before it has an owner.
-/
namespace Nulleye.BusClaiming
open Nulleye.Counting Nulleye.Events Nulleye.EventBus Nulleye.Runs Nulleye.Words Nulleye.BusThreads Nulleye.BusLedger
  Nulleye.BusAccounting

variable {w : Nat} {ok : World w → Action → Prop} {capacity : BitVec w} {positive : 0 < capacity.toNat}
  {n : Nat} {trace : List (Label w)} {s : World w}

/-- How many consumers will undo their `fetch_add` if the head stays where it is:
    those that found the bus empty, and those whose ticket is not yet reserved. -/
def late (s : World w) : Nat :=
  (held Pc.empty? s).length + (held Pc.tail? s).countP (fun t => decide (s.gHead.toNat ≤ t))

/-- A consumer takes a ticket below the head only when no consumer is late, and a
    publisher reserves an index that a late consumer waits for only when exactly one
    does and all indices before it have owners. The tail does not wrap. -/
def InOrder (s : World w) : Pc w → Prop
  | .publishTail _ _ _ => s.gHead.toNat ∉ held Pc.tail? s ∨
      (held Pc.tail? s).count s.gHead.toNat = 1 ∧ s.gTail.toNat = s.gHead.toNat + late s
  | .consume => s.gTail ≠ BitVec.allOnes w ∧ (late s = 0 ∨ s.gHead ≤ s.gTail)
  | _ => True

instance : ∀ (s : World w) (pc : Pc w), Decidable (InOrder s pc)
  | s, .publishTail _ _ _ => inferInstanceAs (Decidable (s.gHead.toNat ∉ held Pc.tail? s ∨
      (held Pc.tail? s).count s.gHead.toNat = 1 ∧ s.gTail.toNat = s.gHead.toNat + late s))
  | s, .consume => inferInstanceAs (Decidable (s.gTail ≠ BitVec.allOnes w ∧ (late s = 0 ∨ s.gHead ≤ s.gTail)))
  | _, .idle | _, .publish _ | _, .publishHead _ _ | _, .publishIdx _ _ | _, .consumeTail _ | _, .consumeEmpty _
  | _, .consumeFound _ | _, .pending | _, .pendingHead _ => .isTrue trivial

/-! ### How the late consumers change -/

section Late
variable {u : World w} {t : Nat}

theorem late_congr (head : u.gHead = s.gHead) (tails : (held Pc.tail? u).Perm (held Pc.tail? s))
    (empties : (held Pc.empty? u).Perm (held Pc.empty? s)) : late u = late s := by
  rw [late,late,empties.length_eq,tails.countP_eq,head]

/-- A late consumer stays late when the next index is reserved, unless it waits for that index. -/
theorem late_reserve (head : u.gHead.toNat = s.gHead.toNat + 1)
    (tails : (held Pc.tail? u).Perm (held Pc.tail? s)) (empties : (held Pc.empty? u).Perm (held Pc.empty? s)) :
    late u + (held Pc.tail? s).count s.gHead.toNat = late s := by
  have split := countP_le_split (held Pc.tail? s) s.gHead.toNat
  rw [late,late,empties.length_eq,tails.countP_eq,head]
  omega

theorem late_take (head : u.gHead = s.gHead)
    (tails : (held Pc.tail? u).Perm (s.gTail.toNat :: held Pc.tail? s))
    (empties : (held Pc.empty? u).Perm (held Pc.empty? s)) :
    late u = late s + if s.gHead ≤ s.gTail then 1 else 0 := by
  rw [late,late,empties.length_eq,tails.countP_eq,head,List.countP_cons]
  simp only [decide_eq_true_eq,BitVec.le_def,Nat.add_assoc]

theorem late_claim (valid : t < s.gHead.toNat) (head : u.gHead = s.gHead)
    (tails : (t :: held Pc.tail? u).Perm (held Pc.tail? s)) (empties : (held Pc.empty? u).Perm (held Pc.empty? s)) :
    late u = late s := by
  rw [late,late,empties.length_eq,← tails.countP_eq,head,List.countP_cons_of_neg (by simp; omega)]

theorem late_miss (beyond : s.gHead.toNat ≤ t) (head : u.gHead = s.gHead)
    (tails : (t :: held Pc.tail? u).Perm (held Pc.tail? s))
    (empties : (held Pc.empty? u).Perm (t :: held Pc.empty? s)) : late u = late s := by
  rw [late,late,empties.length_eq,← tails.countP_eq,head,List.countP_cons_of_pos (by simpa using beyond),
    List.length_cons]
  omega

theorem late_undo (head : u.gHead = s.gHead) (tails : (held Pc.tail? u).Perm (held Pc.tail? s))
    (empties : (t :: held Pc.empty? u).Perm (held Pc.empty? s)) : late u + 1 = late s := by
  rw [late,late,← empties.length_eq,tails.countP_eq,head,List.length_cons]
  omega

end Late

/-! ### The owners of the indices -/

/-- Of the reserved indices exactly those below the tail, less the late consumers,
    have an owner, and none has two. -/
structure OnceEach (trace : List (Label w)) (s : World w) : Prop where
  owned : ∀ k < s.gHead.toNat, k + late s < s.gTail.toNat → (claims trace).count k + (held Pc.tail? s).count k = 1
  unowned : ∀ k < s.gHead.toNat, s.gTail.toNat ≤ k + late s →
    (claims trace).count k + (held Pc.tail? s).count k = 0
  bounded : s.gTail.toNat ≤ s.gHead.toNat + late s

/-- A step that leaves the counters, the tickets and the claims alone keeps their owners. -/
theorem OnceEach.congr {trace' : List (Label w)} {s' : World w} (inv : OnceEach trace s)
    (head : s'.gHead = s.gHead) (tail : s'.gTail = s.gTail) (claimed : claims trace' = claims trace)
    (tails : (held Pc.tail? s').Perm (held Pc.tail? s)) (empties : (held Pc.empty? s').Perm (held Pc.empty? s)) :
    OnceEach trace' s' := by
  have same := late_congr head tails empties
  refine ⟨?_,?_,?_⟩
  · simpa only [same,head,tail,claimed,tails.count_eq] using inv.owned
  · simpa only [same,head,tail,claimed,tails.count_eq] using inv.unowned
  · simpa only [same,head,tail] using inv.bounded

theorem OnceEach.reserve {trace' : List (Label w)} {s' : World w} (inv : OnceEach trace s)
    (order : s.gHead.toNat ∉ held Pc.tail? s ∨
      (held Pc.tail? s).count s.gHead.toNat = 1 ∧ s.gTail.toNat = s.gHead.toNat + late s)
    (fresh : s.gHead.toNat ∉ claims trace) (head : s'.gHead.toNat = s.gHead.toNat + 1) (tail : s'.gTail = s.gTail)
    (claimed : claims trace' = claims trace) (tails : (held Pc.tail? s').Perm (held Pc.tail? s))
    (empties : (held Pc.empty? s').Perm (held Pc.empty? s)) : OnceEach trace' s' := by
  have fewer := late_reserve head tails empties
  have unclaimed := List.count_eq_zero.mpr fresh
  have bounded := inv.bounded
  rcases order with nobody | ⟨one,level⟩
  · have none := List.count_eq_zero.mpr nobody
    refine ⟨?_,?_,?_⟩
    · intro k below owned
      rw [claimed,tails.count_eq]
      rw [tail] at owned
      exact inv.owned k (by omega) (by omega)
    · intro k below free
      rw [claimed,tails.count_eq]
      rw [tail] at free
      rcases Nat.lt_or_ge k s.gHead.toNat with earlier | new
      · exact inv.unowned k earlier (by omega)
      · obtain rfl : k = s.gHead.toNat := by omega
        rw [unclaimed,none]
    · rw [tail]; omega
  · refine ⟨?_,?_,?_⟩
    · intro k below owned
      rw [claimed,tails.count_eq]
      rcases Nat.lt_or_ge k s.gHead.toNat with earlier | new
      · exact inv.owned k earlier (by omega)
      · obtain rfl : k = s.gHead.toNat := by omega
        rw [unclaimed,one]
    · intro k below free
      rw [tail] at free
      omega
    · rw [tail]; omega

theorem OnceEach.take {trace' : List (Label w)} {s' : World w} (inv : OnceEach trace s)
    (order : late s = 0 ∨ s.gHead ≤ s.gTail) (head : s'.gHead = s.gHead)
    (tail : s'.gTail.toNat = s.gTail.toNat + 1) (claimed : claims trace' = claims trace)
    (tails : (held Pc.tail? s').Perm (s.gTail.toNat :: held Pc.tail? s))
    (empties : (held Pc.empty? s').Perm (held Pc.empty? s)) : OnceEach trace' s' := by
  have more := late_take head tails empties
  have bounded := inv.bounded
  by_cases beyond : s.gHead ≤ s.gTail
  · rw [if_pos beyond] at more
    rw [BitVec.le_def] at beyond
    refine ⟨?_,?_,by rw [head]; omega⟩ <;>
    · intro k below side
      rw [head] at below
      rw [claimed,tails.count_eq,List.count_cons_of_ne (by omega)]
      first | exact inv.owned k below (by omega) | exact inv.unowned k below (by omega)
  · rw [if_neg beyond] at more
    have none : late s = 0 := order.resolve_right beyond
    rw [BitVec.le_def] at beyond
    refine ⟨?_,?_,by rw [head]; omega⟩
    · intro k below side
      rw [head] at below
      rw [claimed,tails.count_eq]
      by_cases last : k = s.gTail.toNat
      · subst last
        have free := inv.unowned _ below (by omega)
        rw [List.count_cons_self]
        omega
      · rw [List.count_cons_of_ne (Ne.symm last)]
        exact inv.owned k below (by omega)
    · intro k below side
      rw [head] at below
      rw [claimed,tails.count_eq,List.count_cons_of_ne (by omega)]
      exact inv.unowned k below (by omega)

theorem OnceEach.claim {trace' : List (Label w)} {s' : World w} {t : Nat} (inv : OnceEach trace s)
    (valid : t < s.gHead.toNat) (head : s'.gHead = s.gHead) (tail : s'.gTail = s.gTail)
    (claimed : claims trace' = claims trace ++ [t]) (tails : (t :: held Pc.tail? s').Perm (held Pc.tail? s))
    (empties : (held Pc.empty? s').Perm (held Pc.empty? s)) : OnceEach trace' s' := by
  have same := late_claim valid head tails empties
  have moved : ∀ k, (claims trace').count k + (held Pc.tail? s').count k =
      (claims trace).count k + (held Pc.tail? s).count k := by
    intro k
    have split := tails.count_eq k
    rw [List.count_cons] at split
    rw [claimed,List.count_append,List.count_singleton]
    omega
  exact ⟨by simpa only [moved,same,head,tail] using inv.owned,
    by simpa only [moved,same,head,tail] using inv.unowned,by simpa only [same,head,tail] using inv.bounded⟩

theorem OnceEach.miss {trace' : List (Label w)} {s' : World w} {t : Nat} (inv : OnceEach trace s)
    (beyond : s.gHead.toNat ≤ t) (head : s'.gHead = s.gHead) (tail : s'.gTail = s.gTail)
    (claimed : claims trace' = claims trace) (tails : (t :: held Pc.tail? s').Perm (held Pc.tail? s))
    (empties : (held Pc.empty? s').Perm (t :: held Pc.empty? s)) : OnceEach trace' s' := by
  have same := late_miss beyond head tails empties
  have others : ∀ k < s.gHead.toNat, (held Pc.tail? s').count k = (held Pc.tail? s).count k := by
    intro k below
    rw [← tails.count_eq,List.count_cons_of_ne (by omega)]
  refine ⟨?_,?_,by simpa only [same,head,tail] using inv.bounded⟩ <;>
  · intro k below side
    rw [head] at below
    rw [same,tail] at side
    rw [claimed,others k below]
    first | exact inv.owned k below side | exact inv.unowned k below side

theorem OnceEach.undo {trace' : List (Label w)} {s' : World w} {t : Nat} (inv : OnceEach trace s)
    (head : s'.gHead = s.gHead) (tail : s'.gTail.toNat + 1 = s.gTail.toNat) (claimed : claims trace' = claims trace)
    (tails : (held Pc.tail? s').Perm (held Pc.tail? s))
    (empties : (t :: held Pc.empty? s').Perm (held Pc.empty? s)) : OnceEach trace' s' := by
  have fewer := late_undo head tails empties
  have bounded := inv.bounded
  refine ⟨?_,?_,by rw [head]; omega⟩ <;>
  · intro k below side
    rw [head] at below
    rw [claimed,tails.count_eq]
    first | exact inv.owned k below (by omega) | exact inv.unowned k below (by omega)

theorem once_each (run : Run step (advancing (fun s pc => InOrder s pc ∧ NoWrap s pc))
    (World.initial capacity positive n) trace s) : OnceEach trace s := by
  refine run_induction (I := OnceEach) ?_ ?_ run
  · refine ⟨?_,?_,by simp [World.initial]⟩ <;>
    · intro k below
      simp [World.initial] at below
  · intro trace g pool i old obs g' new before inv allowed found move
    have safe := noWrap_run before
    have tails := filterMap_set_perm found Pc.tail? new
    have empties := filterMap_set_perm found Pc.empty? new
    cases move with
    | reserve ev head' tail =>
      obtain ⟨order,room⟩ := advancing_of_found allowed found
      have fresh : g.gHead.toNat ∉ claims trace := fun member =>
        absurd (claims_below safe _ member) (by have := head_eq safe; simp only at this; omega)
      exact inv.reserve order fresh (toNat_succ_of_ne room) rfl (by simp [claims,seen_snoc]) tails empties
    | take =>
      obtain ⟨⟨_,order⟩,room⟩ := advancing_of_found allowed found
      exact inv.take order rfl (toNat_succ_of_ne room) (by simp [claims,seen_snoc]) tails empties
    | claim tail test =>
      exact inv.claim (BitVec.lt_def.mp test) rfl rfl (by simp [claims,seen_snoc]) tails empties
    | miss tail test => exact inv.miss (BitVec.le_def.mp test) rfl rfl (by simp [claims,seen_snoc]) tails empties
    | undo tail => exact inv.undo rfl (tail_undo safe found) (by simp [claims,seen_snoc]) tails empties
    | call op => cases op <;> exact inv.congr rfl rfl (by simp [claims,seen_snoc]) tails empties
    | _ => exact inv.congr rfl rfl (by simp [claims,seen_snoc]) tails empties

/-! ### Claiming exactly once -/

/-- No index is claimed by two consumes, and between calls every index below the tail has been claimed by one. -/
structure ExactlyOnce (trace : List (Label w)) (s : World w) : Prop where
  distinct : (claims trace).Nodup
  covered : Quiet s → ∀ k < s.gTail.toNat, (claims trace).count k = 1

theorem exactlyOnce_of_owners (run : Run step (advancing NoWrap) (World.initial capacity positive n) trace s)
    (inv : OnceEach trace s) : ExactlyOnce trace s where
  distinct := by
    rw [List.nodup_iff_count_le_one]
    intro k
    by_cases member : k ∈ claims trace
    · have below := claims_below run k member
      rw [← head_eq run] at below
      rcases Nat.lt_or_ge (k + late s) s.gTail.toNat with owned | free
      · have := inv.owned k below owned
        omega
      · have := inv.unowned k below free
        omega
    · rw [List.count_eq_zero.mpr member]
      omega
  covered := by
    intro quiet k below
    have nobody : late s = 0 := by rw [late,held_quiet rfl quiet,held_quiet rfl quiet]; rfl
    have bounded := inv.bounded
    have owned := inv.owned k (by omega) (by omega)
    rwa [held_quiet rfl quiet] at owned

/-- A run in order with fewer than `2 ^ w` reservations never wraps a counter. -/
theorem noWrap_of_inOrder (run : Run step (advancing InOrder) (World.initial capacity positive n) trace s)
    (few : (reserves trace).length < 2 ^ w) :
    Run step (advancing (fun s pc => InOrder s pc ∧ NoWrap s pc)) (World.initial capacity positive n) trace s := by
  refine run.strengthen (fun trace => (reserves trace).length < 2 ^ w) reserves_shorter ?_ few
  intro trace t a u label before allowed moved bounded
  have safe := noWrap_run before
  have fits := noWrap_of_step safe moved bounded (by
    intro took
    obtain ⟨rfl,old,new,found,_,move⟩ := step_move moved
    obtain ⟨i,obs⟩ := label
    cases took
    generalize u.toShared = g' at move
    cases move with
    | take => exact (advancing_of_found allowed found).1)
  exact advancing_and allowed fits

/-- In every run with fewer than `2 ^ w` reservations whose steps are all in order, no
    index is claimed by two consumes, and between calls every index below the tail has
    been claimed by exactly one. -/
theorem claiming_exactly_once (run : Run step (advancing InOrder) (World.initial capacity positive n) trace s)
    (few : (reserves trace).length < 2 ^ w) : ExactlyOnce trace s :=
  have safe := noWrap_of_inOrder run few
  exactlyOnce_of_owners (noWrap_run safe) (once_each safe)

/-- A consumer takes ticket 0 of an empty bus and waits; the publisher reserves index 0; the consumer claims it. -/
theorem claiming_exactly_once_waiting : ∃ (trace : List (Label 64)) (s : World 64), claims trace = [0] ∧ Quiet s ∧
    s.gTail = 1 ∧ ExactlyOnce trace s := by
  obtain ⟨trace,s,run,checked⟩ := exists_run_of_check step (advancing InOrder) (World.initial 4#64 (by decide) 2)
    (fun s trace => decide (claims trace = [0] ∧ (reserves trace).length = 1 ∧
      (∀ pc ∈ s.threads, pc = .idle) ∧ s.gTail = 1))
    (wholeCall 0 (.publish zeroEvent) 2 ++ wholeCall 1 .consume 1 ++
      [.advance 0,.advance 0,.advance 1,.advance 1])
    (by decide)
  obtain ⟨first,one,quiet,tail⟩ := of_decide_eq_true checked
  exact ⟨trace,s,first,quiet,tail,claiming_exactly_once run (by omega)⟩

/-- A publisher passes its fullness test on an empty bus; consumer 1 finds the bus
    empty; two events are published; consumer 2 claims index 1; consumer 1 undoes its
    `fetch_add` and on its next poll claims index 1 again. Index 0 is skipped. -/
theorem claiming_skips_and_repeats : ∃ (trace : List (Label 64)) (s : World 64),
    Run step free (World.initial 4#64 (by decide) 3) trace s ∧ (reserves trace).length < 2 ^ 64 ∧
    ¬ (claims trace).Nodup ∧ Quiet s ∧ (∃ k < s.gTail.toNat, (claims trace).count k = 0) ∧
    ¬ ExactlyOnce trace s := by
  obtain ⟨trace,s,run,checked⟩ := exists_run_of_check step free (World.initial 4#64 (by decide) 3)
    (fun s trace => decide (claims trace = [1,1] ∧ (reserves trace).length = 2 ∧
      (∀ pc ∈ s.threads, pc = .idle) ∧ s.gTail = 2))
    (wholeCall 0 (.publish zeroEvent) 2 ++ wholeCall 1 .consume 2 ++ [.advance 0,.advance 0] ++
      wholeCall 0 (.publish zeroEvent) 4 ++ wholeCall 2 .consume 3 ++ [.advance 1] ++ wholeCall 1 .consume 3)
    (by decide)
  obtain ⟨twice,two,quiet,tail⟩ := of_decide_eq_true checked
  have repeated : ¬ (claims trace).Nodup := by rw [twice]; decide
  exact ⟨trace,s,run,by omega,repeated,quiet,⟨0,by rw [tail]; decide,by rw [twice]; rfl⟩,
    fun once => repeated once.distinct⟩

end Nulleye.BusClaiming
