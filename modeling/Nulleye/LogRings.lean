import Nulleye.Ledgers
import Nulleye.LogLines
import Nulleye.Rings

/-!
The recent lines of the log. The holder of the lock frees what the next slot of a ring
points at and lets the slot point at a copy of the line. The ring holds the copies that
were made last, every other copy was freed once, and at the end the rest is freed.
-/
namespace Nulleye.LogRings
open Nulleye.CStrings Nulleye.Ledgers Nulleye.LogLines Nulleye.Rings Nulleye.Runs
open Nulleye.SharedQueues (share)

theorem logRing_positive : 0 < 1024 := by decide

/-- `g_ring` and `g_ring_idx`, with a slot that is NULL or has the number of a copy; what the copies
    hold; and how often each was freed. -/
structure Ring where
  gRing : Vector (Option Nat) 1024
  gRingIdx : Fin 1024
  copies : List Mem
  ledger : Ledger

def Ring.initial : Ring := ⟨Vector.replicate 1024 none,0,[],.empty⟩

/-- `free`, which leaves what a slot points at. -/
def Ring.free (r : Ring) : Option Nat → Ring
  | none => r
  | some n => { r with ledger := r.ledger.release n }

/-- What a call of `nulleye_log` does with the ring, where `strdup` says whether the line is copied. -/
def Ring.log (strdup : Bool) (out : Mem) (r : Ring) : Ring :=
  let r := r.free r.gRing[r.gRingIdx]
  { gRing := r.gRing.set r.gRingIdx (if strdup then some r.ledger.fresh else none) r.gRingIdx.isLt
    gRingIdx := slot logRing_positive (r.gRingIdx + 1)
    copies := if strdup then r.copies ++ [out] else r.copies
    ledger := if strdup then r.ledger.acquire else r.ledger }

/-- The loop of `logger_fini`. -/
def Ring.fini (r : Ring) : Ring := r.gRing.toList.foldl Ring.free r

/-- The copies that the slots point at. -/
def Ring.held (r : Ring) : List Nat := r.gRing.toList.filterMap id

/-- The ring after calls in which `strdup` succeeds. -/
def Ring.logAll (outs : List Mem) : Ring := outs.foldl (fun r out => r.log true out) .initial

/-! ### One call after the other -/

/-- What the calls keep, where `made` is what `strdup` has returned in each of them. -/
structure Kept (made : List (Option Nat)) (r : Ring) : Prop where
  index : r.gRingIdx = slot logRing_positive made.length
  latest : Latest logRing_positive r.gRing made
  unfilled : ∀ i,made.length ≤ i → i < 1024 → load logRing_positive r.gRing i = none
  owes : r.ledger.Owes r.held

theorem kept_initial : Kept [] .initial where
  index := rfl
  latest i x found := by simp at found
  unfilled i _ inside := by simp [load,Ring.initial]
  owes := by
    have nothing : Ring.initial.held = [] := by
      rw [Ring.held,List.filterMap_eq_nil_iff]
      intro p member
      rw [Ring.initial,Vector.toList_replicate] at member
      exact List.eq_of_mem_replicate member
    rw [nothing]
    exact owes_empty

@[simp] theorem free_gRing (r : Ring) (p : Option Nat) : (r.free p).gRing = r.gRing := by cases p <;> rfl

@[simp] theorem free_gRingIdx (r : Ring) (p : Option Nat) : (r.free p).gRingIdx = r.gRingIdx := by cases p <;> rfl

@[simp] theorem free_copies (r : Ring) (p : Option Nat) : (r.free p).copies = r.copies := by cases p <;> rfl

@[simp] theorem free_fresh (r : Ring) (p : Option Nat) : (r.free p).ledger.fresh = r.ledger.fresh := by
  cases p
  · rfl
  · exact fresh_release ..

/-- A copy that is freed is owed no longer. -/
theorem free_owes {r : Ring} {p : Option Nat} {rest : List Nat} (owes : r.ledger.Owes (p.toList ++ rest)) :
    (r.free p).ledger.Owes rest := by
  cases p with
  | none => exact owes
  | some n => exact owes.release

/-- What is in a slot and what is in the others. -/
theorem slot_perm (cells : Vector (Option Nat) 1024) (i : Fin 1024) (p : Option Nat) :
    ((cells.set i p i.isLt).toList.filterMap id).Perm (p.toList ++ (cells.toList.eraseIdx i).filterMap id) := by
  have inside : (i : Nat) < cells.toList.length := by simp
  have others := (List.set_perm_cons_eraseIdx inside p).filterMap id
  rw [Vector.toList_set]
  cases p <;> exact others

/-- What `strdup` returns in a call. -/
def Ring.copy (r : Ring) (strdup : Bool) : Option Nat := if strdup then some r.ledger.fresh else none

theorem log_gRing {made : List (Option Nat)} {r : Ring} (kept : Kept made r) (strdup : Bool) (out : Mem) :
    (r.log strdup out).gRing = store logRing_positive r.gRing made.length (r.copy strdup) := by
  simp only [Ring.log,Ring.copy,free_gRing,free_gRingIdx,free_fresh,kept.index,store]

theorem log_owes {r : Ring} (owes : r.ledger.Owes r.held) (strdup : Bool) (out : Mem) :
    (r.log strdup out).ledger.Owes (r.log strdup out).held := by
  have before := slot_perm r.gRing r.gRingIdx r.gRing[r.gRingIdx]
  rw [Fin.getElem_fin,Vector.set_getElem_self] at before
  have freed := free_owes (owes.perm before)
  have after := (slot_perm r.gRing r.gRingIdx (r.copy strdup)).symm
  have held : (r.log strdup out).held = ((r.gRing.set r.gRingIdx (r.copy strdup) r.gRingIdx.isLt).toList).filterMap id := by
    simp only [Ring.held,Ring.log,Ring.copy,free_gRing,free_gRingIdx,free_fresh]
  rw [held]
  cases strdup with
  | false => exact freed.perm after
  | true =>
    have acquired := freed.acquire.perm List.perm_append_comm
    rw [free_fresh] at acquired
    exact acquired.perm after

theorem kept_log {made : List (Option Nat)} {r : Ring} (kept : Kept made r) (strdup : Bool) (out : Mem) :
    Kept (made ++ [r.copy strdup]) (r.log strdup out) where
  index := by
    have next : (r.log strdup out).gRingIdx = slot logRing_positive (r.gRingIdx + 1) := by
      show slot logRing_positive ((r.free r.gRing[r.gRingIdx]).gRingIdx + 1) = _
      rw [free_gRingIdx]
    rw [next,kept.index,List.length_append,List.length_singleton]
    exact Fin.ext (Nat.mod_add_mod ..)
  latest := by
    rw [log_gRing kept]
    exact kept.latest.store logRing_positive _
  unfilled i behind inside := by
    simp only [List.length_append,List.length_singleton] at behind
    rw [log_gRing kept,load_store_of_lap logRing_positive _ _ (by omega) (by omega) (by omega)]
    exact kept.unfilled i (by omega) inside
  owes := log_owes kept.owes strdup out

/-- `logger_fini` frees what the ring holds. -/
theorem fini_owes {r : Ring} {lost : List Nat} (owes : r.ledger.Owes (r.held ++ lost)) : r.fini.ledger.Owes lost := by
  have each : ∀ (slots : List (Option Nat)) (r : Ring),r.ledger.Owes (slots.filterMap id ++ lost) →
      (slots.foldl Ring.free r).ledger.Owes lost := by
    intro slots
    induction slots with
    | nil =>
      intro r owes
      exact owes
    | cons p slots ih =>
      intro r owes
      apply ih
      apply free_owes
      cases p <;> simpa using owes
  exact each _ r owes

theorem fini_fresh (r : Ring) : r.fini.ledger.fresh = r.ledger.fresh := by
  have each : ∀ (slots : List (Option Nat)) (r : Ring),(slots.foldl Ring.free r).ledger.fresh = r.ledger.fresh := by
    intro slots
    induction slots with
    | nil =>
      intro r
      rfl
    | cons p slots ih =>
      intro r
      rw [List.foldl_cons,ih,free_fresh]
  exact each _ r

/-! ### Calls that are copied -/

theorem logAll_append (outs : List Mem) (out : Mem) : Ring.logAll (outs ++ [out]) = (Ring.logAll outs).log true out := List.foldl_concat ..

theorem logAll_copies (outs : List Mem) : (Ring.logAll outs).copies = outs ∧ (Ring.logAll outs).ledger.fresh = outs.length := by
  induction outs using List.reverseRecOn with
  | nil => exact ⟨rfl,rfl⟩
  | append_singleton outs out ih =>
    obtain ⟨copies,fresh⟩ := ih
    rw [logAll_append]
    refine ⟨?_,?_⟩
    · simp [Ring.log,copies]
    · simp [Ring.log,fresh]

theorem logAll_kept (outs : List Mem) : Kept ((List.range outs.length).map some) (Ring.logAll outs) := by
  induction outs using List.reverseRecOn with
  | nil => exact kept_initial
  | append_singleton outs out ih =>
    have next := kept_log ih true out
    rw [Ring.copy,if_pos rfl,(logAll_copies outs).2] at next
    rw [logAll_append,List.length_append,List.length_singleton,List.range_succ,List.map_append]
    exact next

/-- From `g_ring_idx` on, around the ring. -/
theorem logAll_recent (outs : List Mem) : (Ring.logAll outs).gRing.toList.rotate (Ring.logAll outs).gRingIdx =
    List.replicate (1024 - outs.length) none ++ ((List.range outs.length).drop (outs.length - 1024)).map some := by
  have kept := logAll_kept outs
  have around := kept.latest.around logRing_positive kept.unfilled
  have index : ((Ring.logAll outs).gRingIdx : Nat) = outs.length % (Ring.logAll outs).gRing.toList.length := by
    simp [kept.index,slot]
  rw [index,List.rotate_mod]
  simpa [List.map_drop] using around

theorem filled_slots (k : Nat) (held : List Nat) : (List.replicate k none ++ held.map some).filterMap id = held := by
  have nothing : (List.replicate k (none : Option Nat)).filterMap id = [] :=
    List.filterMap_eq_nil_iff.mpr fun p member => List.eq_of_mem_replicate member
  rw [List.filterMap_append,nothing,List.nil_append,List.filterMap_map]
  exact List.filterMap_some

/-- The ledger owes the copies in the ring. -/
theorem logAll_owes (outs : List Mem) : (Ring.logAll outs).ledger.Owes ((List.range outs.length).drop (outs.length - 1024)) := by
  have owes := (logAll_kept outs).owes
  have same := ((List.rotate_perm (Ring.logAll outs).gRing.toList (Ring.logAll outs).gRingIdx).filterMap id).symm
  rw [logAll_recent,filled_slots] at same
  exact owes.perm same

theorem mem_latest {n k : Nat} : k ∈ (List.range n).drop (n - 1024) ↔ n ≤ k + 1024 ∧ k < n := by
  rw [List.range_eq_range',List.drop_range',List.mem_range'_1]
  omega

/-- The copies that have left the ring were freed once, and those in it were not. -/
theorem logAll_releases {outs : List Mem} {k : Nat} (made : k < outs.length) :
    (Ring.logAll outs).ledger.releases[k]? = some (if k + 1024 < outs.length then 1 else 0) := by
  have owes := logAll_owes outs
  by_cases left : k + 1024 < outs.length
  · rw [if_pos left]
    refine owes.released ?_ ?_
    · rw [(logAll_copies outs).2]
      exact made
    · rw [mem_latest]
      omega
  · rw [if_neg left]
    exact owes.unreleased (mem_latest.mpr (by omega))

/-- After `logger_fini` every copy was freed once. -/
theorem logAll_fini (outs : List Mem) : (Ring.logAll outs).fini.ledger.fresh = outs.length ∧
    ∀ k < outs.length,(Ring.logAll outs).fini.ledger.releases[k]? = some 1 := by
  have fresh : (Ring.logAll outs).fini.ledger.fresh = outs.length := by rw [fini_fresh,(logAll_copies outs).2]
  have owes := @fini_owes (Ring.logAll outs) [] (by simpa using (logAll_kept outs).owes)
  refine ⟨fresh,?_⟩
  intro k made
  exact owes.released (by rw [fresh]; exact made) List.not_mem_nil

/-! ### Threads -/

/-- The log and the recent lines. -/
structure World where
  log : LogLines.World
  ring : Ring

def World.initial : World := ⟨.initial,.initial⟩

/-- What a thread does, and whether `strdup` succeeds in it. -/
structure Action where
  action : LogLines.Action
  strdup : Bool

/-- What a step that leaves this label makes of the ring: a thread has done its call of `strdup` when it unlocks. -/
def World.relogged (s : World) (strdup : Bool) : Label → Ring
  | .unlocked i =>
    match s.log.threads i with
    | .writing c _ => s.ring.log strdup c.out
    | _ => s.ring
  | _ => s.ring

/-- `nulleye_log` in a thread. -/
def step (s : World) (a : Action) : Option (World × Label) :=
  (LogLines.step s.log a.action).map fun next => (⟨next.1,s.relogged a.strdup next.2⟩,next.2)

/-- The steps in which `strdup` does not fail. -/
def succeeds (_ : World) (a : Action) : Prop := a.strdup = true

/-- The lines of calls. -/
def outs (calls : List (Nat × Call)) : List Mem := calls.map fun p => p.2.out

theorem step_log {s t : World} {a : Action} {label : Label} (moved : step s a = some (t,label)) :
    LogLines.step s.log a.action = some (t.log,label) ∧ t.ring = s.relogged a.strdup label := by
  obtain ⟨⟨log,left⟩,logged,same⟩ := Option.map_eq_some_iff.mp moved
  cases same
  exact ⟨logged,rfl⟩

theorem run_log {trace : List Label} {t : World} (run : Run step succeeds World.initial trace t) :
    Run LogLines.step free LogLines.World.initial trace t.log :=
  @Run.invariant _ _ _ step succeeds World.initial (fun trace t => Run LogLines.step free LogLines.World.initial trace t.log) .start
    (fun _ _ _ _ _ _ before _ moved => .next before trivial (step_log moved).1) _ _ run

/-- The ring has the lines of the calls whose thread has unlocked, and that is all but the call of the holder. -/
structure Logged (trace : List Label) (s : World) : Prop where
  unlocked : s.log.gLock = none → s.ring = Ring.logAll (outs (order trace))
  locked : ∀ i,s.log.gLock = some i → ∃ before c left,order trace = before ++ [(i,c)] ∧ s.log.threads i = .writing c left ∧
    s.ring = Ring.logAll (outs before)

theorem logged_initial : Logged [] World.initial := by
  refine ⟨fun _ => rfl,?_⟩
  intro i held
  cases held

theorem logged_step {trace : List Label} {s t : World} {a : Action} {label : Label} (written : Written trace s.log)
    (logged : Logged trace s) (copied : succeeds s a) (moved : step s a = some (t,label)) : Logged (trace ++ [label]) t := by
  obtain ⟨unlocked,locked⟩ := logged
  obtain ⟨log,ring⟩ := t
  obtain ⟨stepped,rfl⟩ := step_log moved
  dsimp only at stepped
  rcases step_cases stepped with ⟨i,c,idle,rfl,rfl⟩ | ⟨i,c,ready,free_lock,rfl,rfl⟩ | ⟨i,c,b,rest,writing,rfl,rfl⟩ |
    ⟨i,c,writing,rfl,rfl⟩
  · refine ⟨?_,?_⟩
    · intro free_lock
      simpa [World.relogged] using unlocked free_lock
    · intro j held
      obtain ⟨before,c',left,calls,writing,ring⟩ := locked j held
      have other := writer_other idle writing
      exact ⟨before,c',left,by simpa using calls,by simpa [other] using writing,ring⟩
  · refine ⟨?_,?_⟩
    · intro taken
      cases taken
    · intro j held
      obtain rfl : i = j := Option.some.inj held
      exact ⟨order trace,c,c.out,by simp,by simp,unlocked free_lock⟩
  · have holds := written.holder i c (b :: rest) writing
    refine ⟨?_,?_⟩
    · intro free_lock
      cases holds.symm.trans free_lock
    · intro j held
      obtain rfl : i = j := Option.some.inj (holds.symm.trans held)
      obtain ⟨before,c',left,calls,also,ring⟩ := locked i holds
      obtain ⟨rfl,_⟩ := writing_inj writing also
      exact ⟨before,c,rest,by simpa using calls,by simp,ring⟩
  · -- The holder puts the line of the last call into the ring.
    have holds := written.holder i c [] writing
    obtain ⟨before,c',left,calls,also,ring⟩ := locked i holds
    obtain ⟨rfl,_⟩ := writing_inj writing also
    refine ⟨?_,?_⟩
    · intro _
      have made : s.relogged a.strdup (.unlocked i) = s.ring.log true c.out := by
        simp only [World.relogged,writing,show a.strdup = true from copied]
      simp only [made,ring,order_append,order_one,List.append_nil,calls,outs,List.map_append,List.map_cons,List.map_nil,logAll_append]
    · intro j held
      cases held

theorem run_logged {trace : List Label} {t : World} (run : Run step succeeds World.initial trace t) : Logged trace t :=
  run.invariant logged_initial fun _ _ _ _ _ before logged copied moved =>
    logged_step (run_written (run_log before)) logged copied moved

/-- **Whenever nobody holds the lock after `n` calls, the ring has the copies of the last 1024 lines**, oldest first
    from `g_ring_idx` on, behind slots that were never filled; the copies that are no longer in it were freed once,
    those in it were not, and after `logger_fini` each copy was freed exactly once. The calls of each thread are
    among the `n` in turn. -/
theorem recent_lines {trace : List Label} {t : World} {n : Nat} (run : Run step succeeds World.initial trace t)
    (free_lock : t.log.gLock = none) (calls : (order trace).length = n) :
    (∀ i,share i (begun trace) = share i (order trace) ++ (t.log.threads i).waiting) ∧
      t.ring.copies = outs (order trace) ∧
      t.ring.gRing.toList.rotate t.ring.gRingIdx =
        List.replicate (1024 - n) none ++ ((List.range n).drop (n - 1024)).map some ∧
      (t.ring.ledger.fresh = n ∧ ∀ k < n,t.ring.ledger.releases[k]? = some (if k + 1024 < n then 1 else 0)) ∧
      t.ring.fini.ledger.fresh = n ∧ ∀ k < n,t.ring.fini.ledger.releases[k]? = some 1 := by
  have number : (outs (order trace)).length = n := by rw [outs,List.length_map,calls]
  have ring := (run_logged run).unlocked free_lock
  obtain ⟨copies,fresh⟩ := logAll_copies (outs (order trace))
  have recent := logAll_recent (outs (order trace))
  have releases := @logAll_releases (outs (order trace))
  have fini := logAll_fini (outs (order trace))
  rw [← ring] at copies fresh recent releases fini
  rw [number] at fresh recent releases fini
  exact ⟨(run_written (run_log run)).turns,copies,recent,⟨fresh,fun k made => releases made⟩,fini⟩

/-- Every run of the log is one in which `strdup` succeeds. -/
theorem exists_run {s : World} {trace : List Label} {log : LogLines.World} (run : Run LogLines.step free s.log trace log) :
    ∃ ring,Run step succeeds s trace ⟨log,ring⟩ := by
  induction run with
  | start => exact ⟨s.ring,.start⟩
  | @next trace before log a label _ _ moved ih =>
    obtain ⟨ring,run⟩ := ih
    refine ⟨World.relogged ⟨before,ring⟩ true label,.next run (show succeeds _ ⟨a,true⟩ from rfl) ?_⟩
    simp only [step,moved,Option.map_some]

/-- One thread can make any calls. -/
theorem calls_run (calls : List Call) : ∃ trace s,Run LogLines.step free LogLines.World.initial trace s ∧ s.threads 0 = .idle ∧
    s.gLock = none ∧ order trace = calls.map fun c => (0,c) := by
  induction calls using List.reverseRecOn with
  | nil => exact ⟨[],_,.start,rfl,rfl,rfl⟩
  | append_singleton calls c ih =>
    obtain ⟨trace,s,run,idle,free_lock,made⟩ := ih
    refine ⟨_,_,run.trans (call_run idle free_lock c),idle,free_lock,?_⟩
    rw [order_append,made,call_order,List.map_append]
    rfl

/-- One call more than the ring has slots. -/
theorem recent_lines_lapped : ∃ trace t,Run step succeeds World.initial trace t ∧ t.log.gLock = none ∧ (order trace).length = 1025 ∧
    t.ring.gRing.toList.rotate t.ring.gRingIdx = ((List.range 1025).drop 1).map some ∧
    t.ring.ledger.releases[0]? = some 1 ∧ t.ring.ledger.releases[1]? = some 0 ∧ t.ring.fini.ledger.releases[1]? = some 1 := by
  obtain ⟨trace,log,run,_,free_lock,made⟩ := calls_run (List.replicate 1025 (warning (ascii "stat failed for /etc/a")))
  obtain ⟨ring,run⟩ := @exists_run World.initial trace log run
  have calls : (order trace).length = 1025 := by rw [made,List.length_map,List.length_replicate]
  obtain ⟨_,_,recent,⟨_,releases⟩,_,fini⟩ := recent_lines run free_lock calls
  rw [show 1024 - 1025 = 0 from rfl,show 1025 - 1024 = 1 from rfl,List.replicate_zero,List.nil_append] at recent
  exact ⟨trace,_,run,free_lock,calls,recent,releases 0 (by decide),releases 1 (by decide),fini 1 (by decide)⟩

end Nulleye.LogRings
