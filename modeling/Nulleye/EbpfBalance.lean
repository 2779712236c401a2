import Nulleye.EbpfLoader

/-!
What the loader of the kernel programs takes and gives back. Every object that was opened
is closed once, on every exit. A link that is attached when the table is full is dropped
and never destroyed, so the links are balanced for up to 256 of them.
-/
namespace Nulleye.EbpfBalance
open Nulleye.Ledgers Nulleye.EbpfLoader

/-- Every object and every link was given back exactly once, and the tables are empty. -/
def Settled (s : Loader) : Prop := s.objects.Balanced ∧ s.links.Balanced ∧ s.gObjs = [] ∧ s.gLinks = []

/-- The links that the programs of some objects attach. -/
def attached (files : List ObjectFile) : Nat := (files.map fun file => file.programs.count true).sum

/-- The tables hold what is not given back, but for the links that found no room among `n`. -/
structure Owned (n : Nat) (s : Loader) : Prop where
  objects : s.objects.Owes (s.gObjs.map BpfObject.number)
  links : ∃ lost,s.links.Owes (s.gLinks ++ lost) ∧ s.gLinks.length + lost.length = n ∧ (lost ≠ [] → s.gLinks.length = maxLinks)
  bounded : s.gLinks.length ≤ maxLinks

theorem settled_initial : Settled Loader.initial :=
  ⟨owes_empty.balanced_iff.mpr rfl,owes_empty.balanced_iff.mpr rfl,rfl,rfl⟩

/-! ### The loop over the directory -/

theorem owned_attach {n : Nat} {s : Loader} (owned : Owned n s) : Owned (n + 1) s.attach := by
  obtain ⟨objects,⟨lost,owes,total,full⟩,bounded⟩ := owned
  unfold Loader.attach
  split
  · rename_i room
    have kept_all : lost = [] := by
      by_contra dropped
      exact absurd (full dropped) (Nat.ne_of_lt room)
    subst kept_all
    have acquired := owes.acquire
    simp only [List.append_nil] at acquired
    refine ⟨objects,⟨[],by simpa using acquired,?_,by simp⟩,?_⟩
    · simpa using total
    · simpa using Nat.succ_le_of_lt room
  · rename_i no_room
    have acquired := owes.acquire
    rw [List.append_assoc] at acquired
    refine ⟨objects,⟨lost ++ [s.links.fresh],acquired,?_,fun _ => Nat.le_antisymm bounded (Nat.le_of_not_lt no_room)⟩,bounded⟩
    simp only [List.length_append,List.length_singleton]
    omega

theorem owned_attachAll {n : Nat} {s : Loader} (owned : Owned n s) (programs : List Bool) :
    Owned (n + programs.count true) (attachAll programs s) := by
  induction programs generalizing n s with
  | nil => exact owned
  | cons attaches rest ih =>
    cases attaches with
    | false => exact ih owned
    | true =>
      have later := ih (owned_attach owned)
      rw [List.count_cons_self,Nat.add_comm (rest.count true),← Nat.add_assoc]
      exact later

theorem owned_loop {n : Nat} {s : Loader} (owned : Owned n s) (entries : List Dirent) (found : Option Nat) :
    Owned (n + attached ((loadable entries).take (maxBpfObjects - s.gObjs.length))) (loop entries (s,found)).1 := by
  induction entries generalizing n s found with
  | nil => simpa [loop,loadable,attached] using owned
  | cons ent rest ih =>
    rcases loop_cases ent rest s found with ⟨skipped,here⟩ | ⟨full,here⟩ | ⟨skipped,here⟩ | ⟨file,room,loaded,here⟩
    · rw [skipped,here]
      exact ih owned found
    · simpa [here,Nat.sub_eq_zero_of_le full,attached] using owned
    · have closed := (owned.objects.acquire.perm (List.perm_append_singleton _ _)).release
      have given_back : Owned n { s with objects := s.objects.acquire.release s.objects.fresh } :=
        { owned with objects := closed }
      rw [skipped,here]
      exact ih given_back found
    · have held : Owned n { s with objects := s.objects.acquire, gObjs := s.gObjs ++ [⟨s.objects.fresh,file⟩] } :=
        { owned with objects := by simpa using owned.objects.acquire }
      have size : maxBpfObjects - s.gObjs.length = maxBpfObjects - (s.gObjs.length + 1) + 1 := by omega
      have later := ih (owned_attachAll held file.programs)
        (if file.events && found.isNone then some s.objects.fresh else found)
      rw [loaded,here]
      simpa [size,attached,Nat.add_assoc] using later

/-! ### Cleaning up -/

/-- What the tables hold is given back: all, if there was room for every link. -/
theorem settled_cleanUp {n : Nat} {s : Loader} (owned : Owned n s) : Settled s.cleanUp ↔ n ≤ maxLinks := by
  obtain ⟨objects,⟨lost,owes,total,full⟩,bounded⟩ := owned
  have closed : (s.objects.releaseAll (s.gObjs.map BpfObject.number)).Owes [] :=
    Ledger.Owes.releaseAll (by simpa using objects)
  have destroyed : (s.links.releaseAll s.gLinks).Owes lost := owes.releaseAll
  have balanced : Settled s.cleanUp ↔ lost = [] := by
    rw [← destroyed.balanced_iff]
    exact ⟨fun settled => settled.2.1,fun links => ⟨closed.balanced_iff.mpr rfl,links,rfl,rfl⟩⟩
  rw [balanced]
  constructor
  · rintro rfl
    simp only [List.length_nil] at total
    omega
  · intro few
    by_contra dropped
    have positive := List.length_pos_iff.mpr dropped
    have reached := full dropped
    omega

/-! ### Rounds -/

/-- The directory, and whether `ring_buffer__new` and `pthread_create` succeed. -/
structure Round where
  dir : Option (List Dirent)
  ringBuffer : Bool
  thread : Bool
  deriving DecidableEq

/-- A start, and the stop that follows if it succeeded. -/
def Round.run (r : Round) (s : Loader) : Loader :=
  let started := ebpfLoaderStart r.dir r.ringBuffer r.thread s
  if started.2 = 0 then ebpfLoaderStop started.1 else started.1

/-- The links that are attached in a round. -/
def Round.attached (r : Round) : Nat := (r.dir.elim 0) fun entries => EbpfBalance.attached (kept entries)

theorem owned_ringBuffer {n : Nat} {s : Loader} (owned : Owned n s) (rb : Option (List Nat)) (running : Bool) :
    Owned n { s with rb := rb, rbRunning := running } := ⟨owned.objects,owned.links,owned.bounded⟩

/-- Whatever fails, a round ends with the clean-up of what the loop took. -/
theorem settled_round {s : Loader} (settled : Settled s) (r : Round) : Settled (r.run s) ↔ r.attached ≤ maxLinks := by
  obtain ⟨dir,ringBuffer,thread⟩ := r
  unfold Round.run Round.attached ebpfLoaderStart
  cases dir with
  | none => simpa using settled
  | some entries =>
    obtain ⟨objects,links,_,_⟩ := settled
    have empty : Owned 0 { s with gObjs := [], gLinks := [] } :=
      ⟨owes_of_balanced objects,⟨[],owes_of_balanced links,rfl,fun dropped => absurd rfl dropped⟩,Nat.zero_le _⟩
    have owned := owned_loop empty entries none
    simp only [List.length_nil,Nat.sub_zero,Nat.zero_add] at owned
    simp only [Option.elim_some]
    generalize loop entries ({ s with gObjs := [], gLinks := [] },none) = scanned at owned ⊢
    obtain ⟨t,foundMapFd⟩ := scanned
    cases foundMapFd with
    | none => exact settled_cleanUp owned
    | some fd =>
      cases ringBuffer with
      | false => exact settled_cleanUp (owned_ringBuffer owned none t.rbRunning)
      | true =>
        cases thread with
        | false => exact settled_cleanUp (owned_ringBuffer owned none false)
        | true => exact settled_cleanUp (owned_ringBuffer owned none false)

/-- The state after some rounds. -/
def after (rounds : List Round) : Loader := rounds.foldl (fun s r => r.run s) Loader.initial

theorem after_append (front : List Round) (r : Round) : after (front ++ [r]) = r.run (after front) := by
  simp [after]

/-- After every failed start and after every stop all is given back, exactly if no round attaches more links
    than the table holds. -/
theorem resources_balanced (rounds : List Round) :
    (∀ front,front <+: rounds → Settled (after front)) ↔ ∀ r ∈ rounds,r.attached ≤ maxLinks := by
  constructor
  · intro always r member
    obtain ⟨front,back,rfl⟩ := List.append_of_mem member
    have before := always front (List.prefix_append _ _)
    have later := always (front ++ [r]) ⟨back,by simp⟩
    rw [after_append] at later
    exact (settled_round before r).mp later
  · intro few front part
    induction front using List.reverseRecOn with
    | nil => exact settled_initial
    | append_singleton front r ih =>
      rw [after_append,settled_round (ih ((List.prefix_append _ _).trans part))]
      exact few r (part.subset (by simp))

/-- One object, all of whose programs attach. -/
def oneObject (programs : Nat) : Round :=
  ⟨some [⟨CStrings.ascii "open.bpf.o",some ⟨true,List.replicate programs true,true⟩⟩],true,true⟩

theorem oneObject_attached (programs : Nat) : (oneObject programs).attached = programs := by
  have named : (⟨CStrings.ascii "open.bpf.o",none⟩ : Dirent).isObject = true := by decide
  have object : ∀ file,(⟨CStrings.ascii "open.bpf.o",file⟩ : Dirent).isObject = true := fun _ => named
  simp [oneObject,Round.attached,attached,kept,loadable,object,Option.filter,maxBpfObjects]

/-- The last of 257 links finds no room and is never destroyed. -/
theorem link_leaked : ¬ ∀ rounds front : List Round,front <+: rounds → Settled (after front) := by
  intro always
  have few := (settled_round settled_initial (oneObject 257)).mp (always [oneObject 257] _ (List.prefix_refl _))
  rw [oneObject_attached] at few
  revert few
  decide

end Nulleye.EbpfBalance
