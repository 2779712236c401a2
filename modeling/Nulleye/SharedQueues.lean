import Nulleye.Rings
import Nulleye.Runs

/-!
Workers that share one bounded queue, as a library. A worker takes the oldest
element, handles it in a step of its own, and then takes the next one; elements are
added at any time while there is room. In every run each element is taken once, by
one worker, in the order of the queue.
-/
namespace Nulleye.SharedQueues
open Nulleye.Rings Nulleye.Runs

variable {α ι κ ρ : Type}

/-- The queue, the element that each worker has taken and not handled, and what they have recorded. -/
structure World (α ι ρ : Type) where
  queue : List α
  holding : ι → Option α
  records : ρ

/-- The scheduler's choice; `choice` is what handling an element depends on besides. -/
inductive Action (α ι κ : Type) where
  | publish (x : α)
  | consume (i : ι)
  | handle (i : ι) (choice : κ)

inductive Label (α ι : Type) where
  | published (x : α)
  | refused (x : α)
  | took (i : ι) (x : α)
  | idle (i : ι)
  | handled (i : ι) (x : α)
  deriving DecidableEq

@[simp] def Label.added : Label α ι → Option α
  | .published x => some x
  | _ => none

@[simp] def Label.taking : Label α ι → Option (ι × α)
  | .took i x => some (i,x)
  | _ => none

@[simp] def Label.handling : Label α ι → Option (ι × α)
  | .handled i x => some (i,x)
  | _ => none

/-- The elements that were added, oldest first. -/
def published (trace : List (Label α ι)) : List α := trace.filterMap Label.added

/-- The elements that were taken, with the worker that took each. -/
def taken (trace : List (Label α ι)) : List (ι × α) := trace.filterMap Label.taking

/-- The elements that were handled, with the worker that handled each. -/
def handled (trace : List (Label α ι)) : List (ι × α) := trace.filterMap Label.handling

@[simp] theorem published_concat (trace : List (Label α ι)) (label : Label α ι) :
    published (trace ++ [label]) = published trace ++ label.added.toList := by
  cases label <;> simp [published]

@[simp] theorem taken_concat (trace : List (Label α ι)) (label : Label α ι) :
    taken (trace ++ [label]) = taken trace ++ label.taking.toList := by
  cases label <;> simp [taken]

@[simp] theorem handled_concat (trace : List (Label α ι)) (label : Label α ι) :
    handled (trace ++ [label]) = handled trace ++ label.handling.toList := by
  cases label <;> simp [handled]

variable [DecidableEq ι]

/-- What worker `i` has of these. -/
def share (i : ι) (pairs : List (ι × α)) : List α :=
  pairs.filterMap fun (j,x) => if j = i then some x else none

@[simp] theorem share_append (i : ι) (front back : List (ι × α)) : share i (front ++ back) = share i front ++ share i back :=
  List.filterMap_append

@[simp] theorem share_nil (i : ι) : share i ([] : List (ι × α)) = [] := rfl

@[simp] theorem share_one (i j : ι) (x : α) : share i [(j,x)] = if j = i then [x] else [] := by
  by_cases same : j = i <;> simp [share,same]

/-- One step; `body` is what a worker does with an element. -/
def step (capacity : Nat) (body : ι → κ → α → ρ → Option ρ) (s : World α ι ρ) :
    Action α ι κ → Option (World α ι ρ × Label α ι)
  | .publish x =>
    let (queue,room) := push capacity s.queue x
    some ({ s with queue := queue },if room then .published x else .refused x)
  | .consume i =>
    match s.holding i with
    | some _ => none
    | none =>
      match pop s.queue with
      | (_,none) => some (s,.idle i)
      | (queue,some x) =>
        some ({ s with queue := queue, holding := fun j => if j = i then some x else s.holding j },.took i x)
  | .handle i choice =>
    match s.holding i with
    | none => none
    | some x => (body i choice x s.records).map fun records =>
      ({ s with holding := fun j => if j = i then none else s.holding j, records := records },.handled i x)

/-- The queue is empty, and every element that was taken is handled. -/
def Drained (s : World α ι ρ) : Prop := s.queue = [] ∧ ∀ i,s.holding i = none

/-! ### One step -/

section Steps
variable {capacity : Nat} {body : ι → κ → α → ρ → Option ρ} {s t : World α ι ρ} {a : Action α ι κ} {label : Label α ι}

/-- Everything that a step can do. -/
theorem step_cases (moved : step capacity body s a = some (t,label)) :
    (∃ x,label = .published x ∧ t = { s with queue := s.queue ++ [x] }) ∨
      (∃ x,label = .refused x ∧ t = s) ∨ (∃ i,label = .idle i ∧ t = s) ∨
      (∃ i x queue,label = .took i x ∧ s.holding i = none ∧ s.queue = x :: queue ∧
        t = { s with queue := queue, holding := fun j => if j = i then some x else s.holding j }) ∨
      ∃ i choice x records,label = .handled i x ∧ s.holding i = some x ∧ body i choice x s.records = some records ∧
        t = { s with holding := fun j => if j = i then none else s.holding j, records := records } := by
  cases a with
  | publish x =>
    by_cases room : s.queue.length < capacity
    · simp only [step,push,if_pos room,if_true] at moved
      cases moved
      exact .inl ⟨x,rfl,rfl⟩
    · simp only [step,push,if_neg room,Bool.false_eq_true,if_false] at moved
      cases moved
      exact .inr (.inl ⟨x,rfl,rfl⟩)
  | consume i =>
    cases held : s.holding i with
    | some y => simp [step,held] at moved
    | none =>
      cases waiting : s.queue with
      | nil =>
        simp only [step,held,waiting,pop] at moved
        cases moved
        exact .inr (.inr (.inl ⟨i,rfl,rfl⟩))
      | cons x queue =>
        simp only [step,held,waiting,pop] at moved
        cases moved
        exact .inr (.inr (.inr (.inl ⟨i,x,queue,rfl,held,rfl,rfl⟩)))
  | handle i choice =>
    cases held : s.holding i with
    | none => simp [step,held] at moved
    | some x =>
      simp only [step,held] at moved
      obtain ⟨records,done,same⟩ := Option.map_eq_some_iff.mp moved
      cases same
      exact .inr (.inr (.inr (.inr ⟨i,choice,x,records,rfl,held,done,rfl⟩)))

end Steps

/-! ### Runs -/

section Runs
variable {capacity : Nat} {body : ι → κ → α → ρ → Option ρ} {s : World α ι ρ}

/-- What was added is what was taken, in order, and then what waits. -/
def InOrder (trace : List (Label α ι)) (t : World α ι ρ) : Prop :=
  published trace = (taken trace).map Prod.snd ++ t.queue

/-- What a worker took is what it handled, in order, and then what it holds. -/
def Shares (trace : List (Label α ι)) (t : World α ι ρ) : Prop :=
  ∀ i,share i (taken trace) = share i (handled trace) ++ (t.holding i).toList

theorem step_in_order {trace : List (Label α ι)} {t u : World α ι ρ} {a : Action α ι κ} {label : Label α ι}
    (ordered : InOrder trace t) (moved : step capacity body t a = some (u,label)) : InOrder (trace ++ [label]) u := by
  unfold InOrder at ordered ⊢
  rcases step_cases moved with ⟨x,rfl,rfl⟩ | ⟨x,rfl,rfl⟩ | ⟨i,rfl,rfl⟩ | ⟨i,x,queue,rfl,_,waiting,rfl⟩ |
    ⟨i,_,x,_,rfl,_,_,rfl⟩
  · simp [ordered]
  · simpa using ordered
  · simpa using ordered
  · simp [ordered,waiting]
  · simpa using ordered

theorem step_shares {trace : List (Label α ι)} {t u : World α ι ρ} {a : Action α ι κ} {label : Label α ι}
    (shares : Shares trace t) (moved : step capacity body t a = some (u,label)) : Shares (trace ++ [label]) u := by
  intro j
  have share_j := shares j
  rcases step_cases moved with ⟨x,rfl,rfl⟩ | ⟨x,rfl,rfl⟩ | ⟨i,rfl,rfl⟩ | ⟨i,x,queue,rfl,free_i,_,rfl⟩ |
    ⟨i,_,x,_,rfl,held,_,rfl⟩
  · simpa using share_j
  · simpa using share_j
  · simpa using share_j
  · by_cases same : i = j
    · subst same
      simpa [free_i] using share_j
    · simpa [same,Ne.symm same] using share_j
  · by_cases same : i = j
    · subst same
      simpa [held] using share_j
    · simpa [same,Ne.symm same] using share_j

/-- In a run that begins and ends with nothing left to do, each element was taken once, in
    the order of the queue, and each worker handled what it took, in that order. -/
theorem drained_shares {trace : List (Label α ι)} {t : World α ι ρ} (run : Run (step capacity body) free s trace t)
    (before : Drained s) (after : Drained t) :
    (taken trace).map Prod.snd = published trace ∧ ∀ i,share i (handled trace) = share i (taken trace) := by
  obtain ⟨ordered,shares⟩ : InOrder trace t ∧ Shares trace t := by
    refine @Run.invariant _ _ _ (step capacity body) free s (fun trace t => InOrder trace t ∧ Shares trace t)
      ⟨before.1.symm,fun i => by rw [before.2 i]; rfl⟩ ?_ trace t run
    rintro trace t a u label _ ⟨ordered,shares⟩ _ moved
    exact ⟨step_in_order ordered moved,step_shares shares moved⟩
  constructor
  · rw [ordered,after.1,List.append_nil]
  · intro i
    rw [shares i,after.2 i,Option.toList_none,List.append_nil]

/-- What holds of the records and the elements handled so far is kept by a run if handling
    one more element keeps it. -/
theorem records_invariant {I : List (ι × α) → ρ → Prop} (init : I [] s.records)
    (keep : ∀ done i choice x r r',I done r → body i choice x r = some r' → I (done ++ [(i,x)]) r')
    {trace : List (Label α ι)} {t : World α ι ρ} (run : Run (step capacity body) free s trace t) :
    I (handled trace) t.records := by
  refine @Run.invariant _ _ _ (step capacity body) free s (fun trace t => I (handled trace) t.records) init ?_ trace t run
  intro trace t a u label _ holds _ moved
  rcases step_cases moved with ⟨x,rfl,rfl⟩ | ⟨x,rfl,rfl⟩ | ⟨i,rfl,rfl⟩ | ⟨i,x,queue,rfl,_,_,rfl⟩ |
    ⟨i,choice,x,records,rfl,_,done,rfl⟩
  · simpa using holds
  · simpa using holds
  · simpa using holds
  · simpa using holds
  · have kept := keep _ i choice x _ _ holds done
    simpa using kept

end Runs

end Nulleye.SharedQueues
