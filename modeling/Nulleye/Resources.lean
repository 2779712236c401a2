import Nulleye.Runs
import Mathlib.Logic.Function.Basic

/-!
Threads that work on resources, as a library. A call is a list of operations on one resource,
each of them one step between any steps of the other threads. A resource that one thread uses
is led through the same contents as if its calls were made one after the other at once.
-/
namespace Nulleye.Resources
open Nulleye.Runs

variable {Thread Call Resource : Type*} {Contents : Resource → Type*}

/-- Operations on a resource, one after the other. -/
structure Procedure (Contents : Resource → Type*) where
  resource : Resource
  operations : List (Contents resource → Contents resource)

def Procedure.run (p : Procedure Contents) (c : Contents p.resource) : Contents p.resource :=
  p.operations.foldl (fun c operation => operation c) c

/-- The contents of the resources, and what every thread has left of its call. -/
structure World (Thread : Type*) (Contents : Resource → Type*) where
  contents : ∀ k,Contents k
  threads : Thread → Option (Procedure Contents)

/-- No thread is in a call. -/
def initial (contents : ∀ k,Contents k) : World Thread Contents := ⟨contents,fun _ => none⟩

/-- No thread is in a call on a resource. -/
def World.Idle (s : World Thread Contents) (k : Resource) : Prop := ∀ i p,s.threads i = some p → p.resource ≠ k

inductive Action (Thread Call : Type*) where
  | call (i : Thread) (c : Call)
  | advance (i : Thread)

inductive Label (Thread Call : Type*) where
  | called (i : Thread) (c : Call)
  | advanced (i : Thread)
  | returned (i : Thread)

/-- The calls in the order in which they were begun. -/
def called (trace : List (Label Thread Call)) : List Call := trace.filterMap fun
  | .called _ c => some c
  | _ => none

@[simp] theorem called_append (front back : List (Label Thread Call)) : called (front ++ back) = called front ++ called back :=
  List.filterMap_append

@[simp] theorem called_one : (∀ (i : Thread) (c : Call),called [.called i c] = [c]) ∧
    (∀ i : Thread,called ([.advanced i] : List (Label Thread Call)) = []) ∧
    ∀ i : Thread,called ([.returned i] : List (Label Thread Call)) = [] :=
  ⟨fun _ _ => rfl,fun _ => rfl,fun _ => rfl⟩

/-! ### One call after the other -/

section Calls
variable [DecidableEq Resource] {contents contents' : ∀ k,Contents k} {p : Procedure Contents} {k : Resource}

/-- All operations at once. -/
def Procedure.apply (p : Procedure Contents) (contents : ∀ k,Contents k) : ∀ k,Contents k :=
  Function.update contents p.resource (p.run (contents p.resource))

theorem apply_other (other : p.resource ≠ k) (contents : ∀ k,Contents k) : p.apply contents k = contents k :=
  Function.update_of_ne (Ne.symm other) _ _

theorem apply_self (p : Procedure Contents) (contents : ∀ k,Contents k) :
    p.apply contents p.resource = p.run (contents p.resource) := Function.update_self ..

/-- What some calls make of the resources one after the other. -/
def inTurn (procedure : Call → Procedure Contents) (contents : ∀ k,Contents k) (calls : List Call) : ∀ k,Contents k :=
  calls.foldl (fun contents c => (procedure c).apply contents) contents

theorem inTurn_append (procedure : Call → Procedure Contents) (contents : ∀ k,Contents k) (calls : List Call) (c : Call) :
    inTurn procedure contents (calls ++ [c]) = (procedure c).apply (inTurn procedure contents calls) := by
  simp [inTurn]

end Calls

/-! ### Steps of threads -/

variable [DecidableEq Thread] [DecidableEq Resource] (procedure : Call → Procedure Contents)

/-- A thread begins a call, or it makes the next operation of its call or returns from it. -/
def step (s : World Thread Contents) : Action Thread Call → Option (World Thread Contents × Label Thread Call)
  | .call i c =>
    match s.threads i with
    | none => some ({ s with threads := Function.update s.threads i (some (procedure c)) },.called i c)
    | some _ => none
  | .advance i =>
    match s.threads i with
    | none => none
    | some ⟨_,[]⟩ => some ({ s with threads := Function.update s.threads i none },.returned i)
    | some ⟨k,operation :: rest⟩ =>
      some (⟨Function.update s.contents k (operation (s.contents k)),Function.update s.threads i (some ⟨k,rest⟩)⟩,.advanced i)

/-- At most one thread has used a resource. -/
def Alone (k : Resource) (trace : List (Label Thread Call)) : Prop :=
  ∀ i j c d,.called i c ∈ trace → .called j d ∈ trace → (procedure c).resource = k → (procedure d).resource = k → i = j

/-- What a run keeps: a thread in a call has begun one on its resource, and a resource with one user is, up to what is left
    of the call on it, where the calls lead one after the other. -/
structure Inv (contents : ∀ k,Contents k) (trace : List (Label Thread Call)) (s : World Thread Contents) : Prop where
  begun : ∀ i p,s.threads i = some p → ∃ c,.called i c ∈ trace ∧ (procedure c).resource = p.resource
  within : ∀ k,Alone procedure k trace → ∀ i p,s.threads i = some p → p.resource = k →
    p.apply s.contents k = inTurn procedure contents (called trace) k
  idle : ∀ k,Alone procedure k trace → s.Idle k → s.contents k = inTurn procedure contents (called trace) k

variable {procedure} {contents : ∀ k,Contents k} {trace : List (Label Thread Call)} {s : World Thread Contents} {k : Resource}

omit [DecidableEq Thread] in
theorem inv_initial : Inv procedure contents [] (initial contents : World Thread Contents) :=
  ⟨fun _ _ there => (nomatch there),fun _ _ _ _ there => (nomatch there),fun _ _ _ => rfl⟩

omit [DecidableEq Thread] [DecidableEq Resource] in
theorem Alone.before {label : Label Thread Call} (alone : Alone procedure k (trace ++ [label])) : Alone procedure k trace :=
  fun i j c d hi hj => alone i j c d (List.mem_append_left _ hi) (List.mem_append_left _ hj)

omit [DecidableEq Thread] in
/-- Two threads that are in calls on a resource with one user are the same. -/
theorem Inv.same (inv : Inv procedure contents trace s) (alone : Alone procedure k trace) {i j : Thread} {p q : Procedure Contents}
    (first : s.threads i = some p) (second : s.threads j = some q) (on : p.resource = k) (on' : q.resource = k) : i = j := by
  obtain ⟨c,begun,at_c⟩ := inv.begun i p first
  obtain ⟨d,begun',at_d⟩ := inv.begun j q second
  exact alone i j c d begun begun' (at_c.trans on) (at_d.trans on')

omit [DecidableEq Resource] in
/-- Where a thread is after another thread, or it, went on. -/
theorem threads_cases {threads : Thread → Option (Procedure Contents)} {i j : Thread} {left : Option (Procedure Contents)}
    {q : Procedure Contents} (there : Function.update threads i left j = some q) :
    (j = i ∧ left = some q) ∨ (j ≠ i ∧ threads j = some q) := by
  by_cases same : j = i
  · subst same
    exact .inl ⟨rfl,by rwa [Function.update_self] at there⟩
  · exact .inr ⟨same,by rwa [Function.update_of_ne same] at there⟩

theorem Inv.call (inv : Inv procedure contents trace s) {i : Thread} (free : s.threads i = none) (c : Call) :
    Inv procedure contents (trace ++ [.called i c]) { s with threads := Function.update s.threads i (some (procedure c)) } := by
  refine ⟨fun j q there => ?_,fun k alone j q there on => ?_,fun k alone idle => ?_⟩
  · rcases threads_cases there with ⟨rfl,here⟩ | ⟨_,before⟩
    · cases here
      exact ⟨c,by simp,rfl⟩
    · obtain ⟨d,begun,on⟩ := inv.begun j q before
      exact ⟨d,List.mem_append_left _ begun,on⟩
  · rw [called_append,called_one.1,inTurn_append]
    rcases threads_cases there with ⟨rfl,here⟩ | ⟨other,before⟩
    · cases here
      subst on
      -- another thread in a call on the resource would be a second user
      have idle : s.Idle (procedure c).resource := by
        intro j' q' there' on'
        obtain ⟨d,begun,at_d⟩ := inv.begun j' q' there'
        have same := alone j' j d c (List.mem_append_left _ begun) (by simp) (at_d.trans on') rfl
        rw [same,free] at there'
        cases there'
      rw [apply_self,apply_self,inv.idle _ alone.before idle]
    · have elsewhere : (procedure c).resource ≠ k := by
        intro here
        obtain ⟨d,begun,at_d⟩ := inv.begun j q before
        exact other (alone j i d c (List.mem_append_left _ begun) (by simp) (at_d.trans on) here)
      rw [apply_other elsewhere]
      exact inv.within k alone.before j q before on
  · have elsewhere : (procedure c).resource ≠ k := idle i _ (Function.update_self ..)
    rw [called_append,called_one.1,inTurn_append,apply_other elsewhere]
    refine inv.idle k alone.before fun j q there => idle j q ?_
    have other : j ≠ i := by
      rintro rfl
      rw [free] at there
      cases there
    exact (Function.update_of_ne other _ _).trans there

theorem Inv.advance (inv : Inv procedure contents trace s) {i : Thread} {k₀ : Resource} {operation : Contents k₀ → Contents k₀}
    {rest : List (Contents k₀ → Contents k₀)} (here : s.threads i = some ⟨k₀,operation :: rest⟩) :
    Inv procedure contents (trace ++ [.advanced i])
      ⟨Function.update s.contents k₀ (operation (s.contents k₀)),Function.update s.threads i (some ⟨k₀,rest⟩)⟩ := by
  refine ⟨fun j q there => ?_,fun k alone j q there on => ?_,fun k alone idle => ?_⟩
  · rcases threads_cases there with ⟨rfl,left⟩ | ⟨_,before⟩
    · cases left
      obtain ⟨d,begun,on⟩ := inv.begun j _ here
      exact ⟨d,List.mem_append_left _ begun,on⟩
    · obtain ⟨d,begun,on⟩ := inv.begun j q before
      exact ⟨d,List.mem_append_left _ begun,on⟩
  · rw [called_append,called_one.2.1,List.append_nil]
    rcases threads_cases there with ⟨rfl,left⟩ | ⟨other,before⟩
    · cases left
      subst on
      rw [← inv.within _ alone.before j _ here rfl]
      simp [Procedure.apply,Procedure.run]
    · have elsewhere : k₀ ≠ k := fun same => other (inv.same alone.before before here on same)
      rw [← inv.within k alone.before j q before on]
      subst on
      rw [apply_self,apply_self]
      exact congrArg q.run (Function.update_of_ne (Ne.symm elsewhere) _ _)
  · have elsewhere : k₀ ≠ k := idle i ⟨k₀,rest⟩ (Function.update_self ..)
    rw [called_append,called_one.2.1,List.append_nil,← inv.idle k alone.before]
    · exact Function.update_of_ne (Ne.symm elsewhere) _ _
    · intro j q there
      by_cases same : j = i
      · subst same
        cases here.symm.trans there
        exact elsewhere
      · exact idle j q ((Function.update_of_ne same _ _).trans there)

theorem Inv.returns (inv : Inv procedure contents trace s) {i : Thread} {k₀ : Resource} (here : s.threads i = some ⟨k₀,[]⟩) :
    Inv procedure contents (trace ++ [.returned i]) { s with threads := Function.update s.threads i none } := by
  have before : ∀ {j q},Function.update s.threads i none j = some q → s.threads j = some q := by
    intro j q there
    rcases threads_cases there with ⟨_,left⟩ | ⟨_,before⟩
    · cases left
    · exact before
  refine ⟨fun j q there => ?_,fun k alone j q there on => ?_,fun k alone idle => ?_⟩
  · obtain ⟨d,begun,on⟩ := inv.begun j q (before there)
    exact ⟨d,List.mem_append_left _ begun,on⟩
  · rw [called_append,called_one.2.2,List.append_nil]
    exact inv.within k alone.before j q (before there) on
  · rw [called_append,called_one.2.2,List.append_nil]
    by_cases on : k₀ = k
    · subst on
      rw [← inv.within k₀ alone.before i _ here rfl]
      exact (apply_self ⟨k₀,[]⟩ s.contents).symm
    · refine inv.idle k alone.before fun j q there => ?_
      by_cases same : j = i
      · subst same
        cases here.symm.trans there
        exact on
      · exact idle j q ((Function.update_of_ne same _ _).trans there)

theorem inv_step {t : World Thread Contents} {a : Action Thread Call} {label : Label Thread Call}
    (inv : Inv procedure contents trace s) (moved : step procedure s a = some (t,label)) : Inv procedure contents (trace ++ [label]) t := by
  cases a with
  | call i c =>
    simp only [step] at moved
    split at moved
    · rename_i free
      cases moved
      exact inv.call free c
    · cases moved
  | advance i =>
    simp only [step] at moved
    split at moved
    · cases moved
    · rename_i here
      cases moved
      exact inv.returns here
    · rename_i here
      cases moved
      exact inv.advance here

/-- In every run, a resource that no thread is in a call on and that one thread at most has used is where its calls
    lead one after the other. -/
theorem alone_inTurn {ok : World Thread Contents → Action Thread Call → Prop} {t : World Thread Contents}
    (run : Run (step procedure) ok (initial contents) trace t) (alone : Alone procedure k trace) (idle : t.Idle k) :
    t.contents k = inTurn procedure contents (called trace) k := by
  have inv : Inv procedure contents trace t :=
    run.invariant (I := Inv procedure contents) inv_initial fun _ _ _ _ _ _ inv _ moved => inv_step inv moved
  exact inv.idle k alone idle

end Nulleye.Resources
