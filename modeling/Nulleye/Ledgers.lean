import Mathlib.Data.List.Perm.Basic
import Mathlib.Data.List.Count

/-!
Ledgers of resources. Each resource is numbered when it is acquired, and the ledger counts
how often it was released. A ledger owes the resources that were not released, when each of
the others was released once.
-/
namespace Nulleye.Ledgers

/-- How often each resource was released. -/
structure Ledger where
  releases : List Nat
  deriving DecidableEq

def Ledger.empty : Ledger := ⟨[]⟩

/-- The number of the resource that is acquired next. -/
def Ledger.fresh (l : Ledger) : Nat := l.releases.length

def Ledger.acquire (l : Ledger) : Ledger := ⟨l.releases ++ [0]⟩

def Ledger.release (n : Nat) (l : Ledger) : Ledger := ⟨l.releases.modify n (· + 1)⟩

/-- Releasing one resource after another. -/
def Ledger.releaseAll (held : List Nat) (l : Ledger) : Ledger := held.foldl (fun l n => l.release n) l

/-- Releasing a resource where there is one. -/
def Ledger.releaseSome (n : Option Nat) (l : Ledger) : Ledger :=
  match n with
  | some n => l.release n
  | none => l

/-- The resources in `held` were not released, and all others once. -/
structure Ledger.Owes (l : Ledger) (held : List Nat) : Prop where
  known : ∀ n ∈ held,n < l.fresh
  once : ∀ n (inside : n < l.releases.length),l.releases[n] + held.count n = 1

/-- Every resource was released exactly once. -/
def Ledger.Balanced (l : Ledger) : Prop := ∀ n ∈ l.releases,n = 1

@[simp] theorem fresh_acquire (l : Ledger) : l.acquire.fresh = l.fresh + 1 := by
  simp [Ledger.fresh,Ledger.acquire]

@[simp] theorem fresh_release (n : Nat) (l : Ledger) : (l.release n).fresh = l.fresh := by
  simp [Ledger.fresh,Ledger.release]

/-- A resource that is acquired changes nothing about the others. -/
theorem acquire_other {l : Ledger} {n : Nat} (known : n < l.fresh) : l.acquire.releases[n]? = l.releases[n]? :=
  List.getElem?_append_left known

theorem release_other {l : Ledger} {m n : Nat} (differs : m ≠ n) : (l.release m).releases[n]? = l.releases[n]? := by
  simp [Ledger.release,differs]

theorem owes_empty : Ledger.empty.Owes [] where
  known n member := by cases member
  once n inside := absurd inside (Nat.not_lt_zero n)

theorem Ledger.Owes.perm {l : Ledger} {held held' : List Nat} (owes : l.Owes held) (same : held.Perm held') : l.Owes held' where
  known n member := owes.known n (same.mem_iff.mpr member)
  once n inside := by rw [← same.count_eq]; exact owes.once n inside

theorem Ledger.Owes.unreleased {l : Ledger} {held : List Nat} (owes : l.Owes held) {n : Nat} (member : n ∈ held) :
    l.releases[n]? = some 0 := by
  have inside : n < l.releases.length := owes.known n member
  have once := owes.once n inside
  have counted : 0 < held.count n := List.count_pos_iff.mpr member
  rw [List.getElem?_eq_getElem inside]
  congr 1
  omega

theorem Ledger.Owes.released {l : Ledger} {held : List Nat} (owes : l.Owes held) {n : Nat} (known : n < l.fresh)
    (unheld : n ∉ held) : l.releases[n]? = some 1 := by
  have inside : n < l.releases.length := known
  have once := owes.once n inside
  rw [List.count_eq_zero.mpr unheld] at once
  rw [List.getElem?_eq_getElem inside]
  exact congrArg some once

theorem Ledger.Owes.acquire {l : Ledger} {held : List Nat} (owes : l.Owes held) : l.acquire.Owes (held ++ [l.fresh]) where
  known n member := by
    rw [fresh_acquire]
    rcases List.mem_append.mp member with before | last
    · exact Nat.lt_succ_of_lt (owes.known n before)
    · rw [List.mem_singleton.mp last]
      exact Nat.lt_succ_self _
  once n inside := by
    simp only [Ledger.acquire,List.length_append,List.length_singleton] at inside
    simp only [Ledger.acquire,List.count_append]
    rcases Nat.lt_or_eq_of_le (Nat.le_of_lt_succ inside) with before | last
    · have differs : l.fresh ≠ n := (Nat.ne_of_lt before).symm
      simpa [List.getElem_append_left before,List.count_singleton,differs] using owes.once n before
    · subst last
      have unheld : held.count l.releases.length = 0 := by
        rw [List.count_eq_zero]
        exact fun member => Nat.lt_irrefl _ (owes.known _ member)
      simp [unheld,Ledger.fresh]

theorem Ledger.Owes.release {l : Ledger} {n : Nat} {held : List Nat} (owes : l.Owes (n :: held)) : (l.release n).Owes held where
  known m member := by
    rw [fresh_release]
    exact owes.known m (by simp [member])
  once m inside := by
    simp only [Ledger.release,List.length_modify] at inside
    have before := owes.once m inside
    simp only [Ledger.release,List.getElem_modify]
    by_cases same : n = m
    · subst same
      simp only [List.count_cons_self,if_true] at before ⊢
      omega
    · simpa [same] using before

/-- Releasing some of the resources leaves the others. -/
theorem Ledger.Owes.releaseAll {l : Ledger} {held lost : List Nat} (owes : l.Owes (held ++ lost)) : (l.releaseAll held).Owes lost := by
  induction held generalizing l with
  | nil => exact owes
  | cons n rest ih => exact ih owes.release

@[simp] theorem fresh_releaseSome (n : Option Nat) (l : Ledger) : (l.releaseSome n).fresh = l.fresh := by
  cases n <;> simp [Ledger.releaseSome]

@[simp] theorem fresh_releaseAll (held : List Nat) (l : Ledger) : (l.releaseAll held).fresh = l.fresh := by
  induction held generalizing l with
  | nil => rfl
  | cons n rest ih => exact (ih (l.release n)).trans (fresh_release n l)

theorem Ledger.Owes.releaseSome {l : Ledger} {n : Option Nat} {held : List Nat} (owes : l.Owes (n.toList ++ held)) :
    (l.releaseSome n).Owes held := by
  cases n with
  | none => exact owes
  | some n => exact Ledger.Owes.release owes

/-- What is acquired can be put first. -/
theorem Ledger.Owes.acquired {l : Ledger} {held : List Nat} (owes : l.Owes held) : l.acquire.Owes (l.fresh :: held) :=
  owes.acquire.perm (List.perm_append_singleton _ _)

/-- A ledger is balanced exactly if it owes nothing. -/
theorem Ledger.Owes.balanced_iff {l : Ledger} {held : List Nat} (owes : l.Owes held) : l.Balanced ↔ held = [] := by
  constructor
  · intro balanced
    rw [List.eq_nil_iff_forall_not_mem]
    intro n member
    have inside : n < l.releases.length := owes.known n member
    have once := owes.once n inside
    have released := balanced _ (List.getElem_mem inside)
    have counted : 0 < held.count n := List.count_pos_iff.mpr member
    omega
  · rintro rfl m member
    obtain ⟨n,inside,rfl⟩ := List.getElem_of_mem member
    simpa using owes.once n inside

theorem owes_of_balanced {l : Ledger} (balanced : l.Balanced) : l.Owes [] where
  known n member := by cases member
  once n inside := by simpa using balanced _ (List.getElem_mem inside)

end Nulleye.Ledgers
