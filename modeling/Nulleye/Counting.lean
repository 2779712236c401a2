import Mathlib.Data.List.Basic
import Mathlib.Data.List.Count
import Mathlib.Data.List.Range
import Mathlib.Data.List.Perm.Subperm

/-!
Counting in lists: a pool whose entries are replaced one at a time, entries that
exclude each other, and the indices below a bound that a list of tickets covers.
-/
namespace Nulleye.Counting

variable {α : Type*}

/-- Replacing one entry of a pool replaces what that entry contributes to a list of
    contributions, up to their order. -/
theorem filterMap_set_perm {β : Type*} {pool : List α} {i : Nat} {old : α} (found : pool[i]? = some old)
    (f : α → Option β) (new : α) :
    ((f old).toList ++ (pool.set i new).filterMap f).Perm ((f new).toList ++ pool.filterMap f) := by
  obtain ⟨inside,rfl⟩ := List.getElem?_eq_some_iff.mp found
  have before : pool = pool.take i ++ pool[i] :: pool.drop (i + 1) := by
    rw [← List.drop_eq_getElem_cons inside,List.take_append_drop]
  have after : (pool.set i new).filterMap f =
      (pool.take i).filterMap f ++ ((f new).toList ++ (pool.drop (i + 1)).filterMap f) := by
    rw [List.set_eq_take_append_cons_drop,if_pos inside,List.filterMap_append,List.filterMap_cons]
    cases f new <;> rfl
  have first : pool.filterMap f =
      (pool.take i).filterMap f ++ ((f pool[i]).toList ++ (pool.drop (i + 1)).filterMap f) := by
    conv_lhs => rw [before]
    rw [List.filterMap_append,List.filterMap_cons]
    cases f pool[i] <;> rfl
  rw [after,first]
  have swap : ∀ xs ys zs : List β, (xs ++ (ys ++ zs)).Perm (ys ++ (xs ++ zs)) := fun xs ys zs => by
    rw [← List.append_assoc,← List.append_assoc]
    exact List.perm_append_comm.append_right zs
  exact (swap _ _ _).trans ((swap _ _ _).append_left _ |>.trans (swap _ _ _))

/-- At most one entry of a pool is inside. -/
def Alone (inside : α → Prop) (pool : List α) : Prop :=
  ∀ (i j : Nat) (a b : α), pool[i]? = some a → pool[j]? = some b → inside a → inside b → i = j

/-- An entry may be replaced by one that is inside only if it was inside itself, or nobody was. -/
theorem Alone.set {inside : α → Prop} {pool : List α} (alone : Alone inside pool) {i : Nat} {old new : α}
    (found : pool[i]? = some old) (enters : inside new → inside old ∨ ∀ a ∈ pool, ¬ inside a) :
    Alone inside (pool.set i new) := by
  -- Whoever is inside next to the new entry was inside before, so the new entry took the place of one inside.
  have other : ∀ j a, (pool.set i new)[j]? = some a → inside a → inside new → i = j := by
    intro j a there within now
    by_contra apart
    rw [List.getElem?_set_ne apart] at there
    rcases enters now with before | nobody
    · exact apart (alone i j old a found there before within)
    · exact nobody a (List.mem_of_getElem? there) within
  intro j k a b first second insideA insideB
  by_cases same : i = j
  · subst same
    by_cases both : i = k
    · exact both
    · rw [List.getElem?_set_self (List.getElem?_eq_some_iff.mp found).1] at first
      cases first
      exact other k b second insideB insideA
  · by_cases last : i = k
    · subst last
      rw [List.getElem?_set_self (List.getElem?_eq_some_iff.mp found).1] at second
      cases second
      exact (other j a first insideA insideB).symm
    · rw [List.getElem?_set_ne same] at first
      rw [List.getElem?_set_ne last] at second
      exact alone j k a b first second insideA insideB

/-- A list of tickets covers at most as many indices as it has tickets. -/
theorem range_covered_le (tickets : List Nat) (n : Nat) :
    (List.range n).countP (fun k => decide (k ∈ tickets)) ≤ tickets.length := by
  rw [List.countP_eq_length_filter]
  have distinct : ((List.range n).filter (fun k => decide (k ∈ tickets))).Nodup := List.nodup_range.filter _
  refine (List.subperm_of_subset distinct ?_).length_le
  intro k member
  simpa using (List.mem_filter.mp member).2

/-- The entries from `a` on are those equal to `a` and those from `a + 1` on. -/
theorem countP_le_split (l : List Nat) (a : Nat) :
    l.countP (fun t => decide (a ≤ t)) = l.countP (fun t => decide (a + 1 ≤ t)) + l.count a := by
  induction l with
  | nil => rfl
  | cons t l ih =>
    rw [List.countP_cons,List.countP_cons,List.count_cons,ih]
    rcases Nat.lt_trichotomy t a with below | rfl | above
    · simp [show ¬ a ≤ t by omega,show ¬ a + 1 ≤ t by omega,show ¬ t = a by omega]
    · simp [show ¬ t + 1 ≤ t by omega]; omega
    · simp [show a ≤ t by omega,show a + 1 ≤ t by omega,show ¬ t = a by omega]; omega

/-- The indices below `n` from `a` on. -/
theorem range_from (a n : Nat) : (List.range n).countP (fun k => decide (a ≤ k)) = n - a := by
  induction n with
  | zero => simp
  | succ n ih =>
    rw [List.range_succ,List.countP_append,ih]
    by_cases reached : a ≤ n
    · simp [reached]; omega
    · simp [reached]; omega

end Nulleye.Counting
