import Mathlib.Algebra.BigOperators.Fin
import Mathlib.Logic.Function.Basic

/-!
Counted loops and sweeps over the cells of a vector, as a library. A sweep updates
one cell after the other, each from the vector as the cells before have left it; the
simultaneous update computes every cell from the vector before. They agree where the
update of a cell does not read what the earlier cells have become.
-/
namespace Nulleye.Sweeps

section Loops
variable {n : Nat} {State : Type*}

/-- The first `k` turns of `for (i = 0; i < n; ++i)`. -/
def turns (body : Fin n → State → Option State) : (k : Nat) → k ≤ n → State → Option State
  | 0,_,s => some s
  | k + 1,inside,s => (turns body k (Nat.le_of_succ_le inside) s).bind (body ⟨k,inside⟩)

/-- The whole loop. -/
def loop (body : Fin n → State → Option State) (s : State) : Option State := turns body n (Nat.le_refl n) s

/-- A loop that gets through has got through each of its turns. -/
theorem turns_reached {body : Fin n → State → Option State} {k : Nat} {inside : k ≤ n} {s : State}
    (done : (turns body k inside s).isSome) (i : Fin n) (before : i < k) :
    ∃ s',turns body i (Nat.le_of_lt i.isLt) s = some s' ∧ (body i s').isSome := by
  induction k with
  | zero => exact absurd before (Nat.not_lt_zero _)
  | succ k ih =>
    rw [turns] at done
    cases reached : turns body k (Nat.le_of_succ_le inside) s with
    | none => simp [reached] at done
    | some s' =>
      rw [reached,Option.bind_some] at done
      rcases Nat.lt_or_eq_of_le (Nat.le_of_lt_succ before) with earlier | last
      · exact @ih (Nat.le_of_succ_le inside) (by rw [reached]; rfl) earlier
      · obtain rfl : i = ⟨k,inside⟩ := Fin.ext last
        exact ⟨s',reached,done⟩

/-- A loop gets through if all its turns do. -/
theorem turns_isSome {body : Fin n → State → Option State} (every : ∀ i s,(body i s).isSome) (k : Nat) (inside : k ≤ n)
    (s : State) : (turns body k inside s).isSome := by
  induction k with
  | zero => rfl
  | succ k ih =>
    obtain ⟨s',reached⟩ := Option.isSome_iff_exists.mp (ih (Nat.le_of_succ_le inside))
    rw [turns,reached,Option.bind_some]
    exact every _ _

end Loops

section Sums
variable {n : Nat} {M : Type*} [AddCommMonoid M]

/-- `for (j = 0; j < n; ++j) total += term`, from 0 on. -/
def addUp (term : Fin n → Option M) : Option M := loop (fun j total => (term j).map (total + ·)) 0

theorem addUp_eq {term : Fin n → Option M} {value : Fin n → M} (terms : ∀ j,term j = some (value j)) :
    addUp term = some (∑ j,value j) := by
  have up_to : ∀ (k : Nat) (inside : k ≤ n),
      turns (fun j total => (term j).map (total + ·)) k inside 0 = some (∑ j : Fin k,value (j.castLE inside)) := by
    intro k
    induction k with
    | zero =>
      intro _
      simp [turns]
    | succ k ih =>
      intro inside
      rw [turns,ih,Option.bind_some,terms,Option.map_some,Fin.sum_univ_castSucc]
      rfl
  exact up_to n (Nat.le_refl n)

theorem addUp_isSome {term : Fin n → Option M} : (addUp term).isSome ↔ ∀ j,(term j).isSome := by
  constructor
  · intro done j
    obtain ⟨_,_,here⟩ := turns_reached done j j.isLt
    simpa using here
  · intro every
    exact turns_isSome (fun j total => by simpa using every j) n (Nat.le_refl n) 0

end Sums

section Cells
variable {n : Nat} {α : Type*}

/-- The cells before `k` updated one after the other, each from the cells as they are then. -/
def sweepTo (f : (Fin n → α) → Fin n → α) : (k : Nat) → k ≤ n → (Fin n → α) → Fin n → α
  | 0,_,s => s
  | k + 1,inside,s =>
    let s' := sweepTo f k (Nat.le_of_succ_le inside) s
    Function.update s' ⟨k,inside⟩ (f s' ⟨k,inside⟩)

/-- All cells updated one after the other. -/
def sweep (f : (Fin n → α) → Fin n → α) (s : Fin n → α) : Fin n → α := sweepTo f n (Nat.le_refl n) s

/-- What the update of cell `i` reads: the cells before it are new, the others old. -/
def seen (new old : Fin n → α) (i : Fin n) : Fin n → α := fun j => if j < i then new j else old j

theorem sweepTo_untouched (f : (Fin n → α) → Fin n → α) (k : Nat) (inside : k ≤ n) (s : Fin n → α) {j : Fin n} (behind : k ≤ j) :
    sweepTo f k inside s j = s j := by
  induction k with
  | zero => rfl
  | succ k ih =>
    have other : j ≠ ⟨k,inside⟩ := by
      rintro rfl
      exact Nat.not_succ_le_self k behind
    rw [sweepTo,Function.update_of_ne other]
    exact ih _ (Nat.le_of_succ_le behind)

/-- A cell that is updated keeps its value to the end. -/
theorem sweepTo_kept (f : (Fin n → α) → Fin n → α) (k : Nat) (inside : k ≤ n) (s : Fin n → α) {j : Fin n} (before : j < k) :
    sweepTo f k inside s j = f (sweepTo f j (Nat.le_of_lt j.isLt) s) j := by
  induction k with
  | zero => exact absurd before (Nat.not_lt_zero _)
  | succ k ih =>
    rcases Nat.lt_or_eq_of_le (Nat.le_of_lt_succ before) with earlier | last
    · have other : j ≠ ⟨k,inside⟩ := fun same => by simp [same] at earlier
      rw [sweepTo,Function.update_of_ne other,ih _ earlier]
    · obtain rfl : j = ⟨k,inside⟩ := Fin.ext last
      rw [sweepTo,Function.update_self]

/-- What a sweep has done when it comes to cell `i`. -/
theorem sweepTo_seen (f : (Fin n → α) → Fin n → α) (s : Fin n → α) (i : Fin n) :
    sweepTo f i (Nat.le_of_lt i.isLt) s = seen (sweep f s) s i := by
  funext j
  by_cases before : j < i
  · rw [seen,if_pos before,sweep,sweepTo_kept f i _ s before,sweepTo_kept f n _ s j.isLt]
  · rw [seen,if_neg before,sweepTo_untouched f i _ s (Nat.le_of_not_lt before)]

/-- The value of a cell after a sweep. -/
theorem sweep_apply (f : (Fin n → α) → Fin n → α) (s : Fin n → α) (i : Fin n) : sweep f s i = f (seen (sweep f s) s i) i := by
  rw [← sweepTo_seen,sweep,sweepTo_kept f n _ s i.isLt]

/-- A sweep is the simultaneous update, if no update reads what the earlier cells have become. -/
theorem sweep_eq {f : (Fin n → α) → Fin n → α} (independent : ∀ new old i,f (seen new old i) i = f old i) (s : Fin n → α) :
    sweep f s = f s := by
  funext i
  rw [sweep_apply,independent]

/-- The update of a cell reads its own old value. -/
theorem seen_self (new old : Fin n → α) (i : Fin n) : seen new old i i = old i := if_neg (lt_irrefl i)

/-- Two sweeps keep step: cells that are related by `P` before are related by `Q` after, if the updates make it so wherever
    they read cells that are related by one of the two. -/
theorem sweep_rel {β : Type*} {f : (Fin n → α) → Fin n → α} {g : (Fin n → β) → Fin n → β} {P Q : α → β → Prop}
    (keep : ∀ i s t,(∀ j,P (s j) (t j) ∨ Q (s j) (t j)) → P (s i) (t i) → Q (f s i) (g t i)) {s : Fin n → α} {t : Fin n → β}
    (start : ∀ j,P (s j) (t j)) (i : Fin n) : Q (sweep f s i) (sweep g t i) := by
  obtain ⟨k,inside⟩ := i
  induction k using Nat.strong_induction_on with
  | _ k ih =>
    rw [sweep_apply f,sweep_apply g]
    refine keep _ _ _ (fun j => ?_) (by rw [seen_self,seen_self]; exact start _)
    by_cases before : j < ⟨k,inside⟩
    · rw [seen,seen,if_pos before,if_pos before]
      exact .inr (ih j before j.isLt)
    · rw [seen,seen,if_neg before,if_neg before]
      exact .inl (start j)

/-- What the update of every cell makes of cells that are `P` or already `Q`. -/
theorem sweep_all {f : (Fin n → α) → Fin n → α} {P Q : α → Prop} (keep : ∀ i s,(∀ j,P (s j) ∨ Q (s j)) → P (s i) → Q (f s i))
    {s : Fin n → α} (start : ∀ j,P (s j)) (i : Fin n) : Q (sweep f s i) :=
  @sweep_rel n α α f f (fun a _ => P a) (fun a _ => Q a) (fun i s _ => keep i s) s s start i

/-- A loop whose turns update one cell each. -/
theorem turns_sweepTo {body : Fin n → (Fin n → α) → Option (Fin n → α)} {f : (Fin n → α) → Fin n → α}
    (each : ∀ i s,body i s = some (Function.update s i (f s i))) (k : Nat) (inside : k ≤ n) (s : Fin n → α) :
    turns body k inside s = some (sweepTo f k inside s) := by
  induction k with
  | zero => rfl
  | succ k ih => rw [turns,ih,Option.bind_some,each,sweepTo]

theorem loop_sweep {body : Fin n → (Fin n → α) → Option (Fin n → α)} {f : (Fin n → α) → Fin n → α}
    (each : ∀ i s,body i s = some (Function.update s i (f s i))) (s : Fin n → α) : loop body s = some (sweep f s) :=
  turns_sweepTo each n (Nat.le_refl n) s

end Cells

end Nulleye.Sweeps
