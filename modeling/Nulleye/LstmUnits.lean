import Mathlib.Algebra.BigOperators.Group.Finset.Piecewise
import Mathlib.Logic.Equiv.Basic
import Mathlib.Tactic.Linarith
import Nulleye.LstmGates

/-!
The order of the units. A prediction puts the hidden value of a unit where the sums of the
later units of the same step read it, so a step is the update of all units from the vectors
before it, in every order of the units, exactly if no unit has a weight from another.
-/
namespace Nulleye.LstmUnits
open Nulleye.LstmPredictor Nulleye.LstmGates Nulleye.Sweeps

/-- The units after `t` steps that compute all units from the vectors before. -/
def recurrence (sigmoidfApprox tanhf : ℚ → ℚ) (m : LstmModel) (input : Block) : Nat → Fin m.hiddenSize → Cell
  | 0 => fun _ => ⟨0,0⟩
  | t + 1 => next sigmoidfApprox tanhf m (row m input t) (recurrence sigmoidfApprox tanhf m input t)

section Labels
variable (m : LstmModel) (π : Equiv.Perm (Fin m.hiddenSize))

/-- The column of the same gate of the unit with the other label. -/
def moved (col : Nat) : Nat :=
  col / m.hiddenSize * m.hiddenSize + π ⟨col % m.hiddenSize,Nat.mod_lt _ m.hidden_positive⟩

/-- The model whose unit `i` has the weights of unit `π i`. -/
@[reducible] def relabel : LstmModel :=
  { m with
    weights := ⟨m.weights.count,fun k =>
      let row := k / (m.hiddenSize * 4)
      let col := moved m π (k % (m.hiddenSize * 4))
      if row < m.inputSize then m.weights.content (row * (m.hiddenSize * 4) + col)
      else m.weights.content (m.inputSize * (m.hiddenSize * 4) +
        π ⟨(row - m.inputSize) % m.hiddenSize,Nat.mod_lt _ m.hidden_positive⟩ * (m.hiddenSize * 4) + col)⟩
    biases := ⟨m.biases.count,fun k => m.biases.content (moved m π k)⟩ }

end Labels

/-- In every step of a prediction what becomes of a unit depends on the row, the hidden vector before and its own cell
    value; the steps are those that update all units from the vectors before; and other labels of the units only
    permute them and what is written to `out`. -/
structure Simultaneous (sigmoidfApprox tanhf : ℚ → ℚ) (m : LstmModel) (input : Block) (len : Nat) : Prop where
  own : ∀ t < len,∀ (i : Fin m.hiddenSize) (before before' after after' : Fin m.hiddenSize → Cell),
    loop (unit sigmoidfApprox tanhf m input t) before = some after →
      loop (unit sigmoidfApprox tanhf m input t) before' = some after' →
        (∀ j,(before j).h = (before' j).h) → (before i).c = (before' i).c → after i = after' i
  updated : ∀ t ≤ len,steps sigmoidfApprox tanhf m input t = some (recurrence sigmoidfApprox tanhf m input t)
  relabelled : ∀ (π : Equiv.Perm (Fin m.hiddenSize)),∀ t ≤ len,
    steps sigmoidfApprox tanhf (relabel m π) input t = some (recurrence sigmoidfApprox tanhf m input t ∘ π)
  output : ∀ (out : Block) (outlen : Nat),outlen ≠ 0 →
    lstmPredict sigmoidfApprox tanhf true true (some m) (some input) len (some out) outlen =
      (written (recurrence sigmoidfApprox tanhf m input len) outlen out).map fun out => (0,some out)
  output_relabelled : ∀ (π : Equiv.Perm (Fin m.hiddenSize)) (out : Block) (outlen : Nat),outlen ≠ 0 →
    lstmPredict sigmoidfApprox tanhf true true (some (relabel m π)) (some input) len (some out) outlen =
      (written (recurrence sigmoidfApprox tanhf m input len ∘ π) outlen out).map fun out => (0,some out)

section Relabelling
variable {m : LstmModel} {sigmoidfApprox tanhf : ℚ → ℚ} {input : Block}

theorem moved_column (π : Equiv.Perm (Fin m.hiddenSize)) (k : Fin 4) (i : Fin m.hiddenSize) :
    moved m π (column m k i) = column m k (π i) := by
  have block : (k * m.hiddenSize + i) / m.hiddenSize = k := by
    rw [Nat.add_comm,Nat.add_mul_div_right _ _ m.hidden_positive,Nat.div_eq_of_lt i.isLt,Nat.zero_add]
  have unit_index : (k * m.hiddenSize + i) % m.hiddenSize = i := Nat.mul_add_mod_of_lt i.isLt
  simp only [moved,column,block,unit_index]

theorem column_lt (k : Fin 4) (i : Fin m.hiddenSize) : column m k i < m.hiddenSize * 4 := by
  have block : k * m.hiddenSize ≤ 3 * m.hiddenSize := Nat.mul_le_mul_right _ (by omega)
  have := i.isLt
  rw [column]
  omega

/-- A weight of an input in the row and the column of the other label. -/
theorem inputWeight_relabel (π : Equiv.Perm (Fin m.hiddenSize)) (j : Fin m.inputSize) (k : Fin 4) (i : Fin m.hiddenSize) :
    inputWeight (relabel m π) j k i = inputWeight m j k (π i) := by
  have inside := column_lt k i
  have at_row : (j * (m.hiddenSize * 4) + column m k i) / (m.hiddenSize * 4) = j := by
    rw [Nat.add_comm,Nat.add_mul_div_right _ _ (by omega),Nat.div_eq_of_lt inside,Nat.zero_add]
  have at_column : (j * (m.hiddenSize * 4) + column m k i) % (m.hiddenSize * 4) = column m k i := Nat.mul_add_mod_of_lt inside
  show (relabel m π).weights.content (j * (m.hiddenSize * 4) + column m k i) = _
  simp only [at_row,at_column,if_pos j.isLt,moved_column]
  rfl

theorem hiddenWeight_relabel (π : Equiv.Perm (Fin m.hiddenSize)) (j : Fin m.hiddenSize) (k : Fin 4) (i : Fin m.hiddenSize) :
    hiddenWeight (relabel m π) j k i = hiddenWeight m (π j) k (π i) := by
  have inside := column_lt k i
  have at_row : (m.inputSize * (m.hiddenSize * 4) + j * (m.hiddenSize * 4) + column m k i) / (m.hiddenSize * 4) = m.inputSize + j := by
    rw [← Nat.add_mul,Nat.add_comm,Nat.add_mul_div_right _ _ (by omega),Nat.div_eq_of_lt inside,Nat.zero_add]
  have at_column : (m.inputSize * (m.hiddenSize * 4) + j * (m.hiddenSize * 4) + column m k i) % (m.hiddenSize * 4) = column m k i := by
    rw [← Nat.add_mul]
    exact Nat.mul_add_mod_of_lt inside
  have behind : ¬ m.inputSize + j < m.inputSize := by omega
  have unit_row : (m.inputSize + j - m.inputSize) % m.hiddenSize = j := by
    rw [Nat.add_sub_cancel_left,Nat.mod_eq_of_lt j.isLt]
  show (relabel m π).weights.content (m.inputSize * (m.hiddenSize * 4) + j * (m.hiddenSize * 4) + column m k i) = _
  simp only [at_row,at_column,if_neg behind,unit_row,moved_column]
  rfl

theorem relabel_allocated (allocated : Allocated m) (π : Equiv.Perm (Fin m.hiddenSize)) : Allocated (relabel m π) :=
  ⟨allocated.weights,allocated.biases⟩

/-- The update of all units does not depend on their labels. -/
theorem next_relabel (few : m.hiddenSize ≤ 2 ^ 29) (π : Equiv.Perm (Fin m.hiddenSize)) (x : Fin m.inputSize → ℚ)
    (s : Fin m.hiddenSize → Cell) :
    next sigmoidfApprox tanhf (relabel m π) x (s ∘ π) = next sigmoidfApprox tanhf m x s ∘ π := by
  funext i
  have same : gateSum (relabel m π) x (fun j => (s (π j)).h) i = gateSum m x (fun j => (s j).h) (π i) := by
    rw [gateSum_eq few,@gateSum_eq (relabel m π) few]
    simp only [inputWeight_relabel,hiddenWeight_relabel]
    congr 1
    exact Equiv.sum_comp π fun j => (s j).h * hiddenWeight m j 0 (π i)
  show (Gates.shared (gateSum (relabel m π) x (fun j => (s (π j)).h) i)).cell sigmoidfApprox tanhf (s (π i)).c = _
  rw [same]
  rfl

theorem recurrence_relabel (few : m.hiddenSize ≤ 2 ^ 29) (π : Equiv.Perm (Fin m.hiddenSize)) (t : Nat) :
    recurrence sigmoidfApprox tanhf (relabel m π) input t = recurrence sigmoidfApprox tanhf m input t ∘ π := by
  induction t with
  | zero => rfl
  | succ t ih =>
    rw [recurrence,ih]
    exact next_relabel few π (row m input t) _

/-! ### Units one after the other -/

/-- The units of a step may be updated one after the other if no unit has a weight from an earlier one. -/
theorem loop_next (allocated : Allocated m) (few : m.hiddenSize ≤ 2 ^ 29)
    (later : ∀ i j : Fin m.hiddenSize,j < i → hiddenWeight m j 0 i = 0) {t : Nat} (present : (t + 1) * m.inputSize ≤ input.count)
    (s : Fin m.hiddenSize → Cell) :
    loop (unit sigmoidfApprox tanhf m input t) s = some (next sigmoidfApprox tanhf m (row m input t) s) := by
  rw [loop_sweep fun i s => unit_eq (inside_of_allocated allocated few i) present s]
  congr 1
  apply sweep_eq
  intro new old i
  have same : gateSum m (row m input t) (fun j => (seen new old i j).h) i = gateSum m (row m input t) (fun j => (old j).h) i := by
    rw [gateSum_eq few,gateSum_eq few]
    congr 1
    apply Finset.sum_congr rfl
    intro j _
    by_cases before : j < i
    · rw [later i j before,mul_zero,mul_zero]
    · rw [seen,if_neg before]
  rw [next,next,same,seen,if_neg (lt_irrefl i)]

theorem steps_recurrence (allocated : Allocated m) (few : m.hiddenSize ≤ 2 ^ 29)
    (later : ∀ i j : Fin m.hiddenSize,j < i → hiddenWeight m j 0 i = 0) {t : Nat} (enough : t * m.inputSize ≤ input.count) :
    steps sigmoidfApprox tanhf m input t = some (recurrence sigmoidfApprox tanhf m input t) := by
  induction t with
  | zero => rfl
  | succ t ih =>
    have before : t * m.inputSize ≤ input.count := Nat.le_trans (Nat.mul_le_mul_right _ (Nat.le_succ t)) enough
    rw [steps,ih before,Option.bind_some,loop_next allocated few later enough,recurrence]

/-- What becomes of a unit depends on the row, the hidden vector and its own cell value only. -/
theorem next_congr {x : Fin m.inputSize → ℚ} {s s' : Fin m.hiddenSize → Cell} {i : Fin m.hiddenSize}
    (same_hidden : ∀ j,(s j).h = (s' j).h) (same_cell : (s i).c = (s' i).c) :
    next sigmoidfApprox tanhf m x s i = next sigmoidfApprox tanhf m x s' i := by
  rw [next,next,same_cell]
  simp only [same_hidden]

theorem later_of_apart (apart : Apart m) (i j : Fin m.hiddenSize) (before : j < i) : hiddenWeight m j 0 i = 0 :=
  apart i j (ne_of_lt before)

theorem relabel_apart (apart : Apart m) (π : Equiv.Perm (Fin m.hiddenSize)) : Apart (relabel m π) := by
  intro i j other
  rw [hiddenWeight_relabel]
  exact apart _ _ fun same => other (π.injective same)

/-- A permutation can put any two units first. -/
theorem first_two {n : Nat} {first second j i : Fin n} (apart : first ≠ second) (other : j ≠ i) :
    ∃ π : Equiv.Perm (Fin n),π first = j ∧ π second = i := by
  have elsewhere : Equiv.swap first j second ≠ j := by
    intro same
    exact apart ((Equiv.swap first j).injective ((Equiv.swap_apply_left first j).trans same.symm))
  refine ⟨(Equiv.swap first j).trans (Equiv.swap (Equiv.swap first j second) i),?_,?_⟩
  · rw [Equiv.trans_apply,Equiv.swap_apply_left,Equiv.swap_apply_of_ne_of_ne elsewhere.symm other]
  · rw [Equiv.trans_apply,Equiv.swap_apply_left]

/-- What the second unit sums up in the first step: a hidden value of the same step is in it. -/
theorem second_sum (few : m.hiddenSize ≤ 2 ^ 29) (x : Fin m.inputSize → ℚ) (new : Fin m.hiddenSize → Cell)
    {first second : Fin m.hiddenSize} (at_first : (first : Nat) = 0) (at_second : (second : Nat) = 1) :
    gateSum m x (fun j => (seen new (fun _ => ⟨0,0⟩) second j).h) second =
      gateSum m x (fun _ => 0) second + (new first).h * hiddenWeight m first 0 second := by
  have earlier : ∀ j : Fin m.hiddenSize,j ≠ first → (seen new (fun _ => ⟨0,0⟩) second j).h = 0 := by
    intro j other
    have behind : ¬ j < second := by
      intro before
      exact other (Fin.ext (by omega))
    rw [seen,if_neg behind]
  have only_first : (seen new (fun _ => (⟨0,0⟩ : Cell)) second first).h = (new first).h := by
    rw [seen,if_pos (Fin.lt_def.mpr (by omega))]
  rw [gateSum_eq few,gateSum_eq few,Finset.sum_eq_single first]
  · rw [only_first]
    simp
  · intro j _ other
    rw [earlier j other,zero_mul]
  · intro absent
    exact absurd (Finset.mem_univ first) absent

/-- The first step tells whether the second unit has a weight from the first. -/
theorem no_weight (few : m.hiddenSize ≤ 2 ^ 29) (x : Fin m.inputSize → ℚ)
    (same : ∀ sigmoidfApprox tanhf : ℚ → ℚ,
      sweep (next sigmoidfApprox tanhf m x) (fun _ => ⟨0,0⟩) = next sigmoidfApprox tanhf m x fun _ => ⟨0,0⟩)
    {first second : Fin m.hiddenSize} (at_first : (first : Nat) = 0) (at_second : (second : Nat) = 1) :
    hiddenWeight m first 0 second = 0 := by
  -- With these functions the hidden value of the first unit is 1, and different sums give different cell values.
  let shift := (1 - gateSum m x (fun _ => 0) first) / 2
  have cell : ∀ s i,(next (fun _ => 1) (· + shift) m x s i).c = (s i).c + (gateSum m x (fun j => (s j).h) i + shift) := by
    intro s i
    simp only [next,Gates.shared,Gates.cell,one_mul]
  have value : (next (fun _ => 1) (· + shift) m x (fun _ => ⟨0,0⟩) first).h = 1 := by
    simp only [next,Gates.shared,Gates.cell,shift]
    ring
  have together := same (fun _ => 1) (· + shift)
  have at_unit := congrArg Cell.c (congrFun together second)
  rw [sweep_apply,together,cell,cell,second_sum few x _ at_first at_second,value,one_mul,seen,if_neg (lt_irrefl second)] at at_unit
  dsimp only at at_unit
  linarith only [at_unit]

end Relabelling

section Order
variable {m : LstmModel} {input : Block} {len : Nat}

theorem simultaneous_of (allocated : Allocated m) (enough : len * m.inputSize ≤ input.count)
    (free : len ≠ 0 → m.hiddenSize ≤ 2 ^ 29 ∧ Apart m) (sigmoidfApprox tanhf : ℚ → ℚ) : Simultaneous sigmoidfApprox tanhf m input len := by
  have updated : ∀ t ≤ len,steps sigmoidfApprox tanhf m input t = some (recurrence sigmoidfApprox tanhf m input t) := by
    intro t upTo
    cases t with
    | zero => rfl
    | succ t =>
      obtain ⟨few,apart⟩ := free (by omega)
      exact steps_recurrence allocated few (later_of_apart apart) ((Nat.mul_le_mul_right _ upTo).trans enough)
  have relabelled : ∀ (π : Equiv.Perm (Fin m.hiddenSize)),∀ t ≤ len,
      steps sigmoidfApprox tanhf (relabel m π) input t = some (recurrence sigmoidfApprox tanhf m input t ∘ π) := by
    intro π t upTo
    cases t with
    | zero => rfl
    | succ t =>
      obtain ⟨few,apart⟩ := free (by omega)
      rw [← recurrence_relabel few π]
      exact steps_recurrence (relabel_allocated allocated π) few (later_of_apart (relabel_apart apart π))
        ((Nat.mul_le_mul_right _ upTo).trans enough)
  refine ⟨?_,updated,relabelled,?_,?_⟩
  · intro t inside i before before' after after' done done' same_hidden same_cell
    obtain ⟨few,apart⟩ := free (by omega)
    have present : (t + 1) * m.inputSize ≤ input.count := (Nat.mul_le_mul_right _ inside).trans enough
    rw [loop_next allocated few (later_of_apart apart) present] at done done'
    rw [← Option.some.inj done,← Option.some.inj done']
    exact next_congr same_hidden same_cell
  · intro out outlen some_out
    rw [lstmPredict_eq some_out,updated len (Nat.le_refl len),Option.bind_some]
  · intro π out outlen some_out
    rw [lstmPredict_eq some_out,relabelled π len (Nat.le_refl len),Option.bind_some]

/-- **The units of every step are updated from the vectors of the step before, whatever their labels, exactly if**,
    where there is a step at all, the hidden layer has at most `2 ^ 29` units and none has a weight from another
    in the columns of the input gate. -/
theorem units_simultaneous (allocated : Allocated m) (enough : len * m.inputSize ≤ input.count) :
    (∀ sigmoidfApprox tanhf,Simultaneous sigmoidfApprox tanhf m input len) ↔ (len ≠ 0 → m.hiddenSize ≤ 2 ^ 29 ∧ Apart m) := by
  constructor
  · intro simultaneous some_step
    have one : 1 ≤ len := Nat.one_le_iff_ne_zero.mpr some_step
    have present : 1 * m.inputSize ≤ input.count := (Nat.mul_le_mul_right _ one).trans enough
    have few : m.hiddenSize ≤ 2 ^ 29 :=
      few_of_inside (inside_of_steps (Option.isSome_of_eq_some ((simultaneous id id).updated 1 one)))
    refine ⟨few,?_⟩
    intro i j other
    have two : 1 < m.hiddenSize := by
      have := i.isLt
      have := j.isLt
      have := Fin.val_ne_of_ne other
      omega
    -- With unit `j` first and unit `i` second, the first step shows the weight.
    obtain ⟨π,first,second⟩ := first_two (show (⟨0,m.hidden_positive⟩ : Fin m.hiddenSize) ≠ ⟨1,two⟩ by simp) other
    have none_between := @no_weight (relabel m π) few (row m input 0) ?_ ⟨0,m.hidden_positive⟩ ⟨1,two⟩ rfl rfl
    · rwa [hiddenWeight_relabel,first,second] at none_between
    · intro sigmoidfApprox tanhf
      have computed := (simultaneous sigmoidfApprox tanhf).relabelled π 1 one
      rw [← recurrence_relabel few,steps_eq (inside_of_allocated (relabel_allocated allocated π) few) present] at computed
      exact Option.some.inj computed
  · intro free sigmoidfApprox tanhf
    exact simultaneous_of allocated enough free sigmoidfApprox tanhf

/-- Two inputs and two units, each with a weight from itself alone. -/
def pairModel : LstmModel :=
  ⟨2,2,⟨32,fun k => if k < 16 ∨ k = 16 ∨ k = 25 then 1 else 0⟩,⟨8,fun _ => 0⟩,by decide,by decide,by decide,by decide⟩

theorem pairModel_apart : Apart pairModel := by
  intro i j other
  have i_small : (i : Nat) < 2 := i.isLt
  have j_small : (j : Nat) < 2 := j.isLt
  have apart : (j : Nat) ≠ i := Fin.val_ne_of_ne other
  have index : (j : Nat) = 0 ∧ (i : Nat) = 1 ∨ (j : Nat) = 1 ∧ (i : Nat) = 0 := by omega
  rcases index with ⟨first,second⟩ | ⟨second,first⟩ <;> simp [hiddenWeight,column,pairModel,first,second]

theorem units_simultaneous_pair : pairModel.hiddenSize = 2 ∧
    ∀ sigmoidfApprox tanhf,Simultaneous sigmoidfApprox tanhf pairModel ⟨6,fun _ => 1⟩ 3 :=
  ⟨rfl,(units_simultaneous ⟨rfl,rfl⟩ (by decide)).mpr fun _ => ⟨by decide,pairModel_apart⟩⟩

end Order

/-- In a model that `lstm_init_model` makes the second unit reads what the first has become. -/
theorem second_mixed :
    ¬ ∀ (calloc : Nat → Nat → Bool) (inputSize hiddenSize : Int32) (m : LstmModel),
      lstmInitModel calloc true inputSize hiddenSize = some m →
        ∀ (sigmoidfApprox tanhf : ℚ → ℚ) (input : Block) (len : Nat),len * m.inputSize ≤ input.count →
          Simultaneous sigmoidfApprox tanhf m input len := by
  intro always
  have different : ∃ (m : LstmModel) (two : 1 < m.hiddenSize),lstmInitModel (fun _ _ => true) true 1 2 = some m ∧ m.inputSize = 1 ∧
      (steps id id m ⟨1,fun _ => 1⟩ 1).map (fun s => (s ⟨1,two⟩).c) ≠
        (some (recurrence id id m ⟨1,fun _ => 1⟩ 1)).map fun s => (s ⟨1,two⟩).c :=
    ⟨_,Nat.one_lt_two,rfl,rfl,by decide +kernel⟩
  obtain ⟨m,two,ready,one,mixed⟩ := different
  have same := (always _ 1 2 m ready id id ⟨1,fun _ => 1⟩ 1 (by rw [one])).updated 1 (Nat.le_refl 1)
  exact mixed (congrArg _ same)

end Nulleye.LstmUnits
