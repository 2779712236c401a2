import Mathlib.Algebra.BigOperators.Ring.Finset
import Mathlib.Tactic.FinCases
import Mathlib.Tactic.Ring
import Nulleye.LstmPredictor

/-!
The parameters of the gates. The model has columns and a bias for each of the four gates
of a unit, but a prediction reads the columns of the input gate for all of them and takes
the biases times zero. A gate gets the sum of its own parameters exactly where its bias and
the differences between its columns and those of the input gate cancel.
-/
namespace Nulleye.LstmGates
open Nulleye.LstmPredictor Nulleye.Sweeps

/-- The gates in the order input, forget, output, candidate. -/
def gate (g : Gates) : Fin 4 → ℚ
  | 0 => g.ig
  | 1 => g.fg
  | 2 => g.og
  | 3 => g.gg

section Parameters
variable (m : LstmModel)

/-- The column of a gate of a unit. -/
def column (k : Fin 4) (i : Fin m.hiddenSize) : Nat := k * m.hiddenSize + i

def bias (k : Fin 4) (i : Fin m.hiddenSize) : ℚ := m.biases.content (column m k i)

/-- The weight of an input, in a row of four columns for each unit. -/
def inputWeight (j : Fin m.inputSize) (k : Fin 4) (i : Fin m.hiddenSize) : ℚ :=
  m.weights.content (j * (m.hiddenSize * 4) + column m k i)

/-- The weight of a hidden value, in the rows behind those of the inputs. -/
def hiddenWeight (j : Fin m.hiddenSize) (k : Fin 4) (i : Fin m.hiddenSize) : ℚ :=
  m.weights.content (m.inputSize * (m.hiddenSize * 4) + j * (m.hiddenSize * 4) + column m k i)

/-- What a gate with its own parameters sums up. -/
def ownSum (x : Fin m.inputSize → ℚ) (h : Fin m.hiddenSize → ℚ) (k : Fin 4) (i : Fin m.hiddenSize) : ℚ :=
  bias m k i + ∑ j,x j * inputWeight m j k i + ∑ j,h j * hiddenWeight m j k i

/-- What the parameters of a gate add to those of the input gate's columns. -/
def excess (x : Fin m.inputSize → ℚ) (h : Fin m.hiddenSize → ℚ) (k : Fin 4) (i : Fin m.hiddenSize) : ℚ :=
  bias m k i + ∑ j,x j * (inputWeight m j k i - inputWeight m j 0 i) + ∑ j,h j * (hiddenWeight m j k i - hiddenWeight m j 0 i)

/-- The biases are zero and the gates have the columns of the input gate. -/
def Shared : Prop := ∀ k i,bias m k i = 0 ∧ (∀ j,inputWeight m j k i = inputWeight m j 0 i) ∧
  ∀ j,hiddenWeight m j k i = hiddenWeight m j 0 i

/-- No unit has a weight from another one in the columns of the input gate. -/
def Apart : Prop := ∀ i j : Fin m.hiddenSize,j ≠ i → hiddenWeight m j 0 i = 0

end Parameters

/-- The hidden values of the units. -/
def hidden {hs : Nat} (s : Fin hs → Cell) (j : Fin hs) : ℚ := (s j).h

/-- The units when unit `i` is computed in step `t`. -/
def reached (sigmoidfApprox tanhf : ℚ → ℚ) (m : LstmModel) (input : Block) (t : Nat) (i : Fin m.hiddenSize) :
    Option (Fin m.hiddenSize → Cell) :=
  (steps sigmoidfApprox tanhf m input t).bind
    (turns (unit sigmoidfApprox tanhf m input t) i (Nat.le_of_lt i.isLt))

/-- In every step of a prediction each gate of each unit gets the sum of its own parameters. -/
def OwnGates (sigmoidfApprox tanhf : ℚ → ℚ) (m : LstmModel) (input : Block) (len : Nat) : Prop :=
  ∀ t < len,∀ i,∃ s g,reached sigmoidfApprox tanhf m input t i = some s ∧ gates m input t i s = some g ∧
    ∀ k,gate g k = ownSum m (row m input t) (hidden s) k i

/-! ### Sums -/

@[simp] theorem gate_shared (sum : ℚ) (k : Fin 4) : gate (.shared sum) k = sum := by
  fin_cases k <;> rfl

variable {m : LstmModel} {sigmoidfApprox tanhf : ℚ → ℚ} {input : Block}

theorem sizeT_eq {n count : Nat} (below : n < count) (fit : count < 2 ^ 64) : sizeT n = n := Nat.mod_eq_of_lt (by omega)

/-- All gates sum up the columns of the input gate. -/
theorem gateSum_eq (few : m.hiddenSize ≤ 2 ^ 29) (x : Fin m.inputSize → ℚ) (h : Fin m.hiddenSize → ℚ) (i : Fin m.hiddenSize) :
    gateSum m x h i = ∑ j,x j * inputWeight m j 0 i + ∑ j,h j * hiddenWeight m j 0 i := by
  have fit := weights_fit m.input_int few
  have inputs : ∀ j : Fin m.inputSize,m.weights.content (sizeT (j * m.hiddenSize * 4 + i)) = inputWeight m j 0 i := by
    intro j
    have inside := index_lt j.isLt i.isLt
    rw [sizeT_eq inside (by omega),inputWeight,column,Nat.mul_assoc]
    simp
  have units : ∀ j : Fin m.hiddenSize,m.weights.content (sizeT (m.inputSize * m.hiddenSize * 4 + j * m.hiddenSize * 4 + i)) =
      hiddenWeight m j 0 i := by
    intro j
    have inside := index_lt j.isLt i.isLt
    rw [sizeT_eq (show _ < m.inputSize * m.hiddenSize * 4 + m.hiddenSize * m.hiddenSize * 4 by omega) fit,hiddenWeight,column,
      Nat.mul_assoc,Nat.mul_assoc]
    simp
  simp only [gateSum,inputs,units]

theorem ownSum_eq (x : Fin m.inputSize → ℚ) (h : Fin m.hiddenSize → ℚ) (k : Fin 4) (i : Fin m.hiddenSize) :
    ownSum m x h k i = ∑ j,x j * inputWeight m j 0 i + ∑ j,h j * hiddenWeight m j 0 i + excess m x h k i := by
  simp only [ownSum,excess,mul_sub,Finset.sum_sub_distrib]
  ring

/-- A gate gets the sum of its own parameters if they add nothing. -/
theorem gate_own (few : m.hiddenSize ≤ 2 ^ 29) (x : Fin m.inputSize → ℚ) (h : Fin m.hiddenSize → ℚ) (k : Fin 4)
    (i : Fin m.hiddenSize) : gate (.shared (gateSum m x h i)) k = ownSum m x h k i ↔ excess m x h k i = 0 := by
  rw [gate_shared,gateSum_eq few,ownSum_eq,left_eq_add]

/-- The parameters of a gate add nothing to any sum exactly if they are those of the input gate's columns. -/
theorem excess_zero (k : Fin 4) (i : Fin m.hiddenSize) : (∀ x h,excess m x h k i = 0) ↔
    bias m k i = 0 ∧ (∀ j,inputWeight m j k i = inputWeight m j 0 i) ∧ ∀ j,hiddenWeight m j k i = hiddenWeight m j 0 i := by
  constructor
  · intro nothing
    have no_bias : bias m k i = 0 := by simpa [excess] using nothing 0 0
    refine ⟨no_bias,?_,?_⟩
    · intro j
      have one := nothing (Pi.single j 1) 0
      simpa [excess,no_bias,Pi.single_apply,sub_eq_zero] using one
    · intro j
      have one := nothing 0 (Pi.single j 1)
      simpa [excess,no_bias,Pi.single_apply,sub_eq_zero] using one
  · rintro ⟨no_bias,inputs,units⟩ x h
    simp [excess,no_bias,inputs,units]

/-! ### Steps -/

theorem reached_eq {t : Nat} (inside : Inside m) (present : (t + 1) * m.inputSize ≤ input.count) (i : Fin m.hiddenSize) :
    reached sigmoidfApprox tanhf m input t i =
      some (sweepTo (next sigmoidfApprox tanhf m (row m input t)) i (Nat.le_of_lt i.isLt) (run sigmoidfApprox tanhf m input t)) := by
  have before : t * m.inputSize ≤ input.count := Nat.le_trans (Nat.mul_le_mul_right _ (Nat.le_succ t)) present
  rw [reached,steps_eq inside before,Option.bind_some,turns_sweepTo fun i s => unit_eq (inside i) present s]

/-- What is right in a run is what the parameters of the gates add in it. -/
theorem ownGates_iff (allocated : Allocated m) {len : Nat} (enough : len * m.inputSize ≤ input.count) :
    OwnGates sigmoidfApprox tanhf m input len ↔ (len ≠ 0 → m.hiddenSize ≤ 2 ^ 29) ∧
      ∀ t < len,∀ i s,reached sigmoidfApprox tanhf m input t i = some s →
        ∀ k,excess m (row m input t) (hidden s) k i = 0 := by
  have present : ∀ t < len,(t + 1) * m.inputSize ≤ input.count := fun t before =>
    Nat.le_trans (Nat.mul_le_mul_right _ before) enough
  constructor
  · intro own
    have few : len ≠ 0 → m.hiddenSize ≤ 2 ^ 29 := by
      intro some_step
      apply few_of_inside
      intro i
      obtain ⟨s,g,_,computed,_⟩ := own 0 (Nat.pos_of_ne_zero some_step) i
      exact gates_inside (Option.isSome_of_eq_some computed)
    refine ⟨few,?_⟩
    intro t before i s here k
    have few := few (by omega)
    obtain ⟨s',g,here',computed,right⟩ := own t before i
    obtain rfl : s = s' := Option.some.inj (here.symm.trans here')
    rw [gates_eq (inside_of_allocated allocated few i) (present t before)] at computed
    obtain rfl := Option.some.inj computed
    exact (gate_own few _ _ k i).mp (right k)
  · rintro ⟨few,nothing⟩ t before i
    have few := few (by omega)
    have inside := inside_of_allocated allocated few
    have here := @reached_eq m sigmoidfApprox tanhf input t inside (present t before) i
    refine ⟨_,_,here,gates_eq (inside i) (present t before) _,?_⟩
    intro k
    exact (gate_own few _ _ k i).mpr (nothing t before i _ here k)

/-- What is right from any hidden vector on depends on the parameters alone. -/
theorem gates_own_iff (allocated : Allocated m) :
    (∀ (input : Block) (t : Nat) (i : Fin m.hiddenSize) (s : Fin m.hiddenSize → Cell),(t + 1) * m.inputSize ≤ input.count →
      ∃ g,gates m input t i s = some g ∧ ∀ k,gate g k = ownSum m (row m input t) (hidden s) k i) ↔
      m.hiddenSize ≤ 2 ^ 29 ∧ Shared m := by
  constructor
  · intro own
    have few : m.hiddenSize ≤ 2 ^ 29 := by
      apply few_of_inside
      intro i
      obtain ⟨g,computed,_⟩ := own ⟨m.inputSize,fun _ => 0⟩ 0 i (fun _ => ⟨0,0⟩) (by simp)
      exact gates_inside (Option.isSome_of_eq_some computed)
    refine ⟨few,?_⟩
    intro k i
    apply (excess_zero k i).mp
    intro x h
    let input : Block := ⟨m.inputSize,fun j => if inside : j < m.inputSize then x ⟨j,inside⟩ else 0⟩
    have read : row m input 0 = x := by
      funext j
      simp [row,input]
    obtain ⟨g,computed,right⟩ := own input 0 i (fun j => ⟨h j,0⟩) (by simp [input])
    rw [gates_eq (inside_of_allocated allocated few i) (by simp [input])] at computed
    obtain rfl := Option.some.inj computed
    have nothing := (gate_own few _ _ k i).mp (right k)
    rwa [read] at nothing
  · rintro ⟨few,shared⟩ input t i s present
    refine ⟨_,gates_eq (inside_of_allocated allocated few i) present s,?_⟩
    intro k
    exact (gate_own few _ _ k i).mpr ((excess_zero k i).mpr (shared k i) _ _)

/-- **In a prediction every gate gets the sum of its own parameters exactly if**, at each step and unit, what they add
    to the input gate's columns is zero for the row and the hidden vector there; and from every row and hidden
    vector on exactly if the biases are zero and the gates have the columns of the input gate. -/
theorem gates_own (allocated : Allocated m) :
    (∀ (sigmoidfApprox tanhf : ℚ → ℚ) (input : Block) (len : Nat),len * m.inputSize ≤ input.count →
      (OwnGates sigmoidfApprox tanhf m input len ↔ (len ≠ 0 → m.hiddenSize ≤ 2 ^ 29) ∧
        ∀ t < len,∀ i s,reached sigmoidfApprox tanhf m input t i = some s →
          ∀ k,excess m (row m input t) (hidden s) k i = 0)) ∧
    ((∀ (input : Block) (t : Nat) (i : Fin m.hiddenSize) (s : Fin m.hiddenSize → Cell),(t + 1) * m.inputSize ≤ input.count →
      ∃ g,gates m input t i s = some g ∧ ∀ k,gate g k = ownSum m (row m input t) (hidden s) k i) ↔
      m.hiddenSize ≤ 2 ^ 29 ∧ Shared m) :=
  ⟨fun _ _ _ _ enough => ownGates_iff allocated enough,gates_own_iff allocated⟩

/-- One input and one unit, with biases of zero. -/
def unitModel (weights : Nat → ℚ) : LstmModel :=
  ⟨1,1,⟨8,weights⟩,⟨4,fun _ => 0⟩,by decide,by decide,by decide,by decide⟩

theorem unitModel_allocated (weights : Nat → ℚ) : Allocated (unitModel weights) := ⟨rfl,rfl⟩

theorem unitModel_excess (weights : Nat → ℚ) (x h : ℚ) (k : Fin 4) (i : Fin (unitModel weights).hiddenSize) :
    excess (unitModel weights) (fun _ => x) (fun _ => h) k i = x * (weights k - weights 0) + h * (weights (4 + k) - weights 4) := by
  have only_unit : (i : Nat) = 0 := Nat.lt_one_iff.mp i.isLt
  have inputs : ∀ (j : Fin (unitModel weights).inputSize) (k : Fin 4),inputWeight (unitModel weights) j k i = weights k := by
    intro j k
    have only_input : (j : Nat) = 0 := Nat.lt_one_iff.mp j.isLt
    rw [inputWeight,column,only_unit,only_input]
    simp [unitModel]
  have units : ∀ (j : Fin (unitModel weights).hiddenSize) (k : Fin 4),hiddenWeight (unitModel weights) j k i = weights (4 + k) := by
    intro j k
    have only_row : (j : Nat) = 0 := Nat.lt_one_iff.mp j.isLt
    rw [hiddenWeight,column,only_unit,only_row]
    simp [unitModel]
  have unbiased : bias (unitModel weights) k i = 0 := rfl
  have one_input : (unitModel weights).inputSize = 1 := rfl
  have one_unit : (unitModel weights).hiddenSize = 1 := rfl
  simp only [excess,unbiased,inputs,units,Finset.sum_const,Finset.card_univ,Fintype.card_fin]
  rw [one_input,one_unit]
  simp

theorem gates_own_constant : OwnGates id id (unitModel fun _ => 1) ⟨1,fun _ => 1⟩ 1 := by
  refine ((gates_own (unitModel_allocated fun _ => 1)).1 id id ⟨1,fun _ => 1⟩ 1 (by decide)).mpr ⟨fun _ => by decide,?_⟩
  intro t before i s here k
  simp [excess,bias,inputWeight,hiddenWeight,unitModel]

/-- The forget gate of a model that `lstm_init_model` makes sums up a weight of the input gate. -/
theorem weights_mixed :
    ¬ ∀ (calloc : Nat → Nat → Bool) (inputSize hiddenSize : Int32) (m : LstmModel),
      lstmInitModel calloc true inputSize hiddenSize = some m →
        ∀ (sigmoidfApprox tanhf : ℚ → ℚ) (input : Block) (len : Nat),len * m.inputSize ≤ input.count →
          OwnGates sigmoidfApprox tanhf m input len := by
  intro always
  have ready : lstmInitModel (fun _ _ => true) true 1 1 = some (unitModel fun i => (sizeT (i * 13 + 7) % 97 : Nat) / 97 * (1 / 10)) :=
    rfl
  have own := always _ 1 1 _ ready id id ⟨1,fun _ => 1⟩ 1 (by decide)
  have nothing := ((ownGates_iff (unitModel_allocated _) (by decide)).mp own).2 0 (by decide) ⟨0,Nat.one_pos⟩ _ rfl 1
  have forget := unitModel_excess (fun i => (sizeT (i * 13 + 7) % 97 : Nat) / 97 * (1 / 10)) 1 0 1 ⟨0,Nat.one_pos⟩
  norm_num [sizeT] at forget
  exact absurd (forget.symm.trans nothing) (by norm_num)

end Nulleye.LstmGates
