import Mathlib.Algebra.Order.BigOperators.Ring.Finset
import Mathlib.Tactic.Linarith
import Mathlib.Tactic.NormNum
import Nulleye.LstmPredictor

/-!
What predictions can be, over exact arithmetic. The outputs lie between -1 and 1, and the
cell values stay within one bound for sequences of every length. With the weights that
`lstm_init_model` gives, a prediction never falls when the inputs rise.
-/
namespace Nulleye.LstmBounds
open Nulleye.LstmPredictor Nulleye.Sweeps

/-- What the sigmoid and the hyperbolic tangent have in common with all increasing functions into their ranges. -/
structure Activations (sigmoidfApprox tanhf : ℚ → ℚ) : Prop where
  sigmoid_low : ∀ x,0 ≤ sigmoidfApprox x
  sigmoid_high : ∀ x,sigmoidfApprox x ≤ 1
  sigmoid_mono : Monotone sigmoidfApprox
  tanh_range : ∀ x,|tanhf x| ≤ 1
  tanh_mono : Monotone tanhf
  tanh_zero : tanhf 0 = 0

section Runs
variable {sigmoidfApprox tanhf : ℚ → ℚ} {m : LstmModel} {input : Block}

/-- Gates that are computed have read their whole row of the input. -/
theorem present_of_gates {t : Nat} {i : Fin m.hiddenSize} {s : Fin m.hiddenSize → Cell} (computed : (gates m input t i s).isSome) :
    (t + 1) * m.inputSize ≤ input.count := by
  obtain ⟨g,computed⟩ := Option.isSome_iff_exists.mp computed
  obtain ⟨ig,_,computed⟩ := Option.bind_eq_some_iff.mp computed
  obtain ⟨fg,_,computed⟩ := Option.bind_eq_some_iff.mp computed
  obtain ⟨og,_,computed⟩ := Option.bind_eq_some_iff.mp computed
  obtain ⟨gg,_,computed⟩ := Option.bind_eq_some_iff.mp computed
  obtain ⟨wx,wx_read,_⟩ := Option.bind_eq_some_iff.mp computed
  have positive := m.input_positive
  have last := addUp_isSome.mp (Option.isSome_of_eq_some wx_read) ⟨m.inputSize - 1,by omega⟩
  obtain ⟨_,last⟩ := Option.isSome_iff_exists.mp last
  obtain ⟨_,x_read,_⟩ := Option.bind_eq_some_iff.mp last
  have inside := read_isSome.mp (Option.isSome_of_eq_some x_read)
  rw [Nat.succ_mul]
  simp only at inside
  omega

/-- Steps that are computed are those of the recurrence. -/
theorem steps_run {len : Nat} (computed : (steps sigmoidfApprox tanhf m input len).isSome) :
    len * m.inputSize ≤ input.count ∧ ∀ t ≤ len,steps sigmoidfApprox tanhf m input t = some (run sigmoidfApprox tanhf m input t) := by
  cases len with
  | zero =>
    refine ⟨by simp,fun t first => ?_⟩
    obtain rfl := Nat.le_zero.mp first
    rfl
  | succ k =>
    have inside := inside_of_steps computed
    obtain ⟨s,computed⟩ := Option.isSome_iff_exists.mp computed
    obtain ⟨before,_,looped⟩ := Option.bind_eq_some_iff.mp computed
    obtain ⟨_,_,updated⟩ := turns_reached (Option.isSome_of_eq_some looped) ⟨0,m.hidden_positive⟩ m.hidden_positive
    have enough := present_of_gates (by simpa [unit] using updated)
    exact ⟨enough,fun t earlier => steps_eq inside ((Nat.mul_le_mul_right _ earlier).trans enough)⟩

/-- A call that returns 0 has written the hidden values of the first units, and nothing else. -/
theorem predicted_run {h c : Bool} {len outlen : Nat} {out out' : Block}
    (predicted : lstmPredict sigmoidfApprox tanhf h c (some m) (some input) len (some out) outlen = some (0,some out')) :
    (∀ t ≤ len,steps sigmoidfApprox tanhf m input t = some (run sigmoidfApprox tanhf m input t)) ∧
      (∀ i : Fin m.hiddenSize,i < outlen → out'.content i = (run sigmoidfApprox tanhf m input len i).h) ∧
      ∀ i,outlen ≤ i ∨ m.hiddenSize ≤ i → out'.content i = out.content i := by
  rw [lstmPredict] at predicted
  split_ifs at predicted with empty allocated
  · simp at predicted
  · obtain ⟨s,computed,predicted⟩ := Option.bind_eq_some_iff.mp predicted
    obtain ⟨out'',stored,predicted⟩ := Option.bind_eq_some_iff.mp predicted
    obtain rfl : out'' = out' := by simpa using predicted
    obtain ⟨_,same⟩ := steps_run (Option.isSome_of_eq_some computed)
    obtain rfl : run sigmoidfApprox tanhf m input len = s := by simpa [same] using computed
    have inside : ∀ i,i < (if outlen < m.hiddenSize then outlen else m.hiddenSize) ↔ i < outlen ∧ i < m.hiddenSize := by
      intro i
      split_ifs <;> omega
    obtain ⟨_,stored⟩ := Option.ite_none_right_eq_some.mp stored
    obtain rfl := Option.some.inj stored
    refine ⟨same,fun i first => dif_pos ⟨(inside i).mpr ⟨first,i.isLt⟩,i.isLt⟩,fun i outside => dif_neg ?_⟩
    rw [inside]
    omega
  · simp at predicted

/-! ### Bounds -/

/-- What all gates of a unit sum up is bounded, where the row, the hidden vector and the weights are. -/
theorem gateSum_bounded {B W : ℚ} {x : Fin m.inputSize → ℚ} {h : Fin m.hiddenSize → ℚ} (x_range : ∀ j,|x j| ≤ B)
    (h_range : ∀ j,|h j| ≤ 1) (weights : ∀ k,|m.weights.content k| ≤ W) (i : Fin m.hiddenSize) :
    |gateSum m x h i| ≤ (m.inputSize * B + m.hiddenSize) * W := by
  have part : ∀ {n : Nat} (v : Fin n → ℚ) (w : Fin n → ℚ) (V : ℚ),(∀ j,|v j| ≤ V) → (∀ j,|w j| ≤ W) →
      |∑ j,v j * w j| ≤ n * V * W := by
    intro n v w V v_range w_range
    calc |∑ j,v j * w j| ≤ ∑ j : Fin n,|v j * w j| := Finset.abs_sum_le_sum_abs _ _
      _ ≤ ∑ _j : Fin n,V * W := Finset.sum_le_sum fun j _ => by
          rw [abs_mul]
          exact mul_le_mul (v_range j) (w_range j) (abs_nonneg _) ((abs_nonneg _).trans (v_range j))
      _ = n * V * W := by simp [mul_assoc]
  calc |gateSum m x h i| ≤ m.inputSize * B * W + m.hiddenSize * 1 * W :=
        (abs_add_le _ _).trans (add_le_add (part _ _ B x_range fun j => weights _) (part _ _ 1 h_range fun j => weights _))
    _ = (m.inputSize * B + m.hiddenSize) * W := by ring

/-- A unit grows by at most one, and stays within what forget gates of at most `s` can hold, `s + s² + …`. -/
theorem cell_bounded (act : Activations sigmoidfApprox tanhf) {s sum c : ℚ} (high : sigmoidfApprox sum ≤ s) (s_high : s ≤ 1)
    (within : (1 - s) * |c| ≤ s) :
    |((Gates.shared sum).cell sigmoidfApprox tanhf c).h| ≤ 1 ∧
      |((Gates.shared sum).cell sigmoidfApprox tanhf c).c| ≤ |c| + 1 ∧
      (1 - s) * |((Gates.shared sum).cell sigmoidfApprox tanhf c).c| ≤ s := by
  have low := act.sigmoid_low sum
  have abs_gated : ∀ x,|sigmoidfApprox sum * x| = sigmoidfApprox sum * |x| := fun x => by rw [abs_mul,abs_of_nonneg low]
  have hidden : ∀ x,|sigmoidfApprox sum * tanhf x| ≤ sigmoidfApprox sum := by
    intro x
    rw [abs_gated]
    exact mul_le_of_le_one_right low (act.tanh_range x)
  have cell : |sigmoidfApprox sum * c + sigmoidfApprox sum * tanhf sum| ≤ sigmoidfApprox sum * (|c| + 1) :=
    calc |sigmoidfApprox sum * c + sigmoidfApprox sum * tanhf sum|
        ≤ |sigmoidfApprox sum * c| + |sigmoidfApprox sum * tanhf sum| := abs_add_le _ _
      _ ≤ sigmoidfApprox sum * |c| + sigmoidfApprox sum := add_le_add (le_of_eq (abs_gated c)) (hidden sum)
      _ = sigmoidfApprox sum * (|c| + 1) := by ring
  refine ⟨(hidden _).trans (act.sigmoid_high sum),cell.trans (mul_le_of_le_one_left (by positivity) (act.sigmoid_high sum)),?_⟩
  calc (1 - s) * |sigmoidfApprox sum * c + sigmoidfApprox sum * tanhf sum|
      ≤ (1 - s) * (sigmoidfApprox sum * (|c| + 1)) := mul_le_mul_of_nonneg_left cell (by linarith)
    _ = sigmoidfApprox sum * ((1 - s) * |c| + (1 - s)) := by ring
    _ ≤ sigmoidfApprox sum * 1 := mul_le_mul_of_nonneg_left (by linarith) low
    _ ≤ s := by rwa [mul_one]

/-- The largest sum that inputs up to `B` and weights up to `W` allow. -/
def largestSum (m : LstmModel) (B W : ℚ) : ℚ := (m.inputSize * B + m.hiddenSize) * W

/-- The bounds of a unit after `t` steps. -/
structure Bounded (s : ℚ) (t : Nat) (cell : Cell) : Prop where
  hidden : |cell.h| ≤ 1
  grown : |cell.c| ≤ t
  held : (1 - s) * |cell.c| ≤ s

/-- The units stay bounded, for sequences of every length. -/
theorem run_bounded (act : Activations sigmoidfApprox tanhf) {B W : ℚ} (weights : ∀ k,|m.weights.content k| ≤ W) (t : Nat)
    (inputs : ∀ k < t * m.inputSize,|input.content k| ≤ B) (i : Fin m.hiddenSize) :
    Bounded (sigmoidfApprox (largestSum m B W)) t (run sigmoidfApprox tanhf m input t i) := by
  induction t generalizing i with
  | zero => exact ⟨by simp [run],by simp [run],by simpa [run] using act.sigmoid_low _⟩
  | succ t ih =>
    have before : t * m.inputSize ≤ (t + 1) * m.inputSize := Nat.mul_le_mul_right _ (Nat.le_succ t)
    have start := ih fun k inside => inputs k (inside.trans_le before)
    have x_range : ∀ j,|row m input t j| ≤ B := by
      intro j
      have := j.isLt
      exact inputs _ (by rw [Nat.succ_mul]; omega)
    refine sweep_all (P := Bounded _ t) (Q := Bounded _ (t + 1)) ?_ start i
    intro i s around own
    have h_range : ∀ j,|(s j).h| ≤ 1 := fun j => (around j).elim Bounded.hidden Bounded.hidden
    have sum := (abs_le.mp (gateSum_bounded x_range h_range weights i)).2
    obtain ⟨hidden,grown,held⟩ := cell_bounded act (act.sigmoid_mono sum) (act.sigmoid_high _) own.held
    exact ⟨hidden,grown.trans (by push_cast; linarith [own.grown]),held⟩

/-! ### Rising inputs -/

/-- One unit is at most another one, and neither is negative. -/
structure Below (a b : Cell) : Prop where
  h_low : 0 ≤ a.h
  h_le : a.h ≤ b.h
  c_low : 0 ≤ a.c
  c_le : a.c ≤ b.c

theorem gateSum_mono {x x' : Fin m.inputSize → ℚ} {h h' : Fin m.hiddenSize → ℚ} (weights : ∀ k,0 ≤ m.weights.content k)
    (x_low : ∀ j,0 ≤ x j) (x_le : ∀ j,x j ≤ x' j) (h_low : ∀ j,0 ≤ h j) (h_le : ∀ j,h j ≤ h' j) (i : Fin m.hiddenSize) :
    0 ≤ gateSum m x h i ∧ gateSum m x h i ≤ gateSum m x' h' i := by
  constructor
  · exact add_nonneg (Finset.sum_nonneg fun j _ => mul_nonneg (x_low j) (weights _))
      (Finset.sum_nonneg fun j _ => mul_nonneg (h_low j) (weights _))
  · exact add_le_add (Finset.sum_le_sum fun j _ => mul_le_mul_of_nonneg_right (x_le j) (weights _))
      (Finset.sum_le_sum fun j _ => mul_le_mul_of_nonneg_right (h_le j) (weights _))

theorem cell_mono (act : Activations sigmoidfApprox tanhf) {sum sum' c c' : ℚ} (low : 0 ≤ sum) (le : sum ≤ sum') (c_low : 0 ≤ c)
    (c_le : c ≤ c') : Below ((Gates.shared sum).cell sigmoidfApprox tanhf c) ((Gates.shared sum').cell sigmoidfApprox tanhf c') := by
  have tanh_low : ∀ x,0 ≤ x → 0 ≤ tanhf x := fun x x_low => by simpa [act.tanh_zero] using act.tanh_mono x_low
  have gated : ∀ {x x'},0 ≤ x → x ≤ x' → sigmoidfApprox sum * x ≤ sigmoidfApprox sum' * x' := fun x_low x_le =>
    mul_le_mul (act.sigmoid_mono le) x_le x_low (act.sigmoid_low _)
  have c_new : 0 ≤ sigmoidfApprox sum * c + sigmoidfApprox sum * tanhf sum :=
    add_nonneg (mul_nonneg (act.sigmoid_low _) c_low) (mul_nonneg (act.sigmoid_low _) (tanh_low _ low))
  have c_rises : sigmoidfApprox sum * c + sigmoidfApprox sum * tanhf sum ≤ sigmoidfApprox sum' * c' + sigmoidfApprox sum' * tanhf sum' :=
    add_le_add (gated c_low c_le) (gated (tanh_low _ low) (act.tanh_mono le))
  exact ⟨mul_nonneg (act.sigmoid_low _) (tanh_low _ c_new),gated (tanh_low _ c_new) (act.tanh_mono c_rises),c_new,c_rises⟩

/-- Inputs that are nowhere below others lead to units that are nowhere below the others'. -/
theorem run_mono (act : Activations sigmoidfApprox tanhf) (weights : ∀ k,0 ≤ m.weights.content k) {input' : Block} (t : Nat)
    (low : ∀ k < t * m.inputSize,0 ≤ input.content k) (le : ∀ k < t * m.inputSize,input.content k ≤ input'.content k)
    (i : Fin m.hiddenSize) : Below (run sigmoidfApprox tanhf m input t i) (run sigmoidfApprox tanhf m input' t i) := by
  induction t generalizing i with
  | zero => exact ⟨le_rfl,le_rfl,le_rfl,le_rfl⟩
  | succ t ih =>
    have before : t * m.inputSize ≤ (t + 1) * m.inputSize := Nat.mul_le_mul_right _ (Nat.le_succ t)
    have start := ih (fun k inside => low k (inside.trans_le before)) fun k inside => le k (inside.trans_le before)
    have inside : ∀ j : Fin m.inputSize,t * m.inputSize + j < (t + 1) * m.inputSize := by
      intro j
      have := j.isLt
      rw [Nat.succ_mul]
      omega
    refine sweep_rel (P := Below) (Q := Below) ?_ start i
    intro i s s' around own
    have below : ∀ j,Below (s j) (s' j) := fun j => (around j).elim id id
    obtain ⟨sum_low,sum_le⟩ := gateSum_mono weights (fun j => low _ (inside j)) (fun j => le _ (inside j))
      (fun j => (below j).h_low) (fun j => (below j).h_le) i
    exact cell_mono act sum_low sum_le own.c_low own.c_le

/-! ### Predictions -/

/-- The weights of a new model. -/
theorem init_weights {calloc : Nat → Nat → Bool} {inputSize hiddenSize : Int32}
    (ready : lstmInitModel calloc true inputSize hiddenSize = some m) (k : Nat) :
    0 ≤ m.weights.content k ∧ m.weights.content k ≤ 1 / 10 := by
  unfold lstmInitModel at ready
  split_ifs at ready with positive
  dsimp only at ready
  split_ifs at ready
  obtain rfl := Option.some.inj ready
  have small : ((sizeT (k * 13 + 7) % 97 : Nat) : ℚ) ≤ 97 := by
    exact_mod_cast (Nat.mod_lt _ (by decide)).le
  constructor
  · exact mul_nonneg (div_nonneg (Nat.cast_nonneg _) (by norm_num)) (by norm_num)
  · show ((sizeT (k * 13 + 7) % 97 : Nat) : ℚ) / 97 * (1 / 10) ≤ 1 / 10
    linarith

/-- **A prediction is bounded.** With a new model and inputs up to `B` the cell values of all steps stay within one bound,
    whatever the length of the sequence, and the outputs lie between -1 and 1. -/
theorem prediction_bounded (act : Activations sigmoidfApprox tanhf) {calloc : Nat → Nat → Bool} {inputSize hiddenSize : Int32}
    (ready : lstmInitModel calloc true inputSize hiddenSize = some m) {h c : Bool} {len outlen : Nat} {out out' : Block} {B : ℚ}
    (inputs : ∀ k < len * m.inputSize,|input.content k| ≤ B)
    (predicted : lstmPredict sigmoidfApprox tanhf h c (some m) (some input) len (some out) outlen = some (0,some out')) :
    (∀ t ≤ len,∃ s,steps sigmoidfApprox tanhf m input t = some s ∧
      ∀ i,Bounded (sigmoidfApprox (largestSum m B (1 / 10))) t (s i)) ∧
    (∀ i < outlen,i < m.hiddenSize → |out'.content i| ≤ 1) ∧
    ∀ i,outlen ≤ i ∨ m.hiddenSize ≤ i → out'.content i = out.content i := by
  obtain ⟨same,written,kept⟩ := predicted_run predicted
  have weights : ∀ k,|m.weights.content k| ≤ 1 / 10 := fun k => by
    rw [abs_of_nonneg (init_weights ready k).1]
    exact (init_weights ready k).2
  have bounded : ∀ t ≤ len,∀ i,Bounded (sigmoidfApprox (largestSum m B (1 / 10))) t (run sigmoidfApprox tanhf m input t i) :=
    fun t earlier => run_bounded act weights t fun k inside => inputs k (inside.trans_le (Nat.mul_le_mul_right _ earlier))
  refine ⟨fun t earlier => ⟨_,same t earlier,bounded t earlier⟩,?_,kept⟩
  intro i first unit
  rw [written ⟨i,unit⟩ first]
  exact (bounded len le_rfl _).hidden

/-- **A prediction never falls when the inputs rise**, with a new model and inputs that are not negative. -/
theorem prediction_mono (act : Activations sigmoidfApprox tanhf) {calloc : Nat → Nat → Bool} {inputSize hiddenSize : Int32}
    (ready : lstmInitModel calloc true inputSize hiddenSize = some m) {input' : Block} {h c h' c' : Bool} {len outlen : Nat}
    {out out' result result' : Block} (low : ∀ k < len * m.inputSize,0 ≤ input.content k)
    (le : ∀ k < len * m.inputSize,input.content k ≤ input'.content k)
    (predicted : lstmPredict sigmoidfApprox tanhf h c (some m) (some input) len (some out) outlen = some (0,some result))
    (predicted' : lstmPredict sigmoidfApprox tanhf h' c' (some m) (some input') len (some out') outlen = some (0,some result')) :
    ∀ i < outlen,i < m.hiddenSize → 0 ≤ result.content i ∧ result.content i ≤ result'.content i := by
  obtain ⟨_,written,_⟩ := predicted_run predicted
  obtain ⟨_,written',_⟩ := predicted_run predicted'
  intro i first unit
  have below := run_mono act (fun k => (init_weights ready k).1) len low le ⟨i,unit⟩
  rw [written ⟨i,unit⟩ first,written' ⟨i,unit⟩ first]
  exact ⟨below.h_low,below.h_le⟩

end Runs

/-- Piecewise linear functions that rise and agree with the sigmoid and the hyperbolic tangent at 0. -/
theorem activations_linear : Activations (fun x => max 0 (min 1 (1 / 2 + x / 4))) fun x => max (-1) (min 1 x) where
  sigmoid_low _ := le_max_left _ _
  sigmoid_high _ := max_le (by norm_num) (min_le_left _ _)
  sigmoid_mono _ _ le := max_le_max le_rfl (min_le_min le_rfl (by linarith))
  tanh_range x := abs_le.mpr ⟨le_max_left _ _,max_le (by norm_num) (min_le_left _ _)⟩
  tanh_mono _ _ le := max_le_max le_rfl (min_le_min le_rfl le)
  tanh_zero := by norm_num

/-- One input and two units, over three steps. -/
private def predictThree (m : LstmModel) (content : Nat → ℚ) : Option (Int × Option Block) :=
  lstmPredict (fun x => max 0 (min 1 (1 / 2 + x / 4))) (fun x => max (-1) (min 1 x)) true true (some m) (some ⟨3,content⟩) 3
    (some ⟨4,fun _ => 9⟩) 4

private theorem predicts : ∃ m,lstmInitModel (fun _ _ => true) true 1 2 = some m ∧ m.inputSize = 1 ∧ m.hiddenSize = 2 ∧
    ∀ content,∃ out',predictThree m content = some (0,some out') :=
  ⟨_,rfl,rfl,rfl,fun _ => ⟨_,rfl⟩⟩

/-- The inputs are -1, 0 and 1. -/
theorem prediction_bounded_three : ∃ m out',lstmInitModel (fun _ _ => true) true 1 2 = some m ∧
    predictThree m (fun k => k - 1) = some (0,some out') ∧ (∀ i < 2,|out'.content i| ≤ 1) ∧ out'.content 2 = 9 := by
  obtain ⟨m,ready,one,two,predicted⟩ := predicts
  obtain ⟨out',predicted⟩ := predicted fun k => k - 1
  have inputs : ∀ k < 3 * m.inputSize,|(Block.mk 3 fun k => (k : ℚ) - 1).content k| ≤ 1 := by
    intro k inside
    have low : (0 : ℚ) ≤ k := Nat.cast_nonneg k
    have high : (k : ℚ) ≤ 2 := Nat.cast_le_ofNat.mpr (by omega)
    exact abs_le.mpr ⟨by linarith,by linarith⟩
  obtain ⟨_,bounded,kept⟩ := prediction_bounded activations_linear ready inputs predicted
  exact ⟨m,out',ready,predicted,fun i first => bounded i (by omega) (by omega),kept 2 (by omega)⟩

/-- The inputs 0, 1 and 2, and twice as much. -/
theorem prediction_mono_twice : ∃ m out out',lstmInitModel (fun _ _ => true) true 1 2 = some m ∧
    predictThree m (fun k => k) = some (0,some out) ∧ predictThree m (fun k => 2 * k) = some (0,some out') ∧
    ∀ i < 2,0 ≤ out.content i ∧ out.content i ≤ out'.content i := by
  obtain ⟨m,ready,one,two,predicted⟩ := predicts
  obtain ⟨out,once⟩ := predicted fun k => k
  obtain ⟨out',twice⟩ := predicted fun k => 2 * k
  have below : ∀ k < 3 * m.inputSize,(k : ℚ) ≤ 2 * k := by
    intro k _
    have low : (0 : ℚ) ≤ k := Nat.cast_nonneg k
    linarith
  have mono := prediction_mono activations_linear ready (fun k _ => Nat.cast_nonneg k) below once twice
  exact ⟨m,out,out',ready,once,twice,fun i first => mono i (by omega) (by omega)⟩

end Nulleye.LstmBounds
