import Mathlib.Algebra.Order.Ring.Rat
import Nulleye.Sweeps

/-!
The LSTM predictor over exact arithmetic, with any functions in the place of the sigmoid
and the hyperbolic tangent. Sizes are `int`s and allocations count in `size_t`, so an index
into the biases can overflow and the number of weights can wrap. A prediction stays inside
its blocks for every input exactly if the hidden layer has at most `2 ^ 29` units.
-/
namespace Nulleye.LstmPredictor
open Nulleye.Sweeps

/-- A block of `float`s: how many there are, and what they are. -/
structure Block where
  count : Nat
  content : Nat → ℚ

/-- A read outside the block is undefined. -/
def Block.read (b : Block) (i : Nat) : Option ℚ := if i < b.count then some (b.content i) else none

/-- The result of arithmetic on `size_t`. -/
def sizeT (n : Nat) : Nat := n % 2 ^ 64

/-- The result of arithmetic on `int`s that are not negative; an overflow is undefined. -/
def intIndex (n : Nat) : Option Nat := if n < 2 ^ 31 then some n else none

/-- `lstm_model_t`, with the sizes that `lstm_init_model` accepts. -/
structure LstmModel where
  inputSize : Nat
  hiddenSize : Nat
  weights : Block
  biases : Block
  input_positive : 0 < inputSize
  input_int : inputSize < 2 ^ 31
  hidden_positive : 0 < hiddenSize
  hidden_int : hiddenSize < 2 ^ 31

theorem size_positive {n : Int32} (positive : 0 < n) : 0 < n.toInt.toNat := by
  have value : 0 < n.toInt := by simpa using Int32.lt_iff_toInt_lt.mp positive
  omega

theorem size_int (n : Int32) : n.toInt.toNat < 2 ^ 31 := by
  have := n.toInt_lt
  omega

/-- The number of weights that `lstm_init_model` allocates. -/
def wcount (inputSize hiddenSize : Nat) : Nat := sizeT (inputSize * hiddenSize * 4 + hiddenSize * hiddenSize * 4)

/-- `lstm_init_model`, where `calloc` says which allocations succeed, and `m` whether it is not NULL; `none`
    where the function returns -1. -/
def lstmInitModel (calloc : Nat → Nat → Bool) (m : Bool) (inputSize hiddenSize : Int32) : Option LstmModel :=
  if positive : m = true ∧ 0 < inputSize ∧ 0 < hiddenSize then
    let weights := wcount inputSize.toInt.toNat hiddenSize.toInt.toNat
    let biases := sizeT (hiddenSize.toInt.toNat * 4)
    if calloc weights 4 && calloc biases 4 then
      some ⟨inputSize.toInt.toNat,hiddenSize.toInt.toNat,⟨weights,fun i => (sizeT (i * 13 + 7) % 97 : Nat) / 97 * (1 / 10)⟩,
        ⟨biases,fun _ => 0⟩,size_positive positive.2.1,size_int _,size_positive positive.2.2,size_int _⟩
    else none
  else none

/-! ### A prediction -/

/-- What `h` and `c` hold for a unit. -/
structure Cell where
  h : ℚ
  c : ℚ

/-- The gates of a unit before the activations. -/
structure Gates where
  ig : ℚ
  fg : ℚ
  og : ℚ
  gg : ℚ

section Prediction
variable (sigmoidfApprox tanhf : ℚ → ℚ) (m : LstmModel) (input : Block)

/-- The gates of unit `i` in step `t`. The index into `input` is that of an element, so it does not wrap. -/
def gates (t : Nat) (i : Fin m.hiddenSize) (s : Fin m.hiddenSize → Cell) : Option Gates := do
  let hs := m.hiddenSize
  let ig ← m.biases.read i
  let fg ← (intIndex (hs + i)).bind m.biases.read
  let og ← (intIndex (2 * hs + i)).bind m.biases.read
  let gg ← (intIndex (3 * hs + i)).bind m.biases.read
  let wx ← addUp fun j : Fin m.inputSize => do
    let x ← input.read (t * m.inputSize + j)
    let w ← m.weights.read (sizeT (j * hs * 4 + i))
    return x * w
  let uh ← addUp fun j : Fin m.hiddenSize => do
    let w ← m.weights.read (sizeT (m.inputSize * hs * 4 + j * hs * 4 + i))
    return (s j).h * w
  return ⟨ig * 0 + (wx + uh),fg * 0 + (wx + uh),og * 0 + (wx + uh),gg * 0 + (wx + uh)⟩

/-- What the gates make of a unit. -/
def Gates.cell (g : Gates) (c : ℚ) : Cell :=
  let c := sigmoidfApprox g.fg * c + sigmoidfApprox g.ig * tanhf g.gg
  ⟨sigmoidfApprox g.og * tanhf c,c⟩

/-- The body of the loop over the units. -/
def unit (t : Nat) (i : Fin m.hiddenSize) (s : Fin m.hiddenSize → Cell) : Option (Fin m.hiddenSize → Cell) :=
  (gates m input t i s).map fun g => Function.update s i (g.cell sigmoidfApprox tanhf (s i).c)

/-- The first `len` turns of the loop over the steps. -/
def steps : Nat → Option (Fin m.hiddenSize → Cell)
  | 0 => some fun _ => ⟨0,0⟩
  | t + 1 => (steps t).bind (loop (unit sigmoidfApprox tanhf m input t))

/-- What is written to `out`: the hidden values of the first units. -/
def written {hs : Nat} (s : Fin hs → Cell) (outlen : Nat) (out : Block) : Option Block :=
  let outcount := if outlen < hs then outlen else hs
  if outcount ≤ out.count then
    some ⟨out.count,fun i => if inside : i < outcount ∧ i < hs then (s ⟨i,inside.2⟩).h else out.content i⟩
  else none

/-- `lstm_predict`: the return code and what is in `out` then; `h` and `c` say which allocation succeeds. -/
def lstmPredict (h c : Bool) (m : Option LstmModel) (input : Option Block) (len : Nat) (out : Option Block) (outlen : Nat) :
    Option (Int × Option Block) :=
  match m,input,out with
  | some m,some input,some out =>
    if outlen = 0 then some (-1,some out)
    else if h && c then do
      let s ← steps sigmoidfApprox tanhf m input len
      let out ← written s outlen out
      return (0,some out)
    else some (-1,some out)
  | _,_,_ => some (-1,out)

end Prediction

/-! ### The indices -/

/-- The indices that unit `i` uses are those of allocated floats. -/
structure InsideAt (m : LstmModel) (i : Fin m.hiddenSize) : Prop where
  biases : ∀ g < 4,g * m.hiddenSize + i < 2 ^ 31 ∧ g * m.hiddenSize + i < m.biases.count
  inputs : ∀ j : Fin m.inputSize,sizeT (j * m.hiddenSize * 4 + i) < m.weights.count
  hidden : ∀ j : Fin m.hiddenSize,sizeT (m.inputSize * m.hiddenSize * 4 + j * m.hiddenSize * 4 + i) < m.weights.count

/-- All indices that a prediction uses are those of allocated floats. -/
def Inside (m : LstmModel) : Prop := ∀ i,InsideAt m i

@[simp] theorem read_isSome {b : Block} {i : Nat} : (b.read i).isSome ↔ i < b.count := by
  unfold Block.read
  split_ifs with inside <;> simp [inside]

theorem read_eq {b : Block} {i : Nat} (inside : i < b.count) : b.read i = some (b.content i) := if_pos inside

@[simp] theorem intIndex_read_isSome {b : Block} {n : Nat} : ((intIndex n).bind b.read).isSome ↔ n < 2 ^ 31 ∧ n < b.count := by
  unfold intIndex
  split_ifs with small
  · rw [Option.bind_some,read_isSome]
    exact ⟨fun inside => ⟨small,inside⟩,fun both => both.2⟩
  · exact iff_of_false (by simp) fun both => small both.1

theorem intIndex_read_eq {b : Block} {n : Nat} (small : n < 2 ^ 31) (inside : n < b.count) :
    (intIndex n).bind b.read = some (b.content n) := by
  rw [intIndex,if_pos small,Option.bind_some,read_eq inside]

section Runs
variable {sigmoidfApprox tanhf : ℚ → ℚ} {m : LstmModel} {input : Block}

/-- A unit whose gates are computed has read inside the blocks. -/
theorem gates_inside {t : Nat} {i : Fin m.hiddenSize} {s : Fin m.hiddenSize → Cell} (computed : (gates m input t i s).isSome) :
    InsideAt m i := by
  obtain ⟨g,computed⟩ := Option.isSome_iff_exists.mp computed
  obtain ⟨ig,ig_read,computed⟩ := Option.bind_eq_some_iff.mp computed
  obtain ⟨fg,fg_read,computed⟩ := Option.bind_eq_some_iff.mp computed
  obtain ⟨og,og_read,computed⟩ := Option.bind_eq_some_iff.mp computed
  obtain ⟨gg,gg_read,computed⟩ := Option.bind_eq_some_iff.mp computed
  obtain ⟨wx,wx_read,computed⟩ := Option.bind_eq_some_iff.mp computed
  obtain ⟨uh,uh_read,_⟩ := Option.bind_eq_some_iff.mp computed
  have first := read_isSome.mp (Option.isSome_of_eq_some ig_read)
  have second := intIndex_read_isSome.mp (Option.isSome_of_eq_some fg_read)
  have third := intIndex_read_isSome.mp (Option.isSome_of_eq_some og_read)
  have fourth := intIndex_read_isSome.mp (Option.isSome_of_eq_some gg_read)
  refine ⟨?_,?_,?_⟩
  · intro g four
    have small := m.hidden_int
    have unit_small := i.isLt
    obtain rfl | rfl | rfl | rfl : g = 0 ∨ g = 1 ∨ g = 2 ∨ g = 3 := by omega
    · rw [Nat.zero_mul,Nat.zero_add]
      exact ⟨by omega,first⟩
    · rwa [Nat.one_mul]
    · exact third
    · exact fourth
  · intro j
    have term := addUp_isSome.mp (Option.isSome_of_eq_some wx_read) j
    obtain ⟨_,term⟩ := Option.isSome_iff_exists.mp term
    obtain ⟨_,_,term⟩ := Option.bind_eq_some_iff.mp term
    obtain ⟨_,weight,_⟩ := Option.bind_eq_some_iff.mp term
    exact read_isSome.mp (Option.isSome_of_eq_some weight)
  · intro j
    have term := addUp_isSome.mp (Option.isSome_of_eq_some uh_read) j
    obtain ⟨_,term⟩ := Option.isSome_iff_exists.mp term
    obtain ⟨_,weight,_⟩ := Option.bind_eq_some_iff.mp term
    exact read_isSome.mp (Option.isSome_of_eq_some weight)

/-- The row of the input that a step reads. -/
def row (m : LstmModel) (input : Block) (t : Nat) (j : Fin m.inputSize) : ℚ := input.content (t * m.inputSize + j)

/-- What all gates of a unit sum up: the weights that the code reads, with a row and a hidden vector. -/
def gateSum (m : LstmModel) (x : Fin m.inputSize → ℚ) (h : Fin m.hiddenSize → ℚ) (i : Fin m.hiddenSize) : ℚ :=
  ∑ j,x j * m.weights.content (sizeT (j * m.hiddenSize * 4 + i)) +
    ∑ j,h j * m.weights.content (sizeT (m.inputSize * m.hiddenSize * 4 + j * m.hiddenSize * 4 + i))

/-- The gates with one sum for all of them. -/
def Gates.shared (sum : ℚ) : Gates := ⟨sum,sum,sum,sum⟩

/-- What becomes of a unit whose row, hidden vector and cell value are these. -/
def next (sigmoidfApprox tanhf : ℚ → ℚ) (m : LstmModel) (x : Fin m.inputSize → ℚ) (s : Fin m.hiddenSize → Cell)
    (i : Fin m.hiddenSize) : Cell :=
  (Gates.shared (gateSum m x (fun j => (s j).h) i)).cell sigmoidfApprox tanhf (s i).c

theorem gates_eq {t : Nat} {i : Fin m.hiddenSize} (inside : InsideAt m i) (present : (t + 1) * m.inputSize ≤ input.count)
    (s : Fin m.hiddenSize → Cell) :
    gates m input t i s = some (.shared (gateSum m (row m input t) (fun j => (s j).h) i)) := by
  obtain ⟨biases,inputs,hidden⟩ := inside
  have bias : ∀ g < 4,(intIndex (g * m.hiddenSize + i)).bind m.biases.read = some (m.biases.content (g * m.hiddenSize + i)) :=
    fun g four => intIndex_read_eq (biases g four).1 (biases g four).2
  have first : m.biases.read i = some (m.biases.content i) := read_eq (by simpa using (biases 0 (by decide)).2)
  have second := bias 1 (by decide)
  rw [Nat.one_mul] at second
  have x_read : ∀ j : Fin m.inputSize,input.read (t * m.inputSize + j) = some (row m input t j) := by
    intro j
    have := j.isLt
    exact read_eq (by rw [Nat.succ_mul] at present; omega)
  have wx := addUp_eq (fun j : Fin m.inputSize => show (input.read (t * m.inputSize + j)).bind (fun x =>
    (m.weights.read (sizeT (j * m.hiddenSize * 4 + i))).bind fun w => some (x * w)) =
      some (row m input t j * m.weights.content (sizeT (j * m.hiddenSize * 4 + i))) by
    rw [x_read,Option.bind_some,read_eq (inputs j),Option.bind_some])
  have uh := addUp_eq (fun j : Fin m.hiddenSize => show (m.weights.read
    (sizeT (m.inputSize * m.hiddenSize * 4 + j * m.hiddenSize * 4 + i))).bind (fun w => some ((s j).h * w)) =
      some ((s j).h * m.weights.content (sizeT (m.inputSize * m.hiddenSize * 4 + j * m.hiddenSize * 4 + i))) by
    rw [read_eq (hidden j),Option.bind_some])
  simp only [gates,first,second,bias 2 (by decide),bias 3 (by decide),Option.bind_eq_bind,Option.bind_some,Option.pure_def,wx,uh,
    mul_zero,zero_add]
  rfl

/-- The units after `t` steps, each step going through them one after the other. -/
def run (sigmoidfApprox tanhf : ℚ → ℚ) (m : LstmModel) (input : Block) : Nat → Fin m.hiddenSize → Cell
  | 0 => fun _ => ⟨0,0⟩
  | t + 1 => sweep (next sigmoidfApprox tanhf m (row m input t)) (run sigmoidfApprox tanhf m input t)

theorem unit_eq {t : Nat} {i : Fin m.hiddenSize} (inside : InsideAt m i) (present : (t + 1) * m.inputSize ≤ input.count)
    (s : Fin m.hiddenSize → Cell) : unit sigmoidfApprox tanhf m input t i s =
      some (Function.update s i (next sigmoidfApprox tanhf m (row m input t) s i)) := by
  rw [unit,gates_eq inside present,Option.map_some]
  rfl

theorem steps_eq {len : Nat} (inside : Inside m) (enough : len * m.inputSize ≤ input.count) :
    steps sigmoidfApprox tanhf m input len = some (run sigmoidfApprox tanhf m input len) := by
  induction len with
  | zero => rfl
  | succ t ih =>
    have before : t * m.inputSize ≤ input.count := Nat.le_trans (Nat.mul_le_mul_right _ (Nat.le_succ t)) enough
    rw [steps,ih before,Option.bind_some,loop_sweep fun i s => unit_eq (inside i) enough s,run]

/-- A step that is computed shows that all indices are inside. -/
theorem inside_of_steps {t : Nat} (computed : (steps sigmoidfApprox tanhf m input (t + 1)).isSome) : Inside m := by
  intro i
  rw [steps] at computed
  cases reached : steps sigmoidfApprox tanhf m input t with
  | none => simp [reached] at computed
  | some s =>
    rw [reached,Option.bind_some] at computed
    obtain ⟨s',_,updated⟩ := turns_reached computed i i.isLt
    exact gates_inside (by simpa [unit] using updated)

/-- A call with nothing missing. -/
theorem lstmPredict_eq {len outlen : Nat} {out : Block} (some_out : outlen ≠ 0) :
    lstmPredict sigmoidfApprox tanhf true true (some m) (some input) len (some out) outlen =
      (steps sigmoidfApprox tanhf m input len).bind fun s => (written s outlen out).map fun out => (0,some out) := by
  simp only [lstmPredict,if_neg some_out,Bool.and_self,if_true,Option.bind_eq_bind,Option.pure_def]
  congr 1
  funext s
  cases written s outlen out <;> rfl

theorem written_isSome {hs outlen : Nat} {s : Fin hs → Cell} {out : Block} : (written s outlen out).isSome ↔ min outlen hs ≤ out.count := by
  have least : (if outlen < hs then outlen else hs) = min outlen hs := by split_ifs <;> omega
  simp only [written,least]
  by_cases fits : min outlen hs ≤ out.count
  · rw [if_pos fits]
    exact iff_of_true rfl fits
  · rw [if_neg fits]
    exact iff_of_false (by simp) fits

end Runs

/-! ### The allocation -/

/-- The blocks have as many floats as four gates have weights and biases. -/
structure Laid (m : LstmModel) : Prop where
  weights : m.weights.count = m.inputSize * m.hiddenSize * 4 + m.hiddenSize * m.hiddenSize * 4
  biases : m.biases.count = m.hiddenSize * 4

theorem weights_fit {inputSize hiddenSize : Nat} (input_int : inputSize < 2 ^ 31) (few : hiddenSize ≤ 2 ^ 29) :
    inputSize * hiddenSize * 4 + hiddenSize * hiddenSize * 4 < 2 ^ 64 := by
  have inputs : inputSize * hiddenSize ≤ 2 ^ 31 * 2 ^ 29 := Nat.mul_le_mul (Nat.le_of_lt input_int) few
  have units : hiddenSize * hiddenSize ≤ 2 ^ 29 * 2 ^ 29 := Nat.mul_le_mul few few
  omega

/-- An index into rows of four columns for each unit. -/
theorem index_lt {rows j hs i : Nat} (row : j < rows) (unit : i < hs) : j * hs * 4 + i < rows * hs * 4 := by
  have row_end : (j + 1) * hs ≤ rows * hs := Nat.mul_le_mul_right hs row
  rw [Nat.succ_mul] at row_end
  omega

theorem inside_of_laid {m : LstmModel} (laid : Laid m) (few : m.hiddenSize ≤ 2 ^ 29) : Inside m := by
  obtain ⟨weights,biases⟩ := laid
  have fit := weights_fit m.input_int few
  intro i
  refine ⟨?_,?_,?_⟩
  · intro g four
    have block : g * m.hiddenSize ≤ 3 * m.hiddenSize := Nat.mul_le_mul_right _ (by omega)
    have := i.isLt
    rw [biases]
    omega
  · intro j
    have inside := index_lt j.isLt i.isLt
    rw [weights,sizeT,Nat.mod_eq_of_lt (by omega)]
    omega
  · intro j
    have inside := index_lt j.isLt i.isLt
    rw [weights,sizeT,Nat.mod_eq_of_lt (by omega)]
    omega

/-- The index of the last bias is an `int`. -/
theorem few_of_inside {m : LstmModel} (inside : Inside m) : m.hiddenSize ≤ 2 ^ 29 := by
  have positive := m.hidden_positive
  have last := ((inside ⟨m.hiddenSize - 1,by omega⟩).biases 3 (by decide)).1
  simp only at last
  omega

/-- The blocks have as many floats as `lstm_init_model` allocates. -/
structure Allocated (m : LstmModel) : Prop where
  weights : m.weights.count = wcount m.inputSize m.hiddenSize
  biases : m.biases.count = sizeT (m.hiddenSize * 4)

theorem init_allocated {calloc : Nat → Nat → Bool} {inputSize hiddenSize : Int32} {m : LstmModel}
    (ready : lstmInitModel calloc true inputSize hiddenSize = some m) : Allocated m := by
  unfold lstmInitModel at ready
  split_ifs at ready with positive
  dsimp only at ready
  split_ifs at ready
  obtain rfl := Option.some.inj ready
  exact ⟨rfl,rfl⟩

theorem Allocated.laid {m : LstmModel} (allocated : Allocated m) (few : m.hiddenSize ≤ 2 ^ 29) : Laid m := by
  obtain ⟨weights,biases⟩ := allocated
  refine ⟨?_,?_⟩
  · rw [weights,wcount,sizeT,Nat.mod_eq_of_lt (weights_fit m.input_int few)]
  · rw [biases,sizeT,Nat.mod_eq_of_lt (by omega)]

theorem inside_of_allocated {m : LstmModel} (allocated : Allocated m) (few : m.hiddenSize ≤ 2 ^ 29) : Inside m :=
  inside_of_laid (allocated.laid few) few

/-- **The weights are all allocated and every index is one of an allocated float, for every input, exactly if**
    the hidden layer has at most `2 ^ 29` units. -/
theorem indices_inside {calloc : Nat → Nat → Bool} {inputSize hiddenSize : Int32} {m : LstmModel}
    (ready : lstmInitModel calloc true inputSize hiddenSize = some m) :
    (m.weights.count = m.inputSize * m.hiddenSize * 4 + m.hiddenSize * m.hiddenSize * 4 ∧
      ∀ (sigmoidfApprox tanhf : ℚ → ℚ) (input : Block) (len : Nat) (out : Block) (outlen : Nat),
        len * m.inputSize ≤ input.count → outlen ≠ 0 → min outlen m.hiddenSize ≤ out.count →
          (lstmPredict sigmoidfApprox tanhf true true (some m) (some input) len (some out) outlen).isSome) ↔
      m.hiddenSize ≤ 2 ^ 29 := by
  constructor
  · rintro ⟨_,defined⟩
    have one := defined id id ⟨m.inputSize,fun _ => 0⟩ 1 ⟨1,fun _ => 0⟩ 1 (by simp) (by decide) (Nat.min_le_left _ _)
    rw [lstmPredict_eq (by decide)] at one
    cases computed : steps id id m ⟨m.inputSize,fun _ => 0⟩ 1 with
    | none => simp [computed] at one
    | some s => exact few_of_inside (inside_of_steps (Option.isSome_of_eq_some computed))
  · intro few
    have allocated := init_allocated ready
    refine ⟨(allocated.laid few).weights,?_⟩
    intro sigmoidfApprox tanhf input len out outlen enough some_out fits
    rw [lstmPredict_eq some_out,steps_eq (inside_of_allocated allocated few) enough,Option.bind_some]
    simpa using written_isSome.mpr fits

/-- Four inputs and eight units. -/
theorem indices_inside_small : ∃ m,lstmInitModel (fun _ _ => true) true 4 8 = some m ∧ m.hiddenSize = 8 ∧
    m.weights.count = m.inputSize * m.hiddenSize * 4 + m.hiddenSize * m.hiddenSize * 4 ∧
    (lstmPredict id id true true (some m) (some ⟨12,fun _ => 0⟩) 3 (some ⟨8,fun _ => 0⟩) 8).isSome := by
  have ready : ∃ m,lstmInitModel (fun _ _ => true) true 4 8 = some m ∧ m.inputSize = 4 ∧ m.hiddenSize = 8 := ⟨_,rfl,rfl,rfl⟩
  obtain ⟨m,ready,four,eight⟩ := ready
  obtain ⟨weights,defined⟩ := (indices_inside ready).mpr (by rw [eight]; decide)
  exact ⟨m,ready,eight,weights,defined id id ⟨12,fun _ => 0⟩ 3 ⟨8,fun _ => 0⟩ 8 (by rw [four]) (by decide) (by rw [eight]; decide)⟩

/-- The number of weights of 1252698795 inputs and 1610612736 units wraps to 2147483648, which is allocated. -/
theorem weights_wrap :
    ¬ ∀ (calloc : Nat → Nat → Bool) (inputSize hiddenSize : Int32) (m : LstmModel),
      lstmInitModel calloc true inputSize hiddenSize = some m →
        m.weights.count = m.inputSize * m.hiddenSize * 4 + m.hiddenSize * m.hiddenSize * 4 := by
  intro always
  have ready : ∃ m,lstmInitModel (fun count size => count * size ≤ 2 ^ 36) true 1252698795 1610612736 = some m ∧
    m.inputSize = 1252698795 ∧ m.hiddenSize = 1610612736 ∧ m.weights.count = 2147483648 := ⟨_,rfl,rfl,rfl,rfl⟩
  obtain ⟨m,ready,inputs,units,wrapped⟩ := ready
  have exact_count := always _ _ _ m ready
  rw [inputs,units,wrapped] at exact_count
  revert exact_count
  decide

end Nulleye.LstmPredictor
