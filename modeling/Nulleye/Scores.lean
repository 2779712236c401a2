import Mathlib.Algebra.BigOperators.Group.List.Basic
import Nulleye.Models

/-!
What a score says about an event. The trees of a forest vote with 1 or 5, and the
score falls with the average of the votes: it is between 50 and 100, it rises with
the features, and the order of the trees does not matter.
-/
namespace Nulleye.Scores
open Nulleye.Models

/-- `(fi < n_features) ? features[fi] : 0` where the feature exists. -/
def valueOf (features : List Int32) (nFeatures : Int32) (t : IfNode) : Int32 :=
  (featureOf features nFeatures t.featureIdx).getD 0

/-- `(val > thr) ? 1 : 5`. -/
def vote (features : List Int32) (nFeatures : Int32) (t : IfNode) : Int :=
  if t.threshold < valueOf features nFeatures t then 1 else 5

/-- The sum of the votes of some trees. -/
def total (features : List Int32) (nFeatures : Int32) (trees : List IfNode) : Int :=
  (trees.map (vote features nFeatures)).sum

/-- What is taken off 100 for the sum of the votes. -/
def loss (scoreAcc : Int) (nTrees maxDepth : Int32) : Int :=
  (scoreAcc.tdiv nTrees.toInt * 10).tdiv (if 0 < maxDepth then maxDepth.toInt else 1)

/-- The values of type `int` that a score goes through: `score_acc` before each tree and
    after the last one, `avg`, its product with 10, the quotient, and the difference. -/
def intermediates (f : Iforest) (features : List Int32) (nFeatures : Int32) : List Int :=
  let scoreAcc := total features nFeatures f.trees
  (List.range (f.trees.length + 1)).map (fun i => total features nFeatures (f.trees.take i)) ++
    [scoreAcc.tdiv f.nTrees.toInt,scoreAcc.tdiv f.nTrees.toInt * 10,loss scoreAcc f.nTrees f.maxDepth,
      100 - loss scoreAcc f.nTrees f.maxDepth]

/-! ### Sums of votes -/

theorem vote_bounds (features : List Int32) (nFeatures : Int32) (t : IfNode) :
    1 ≤ vote features nFeatures t ∧ vote features nFeatures t ≤ 5 := by
  unfold vote
  split_ifs <;> decide

@[simp] theorem total_nil (features : List Int32) (nFeatures : Int32) : total features nFeatures [] = 0 := rfl

@[simp] theorem total_cons (features : List Int32) (nFeatures : Int32) (t : IfNode) (trees : List IfNode) :
    total features nFeatures (t :: trees) = vote features nFeatures t + total features nFeatures trees :=
  List.sum_cons

theorem total_bounds (features : List Int32) (nFeatures : Int32) (trees : List IfNode) :
    trees.length ≤ total features nFeatures trees ∧ total features nFeatures trees ≤ 5 * trees.length := by
  induction trees with
  | nil => simp
  | cons t trees ih =>
    have here := vote_bounds features nFeatures t
    rw [total_cons,List.length_cons]
    omega

theorem total_perm {features : List Int32} {nFeatures : Int32} {trees trees' : List IfNode} (same : trees.Perm trees') :
    total features nFeatures trees = total features nFeatures trees' :=
  (same.map (vote features nFeatures)).sum_eq

/-- Where the votes are at most as high tree by tree, so is their sum. -/
theorem total_mono {features features' : List Int32} {nFeatures : Int32} {trees : List IfNode}
    (lower : ∀ t ∈ trees,vote features nFeatures t ≤ vote features' nFeatures t) :
    total features nFeatures trees ≤ total features' nFeatures trees := by
  induction trees with
  | nil => simp
  | cons t trees ih =>
    obtain ⟨here,rest⟩ := List.forall_mem_cons.mp lower
    rw [total_cons,total_cons]
    exact Int.add_le_add here (ih rest)

/-- The loop over the trees adds their votes up. -/
theorem scoreLoop_total {trees : List IfNode} {features : List Int32} {nFeatures : Int32}
    (indexed : ∀ t ∈ trees,(featureOf features nFeatures t.featureIdx).isSome) (n i : Nat)
    (inside : i + n ≤ trees.length) (acc : Int) (few : acc + 5 * n < 2 ^ 31) :
    scoreLoop trees features nFeatures n i acc = some (acc + total features nFeatures ((trees.drop i).take n)) := by
  induction n generalizing i acc with
  | zero => simp [scoreLoop]
  | succ n ih =>
    have here : i < trees.length := by omega
    obtain ⟨val,valued⟩ := Option.isSome_iff_exists.mp (indexed trees[i] (List.getElem_mem here))
    have voted : (if trees[i].threshold < val then 1 else 5) = vote features nFeatures trees[i] := by
      rw [vote,valueOf,valued,Option.getD_some]
    have step := vote_bounds features nFeatures trees[i]
    have fits : ¬ 2 ^ 31 ≤ acc + vote features nFeatures trees[i] := by omega
    have rest := ih (i + 1) (by omega) (acc + vote features nFeatures trees[i]) (by omega)
    simp only [scoreLoop,List.getElem?_eq_getElem here,Option.bind_eq_bind,Option.bind_some,valued,voted,if_neg fits,rest]
    rw [List.drop_eq_getElem_cons here,List.take_succ_cons,total_cons,Int.add_assoc]

/-! ### What is taken off -/

/-- The depth that a score divides by. -/
theorem depth_positive (maxDepth : Int32) : 1 ≤ (if 0 < maxDepth then maxDepth.toInt else 1) := by
  split_ifs with deep
  · exact Int32.lt_iff_toInt_lt.mp deep
  · exact Int.le_refl 1

theorem loss_bounds {scoreAcc : Int} {nTrees : Int32} (some_tree : 1 ≤ nTrees.toInt) (low : 0 ≤ scoreAcc)
    (high : scoreAcc ≤ 5 * nTrees.toInt) (maxDepth : Int32) :
    0 ≤ scoreAcc.tdiv nTrees.toInt ∧ scoreAcc.tdiv nTrees.toInt ≤ 5 ∧
      0 ≤ loss scoreAcc nTrees maxDepth ∧ loss scoreAcc nTrees maxDepth ≤ scoreAcc.tdiv nTrees.toInt * 10 := by
  have deep := depth_positive maxDepth
  have avg_low : 0 ≤ scoreAcc.tdiv nTrees.toInt := Int.tdiv_nonneg low (by omega)
  have avg_high : scoreAcc.tdiv nTrees.toInt ≤ 5 := by
    rw [Int.tdiv_eq_ediv_of_nonneg low]
    exact Int.ediv_le_of_le_mul (by omega) high
  refine ⟨avg_low,avg_high,Int.tdiv_nonneg (by omega) (by omega),?_⟩
  rw [loss,Int.tdiv_eq_ediv_of_nonneg (by omega)]
  exact Int.ediv_le_self _ (by omega)

theorem loss_mono {scoreAcc scoreAcc' : Int} {nTrees : Int32} (some_tree : 1 ≤ nTrees.toInt) (low : 0 ≤ scoreAcc)
    (lower : scoreAcc ≤ scoreAcc') (maxDepth : Int32) : loss scoreAcc nTrees maxDepth ≤ loss scoreAcc' nTrees maxDepth := by
  have deep := depth_positive maxDepth
  have avg : scoreAcc / nTrees.toInt ≤ scoreAcc' / nTrees.toInt := Int.ediv_le_ediv (by omega) lower
  have positive : 0 ≤ scoreAcc / nTrees.toInt := Int.ediv_nonneg low (by omega)
  rw [loss,loss,Int.tdiv_eq_ediv_of_nonneg low,Int.tdiv_eq_ediv_of_nonneg (Int.le_trans low lower),
    Int.tdiv_eq_ediv_of_nonneg (by omega),Int.tdiv_eq_ediv_of_nonneg (by omega)]
  exact Int.ediv_le_ediv (by omega) (by omega)

/-! ### Scores -/

/-- The forests of which a score is the difference to 100. -/
structure Scorable (f : Iforest) (features : List Int32) (nFeatures : Int32) : Prop where
  some_tree : 1 ≤ f.nTrees
  few : f.nTrees.toInt ≤ (2 ^ 31 - 1) / 5
  whole : f.trees.length = f.nTrees.toNatClampNeg
  indexed : ∀ t ∈ f.trees,(featureOf features nFeatures t.featureIdx).isSome

theorem Scorable.counted {f : Iforest} {features : List Int32} {nFeatures : Int32} (ready : Scorable f features nFeatures) :
    1 ≤ f.nTrees.toInt ∧ f.trees.length = f.nTrees.toInt := by
  have positive : 1 ≤ f.nTrees.toInt := Int32.le_iff_toInt_le.mp ready.some_tree
  refine ⟨positive,?_⟩
  rw [ready.whole]
  exact Int.toNat_of_nonneg (by omega)

theorem Scorable.sum {f : Iforest} {features : List Int32} {nFeatures : Int32} (ready : Scorable f features nFeatures) :
    0 ≤ total features nFeatures f.trees ∧ total features nFeatures f.trees ≤ 5 * f.nTrees.toInt := by
  obtain ⟨_,counted⟩ := ready.counted
  have bounds := total_bounds features nFeatures f.trees
  omega

/-- A score is what the sum of the votes leaves of 100; neither bound of it is reached. -/
theorem iforestScore_eq {f : Iforest} {features : List Int32} {nFeatures : Int32} (ready : Scorable f features nFeatures) :
    iforestScore (some f) (some features) nFeatures =
      some (100 - loss (total features nFeatures f.trees) f.nTrees f.maxDepth) := by
  obtain ⟨positive,counted⟩ := ready.counted
  obtain ⟨low,high⟩ := ready.sum
  have few := ready.few
  have added := scoreLoop_total ready.indexed f.nTrees.toNatClampNeg 0 (by rw [ready.whole]; omega) 0 (by
    rw [← ready.whole]
    omega)
  rw [List.drop_zero,← ready.whole,List.take_length,Int.zero_add] at added
  have nonzero : f.nTrees ≠ 0 := by
    intro zero
    rw [zero] at positive
    cases positive
  obtain ⟨avg_low,avg_high,loss_low,loss_high⟩ := loss_bounds positive low high f.maxDepth
  have same : loss (total features nFeatures f.trees) f.nTrees f.maxDepth =
      ((total features nFeatures f.trees).tdiv f.nTrees.toInt * 10).tdiv
        (if 0 < f.maxDepth then f.maxDepth.toInt else 1) := rfl
  simp only [iforestScore,← ready.whole,added,Option.bind_eq_bind,Option.bind_some,if_neg nonzero,Option.pure_def,← same]
  rw [if_neg (by omega),if_neg (by omega)]

/-! ### Higher features -/

theorem clamp_lt {a b : Int32} (nonneg : 0 ≤ a) (below : a < b) : a.toNatClampNeg < b.toNatClampNeg := by
  have positive : 0 ≤ a.toInt := Int32.le_iff_toInt_le.mp nonneg
  have ordered : a.toInt < b.toInt := Int32.lt_iff_toInt_lt.mp below
  change a.toInt.toNat < b.toInt.toNat
  omega

/-- A vector of `nFeatures` features has every feature that a node can name. -/
theorem featureOf_eq {features : List Int32} {nFeatures fi : Int32} (length : features.length = nFeatures.toNatClampNeg)
    (nonneg : 0 ≤ fi) : featureOf features nFeatures fi =
      some (if fi < nFeatures then features[fi.toNatClampNeg]?.getD 0 else 0) := by
  unfold featureOf featureAt
  by_cases below : fi < nFeatures
  · have inside : fi.toNatClampNeg < features.length := length ▸ clamp_lt nonneg below
    rw [if_pos below,if_pos below,if_neg (Int32.not_lt.mpr nonneg),List.getElem?_eq_getElem inside,
      Option.getD_some]
  · rw [if_neg below,if_neg below]

theorem vote_mono {x y : List Int32} {nFeatures : Int32} (length : x.length = nFeatures.toNatClampNeg)
    (lower : List.Forall₂ (· ≤ ·) x y) {t : IfNode} (nonneg : 0 ≤ t.featureIdx) :
    vote y nFeatures t ≤ vote x nFeatures t := by
  have values : valueOf x nFeatures t ≤ valueOf y nFeatures t := by
    rw [valueOf,valueOf,featureOf_eq length nonneg,featureOf_eq (lower.length_eq ▸ length) nonneg,Option.getD_some,
      Option.getD_some]
    by_cases below : t.featureIdx < nFeatures
    · have inside : t.featureIdx.toNatClampNeg < x.length := length ▸ clamp_lt nonneg below
      have inside' : t.featureIdx.toNatClampNeg < y.length := lower.length_eq ▸ inside
      rw [if_pos below,if_pos below,List.getElem?_eq_getElem inside,List.getElem?_eq_getElem inside']
      exact lower.get inside inside'
    · rw [if_neg below,if_neg below]
      exact Int32.le_refl 0
  unfold vote
  by_cases isolated : t.threshold < valueOf x nFeatures t
  · have raised := Int32.lt_of_lt_of_le isolated values
    simp [isolated,raised]
  · rw [if_neg isolated]
    split_ifs <;> decide

/-- A vector of `nFeatures` features makes every forest without negative features scorable. -/
theorem scorable {f : Iforest} (some_tree : 1 ≤ f.nTrees) (few : f.nTrees.toInt ≤ (2 ^ 31 - 1) / 5)
    (whole : f.trees.length = f.nTrees.toNatClampNeg) (nonneg : ∀ t ∈ f.trees,0 ≤ t.featureIdx) {nFeatures : Int32}
    {features : List Int32} (length : features.length = nFeatures.toNatClampNeg) : Scorable f features nFeatures := by
  refine ⟨some_tree,few,whole,?_⟩
  intro t member
  rw [featureOf_eq length (nonneg t member)]
  rfl

/-- The values that a score goes through are of type `int`. -/
theorem intermediates_fit {f : Iforest} {features : List Int32} {nFeatures : Int32} (ready : Scorable f features nFeatures) :
    ∀ v ∈ intermediates f features nFeatures,-2 ^ 31 ≤ v ∧ v < 2 ^ 31 := by
  obtain ⟨positive,counted⟩ := ready.counted
  obtain ⟨low,high⟩ := ready.sum
  have few := ready.few
  obtain ⟨avg_low,avg_high,loss_low,loss_high⟩ := loss_bounds positive low high f.maxDepth
  intro v member
  rcases List.mem_append.mp member with partial_sum | behind
  · obtain ⟨i,_,rfl⟩ := List.mem_map.mp partial_sum
    have bounds := total_bounds features nFeatures (f.trees.take i)
    have shorter := List.length_take_le' i f.trees
    omega
  · simp only [List.mem_cons,List.not_mem_nil,or_false] at behind
    rcases behind with rfl | rfl | rfl | rfl <;> omega

/-- **Scores rise with the features and lie between 50 and 100.** No value on the way
    leaves `int`, and the order of the trees does not matter. -/
theorem iforest_score_monotone {f : Iforest} (some_tree : 1 ≤ f.nTrees) (few : f.nTrees.toInt ≤ (2 ^ 31 - 1) / 5)
    (whole : f.trees.length = f.nTrees.toNatClampNeg) (nonneg : ∀ t ∈ f.trees,0 ≤ t.featureIdx) (nFeatures : Int32)
    {x y : List Int32} (length : x.length = nFeatures.toNatClampNeg) (lower : List.Forall₂ (· ≤ ·) x y) :
    ∃ a b,iforestScore (some f) (some x) nFeatures = some a ∧ iforestScore (some f) (some y) nFeatures = some b ∧
      50 ≤ a ∧ a ≤ b ∧ b ≤ 100 ∧ (∀ v ∈ intermediates f x nFeatures,-2 ^ 31 ≤ v ∧ v < 2 ^ 31) ∧
      ∀ trees,f.trees.Perm trees → iforestScore (some { f with trees := trees }) (some x) nFeatures = some a := by
  have ready : Scorable f x nFeatures := scorable some_tree few whole nonneg length
  have ready' : Scorable f y nFeatures := scorable some_tree few whole nonneg (lower.length_eq ▸ length)
  obtain ⟨positive,_⟩ := ready.counted
  obtain ⟨low,high⟩ := ready.sum
  obtain ⟨low',high'⟩ := ready'.sum
  obtain ⟨_,avg_high,_,loss_high⟩ := loss_bounds positive low high f.maxDepth
  obtain ⟨_,_,loss_low',_⟩ := loss_bounds positive low' high' f.maxDepth
  have votes : total y nFeatures f.trees ≤ total x nFeatures f.trees :=
    total_mono fun t member => vote_mono length lower (nonneg t member)
  have ordered := loss_mono positive low' votes f.maxDepth
  refine ⟨_,_,iforestScore_eq ready,iforestScore_eq ready',by omega,by omega,by omega,intermediates_fit ready,?_⟩
  intro trees same
  have reordered : Scorable { f with trees := trees } x nFeatures :=
    @scorable { f with trees := trees } some_tree few (same.length_eq ▸ whole)
      (fun t member => nonneg t (same.mem_iff.mpr member)) _ _ length
  rw [iforestScore_eq reordered,total_perm same]

/-- Two trees, one of them of a feature that is not there. -/
theorem iforest_score_monotone_two :
    ∃ a b,iforestScore (some ⟨2,8,[⟨0,50⟩,⟨9,50⟩]⟩) (some [40]) 1 = some a ∧
      iforestScore (some ⟨2,8,[⟨0,50⟩,⟨9,50⟩]⟩) (some [60]) 1 = some b ∧ 50 ≤ a ∧ a ≤ b ∧ b ≤ 100 ∧
      (∀ v ∈ intermediates ⟨2,8,[⟨0,50⟩,⟨9,50⟩]⟩ [40] 1,-2 ^ 31 ≤ v ∧ v < 2 ^ 31) ∧
      ∀ trees,[⟨0,50⟩,⟨9,50⟩].Perm trees → iforestScore (some ⟨2,8,trees⟩) (some [40]) 1 = some a :=
  iforest_score_monotone (by decide) (by decide) rfl (by decide) 1 rfl (.cons (by decide) .nil)

end Nulleye.Scores
