import Nulleye.Consumers
import Nulleye.Scores

/-!
The alarms of the AI engine. The forests that the engine makes for itself have depth 8,
and the average vote is at most 5: at most 6 is taken off the 100 of a score, which so
never falls below the threshold of 85. Every event is alerted.
-/
namespace Nulleye.Alarms
open Nulleye.Events Nulleye.Models Nulleye.Scores Nulleye.Consumers

/-- Of no tree the feature exceeds the threshold. -/
def NoneIsolates (f : Iforest) (x : List Int32) : Prop :=
  ∀ t ∈ f.trees,∀ val ∈ featureOf x featureCount t.featureIdx,val ≤ t.threshold

/-- Features with a score below `g_threshold`, for which `ai_thread` raises no alert. -/
def Quiet (f : Iforest) (x : List Int32) : Prop :=
  (∃ score,iforestScore (some f) (some x) featureCount = some score ∧ score < 85) ∧
    ∀ hour random ev r,r.gModel = f → aiExtractFeatures hour ev = some x →
      ∃ after,aiThread hour random ev r = some after ∧ after.alerts = r.alerts

/-- A sum of votes that did not overflow. -/
theorem scoreLoop_bounds {trees : List IfNode} {features : List Int32} {nFeatures : Int32} {n i : Nat} {acc sum : Int}
    (ran : scoreLoop trees features nFeatures n i acc = some sum) : acc ≤ sum ∧ sum ≤ acc + 5 * n := by
  induction n generalizing i acc with
  | zero =>
    cases ran
    omega
  | succ n ih =>
    obtain ⟨t,_,ran⟩ := Option.bind_eq_some_iff.mp ran
    obtain ⟨val,_,ran⟩ := Option.bind_eq_some_iff.mp ran
    dsimp only at ran
    split_ifs at ran with isolated
    · have rest := ih ran
      omega
    · have rest := ih ran
      omega

/-- The forests of the engine leave 94 or more. -/
theorem made_score {random : Random} {n : Int32} {f : Iforest} (some_tree : 1 ≤ n)
    (made : iforestInit random n 8 = some f) {x : List Int32} {nFeatures : Int32} {score : Int}
    (scored : iforestScore (some f) (some x) nFeatures = some score) : 94 ≤ score := by
  have positive : 1 ≤ n.toInt := Int32.le_iff_toInt_le.mp some_tree
  obtain ⟨trees,rfl⟩ : ∃ trees,f = ⟨n,8,trees⟩ := by
    unfold iforestInit at made
    split_ifs at made
    cases made
    exact ⟨_,rfl⟩
  obtain ⟨sum,ran,scored⟩ := Option.bind_eq_some_iff.mp scored
  obtain ⟨low,high⟩ := scoreLoop_bounds ran
  have count : (n.toNatClampNeg : Int) = n.toInt := Int.toNat_of_nonneg (by omega)
  dsimp only at scored high
  rw [count] at high
  obtain ⟨_,avg_high,loss_low,_⟩ := loss_bounds positive low (by omega) 8
  have depth : loss sum n 8 = (sum.tdiv n.toInt * 10).tdiv 8 := rfl
  rw [Int.tdiv_eq_ediv_of_nonneg (by omega)] at depth
  have same : (sum.tdiv n.toInt * 10).tdiv (if (0 : Int32) < 8 then (8 : Int32).toInt else 1) = loss sum n 8 := rfl
  rw [same] at scored
  split_ifs at scored
  all_goals cases scored
  all_goals omega

/-- With a forest of the engine's own no features are quiet, whatever the trees vote:
    every event that is scored is alerted. -/
theorem never_quiet {random : Random} {n : Int32} {f : Iforest} (some_tree : 1 ≤ n)
    (made : iforestInit random n 8 = some f) (x : List Int32) :
    ¬ Quiet f x ∧
      ∀ hour random' ev r after,r.gModel = f → aiExtractFeatures hour ev = some x →
        aiThread hour random' ev r = some after → after.alerts = r.alerts ++ [ev] := by
  constructor
  · rintro ⟨⟨score,scored,below⟩,_⟩
    have high := made_score some_tree made scored
    omega
  · intro hour random' ev r after model features ran
    simp only [aiThread,features,model,Option.bind_eq_bind,Option.bind_some] at ran
    obtain ⟨score,scored,ran⟩ := Option.bind_eq_some_iff.mp ran
    have high := made_score some_tree made scored
    have reached : 85 ≤ score := by omega
    simp only [if_pos reached] at ran
    generalize (if r.wcount < 10000 then r.wcount + 1 else r.wcount) = wcount at ran
    split_ifs at ran
    · obtain ⟨_,_,rfl⟩ := Option.map_eq_some_iff.mp ran
      rfl
    · cases ran
      rfl

/-- One tree. -/
theorem never_quiet_one :
    ¬ Quiet ⟨1,8,[⟨0,0⟩]⟩ [0,0,0,0,0,0] ∧
      ∀ hour random' ev r after,r.gModel = ⟨1,8,[⟨0,0⟩]⟩ → aiExtractFeatures hour ev = some [0,0,0,0,0,0] →
        aiThread hour random' ev r = some after → after.alerts = r.alerts ++ [ev] :=
  @never_quiet ⟨true,fun _ => 0⟩ 1 _ (by decide) rfl [0,0,0,0,0,0]

/-- No tree of the engine's first forest isolates an event whose features are all zero, and the event is alerted. -/
theorem unisolated_alerted :
    ¬ ∀ (random : Random) (n : Int32) (f : Iforest) (x : List Int32),1 ≤ n → iforestInit random n 8 = some f →
      x.length = 6 → NoneIsolates f x → Quiet f x := by
  intro always
  have made : iforestInit ⟨true,fun _ => 0⟩ 32 8 = some ⟨32,8,List.replicate 32 ⟨0,0⟩⟩ := by decide
  obtain ⟨⟨score,scored,below⟩,_⟩ := always _ 32 _ [0,0,0,0,0,0] (by decide) made rfl (by
    intro t member val valued
    obtain rfl := List.eq_of_mem_replicate member
    cases valued
    decide)
  have high := made_score (by decide) made scored
  omega

end Nulleye.Alarms
