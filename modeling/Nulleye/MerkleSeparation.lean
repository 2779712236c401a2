import Mathlib.Data.Finset.Card
import Nulleye.Codecs
import Nulleye.MerkleTamper

/-!
Which leaves have the same root for every hash function. If two lists are not alike, some
hash function gives their trees different roots: its digests say on which level they are
and what is kept there of one leaf, marked by bytes that occur at this place in no leaf.
-/
namespace Nulleye.MerkleSeparation
open Nulleye.HashTrees Nulleye.MerkleRoot Nulleye.MerkleTamper Nulleye.Codecs

/-- The bytes of a digest: a level, a flag and a mark. -/
def labelBytes (mark k : Nat) (flag : Bool) : Bytes := UInt8.ofNat k :: (if flag then 1 else 0) :: leBytes 30 mark

theorem labelBytes_length (mark k : Nat) (flag : Bool) : (labelBytes mark k flag).length = 32 := by
  simp [labelBytes,leBytes_length]

def label (mark k : Nat) (flag : Bool) : Digest := ⟨(labelBytes mark k flag).toArray,by simp [labelBytes_length]⟩

@[simp] theorem label_toList (mark k : Nat) (flag : Bool) : (label mark k flag).toList = labelBytes mark k flag := rfl

theorem label_injective {mark k k' : Nat} {flag flag' : Bool} (small : k < 256) (small' : k' < 256)
    (same : label mark k flag = label mark k' flag') : k = k' ∧ flag = flag' := by
  have bytes := congrArg Vector.toList same
  simp only [label_toList,labelBytes,List.cons.injEq] at bytes
  obtain ⟨levels,flags,_⟩ := bytes
  constructor
  · have numbers := congrArg UInt8.toNat levels
    simpa [Nat.mod_eq_of_lt small,Nat.mod_eq_of_lt small'] using numbers
  · cases flag <;> cases flag' <;> simp at flags ⊢

/-- The place of the mark in a pair of digests. -/
def markOf (s : Bytes) : Bytes := (s.drop 2).take 30

/-- Pairs of digests are read as such by their mark, and all other strings as leaves. -/
def separating (mark : Nat) (a : Bytes) (second : Nat → Bool) (s : Bytes) : Digest :=
  if markOf s = leBytes 30 mark then
    label mark ((s.headD 0).toNat + 1) (if second (s.headD 0).toNat then s.getD 33 0 ≠ 0 else s.getD 1 0 ≠ 0)
  else label mark 0 (s = a)

theorem separating_leaf {mark : Nat} {s : Bytes} (unmarked : markOf s ≠ leBytes 30 mark) (a : Bytes) (second : Nat → Bool) :
    separating mark a second s = label mark 0 (s = a) := by
  rw [separating,if_neg unmarked]

theorem separating_pair (mark : Nat) (a : Bytes) (second : Nat → Bool) {k : Nat} (small : k < 256) (x y : Bool) :
    separating mark a second (concat (label mark k x,label mark k y)) = label mark (k + 1) (if second k then y else x) := by
  have length := leBytes_length 30 mark
  have marked : markOf (concat (label mark k x,label mark k y)) = leBytes 30 mark := by
    simp [markOf,concat,labelBytes,length]
  have level : ((concat (label mark k x,label mark k y)).headD 0).toNat = k := by
    simp [concat,labelBytes,Nat.mod_eq_of_lt small]
  have first : (concat (label mark k x,label mark k y)).getD 1 0 = if x then 1 else 0 := by
    simp [concat,labelBytes]
  have later : (concat (label mark k x,label mark k y)).getD 33 0 = if y then 1 else 0 := by
    have outside : (labelBytes mark k x).length ≤ 33 := by simp [labelBytes_length]
    rw [concat,label_toList,label_toList,List.getD_eq_getElem?_getD,List.getElem?_append_right outside,labelBytes_length]
    simp [labelBytes]
  rw [separating,if_pos marked,level,first,later]
  cases second k <;> cases x <;> cases y <;> rfl

/-- There is a mark that no leaf has. -/
theorem exists_mark {leaves : List Bytes} (few : leaves.length < 256 ^ 30) : ∃ mark,∀ s ∈ leaves,markOf s ≠ leBytes 30 mark := by
  by_contra every
  push Not at every
  have covered : Finset.range (256 ^ 30) ⊆ (leaves.toFinset.image fun s => leValue (markOf s)) := by
    intro mark inside
    obtain ⟨s,member,marked⟩ := every mark
    refine Finset.mem_image.mpr ⟨s,by simpa using member,?_⟩
    rw [marked,leValue_leBytes (by simpa using inside)]
  have many := (Finset.card_le_card covered).trans (Finset.card_image_le.trans leaves.toFinset_card_le)
  rw [Finset.card_range] at many
  omega

/-- The root under a separating hash function: the height, and what is kept of the leaf `a`. -/
theorem root_separating {mark : Nat} {l : List Bytes} (nonempty : l ≠ []) (unmarked : ∀ s ∈ l,markOf s ≠ leBytes 30 mark)
    (low : height l ≤ 255) (a : Bytes) (second : Nat → Bool) :
    ∃ flag,picks second 0 (height l) (l.map fun s => decide (s = a)) = [flag] ∧
      root (separating mark a second) concat (l.map (separating mark a second)) = some (label mark (height l) flag) := by
  have leaves : l.map (separating mark a second) = (l.map fun s => decide (s = a)).map (label mark 0) := by
    rw [List.map_map]
    exact List.map_congr_left fun s member => separating_leaf (unmarked s member) a second
  have up : ∀ j < 255,∀ x y,separating mark a second (concat (label mark j x,label mark j y)) =
      label mark (j + 1) (if second j then y else x) := fun j below x y => separating_pair mark a second (by omega) x y
  have picked := lift_picks (k := 0) (n := height l) up (by omega) (l.map fun s => decide (s = a))
  obtain ⟨d,top,lifted⟩ := lift_height (separating mark a second) concat (l := l.map (separating mark a second)) (by simpa using nonempty)
  rw [height_map,leaves,picked,Nat.zero_add,List.map_eq_singleton_iff] at lifted
  obtain ⟨flag,kept,rfl⟩ := lifted
  exact ⟨flag,kept,top⟩

theorem exists_flag {α : Type} [DecidableEq α] {l l' : List α} (different : l ≠ l') :
    ∃ a,(l.map fun x => decide (x = a)) ≠ l'.map fun x => decide (x = a) := by
  induction l generalizing l' with
  | nil =>
    cases l' with
    | nil => exact absurd rfl different
    | cons y _ => exact ⟨y,by simp⟩
  | cons x rest ih =>
    cases l' with
    | nil => exact ⟨x,by simp⟩
    | cons y rest' =>
      by_cases same : x = y
      · subst same
        obtain ⟨a,flags⟩ := ih fun tails => different (by rw [tails])
        exact ⟨a,fun equal => flags (List.cons.inj equal).2⟩
      · exact ⟨x,by simp [Ne.symm same]⟩

theorem height_low {l : List Bytes} (few : l.length < 2 ^ 64) : height l ≤ 255 := by
  unfold height
  calc Nat.clog 2 l.length ≤ Nat.clog 2 (2 ^ 64) := Nat.clog_mono_right 2 few.le
    _ ≤ 255 := by rw [Nat.clog_pow 2 64 (by omega)]; omega

/-- Two lists of leaves have one root for every hash function exactly if they are alike. -/
theorem roots_iff_alike {l l' : List Bytes} (nonempty : l ≠ []) (nonempty' : l' ≠ []) (few : l.length < 2 ^ 64)
    (few' : l'.length < 2 ^ 64) :
    (∀ H : Bytes → Digest,root H concat (l.map H) = root H concat (l'.map H)) ↔ Alike l l' := by
  constructor
  · intro same
    have scarce : (l ++ l').length < 256 ^ 30 := by rw [List.length_append]; omega
    obtain ⟨mark,unmarked⟩ := exists_mark scarce
    have roots := fun (a : Bytes) (second : Nat → Bool) => same (separating mark a second)
    have separated : ∀ a second,height l = height l' ∧
        picks second 0 (height l) (l.map fun s => decide (s = a)) = picks second 0 (height l) (l'.map fun s => decide (s = a)) := by
      intro a second
      obtain ⟨flag,kept,top⟩ := root_separating nonempty (fun s member => unmarked s (by simp [member])) (height_low few) a second
      obtain ⟨flag',kept',top'⟩ := root_separating nonempty' (fun s member => unmarked s (by simp [member])) (height_low few') a second
      have equal := roots a second
      rw [top,top'] at equal
      have low := height_low few
      have low' := height_low few'
      obtain ⟨levels,flags⟩ := label_injective (by omega) (by omega) (Option.some.inj equal)
      exact ⟨levels,by rw [kept,levels,kept',flags]⟩
    refine ⟨(separated [] fun _ => false).1,?_⟩
    by_contra different
    obtain ⟨a,flags⟩ := exists_flag different
    rw [← complete_map,← complete_map] at flags
    obtain ⟨second,apart⟩ := exists_picks (height l) 0 flags
    exact apart (separated a second).2
  · intro alike H
    exact root_of_alike (by simpa using nonempty) (by simpa using nonempty') (alike.map H)

end Nulleye.MerkleSeparation
