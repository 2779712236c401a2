import Mathlib.Data.List.Basic
import Mathlib.Data.Nat.Log
import Mathlib.Logic.Function.Basic

/-!
Hash trees over lists of digests: every level pairs its neighbours, the last digest
of an odd level with itself, and hashes each pair. Equal roots at equal heights mean
equal leaves, once every odd level is completed by its repeated last node, or two
different hashed strings with one digest.
-/
namespace Nulleye.HashTrees

universe u

/-! ### Pairs of neighbours -/

section Pairs
variable {α β : Type u}

/-- The neighbours of a list, the last element of an odd list paired with itself. -/
def pairs : List α → List (α × α)
  | [] => []
  | [a] => [(a,a)]
  | a :: b :: rest => (a,b) :: pairs rest

theorem pairs_length (l : List α) : (pairs l).length = (l.length + 1) / 2 := by
  fun_induction pairs l with
  | case1 => simp
  | case2 a => simp
  | case3 a b rest ih => simp only [List.length_cons,ih]; omega

theorem pairs_map (f : α → β) (l : List α) : pairs (l.map f) = (pairs l).map (Prod.map f f) := by
  fun_induction pairs l with
  | case1 => rfl
  | case2 a => rfl
  | case3 a b rest ih => simp [pairs,ih]

/-- The pair at a position has the two elements there, or the last element twice. -/
theorem pairs_getElem? (l : List α) (i : Nat) : (pairs l)[i]? =
    l[i * 2]?.map (fun a => (a,(l[i * 2 + 1]?).getD a)) := by
  fun_induction pairs l generalizing i with
  | case1 => simp
  | case2 a =>
    cases i with
    | zero => rfl
    | succ i => simp [Nat.succ_mul]
  | case3 a b rest ih =>
    cases i with
    | zero => rfl
    | succ i => simp only [List.getElem?_cons_succ,ih,Nat.succ_mul]

theorem mem_pairs {l : List α} {p : α × α} (member : p ∈ pairs l) : p.1 ∈ l ∧ p.2 ∈ l := by
  fun_induction pairs l with
  | case1 => cases member
  | case2 a =>
    obtain rfl := List.mem_singleton.mp member
    simp
  | case3 a b rest ih =>
    rcases List.mem_cons.mp member with rfl | later
    · simp
    · obtain ⟨first,second⟩ := ih later
      exact ⟨by simp [first],by simp [second]⟩

/-- A list is the beginning of its pairs put one after the other. -/
theorem prefix_pairs (l : List α) : l <+: (pairs l).flatMap (fun p => [p.1,p.2]) := by
  fun_induction pairs l with
  | case1 => simp
  | case2 a => exact ⟨[a],rfl⟩
  | case3 a b rest ih =>
    obtain ⟨more,whole⟩ := ih
    exact ⟨more,by simp [← whole]⟩

theorem flatMap_pairs_injective {l l' : List (α × α)}
    (same : l.flatMap (fun p => [p.1,p.2]) = l'.flatMap (fun p => [p.1,p.2])) : l = l' := by
  induction l generalizing l' with
  | nil =>
    cases l' with
    | nil => rfl
    | cons p' rest' => simp at same
  | cons p rest ih =>
    cases l' with
    | nil => simp at same
    | cons p' rest' =>
      simp only [List.flatMap_cons,List.cons_append,List.nil_append,List.cons.injEq] at same
      obtain ⟨first,second,later⟩ := same
      rw [Prod.ext first second,ih later]

end Pairs

/-! ### Completed lists -/

/-- A list completed to the leaves of a tree of height `h`: on every level of odd
    length the last node, with all leaves below it, is repeated. -/
def complete : (h : Nat) → {α : Type u} → List α → List α
  | 0, _, l => l
  | h + 1, _, l => (complete h (pairs l)).flatMap (fun p => [p.1,p.2])

section Complete
variable {α β : Type u}

theorem complete_map (f : α → β) (h : Nat) (l : List α) : complete h (l.map f) = (complete h l).map f := by
  induction h generalizing α β with
  | zero => rfl
  | succ h ih =>
    rw [complete,complete,pairs_map,ih,List.flatMap_map,List.map_flatMap]
    rfl

/-- Completing repeats elements and adds none. -/
theorem mem_complete {h : Nat} {l : List α} {x : α} (member : x ∈ complete h l) : x ∈ l := by
  induction h generalizing α with
  | zero => exact member
  | succ h ih =>
    rw [complete,List.mem_flatMap] at member
    obtain ⟨p,paired,either⟩ := member
    obtain ⟨first,second⟩ := mem_pairs (ih paired)
    rcases List.mem_pair.mp either with rfl | rfl
    · exact first
    · exact second

/-- A list is the beginning of the completed list. -/
theorem prefix_complete (h : Nat) (l : List α) : l <+: complete h l := by
  induction h generalizing α with
  | zero => exact List.prefix_refl l
  | succ h ih =>
    obtain ⟨more,whole⟩ := ih (pairs l)
    refine (prefix_pairs l).trans ⟨more.flatMap (fun p => [p.1,p.2]),?_⟩
    rw [complete,← whole,List.flatMap_append]

/-- Lists of one length are equal when they are completed to the same list. -/
theorem complete_injective {h : Nat} {l l' : List α} (length : l.length = l'.length)
    (same : complete h l = complete h l') : l = l' := by
  have first := prefix_complete h l
  rw [same] at first
  exact (List.prefix_of_prefix_length_le first (prefix_complete h l') length.le).eq_of_length length

end Complete

/-! ### Trees -/

section Trees
variable {M D : Type u} (H : M → D) (both : D × D → M)

/-- The digests one level up. -/
def level (l : List D) : List D := (pairs l).map (fun p => H (both p))

/-- The digests `h` levels up. -/
def lift : Nat → List D → List D
  | 0, l => l
  | h + 1, l => lift h (level H both l)

/-- The strings hashed on `h` levels. -/
def strings : Nat → List D → List M
  | 0, _ => []
  | h + 1, l => (pairs l).map both ++ strings h (level H both l)

theorem level_length (l : List D) : (level H both l).length = (l.length + 1) / 2 := by
  rw [level,List.length_map,pairs_length]

/-- The root of a tree over the digests of its leaves. -/
def root : List D → Option D
  | [] => none
  | [d] => some d
  | a :: b :: rest => root (level H both (a :: b :: rest))
termination_by l => l.length
decreasing_by
  rw [level_length]
  simp only [List.length_cons]
  omega

/-- How many levels a tree has above its leaves. -/
def height {α : Type u} (l : List α) : Nat := Nat.clog 2 l.length

@[simp] theorem height_map {α β : Type u} (f : α → β) (l : List α) : height (l.map f) = height l := by
  rw [height,height,List.length_map]

theorem height_level {l : List D} (two : 2 ≤ l.length) : height l = height (level H both l) + 1 := by
  rw [height,height,level_length,Nat.clog_of_two_le (by omega) two]
  rfl

/-- The root is what remains on the highest level. -/
theorem lift_height {l : List D} (nonempty : l ≠ []) :
    ∃ d, root H both l = some d ∧ lift H both (height l) l = [d] := by
  fun_induction root H both l with
  | case1 => exact absurd rfl nonempty
  | case2 d => exact ⟨d,rfl,by simp [height,lift]⟩
  | case3 a b rest ih =>
    have more : level H both (a :: b :: rest) ≠ [] := by simp [level,pairs]
    obtain ⟨d,top,lifted⟩ := ih more
    exact ⟨d,top,by rw [height_level H both (by simp)]; exact lifted⟩

/-- Two different strings of a list have one digest. -/
def Collision (strings : List M) : Prop := ∃ x ∈ strings, ∃ y ∈ strings, x ≠ y ∧ H x = H y

variable {H}

theorem Collision.symm {l l' : List M} (collision : Collision H (l ++ l')) : Collision H (l' ++ l) := by
  simpa only [Collision,List.mem_append,or_comm] using collision

theorem Collision.mono {part all : List M} (collision : Collision H part) (inside : part ⊆ all) : Collision H all := by
  obtain ⟨x,first,y,second,different,same⟩ := collision
  exact ⟨x,inside first,y,inside second,different,same⟩

/-- Lists of strings with equal digests are equal or collide. -/
theorem map_eq_or_collision {l l' : List M} (same : l.map H = l'.map H) : l = l' ∨ Collision H (l ++ l') := by
  induction l generalizing l' with
  | nil =>
    left
    simpa using same.symm
  | cons x rest ih =>
    cases l' with
    | nil => simp at same
    | cons y rest' =>
      simp only [List.map_cons,List.cons.injEq] at same
      obtain ⟨first,later⟩ := same
      by_cases equal : x = y
      · rcases ih later with tails | collision
        · exact .inl (by rw [equal,tails])
        · exact .inr (collision.mono (by intro z; simp; tauto))
      · exact .inr ⟨x,by simp,y,by simp,equal,first⟩

variable {both}

/-- Equal digests `h` levels up mean equal completed lists or a collision on these levels. -/
theorem lift_eq (injective : Function.Injective both) (h : Nat) {l l' : List D}
    (same : lift H both h l = lift H both h l') :
    complete h l = complete h l' ∨ Collision H (strings H both h l ++ strings H both h l') := by
  induction h generalizing l l' with
  | zero => exact .inl same
  | succ h ih =>
    rcases ih same with equal | collision
    · -- One level up the completed lists are the digests of the completed pairs.
      have digests : ∀ l : List D, complete h (level H both l) = ((complete h (pairs l)).map both).map H := by
        intro l
        rw [level,complete_map,List.map_map]
        rfl
      rw [digests,digests] at equal
      rcases map_eq_or_collision equal with strings | collision
      · left
        rw [complete,complete,injective.list_map strings]
      · refine .inr (collision.mono ?_)
        have hashed : ∀ (l : List D) x, x ∈ (complete h (pairs l)).map both → x ∈ strings H both (h + 1) l := by
          intro l x member
          obtain ⟨p,paired,rfl⟩ := List.mem_map.mp member
          exact List.mem_append_left _ (List.mem_map_of_mem (mem_complete paired))
        intro x member
        rcases List.mem_append.mp member with first | second
        · exact List.mem_append_left _ (hashed l x first)
        · exact List.mem_append_right _ (hashed l' x second)
    · refine .inr (collision.mono ?_)
      intro x member
      rcases List.mem_append.mp member with first | second
      · exact List.mem_append_left _ (List.mem_append_right _ first)
      · exact List.mem_append_right _ (List.mem_append_right _ second)

/-- Equal completed lists have equal digests `h` levels up, whatever is hashed. -/
theorem lift_of_complete (h : Nat) {l l' : List D} (same : complete h l = complete h l') :
    lift H both h l = lift H both h l' := by
  induction h generalizing l l' with
  | zero => exact same
  | succ h ih =>
    have paired := flatMap_pairs_injective same
    refine ih ?_
    rw [level,level,complete_map,complete_map,paired]

/-- Above the leaves every digest is that of a hashed pair. -/
theorem mem_lift_succ {h : Nat} {l : List D} {d : D} (member : d ∈ lift H both (h + 1) l) :
    ∃ p, d = H (both p) ∧ both p ∈ strings H both (h + 1) l := by
  induction h generalizing l with
  | zero =>
    obtain ⟨p,paired,rfl⟩ := List.mem_map.mp member
    exact ⟨p,rfl,List.mem_append_left _ (List.mem_map_of_mem paired)⟩
  | succ h ih =>
    obtain ⟨p,digest,hashed⟩ := ih (l := level H both l) member
    exact ⟨p,digest,List.mem_append_right _ hashed⟩

theorem lift_add (k h : Nat) (l : List D) : lift H both (k + h) l = lift H both h (lift H both k l) := by
  induction k generalizing l with
  | zero => rw [Nat.zero_add]; rfl
  | succ k ih =>
    rw [Nat.succ_add]
    exact ih (level H both l)

theorem strings_subset (k h : Nat) (l : List D) : strings H both h (lift H both k l) ⊆ strings H both (k + h) l := by
  induction k generalizing l with
  | zero => rw [Nat.zero_add]; exact fun _ member => member
  | succ k ih =>
    rw [Nat.succ_add]
    exact fun x member => List.mem_append_right _ (ih (level H both l) member)

theorem strings_mono (k h : Nat) (l : List D) : strings H both k l ⊆ strings H both (k + h) l := by
  induction k generalizing l with
  | zero => exact List.nil_subset _
  | succ k ih =>
    rw [Nat.succ_add]
    exact List.append_subset.mpr ⟨List.subset_append_left _ _,
      List.Subset.trans (ih (level H both l)) (List.subset_append_right _ _)⟩

/-- Equal roots mean a collision, or equal heights and equal completed leaves, or that
    the first leaf of the lower tree is the digest of a pair hashed in the higher tree. -/
theorem root_eq (injective : Function.Injective both) {l l' : List D} (nonempty : l ≠ []) (nonempty' : l' ≠ [])
    (lower : height l ≤ height l') (same : root H both l = root H both l') :
    Collision H (strings H both (height l) l ++ strings H both (height l') l') ∨
      (height l = height l' ∧ complete (height l) l = complete (height l) l') ∨
      (height l < height l' ∧ ∃ p, l.head? = some (H (both p)) ∧ both p ∈ strings H both (height l') l') := by
  obtain ⟨d,top,lifted⟩ := lift_height H both nonempty
  obtain ⟨d',top',lifted'⟩ := lift_height H both nonempty'
  rw [top,top',Option.some.injEq] at same
  subst same
  obtain ⟨k,heights⟩ := Nat.exists_eq_add_of_le' lower
  rw [heights,lift_add] at lifted'
  rcases lift_eq injective (height l) (lifted.trans lifted'.symm) with equal | collision
  · cases k with
    | zero => exact .inr (.inl ⟨by omega,equal⟩)
    | succ k =>
      -- The completed lists begin with the first leaf of one tree and with an inner digest of the other.
      obtain ⟨a,rest,rfl⟩ := List.exists_cons_of_ne_nil nonempty
      have begins : a ∈ complete (height (a :: rest)) (lift H both (k + 1) l') := by
        rw [← equal]
        exact (prefix_complete _ _).subset List.mem_cons_self
      obtain ⟨p,digest,hashed⟩ := mem_lift_succ (mem_complete begins)
      refine .inr (.inr ⟨by omega,p,by rw [List.head?_cons,digest],?_⟩)
      rw [heights]
      exact (strings_mono _ _ _) hashed
  · refine .inl (collision.mono ?_)
    intro x member
    rcases List.mem_append.mp member with first | second
    · exact List.mem_append_left _ first
    · rw [heights]
      exact List.mem_append_right _ (strings_subset k _ l' second)

/-- Equal heights, and equal elements once both lists are completed. -/
def Alike {α : Type u} (l l' : List α) : Prop :=
  height l = height l' ∧ complete (height l) l = complete (height l) l'

theorem Alike.map {α β : Type u} {l l' : List α} (alike : Alike l l') (f : α → β) : Alike (l.map f) (l'.map f) := by
  obtain ⟨level,equal⟩ := alike
  refine ⟨by rw [height_map,height_map,level],?_⟩
  rw [height_map,complete_map,complete_map,equal]

/-- Leaves that are alike have one root. -/
theorem root_of_alike {l l' : List D} (nonempty : l ≠ []) (nonempty' : l' ≠ []) (alike : Alike l l') :
    root H both l = root H both l' := by
  obtain ⟨level,equal⟩ := alike
  obtain ⟨d,top,lifted⟩ := lift_height H both nonempty
  obtain ⟨d',top',lifted'⟩ := lift_height H both nonempty'
  have same : lift H both (height l) l = lift H both (height l) l' := lift_of_complete _ equal
  rw [← level] at lifted'
  rw [lifted,lifted'] at same
  rw [top,top',List.singleton_inj.mp same]

/-! ### Telling trees apart -/

/-- Going up `n` levels from level `k`, a node keeps what the first or what the second of its children kept. -/
def picks {α : Type u} (second : Nat → Bool) : Nat → Nat → List α → List α
  | _, 0, l => l
  | k, n + 1, l => picks second (k + 1) n ((pairs l).map fun p => if second k then p.2 else p.1)

theorem picks_map {α β : Type u} (second : Nat → Bool) (f : α → β) (k n : Nat) (l : List α) :
    picks second k n (l.map f) = (picks second k n l).map f := by
  induction n generalizing k l with
  | zero => rfl
  | succ n ih =>
    rw [picks,picks,← ih,pairs_map,List.map_map,List.map_map]
    congr 1
    refine List.map_congr_left fun p _ => ?_
    cases second k <;> rfl

theorem picks_congr {α : Type u} {first second : Nat → Bool} {k : Nat} (same : ∀ j,k ≤ j → first j = second j) (n : Nat)
    (l : List α) : picks first k n l = picks second k n l := by
  induction n generalizing k l with
  | zero => rfl
  | succ n ih =>
    rw [picks,picks,same k (Nat.le_refl k)]
    exact ih (fun j above => same j (by omega)) _

/-- Lists that are completed to different ones are told apart by what some choices keep. -/
theorem exists_picks {α : Type u} (h k : Nat) {l l' : List α} (different : complete h l ≠ complete h l') :
    ∃ second,picks second k h l ≠ picks second k h l' := by
  induction h generalizing α k with
  | zero => exact ⟨fun _ => false,different⟩
  | succ h ih =>
    have paired : complete h (pairs l) ≠ complete h (pairs l') := by
      intro same
      exact different (by rw [complete,complete,same])
    obtain ⟨second,apart⟩ := ih (k + 1) paired
    -- the pairs differ in their first or in their second components
    have chosen : ∀ c : Bool,picks second (k + 1) h ((pairs l).map fun p => if c then p.2 else p.1) ≠
        picks second (k + 1) h ((pairs l').map fun p => if c then p.2 else p.1) →
        ∃ second,picks second k (h + 1) l ≠ picks second k (h + 1) l' := by
      intro c differ
      refine ⟨Function.update second k c,?_⟩
      have above : ∀ j,k + 1 ≤ j → Function.update second k c j = second j :=
        fun j above => Function.update_of_ne (by omega) _ _
      rw [picks,picks,Function.update_self,picks_congr above,picks_congr above]
      exact differ
    by_cases firsts : (picks second (k + 1) h (pairs l)).map Prod.fst = (picks second (k + 1) h (pairs l')).map Prod.fst
    · refine chosen true fun seconds => apart ?_
      simp only [if_true,picks_map] at seconds
      exact (List.zip_of_prod firsts seconds).trans (List.zip_of_prod rfl rfl).symm
    · refine chosen false fun same => firsts ?_
      simpa only [Bool.false_eq_true,if_false,picks_map] using same

/-- If the digests carry labels, and a pair of labels the label that is kept, the labels go up as they are picked. -/
theorem lift_picks {α : Type u} {label : Nat → α → D} {second : Nat → Bool} {top : Nat}
    (up : ∀ j < top,∀ x y,H (both (label j x,label j y)) = label (j + 1) (if second j then y else x)) {k n : Nat}
    (below : k + n ≤ top) (l : List α) :
    lift H both n (l.map (label k)) = (picks second k n l).map (label (k + n)) := by
  induction n generalizing k l with
  | zero => rfl
  | succ n ih =>
    have one : level H both (l.map (label k)) = ((pairs l).map fun p => if second k then p.2 else p.1).map (label (k + 1)) := by
      rw [level,pairs_map,List.map_map,List.map_map]
      refine List.map_congr_left fun p _ => ?_
      exact up k (by omega) p.1 p.2
    rw [lift,one,ih (by omega),picks]
    congr 2
    omega

end Trees

end Nulleye.HashTrees
