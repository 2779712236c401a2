import Nulleye.Models

/-!
Loading a stored model. The loader takes the number of trees from the block and reads
that many nodes without a look at the length of the block, at the number, or at what
`malloc` returned. What it gives back can be scored exactly if the block is sound.
-/
namespace Nulleye.ModelLoads
open Nulleye.Codecs Nulleye.Models

/-- The `int` at a byte of a block. -/
def intAt (blob : Bytes) (i : Nat) : Option Int32 := int32.decode (blob.drop i)

/-- A block that holds at least one tree, all the trees that it counts, and no negative feature. -/
def Sound (blob : Bytes) : Prop :=
  ∃ n,intAt blob 0 = some n ∧ 1 ≤ n ∧ 8 + 8 * n.toNatClampNeg ≤ blob.length ∧
    ∀ i < n.toNatClampNeg,∀ fi ∈ intAt blob (8 + 8 * i),0 ≤ fi

/-- What a call of `ai_model_load` that validates the model leaves behind: -1 and `*f` as it
    was, or 0 and a forest that can be scored. -/
def Validated (f : Iforest) : Option (Db × Int × Option Iforest) → Prop
  | none => False
  | some (_,rc,after) =>
    (rc = -1 ∧ after = some f) ∨
      rc = 0 ∧ ∃ g,after = some g ∧ 1 ≤ g.nTrees ∧ g.trees.length = g.nTrees.toNatClampNeg ∧
        (∀ t ∈ g.trees,0 ≤ t.featureIdx) ∧
        ∀ features : List Int32,features.length = 6 → (iforestScore (some g) (some features) featureCount).isSome

/-! ### Counts of trees -/

theorem nodes_eq {n : Int32} (nonneg : 0 ≤ n) :
    ifNode.size * sizeT n % 2 ^ 64 = 8 * n.toNatClampNeg ∧
      ifNode.size * sizeT n % 2 ^ 64 / ifNode.size = n.toNatClampNeg := by
  have bound := n.toNatClampNeg_lt
  rw [sizeT_eq nonneg,ifNode_size]
  omega

/-- A negative count asks for more nodes than any block holds. -/
theorem nodes_negative {n : Int32} (negative : n < 0) :
    2 ^ 31 ≤ ifNode.size * sizeT n % 2 ^ 64 / ifNode.size := by
  have low := n.le_toInt
  have below : n.toInt < 0 := Int32.lt_iff_toInt_lt.mp negative
  rw [sizeT,ifNode_size]
  omega

/-! ### The block -/

theorem readModel_eq_some {alloc : Bool} {blob : Bytes} {g : Iforest} :
    readModel alloc blob = some g ↔
      intAt blob 0 = some g.nTrees ∧ intAt blob 4 = some g.maxDepth ∧
        (ifNode.size * sizeT g.nTrees % 2 ^ 64 = 0 ∨ alloc = true) ∧
        ifNode.decodeAll (ifNode.size * sizeT g.nTrees % 2 ^ 64 / ifNode.size) (blob.drop 8) = some g.trees := by
  constructor
  · intro read
    obtain ⟨n,count,read⟩ := Option.bind_eq_some_iff.mp read
    obtain ⟨depth,deep,read⟩ := Option.bind_eq_some_iff.mp read
    dsimp only at read
    split_ifs at read with failed
    obtain ⟨trees,found,same⟩ := Option.bind_eq_some_iff.mp read
    cases same
    refine ⟨count,deep,?_,found⟩
    cases alloc <;> simp_all
  · rintro ⟨count,deep,allocated,found⟩
    have made : ¬ (ifNode.size * sizeT g.nTrees % 2 ^ 64 ≠ 0 ∧ (!alloc) = true) := by
      rcases allocated with zero | allocated
      · exact fun failed => failed.1 zero
      · simp [allocated]
    have first : int32.decode blob = some g.nTrees := count
    have second : int32.decode (blob.drop int32.size) = some g.maxDepth := deep
    have behind : ifNode.decodeAll (ifNode.size * sizeT g.nTrees % 2 ^ 64 / ifNode.size) (blob.drop (int32.size * 2)) =
        some g.trees := found
    simp only [readModel,first,second,Option.bind_eq_bind,Option.bind_some,if_neg made,behind]
    rfl

/-- What is read lies inside the block. -/
theorem readModel_inside {alloc : Bool} {blob : Blob} {g : Iforest} (read : readModel alloc blob.val = some g) :
    0 ≤ g.nTrees ∧ g.trees.length = g.nTrees.toNatClampNeg ∧ 8 + 8 * g.nTrees.toNatClampNeg ≤ blob.val.length := by
  obtain ⟨_,deep,_,found⟩ := readModel_eq_some.mp read
  have short := blob.property
  have head : 8 ≤ blob.val.length := by
    have inside := (int32.decode_isSome (blob.val.drop 4)).mp (by rw [show int32.decode _ = _ from deep]; rfl)
    rw [int32_size,List.length_drop] at inside
    omega
  have all := (decodeAll_isSome ifNode _ (blob.val.drop 8)).mp (by rw [found]; rfl)
  rw [List.length_drop] at all
  have nonneg : 0 ≤ g.nTrees := by
    by_contra negative
    have many := nodes_negative (Int32.not_le.mp negative)
    have sized : 8 * 2 ^ 31 ≤ blob.val.length - 8 := by
      calc 8 * 2 ^ 31 ≤ 8 * (ifNode.size * sizeT g.nTrees % 2 ^ 64 / ifNode.size) := Nat.mul_le_mul_left 8 many
        _ = ifNode.size * sizeT g.nTrees % 2 ^ 64 / ifNode.size * ifNode.size := Nat.mul_comm _ _
        _ ≤ blob.val.length - 8 := all
    omega
  obtain ⟨_,count⟩ := nodes_eq nonneg
  rw [count,ifNode_size] at all
  exact ⟨nonneg,(decodeAll_length found).trans count,by omega⟩

theorem feature_at {blob : Bytes} {n : Nat} {trees : List IfNode} (read : ifNode.decodeAll n (blob.drop 8) = some trees)
    {i : Nat} (inside : i < n) : intAt blob (8 + 8 * i) = (trees[i]?).map IfNode.featureIdx := by
  have node := decodeAll_getElem read inside
  rw [List.drop_drop,ifNode_size,Nat.mul_comm] at node
  have here : i < trees.length := by rwa [decodeAll_length read]
  rw [List.getElem?_eq_getElem here] at node ⊢
  obtain ⟨pair,decoded,same⟩ := Option.map_eq_some_iff.mp node
  obtain ⟨fi,first,rest⟩ := Option.bind_eq_some_iff.mp decoded
  obtain ⟨thr,_,whole⟩ := Option.bind_eq_some_iff.mp rest
  cases whole
  rw [← same]
  exact first

theorem one_le_nonneg {n : Int32} (positive : 1 ≤ n) : 0 ≤ n := Int32.le_trans (by decide) positive

/-- The block is read as a forest that can be scored exactly if it is sound. -/
theorem readModel_sound (alloc : Bool) (blob : Blob) :
    (∃ g,readModel alloc blob.val = some g ∧ 1 ≤ g.nTrees ∧ ∀ t ∈ g.trees,0 ≤ t.featureIdx) ↔
      Sound blob.val ∧ alloc = true := by
  constructor
  · rintro ⟨g,read,some_tree,features⟩
    obtain ⟨nonneg,whole,inside⟩ := readModel_inside read
    obtain ⟨count,_,allocated,found⟩ := readModel_eq_some.mp read
    obtain ⟨size,nodes⟩ := nodes_eq nonneg
    rw [nodes] at found
    have many : 1 ≤ g.nTrees.toNatClampNeg := by
      have positive := Int32.le_iff_toInt_le.mp some_tree
      have one : (1 : Int32).toInt = 1 := rfl
      rw [one] at positive
      change 1 ≤ g.nTrees.toInt.toNat
      omega
    refine ⟨⟨g.nTrees,count,some_tree,inside,?_⟩,allocated.resolve_left (by omega)⟩
    intro i below fi at_i
    rw [feature_at found below] at at_i
    obtain ⟨t,node,rfl⟩ := Option.map_eq_some_iff.mp at_i
    exact features t (List.mem_of_getElem? node)
  · rintro ⟨⟨n,count,some_tree,inside,features⟩,allocated⟩
    have nonneg := one_le_nonneg some_tree
    obtain ⟨_,nodes⟩ := nodes_eq nonneg
    obtain ⟨depth,deep⟩ := Option.isSome_iff_exists.mp
      ((int32.decode_isSome (blob.val.drop 4)).mpr (by rw [int32_size,List.length_drop]; omega))
    obtain ⟨trees,found⟩ := Option.isSome_iff_exists.mp
      ((decodeAll_isSome ifNode n.toNatClampNeg (blob.val.drop 8)).mpr (by rw [ifNode_size,List.length_drop]; omega))
    refine ⟨⟨n,depth,trees⟩,readModel_eq_some.mpr ⟨count,deep,.inr allocated,by rw [nodes,found]⟩,some_tree,?_⟩
    intro t member
    obtain ⟨i,here,rfl⟩ := List.getElem_of_mem member
    have below : i < n.toNatClampNeg := by rwa [decodeAll_length found] at here
    apply features i below
    rw [feature_at found below,List.getElem?_eq_getElem here]
    rfl

/-! ### The call -/

theorem featureOf_inside {features : List Int32} (all : features.length = 6) {fi : Int32} (nonneg : 0 ≤ fi) :
    (featureOf features featureCount fi).isSome := by
  unfold featureOf featureAt
  by_cases below : fi < featureCount
  · have bound : fi.toInt < 6 := Int32.lt_iff_toInt_lt.mp below
    have inside : fi.toNatClampNeg < features.length := by
      change fi.toInt.toNat < features.length
      omega
    rw [if_pos below,if_neg (Int32.not_lt.mpr nonneg),List.getElem?_eq_getElem inside]
    rfl
  · rw [if_neg below]
    rfl

private theorem validated_block (alloc : Bool) (blob : Blob) (f : Iforest) (db : Db) :
    Validated f ((readModel alloc blob.val).map fun g => (db,0,some g)) ↔ Sound blob.val ∧ alloc = true := by
  rw [← readModel_sound]
  constructor
  · intro valid
    cases read : readModel alloc blob.val with
    | none =>
      rw [read] at valid
      exact valid.elim
    | some g =>
      rw [read] at valid
      rcases valid with ⟨failed,_⟩ | ⟨_,g',same,some_tree,_,features,_⟩
      · exact absurd failed (by decide)
      · cases same
        exact ⟨g,rfl,some_tree,features⟩
  · rintro ⟨g,read,some_tree,nonneg⟩
    rw [read]
    obtain ⟨_,whole,inside⟩ := readModel_inside read
    have short := blob.property
    refine .inr ⟨rfl,g,rfl,some_tree,whole,nonneg,?_⟩
    intro features all
    apply Option.isSome_iff_exists.mpr
    exact score_defined some_tree whole (by omega) fun t member => featureOf_inside all (nonneg t member)

/-- A load validates its model exactly if the bytes that it reads, if it gets any, are
    sound and the memory for the trees is allocated. -/
theorem load_validates (readable blobAlloc treesAlloc : Bool) (key : Option Bytes) (f : Iforest) (db : Db) :
    Validated f (aiModelLoad readable blobAlloc treesAlloc key (some f) db) ↔
      ((db.gDb && readable && blobAlloc) = true → ∀ k ∈ key,∀ blob ∈ db.model k,Sound blob.val ∧ treesAlloc = true) := by
  cases key with
  | none => simp [aiModelLoad,Validated]
  | some key =>
    obtain ⟨after,_,_,loaded⟩ := aiModelLoad_eq readable blobAlloc treesAlloc key f db
    rw [loaded]
    by_cases reached : (db.gDb && readable && blobAlloc) = true
    · rw [if_pos reached]
      cases column : db.model key with
      | none => simp [Validated,column]
      | some blob => simpa only [reached,column,Option.mem_def,Option.some.injEq,forall_eq',forall_const] using
          validated_block treesAlloc blob f after
    · rw [if_neg reached]
      simp [reached,Validated]

/-- Eight zero bytes are loaded as a forest without trees, whose score divides by zero. -/
theorem empty_forest_loaded :
    ¬ ∀ (blob : Blob) (f : Iforest),Validated f (aiModelLoad true true true (some []) (some f)
      ⟨true,⟨⟨none,none⟩,false⟩,⟨none,false⟩,fun _ => some blob⟩) := by
  intro always
  obtain ⟨⟨n,count,some_tree,_⟩,_⟩ :=
    (validated_block true ⟨List.replicate 8 0,by decide⟩ ⟨0,0,[]⟩ _).mp (always ⟨List.replicate 8 0,by decide⟩ ⟨0,0,[]⟩)
  cases count
  revert some_tree
  decide

end Nulleye.ModelLoads
