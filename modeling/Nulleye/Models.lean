import Mathlib.Algebra.Ring.Int.Defs
import Nulleye.Codecs
import Nulleye.Statements

/-!
The isolation forest and its copy in the database. A forest is stored as its two
counts and then its nodes, the bytes of one block. `none` stands for undefined
behaviour: a read or write outside a block, a number that does not fit an `int`, or
a division by zero.
-/
namespace Nulleye.Models
open Nulleye.Codecs Nulleye.Statements

abbrev Bytes := List UInt8

/-- `if_node_t`. -/
structure IfNode where
  featureIdx : Int32
  threshold : Int32
  deriving DecidableEq

/-- `iforest_t`; `trees` is what its pointer points to. -/
structure Iforest where
  nTrees : Int32
  maxDepth : Int32
  trees : List IfNode
  deriving DecidableEq

/-- A node in memory. -/
def ifNode : Codec IfNode := (int32.pair int32).via (fun t => (t.featureIdx,t.threshold)) (fun x => ⟨x.1,x.2⟩) fun _ => rfl

theorem int32_size : int32.size = 4 := rfl
theorem ifNode_size : ifNode.size = 8 := rfl

/-- An `int` as a `size_t`. -/
def sizeT (n : Int32) : Nat := (n.toInt % 2 ^ 64).toNat

/-! ### Scores -/

/-- `NYE_FEATURE_COUNT`. -/
def featureCount : Int32 := 6

/-- `features[fi]`. -/
def featureAt (features : List Int32) (fi : Int32) : Option Int32 :=
  if fi < 0 then none else features[fi.toNatClampNeg]?

/-- `(fi < n_features) ? features[fi] : 0`. -/
def featureOf (features : List Int32) (nFeatures fi : Int32) : Option Int32 :=
  if fi < nFeatures then featureAt features fi else some 0

/-- The loop over the trees from tree `i` on, `n` of them. -/
def scoreLoop (trees : List IfNode) (features : List Int32) (nFeatures : Int32) : Nat → Nat → Int → Option Int
  | 0,_,scoreAcc => some scoreAcc
  | n + 1,i,scoreAcc => do
    let tree ← trees[i]?
    let fi := tree.featureIdx
    let thr := tree.threshold
    let val ← featureOf features nFeatures fi
    let scoreAcc := scoreAcc + if thr < val then 1 else 5
    if 2 ^ 31 ≤ scoreAcc then none else scoreLoop trees features nFeatures n (i + 1) scoreAcc

/-- `iforest_score`; NULL is `none`. -/
def iforestScore (f : Option Iforest) (features : Option (List Int32)) (nFeatures : Int32) : Option Int :=
  match f,features with
  | some f,some features => do
    let scoreAcc ← scoreLoop f.trees features nFeatures f.nTrees.toNatClampNeg 0 0
    if f.nTrees = 0 then none else
      let avg := scoreAcc.tdiv f.nTrees.toInt
      let score := 100 - (avg * 10).tdiv (if 0 < f.maxDepth then f.maxDepth.toInt else 1)
      let score := if score < 0 then 0 else score
      return if 100 < score then 100 else score
  | _,_ => some 0

/-! ### The database -/

/-- The bytes that the database can hold in one column. -/
abbrev Blob := { bytes : Bytes // bytes.length < 2 ^ 31 }

/-- What NULL is read as. -/
def noBytes : Blob := ⟨[],by decide⟩

@[simp] theorem noBytes_bytes : noBytes.1 = [] := rfl

/-- The bound parameters of `stmt_store_model`; NULL is `none`. -/
structure ModelRow where
  key : Option Bytes
  blob : Option Blob
  deriving DecidableEq

/-- The database as the functions for models use it: whether `g_db` is set, their two statements, and the table. -/
structure Db where
  gDb : Bool
  stmtStoreModel : Prepared ModelRow
  stmtLoadModel : Prepared (Option Bytes)
  model : Bytes → Option Blob

/-- `REPLACE INTO model(key,blob)`. No query finds a row whose key is NULL, and NULL is read as no bytes. -/
def replace (row : ModelRow) (model : Bytes → Option Blob) : Bytes → Option Blob :=
  match row.key with
  | some key => fun k => if k = key then some (row.blob.getD noBytes) else model k
  | none => model

/-- `len` bytes for a column. -/
def blobOf (blob : Bytes) (len : Int32) : Blob :=
  ⟨blob.take len.toNatClampNeg,Nat.lt_of_le_of_lt (List.length_take_le _ _) len.toNatClampNeg_lt⟩

/-- `db_store_model`; the first three arguments are the results of its calls into the database. A parameter
    that cannot be bound, as a blob beyond SQLite's limit of length, becomes NULL, and nobody notices. -/
def dbStoreModel (text bytes done : Bool) (key : Option Bytes) (blob : Bytes) (len : Int32) (db : Db) : Option (Db × Int) :=
  if !db.gDb then some (db,-1) else
    if len < 0 ∨ blob.length < len.toNatClampNeg then none else
      let stmt := db.stmtStoreModel.reset
      let stmt := stmt.bind fun row => { row with key := if text then key else none }
      let stmt := stmt.bind fun row => { row with blob := if bytes then some (blobOf blob len) else none }
      let model := if done then replace stmt.bindings db.model else db.model
      some ({ db with stmtStoreModel := stmt.step, model := model },if !done then -1 else 0)

/-- `db_load_model`: the block that it allocates, or `none` where it returns -1. `readable` is whether
    the key can be bound and the step can read the table: a step with NULL for the key finds no row,
    too. `alloc` is whether `malloc` succeeds. -/
def dbLoadModel (readable alloc : Bool) (key : Option Bytes) (db : Db) : Db × Option Bytes :=
  if !db.gDb then (db,none) else
    let stmt := db.stmtLoadModel.reset
    let stmt := stmt.bind fun _ => key
    let db' := { db with stmtLoadModel := stmt.step }
    match stmt.bindings.bind db.model with
    | some data => (db',if readable && alloc then some data.val else none)
    | none => (db',none)

/-! ### Saving and loading -/

/-- `ai_model_save`; `alloc` is whether `malloc` succeeds, and the next three are the results of the calls into the database. -/
def aiModelSave (alloc text bytes done : Bool) (key : Option Bytes) (f : Option Iforest) (db : Db) : Option (Db × Int) :=
  match key,f with
  | some key,some f =>
    let size := ifNode.size * sizeT f.nTrees % 2 ^ 64
    let len := Int32.ofNat ((int32.size * 2 + size) % 2 ^ 64)
    if !alloc then some (db,-1) else
      let nodes := size / ifNode.size
      let blob := int32.encode f.nTrees ++ int32.encode f.maxDepth ++ ifNode.encodeAll (f.trees.take nodes)
      if f.trees.length < nodes ∨ sizeT len < blob.length then none
      else dbStoreModel text bytes done (some key) blob len db
  | _,_ => some (db,-1)

/-- What `ai_model_load` does with the block; `alloc` is whether its `malloc` succeeds. -/
def readModel (alloc : Bool) (blob : Bytes) : Option Iforest := do
  let nTrees ← int32.decode blob
  let maxDepth ← int32.decode (blob.drop int32.size)
  let size := ifNode.size * sizeT nTrees % 2 ^ 64
  if size ≠ 0 ∧ !alloc then none else
    let trees ← ifNode.decodeAll (size / ifNode.size) (blob.drop (int32.size * 2))
    return ⟨nTrees,maxDepth,trees⟩

/-- `ai_model_load`: what it returns, and `*f`. -/
def aiModelLoad (readable blobAlloc treesAlloc : Bool) (key : Option Bytes) (f : Option Iforest) (db : Db) :
    Option (Db × Int × Option Iforest) :=
  match key,f with
  | some key,some f =>
    match dbLoadModel readable blobAlloc (some key) db with
    | (db,none) => some (db,-1,some f)
    | (db,some blob) => (readModel treesAlloc blob).map fun f => (db,0,some f)
  | _,_ => some (db,-1,f)

/-! ### What the functions do -/

theorem sizeT_eq {n : Int32} (nonneg : 0 ≤ n) : sizeT n = n.toNatClampNeg := by
  have bound := n.toInt_lt
  have positive : 0 ≤ n.toInt := Int32.le_iff_toInt_le.mp nonneg
  rw [sizeT,Int.emod_eq_of_lt positive (by omega)]
  rfl

/-- A load that finds a row reads the bytes of its column. -/
theorem dbLoadModel_eq (readable alloc : Bool) (key : Bytes) (db : Db) :
    (dbLoadModel readable alloc (some key) db).2 =
        (if db.gDb && readable && alloc then (db.model key).map Subtype.val else none) ∧
      (dbLoadModel readable alloc (some key) db).1.model = db.model ∧
      (dbLoadModel readable alloc (some key) db).1.gDb = db.gDb := by
  unfold dbLoadModel
  have bound : (db.stmtLoadModel.reset.bind fun _ => some key).bindings = some key :=
    prepared_bind_bindings (prepared_reset_stepped _) _
  simp only [bound,Option.bind_some]
  cases opened : db.gDb with
  | false => simp [opened]
  | true => cases db.model key <;> simp

/-- A load reads its row, if it gets it, and changes no row. -/
theorem aiModelLoad_eq (readable blobAlloc treesAlloc : Bool) (key : Bytes) (f : Iforest) (db : Db) :
    ∃ after,after.gDb = db.gDb ∧ after.model = db.model ∧
      aiModelLoad readable blobAlloc treesAlloc (some key) (some f) db =
        match if db.gDb && readable && blobAlloc then db.model key else none with
        | none => some (after,-1,some f)
        | some blob => (readModel treesAlloc blob.val).map fun g => (after,0,some g) := by
  obtain ⟨read,rows,opened⟩ := dbLoadModel_eq readable blobAlloc key db
  simp only [aiModelLoad]
  generalize dbLoadModel readable blobAlloc (some key) db = loaded at read rows opened ⊢
  obtain ⟨after,block⟩ := loaded
  refine ⟨after,opened,rows,?_⟩
  dsimp only at read ⊢
  subst read
  by_cases reached : (db.gDb && readable && blobAlloc) = true
  · rw [if_pos reached,if_pos reached]
    cases db.model key <;> rfl
  · rw [if_neg reached,if_neg reached]

/-- A store replaces the row of its key, if it is done and the key was bound. -/
theorem dbStoreModel_eq {text bytes done : Bool} {key blob : Bytes} {len : Int32} {db after : Db} {rc : Int}
    (stored : dbStoreModel text bytes done (some key) blob len db = some (after,rc)) :
    after.gDb = db.gDb ∧ rc = (if db.gDb && done then 0 else -1) ∧
      after.model = if db.gDb && done && text then
        fun k => if k = key then some (if bytes then blobOf blob len else noBytes) else db.model k else db.model := by
  have bound : ((db.stmtStoreModel.reset.bind fun row => { row with key := if text then some key else none }).bind
      fun row => { row with blob := if bytes then some (blobOf blob len) else none }).bindings =
        ⟨if text then some key else none,if bytes then some (blobOf blob len) else none⟩ := by
    rw [prepared_bind_bindings (by simp),prepared_bind_bindings (by simp)]
  unfold dbStoreModel at stored
  simp only [bound] at stored
  cases opened : db.gDb with
  | false =>
    simp only [opened,Bool.not_false,if_true] at stored
    cases stored
    exact ⟨opened,rfl,rfl⟩
  | true =>
    simp only [opened,Bool.not_true,Bool.false_eq_true,if_false] at stored
    by_cases outside : len < 0 ∨ blob.length < len.toNatClampNeg
    · rw [if_pos outside] at stored
      cases stored
    · rw [if_neg outside] at stored
      cases stored
      refine ⟨rfl,by cases done <;> rfl,?_⟩
      cases done <;> cases text <;> cases bytes <;> rfl

/-! ### What a score needs -/

theorem scoreLoop_defined {trees : List IfNode} {features : List Int32} {nFeatures : Int32}
    (indexed : ∀ t ∈ trees,(featureOf features nFeatures t.featureIdx).isSome) (n i : Nat)
    (inside : i + n ≤ trees.length) (acc : Int) (few : acc + 5 * n < 2 ^ 31) :
    ∃ total,scoreLoop trees features nFeatures n i acc = some total := by
  induction n generalizing i acc with
  | zero => exact ⟨acc,rfl⟩
  | succ n ih =>
    have here : i < trees.length := by omega
    obtain ⟨val,valued⟩ := Option.isSome_iff_exists.mp (indexed trees[i] (List.getElem_mem here))
    have step : acc + (if trees[i].threshold < val then 1 else 5) ≤ acc + 5 := by split_ifs <;> omega
    obtain ⟨total,ran⟩ := ih (i + 1) (by omega) (acc + if trees[i].threshold < val then 1 else 5) (by omega)
    refine ⟨total,?_⟩
    simp only [scoreLoop,List.getElem?_eq_getElem here,Option.bind_eq_bind,Option.bind_some,valued]
    rw [if_neg (by omega),ran]

/-- A forest with at least one tree is scored if the features that its nodes name exist. -/
theorem score_defined {f : Iforest} {features : List Int32} {nFeatures : Int32} (some_tree : 1 ≤ f.nTrees)
    (whole : f.trees.length = f.nTrees.toNatClampNeg) (few : 8 + 8 * f.trees.length < 2 ^ 31)
    (indexed : ∀ t ∈ f.trees,(featureOf features nFeatures t.featureIdx).isSome) :
    ∃ score,iforestScore (some f) (some features) nFeatures = some score := by
  obtain ⟨total,ran⟩ := scoreLoop_defined indexed f.nTrees.toNatClampNeg 0 (by omega) 0 (by omega)
  have nonzero : f.nTrees ≠ 0 := by
    intro zero
    rw [zero] at some_tree
    revert some_tree
    decide
  exact ⟨_,by simp only [iforestScore,ran,Option.bind_eq_bind,Option.bind_some,if_neg nonzero]; rfl⟩

end Nulleye.Models
