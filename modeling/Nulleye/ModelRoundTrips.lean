import Nulleye.ModelLoads
import Nulleye.Runs

/-!
Saving a model and loading it again. Whatever else is saved and loaded in between, a
forest that was saved is loaded as it was, if nothing was saved under its key and if
SQLite took the parameters of the store: a refusal is not noticed, also that of a blob
beyond its limit of length.
-/
namespace Nulleye.ModelRoundTrips
open Nulleye.Codecs Nulleye.Models Nulleye.ModelLoads Nulleye.Runs

/-- A call, with the results of the functions that it calls. -/
inductive Call where
  | save (alloc text bytes done : Bool) (key : Option Bytes) (f : Option Iforest)
  | load (readable blobAlloc treesAlloc : Bool) (key : Option Bytes) (f : Option Iforest)

/-- One call on the database, and what it returns. -/
def step (db : Db) (c : Call) : Option (Db × Call × Int) :=
  match c with
  | .save alloc text bytes done key f => (aiModelSave alloc text bytes done key f db).map fun (after,rc) => (after,c,rc)
  | .load readable blobAlloc treesAlloc key f =>
    (aiModelLoad readable blobAlloc treesAlloc key f db).map fun (after,rc,_) => (after,c,rc)

/-- The key under which a call saved a model. -/
def savedKey : Call × Int → Option Bytes
  | (.save _ _ _ _ key _,rc) => if rc = 0 then key else none
  | (.load ..,_) => none

/-! ### One call -/

/-- A save changes the row of its key at most, and only if it returns 0. -/
theorem save_frame {alloc text bytes done : Bool} {key : Option Bytes} {f : Option Iforest} {db after : Db} {rc : Int}
    (ran : aiModelSave alloc text bytes done key f db = some (after,rc)) :
    after.gDb = db.gDb ∧ ∀ k,(rc = 0 → key ≠ some k) → after.model k = db.model k := by
  cases key with
  | none =>
    cases ran
    exact ⟨rfl,fun _ _ => rfl⟩
  | some key =>
    cases f with
    | none =>
      cases ran
      exact ⟨rfl,fun _ _ => rfl⟩
    | some f =>
      simp only [aiModelSave] at ran
      split_ifs at ran with failed outside
      · cases ran
        exact ⟨rfl,fun _ _ => rfl⟩
      · obtain ⟨opened,code,rows⟩ := dbStoreModel_eq ran
        refine ⟨opened,?_⟩
        intro k other
        rw [rows]
        by_cases stored : (db.gDb && done && text) = true
        · have different : k ≠ key := fun same =>
            other (code.trans (if_pos (Bool.and_eq_true_iff.mp stored).1)) (congrArg some same.symm)
          rw [if_pos stored,if_neg different]
        · rw [if_neg stored]

/-- A load changes no row. -/
theorem load_frame {readable blobAlloc treesAlloc : Bool} {key : Option Bytes} {f g : Option Iforest} {db after : Db}
    {rc : Int} (ran : aiModelLoad readable blobAlloc treesAlloc key f db = some (after,rc,g)) :
    after.gDb = db.gDb ∧ after.model = db.model := by
  cases key with
  | none =>
    cases ran
    exact ⟨rfl,rfl⟩
  | some key =>
    cases f with
    | none =>
      cases ran
      exact ⟨rfl,rfl⟩
    | some f =>
      obtain ⟨after',opened,rows,loaded⟩ := aiModelLoad_eq readable blobAlloc treesAlloc key f db
      rw [loaded] at ran
      split at ran
      · cases ran
        exact ⟨opened,rows⟩
      · obtain ⟨_,_,same⟩ := Option.map_eq_some_iff.mp ran
        cases same
        exact ⟨opened,rows⟩

/-- What a call keeps. -/
theorem step_frame {db after : Db} {c : Call} {label : Call × Int} (ran : step db c = some (after,label)) {k : Bytes}
    (spared : savedKey label ≠ some k) : after.gDb = db.gDb ∧ after.model k = db.model k := by
  cases c with
  | save alloc text bytes done key f =>
    obtain ⟨⟨_,rc⟩,saved,same⟩ := Option.map_eq_some_iff.mp ran
    cases same
    obtain ⟨opened,rows⟩ := save_frame saved
    refine ⟨opened,rows k fun stored other => spared ?_⟩
    rw [savedKey,if_pos stored,other]
  | load readable blobAlloc treesAlloc key f =>
    obtain ⟨⟨_,rc,_⟩,loaded,same⟩ := Option.map_eq_some_iff.mp ran
    cases same
    obtain ⟨opened,rows⟩ := load_frame loaded
    exact ⟨opened,congrFun rows k⟩

/-! ### Runs -/

theorem run_frame {before after : Db} {trace : List (Call × Int)} (run : Run step free before trace after) {k : Bytes}
    (spared : ∀ label ∈ trace,savedKey label ≠ some k) : after.gDb = before.gDb ∧ after.model k = before.model k := by
  revert spared
  refine @Run.invariant _ _ _ step free before
    (fun trace t => (∀ label ∈ trace,savedKey label ≠ some k) → t.gDb = before.gDb ∧ t.model k = before.model k)
    (fun _ => ⟨rfl,rfl⟩) ?_ trace after run
  intro trace t c u label _ kept _ moved spared
  obtain ⟨opened,row⟩ := kept fun other earlier => spared other (List.mem_append_left _ earlier)
  obtain ⟨opened',row'⟩ := step_frame moved (spared label (List.mem_append_right _ (List.mem_singleton_self _)))
  exact ⟨opened'.trans opened,row'.trans row⟩

/-! ### The bytes of a forest -/

/-- The block of a forest. -/
def block (f : Iforest) : Bytes := int32.encode f.nTrees ++ int32.encode f.maxDepth ++ ifNode.encodeAll f.trees

theorem block_length (f : Iforest) : (block f).length = 8 + 8 * f.trees.length := by
  simp only [block,List.length_append,int32.encode_length,encodeAll_length,int32_size,ifNode_size]
  omega

theorem readModel_nil : readModel true [] = none := rfl

/-- A block is read as the forest that was written. -/
theorem readModel_block {f : Iforest} (nonneg : 0 ≤ f.nTrees) (whole : f.trees.length = f.nTrees.toNatClampNeg) :
    readModel true (block f) = some f := by
  obtain ⟨_,nodes⟩ := nodes_eq nonneg
  have counts : block f = int32.encode f.nTrees ++ (int32.encode f.maxDepth ++ (ifNode.encodeAll f.trees ++ [])) := by
    rw [block,List.append_nil,List.append_assoc]
  refine readModel_eq_some.mpr ⟨?_,?_,.inr rfl,?_⟩
  · rw [intAt,List.drop_zero,counts,int32.decode_encode]
  · have four : (int32.encode f.nTrees).length = 4 := int32.encode_length f.nTrees
    rw [intAt,counts,List.drop_left' four,int32.decode_encode]
  · have behind : (block f).drop 8 = ifNode.encodeAll f.trees ++ [] := by
      rw [counts,← List.append_assoc,List.drop_left' (by
        rw [List.length_append,int32.encode_length,int32.encode_length,int32_size])]
    rw [behind,nodes,← whole,decodeAll_encodeAll]

/-- The number of bytes that is passed on for a forest. -/
theorem block_bytes {f : Iforest} (fits : 8 + 8 * f.nTrees.toInt < 2 ^ 31) (whole : f.trees.length = f.nTrees.toNatClampNeg) :
    8 + 8 * f.trees.length < 2 ^ 31 := by
  rw [whole]
  change 8 + 8 * f.nTrees.toInt.toNat < 2 ^ 31
  omega

section Saves
variable {f : Iforest} {alloc text bytes done : Bool} {key : Bytes} {before stored : Db}

/-- A save passes the block of its forest on. -/
theorem save_eq (nonneg : 0 ≤ f.nTrees) (fits : 8 + 8 * f.nTrees.toInt < 2 ^ 31)
    (whole : f.trees.length = f.nTrees.toNatClampNeg) (db : Db) :
    aiModelSave alloc text bytes done (some key) (some f) db = if !alloc then some (db,-1) else
      dbStoreModel text bytes done (some key) (block f) (Int32.ofNat (block f).length) db := by
  obtain ⟨size,nodes⟩ := nodes_eq nonneg
  have few := block_bytes fits whole
  have length := block_length f
  have same : (int32.size * 2 + ifNode.size * sizeT f.nTrees % 2 ^ 64) % 2 ^ 64 = (block f).length := by
    rw [size,int32_size,length,whole,Nat.mod_eq_of_lt (by omega)]
  have count : sizeT (Int32.ofNat (block f).length) = (block f).length := by
    have positive : (0 : Int32) ≤ Int32.ofNat (block f).length := by
      rw [Int32.le_iff_toInt_le,Int32.toInt_ofNat_of_lt (by omega)]
      exact Int.natCast_nonneg _
    rw [sizeT_eq positive,Int32.toNatClampNeg_ofNat_of_lt (by omega)]
  simp only [aiModelSave]
  rw [same,nodes,List.take_of_length_le (Nat.le_of_eq whole),← block,count]
  rw [if_neg (show ¬ (f.trees.length < f.nTrees.toNatClampNeg ∨ (block f).length < (block f).length) by omega)]

/-- A save is always defined. -/
theorem save_defined (nonneg : 0 ≤ f.nTrees) (fits : 8 + 8 * f.nTrees.toInt < 2 ^ 31)
    (whole : f.trees.length = f.nTrees.toNatClampNeg) (alloc text bytes done : Bool) (key : Bytes) (db : Db) :
    ∃ after,aiModelSave alloc text bytes done (some key) (some f) db =
      some (after,if alloc && db.gDb && done then 0 else -1) := by
  have few := block_bytes fits whole
  have length := block_length f
  have inside : ¬ (Int32.ofNat (block f).length < 0 ∨ (block f).length < (Int32.ofNat (block f).length).toNatClampNeg) := by
    rw [Int32.toNatClampNeg_ofNat_of_lt (by omega),Int32.lt_iff_toInt_lt,Int32.toInt_ofNat_of_lt (by omega)]
    simp
  rw [save_eq nonneg fits whole]
  cases alloc with
  | false => exact ⟨db,rfl⟩
  | true =>
    rw [if_neg (by simp),dbStoreModel]
    cases opened : db.gDb with
    | false => exact ⟨_,rfl⟩
    | true =>
      rw [if_neg (by simp),if_neg inside]
      cases done <;> exact ⟨_,rfl⟩

/-- A save that returns 0 has left the block of its forest under the key, no bytes where the blob was
    refused, and what was there before where the key was refused. -/
theorem save_row (nonneg : 0 ≤ f.nTrees) (fits : 8 + 8 * f.nTrees.toInt < 2 ^ 31)
    (whole : f.trees.length = f.nTrees.toNatClampNeg)
    (saved : aiModelSave alloc text bytes done (some key) (some f) before = some (stored,0)) :
    stored.gDb = true ∧ (stored.model key).map Subtype.val =
      if text then some (if bytes then block f else []) else (before.model key).map Subtype.val := by
  have few := block_bytes fits whole
  have length := block_length f
  rw [save_eq nonneg fits whole] at saved
  cases alloc with
  | false => cases saved
  | true =>
    rw [if_neg (by simp)] at saved
    obtain ⟨opened,code,rows⟩ := dbStoreModel_eq saved
    have done : (before.gDb && done) = true := by
      by_contra refused
      rw [if_neg refused] at code
      cases code
    refine ⟨opened.trans (Bool.and_eq_true_iff.mp done).1,?_⟩
    rw [rows,done]
    cases text with
    | false => rfl
    | true =>
      have all : (blobOf (block f) (Int32.ofNat (block f).length)).val = block f := by
        change (block f).take _ = block f
        rw [Int32.toNatClampNeg_ofNat_of_lt (by omega),List.take_length]
      cases bytes <;> simp [all]

/-- A save that returns 0 has stored the block of its forest, if both parameters were bound. -/
theorem save_stores (nonneg : 0 ≤ f.nTrees) (fits : 8 + 8 * f.nTrees.toInt < 2 ^ 31)
    (whole : f.trees.length = f.nTrees.toNatClampNeg)
    (saved : aiModelSave alloc true true done (some key) (some f) before = some (stored,0)) :
    stored.gDb = true ∧ ∃ blob,stored.model key = some blob ∧ blob.val = block f := by
  obtain ⟨opened,row⟩ := save_row nonneg fits whole saved
  exact ⟨opened,Option.map_eq_some_iff.mp row⟩

end Saves

/-! ### The round trip -/

/-- The forest that is read from the row of a key. -/
def readAt (key : Bytes) (db : Db) : Option Iforest := (db.model key).bind fun blob => readModel true blob.val

/-- After every run of calls that save nothing under the key, the forest is loaded from it as it
    was, and scored as before. -/
def LoadsBack (f : Iforest) (key : Bytes) (stored : Db) : Prop :=
  ∀ (trace : List (Call × Int)) (after : Db),Run step free stored trace after →
    (∀ label ∈ trace,savedKey label ≠ some key) → ∀ g : Iforest,∃ last loaded,
      aiModelLoad true true true (some key) (some g) after = some (last,0,some loaded) ∧
        loaded.nTrees = f.nTrees ∧ loaded.maxDepth = f.maxDepth ∧ loaded.trees = f.trees ∧
        (1 ≤ f.nTrees → ∀ (x : List Int32) (n : Int32),(∀ t ∈ f.trees,(featureOf x n t.featureIdx).isSome) →
          ∃ score,iforestScore (some f) (some x) n = some score ∧ iforestScore (some loaded) (some x) n = some score)

/-- SQLite takes the blob with the key; or it refuses the key, and the forest is stored there already. -/
def Taken (text bytes : Bool) (f : Iforest) (key : Bytes) (before : Db) : Prop :=
  if text then bytes = true else readAt key before = some f

theorem loadsBack_iff {f : Iforest} (fits : 8 + 8 * f.nTrees.toInt < 2 ^ 31) (whole : f.trees.length = f.nTrees.toNatClampNeg)
    {key : Bytes} {stored : Db} (opened : stored.gDb = true) : LoadsBack f key stored ↔ readAt key stored = some f := by
  constructor
  · intro back
    obtain ⟨last,loaded,ran,count,depth,trees,_⟩ := back [] stored .start nofun f
    obtain ⟨_,_,_,loads⟩ := aiModelLoad_eq true true true key f stored
    have same : loaded = f := by
      cases loaded
      simp_all
    rw [loads,opened] at ran
    rw [readAt]
    cases row : stored.model key with
    | none => simp [row] at ran
    | some blob =>
      simp only [row,Bool.and_self,if_true,Option.map_eq_some_iff] at ran
      obtain ⟨g,read,pair⟩ := ran
      cases pair
      rw [Option.bind_some,read,same]
  · intro read trace after run spared g
    obtain ⟨kept,same⟩ := run_frame run spared
    obtain ⟨blob,row,bytes⟩ := Option.bind_eq_some_iff.mp read
    obtain ⟨last,_,_,loaded⟩ := aiModelLoad_eq true true true key g after
    refine ⟨last,f,?_,rfl,rfl,rfl,?_⟩
    · rw [loaded,kept,opened,same,row]
      simp [bytes]
    · intro some_tree x n indexed
      obtain ⟨score,scored⟩ := score_defined some_tree whole (block_bytes fits whole) indexed
      exact ⟨score,scored,scored⟩

/-- What a save that returned 0 has made of the row of its key. -/
theorem readAt_saved {f : Iforest} (nonneg : 0 ≤ f.nTrees) (fits : 8 + 8 * f.nTrees.toInt < 2 ^ 31)
    (whole : f.trees.length = f.nTrees.toNatClampNeg) {alloc text bytes done : Bool} {key : Bytes} {before stored : Db}
    (saved : aiModelSave alloc text bytes done (some key) (some f) before = some (stored,0)) :
    stored.gDb = true ∧ (readAt key stored = some f ↔ Taken text bytes f key before) := by
  obtain ⟨opened,row⟩ := save_row nonneg fits whole saved
  have read : ∀ db : Db,readAt key db = ((db.model key).map Subtype.val).bind (readModel true) := by
    intro db
    rw [readAt]
    cases db.model key <;> rfl
  refine ⟨opened,?_⟩
  rw [read,row,Taken,read]
  cases text with
  | false => simp only [Bool.false_eq_true,if_false]
  | true =>
    simp only [if_true,Option.bind_some]
    cases bytes with
    | false => simp only [Bool.false_eq_true,if_false,readModel_nil,reduceCtorEq]
    | true => simp only [if_true,readModel_block nonneg whole]

/-- A forest whose save returned 0 is loaded as it was, after every run of calls that saved nothing
    under its key, exactly if SQLite took the parameters. -/
theorem saved_model_loads {f : Iforest} (nonneg : 0 ≤ f.nTrees) (fits : 8 + 8 * f.nTrees.toInt < 2 ^ 31)
    (whole : f.trees.length = f.nTrees.toNatClampNeg) {alloc text bytes done : Bool} {key : Bytes} {before stored : Db}
    (saved : aiModelSave alloc text bytes done (some key) (some f) before = some (stored,0)) :
    LoadsBack f key stored ↔ Taken text bytes f key before := by
  obtain ⟨opened,read⟩ := readAt_saved nonneg fits whole saved
  exact (loadsBack_iff fits whole opened).trans read

/-- A database without models. -/
private def noModels : Db := ⟨true,⟨⟨none,none⟩,false⟩,⟨none,false⟩,fun _ => none⟩

/-- Another forest is saved under another key and loaded in between. -/
theorem saved_model_loads_between :
    ∃ stored after last,aiModelSave true true true true (some [1]) (some ⟨1,8,[⟨2,50⟩]⟩) noModels = some (stored,0) ∧
      Run step free stored
        [(.save true true true true (some [2]) (some ⟨0,3,[]⟩),0),(.load true true true (some [2]) (some ⟨0,0,[]⟩),0)] after ∧
      aiModelLoad true true true (some [1]) (some ⟨0,0,[]⟩) after = some (last,0,some ⟨1,8,[⟨2,50⟩]⟩) := by
  have saved : ∃ stored,aiModelSave true true true true (some [1]) (some ⟨1,8,[⟨2,50⟩]⟩) noModels = some (stored,0) := ⟨_,rfl⟩
  obtain ⟨stored,saved⟩ := saved
  have ran : ∃ after,Run step free stored
      [(.save true true true true (some [2]) (some ⟨0,3,[]⟩),0),(.load true true true (some [2]) (some ⟨0,0,[]⟩),0)] after := by
    cases saved
    exact ⟨_,run_of_exec (show exec step free _
      [.save true true true true (some [2]) (some ⟨0,3,[]⟩),.load true true true (some [2]) (some ⟨0,0,[]⟩)] =
        some (_,_) from rfl)⟩
  obtain ⟨after,run⟩ := ran
  obtain ⟨last,⟨n,d,trees⟩,loaded,rfl,rfl,rfl,_⟩ :=
    (saved_model_loads (by decide) (by decide) rfl saved).mpr (by simp [Taken]) _ _ run (by simp [savedKey]) ⟨0,0,[]⟩
  exact ⟨stored,after,last,saved,run,loaded⟩

/-- A forest of 125000000 trees has 1000000008 bytes, more than SQLite takes by default. -/
private def manyTrees : Iforest := ⟨125000000,8,List.replicate 125000000 ⟨0,50⟩⟩

/-- The blob of 125000000 trees is refused, the save returns 0 all the same, and every load reads
    outside of the empty block that it gets. -/
theorem refused_blob_lost : ∃ stored,aiModelSave true true false true (some [1]) (some manyTrees) noModels = some (stored,0) ∧
    8 + 8 * manyTrees.nTrees.toInt < 2 ^ 31 ∧ manyTrees.trees.length = manyTrees.nTrees.toNatClampNeg ∧
    (∀ g,aiModelLoad true true true (some [1]) (some g) stored = none) ∧ ¬ LoadsBack manyTrees [1] stored := by
  have nonneg : 0 ≤ manyTrees.nTrees := by decide
  have fits : 8 + 8 * manyTrees.nTrees.toInt < 2 ^ 31 := by decide
  have whole : manyTrees.trees.length = manyTrees.nTrees.toNatClampNeg := List.length_replicate
  obtain ⟨stored,saved⟩ := save_defined nonneg fits whole true true false true [1] noModels
  obtain ⟨opened,row⟩ := save_row nonneg fits whole saved
  obtain ⟨blob,there,empty⟩ := Option.map_eq_some_iff.mp row
  have lost : ∀ g,aiModelLoad true true true (some [1]) (some g) stored = none := by
    intro g
    obtain ⟨_,_,_,loaded⟩ := aiModelLoad_eq true true true [1] g stored
    have nothing : readModel true blob.val = none := by
      rw [empty]
      rfl
    simp [loaded,opened,there,nothing]
  refine ⟨stored,saved,fits,whole,lost,fun back => ?_⟩
  obtain ⟨_,_,ran,_⟩ := back [] stored .start nofun manyTrees
  rw [lost] at ran
  cases ran

end Nulleye.ModelRoundTrips
