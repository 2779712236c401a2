import Nulleye.AiEngine
import Nulleye.EventFeatures

/-!
The AI engine over the lives of the program. A life begins with the forest that an earlier
life stored last, frees every array that it allocates but the one that a stored forest
displaces, and meets no undefined behaviour if the stored forest is sound.
-/
namespace Nulleye.AiRestarts
open Nulleye.AiEngine Nulleye.CStrings Nulleye.Codecs Nulleye.Consumers Nulleye.Events Nulleye.Ledgers Nulleye.Models
open Nulleye.EventFeatures hiding InOrder
open Nulleye.ModelLoads Nulleye.ModelRoundTrips Nulleye.Runs Nulleye.SharedQueues

/-- The rows of the table `model`. -/
abbrev Table := Bytes → Option Blob

/-- One life of the program: whether `db_init` opens the file or falls back to memory, and
    what the engine gets from the functions that it calls, with the events that it handles. -/
structure Life where
  opened : Bool
  startup : Startup
  work : List (Results × NuleyeEvent)

/-- The database as `db_init` leaves it. -/
def opening (opened : Bool) (file : Table) : Db :=
  ⟨true,⟨⟨none,none⟩,false⟩,⟨none,false⟩,if opened then file else fun _ => none⟩

/-- The table in the file after some lives, and the models that were stored in it, oldest first. -/
def lives (hour : UInt64 → Int32) : List Life → Table → Option (Table × List Iforest)
  | [],file => some (file,[])
  | l :: later,file => do
    let e ← life hour l.startup l.work (opening l.opened file)
    let (last,stored) ← lives hour later (if l.opened then e.db.model else file)
    return (last,(if l.opened then e.stored else []) ++ stored)

/-! ### Steps -/

/-- What every turn keeps is kept by all. -/
theorem turns_invariant {hour : UInt64 → Int32} {I : Engine → Prop} {work : List (Results × NuleyeEvent)}
    (keep : ∀ w ∈ work,∀ e e',I e → aiTurn hour w.1 w.2 e = some e' → I e') {e e' : Engine}
    (start : I e) (ran : turns hour work e = some e') : I e' := by
  induction work generalizing e with
  | nil =>
    cases ran
    exact start
  | cons w later ih =>
    rw [turns,List.foldlM_cons] at ran
    obtain ⟨next,first,ran⟩ := Option.bind_eq_some_iff.mp ran
    exact ih (fun w' member => keep w' (List.mem_cons_of_mem _ member)) (keep w List.mem_cons_self _ _ start first) ran

theorem turns_trained {hour : UInt64 → Int32} {first : Iforest} {work : List (Results × NuleyeEvent)} {e e' : Engine}
    {evs : List NuleyeEvent} (trained : Trained hour first evs e) (ran : turns hour work e = some e') :
    Trained hour first (evs ++ work.map Prod.snd) e' := by
  induction work generalizing e evs with
  | nil =>
    cases ran
    simpa using trained
  | cons w later ih =>
    rw [turns,List.foldlM_cons] at ran
    obtain ⟨next,ran_first,ran⟩ := Option.bind_eq_some_iff.mp ran
    simpa using ih (turn_trained trained ran_first) ran

/-- A life is its start, its turns if there is a window, and its end. -/
theorem life_cases {hour : UInt64 → Int32} {s : Startup} {work : List (Results × NuleyeEvent)} {db : Db} {e' : Engine}
    (ran : life hour s work db = some e') :
    ∃ e,Begun s db e ∧ ((s.window = none ∧ e' = e.iforestFree) ∨
      ∃ window last,s.window = some window ∧ turns hour work (e.enter window) = some last ∧ e' = last.leave.iforestFree) := by
  obtain ⟨e,begun,ran⟩ := Option.bind_eq_some_iff.mp ran
  refine ⟨e,aiInit_begun begun,?_⟩
  cases present : s.window with
  | none =>
    simp only [present] at ran
    cases ran
    exact .inl ⟨rfl,rfl⟩
  | some window =>
    simp only [present] at ran
    obtain ⟨last,turned,same⟩ := Option.bind_eq_some_iff.mp ran
    cases same
    exact .inr ⟨window,last,rfl,turned,rfl⟩

/-- The forests that the engine makes. -/
theorem made_forest {random : Random} {m : Iforest} (made : Consumers.iforestInit random 32 8 = some m) :
    m.nTrees = 32 ∧ m.trees.length = 32 ∧ ∀ t ∈ m.trees,0 ≤ t.featureIdx := by
  unfold Consumers.iforestInit at made
  split_ifs at made
  cases made
  refine ⟨rfl,by simp,?_⟩
  intro t member
  obtain ⟨i,_,rfl⟩ := List.mem_map.mp member
  have small : random.rand (2 * i) % 6 < 6 := Nat.mod_lt _ (by decide)
  rw [Int32.le_iff_toInt_le,Int32.toInt_ofNat_of_lt (by omega)]
  exact Int.natCast_nonneg _

/-! ### The stored models -/

/-- The table after these models were stored in the table of `file`. -/
structure Keeps (file : Table) (stored : List Iforest) (table : Table) : Prop where
  untouched : stored = [] → table defaultKey = file defaultKey
  last : ∀ m ∈ stored.getLast?,∃ blob,table defaultKey = some blob ∧ readModel true blob.val = some m
  others : ∀ key,key ≠ defaultKey → table key = file key

theorem keeps_start (file : Table) : Keeps file [] file := ⟨fun _ => rfl,fun _ member => (by cases member),fun _ _ => rfl⟩

theorem Keeps.trans {file table table' : Table} {stored stored' : List Iforest} (keeps : Keeps file stored table)
    (later : Keeps table stored' table') : Keeps file (stored ++ stored') table' where
  untouched none_stored := by
    obtain ⟨none_before,none_later⟩ := List.append_eq_nil_iff.mp none_stored
    rw [later.untouched none_later,keeps.untouched none_before]
  last m member := by
    by_cases none_later : stored' = []
    · rw [none_later,List.append_nil] at member
      rw [later.untouched none_later]
      exact keeps.last m member
    · rw [List.getLast?_append_of_ne_nil _ none_later] at member
      exact later.last m member
  others key other := (later.others key other).trans (keeps.others key other)

theorem save_keeps {random : Random} {m : Iforest} (made : Consumers.iforestInit random 32 8 = some m) {alloc done : Bool}
    {db after : Db} {rc : Int} (ran : aiModelSave alloc true true done (some defaultKey) (some m) db = some (after,rc)) :
    Keeps db.model (if rc = 0 then [m] else []) after.model := by
  obtain ⟨trees,whole,_⟩ := made_forest made
  obtain ⟨_,rows⟩ := save_frame ran
  have others : ∀ key,key ≠ defaultKey → after.model key = db.model key :=
    fun key other => rows key fun _ same => other (Option.some.inj same).symm
  by_cases saved : rc = 0
  · subst saved
    have nonneg : 0 ≤ m.nTrees := by rw [trees]; decide
    have count : m.trees.length = m.nTrees.toNatClampNeg := by rw [whole,trees]; rfl
    obtain ⟨_,blob,row,bytes⟩ := save_stores nonneg (by rw [trees]; decide) count ran
    refine ⟨fun absent => by simp at absent,?_,others⟩
    intro m' member
    obtain rfl : m' = m := by simpa [eq_comm] using member
    exact ⟨blob,row,by rw [bytes,readModel_block nonneg count]⟩
  · rw [if_neg saved]
    exact ⟨fun _ => rows _ fun zero => absurd zero saved,fun _ member => (by cases member),others⟩

theorem turn_keeps {hour : UInt64 → Int32} {c : Results} (taken : c.Taken) {ev : NuleyeEvent} {file : Table} {e e' : Engine}
    (keeps : Keeps file e.stored e.db.model) (ran : aiTurn hour c ev e = some e') : Keeps file e'.stored e'.db.model := by
  obtain ⟨_,_,_,_,_,_,⟨_,rfl⟩ | ⟨_,model,db,rc,made,saved,rfl⟩⟩ := aiTurn_cases ran
  · exact keeps
  · rw [taken.1,taken.2] at saved
    have more := keeps.trans (save_keeps made saved)
    dsimp only
    split_ifs with zero
    · simpa [zero] using more
    · simpa [zero] using more

theorem life_keeps {hour : UInt64 → Int32} {s : Startup} {work : List (Results × NuleyeEvent)}
    (taken : ∀ w ∈ work,w.1.Taken) {db : Db} {e' : Engine} (ran : life hour s work db = some e') : Keeps db.model e'.stored e'.db.model := by
  obtain ⟨e,start,⟨_,rfl⟩ | ⟨window,last,_,turned,rfl⟩⟩ := life_cases ran
  · simpa [Engine.iforestFree,start.stored,start.table] using keeps_start db.model
  · have kept : Keeps db.model last.stored last.db.model := by
      refine turns_invariant (I := fun e => Keeps db.model e.stored e.db.model)
        (fun w member _ _ keeps => turn_keeps (taken w member) keeps) ?_ turned
      simpa [Engine.enter,start.stored,start.table] using keeps_start db.model
    exact kept

theorem lives_keep {hour : UInt64 → Int32} {ls : List Life} (taken : ∀ l ∈ ls,∀ w ∈ l.work,w.1.Taken) {file file' : Table}
    {stored : List Iforest} (ran : lives hour ls file = some (file',stored)) : Keeps file stored file' := by
  induction ls generalizing file stored with
  | nil =>
    cases ran
    exact keeps_start _
  | cons l later ih =>
    obtain ⟨e,lived,ran⟩ := Option.bind_eq_some_iff.mp ran
    obtain ⟨⟨last,more⟩,rest,same⟩ := Option.bind_eq_some_iff.mp ran
    cases same
    refine Keeps.trans ?_ (ih (fun l' member => taken l' (List.mem_cons_of_mem _ member)) rest)
    cases opened : l.opened with
    | true =>
      have kept := life_keeps (taken l List.mem_cons_self) lived
      rw [opened] at kept
      simpa [opening] using kept
    | false => simpa using keeps_start file

/-- Where SQLite takes what is stored, a life that can read its database begins with the forest that was stored
    last by an earlier life that had opened the file, with that in the file if there was none, and with a new one
    if the file has none. Under every schedule it scores its first 10000 events with that forest. -/
theorem restart_model {hour : UInt64 → Int32} {ls : List Life} (taken : ∀ l ∈ ls,∀ w ∈ l.work,w.1.Taken)
    {file file' : Table} {stored : List Iforest} (ran : lives hour ls file = some (file',stored)) {s : Startup}
    (reads : s.readable = true ∧ s.blobAlloc = true ∧ s.treesAlloc = true)
    {e : Engine} (begun : aiInit s (opening true file') = some e) :
    (match stored.getLast? with
      | some m => e.records.gModel = m
      | none =>
        match file defaultKey with
        | some blob => readModel true blob.val = some e.records.gModel
        | none => Consumers.iforestInit s.random 32 8 = some e.records.gModel) ∧
      ∀ {capacity : Nat} {window : FeatureWindow} {trace : List (Label NuleyeEvent Loop)} {t : World NuleyeEvent Loop Engine},
        Run (step capacity (engineBody hour)) free (entered window e) trace t →
          ∀ k < 10000,∀ ev score,t.records.records.scored[k]? = some (ev,score) → ∃ f,
            aiExtractFeatures hour ev = some f ∧ iforestScore (some e.records.gModel) (some f) featureCount = some score := by
  have start := aiInit_begun begun
  have keeps := lives_keep taken ran
  have found : loads s (opening true file') = file' defaultKey := by simp [loads,opening,reads.1,reads.2.1]
  constructor
  · cases last : stored.getLast? with
    | some m =>
      obtain ⟨blob,row,read⟩ := keeps.last m last
      have again := start.read blob (by rw [found,row]; rfl)
      rw [reads.2.2,read] at again
      exact (Option.some.inj again).symm
    | none =>
      have none_stored : stored = [] := List.getLast?_eq_none_iff.mp last
      rw [keeps.untouched none_stored] at found
      cases row : file defaultKey with
      | some blob =>
        have read := start.read blob (by rw [found,row]; rfl)
        rwa [reads.2.2] at read
      | none =>
        obtain ⟨model,made,fresh⟩ := start.made
        rw [made,fresh (found.trans row)]
  · intro capacity window trace t run k early ev score at_k
    obtain ⟨model,f,first,features,scored⟩ := (run_trained begun run).scores k ev score at_k
    rw [Nat.div_eq_of_lt early] at first
    cases first
    exact ⟨f,features,scored⟩

/-- A file that holds a forest of one tree. -/
private def stocked : Table := fun key => if key = defaultKey then some (blobOf (block ⟨1,8,[⟨2,50⟩]⟩) 16) else none

private def plain : Startup := ⟨⟨true,fun _ => 0⟩,true,true,true,some (Vector.replicate 10000 [])⟩

private def granted : Results := ⟨⟨true,fun _ => 0⟩,true,true,true,true⟩

/-- A first life handles an event and stores nothing; the next one begins with the forest of the file and scores an
    event with it. -/
theorem restart_model_first :
    ∃ file e t score,lives (fun _ => 0) [⟨true,plain,[(granted,zeroEvent)]⟩] stocked = some (file,[]) ∧
      aiInit plain (opening true file) = some e ∧ readModel true (block ⟨1,8,[⟨2,50⟩]⟩) = some e.records.gModel ∧
      Run (step 1 (engineBody fun _ => 0)) free (entered (Vector.replicate 10000 []) e)
        [.published zeroEvent,.took .ai zeroEvent,.handled .ai zeroEvent] t ∧
      t.records.records.scored = [(zeroEvent,score)] ∧ ∃ f,aiExtractFeatures (fun _ => 0) zeroEvent = some f ∧
        iforestScore (some e.records.gModel) (some f) featureCount = some score := by
  obtain ⟨file,ran,begins⟩ : ∃ file,lives (fun _ => 0) [⟨true,plain,[(granted,zeroEvent)]⟩] stocked = some (file,[]) ∧
      ∃ e,aiInit plain (opening true file) = some e := ⟨_,rfl,_,rfl⟩
  obtain ⟨e,begun⟩ := begins
  have scores : ∃ t score,Run (step 1 (engineBody fun _ => 0)) free (entered (Vector.replicate 10000 []) e)
      [.published zeroEvent,.took .ai zeroEvent,.handled .ai zeroEvent] t ∧ t.records.records.scored = [(zeroEvent,score)] := by
    cases ran
    cases begun
    exact ⟨_,_,run_of_exec (show exec (step 1 (engineBody fun _ => 0)) free _
      [.publish zeroEvent,.consume .ai,.handle .ai granted] = some (_,_) from rfl),rfl⟩
  obtain ⟨t,score,run,scored⟩ := scores
  obtain ⟨model,scoring⟩ := restart_model (by simp [granted,Results.Taken]) ran ⟨rfl,rfl,rfl⟩ begun
  exact ⟨file,e,t,score,ran,begun,model,run,scored,scoring run 0 (by decide) _ _ (by rw [scored]; rfl)⟩

/-! ### Undefined behaviour -/

/-- A forest that can be scored. -/
structure Scorable (f : Iforest) : Prop where
  some_tree : 1 ≤ f.nTrees
  whole : f.trees.length = f.nTrees.toNatClampNeg
  few : 8 + 8 * f.trees.length < 2 ^ 31
  features : ∀ t ∈ f.trees,0 ≤ t.featureIdx

theorem made_scorable {random : Random} {m : Iforest} (made : Consumers.iforestInit random 32 8 = some m) : Scorable m := by
  obtain ⟨count,whole,features⟩ := made_forest made
  exact ⟨by rw [count]; decide,by rw [whole,count]; rfl,by omega,features⟩

theorem sound_scorable {alloc : Bool} {blob : Blob} (sound : Sound blob.val) (allocated : alloc = true) :
    ∃ g,readModel alloc blob.val = some g ∧ Scorable g := by
  obtain ⟨g,read,some_tree,features⟩ := (readModel_sound alloc blob).mpr ⟨sound,allocated⟩
  obtain ⟨_,whole,inside⟩ := readModel_inside read
  have short := blob.property
  exact ⟨g,read,some_tree,whole,by omega,features⟩

theorem turn_defined (hour : UInt64 → Int32) {c : Results} {ev : NuleyeEvent} {e : Engine} (calloc : c.random.calloc = true)
    (ended : Ended ev) (scorable : Scorable e.records.gModel) :
    ∃ e',aiTurn hour c ev e = some e' ∧ Scorable e'.records.gModel := by
  obtain ⟨f,features,six⟩ : ∃ f,aiExtractFeatures hour ev = some f ∧ f.length = 6 := ⟨_,ended.features hour,rfl⟩
  have indexed : ∀ t ∈ e.records.gModel.trees,(featureOf f featureCount t.featureIdx).isSome :=
    fun t member => featureOf_inside six (scorable.features t member)
  obtain ⟨score,scored⟩ := score_defined scorable.some_tree scorable.whole scorable.few indexed
  have made : ∃ model,Consumers.iforestInit c.random 32 8 = some model := by
    unfold Consumers.iforestInit
    rw [if_neg (by simp [calloc])]
    exact ⟨_,rfl⟩
  obtain ⟨model,made⟩ := made
  have good := made_scorable made
  have fits : 8 + 8 * model.nTrees.toInt < 2 ^ 31 := by rw [(made_forest made).1]; decide
  obtain ⟨after,saved⟩ :=
    save_defined (one_le_nonneg good.some_tree) fits good.whole c.alloc c.text c.bytes c.done defaultKey e.db
  simp only [aiTurn,features,scored,Option.bind_eq_bind,Option.bind_some]
  by_cases full : (if e.records.wcount < 10000 then e.records.wcount + 1 else e.records.wcount) = 10000
  · rw [if_pos full]
    simp only [Engine.iforestInit,Engine.iforestFree,made,Option.map_some,Option.bind_some,Engine.aiModelSave,saved,
      Option.bind_eq_bind]
    exact ⟨_,rfl,made_scorable made⟩
  · rw [if_neg full]
    exact ⟨_,rfl,scorable⟩

theorem turns_defined (hour : UInt64 → Int32) {work : List (Results × NuleyeEvent)} (e : Engine)
    (callocs : ∀ w ∈ work,w.1.random.calloc = true) (ended : ∀ w ∈ work,Ended w.2)
    (scorable : Scorable e.records.gModel) : ∃ e',turns hour work e = some e' := by
  induction work generalizing e with
  | nil => exact ⟨e,rfl⟩
  | cons w later ih =>
    obtain ⟨next,first,still⟩ := turn_defined hour (callocs w List.mem_cons_self) (ended w List.mem_cons_self) scorable
    obtain ⟨e',rest⟩ := ih next (fun w' member => callocs w' (List.mem_cons_of_mem _ member))
      (fun w' member => ended w' (List.mem_cons_of_mem _ member)) still
    refine ⟨e',?_⟩
    rw [turns,List.foldlM_cons,first]
    exact rest

/-- A vote that was taken had its feature. -/
theorem scoreLoop_features {trees : List IfNode} {x : List Int32} {n i : Nat} {acc total : Int}
    (ran : scoreLoop trees x featureCount n i acc = some total) {j : Nat} (above : i ≤ j) (below : j < i + n) {t : IfNode}
    (at_j : trees[j]? = some t) : 0 ≤ t.featureIdx := by
  induction n generalizing i acc with
  | zero => omega
  | succ n ih =>
    obtain ⟨tree,at_i,ran⟩ := Option.bind_eq_some_iff.mp ran
    obtain ⟨val,valued,ran⟩ := Option.bind_eq_some_iff.mp ran
    rcases Nat.eq_or_lt_of_le above with rfl | later
    · rw [at_j] at at_i
      cases at_i
      by_contra negative
      have under : t.featureIdx < 0 := Int32.not_le.mp negative
      have counted : t.featureIdx < featureCount := Int32.lt_trans under (by decide)
      rw [featureOf,if_pos counted,featureAt,if_pos under] at valued
      cases valued
    · dsimp only at ran
      split_ifs at ran
      · exact ih ran later (by omega)
      · exact ih ran later (by omega)

theorem scored_sound {alloc : Bool} {blob : Blob} {g : Iforest} (read : readModel alloc blob.val = some g) {x : List Int32}
    {score : Int} (scored : iforestScore (some g) (some x) featureCount = some score) : Sound blob.val ∧ alloc = true := by
  obtain ⟨nonneg,whole,_⟩ := readModel_inside read
  obtain ⟨total,ran,scored⟩ := Option.bind_eq_some_iff.mp scored
  have nonzero : g.nTrees ≠ 0 := by
    intro zero
    simp [zero] at scored
  refine (readModel_sound alloc blob).mp ⟨g,read,?_,?_⟩
  · rw [Int32.le_iff_toInt_le] at nonneg ⊢
    have other : g.nTrees.toInt ≠ 0 := fun zero => nonzero (Int32.toInt_inj.mp zero)
    have one : (1 : Int32).toInt = 1 := rfl
    have zero : (0 : Int32).toInt = 0 := rfl
    omega
  · intro t member
    obtain ⟨j,inside,rfl⟩ := List.getElem_of_mem member
    exact scoreLoop_features ran (Nat.zero_le j) (by omega) (List.getElem?_eq_getElem inside)

/-- A life whose stored forest is sound, and its array allocated, meets no undefined behaviour. -/
theorem life_runs {hour : UInt64 → Int32} {s : Startup} {work : List (Results × NuleyeEvent)} {db : Db}
    (calloc : s.random.calloc = true) (callocs : ∀ w ∈ work,w.1.random.calloc = true) (ended : ∀ w ∈ work,Ended w.2)
    (window : s.window.isSome) (sound : ∀ blob ∈ loads s db,Sound blob.val ∧ s.treesAlloc = true) :
    ∃ e,life hour s work db = some e := by
  obtain ⟨window,present⟩ := Option.isSome_iff_exists.mp window
  have made : ∃ model,Consumers.iforestInit s.random 32 8 = some model := by
    unfold Consumers.iforestInit
    rw [if_neg (by simp [calloc])]
    exact ⟨_,rfl⟩
  obtain ⟨model,made⟩ := made
  have begins : ∃ e,aiInit s db = some e ∧ Scorable e.records.gModel := by
    obtain ⟨after,_,_,loaded⟩ := aiModelLoad_eq s.readable s.blobAlloc s.treesAlloc defaultKey model db
    rw [← loads] at loaded
    have same : (blank db).db = db := rfl
    simp only [aiInit,Engine.iforestInit,made,Option.map_some,Option.bind_eq_bind,Option.bind_some,same,loaded]
    cases found : loads s db with
    | none => exact ⟨_,rfl,made_scorable made⟩
    | some blob =>
      obtain ⟨good,allocated⟩ := sound blob found
      obtain ⟨g,read,scorable⟩ := sound_scorable good allocated
      rw [allocated] at read
      simp only [read,Option.map_some,Option.bind_some,allocated]
      exact ⟨_,rfl,scorable⟩
  obtain ⟨e,begun,scorable⟩ := begins
  obtain ⟨last,turned⟩ := turns_defined hour (e.enter window) callocs ended scorable
  refine ⟨last.leave.iforestFree,?_⟩
  simp only [life,begun,present,Option.bind_eq_bind,Option.bind_some,turned]
  rfl

/-- A life that handles an event, and only events whose strings end inside their arrays, meets no undefined
    behaviour exactly if the block of the stored forest, where there is one, is sound and its array can be allocated. -/
theorem life_defined {hour : UInt64 → Int32} {s : Startup} {work : List (Results × NuleyeEvent)} {db : Db}
    (calloc : s.random.calloc = true) (callocs : ∀ w ∈ work,w.1.random.calloc = true) (ended : ∀ w ∈ work,Ended w.2)
    (window : s.window.isSome) (handles : work ≠ []) :
    (∃ e,life hour s work db = some e) ↔ ∀ blob ∈ loads s db,Sound blob.val ∧ s.treesAlloc = true := by
  constructor
  · rintro ⟨e,ran⟩ blob found
    obtain ⟨e₀,start,⟨absent,_⟩ | ⟨window,last,_,turned,_⟩⟩ := life_cases ran
    · simp [absent] at window
    · obtain ⟨w,later,rfl⟩ := List.exists_cons_of_ne_nil handles
      rw [turns,List.foldlM_cons] at turned
      obtain ⟨next,first,_⟩ := Option.bind_eq_some_iff.mp turned
      obtain ⟨_,score,_,_,scored,_⟩ := aiTurn_cases first
      exact scored_sound (start.read blob found) scored
  · exact life_runs calloc callocs ended window

private theorem zeroEvent_ended : Ended zeroEvent := ⟨by decide,by decide⟩

/-- A stored block that counts a tree and holds none is read beyond its end. -/
theorem life_defined_one : ¬ ∃ e,life (fun _ => 0) plain [(granted,zeroEvent)] (opening true fun _ =>
    some (blobOf (int32.encode 1 ++ int32.encode 8) 8)) = some e := by
  intro ran
  obtain ⟨sound,_⟩ := (life_defined rfl (by simp [granted]) (by simp [zeroEvent_ended]) rfl (by simp)).mp ran _ rfl
  revert sound
  rintro ⟨n,count,positive,inside,_⟩
  obtain rfl : n = 1 := by
    cases count
    rfl
  revert inside
  decide

/-! ### The arrays -/

/-- The array of the forest and the window are to be freed, and those in `lost` are not. -/
structure Holding (lost : List Nat) (base : Nat) (e : Engine) : Prop where
  owes : e.heap.Owes (e.trees.toList ++ (e.window.toList ++ lost))
  count : e.heap.fresh = base + e.records.saved.length

theorem turn_holding {hour : UInt64 → Int32} {c : Results} {ev : NuleyeEvent} {lost : List Nat} {base : Nat} {e e' : Engine}
    (holding : Holding lost base e) (ran : aiTurn hour c ev e = some e') : Holding lost base e' := by
  obtain ⟨_,_,_,_,_,_,⟨_,rfl⟩ | ⟨_,model,db,rc,_,_,rfl⟩⟩ := aiTurn_cases ran
  · exact ⟨holding.owes,holding.count⟩
  · refine ⟨holding.owes.releaseSome.acquired,?_⟩
    simp [holding.count,Nat.add_assoc]

/-- The releases of a ledger that owes its first resource, or none. -/
theorem owes_releases {heap : Ledger} {first : Bool} {n : Nat} (owes : heap.Owes (if first then [0] else []))
    (count : heap.fresh = n + 1) : heap.releases = (if first then 0 else 1) :: List.replicate n 1 := by
  apply List.ext_getElem
  · simpa [Ledger.fresh] using count
  · intro i inside _
    have once := owes.once i inside
    cases first with
    | true =>
      cases i with
      | zero => simpa using once
      | succ i => simpa using once
    | false =>
      cases i with
      | zero => simpa using once
      | succ i => simpa using once

theorem begun_holding {s : Startup} {db : Db} {e : Engine} (start : Begun s db e) :
    e.heap.Owes (e.trees.toList ++ if (loads s db).isSome then [0] else []) ∧
      e.heap.fresh = 1 + if (loads s db).isSome && s.treesAlloc then 1 else 0 := by
  have one : Ledger.empty.acquire.Owes [0] := owes_empty.acquire
  rw [start.heap,start.trees]
  cases (loads s db).isSome with
  | false => exact ⟨one,rfl⟩
  | true =>
    cases s.treesAlloc with
    | false => exact ⟨one,rfl⟩
    | true => exact ⟨one.acquired,rfl⟩

/-- Over a life every array and the window are freed once, except that a stored forest displaces
    the first array, which is then never freed. -/
theorem life_heap {hour : UInt64 → Int32} {s : Startup} {work : List (Results × NuleyeEvent)} {db : Db} {e : Engine}
    (ran : life hour s work db = some e) :
    e.heap.releases = (if (loads s db).isSome then 0 else 1) :: List.replicate
      ((if (loads s db).isSome && s.treesAlloc then 1 else 0) + if s.window.isSome then 1 + work.length / 10000 else 0) 1 := by
  obtain ⟨e₀,start,⟨absent,rfl⟩ | ⟨window,last,present,turned,rfl⟩⟩ := life_cases ran
  · obtain ⟨owes,count⟩ := begun_holding start
    refine owes_releases owes.releaseSome ?_
    simp [Engine.iforestFree,count,absent,Nat.add_comm]
  · obtain ⟨owes,count⟩ := begun_holding start
    have enters : Holding (if (loads s db).isSome then [0] else []) (1 + (if (loads s db).isSome && s.treesAlloc then 1 else 0) + 1)
        (e₀.enter window) := by
      refine ⟨?_,by simp [Engine.enter,count,start.saved]⟩
      exact owes.acquired.perm List.perm_middle.symm
    have holding := turns_invariant (fun _ _ _ _ holding => turn_holding holding) enters turned
    have trained := turns_trained (trained_start rfl start.scored start.saved start.alerts window) turned
    have retrained : last.records.saved.length = work.length / 10000 := by simpa using trained.saved
    refine owes_releases (Ledger.Owes.releaseSome (Ledger.Owes.releaseSome (holding.owes.perm ?_))) ?_
    · change (last.trees.toList ++ (last.window.toList ++ _)).Perm (last.window.toList ++ (last.trees.toList ++ _))
      rw [← List.append_assoc,← List.append_assoc]
      exact List.perm_append_comm.append_right _
    · simp only [Engine.iforestFree,Engine.leave,fresh_releaseSome,holding.count,retrained,present,Option.isSome_some,if_true]
      omega

/-- A life that begins with a stored forest and retrains once: of its four blocks the first is never freed. -/
theorem life_heap_one : ∃ e,life (fun _ => 0) plain (List.replicate 10000 (granted,zeroEvent)) (opening true stocked) = some e ∧
    e.heap.releases = [0,1,1,1] := by
  have stored : loads plain (opening true stocked) = some (blobOf (block ⟨1,8,[⟨2,50⟩]⟩) 16) := rfl
  have sound : Sound (blobOf (block ⟨1,8,[⟨2,50⟩]⟩) 16).val :=
    ((readModel_sound true _).mp ⟨⟨1,8,[⟨2,50⟩]⟩,rfl,by decide,by decide⟩).1
  have each : ∀ w ∈ List.replicate 10000 (granted,zeroEvent),w.1.random.calloc = true ∧ Ended w.2 := by
    intro w member
    rw [List.eq_of_mem_replicate member]
    exact ⟨rfl,zeroEvent_ended⟩
  have ran : ∃ e,life (fun _ => 0) plain (List.replicate 10000 (granted,zeroEvent)) (opening true stocked) = some e := by
    refine life_runs rfl (fun w member => (each w member).1) (fun w member => (each w member).2) rfl ?_
    intro blob found
    rw [stored] at found
    cases found
    exact ⟨sound,rfl⟩
  obtain ⟨e,ran⟩ := ran
  refine ⟨e,ran,(life_heap ran).trans ?_⟩
  rw [stored,List.length_replicate]
  rfl

end Nulleye.AiRestarts
