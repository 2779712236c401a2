import Nulleye.Consumers
import Nulleye.Ledgers
import Nulleye.ModelRoundTrips

/-!
The AI engine: the ring of feature vectors that its thread fills, the forest that it
replaces whenever the ring is full, the copy of the forest in the database, and the
arrays of trees that it allocates and frees.
-/
namespace Nulleye.AiEngine
open Nulleye.CStrings Nulleye.Consumers Nulleye.Events Nulleye.Ledgers Nulleye.Models Nulleye.ModelLoads
open Nulleye.ModelRoundTrips Nulleye.Rings Nulleye.Runs Nulleye.SharedQueues

/-- What `feature_window` points to: a vector of features for each of `window` events. -/
abbrev FeatureWindow := Vector (List Int32) 10000

theorem window_pos : 0 < 10000 := by decide

/-- The globals of the module and the locals of `ai_thread`. -/
structure Engine where
  records : Records
  featureWindow : FeatureWindow
  wpos : Nat
  db : Db
  /-- The models for which `ai_model_save` returned 0. -/
  stored : List Iforest
  /-- The arrays of trees and the window, as they were allocated. -/
  heap : Ledger
  /-- The array that `g_model.trees` points to; NULL is `none`. -/
  trees : Option Nat
  /-- What `feature_window` points to. -/
  window : Option Nat

/-- `iforest_free(&g_model)`. -/
def Engine.iforestFree (e : Engine) : Engine :=
  { e with
    records := { e.records with gModel := { e.records.gModel with trees := [] } }
    heap := e.heap.releaseSome e.trees
    trees := none }

/-- `iforest_init(&g_model, g_trees, 8)`. -/
def Engine.iforestInit (random : Random) (e : Engine) : Option Engine :=
  (Consumers.iforestInit random 32 8).map fun model =>
    { e with records := { e.records with gModel := model }, heap := e.heap.acquire, trees := some e.heap.fresh }

/-- The key of the engine's model. -/
def defaultKey : Bytes := ascii "default"

/-! ### The thread -/

/-- What one turn of the loop gets from the functions that it calls; the last three are the
    results of the calls into the database. -/
structure Results where
  random : Random
  alloc : Bool
  text : Bool
  bytes : Bool
  done : Bool

/-- SQLite takes the key and the blob of a model that is stored. -/
def Results.Taken (c : Results) : Prop := c.text = true ∧ c.bytes = true

/-- `ai_model_save("default", &g_model)`. -/
def Engine.aiModelSave (c : Results) (e : Engine) : Option Engine := do
  let (db,rc) ← Models.aiModelSave c.alloc c.text c.bytes c.done (some defaultKey) (some e.records.gModel) e.db
  return { e with
    db
    records := { e.records with saved := e.records.saved ++ [e.records.gModel] }
    stored := if rc = 0 then e.stored ++ [e.records.gModel] else e.stored }

/-- The body of the loop of `ai_thread`, with an event that was consumed. -/
def aiTurn (hour : UInt64 → Int32) (c : Results) (ev : NuleyeEvent) (e : Engine) : Option Engine := do
  let f ← aiExtractFeatures hour ev
  let e := { e with featureWindow := store window_pos e.featureWindow e.wpos f, wpos := (e.wpos + 1) % 10000 }
  let wcount := if e.records.wcount < 10000 then e.records.wcount + 1 else e.records.wcount
  let score ← iforestScore (some e.records.gModel) (some f) featureCount
  let e := { e with records := { e.records with
    wcount
    scored := e.records.scored ++ [(ev,score)]
    alerts := if 85 ≤ score then e.records.alerts ++ [ev] else e.records.alerts } }
  if wcount = 10000 then
    let e ← e.iforestFree.iforestInit c.random
    let e ← e.aiModelSave c
    return { e with records := { e.records with wcount := 0 } }
  else return e

/-- What the loops do with an event; only that of the AI engine has more than the records. -/
def engineBody (hour : UInt64 → Int32) : Loop → Results → NuleyeEvent → Engine → Option Engine
  | .ai,c,ev,e => aiTurn hour c ev e
  | l,c,ev,e => (body hour l c.random ev e.records).map fun records => { e with records }

/-! ### From the start to the end -/

/-- What `ai_init` and the beginning of `ai_thread` get from the functions that they call. -/
structure Startup where
  random : Random
  readable : Bool
  blobAlloc : Bool
  treesAlloc : Bool
  /-- What `malloc` returns for the window; it is not initialised. -/
  window : Option FeatureWindow

/-- The globals before `ai_init`; those of static storage are zero. -/
def blank (db : Db) : Engine :=
  ⟨⟨⟨0,0,[]⟩,0,[],[],[],[],Vector.replicate 1024 zeroEvent,0⟩,Vector.replicate 10000 [],0,db,[],.empty,none,none⟩

/-- `ai_init`. -/
def aiInit (s : Startup) (db : Db) : Option Engine := do
  let e ← (blank db).iforestInit s.random
  let (db,rc,f) ← aiModelLoad s.readable s.blobAlloc s.treesAlloc (some defaultKey) (some e.records.gModel) e.db
  let e := { e with db, records := { e.records with gModel := f.getD e.records.gModel } }
  return if rc ≠ 0 then e
    else if s.treesAlloc then { e with heap := e.heap.acquire, trees := some e.heap.fresh }
    else { e with trees := none }

/-- The beginning of `ai_thread`. -/
def Engine.enter (window : FeatureWindow) (e : Engine) : Engine :=
  { e with
    featureWindow := window
    wpos := 0
    records := { e.records with wcount := 0 }
    heap := e.heap.acquire
    window := some e.heap.fresh }

/-- The end of `ai_thread`. -/
def Engine.leave (e : Engine) : Engine := { e with heap := e.heap.releaseSome e.window, window := none }

/-- One event after the other. -/
def turns (hour : UInt64 → Int32) (work : List (Results × NuleyeEvent)) (e : Engine) : Option Engine :=
  work.foldlM (fun e w => aiTurn hour w.1 w.2 e) e

/-- From `ai_init` over `ai_start` and `ai_stop` to `ai_fini`; without a window the thread ends at once. -/
def life (hour : UInt64 → Int32) (s : Startup) (work : List (Results × NuleyeEvent)) (db : Db) : Option Engine := do
  let e ← aiInit s db
  match s.window with
  | none => return e.iforestFree
  | some window =>
    let e ← turns hour work (e.enter window)
    return e.leave.iforestFree

/-! ### One turn -/

section Turns
variable {hour : UInt64 → Int32} {c : Results} {ev : NuleyeEvent} {e e' : Engine}

/-- Everything that a turn can do. -/
theorem aiTurn_cases (ran : aiTurn hour c ev e = some e') :
    ∃ f score wcount,aiExtractFeatures hour ev = some f ∧
      iforestScore (some e.records.gModel) (some f) featureCount = some score ∧
      wcount = (if e.records.wcount < 10000 then e.records.wcount + 1 else e.records.wcount) ∧
      ((wcount ≠ 10000 ∧ e' = { e with
          featureWindow := store window_pos e.featureWindow e.wpos f
          wpos := (e.wpos + 1) % 10000
          records := { e.records with
            wcount
            scored := e.records.scored ++ [(ev,score)]
            alerts := if 85 ≤ score then e.records.alerts ++ [ev] else e.records.alerts } }) ∨
        (wcount = 10000 ∧ ∃ model db rc,Consumers.iforestInit c.random 32 8 = some model ∧
          Models.aiModelSave c.alloc c.text c.bytes c.done (some defaultKey) (some model) e.db = some (db,rc) ∧ e' = { e with
            featureWindow := store window_pos e.featureWindow e.wpos f
            wpos := (e.wpos + 1) % 10000
            records := { e.records with
              gModel := model
              wcount := 0
              scored := e.records.scored ++ [(ev,score)]
              alerts := if 85 ≤ score then e.records.alerts ++ [ev] else e.records.alerts
              saved := e.records.saved ++ [model] }
            db
            stored := if rc = 0 then e.stored ++ [model] else e.stored
            heap := (e.heap.releaseSome e.trees).acquire
            trees := some (e.heap.releaseSome e.trees).fresh })) := by
  obtain ⟨f,features,ran⟩ := Option.bind_eq_some_iff.mp ran
  obtain ⟨score,scored,ran⟩ := Option.bind_eq_some_iff.mp ran
  dsimp only at ran
  generalize (if e.records.wcount < 10000 then e.records.wcount + 1 else e.records.wcount) = wcount at ran
  refine ⟨f,score,wcount,features,scored,rfl,?_⟩
  by_cases full : wcount = 10000
  · rw [if_pos full] at ran
    obtain ⟨made,init,ran⟩ := Option.bind_eq_some_iff.mp ran
    obtain ⟨model,grown,rfl⟩ := Option.map_eq_some_iff.mp init
    obtain ⟨kept,save,ran⟩ := Option.bind_eq_some_iff.mp ran
    obtain ⟨⟨db,rc⟩,written,same⟩ := Option.bind_eq_some_iff.mp save
    cases same
    cases ran
    exact .inr ⟨full,model,db,rc,grown,written,rfl⟩
  · rw [if_neg full] at ran
    cases ran
    exact .inl ⟨full,rfl⟩

/-- A turn does to the records what the loop on its own does to them. -/
theorem aiTurn_records (ran : aiTurn hour c ev e = some e') : aiThread hour c.random ev e.records = some e'.records := by
  obtain ⟨f,score,wcount,features,scored,counted,⟨short,rfl⟩ | ⟨full,model,db,rc,made,_,rfl⟩⟩ := aiTurn_cases ran
  · subst counted
    simp [aiThread,features,scored,if_neg short]
  · subst counted
    simp [aiThread,features,scored,if_pos full,made]

/-- The other loops leave to the engine what is its own. -/
theorem body_others {l : Loop} (other : l ≠ .ai) {random : Random} {r r' : Records} (ran : body hour l random ev r = some r') :
    r'.gModel = r.gModel ∧ r'.wcount = r.wcount ∧ r'.scored = r.scored ∧ r'.alerts = r.alerts ∧ r'.saved = r.saved := by
  cases l with
  | ai => exact absurd rfl other
  | proc =>
    cases ran
    unfold procThread
    split <;> simp
  | net =>
    cases ran
    unfold netThread
    split <;> try split
    all_goals simp
  | tui =>
    simp only [body,consumer] at ran
    split_ifs at ran
    cases ran
    simp

/-- What the engine has done with the events `evs`, if it began with the forest `first`. -/
structure Trained (hour : UInt64 → Int32) (first : Iforest) (evs : List NuleyeEvent) (e : Engine) : Prop where
  wpos : e.wpos = evs.length % 10000
  wcount : e.records.wcount = evs.length % 10000
  saved : e.records.saved.length = evs.length / 10000
  model : (first :: e.records.saved)[evs.length / 10000]? = some e.records.gModel
  scored : e.records.scored.map Prod.fst = evs
  scores : ∀ k ev score,e.records.scored[k]? = some (ev,score) → ∃ model f,
    (first :: e.records.saved)[k / 10000]? = some model ∧ aiExtractFeatures hour ev = some f ∧
      iforestScore (some model) (some f) featureCount = some score
  alerts : e.records.alerts = (e.records.scored.filter fun x => 85 ≤ x.2).map Prod.fst
  features : ∃ fs,evs.map (aiExtractFeatures hour) = fs.map some ∧ Latest window_pos e.featureWindow fs

theorem trained_start {first : Iforest} (model : e.records.gModel = first) (scored : e.records.scored = [])
    (saved : e.records.saved = []) (alerts : e.records.alerts = []) (window : FeatureWindow) :
    Trained hour first [] (e.enter window) where
  wpos := rfl
  wcount := rfl
  saved := congrArg List.length saved
  model := congrArg some model.symm
  scored := by simp [Engine.enter,scored]
  scores k ev score found := by simp [Engine.enter,scored] at found
  alerts := by simp [Engine.enter,scored,alerts]
  features := ⟨[],rfl,fun i x found _ => by cases found⟩

theorem store_wrapped (window : FeatureWindow) (i : Nat) (f : List Int32) :
    store window_pos window (i % 10000) f = store window_pos window i f := by
  simp [store,slot]

/-- A score is given by the forest of its window. -/
theorem scores_grow (more : List Iforest) {first gModel : Iforest} {saved : List Iforest} {scored : List (NuleyeEvent × Int)} {score : Int}
    {f : List Int32} (scores : ∀ k ev score,scored[k]? = some (ev,score) → ∃ model f,
      (first :: saved)[k / 10000]? = some model ∧ aiExtractFeatures hour ev = some f ∧
        iforestScore (some model) (some f) featureCount = some score)
    (model : (first :: saved)[scored.length / 10000]? = some gModel) (features : aiExtractFeatures hour ev = some f)
    (last : iforestScore (some gModel) (some f) featureCount = some score) :
    ∀ k ev' score',(scored ++ [(ev,score)])[k]? = some (ev',score') → ∃ model f,
      (first :: (saved ++ more))[k / 10000]? = some model ∧ aiExtractFeatures hour ev' = some f ∧
        iforestScore (some model) (some f) featureCount = some score' := by
  have kept : ∀ {i : Nat} {m : Iforest},(first :: saved)[i]? = some m → (first :: (saved ++ more))[i]? = some m := by
    intro i m found
    have inside := (List.getElem?_eq_some_iff.mp found).1
    rw [← List.cons_append,List.getElem?_append_left inside]
    exact found
  intro k ev' score' found
  rcases found_append found with ⟨_,earlier⟩ | ⟨rfl,same⟩
  · obtain ⟨m,f',at_k,features',scored'⟩ := scores k ev' score' earlier
    exact ⟨m,f',kept at_k,features',scored'⟩
  · cases same
    exact ⟨gModel,f,kept model,features,last⟩

/-- A turn adds its event. -/
theorem turn_trained {first : Iforest} {evs : List NuleyeEvent} (trained : Trained hour first evs e)
    (ran : aiTurn hour c ev e = some e') : Trained hour first (evs ++ [ev]) e' := by
  obtain ⟨wpos,counted,saved,model,scored,scores,alerts,fs,extracted,latest⟩ := trained
  obtain ⟨f,score,wcount,features,last,next,outcome⟩ := aiTurn_cases ran
  have number : e.records.scored.length = evs.length := by rw [← scored,List.length_map]
  have vectors : fs.length = evs.length := by simpa using (congrArg List.length extracted).symm
  have within : evs.length % 10000 < 10000 := Nat.mod_lt _ window_pos
  rw [counted,if_pos within] at next
  have latest' : Latest window_pos (store window_pos e.featureWindow e.wpos f) (fs ++ [f]) := by
    rw [wpos,store_wrapped,← vectors]
    exact latest.store window_pos f
  have extracted' : (evs ++ [ev]).map (aiExtractFeatures hour) = (fs ++ [f]).map some := by simp [extracted,features]
  have scored' : (e.records.scored ++ [(ev,score)]).map Prod.fst = evs ++ [ev] := by simp [scored]
  have alerts' : (if 85 ≤ score then e.records.alerts ++ [ev] else e.records.alerts) =
      ((e.records.scored ++ [(ev,score)]).filter fun x => 85 ≤ x.2).map Prod.fst := by
    rw [alerts]
    split_ifs with reached <;> simp [reached]
  have at_n : (first :: e.records.saved)[e.records.scored.length / 10000]? = some e.records.gModel := by rw [number,model]
  rcases outcome with ⟨short,rfl⟩ | ⟨full,model',db,rc,_,_,rfl⟩
  · have more : (evs.length + 1) % 10000 = wcount ∧ (evs.length + 1) / 10000 = evs.length / 10000 := by omega
    exact {
      wpos := by simp [wpos]
      wcount := by simp [more.1]
      saved := by simpa [more.2] using saved
      model := by simpa [more.2] using model
      scored := scored'
      scores := by simpa using scores_grow [] scores at_n features last
      alerts := alerts'
      features := ⟨_,extracted',latest'⟩ }
  · have more : (evs.length + 1) % 10000 = 0 ∧ (evs.length + 1) / 10000 = evs.length / 10000 + 1 := by omega
    exact {
      wpos := by simp [wpos]
      wcount := by simp [more.1]
      saved := by simp [more.2,saved]
      model := by simp [more.2,← saved]
      scored := scored'
      scores := scores_grow _ scores at_n features last
      alerts := alerts'
      features := ⟨_,extracted',latest'⟩ }

theorem engineBody_trained {first : Iforest} {done : List (Loop × NuleyeEvent)} {l : Loop}
    (trained : Trained hour first (share .ai done) e) (ran : engineBody hour l c ev e = some e') :
    Trained hour first (share .ai (done ++ [(l,ev)])) e' := by
  have one : share Loop.ai (done ++ [(l,ev)]) = share .ai done ++ if l = .ai then [ev] else [] := by simp
  by_cases ai : l = .ai
  · subst ai
    rw [one,if_pos rfl]
    exact turn_trained trained ran
  · rw [one,if_neg ai,List.append_nil]
    obtain ⟨records,moved,rfl⟩ : ∃ records,body hour l c.random ev e.records = some records ∧ e' = { e with records } := by
      cases l with
      | ai => exact absurd rfl ai
      | proc | net | tui =>
        simp only [engineBody,Option.map_eq_some_iff] at ran
        obtain ⟨records,moved,same⟩ := ran
        exact ⟨records,moved,same.symm⟩
    obtain ⟨gModel,wcount,scored,alerts,saved⟩ := body_others ai moved
    exact {
      wpos := trained.wpos
      wcount := wcount.trans trained.wcount
      saved := (congrArg List.length saved).trans trained.saved
      model := by simpa [gModel,saved] using trained.model
      scored := (congrArg _ scored).trans trained.scored
      scores := by simpa [scored,saved] using trained.scores
      alerts := by simpa [scored,alerts] using trained.alerts
      features := trained.features }

end Turns

/-! ### The start -/

/-- Whether `ai_model_load` gets the block of the stored model. -/
def loads (s : Startup) (db : Db) : Option Blob := if db.gDb && s.readable && s.blobAlloc then db.model defaultKey else none

/-- What `ai_init` leaves, with the forest that it made and the one that it read. -/
structure Begun (s : Startup) (db : Db) (e : Engine) : Prop where
  scored : e.records.scored = []
  saved : e.records.saved = []
  alerts : e.records.alerts = []
  stored : e.stored = []
  window : e.window = none
  opened : e.db.gDb = db.gDb
  table : e.db.model = db.model
  made : ∃ model,Consumers.iforestInit s.random 32 8 = some model ∧ (loads s db = none → e.records.gModel = model)
  read : ∀ blob ∈ loads s db,readModel s.treesAlloc blob.val = some e.records.gModel
  heap : e.heap = if (loads s db).isSome && s.treesAlloc then Ledger.empty.acquire.acquire else Ledger.empty.acquire
  trees : e.trees = if (loads s db).isSome then (if s.treesAlloc then some 1 else none) else some 0

theorem aiInit_begun {s : Startup} {db : Db} {e : Engine} (begun : aiInit s db = some e) : Begun s db e := by
  obtain ⟨e₀,init,begun⟩ := Option.bind_eq_some_iff.mp begun
  obtain ⟨model,made,rfl⟩ := Option.map_eq_some_iff.mp init
  obtain ⟨after,opened,table,loaded⟩ := aiModelLoad_eq s.readable s.blobAlloc s.treesAlloc defaultKey model db
  dsimp only at begun
  have none_before : (blank db).db = db := rfl
  rw [none_before,loaded] at begun
  rw [← loads] at begun
  cases found : loads s db with
  | none =>
    simp only [found] at begun
    cases begun
    exact {
      scored := rfl, saved := rfl, alerts := rfl, stored := rfl, window := rfl
      opened := opened, table := table
      made := ⟨model,made,fun _ => rfl⟩
      read := fun blob member => by simp [found] at member
      heap := by simp [found]; rfl
      trees := by simp [found]; rfl }
  | some blob =>
    simp only [found] at begun
    cases decoded : readModel s.treesAlloc blob.val with
    | none => simp [decoded] at begun
    | some f =>
      simp only [decoded,Option.map_some] at begun
      cases allocated : s.treesAlloc with
      | false =>
        simp only [allocated] at begun
        cases begun
        exact {
          scored := rfl, saved := rfl, alerts := rfl, stored := rfl, window := rfl
          opened := opened, table := table
          made := ⟨model,made,fun absent => by simp [found] at absent⟩
          read := by simpa [found] using decoded
          heap := by simp [found,allocated]; rfl
          trees := by simp [found,allocated] }
      | true =>
        simp only [allocated] at begun
        cases begun
        exact {
          scored := rfl, saved := rfl, alerts := rfl, stored := rfl, window := rfl
          opened := opened, table := table
          made := ⟨model,made,fun absent => by simp [found] at absent⟩
          read := by simpa [found] using decoded
          heap := by simp [found,allocated]; rfl
          trees := by simp [found,allocated]; rfl }

/-! ### Every schedule -/

/-- The events that the engine has handled, in order. -/
abbrev own (trace : List (Label NuleyeEvent Loop)) : List NuleyeEvent := share .ai (handled trace)

/-- The program whose engine has entered its loop, before the first event. -/
def entered (window : FeatureWindow) (e : Engine) : World NuleyeEvent Loop Engine := ⟨[],fun _ => none,e.enter window⟩

theorem run_trained {capacity : Nat} {hour : UInt64 → Int32} {s : Startup} {db : Db} {e : Engine} {window : FeatureWindow}
    {trace : List (Label NuleyeEvent Loop)} {t : World NuleyeEvent Loop Engine} (begun : aiInit s db = some e)
    (run : Run (step capacity (engineBody hour)) free (entered window e) trace t) :
    Trained hour e.records.gModel (own trace) t.records := by
  have start := aiInit_begun begun
  exact records_invariant (I := fun done e' => Trained hour e.records.gModel (share .ai done) e')
    (trained_start rfl start.scored start.saved start.alerts window)
    (fun _ _ _ _ _ _ trained ran => engineBody_trained trained ran) run

/-- Under every schedule of the producers and the four loops, the engine has a new forest for each 10000 of
    the events that it handled, each event was scored by the forest of its 10000, alerted exactly if the score
    reached the threshold, and the ring from `wpos` on holds the features of the latest 10000, oldest first. -/
theorem engine_run {capacity : Nat} {hour : UInt64 → Int32} {s : Startup} {db : Db} {e : Engine} {window : FeatureWindow}
    {trace : List (Label NuleyeEvent Loop)} {t : World NuleyeEvent Loop Engine} (begun : aiInit s db = some e)
    (run : Run (step capacity (engineBody hour)) free (entered window e) trace t) :
    t.records.records.saved.length = (own trace).length / 10000 ∧
      t.records.records.wcount = (own trace).length % 10000 ∧ t.records.wpos = (own trace).length % 10000 ∧
      t.records.records.scored.map Prod.fst = own trace ∧
      (∀ k ev score,t.records.records.scored[k]? = some (ev,score) → ∃ model f,
        (e.records.gModel :: t.records.records.saved)[k / 10000]? = some model ∧ aiExtractFeatures hour ev = some f ∧
          iforestScore (some model) (some f) featureCount = some score) ∧
      t.records.records.alerts = (t.records.records.scored.filter fun x => 85 ≤ x.2).map Prod.fst ∧
      ∃ vectors : List (List Int32),(own trace).map (aiExtractFeatures hour) = vectors.map some ∧
        (t.records.featureWindow.toList.rotate t.records.wpos).drop (10000 - (own trace).length) =
          vectors.drop ((own trace).length - 10000) := by
  obtain ⟨wpos,wcount,saved,_,scored,scores,alerts,vectors,extracted,latest⟩ := run_trained begun run
  refine ⟨saved,wcount,wpos,scored,scores,alerts,vectors,extracted,?_⟩
  have count : vectors.length = (own trace).length := by simpa using (congrArg List.length extracted).symm
  have around : t.records.featureWindow.toList.rotate t.records.wpos = t.records.featureWindow.toList.rotate vectors.length := by
    rw [wpos,← count,← List.rotate_mod _ vectors.length,Vector.length_toList]
  rw [around,← count]
  exact latest.recent window_pos

/-- A database that holds a forest of one tree. -/
private def stocked : Db := ⟨true,⟨⟨none,none⟩,false⟩,⟨none,false⟩,fun key =>
  if key = defaultKey then some (blobOf (block ⟨1,8,[⟨2,50⟩]⟩) 16) else none⟩

private def started : Startup := ⟨⟨true,fun _ => 0⟩,true,true,true,none⟩

private def granted : Results := ⟨⟨true,fun _ => 0⟩,true,true,true,true⟩

/-- Of three events the interface takes the second; the engine scores the other two with the stored forest. -/
theorem engine_run_one :
    ∃ e t trace,aiInit started stocked = some e ∧ e.records.gModel = ⟨1,8,[⟨2,50⟩]⟩ ∧
      own trace = [zeroEvent,{ zeroEvent with pid := 2 }] ∧
      Run (step 2 (engineBody fun _ => 0)) free (entered (Vector.replicate 10000 []) e) trace t ∧
      t.records.records.scored.map Prod.fst = [zeroEvent,{ zeroEvent with pid := 2 }] ∧ t.records.wpos = 2 ∧
      t.records.records.saved = [] := by
  have begun : ∃ e,aiInit started stocked = some e ∧ e.records.gModel = ⟨1,8,[⟨2,50⟩]⟩ := ⟨_,rfl,rfl⟩
  obtain ⟨e,begun,model⟩ := begun
  have ran : ∃ t,Run (step 2 (engineBody fun _ => 0)) free (entered (Vector.replicate 10000 []) e)
      [.published zeroEvent,.published { zeroEvent with pid := 1 },.took .ai zeroEvent,.took .tui { zeroEvent with pid := 1 },
        .handled .tui { zeroEvent with pid := 1 },.handled .ai zeroEvent,.published { zeroEvent with pid := 2 },
        .took .ai { zeroEvent with pid := 2 },.handled .ai { zeroEvent with pid := 2 }] t := by
    cases begun
    exact ⟨_,run_of_exec (show exec (step 2 (engineBody fun _ => 0)) free _
      [.publish zeroEvent,.publish { zeroEvent with pid := 1 },.consume .ai,.consume .tui,.handle .tui granted,
        .handle .ai granted,.publish { zeroEvent with pid := 2 },.consume .ai,.handle .ai granted] = some (_,_) from rfl)⟩
  obtain ⟨t,run⟩ := ran
  obtain ⟨saved,_,wpos,scored,_⟩ := engine_run begun run
  exact ⟨e,t,_,begun,model,rfl,run,scored,wpos,List.length_eq_zero_iff.mp saved⟩

end Nulleye.AiEngine
