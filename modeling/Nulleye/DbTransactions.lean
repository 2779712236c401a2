import Nulleye.DbHandles

/-!
The transactions of `core/db.c`. A statement is reset when it is used the next time:
an INSERT that failed or finished is not active any more, but the SELECT of
`db_load_model` stays active after it found its row.
-/
namespace Nulleye.DbTransactions
open Nulleye.Connections Nulleye.DbHandles

/-- The state after some operations. -/
def performed (db : Db) (ops : List Operation) : Db := ops.foldl (fun db op => (op.run db).1) db

/-- A pointer to a statement that was prepared and not finalized. -/
def Ready (db : Db) (name : Stmt) : Prop :=
  db.gDb ≠ none ∧ ∃ i s,db.stmt name = some i ∧ db.engine.statements[i]? = some s ∧ s.finalized = false

/-! ### What is idle stays idle -/

theorem idle_use {db : Db} (idle : db.engine.Idle) {f : Statement → Statement}
    (keeps : ∀ s,s.active = false → (f s).active = false) (name : Stmt) : (db.use f name).engine.Idle := by
  intro s member
  obtain ⟨i,found⟩ := List.mem_iff_getElem?.mp member
  simp only [Db.use,use_statement] at found
  split at found
  · obtain ⟨before,earlier,rfl⟩ := Option.map_eq_some_iff.mp found
    have inactive := idle before (List.mem_of_getElem? earlier)
    unfold Statement.used
    split
    · exact inactive
    · exact keeps before inactive
  · exact idle s (List.mem_of_getElem? found)

/-- A step without a row ends the statement's transaction. -/
theorem idle_execute {db : Db} (idle : db.engine.Idle) (name : Stmt) (parameters : Nat) {r : StepResult} (finished : r ≠ .row) :
    (db.execute name parameters r).engine.Idle := by
  have bound : ((Db.bind name)^[parameters] (db.reset name)).engine.Idle := by
    induction parameters with
    | zero => exact idle_use idle (fun _ _ => rfl) name
    | succ n ih =>
      rw [Function.iterate_succ_apply']
      exact idle_use ih (fun _ inactive => inactive) name
  exact idle_use bound (fun _ _ => by simp [Statement.step,finished]) name

theorem idle_prepare {db : Db} (idle : db.engine.Idle) (ok : Bool) (name : Stmt) : (db.prepare ok name).engine.Idle := by
  rcases prepare_self ok name db with ⟨_,statements⟩ | ⟨conn,_,_,statements⟩
  · simpa [Engine.Idle,statements] using idle
  · intro s member
    rw [statements] at member
    rcases List.mem_append.mp member with old | new
    · exact idle s old
    · rw [List.mem_singleton.mp new]

theorem idle_prepareAll {db : Db} (idle : db.engine.Idle) (prepared : Stmt → Bool) (names : List Stmt) :
    (db.prepareAll prepared names).1.engine.Idle := by
  induction names generalizing db with
  | nil => exact idle
  | cons name rest ih =>
    unfold Db.prepareAll
    split
    · exact ih (idle_prepare idle true name)
    · exact idle_prepare idle false name

/-! ### What is ready stays ready -/

theorem ready_use {db : Db} {name : Stmt} (ready : Ready db name) {f : Statement → Statement}
    (keeps : ∀ s,(f s).finalized = s.finalized) (other : Stmt) : Ready (db.use f other) name := by
  obtain ⟨opened,i,s,pointer,found,unfinished⟩ := ready
  by_cases same : db.stmt other = some i
  · exact ⟨opened,i,f s,pointer,by simp [Db.use,use_statement,same,found,Statement.used,unfinished],by rw [keeps,unfinished]⟩
  · exact ⟨opened,i,s,pointer,by simp [Db.use,use_statement,same,found],unfinished⟩

theorem ready_reset {db : Db} {name : Stmt} (ready : Ready db name) (other : Stmt) (parameters : Nat) :
    Ready ((Db.bind other)^[parameters] (db.reset other)) name := by
  induction parameters with
  | zero => exact ready_use ready (f := Statement.reset) (fun _ => rfl) other
  | succ n ih =>
    rw [Function.iterate_succ_apply']
    exact ready_use ih (f := Statement.bind) (fun _ => rfl) other

theorem ready_execute {db : Db} {name : Stmt} (ready : Ready db name) (other : Stmt) (parameters : Nat) (r : StepResult) :
    Ready (db.execute other parameters r) name :=
  ready_use (ready_reset ready other parameters) (f := Statement.step r) (fun _ => rfl) other

theorem ready_prepare {db : Db} {name other : Stmt} (ready : Ready db name) (differs : name ≠ other) (ok : Bool) :
    Ready (db.prepare ok other) name := by
  obtain ⟨opened,i,s,pointer,found,unfinished⟩ := ready
  refine ⟨by simpa using opened,i,s,by rwa [prepare_other differs],?_,unfinished⟩
  have inside := (List.getElem?_eq_some_iff.mp found).1
  rcases prepare_self ok other db with ⟨_,statements⟩ | ⟨conn,_,_,statements⟩
  · rwa [statements]
  · rwa [statements,List.getElem?_append_left inside]

/-- What was prepared is ready. -/
theorem prepareAll_ready {db : Db} (opened : db.gDb ≠ none) {prepared : Stmt → Bool} {names : List Stmt} (once : names.Nodup)
    (finished : (db.prepareAll prepared names).2 = 0) {name : Stmt} (wanted : Ready db name ∧ name ∉ names ∨ name ∈ names) :
    Ready (db.prepareAll prepared names).1 name := by
  induction names generalizing db with
  | nil => exact (wanted.resolve_right (by simp)).1
  | cons first rest ih =>
    obtain ⟨absent,once⟩ := List.nodup_cons.mp once
    unfold Db.prepareAll at finished ⊢
    split at finished
    · rename_i successful
      rw [if_pos successful]
      refine ih (by simpa using opened) once finished ?_
      rcases wanted with ⟨ready,outside⟩ | member
      · obtain ⟨differs,outside⟩ := not_or.mp (List.mem_cons.not.mp outside)
        exact .inl ⟨ready_prepare ready differs true,outside⟩
      · rcases List.mem_cons.mp member with rfl | member
        · refine .inl ⟨?_,absent⟩
          obtain ⟨conn,current⟩ := Option.ne_none_iff_exists'.mp opened
          refine ⟨by simpa using opened,db.engine.statements.length,⟨conn,false,false⟩,?_⟩
          simp [Db.prepare,current,Engine.prepare]
        · exact .inr member
    · cases finished

/-! ### The operations after `db_init` -/

/-- After a successful `db_init`, the required statements are ready, and no statement is active that was not before. -/
theorem dbInit_ready {before db : Db} {r : InitResults} (idle : before.engine.Idle) (opened : dbInit r before = (db,0)) :
    db.engine.Idle ∧ ∀ name ∈ required,Ready db name := by
  have idle' : (before.openDb r.opened).engine.Idle := by cases h : r.opened <;> exact idle
  unfold dbInit at opened
  dsimp only at opened
  split_ifs at opened with failed refused
  · simp at opened
  · simp at opened
  · have current : (before.openDb r.opened).gDb ≠ none := by
      have ok : r.opened = .ok := by simpa using failed
      simp [ok,Db.openDb]
    have once : required.Nodup := by decide
    have prepared : (Db.prepareAll r.prepared required (before.openDb r.opened)).2 = 0 →
        ∀ name ∈ required,Ready (Db.prepareAll r.prepared required (before.openDb r.opened)).1 name :=
      fun finished name member => prepareAll_ready current once finished (.inr member)
    have kept := idle_prepareAll idle' r.prepared required
    split at opened
    · rename_i prior finished
      rw [finished] at prepared kept
      cases opened
      refine ⟨idle_prepare kept _ _,fun name member => ready_prepare (prepared rfl name member) ?_ _⟩
      rintro rfl
      revert member
      decide
    · rename_i other _ _
      exact absurd (Prod.ext_iff.mp opened).2 ‹_›

theorem idle_operation {db : Db} (idle : db.engine.Idle) {op : Operation} (finished : op.result ≠ .row) :
    (op.run db).1.engine.Idle := by
  rw [operation_eq]
  split
  · exact idle
  · exact idle_execute idle _ _ finished

theorem idle_performed {db : Db} (idle : db.engine.Idle) {ops : List Operation} (finished : ∀ op ∈ ops,op.result ≠ .row) :
    (performed db ops).engine.Idle := by
  induction ops generalizing db with
  | nil => exact idle
  | cons op rest ih =>
    exact ih (idle_operation idle (finished op (by simp))) fun other member => finished other (by simp [member])

theorem ready_operation {db : Db} {name : Stmt} (ready : Ready db name) (op : Operation) : Ready (op.run db).1 name := by
  rw [operation_eq,if_neg ready.1]
  exact ready_execute ready _ _ _

theorem ready_performed {db : Db} {name : Stmt} (ready : Ready db name) (ops : List Operation) :
    Ready (performed db ops) name := by
  induction ops generalizing db with
  | nil => exact ready
  | cons op rest ih => exact ih (ready_operation ready op)

/-- Only `db_load_model` can find a row, which leaves its statement active. -/
theorem active_row {db : Db} (ready : Ready db .loadModel) {op : Operation} (row : op.result = .row) :
    ¬ (op.run db).1.engine.Idle := by
  have loads : op.name = .loadModel := by
    cases op with
    | loadModel r alloc => rfl
    | _ done => cases done <;> cases row
  intro idle
  rw [operation_eq,if_neg ready.1,loads,row] at idle
  obtain ⟨_,i,s,pointer,found,unfinished⟩ := ready_reset ready .loadModel op.parameters
  have stepped : (db.execute .loadModel op.parameters .row).engine.statements[i]? = some { s with active := true } := by
    simp only [Db.execute,Db.step,Db.use,use_statement,pointer,if_true,found,Option.map_some]
    simp [Statement.used,Statement.step,unfinished]
  have active := idle _ (List.mem_of_getElem? stepped)
  cases active

/-- No statement is active when the operations return exactly if no `db_load_model` finds a row. -/
theorem idle_after {before db : Db} {r : InitResults} (idle : before.engine.Idle) (opened : dbInit r before = (db,0))
    (ops : List Operation) :
    (∀ front,front <+: ops → (performed db front).engine.Idle) ↔ ∀ op ∈ ops,op.result ≠ .row := by
  obtain ⟨idle,ready⟩ := dbInit_ready idle opened
  have ready := ready .loadModel (by decide)
  constructor
  · intro always op member row
    obtain ⟨front,back,rfl⟩ := List.append_of_mem member
    have later := always (front ++ [op]) ⟨back,by simp⟩
    rw [performed,List.foldl_append] at later
    exact active_row (ready_performed ready front) row later
  · intro finished front part
    exact idle_performed idle fun op member => finished op (part.subset member)

/-- The engine looks for a model when it starts, and stores one that is not there. -/
theorem idle_after_start :
    (performed (dbInit ⟨.ok,true,true,fun _ => true⟩ Db.initial).1 [.loadModel .done true]).engine.Idle ∧
      (performed (dbInit ⟨.ok,true,true,fun _ => true⟩ Db.initial).1
        [.loadModel .done true,.storeModel true,.insertEvent true]).engine.Idle := by
  have idle := (@idle_after Db.initial _ ⟨.ok,true,true,fun _ => true⟩ (fun s member => by cases member) rfl
    [.loadModel .done true,.storeModel true,.insertEvent true]).mpr (by decide)
  exact ⟨idle _ ⟨_,rfl⟩,idle _ (List.prefix_refl _)⟩

/-- A model that is found. -/
theorem active_found : ¬ ∀ (r : InitResults) (db : Db) (ops : List Operation),dbInit r Db.initial = (db,0) →
    ∀ front,front <+: ops → (performed db front).engine.Idle := by
  intro always
  have idle := always ⟨.ok,true,true,fun _ => true⟩ _ [.loadModel .row true] rfl _ (List.prefix_refl _)
  revert idle
  unfold Engine.Idle
  decide

end Nulleye.DbTransactions
