import Nulleye.EventInserts
import Nulleye.FileScans
import Nulleye.Models
import Nulleye.ModuleLifecycles
import Nulleye.Resources
import Nulleye.Responses

/-!
The database under all threads at once. Every function of `core/db.c` goes to the database
several times, and between two of these calls any other thread may go there. The statements
for alerts, models and file entries have one thread each, so their tables are written as if
every function ran alone; the statement for events has three.
-/
namespace Nulleye.DbThreads
open Nulleye.CStrings Nulleye.FileRecords Nulleye.FileScans Nulleye.Models Nulleye.ModuleLifecycles Nulleye.Resources Nulleye.Runs
open Nulleye.Statements

/-- The tables, each with the statement that writes it. -/
inductive Table where
  | events
  | alerts
  | model
  | fileEntries
  deriving DecidableEq

/-- The parameters of `stmt_upsert_file_entry`, and so a row of its table. NULL is `none`. -/
structure FileEntry where
  path : Option Mem
  hash : Option Mem
  merkle : Option Mem
  mtime : Option Int64
  size : Option Int64
  perms : Option Int32
  uid : Option Int32
  gid : Option Int32
  attrs : Option Mem
  deriving DecidableEq

/-- A REPLACE statement with its table. -/
structure Replace (Row Key Value : Type) where
  stmt : Prepared Row
  table : Key → Option Value

section Replace
variable {Row Key Value : Type}

def Replace.reset (r : Replace Row Key Value) : Replace Row Key Value := { r with stmt := r.stmt.reset }

def Replace.bind (set : Row → Row) (r : Replace Row Key Value) : Replace Row Key Value := { r with stmt := r.stmt.bind set }

def Replace.step (execute : Row → (Key → Option Value) → Key → Option Value) (done : Bool) (r : Replace Row Key Value) :
    Replace Row Key Value :=
  ⟨r.stmt.step,if done then execute r.stmt.bindings r.table else r.table⟩

end Replace

abbrev Contents : Table → Type
  | .events => Insert EventInserts.EventRow
  | .alerts => Insert Responses.AlertRow
  | .model => Replace ModelRow Bytes Blob
  | .fileEntries => Replace FileEntry Mem FileEntry

/-! ### The functions -/

/-- What a parameter holds after it was bound to a value: NULL where SQLite refused. -/
def bound {α : Type} (ok : Bool) (x : α) : Option α := if ok then some x else none

/-- `db_insert_event`, with the results of its calls. -/
def dbInsertEvent (text blob done : Bool) (c : EventInserts.Call) : Procedure Contents where
  resource := .events
  operations := [Insert.reset,Insert.bind fun r => { r with module := if text then some c.text else none },
    Insert.bind fun r => { r with data := if blob then c.blob else none },Insert.step done]

/-- `db_insert_alert`; `ok` are the results of binding its parameters, in turn. -/
def dbInsertAlert (ok : Fin 3 → Bool) (done : Bool) (severity module msg : Mem) : Procedure Contents where
  resource := .alerts
  operations := [Insert.reset,Insert.bind fun r => { r with severity := bound (ok 0) severity },
    Insert.bind fun r => { r with module := bound (ok 1) module },Insert.bind fun r => { r with message := bound (ok 2) msg },
    Insert.step done]

/-- `db_store_model`, with the results of its calls. -/
def dbStoreModel (text bytes done : Bool) (key : Option Bytes) (blob : Blob) : Procedure Contents where
  resource := .model
  operations := [Replace.reset,Replace.bind fun r => { r with key := if text then key else none },
    Replace.bind fun r => { r with blob := bound bytes blob },Replace.step replace done]

/-- `REPLACE INTO file_entries(path,hash,merkle,mtime,size,perms,uid,gid,attrs)`. -/
def replaceEntry (row : FileEntry) (entries : Mem → Option FileEntry) : Mem → Option FileEntry :=
  match row.path with
  | some path => Function.update entries path (some row)
  | none => entries

/-- `db_update_file_entry`; `ok` are the results of binding its parameters, in turn. -/
def dbUpdateFileEntry (ok : Fin 9 → Bool) (done : Bool) (path : Mem) (row : Row) : Procedure Contents where
  resource := .fileEntries
  operations := [Replace.reset,Replace.bind fun r => { r with path := bound (ok 0) path },
    Replace.bind fun r => { r with hash := bound (ok 1) row.hash },Replace.bind fun r => { r with merkle := bound (ok 2) row.merkle },
    Replace.bind fun r => { r with mtime := bound (ok 3) row.mtime },Replace.bind fun r => { r with size := bound (ok 4) row.size },
    Replace.bind fun r => { r with perms := bound (ok 5) row.perms },Replace.bind fun r => { r with uid := bound (ok 6) row.uid },
    Replace.bind fun r => { r with gid := bound (ok 7) row.gid },Replace.bind fun r => { r with attrs := bound (ok 8) row.attrs },
    Replace.step replaceEntry done]

/-- The entry with the columns of a row, as far as they could be bound. -/
def entryOf (ok : Fin 9 → Bool) (path : Mem) (row : Row) : FileEntry :=
  ⟨bound (ok 0) path,bound (ok 1) row.hash,bound (ok 2) row.merkle,bound (ok 3) row.mtime,bound (ok 4) row.size,
    bound (ok 5) row.perms,bound (ok 6) row.uid,bound (ok 7) row.gid,bound (ok 8) row.attrs⟩

/-! ### The threads -/

/-- A call that a thread makes, with the results of its calls into the database. -/
inductive Call where
  | event (text blob done : Bool) (c : EventInserts.Call)
  | alert (ok : Fin 3 → Bool) (done : Bool)
  | model (text bytes done : Bool) (blob : Blob)
  | file (ok : Fin 9 → Bool) (done : Bool) (path : Mem) (row : Row)

def Call.procedure : Call → Procedure Contents
  | .event text blob done c => dbInsertEvent text blob done c
  | .alert ok done => dbInsertAlert ok done (ascii "high") (ascii "ai_engine") (ascii "anomalous event detected")
  | .model text bytes done blob => dbStoreModel text bytes done (some (ascii "default")) blob
  | .file ok done path row => dbUpdateFileEntry ok done path row

/-- What the threads of the modules call: `ai_thread`, `scan_thread`, `proc_thread`, `net_thread` and `user_thread`. -/
def makes : WorkerFn → Call → Bool
  | .ai, .alert .. | .ai, .model .. => true
  | .fi, .file .. => true
  | .pm, .event _ _ _ c => c.module = some "process_monitor"
  | .nm, .event _ _ _ c => c.module = some "network_monitor"
  | .um, .event _ _ _ c => c.module = some "user_monitor"
  | _, _ => false

/-- Every thread makes its own calls only. -/
def Own (_ : World WorkerFn Contents) : Action WorkerFn Call → Prop
  | .call i c => makes i c = true
  | .advance _ => True

instance (s : World WorkerFn Contents) (a : Action WorkerFn Call) : Decidable (Own s a) := by
  cases a <;> unfold Own <;> infer_instance

/-! ### The functions alone -/

/-- Without other threads the procedures are what the functions do. -/
theorem dbInsertEvent_run (text blob done : Bool) (c : EventInserts.Call) (stmt : Insert EventInserts.EventRow) :
    (EventInserts.dbInsertEvent text blob done c ⟨true,stmt⟩).1 = ⟨true,(dbInsertEvent text blob done c).run stmt⟩ := by
  cases done <;> rfl

theorem dbInsertAlert_run (done : Bool) (severity module msg : Mem) (stmt : Insert Responses.AlertRow) :
    (Responses.dbInsertAlert done severity module msg ⟨true,stmt⟩).1 =
      ⟨true,(dbInsertAlert (fun _ => true) done severity module msg).run stmt⟩ := rfl

theorem dbStoreModel_run {text bytes done : Bool} {key : Option Bytes} {blob : Bytes} {len : Int32} {db after : Models.Db} {rc : Int}
    (opened : db.gDb = true) (stored : Models.dbStoreModel text bytes done key blob len db = some (after,rc)) :
    ⟨after.stmtStoreModel,after.model⟩ =
      (dbStoreModel text bytes done key (blobOf blob len)).run ⟨db.stmtStoreModel,db.model⟩ := by
  simp only [Models.dbStoreModel,opened,Bool.not_true,Bool.false_eq_true,if_false] at stored
  split at stored
  · cases stored
  · cases stored
    cases done <;> rfl

theorem dbInsertEvent_rows (text blob done : Bool) (c : EventInserts.Call) (stmt : Insert EventInserts.EventRow) :
    ((dbInsertEvent text blob done c).run stmt).rows =
      stmt.rows ++ if done then [⟨if text then some c.text else none,if blob then c.blob else none⟩] else [] := by
  simp [Procedure.run,dbInsertEvent,bind_bindings,bind_bindings (reset_stepped _)]

theorem dbInsertAlert_rows (ok : Fin 3 → Bool) (done : Bool) (severity module msg : Mem) (stmt : Insert Responses.AlertRow) :
    ((dbInsertAlert ok done severity module msg).run stmt).rows =
      stmt.rows ++ if done then [⟨bound (ok 0) severity,bound (ok 1) module,bound (ok 2) msg⟩] else [] := by
  simp [Procedure.run,dbInsertAlert,bind_bindings,bind_bindings (reset_stepped _)]

theorem dbStoreModel_table (text bytes done : Bool) (key : Bytes) (blob : Blob) (r : Replace ModelRow Bytes Blob) :
    ((dbStoreModel text bytes done (some key) blob).run r).table =
      if done && text then Function.update r.table key (some (if bytes then blob else noBytes)) else r.table := by
  have row : (((r.stmt.reset.bind fun row => { row with key := if text then some key else none }).bind
      fun row => { row with blob := bound bytes blob }).bindings : ModelRow) =
        ⟨if text then some key else none,bound bytes blob⟩ := by
    rw [prepared_bind_bindings (by simp),prepared_bind_bindings (by simp)]
  simp only [Procedure.run,dbStoreModel,List.foldl_cons,List.foldl_nil,Replace.step,Replace.bind,Replace.reset,row]
  cases done
  · rfl
  · cases text
    · rfl
    · funext k
      cases bytes <;> simp [replace,bound,Function.update_apply]

theorem dbUpdateFileEntry_table (ok : Fin 9 → Bool) (done : Bool) (path : Mem) (row : Row) (r : Replace FileEntry Mem FileEntry) :
    ((dbUpdateFileEntry ok done path row).run r).table =
      if done && ok 0 then Function.update r.table path (some (entryOf ok path row)) else r.table := by
  have executed : ((dbUpdateFileEntry ok done path row).run r).table =
      if done then replaceEntry (entryOf ok path row) r.table else r.table := by
    simp [Procedure.run,dbUpdateFileEntry,Replace.step,Replace.bind,Replace.reset,prepared_bind_bindings,
      prepared_bind_bindings (prepared_reset_stepped _),entryOf]
  rw [executed]
  cases done
  · rfl
  · cases named : ok 0 <;> simp [replaceEntry,entryOf,bound,named]

theorem dbUpdateFileEntry_run {done : Bool} {path : Mem} {row : Row} {r : Replace FileEntry Mem FileEntry} {w : FileRecords.World}
    (shown : ∀ p,r.table p = (w.entries p).map (entryOf (fun _ => true) p)) (p : Mem) :
    ((dbUpdateFileEntry (fun _ => true) done path row).run r).table p =
      ((FileRecords.dbUpdateFileEntry done path row w).entries p).map (entryOf (fun _ => true) p) := by
  rw [dbUpdateFileEntry_table]
  cases done
  · exact shown p
  · by_cases same : p = path
    · subst same
      simp [FileRecords.dbUpdateFileEntry]
    · simp [FileRecords.dbUpdateFileEntry,Function.update_of_ne same,shown]

/-! ### Runs -/

/-- The row that a call inserts into `events`, if it is done. -/
def Call.event? : Call → Option EventInserts.EventRow
  | .event text blob done c => if done then some ⟨if text then some c.text else none,if blob then c.blob else none⟩ else none
  | _ => none

/-- The row that a call inserts into `alerts`, if it is done. -/
def Call.alert? : Call → Option Responses.AlertRow
  | .alert ok done =>
    if done then some ⟨bound (ok 0) (ascii "high"),bound (ok 1) (ascii "ai_engine"),bound (ok 2) (ascii "anomalous event detected")⟩
    else none
  | _ => none

/-- What a call stores in `model`, if it is done and its key was bound; a blob that was not bound is read as no bytes. -/
def Call.model? : Call → Option (Bytes × Blob)
  | .model text bytes done blob => if done && text then some (ascii "default",if bytes then blob else noBytes) else none
  | _ => none

/-- What a call stores in `file_entries`, if it is done and its path was bound. -/
def Call.file? : Call → Option (Mem × FileEntry)
  | .file ok done path row => if done && ok 0 then some (path,entryOf ok path row) else none
  | _ => none

/-- A call leaves the tables of the other statements alone. -/
theorem apply_elsewhere {c : Call} {k : Table} (other : c.procedure.resource ≠ k) (contents : ∀ k,Contents k) :
    c.procedure.apply contents k = contents k := apply_other other contents

/-- What one call does to each of the tables. -/
theorem apply_tables (c : Call) (contents : ∀ k,Contents k) :
    (c.procedure.apply contents .events).rows = (contents .events).rows ++ c.event?.toList ∧
      (c.procedure.apply contents .alerts).rows = (contents .alerts).rows ++ c.alert?.toList ∧
      (c.procedure.apply contents .model).table = store Call.model? (contents .model).table c ∧
      (c.procedure.apply contents .fileEntries).table = store Call.file? (contents .fileEntries).table c := by
  have elsewhere {k : Table} (other : c.procedure.resource ≠ k) := apply_elsewhere other contents
  cases c with
  | event text blob done e =>
    rw [elsewhere (k := .alerts) nofun,elsewhere (k := .model) nofun,elsewhere (k := .fileEntries) nofun]
    refine ⟨(dbInsertEvent_rows text blob done e (contents .events)).trans ?_,(List.append_nil _).symm,rfl,rfl⟩
    cases done <;> rfl
  | alert ok done =>
    rw [elsewhere (k := .events) nofun,elsewhere (k := .model) nofun,elsewhere (k := .fileEntries) nofun]
    refine ⟨(List.append_nil _).symm,(dbInsertAlert_rows ok done _ _ _ (contents .alerts)).trans ?_,rfl,rfl⟩
    cases done <;> rfl
  | model text bytes done blob =>
    rw [elsewhere (k := .events) nofun,elsewhere (k := .alerts) nofun,elsewhere (k := .fileEntries) nofun]
    refine ⟨(List.append_nil _).symm,(List.append_nil _).symm,(dbStoreModel_table text bytes done _ blob (contents .model)).trans ?_,rfl⟩
    cases done <;> cases text <;> rfl
  | file ok done path row =>
    rw [elsewhere (k := .events) nofun,elsewhere (k := .alerts) nofun,elsewhere (k := .model) nofun]
    refine ⟨(List.append_nil _).symm,(List.append_nil _).symm,rfl,
      (dbUpdateFileEntry_table ok done path row (contents .fileEntries)).trans ?_⟩
    cases done
    · rfl
    · cases named : ok 0 <;> simp [store,Call.file?,named]

/-- What some calls one after the other do to them. -/
theorem inTurn_tables (contents : ∀ k,Contents k) (calls : List Call) :
    (inTurn Call.procedure contents calls .events).rows = (contents .events).rows ++ calls.filterMap Call.event? ∧
      (inTurn Call.procedure contents calls .alerts).rows = (contents .alerts).rows ++ calls.filterMap Call.alert? ∧
      (inTurn Call.procedure contents calls .model).table = calls.foldl (store Call.model?) (contents .model).table ∧
      (inTurn Call.procedure contents calls .fileEntries).table = calls.foldl (store Call.file?) (contents .fileEntries).table := by
  induction calls using List.reverseRecOn with
  | nil => exact ⟨(List.append_nil _).symm,(List.append_nil _).symm,rfl,rfl⟩
  | append_singleton calls c ih =>
    obtain ⟨events,alerts,model,files⟩ := ih
    obtain ⟨event,alert,stored,file⟩ := apply_tables c (inTurn Call.procedure contents calls)
    rw [inTurn_append,event,alert,stored,file,events,alerts,model,files]
    refine ⟨?_,?_,?_,?_⟩
    · rw [List.filterMap_append,List.append_assoc]
      cases made : c.event? <;> simp [made]
    · rw [List.filterMap_append,List.append_assoc]
      cases made : c.alert? <;> simp [made]
    · rw [List.foldl_append,List.foldl_cons,List.foldl_nil]
    · rw [List.foldl_append,List.foldl_cons,List.foldl_nil]

variable {contents : ∀ k,Contents k} {trace : List (Label WorkerFn Call)} {s : World WorkerFn Contents}

/-- The thread that a statement belongs to. -/
def user : Table → Option WorkerFn
  | .events => none
  | .alerts | .model => some .ai
  | .fileEntries => some .fi

theorem makes_user {i w : WorkerFn} {c : Call} (made : makes i c = true) (used : user c.procedure.resource = some w) : i = w := by
  cases c with
  | event => cases used
  | alert | model | file => cases i <;> first | exact Option.some.inj used | cases made

theorem called_makes (run : Run (step Call.procedure) Own (initial contents) trace s) {i : WorkerFn} {c : Call}
    (member : .called i c ∈ trace) : makes i c = true := by
  obtain ⟨front,back,rfl⟩ := List.append_of_mem member
  obtain ⟨t,a,u,_,own,moved⟩ := run.at_label
  cases a with
  | call j d =>
    simp only [step] at moved
    split at moved
    · cases moved
      exact own
    · cases moved
  | advance j =>
    simp only [step] at moved
    split at moved <;> cases moved

theorem alone_user (run : Run (step Call.procedure) Own (initial contents) trace s) {k : Table} {w : WorkerFn}
    (used : user k = some w) : Alone Call.procedure k trace := by
  intro i j c d first second on on'
  rw [makes_user (called_makes run first) (on ▸ used),makes_user (called_makes run second) (on' ▸ used)]

/-- However the calls of the five threads into the database are mixed and whatever fails, alerts, models and file entries are
    written as if each call were made at once: when no call on such a table is under way it has a row for every alert
    that was done, in order, or holds for every key what was stored for it last, with NULL for what could not be bound.
    So are the events as long as only one of the three monitors stores any. -/
theorem tables_kept (run : Run (step Call.procedure) Own (initial contents) trace s) :
    (s.Idle .alerts → (s.contents .alerts).rows = (contents .alerts).rows ++ (called trace).filterMap Call.alert?) ∧
      (s.Idle .model → ∀ key,(s.contents .model).table key =
        (storedAt Call.model? key (called trace)).getLast?.or ((contents .model).table key)) ∧
      (s.Idle .fileEntries → ∀ path,(s.contents .fileEntries).table path =
        (storedAt Call.file? path (called trace)).getLast?.or ((contents .fileEntries).table path)) ∧
      ((∃ i,∀ j c,.called j c ∈ trace → c.procedure.resource = .events → j = i) → s.Idle .events →
        (s.contents .events).rows = (contents .events).rows ++ (called trace).filterMap Call.event?) := by
  obtain ⟨events,alerts,model,files⟩ := inTurn_tables contents (called trace)
  refine ⟨fun idle => ?_,fun idle key => ?_,fun idle path => ?_,fun ⟨i,one⟩ idle => ?_⟩
  · rw [alone_inTurn run (alone_user run rfl) idle,alerts]
  · rw [alone_inTurn run (alone_user run rfl) idle,model,foldl_store]
  · rw [alone_inTurn run (alone_user run rfl) idle,files,foldl_store]
  · have alone : Alone Call.procedure .events trace := by
      intro j j' c d first second on on'
      rw [one j c first on,one j' d second on']
    rw [alone_inTurn run alone idle,events]

/-- An empty database. -/
def empty : ∀ k,Contents k
  | .events => ⟨⟨none,none⟩,false,[]⟩
  | .alerts => ⟨⟨none,none,none⟩,false,[]⟩
  | .model => ⟨⟨⟨none,none⟩,false⟩,fun _ => none⟩
  | .fileEntries => ⟨⟨⟨none,none,none,none,none,none,none,none,none⟩,false⟩,fun _ => none⟩

/-- Two monitors mix up their events while an alert is stored, whose module could not be bound. -/
theorem tables_kept_mixed : ∃ trace s,Run (step Call.procedure) Own (initial empty) trace s ∧
    (s.contents .events).rows = [⟨some "network_monitor",some [2]⟩,⟨some "network_monitor",some [2]⟩] ∧
    (s.contents .alerts).rows = [⟨some (ascii "high"),none,some (ascii "anomalous event detected")⟩] := by
  obtain ⟨trace,s,run,checked⟩ := exists_run_of_check (step Call.procedure) Own (initial empty)
    (fun s trace => (s.contents .events).rows = [⟨some "network_monitor",some [2]⟩,⟨some "network_monitor",some [2]⟩] ∧
      s.threads .ai = none ∧ s.threads .fi = none ∧ s.threads .pm = none ∧ s.threads .nm = none ∧ s.threads .um = none ∧
      s.threads .other = none ∧
      (called trace).filterMap Call.alert? = [⟨some (ascii "high"),none,some (ascii "anomalous event detected")⟩])
    ([.call .pm (.event true true true ⟨some [1],some "process_monitor"⟩),.call .ai (.alert (fun i => decide (i ≠ 1)) true),
      .call .nm (.event true true true ⟨some [2],some "network_monitor"⟩)] ++ List.replicate 3 (.advance .pm) ++
      List.replicate 3 (.advance .nm) ++ List.replicate 6 (.advance .ai) ++ List.replicate 2 (.advance .pm) ++
      List.replicate 2 (.advance .nm))
    (by decide +kernel)
  obtain ⟨mixed,ai,fi,pm,nm,um,other,one⟩ := of_decide_eq_true checked
  have idle : s.Idle .alerts := by
    intro i p there
    cases i <;> simp_all
  exact ⟨trace,s,run,mixed,((tables_kept run).1 idle).trans one⟩

end Nulleye.DbThreads
