import Mathlib.Logic.Function.Iterate
import Nulleye.Connections
import Nulleye.Runs

/-!
The handles of `core/db.c`. `db_init` returns early after an open or a schema that failed
and leaves `g_db` behind, so the next `db_init` overwrites a connection that was never
closed. `db_close` finalizes the statements and keeps the pointers: where the next
`db_init` fails before it prepares them again, they are finalized statements.
-/
namespace Nulleye.DbHandles
open Nulleye.Ledgers Nulleye.Connections Nulleye.Runs

/-- The statements of `db.c`. -/
inductive Stmt where
  | insertEvent
  | insertAlert
  | storeModel
  | loadModel
  | upsertFileEntry
  deriving DecidableEq

/-- The database library, `g_db` and the five `stmt_` pointers. -/
structure Db where
  engine : Engine
  gDb : Option Nat
  stmt : Stmt → Option Nat

/-- Nothing is opened when the program starts. -/
def Db.initial : Db := ⟨⟨.empty,[],false⟩,none,fun _ => none⟩

/-- Using the statement of a pointer. -/
def Db.use (f : Statement → Statement) (name : Stmt) (db : Db) : Db :=
  { db with engine := db.engine.use f db.gDb (db.stmt name) }

/-- `sqlite3_prepare_v2` on `g_db`; a failing call stores NULL. -/
def Db.prepare (ok : Bool) (name : Stmt) (db : Db) : Db :=
  match db.gDb, ok with
  | some conn, true =>
    { db with
      engine := db.engine.prepare conn
      stmt := Function.update db.stmt name (some db.engine.statements.length) }
  | _, _ => { db with stmt := Function.update db.stmt name none }

/-! ### `db_init` and `db_close` -/

/-- What `sqlite3_open` does: a failing open still leaves a connection, unless there is no memory for it. -/
inductive Opened where
  | ok
  | failed
  | nomem
  deriving DecidableEq

/-- The results of the SQLite calls of one `db_init`. -/
structure InitResults where
  opened : Opened
  journalMode : Bool
  schema : Bool
  prepared : Stmt → Bool

def execSql (ok : Bool) : Int := if ok then 0 else -1

/-- `sqlite3_open(path, &g_db)`. -/
def Db.openDb (opened : Opened) (db : Db) : Db :=
  match opened with
  | .nomem => { db with gDb := none }
  | _ => { db with engine := db.engine.openConnection, gDb := some db.engine.connections.fresh }

/-- The statements whose preparation has to succeed, in order. -/
def required : List Stmt := [.insertEvent,.insertAlert,.storeModel,.loadModel]

/-- Preparing them up to the first failure. -/
def Db.prepareAll (prepared : Stmt → Bool) : List Stmt → Db → Db × Int
  | [], db => (db,0)
  | name :: rest, db =>
    if prepared name then prepareAll prepared rest (db.prepare true name) else (db.prepare false name,-1)

def dbInit (r : InitResults) (before : Db) : Db × Int :=
  let db := before.openDb r.opened
  if r.opened ≠ .ok then (db,-1)
  else
    -- the result of the PRAGMA is not looked at
    let _ := execSql r.journalMode
    if execSql r.schema ≠ 0 then (db,-1)
    else
      match db.prepareAll r.prepared required with
      | (db,0) => (db.prepare (r.prepared .upsertFileEntry) .upsertFileEntry,0)
      | (db,rc) => (db,rc)

def Db.finalize : Stmt → Db → Db := Db.use Statement.finalize

def dbClose (db : Db) : Db :=
  match db.gDb with
  | none => db
  | some conn =>
    let db := required.foldl (fun db name => db.finalize name) db
    let db := if (db.stmt .upsertFileEntry).isSome then db.finalize .upsertFileEntry else db
    { db with engine := db.engine.close conn, gDb := none }

/-! ### The operations -/

def Db.reset : Stmt → Db → Db := Db.use Statement.reset

def Db.bind : Stmt → Db → Db := Db.use Statement.bind

def Db.step (r : StepResult) : Stmt → Db → Db := Db.use (Statement.step r)

/-- A statement is reset, its parameters are bound, and it is stepped. -/
def Db.execute (name : Stmt) (parameters : Nat) (r : StepResult) (db : Db) : Db :=
  ((Db.bind name)^[parameters] (db.reset name)).step r name

/-- The result of an INSERT or REPLACE. -/
def written (done : Bool) : StepResult := if done then .done else .error

/-- The return value after a step, which fails on a NULL statement. -/
def Db.returned (name : Stmt) (ok : Bool) (db : Db) : Int := if (db.stmt name).isSome && ok then 0 else -1

def dbInsertEvent (done : Bool) (db : Db) : Db × Int :=
  if db.gDb.isNone then (db,-1) else (db.execute .insertEvent 2 (written done),db.returned .insertEvent done)

def dbInsertAlert (done : Bool) (db : Db) : Db × Int :=
  if db.gDb.isNone then (db,-1) else (db.execute .insertAlert 3 (written done),db.returned .insertAlert done)

def dbStoreModel (done : Bool) (db : Db) : Db × Int :=
  if db.gDb.isNone then (db,-1) else (db.execute .storeModel 2 (written done),db.returned .storeModel done)

/-- A row that was found is copied where `malloc` succeeds. -/
def dbLoadModel (r : StepResult) (alloc : Bool) (db : Db) : Db × Int :=
  if db.gDb.isNone then (db,-1) else (db.execute .loadModel 1 r,db.returned .loadModel (r = .row && alloc))

def dbUpdateFileEntry (done : Bool) (db : Db) : Db × Int :=
  if db.gDb.isNone || (db.stmt .upsertFileEntry).isNone then (db,-1)
  else (db.execute .upsertFileEntry 9 (written done),db.returned .upsertFileEntry done)

/-- A call of one of the functions that use a statement, with the results of its step and its allocation. -/
inductive Operation where
  | insertEvent (done : Bool)
  | insertAlert (done : Bool)
  | storeModel (done : Bool)
  | loadModel (r : StepResult) (alloc : Bool)
  | updateFileEntry (done : Bool)
  deriving DecidableEq

def Operation.run : Operation → Db → Db × Int
  | .insertEvent done => dbInsertEvent done
  | .insertAlert done => dbInsertAlert done
  | .storeModel done => dbStoreModel done
  | .loadModel r alloc => dbLoadModel r alloc
  | .updateFileEntry done => dbUpdateFileEntry done

/-- The statement that an operation uses. -/
def Operation.name : Operation → Stmt
  | .insertEvent _ => .insertEvent
  | .insertAlert _ => .insertAlert
  | .storeModel _ => .storeModel
  | .loadModel _ _ => .loadModel
  | .updateFileEntry _ => .upsertFileEntry

def Operation.parameters : Operation → Nat
  | .insertEvent _ => 2
  | .insertAlert _ => 3
  | .storeModel _ => 2
  | .loadModel _ _ => 1
  | .updateFileEntry _ => 9

def Operation.result : Operation → StepResult
  | .insertEvent done => written done
  | .insertAlert done => written done
  | .storeModel done => written done
  | .loadModel r _ => r
  | .updateFileEntry done => written done

/-! ### Runs -/

/-- The calls that a program can make. -/
inductive Call where
  | init (r : InitResults)
  | close
  | operation (op : Operation)

def Call.run : Call → Db → Db
  | .init r, db => (dbInit r db).1
  | .close, db => dbClose db
  | .operation op, db => (op.run db).1

def dbStep (db : Db) (call : Call) : Option (Db × Call) := some (call.run db,call)

/-- No statement was misused, and every connection was closed once or is the current one. -/
def Sound (db : Db) : Prop :=
  db.engine.misused = false ∧
    ∀ conn < db.engine.connections.fresh,db.engine.connections.releases[conn]? = some 1 ∨ db.gDb = some conn

/-- A pointer to a statement that was finalized. -/
def Db.stale (db : Db) (name : Stmt) : Prop := db.engine.stale (db.stmt name) = true

instance (db : Db) (name : Stmt) : Decidable (db.stale name) := inferInstanceAs (Decidable (_ = _))

/-- `db_init` finds no database open; the other functions find none open or pointers that are not stale. -/
def Allowed (db : Db) : Call → Prop
  | .init _ => db.gDb = none
  | .close => db.gDb = none ∨ ∀ name,¬ db.stale name
  | .operation op => db.gDb = none ∨ ¬ db.stale op.name

@[simp] theorem use_gDb (f : Statement → Statement) (name : Stmt) (db : Db) : (db.use f name).gDb = db.gDb := rfl
@[simp] theorem use_stmt (f : Statement → Statement) (name : Stmt) (db : Db) : (db.use f name).stmt = db.stmt := rfl
@[simp] theorem use_connections (f : Statement → Statement) (name : Stmt) (db : Db) :
    (db.use f name).engine.connections = db.engine.connections := Connections.use_connections _ _ _ _

/-! ### The invariant of allowed runs -/

/-- A statement that is not finalized belongs to the current connection and to one of the pointers. -/
structure Inv (db : Db) : Prop where
  unmisused : db.engine.misused = false
  owes : db.engine.connections.Owes db.gDb.toList
  owned : ∀ i s,db.engine.statements[i]? = some s → s.finalized = false →
    db.gDb = some s.conn ∧ ∃ name,db.stmt name = some i
  known : ∀ name i,db.stmt name = some i → i < db.engine.statements.length
  distinct : ∀ a b i,db.stmt a = some i → db.stmt b = some i → a = b

theorem Inv.sound {db : Db} (inv : Inv db) : Sound db := by
  refine ⟨inv.unmisused,fun conn known => ?_⟩
  by_cases current : db.gDb = some conn
  · exact .inr current
  · exact .inl (inv.owes.released known (by simpa using current))

theorem inv_initial : Inv Db.initial where
  unmisused := rfl
  owes := owes_empty
  owned i s found := by simp [Db.initial] at found
  known name i pointer := by cases pointer
  distinct a b i pointer := by cases pointer

/-- A pointer that is not stale leads to a statement of the current connection. -/
theorem Inv.found {db : Db} (inv : Inv db) {name : Stmt} (fresh : ¬ db.stale name) {i : Nat} (pointer : db.stmt name = some i) :
    ∃ s,db.engine.statements[i]? = some s ∧ s.usable db.gDb = true := by
  have inside := inv.known name i pointer
  have found := List.getElem?_eq_getElem inside
  generalize db.engine.statements[i] = s at found
  have unfinished : s.finalized = false := by
    cases finalized : s.finalized with
    | false => rfl
    | true => exact absurd (by simp [Db.stale,Engine.stale,pointer,found,finalized]) fresh
  exact ⟨s,found,by simp [Statement.usable,unfinished,(inv.owned i s found unfinished).1]⟩

/-- Using a pointer that is not stale. -/
theorem Inv.use {db : Db} (inv : Inv db) {name : Stmt} (fresh : ¬ db.stale name) {f : Statement → Statement}
    (conn : ∀ s,(f s).conn = s.conn) :
    Inv (db.use f name) where
  unmisused := by
    cases pointer : db.stmt name with
    | none => simpa [Db.use,pointer] using inv.unmisused
    | some i =>
      obtain ⟨s,found,usable⟩ := inv.found fresh pointer
      simpa [Db.use,pointer,use_found found usable] using inv.unmisused
  owes := by simpa using inv.owes
  owned i s found unfinished := by
    simp only [Db.use,use_statement] at found
    split at found
    · obtain ⟨s',found',rfl⟩ := Option.map_eq_some_iff.mp found
      cases finalized : s'.finalized with
      | true => simp [Statement.used,finalized] at unfinished
      | false => simpa [Statement.used,finalized,conn] using inv.owned i s' found' finalized
    · exact inv.owned i s found unfinished
  known := by simpa [Db.use] using inv.known
  distinct := inv.distinct

/-! ### `db_init` -/

/-- A pointer that no statement waits behind. -/
def Db.Dead (db : Db) (name : Stmt) : Prop := db.stmt name = none ∨ db.stale name

/-- Where no database is open, every statement was finalized. -/
theorem Inv.dead {db : Db} (inv : Inv db) (closed : db.gDb = none) (name : Stmt) : db.Dead name := by
  cases pointer : db.stmt name with
  | none => exact .inl pointer
  | some i =>
    by_cases stale : db.stale name
    · exact .inr stale
    · obtain ⟨s,_,usable⟩ := inv.found stale pointer
      simp [Statement.usable,closed] at usable

theorem Inv.openDb {db : Db} (inv : Inv db) (closed : db.gDb = none) (opened : Opened) : Inv (db.openDb opened) := by
  have finalized : ∀ (i : Nat) (s : Statement),db.engine.statements[i]? = some s → s.finalized = false → False := by
    intro i s found unfinished
    have own := (inv.owned i s found unfinished).1
    rw [closed] at own
    cases own
  have appended : Inv { db with engine := db.engine.openConnection, gDb := some db.engine.connections.fresh } := {
    unmisused := inv.unmisused
    owes := by
      have none_owed := inv.owes
      rw [closed] at none_owed
      exact none_owed.acquire
    owned := fun i s found unfinished => (finalized i s found unfinished).elim
    known := inv.known
    distinct := inv.distinct }
  cases opened with
  | ok => exact appended
  | failed => exact appended
  | nomem =>
    have same : db.openDb .nomem = db := by simp [Db.openDb,← closed]
    rwa [same]

@[simp] theorem prepare_gDb (ok : Bool) (name : Stmt) (db : Db) : (db.prepare ok name).gDb = db.gDb := by
  unfold Db.prepare
  split <;> rfl

@[simp] theorem prepare_connections (ok : Bool) (name : Stmt) (db : Db) :
    (db.prepare ok name).engine.connections = db.engine.connections := by
  unfold Db.prepare
  split <;> rfl

@[simp] theorem prepare_misused (ok : Bool) (name : Stmt) (db : Db) :
    (db.prepare ok name).engine.misused = db.engine.misused := by
  unfold Db.prepare
  split <;> rfl

theorem prepare_other {name other : Stmt} (differs : other ≠ name) (ok : Bool) (db : Db) :
    (db.prepare ok name).stmt other = db.stmt other := by
  unfold Db.prepare
  split <;> exact Function.update_of_ne differs _ _

/-- The pointer is NULL or leads to the statement that was prepared last. -/
theorem prepare_self (ok : Bool) (name : Stmt) (db : Db) :
    (db.prepare ok name).stmt name = none ∧ (db.prepare ok name).engine.statements = db.engine.statements ∨
      ∃ conn,db.gDb = some conn ∧ (db.prepare ok name).stmt name = some db.engine.statements.length ∧
        (db.prepare ok name).engine.statements = db.engine.statements ++ [⟨conn,false,false⟩] := by
  unfold Db.prepare
  split
  · rename_i conn current
    exact .inr ⟨conn,current,Function.update_self _ _ _,rfl⟩
  · exact .inl ⟨Function.update_self _ _ _,rfl⟩

theorem prepare_pointer {ok : Bool} {name other : Stmt} {db : Db} {i : Nat} (pointer : (db.prepare ok name).stmt other = some i) :
    other ≠ name ∧ db.stmt other = some i ∨
      other = name ∧ i = db.engine.statements.length ∧
        (db.prepare ok name).engine.statements.length = db.engine.statements.length + 1 := by
  by_cases same : other = name
  · subst same
    rcases prepare_self ok other db with ⟨null,_⟩ | ⟨conn,_,last,statements⟩
    · rw [null] at pointer
      cases pointer
    · rw [last] at pointer
      cases pointer
      exact .inr ⟨rfl,rfl,by simp [statements]⟩
  · exact .inl ⟨same,by rwa [prepare_other same] at pointer⟩

theorem prepare_statement {ok : Bool} {name : Stmt} {db : Db} {i : Nat} {s : Statement}
    (found : (db.prepare ok name).engine.statements[i]? = some s) :
    db.engine.statements[i]? = some s ∨ db.gDb = some s.conn ∧ (db.prepare ok name).stmt name = some i := by
  rcases prepare_self ok name db with ⟨_,statements⟩ | ⟨conn,current,last,statements⟩
  · exact .inl (by rwa [statements] at found)
  · rw [statements,List.getElem?_append] at found
    split at found
    · exact .inl found
    · rename_i beyond
      rw [List.getElem?_singleton] at found
      split at found
      · cases found
        have same : i = db.engine.statements.length := by omega
        exact .inr ⟨current,by rw [last,same]⟩
      · cases found

theorem prepare_length (ok : Bool) (name : Stmt) (db : Db) :
    db.engine.statements.length ≤ (db.prepare ok name).engine.statements.length := by
  rcases prepare_self ok name db with ⟨_,statements⟩ | ⟨conn,_,_,statements⟩ <;> simp [statements]

/-- Preparing a statement behind whose pointer no other one waits. -/
theorem Inv.prepare {db : Db} (inv : Inv db) {name : Stmt} (dead : db.Dead name) (ok : Bool) : Inv (db.prepare ok name) where
  unmisused := by simpa using inv.unmisused
  owes := by simpa using inv.owes
  owned i s found unfinished := by
    rw [prepare_gDb]
    rcases prepare_statement found with old | ⟨current,pointer⟩
    · obtain ⟨own,other,pointer⟩ := inv.owned i s old unfinished
      refine ⟨own,other,?_⟩
      rw [prepare_other ?_]
      · exact pointer
      · rintro rfl
        rcases dead with null | stale
        · rw [null] at pointer
          cases pointer
        · simp [Db.stale,Engine.stale,pointer,old,unfinished] at stale
    · exact ⟨current,name,pointer⟩
  known other i pointer := by
    rcases prepare_pointer pointer with ⟨_,pointer⟩ | ⟨_,last,length⟩
    · exact Nat.lt_of_lt_of_le (inv.known other i pointer) (prepare_length ok name db)
    · omega
  distinct a b i pointer pointer' := by
    rcases prepare_pointer pointer with ⟨_,pointer⟩ | ⟨same,last,_⟩ <;>
      rcases prepare_pointer pointer' with ⟨_,pointer'⟩ | ⟨same',last',_⟩
    · exact inv.distinct a b i pointer pointer'
    · have := inv.known a i pointer
      omega
    · have := inv.known b i pointer'
      omega
    · rw [same,same']

/-- Other pointers are what they were. -/
theorem dead_prepare {db : Db} {name other : Stmt} (dead : db.Dead other) (differs : other ≠ name) (ok : Bool) :
    (db.prepare ok name).Dead other := by
  rcases dead with null | stale
  · exact .inl (by rwa [prepare_other differs])
  · refine .inr ?_
    unfold Db.stale at stale ⊢
    rw [prepare_other differs]
    cases pointer : db.stmt other with
    | none => simp [Engine.stale,pointer] at stale
    | some i =>
      simp only [pointer,Engine.stale,Option.any_eq_true] at stale ⊢
      obtain ⟨s,found,finalized⟩ := stale
      have inside := (List.getElem?_eq_some_iff.mp found).1
      rcases prepare_self ok name db with ⟨_,statements⟩ | ⟨conn,_,_,statements⟩
      · exact ⟨s,by rwa [statements],finalized⟩
      · exact ⟨s,by rwa [statements,List.getElem?_append_left inside],finalized⟩

theorem prepareAll_frame (prepared : Stmt → Bool) (names : List Stmt) (db : Db) :
    (db.prepareAll prepared names).1.gDb = db.gDb ∧
      (db.prepareAll prepared names).1.engine.connections = db.engine.connections ∧
      (db.prepareAll prepared names).1.engine.misused = db.engine.misused := by
  induction names generalizing db with
  | nil => exact ⟨rfl,rfl,rfl⟩
  | cons name rest ih =>
    unfold Db.prepareAll
    split
    · simpa using ih (db.prepare true name)
    · simp

theorem Inv.prepareAll {db : Db} (inv : Inv db) (prepared : Stmt → Bool) {names : List Stmt} (once : names.Nodup)
    (dead : ∀ name ∈ names,db.Dead name) :
    Inv (db.prepareAll prepared names).1 ∧
      ∀ other ∉ names,db.Dead other → (db.prepareAll prepared names).1.Dead other := by
  induction names generalizing db with
  | nil => exact ⟨inv,fun _ _ dead => dead⟩
  | cons name rest ih =>
    obtain ⟨absent,once⟩ := List.nodup_cons.mp once
    have prepared' : ∀ ok,Inv (db.prepare ok name) := inv.prepare (dead name (by simp))
    unfold Db.prepareAll
    split
    · obtain ⟨inv',kept⟩ := ih (prepared' true) once fun other member =>
        dead_prepare (dead other (by simp [member])) (by rintro rfl; exact absent member) true
      refine ⟨inv',fun other outside dead => kept other ?_ (dead_prepare dead ?_ true)⟩
      · exact fun member => outside (by simp [member])
      · exact fun same => outside (by simp [same])
    · exact ⟨prepared' false,fun other outside dead => dead_prepare dead (fun same => outside (by simp [same])) false⟩

theorem Inv.dbInit {db : Db} (inv : Inv db) (closed : db.gDb = none) (r : InitResults) : Inv (dbInit r db).1 := by
  have opened := inv.openDb closed r.opened
  have dead : ∀ name,(db.openDb r.opened).Dead name := by
    intro name
    have before := inv.dead closed name
    cases h : r.opened <;> exact before
  have once : required.Nodup := by decide
  obtain ⟨prepared,last⟩ := opened.prepareAll r.prepared once fun name _ => dead name
  unfold DbHandles.dbInit
  dsimp only
  split_ifs
  · exact opened
  · exact opened
  · split
    · rename_i db' finished
      have same : db' = ((db.openDb r.opened).prepareAll r.prepared required).1 := by rw [finished]
      subst same
      exact prepared.prepare (last .upsertFileEntry (by decide) (dead _)) _
    · rename_i db' rc _ finished
      have same : db' = ((db.openDb r.opened).prepareAll r.prepared required).1 := by rw [finished]
      subst same
      exact prepared

/-- Whatever fails, `db_init` opens at most one connection, which becomes the current one. -/
theorem dbInit_frame (r : InitResults) (db : Db) :
    (dbInit r db).1.gDb = (db.openDb r.opened).gDb ∧
      (dbInit r db).1.engine.connections = (db.openDb r.opened).engine.connections ∧
      (dbInit r db).1.engine.misused = db.engine.misused := by
  have misused : (db.openDb r.opened).engine.misused = db.engine.misused := by cases h : r.opened <;> rfl
  obtain ⟨gDb,connections,misused'⟩ := prepareAll_frame r.prepared required (db.openDb r.opened)
  unfold dbInit
  dsimp only
  split_ifs
  · exact ⟨rfl,rfl,misused⟩
  · exact ⟨rfl,rfl,misused⟩
  · split
    · rename_i db' finished
      rw [finished] at gDb connections misused'
      simpa using And.intro gDb (And.intro connections (misused'.trans misused))
    · rename_i db' rc _ finished
      rw [finished] at gDb connections misused'
      exact ⟨gDb,connections,misused'.trans misused⟩

/-! ### `db_close` -/

/-- Every statement of `db.c`, in the order of `db_close`. -/
def statements : List Stmt := required ++ [.upsertFileEntry]

theorem mem_statements (name : Stmt) : name ∈ statements := by
  cases name <;> decide

theorem dbClose_eq {db : Db} {conn : Nat} (current : db.gDb = some conn) :
    dbClose db =
      { statements.foldl (fun db name => db.finalize name) db with
        engine := (statements.foldl (fun db name => db.finalize name) db).engine.close conn
        gDb := none } := by
  have guarded : ∀ db : Db,(if (db.stmt .upsertFileEntry).isSome then db.finalize .upsertFileEntry else db) =
      db.finalize .upsertFileEntry := by
    intro db
    split
    · rfl
    · rename_i null
      simp [Db.finalize,Db.use,Option.not_isSome_iff_eq_none.mp null]
  unfold dbClose
  rw [current]
  simp only [guarded,statements,List.foldl_append,List.foldl_cons,List.foldl_nil]

theorem finalizeAll_frame (names : List Stmt) (db : Db) :
    (names.foldl (fun db name => db.finalize name) db).gDb = db.gDb ∧
      (names.foldl (fun db name => db.finalize name) db).stmt = db.stmt ∧
      (names.foldl (fun db name => db.finalize name) db).engine.connections = db.engine.connections := by
  induction names generalizing db with
  | nil => exact ⟨rfl,rfl,rfl⟩
  | cons name rest ih => simpa [Db.finalize] using ih (db.finalize name)

theorem dead_use {db : Db} {name : Stmt} (dead : db.Dead name) (f : Statement → Statement) (other : Stmt) :
    (db.use f other).Dead name := by
  rcases dead with null | stale
  · exact .inl null
  · exact .inr (stale_use stale f _ _)

theorem Inv.finalize_dead {db : Db} (inv : Inv db) (name : Stmt) : (db.finalize name).Dead name := by
  cases pointer : db.stmt name with
  | none => exact .inl pointer
  | some i =>
    have inside := inv.known name i pointer
    have found := List.getElem?_eq_getElem inside
    refine .inr ?_
    cases finalized : db.engine.statements[i].finalized <;>
      simp [Db.stale,Db.finalize,Db.use,Engine.stale,pointer,use_statement,found,Statement.used,finalized,Statement.finalize]

/-- Finalizing a statement leaves the other pointers as they are. -/
theorem Inv.finalize_other {db : Db} (inv : Inv db) {name other : Stmt} (differs : other ≠ name) (fresh : ¬ db.stale other) :
    ¬ (db.finalize name).stale other := by
  cases pointer : db.stmt other with
  | none => simp [Db.stale,Db.finalize,Db.use,Engine.stale,pointer]
  | some i =>
    have elsewhere : db.stmt name ≠ some i := fun same => differs (inv.distinct other name i pointer same)
    simpa [Db.stale,Db.finalize,Db.use,Engine.stale,pointer,use_statement,elsewhere] using fresh

theorem Inv.finalizeAll {db : Db} (inv : Inv db) {names : List Stmt} (once : names.Nodup)
    (fresh : ∀ name ∈ names,¬ db.stale name) :
    Inv (names.foldl (fun db name => db.finalize name) db) ∧
      ∀ name,db.Dead name ∨ name ∈ names → (names.foldl (fun db name => db.finalize name) db).Dead name := by
  induction names generalizing db with
  | nil => exact ⟨inv,fun name dead => dead.resolve_right (by simp)⟩
  | cons name rest ih =>
    obtain ⟨absent,once⟩ := List.nodup_cons.mp once
    obtain ⟨inv',dead'⟩ := ih (inv.use (fresh name (by simp)) (f := Statement.finalize) fun _ => rfl) once
      fun other member => inv.finalize_other (by rintro rfl; exact absent member) (fresh other (by simp [member]))
    refine ⟨inv',fun other which => dead' other ?_⟩
    rcases which with dead | member
    · exact .inl (dead_use dead _ _)
    · rcases List.mem_cons.mp member with rfl | member
      · exact .inl (inv.finalize_dead other)
      · exact .inr member

theorem Inv.dbClose {db : Db} (inv : Inv db) {conn : Nat} (current : db.gDb = some conn) (fresh : ∀ name,¬ db.stale name) :
    Inv (dbClose db) := by
  have once : statements.Nodup := by decide
  obtain ⟨inv',dead⟩ := inv.finalizeAll once fun name _ => fresh name
  obtain ⟨gDb,stmt,connections⟩ := finalizeAll_frame statements db
  rw [dbClose_eq current]
  generalize statements.foldl (fun db name => db.finalize name) db = closing at *
  have finalized : ∀ (i : Nat) (s : Statement),closing.engine.statements[i]? = some s → s.finalized = true := by
    intro i s found
    cases unfinished : s.finalized with
    | true => rfl
    | false =>
      obtain ⟨_,name,pointer⟩ := inv'.owned i s found unfinished
      rcases dead name (.inr (mem_statements name)) with null | stale
      · rw [null] at pointer
        cases pointer
      · simp [Db.stale,Engine.stale,pointer,found,unfinished] at stale
  have unused : closing.engine.statements.any (fun s => s.conn = conn && !s.finalized) = false := by
    simp only [List.any_eq_false]
    intro s member
    obtain ⟨i,_,found⟩ := List.getElem_of_mem member
    simp [finalized i s (found ▸ List.getElem?_eq_getElem _)]
  simp only [Engine.close,unused,Bool.false_eq_true,if_false]
  exact {
    unmisused := inv'.unmisused
    owes := by
      have one_owed := inv'.owes
      rw [gDb,current] at one_owed
      exact one_owed.release
    owned := fun i s found unfinished => by
      rw [finalized i s found] at unfinished
      cases unfinished
    known := inv'.known
    distinct := inv'.distinct }

/-! ### The operations -/

theorem fresh_use {db : Db} {name other : Stmt} (fresh : ¬ db.stale name) {f : Statement → Statement}
    (keeps : ∀ s,(f s).finalized = s.finalized) : ¬ (db.use f other).stale name := by
  unfold Db.stale Db.use
  rwa [use_keeps_stale keeps]

theorem Inv.execute {db : Db} (inv : Inv db) {name : Stmt} (fresh : ¬ db.stale name) (parameters : Nat) (r : StepResult) :
    Inv (db.execute name parameters r) := by
  have bound : Inv ((Db.bind name)^[parameters] (db.reset name)) ∧
      ¬ ((Db.bind name)^[parameters] (db.reset name)).stale name := by
    induction parameters with
    | zero => exact ⟨inv.use fresh fun _ => rfl,fresh_use fresh fun _ => rfl⟩
    | succ n ih =>
      rw [Function.iterate_succ_apply']
      exact ⟨ih.1.use ih.2 fun _ => rfl,fresh_use ih.2 fun _ => rfl⟩
  exact bound.1.use bound.2 fun _ => rfl

theorem execute_frame (name : Stmt) (parameters : Nat) (r : StepResult) (db : Db) :
    (db.execute name parameters r).gDb = db.gDb ∧ (db.execute name parameters r).stmt = db.stmt ∧
      (db.execute name parameters r).engine.connections = db.engine.connections := by
  have bound : ((Db.bind name)^[parameters] (db.reset name)).gDb = db.gDb ∧
      ((Db.bind name)^[parameters] (db.reset name)).stmt = db.stmt ∧
      ((Db.bind name)^[parameters] (db.reset name)).engine.connections = db.engine.connections := by
    induction parameters with
    | zero => simp [Db.reset]
    | succ n ih =>
      rw [Function.iterate_succ_apply']
      simpa [Db.bind] using ih
  simpa [Db.execute,Db.step] using bound

/-- With a NULL statement nothing happens. -/
theorem execute_null {db : Db} {name : Stmt} (null : db.stmt name = none) (parameters : Nat) (r : StepResult) :
    db.execute name parameters r = db := by
  have unused : ∀ f,db.use f name = db := by
    intro f
    simp [Db.use,null]
  have bound : (Db.bind name)^[parameters] db = db := Function.iterate_fixed (unused _) parameters
  unfold Db.execute Db.reset Db.step
  rw [unused,bound,unused]

/-- An operation does nothing without a database, and else executes its statement. -/
theorem operation_eq (op : Operation) (db : Db) :
    (op.run db).1 = if db.gDb = none then db else db.execute op.name op.parameters op.result := by
  by_cases closed : db.gDb = none
  · cases op <;> simp [Operation.run,dbInsertEvent,dbInsertAlert,dbStoreModel,dbLoadModel,dbUpdateFileEntry,closed]
  · cases op with
    | updateFileEntry done =>
      cases pointer : db.stmt .upsertFileEntry with
      | none => simp [Operation.run,dbUpdateFileEntry,pointer,closed,Operation.name,execute_null pointer]
      | some i => simp [Operation.run,dbUpdateFileEntry,pointer,closed,Operation.name,Operation.parameters,Operation.result]
    | _ =>
      simp [Operation.run,dbInsertEvent,dbInsertAlert,dbStoreModel,dbLoadModel,closed,
        Operation.name,Operation.parameters,Operation.result]

/-! ### Allowed runs -/

theorem Inv.run {db : Db} (inv : Inv db) {call : Call} (allowed : Allowed db call) : Inv (call.run db) := by
  cases call with
  | init r => exact inv.dbInit allowed r
  | close =>
    cases current : db.gDb with
    | none => simpa [Call.run,DbHandles.dbClose,current] using inv
    | some conn => exact inv.dbClose current (allowed.resolve_left (by simp [current]))
  | operation op =>
    simp only [Call.run,operation_eq]
    split
    · exact inv
    · rename_i opened
      exact inv.execute (allowed.resolve_left opened) _ _

/-- In a run of allowed calls. -/
theorem inv_run {calls : List Call} {db : Db} (run : Run dbStep Allowed Db.initial calls db) : Inv db := by
  refine run.invariant (I := fun _ db => Inv db) inv_initial ?_
  intro _ before call after label _ inv allowed stepped
  cases stepped
  exact inv.run allowed

/-! ### Other runs -/

theorem finalizeAll_misused {names : List Stmt} {db : Db}
    (misused : db.engine.misused = true ∨ ∃ name ∈ names,db.stale name) :
    (names.foldl (fun db name => db.finalize name) db).engine.misused = true := by
  induction names generalizing db with
  | nil => simpa using misused
  | cons name rest ih =>
    refine ih ?_
    rcases misused with misused | ⟨other,member,stale⟩
    · exact .inl (use_misused misused _ _ _)
    · rcases List.mem_cons.mp member with rfl | member
      · exact .inl (use_stale stale _ _)
      · exact .inr ⟨other,member,stale_use stale _ _ _⟩

theorem execute_misused {db : Db} {name : Stmt} (misused : db.engine.misused = true ∨ db.stale name) (parameters : Nat) (r : StepResult) :
    (db.execute name parameters r).engine.misused = true := by
  have bound : ((Db.bind name)^[parameters] (db.reset name)).engine.misused = true := by
    induction parameters with
    | zero => exact misused.elim (fun misused => use_misused misused _ _ _) (fun stale => use_stale stale _ _)
    | succ n ih =>
      rw [Function.iterate_succ_apply']
      exact use_misused ih _ _ _
  exact use_misused bound _ _ _

/-- A misuse is not forgotten. -/
theorem run_misused {db : Db} (misused : db.engine.misused = true) (call : Call) : (call.run db).engine.misused = true := by
  cases call with
  | init r => simpa [Call.run,dbInit_frame] using misused
  | close =>
    cases current : db.gDb with
    | none => simpa [Call.run,dbClose,current] using misused
    | some conn =>
      simp only [Call.run,dbClose_eq current,close_misused]
      exact finalizeAll_misused (.inl misused)
  | operation op =>
    simp only [Call.run,operation_eq]
    split
    · exact misused
    · exact execute_misused (.inl misused) _ _

/-- A connection that is not the current one is never closed and does not become the current one. -/
theorem run_abandoned {db : Db} {conn : Nat} (known : conn < db.engine.connections.fresh) (other : db.gDb ≠ some conn) (call : Call) :
    conn < (call.run db).engine.connections.fresh ∧
      (call.run db).engine.connections.releases[conn]? = db.engine.connections.releases[conn]? ∧
      (call.run db).gDb ≠ some conn := by
  cases call with
  | init r =>
    obtain ⟨gDb,connections,_⟩ := dbInit_frame r db
    simp only [Call.run,gDb,connections]
    have opened : conn < db.engine.connections.acquire.fresh ∧
        db.engine.connections.acquire.releases[conn]? = db.engine.connections.releases[conn]? ∧
        some db.engine.connections.fresh ≠ some conn := by
      refine ⟨by simp; omega,acquire_other known,fun same => ?_⟩
      have := Option.some.inj same
      omega
    cases r.opened with
    | ok => exact opened
    | failed => exact opened
    | nomem => exact ⟨known,rfl,by simp [Db.openDb]⟩
  | close =>
    cases current : db.gDb with
    | none => simp [Call.run,dbClose,current,known]
    | some now =>
      have differs : now ≠ conn := fun same => other (by rw [current,same])
      simp only [Call.run,dbClose_eq current,Engine.close,finalizeAll_frame]
      split <;> simp [finalizeAll_frame,known,release_other differs]
  | operation op =>
    simp only [Call.run,operation_eq]
    split
    · exact ⟨known,rfl,other⟩
    · simpa [execute_frame] using And.intro known other

/-- What is not sound stays so. -/
theorem sound_before {db : Db} {call : Call} (sound : Sound (call.run db)) : Sound db := by
  constructor
  · cases misused : db.engine.misused with
    | false => rfl
    | true =>
      have later := sound.1
      rw [run_misused misused] at later
      cases later
  · intro conn known
    by_cases current : db.gDb = some conn
    · exact .inr current
    · obtain ⟨known',connections,abandoned⟩ := run_abandoned known current call
      have later := (sound.2 conn known').resolve_right abandoned
      exact .inl (by rwa [connections] at later)

/-- A call that is not allowed abandons the current connection or misuses a statement. -/
theorem allowed_of_sound {db : Db} (inv : Inv db) {call : Call} (sound : Sound (call.run db)) : Allowed db call := by
  cases call with
  | init r =>
    cases current : db.gDb with
    | none => exact current
    | some conn =>
      exfalso
      have owed : conn ∈ db.gDb.toList := by simp [current]
      have known := inv.owes.known conn owed
      have unclosed := inv.owes.unreleased owed
      obtain ⟨gDb,connections,_⟩ := dbInit_frame r db
      have left := sound.2 conn
      simp only [Call.run,gDb,connections] at left
      cases opened : r.opened with
      | nomem =>
        simp only [Db.openDb,opened,unclosed] at left
        have once := (left known).resolve_right (by simp)
        cases once
      | _ =>
        simp only [Db.openDb,opened,Engine.openConnection,acquire_other known,unclosed] at left
        have now := (left (by simp; omega)).resolve_left (by simp)
        have := Option.some.inj now
        omega
  | close =>
    by_cases closed : db.gDb = none
    · exact .inl closed
    · refine .inr fun name stale => ?_
      obtain ⟨conn,current⟩ := Option.ne_none_iff_exists'.mp closed
      have misused := finalizeAll_misused (.inr ⟨name,mem_statements name,stale⟩)
      have unmisused := sound.1
      simp [Call.run,dbClose_eq current,close_misused,misused] at unmisused
  | operation op =>
    by_cases closed : db.gDb = none
    · exact .inl closed
    · refine .inr fun stale => ?_
      have unmisused := sound.1
      simp [Call.run,operation_eq,closed,execute_misused (.inr stale)] at unmisused

/-- The handles are sound after exactly the runs in which no `db_init` finds a database open and
    no other function meets a stale pointer while one is. -/
theorem handles_sound {calls : List Call} {db : Db} (run : Run dbStep free Db.initial calls db) :
    Sound db ↔ Run dbStep Allowed Db.initial calls db := by
  constructor
  · induction run with
    | start => exact fun _ => .start
    | @next trace before after call label _ _ stepped ih =>
      intro sound
      cases stepped
      have earlier := ih (sound_before sound)
      exact .next earlier (allowed_of_sound (inv_run earlier) sound) rfl
  · exact fun allowed => (inv_run allowed).sound

/-- The state that some calls lead to. -/
def after (calls : List Call) : Db := calls.foldl (fun db call => call.run db) Db.initial

theorem run_calls (db : Db) (calls : List Call) :
    Run dbStep free db calls (calls.foldl (fun db call => call.run db) db) := by
  induction calls generalizing db with
  | nil => exact .start
  | cons call rest ih =>
    have first : Run dbStep free db [call] (call.run db) := .next .start trivial rfl
    exact first.trans (ih (call.run db))

private theorem allowed_next {calls : List Call} {db : Db} (run : Run dbStep Allowed Db.initial calls db) (call : Call)
    (allowed : Allowed db call) : Run dbStep Allowed Db.initial (calls ++ [call]) (call.run db) := run.next allowed rfl

/-- A database that is opened, used, closed and opened again. -/
theorem handles_sound_again :
    Sound (after [.init ⟨.ok,true,true,fun _ => true⟩,.operation (.insertEvent true),.close,.init ⟨.ok,true,true,fun _ => true⟩]) := by
  have opened := allowed_next .start (.init ⟨.ok,true,true,fun _ => true⟩) rfl
  have inserted := allowed_next opened (.operation (.insertEvent true)) (Or.inr (by decide))
  have closed := allowed_next inserted .close (Or.inr fun name => by cases name <;> decide)
  exact (handles_sound (run_calls _ _)).mpr (allowed_next closed (.init ⟨.ok,true,true,fun _ => true⟩) rfl)

/-- Where `main` falls back to ':memory:' because the schema failed, the first connection is never closed. -/
theorem handles_unsound : ¬ ∀ calls db,Run dbStep free Db.initial calls db → Sound db := by
  intro always
  have sound := always _ _ (run_calls _ [.init ⟨.ok,true,false,fun _ => true⟩,.init ⟨.ok,true,true,fun _ => true⟩])
  rcases sound.2 0 (by decide) with once | current
  · revert once
    decide
  · revert current
    decide

end Nulleye.DbHandles
