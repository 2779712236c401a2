import Nulleye.DbHandles

/-!
The database of a program whose first `db_init` may fail. The second one overwrites `g_db`
while the connection of the first is still open, so the invariant of the allowed runs is
gone. What is left is enough for the rest of the program: from a `db_init` that succeeds to
`db_close`, every pointer leads to a statement of the connection that was opened last.
-/
namespace Nulleye.DbFallbacks
open Nulleye.Ledgers Nulleye.Connections Nulleye.DbHandles

/-- Nothing was misused, and of the connections those in `lost` were never closed. -/
structure Abandoned (lost : List Nat) (db : Db) : Prop where
  unmisused : db.engine.misused = false
  owes : db.engine.connections.Owes lost
  known : ∀ s ∈ db.engine.statements,s.conn < db.engine.connections.fresh

/-- The pointers in `done` lead to the statements of the connection that are not finalized. -/
structure Ready (conn : Nat) (done : List Stmt) (db : Db) : Prop where
  current : db.gDb = some conn
  usable : ∀ name ∈ done,∀ i,db.stmt name = some i → ∃ s,db.engine.statements[i]? = some s ∧ s.usable (some conn) = true
  owned : ∀ i s,db.engine.statements[i]? = some s → s.usable (some conn) = true → ∃ name ∈ done,db.stmt name = some i
  distinct : ∀ a ∈ done,∀ b ∈ done,∀ i,db.stmt a = some i → db.stmt b = some i → a = b

/-- Between a `db_init` that succeeded and `db_close`. -/
structure Serving (conn : Nat) (lost : List Nat) (db : Db) : Prop where
  abandoned : Abandoned (conn :: lost) db
  ready : Ready conn statements db
  prepared : ∀ name ∈ required,(db.stmt name).isSome = true

variable {conn : Nat} {lost : List Nat} {done : List Stmt} {db : Db}

theorem abandoned_initial : Abandoned [] Db.initial := ⟨rfl,owes_empty,fun s member => by cases member⟩

theorem Ready.congr {done' : List Stmt} (ready : Ready conn done db) (same : ∀ name,name ∈ done ↔ name ∈ done') :
    Ready conn done' db where
  current := ready.current
  usable name member := ready.usable name ((same name).mpr member)
  owned i s found usable := by
    obtain ⟨name,member,pointer⟩ := ready.owned i s found usable
    exact ⟨name,(same name).mp member,pointer⟩
  distinct a one b other := ready.distinct a ((same a).mpr one) b ((same b).mpr other)

theorem inside_of_found {i : Nat} {s : Statement} (found : db.engine.statements[i]? = some s) :
    i < db.engine.statements.length := (List.getElem?_eq_some_iff.mp found).1

/-! ### `db_init` -/

/-- Another statement is prepared. -/
theorem Ready.prepare (ready : Ready conn done db) {name : Stmt} (new : name ∉ done) (ok : Bool) :
    Ready conn (name :: done) (db.prepare ok name) := by
  have differs : ∀ other ∈ done,other ≠ name := fun other member same => new (same ▸ member)
  rcases prepare_self ok name db with ⟨null,statements⟩ | ⟨conn',current,last,statements⟩
  · refine ⟨by simpa using ready.current,?_,?_,?_⟩
    · intro other member i pointer
      rcases List.mem_cons.mp member with rfl | member
      · rw [null] at pointer
        cases pointer
      · rw [prepare_other (differs other member)] at pointer
        rw [statements]
        exact ready.usable other member i pointer
    · intro i s found usable
      rw [statements] at found
      obtain ⟨other,member,pointer⟩ := ready.owned i s found usable
      exact ⟨other,List.mem_cons_of_mem _ member,by rwa [prepare_other (differs other member)]⟩
    · intro a one b other i first second
      rcases List.mem_cons.mp one with rfl | one
      · rw [null] at first
        cases first
      · rcases List.mem_cons.mp other with rfl | other
        · rw [null] at second
          cases second
        · rw [prepare_other (differs a one)] at first
          rw [prepare_other (differs b other)] at second
          exact ready.distinct a one b other i first second
  · have same : conn' = conn := Option.some.inj (current.symm.trans ready.current)
    subst same
    have old_inside : ∀ other ∈ done,∀ i,db.stmt other = some i → i < db.engine.statements.length := by
      intro other member i pointer
      obtain ⟨s,found,_⟩ := ready.usable other member i pointer
      exact inside_of_found found
    refine ⟨by simpa using ready.current,?_,?_,?_⟩
    · intro other member i pointer
      rw [statements]
      rcases List.mem_cons.mp member with rfl | member
      · rw [last] at pointer
        cases pointer
        exact ⟨_,List.getElem?_concat_length,by simp [Statement.usable]⟩
      · rw [prepare_other (differs other member)] at pointer
        rw [List.getElem?_append_left (old_inside other member i pointer)]
        exact ready.usable other member i pointer
    · intro i s found usable
      rcases prepare_statement found with old | ⟨_,pointer⟩
      · obtain ⟨other,member,pointer⟩ := ready.owned i s old usable
        exact ⟨other,List.mem_cons_of_mem _ member,by rwa [prepare_other (differs other member)]⟩
      · exact ⟨name,List.mem_cons_self,pointer⟩
    · intro a one b other i first second
      rcases List.mem_cons.mp one with rfl | before <;> rcases List.mem_cons.mp other with rfl | before'
      · rfl
      · rw [last] at first
        cases first
        rw [prepare_other (differs b before')] at second
        exact absurd (old_inside b before' _ second) (Nat.lt_irrefl _)
      · rw [last] at second
        cases second
        rw [prepare_other (differs a before)] at first
        exact absurd (old_inside a before _ first) (Nat.lt_irrefl _)
      · rw [prepare_other (differs a before)] at first
        rw [prepare_other (differs b before')] at second
        exact ready.distinct a before b before' i first second

theorem Ready.prepareAll (prepared : Stmt → Bool) {names : List Stmt} (ready : Ready conn done db) (once : (names ++ done).Nodup)
    (succeeded : (db.prepareAll prepared names).2 = 0) : Ready conn (names ++ done) (db.prepareAll prepared names).1 := by
  induction names generalizing done db with
  | nil => exact ready
  | cons name rest ih =>
    have moved : (rest ++ name :: done).Perm (name :: rest ++ done) := List.perm_middle
    have once' := moved.nodup_iff.mpr once
    have new : name ∉ done := fun member => (List.nodup_cons.mp once).1 (List.mem_append_right _ member)
    unfold Db.prepareAll at succeeded ⊢
    split_ifs at succeeded ⊢
    · exact (ih (ready.prepare new true) once' succeeded).congr fun _ => moved.mem_iff
    · cases succeeded

/-- Where all of them are prepared, none of the pointers is NULL. -/
theorem prepareAll_pointers (prepared : Stmt → Bool) {names : List Stmt} (current : db.gDb = some conn)
    (succeeded : (db.prepareAll prepared names).2 = 0) {name : Stmt}
    (either : name ∈ names ∨ (db.stmt name).isSome = true) : ((db.prepareAll prepared names).1.stmt name).isSome = true := by
  induction names generalizing db with
  | nil => exact either.resolve_left (by simp)
  | cons first rest ih =>
    unfold Db.prepareAll at succeeded ⊢
    split_ifs at succeeded ⊢
    · refine ih (by simpa using current) succeeded ?_
      by_cases same : name = first
      · subst same
        exact .inr (by simp [Db.prepare,current])
      · rw [prepare_other same]
        exact either.imp_left fun member => (List.mem_cons.mp member).resolve_left same
    · cases succeeded

/-- Preparing statements of a connection that is known. -/
theorem Abandoned.prepare (abandoned : Abandoned lost db) (current : ∀ c,db.gDb = some c → c < db.engine.connections.fresh)
    (ok : Bool) (name : Stmt) : Abandoned lost (db.prepare ok name) where
  unmisused := by simpa using abandoned.unmisused
  owes := by simpa using abandoned.owes
  known s member := by
    obtain ⟨i,inside,found⟩ := List.getElem_of_mem member
    rw [prepare_connections]
    rcases prepare_statement (found ▸ List.getElem?_eq_getElem inside) with old | ⟨own,_⟩
    · exact abandoned.known s (List.mem_of_getElem? old)
    · exact current _ own

theorem Abandoned.prepareAll (abandoned : Abandoned lost db) (current : ∀ c,db.gDb = some c → c < db.engine.connections.fresh)
    (prepared : Stmt → Bool) (names : List Stmt) : Abandoned lost (db.prepareAll prepared names).1 := by
  induction names generalizing db with
  | nil => exact abandoned
  | cons name rest ih =>
    unfold Db.prepareAll
    split_ifs
    · exact ih (abandoned.prepare current true name) (by simpa using current)
    · exact abandoned.prepare current false name

/-- The connection that `sqlite3_open` leaves. -/
def Opened.made (opened : Opened) (db : Db) : List Nat := if opened = .nomem then [] else [db.engine.connections.fresh]

theorem Abandoned.openDb (abandoned : Abandoned lost db) (opened : Opened) :
    Abandoned (Opened.made opened db ++ lost) (db.openDb opened) ∧
      ∀ c,(db.openDb opened).gDb = some c → c < (db.openDb opened).engine.connections.fresh := by
  have appended : Abandoned (db.engine.connections.fresh :: lost)
      { db with engine := db.engine.openConnection, gDb := some db.engine.connections.fresh } := {
    unmisused := abandoned.unmisused
    owes := abandoned.owes.acquired
    known := fun s member => by
      simp only [Engine.openConnection,fresh_acquire]
      exact Nat.lt_succ_of_lt (abandoned.known s member) }
  have last : ∀ c,some db.engine.connections.fresh = some c → c < db.engine.openConnection.connections.fresh := by
    intro c same
    cases same
    simp [Engine.openConnection]
  cases opened with
  | nomem => exact ⟨⟨abandoned.unmisused,abandoned.owes,abandoned.known⟩,fun c current => by cases current⟩
  | ok | failed => exact ⟨appended,last⟩

/-- Whatever fails, `db_init` loses at most the connection that it opened. -/
theorem Abandoned.dbInit (abandoned : Abandoned lost db) (r : InitResults) :
    Abandoned (Opened.made r.opened db ++ lost) (DbHandles.dbInit r db).1 := by
  obtain ⟨opened,known⟩ := abandoned.openDb r.opened
  have prepared := opened.prepareAll known r.prepared required
  have current := (prepareAll_frame r.prepared required (db.openDb r.opened)).1
  have connections := (prepareAll_frame r.prepared required (db.openDb r.opened)).2.1
  unfold DbHandles.dbInit
  dsimp only
  split_ifs
  · exact opened
  · exact opened
  · split
    · rename_i db' finished
      rw [finished] at prepared current connections
      exact prepared.prepare (by rw [current,connections]; exact known) _ _
    · rename_i db' rc _ finished
      rw [finished] at prepared
      exact prepared

/-- After a `db_init` that succeeds its connection serves, whatever the calls before it left behind. -/
theorem Abandoned.serving (abandoned : Abandoned lost db) {r : InitResults} (succeeded : (DbHandles.dbInit r db).2 = 0) :
    Serving db.engine.connections.fresh lost (DbHandles.dbInit r db).1 := by
  have kept := abandoned.dbInit r
  have opened : r.opened = .ok := by
    by_contra failed
    simp [DbHandles.dbInit,failed] at succeeded
  have none_usable : ∀ (i : Nat) (s : Statement),(db.openDb r.opened).engine.statements[i]? = some s →
      s.usable (some db.engine.connections.fresh) = false := by
    intro i s found
    rw [opened] at found
    have older := abandoned.known s (List.mem_of_getElem? found)
    simp only [Statement.usable,Bool.and_eq_false_imp,decide_eq_false_iff_not,Option.some.injEq]
    intro _
    omega
  have current : (db.openDb r.opened).gDb = some db.engine.connections.fresh := by rw [opened]; rfl
  have start : Ready db.engine.connections.fresh [] (db.openDb r.opened) := {
    current := current
    usable := fun name member => by cases member
    owned := fun i s found usable => by
      rw [none_usable i s found] at usable
      cases usable
    distinct := fun a member => by cases member }
  have once : (required ++ []).Nodup := by decide
  have all : Ready db.engine.connections.fresh statements (DbHandles.dbInit r db).1 ∧
      ∀ name ∈ required,((DbHandles.dbInit r db).1.stmt name).isSome = true := by
    unfold DbHandles.dbInit at succeeded ⊢
    dsimp only at succeeded ⊢
    split_ifs at succeeded ⊢
    · cases succeeded
    · cases succeeded
    · split at succeeded
      · rename_i db' finished
        have prepared := start.prepareAll r.prepared once (by rw [finished])
        have pointers := fun name (member : name ∈ required) =>
          prepareAll_pointers r.prepared current (by rw [finished]) (.inl member)
        rw [finished] at prepared pointers
        refine ⟨(prepared.prepare (by decide) (r.prepared .upsertFileEntry)).congr fun name => by cases name <;> decide,?_⟩
        intro name member
        rw [prepare_other (by rintro rfl; revert member; decide)]
        exact pointers name member
      · rename_i db' rc nonzero finished
        exact absurd succeeded nonzero
  rw [opened] at kept
  exact ⟨kept,all.1,all.2⟩

/-! ### The operations -/

theorem usable_used {f : Statement → Statement} (keeps : ∀ s,(f s).finalized = s.finalized) (keeps_conn : ∀ s,(f s).conn = s.conn)
    (current : Option Nat) (s : Statement) : (s.used f).usable current = s.usable current := by
  cases finalized : s.finalized <;> simp [Statement.usable,Statement.used,finalized,keeps,keeps_conn]

/-- A use that leaves finalized statements and connections as they are. -/
theorem Ready.use (ready : Ready conn done db) {f : Statement → Statement} (name : Stmt)
    (keeps : ∀ s,(f s).finalized = s.finalized) (keeps_conn : ∀ s,(f s).conn = s.conn) : Ready conn done (db.use f name) where
  current := ready.current
  usable other member i pointer := by
    obtain ⟨s,found,usable⟩ := ready.usable other member i pointer
    simp only [Db.use,use_statement]
    split_ifs
    · refine ⟨s.used f,by simp [found],?_⟩
      rwa [usable_used keeps keeps_conn]
    · exact ⟨s,found,usable⟩
  owned i s found usable := by
    simp only [Db.use,use_statement] at found
    split_ifs at found
    · obtain ⟨s',found',rfl⟩ := Option.map_eq_some_iff.mp found
      rw [usable_used keeps keeps_conn] at usable
      exact ready.owned i s' found' usable
    · exact ready.owned i s found usable
  distinct := ready.distinct

/-- A pointer that is ready is not misused. -/
theorem Ready.unmisused (ready : Ready conn done db) {name : Stmt} (member : name ∈ done) (f : Statement → Statement) :
    (db.use f name).engine.misused = db.engine.misused := by
  cases pointer : db.stmt name with
  | none => simp [Db.use,pointer]
  | some i =>
    obtain ⟨s,found,usable⟩ := ready.usable name member i pointer
    simp [Db.use,pointer,ready.current,use_found found usable]

theorem Abandoned.use (abandoned : Abandoned lost db) {f : Statement → Statement} {name : Stmt}
    (unmisused : (db.use f name).engine.misused = db.engine.misused) (keeps_conn : ∀ s,(f s).conn = s.conn) :
    Abandoned lost (db.use f name) where
  unmisused := unmisused.trans abandoned.unmisused
  owes := by simpa using abandoned.owes
  known s member := by
    obtain ⟨i,inside,found⟩ := List.getElem_of_mem member
    have found : (db.use f name).engine.statements[i]? = some s := found ▸ List.getElem?_eq_getElem inside
    rw [DbHandles.use_connections]
    simp only [Db.use,use_statement] at found
    split_ifs at found
    · obtain ⟨s',found',rfl⟩ := Option.map_eq_some_iff.mp found
      have older := abandoned.known s' (List.mem_of_getElem? found')
      cases finalized : s'.finalized <;> simpa [Statement.used,finalized,keeps_conn] using older
    · exact abandoned.known s (List.mem_of_getElem? found)

theorem Serving.use (serving : Serving conn lost db) {f : Statement → Statement} (name : Stmt)
    (keeps : ∀ s,(f s).finalized = s.finalized) (keeps_conn : ∀ s,(f s).conn = s.conn) : Serving conn lost (db.use f name) :=
  ⟨serving.abandoned.use (serving.ready.unmisused (mem_statements name) f) keeps_conn,serving.ready.use name keeps keeps_conn,
    serving.prepared⟩

theorem Serving.execute (serving : Serving conn lost db) (name : Stmt) (parameters : Nat) (r : StepResult) :
    Serving conn lost (db.execute name parameters r) := by
  have bound : Serving conn lost ((Db.bind name)^[parameters] (db.reset name)) := by
    induction parameters with
    | zero => exact serving.use name (fun _ => rfl) fun _ => rfl
    | succ n ih =>
      rw [Function.iterate_succ_apply']
      exact ih.use name (fun _ => rfl) fun _ => rfl
  exact bound.use name (fun _ => rfl) fun _ => rfl

theorem Serving.run (serving : Serving conn lost db) (op : Operation) : Serving conn lost (op.run db).1 := by
  rw [operation_eq]
  split_ifs
  · exact serving
  · exact serving.execute _ _ _

/-- What the library answered lets the operation succeed. -/
def succeeds : Operation → Bool
  | .insertEvent done | .insertAlert done | .storeModel done | .updateFileEntry done => done
  | .loadModel r alloc => r = .row && alloc

/-- An operation fails only where the library, or the allocation after it, does. -/
theorem Serving.returned (serving : Serving conn lost db) {op : Operation} (needed : op.name ∈ required) :
    (op.run db).2 = if succeeds op then 0 else -1 := by
  have opened : db.gDb.isNone = false := by simp [serving.ready.current]
  have pointer := serving.prepared op.name needed
  cases op with
  | updateFileEntry done => simp [Operation.name,required] at needed
  | insertEvent done | insertAlert done | storeModel done =>
    cases done <;> simp [Operation.name] at pointer <;>
      simp [Operation.run,dbInsertEvent,dbInsertAlert,dbStoreModel,Db.returned,succeeds,opened,pointer]
  | loadModel r alloc =>
    simp only [Operation.name] at pointer
    simp [Operation.run,dbLoadModel,Db.returned,succeeds,opened,pointer]

/-! ### `db_close` -/

theorem Ready.finalize {name : Stmt} (ready : Ready conn (name :: done) db) (once : name ∉ done) : Ready conn done (db.finalize name) := by
  have elsewhere : ∀ other ∈ done,∀ i,db.stmt other = some i → db.stmt name ≠ some i := by
    intro other member i pointer same
    have equal := ready.distinct name List.mem_cons_self other (List.mem_cons_of_mem _ member) i same pointer
    exact once (equal ▸ member)
  refine ⟨ready.current,?_,?_,?_⟩
  · intro other member i pointer
    simp only [Db.finalize,Db.use,use_statement,if_neg (elsewhere other member i pointer)]
    exact ready.usable other (List.mem_cons_of_mem _ member) i pointer
  · intro i s found usable
    simp only [Db.finalize,Db.use,use_statement] at found
    split_ifs at found with here
    · obtain ⟨s',_,rfl⟩ := Option.map_eq_some_iff.mp found
      cases finalized : s'.finalized <;> simp [Statement.usable,Statement.used,finalized,Statement.finalize] at usable
    · obtain ⟨other,member,pointer⟩ := ready.owned i s found usable
      rcases List.mem_cons.mp member with rfl | member
      · exact absurd pointer here
      · exact ⟨other,member,pointer⟩
  · intro a one b other
    exact ready.distinct a (List.mem_cons_of_mem _ one) b (List.mem_cons_of_mem _ other)

theorem finalizeAll_ready {names : List Stmt} (once : names.Nodup) (abandoned : Abandoned lost db) (ready : Ready conn names db) :
    Abandoned lost (names.foldl (fun db name => db.finalize name) db) ∧
      Ready conn [] (names.foldl (fun db name => db.finalize name) db) := by
  induction names generalizing db with
  | nil => exact ⟨abandoned,ready⟩
  | cons name rest ih =>
    obtain ⟨absent,once⟩ := List.nodup_cons.mp once
    exact ih once (abandoned.use (ready.unmisused List.mem_cons_self _) fun _ => rfl) (ready.finalize absent)

/-- `db_close` closes the connection that serves, and none of those that were lost. -/
theorem Serving.dbClose (serving : Serving conn lost db) : Abandoned lost (DbHandles.dbClose db) ∧ (DbHandles.dbClose db).gDb = none := by
  have once : statements.Nodup := by decide
  obtain ⟨abandoned,ready⟩ := finalizeAll_ready once serving.abandoned serving.ready
  rw [dbClose_eq serving.ready.current]
  generalize statements.foldl (fun db name => db.finalize name) db = closing at *
  have unused : closing.engine.statements.any (fun s => s.conn = conn && !s.finalized) = false := by
    simp only [List.any_eq_false]
    intro s member
    obtain ⟨i,inside,found⟩ := List.getElem_of_mem member
    intro left
    have usable : s.usable (some conn) = true := by
      simp only [Bool.and_eq_true,decide_eq_true_eq] at left
      simp only [Statement.usable,Bool.and_eq_true,decide_eq_true_eq,left.1]
      exact ⟨left.2,trivial⟩
    obtain ⟨name,none_left,_⟩ := ready.owned i s (found ▸ List.getElem?_eq_getElem inside) usable
    cases none_left
  simp only [Engine.close,unused,Bool.false_eq_true,if_false]
  exact ⟨⟨abandoned.unmisused,abandoned.owes.release,fun s member => by simpa using abandoned.known s member⟩,trivial⟩

end Nulleye.DbFallbacks
