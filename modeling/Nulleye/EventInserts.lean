import Nulleye.Counting
import Nulleye.Runs
import Nulleye.Statements

/-!
Storing events from several threads at once. All calls of `db_insert_event` share
one prepared statement, and each call resets it, binds its two parameters and steps
it in separate calls into the database. A call stores its own row when no other
call resets the statement between its reset and its step.
-/
namespace Nulleye.EventInserts
open Nulleye.Counting Nulleye.Runs Nulleye.Statements

/-- The bound parameters of `stmt_insert_event`, and so a row of the table without
    its `id` and `ts`. NULL is `none`. -/
structure EventRow where
  module : Option String
  data : Option (List UInt8)
  deriving DecidableEq

/-- The arguments of one call; `blob` holds its `len` bytes, and NULL is `none`. -/
structure Call where
  blob : Option (List UInt8)
  module : Option String
  deriving DecidableEq

/-- `module ? module : "unknown"`. -/
def Call.text (c : Call) : String := c.module.getD "unknown"

/-- The row that a call is to store. -/
def Call.row (c : Call) : EventRow := ⟨some c.text,c.blob⟩

/-- The database as `db_insert_event` uses it: whether `g_db` is set, and the statement with its table. -/
structure Db where
  gDb : Bool
  stmtInsertEvent : Insert EventRow

/-- `sqlite3_bind_text(stmt_insert_event, 1, …)`; where it fails the parameter becomes NULL. -/
def Db.bindText (ok : Bool) (text : String) (db : Db) : Db :=
  { db with stmtInsertEvent := db.stmtInsertEvent.bind (fun r => { r with module := if ok then some text else none }) }

/-- `sqlite3_bind_blob(stmt_insert_event, 2, …)`; where it fails the parameter becomes NULL. -/
def Db.bindBlob (ok : Bool) (blob : Option (List UInt8)) (db : Db) : Db :=
  { db with stmtInsertEvent := db.stmtInsertEvent.bind (fun r => { r with data := if ok then blob else none }) }

/-- `sqlite3_reset(stmt_insert_event)`. -/
def Db.reset (db : Db) : Db := { db with stmtInsertEvent := db.stmtInsertEvent.reset }

/-- `sqlite3_step(stmt_insert_event)`, which returns `SQLITE_DONE` if `done`. -/
def Db.step (done : Bool) (db : Db) : Db := { db with stmtInsertEvent := db.stmtInsertEvent.step done }

/-- `db_insert_event`; the first three arguments are the results of its calls into the database. -/
def dbInsertEvent (text blob done : Bool) (c : Call) (db : Db) : Db × Int :=
  if !db.gDb then (db,-1) else
    let db := db.reset
    let db := db.bindText text c.text
    let db := db.bindBlob blob c.blob
    let db := db.step done
    if !done then (db,-1) else (db,0)

/-! ### Calls in several threads -/

/-- What a call does next, or the value that it returned. -/
inductive Pc where
  | enter
  | reset
  | bindText
  | bindBlob
  | step
  | returned (rc : Int)
  deriving DecidableEq

/-- The next step of a call; `ok` is the result of its call into the database. -/
def advance (c : Call) (ok : Bool) (db : Db) : Pc → Option (Db × Pc)
  | .enter => some (db,if !db.gDb then .returned (-1) else .reset)
  | .reset => some (db.reset,.bindText)
  | .bindText => some (db.bindText ok c.text,.bindBlob)
  | .bindBlob => some (db.bindBlob ok c.blob,.step)
  | .step => some (db.step ok,.returned (if !ok then -1 else 0))
  | .returned _ => none

/-- The database and all calls, wherever they are. -/
structure World where
  db : Db
  calls : List (Call × Pc)

/-- Calls that have not begun. -/
def World.initial (db : Db) (calls : List Call) : World := ⟨db,calls.map (fun c => (c,.enter))⟩

/-- The scheduler's choice: which call goes on, and the result of its call into the database. -/
structure Action where
  call : Nat
  ok : Bool

def step (s : World) (a : Action) : Option (World × Action) :=
  match s.calls[a.call]? with
  | none => none
  | some (c,pc) => (advance c a.ok s.db pc).map (fun (db,pc') => (⟨db,s.calls.set a.call (c,pc')⟩,a))

/-- The row that a call reports as stored. -/
@[simp] def stored? : Call × Pc → Option EventRow
  | (c,.returned rc) => if rc = 0 then some c.row else none
  | _ => none

/-- When all calls have returned, the table has gained one row for each call that returned 0, and no other row. -/
def Persisted (old : List EventRow) (s : World) : Prop :=
  (∀ c ∈ s.calls, ∃ rc, c.2 = .returned rc) →
    s.db.stmtInsertEvent.rows.Perm (old ++ s.calls.filterMap stored?)

/-- Between its reset and its step. -/
@[simp] def Inside : Call × Pc → Prop
  | (_,.bindText) | (_,.bindBlob) | (_,.step) => True
  | _ => False

instance : DecidablePred Inside
  | (_,.bindText) | (_,.bindBlob) | (_,.step) => .isTrue trivial
  | (_,.enter) | (_,.reset) | (_,.returned _) => .isFalse id

/-- Resetting only while no other call is between its reset and its step, and binding without failures. -/
def Allowed (s : World) (ok : Bool) : Pc → Prop
  | .reset => ∀ c ∈ s.calls, ¬ Inside c
  | .bindText | .bindBlob => ok = true
  | _ => True

instance (s : World) (ok : Bool) : DecidablePred (Allowed s ok)
  | .reset => inferInstanceAs (Decidable (∀ c ∈ s.calls, ¬ Inside c))
  | .bindText | .bindBlob => inferInstanceAs (Decidable (ok = true))
  | .enter | .step | .returned _ => .isTrue trivial

/-- A call resets the statement only when no other call is between its reset and its
    step, and binding a parameter does not fail. -/
def Serialised (s : World) (a : Action) : Prop := ∀ c ∈ s.calls[a.call]?, Allowed s a.ok c.2

instance (s : World) (a : Action) : Decidable (Serialised s a) :=
  inferInstanceAs (Decidable (∀ c ∈ s.calls[a.call]?, Allowed s a.ok c.2))

/-! ### A call by itself -/

private theorem exec_advance {s : World} {i : Nat} (inside : i < s.calls.length) {c : Call} {db db' : Db} {pc pc' : Pc}
    {ok : Bool} (moved : advance c ok db pc = some (db',pc')) (rest : List Action) :
    exec step free ⟨db,s.calls.set i (c,pc)⟩ (⟨i,ok⟩ :: rest) =
      (exec step free ⟨db',s.calls.set i (c,pc')⟩ rest).map (fun r => (r.1,⟨i,ok⟩ :: r.2)) := by
  simp [exec,free,step,inside,moved]

/-- The steps of a call during which no other call goes on amount to `db_insert_event`. -/
theorem insert_alone (s : World) {i : Nat} {c : Call} (entered : s.calls[i]? = some (c,.enter)) (text blob done : Bool) :
    ∃ actions, exec step free s actions =
      some (⟨(dbInsertEvent text blob done c s.db).1,
        s.calls.set i (c,.returned (dbInsertEvent text blob done c s.db).2)⟩,actions) := by
  obtain ⟨inside,same⟩ := List.getElem?_eq_some_iff.mp entered
  have start : s = ⟨s.db,s.calls.set i (c,.enter)⟩ := by rw [← same,List.set_getElem_self]
  cases opened : s.db.gDb with
  | false =>
    refine ⟨[⟨i,true⟩],?_⟩
    conv_lhs => rw [start]
    rw [exec_advance inside rfl]
    simp [exec,dbInsertEvent,opened]
  | true =>
    refine ⟨[⟨i,true⟩,⟨i,true⟩,⟨i,text⟩,⟨i,blob⟩,⟨i,done⟩],?_⟩
    conv_lhs => rw [start]
    have enters : advance c true s.db .enter = some (s.db,.reset) := by simp [advance,opened]
    rw [exec_advance inside enters,exec_advance inside rfl,
      exec_advance inside rfl,exec_advance inside rfl,exec_advance inside rfl]
    cases done <;> simp [exec,dbInsertEvent,opened]

/-! ### Serialised calls -/

/-- What the statement holds for a call between its reset and its step. -/
def Bound (db : Db) (c : Call) : Pc → Prop
  | .bindText => db.stmtInsertEvent.stepped = false
  | .bindBlob => db.stmtInsertEvent.stepped = false ∧ db.stmtInsertEvent.bindings.module = some c.text
  | .step => db.stmtInsertEvent.bindings = c.row
  | _ => True

/-- The table holds the stored rows, at most one call is between its reset and its
    step, and the statement holds what that call has bound. -/
structure Orderly (old : List EventRow) (s : World) : Prop where
  rows : s.db.stmtInsertEvent.rows.Perm (old ++ s.calls.filterMap stored?)
  alone : Alone Inside s.calls
  bound : ∀ c ∈ s.calls, Bound s.db c.1 c.2

theorem bound_of_outside (db : Db) {c : Call} {pc : Pc} (outside : ¬ Inside (c,pc)) : Bound db c pc := by
  cases pc with
  | bindText | bindBlob | step => exact absurd trivial outside
  | _ => trivial

theorem Bound.congr {db db' : Db} {c : Call} {pc : Pc} (bound : Bound db c pc)
    (same : db'.stmtInsertEvent = db.stmtInsertEvent) : Bound db' c pc := by
  cases pc with
  | bindText | bindBlob | step => simpa only [Bound,same] using bound
  | _ => trivial

/-- A step of one call keeps the order when the table gains the row that the call
    then reports, when it enters only an empty section, and when it leaves the
    statement alone unless no other call is inside. -/
theorem Orderly.set {old : List EventRow} {s : World} (inv : Orderly old s) {i : Nat} {c : Call} {pc pc' : Pc} {db' : Db}
    (found : s.calls[i]? = some (c,pc)) (running : stored? (c,pc) = none)
    (rows : db'.stmtInsertEvent.rows = s.db.stmtInsertEvent.rows ++ (stored? (c,pc')).toList)
    (enters : Inside (c,pc') → Inside (c,pc) ∨ ∀ d ∈ s.calls, ¬ Inside d) (bound : Bound db' c pc')
    (others : db'.stmtInsertEvent = s.db.stmtInsertEvent ∨ Inside (c,pc) ∨ ∀ d ∈ s.calls, ¬ Inside d) :
    Orderly old ⟨db',s.calls.set i (c,pc')⟩ := by
  refine ⟨?_,inv.alone.set found enters,?_⟩
  · have stored := filterMap_set_perm found stored? (c,pc')
    rw [running,Option.toList_none,List.nil_append] at stored
    rw [rows]
    refine (inv.rows.append_right _).trans ?_
    rw [List.append_assoc]
    exact (List.perm_append_comm.trans stored.symm).append_left old
  · intro d member
    obtain ⟨j,there⟩ := List.mem_iff_getElem?.mp member
    by_cases same : i = j
    · subst same
      rw [List.getElem?_set_self (List.getElem?_eq_some_iff.mp found).1] at there
      cases there
      exact bound
    · rw [List.getElem?_set_ne same] at there
      have before := List.mem_of_getElem? there
      rcases others with unchanged | within | nobody
      · exact (inv.bound d before).congr unchanged
      · exact bound_of_outside _ (fun inside => same (inv.alone i j _ _ found there within inside))
      · exact bound_of_outside _ (nobody d before)

theorem orderly_step {old : List EventRow} {s u : World} {a label : Action} (inv : Orderly old s)
    (allowed : Serialised s a) (moved : step s a = some (u,label)) : Orderly old u := by
  unfold step at moved
  split at moved
  · cases moved
  · rename_i c pc found
    obtain ⟨⟨db',pc'⟩,advanced,same⟩ := Option.map_eq_some_iff.mp moved
    cases same
    have condition := allowed _ found
    have bound := inv.bound _ (List.mem_of_getElem? found)
    cases pc with
    | enter =>
      cases advanced
      cases s.db.gDb with
      | false => exact inv.set found rfl (by simp) (by simp) trivial (.inl rfl)
      | true => exact inv.set found rfl (by simp) (by simp) trivial (.inl rfl)
    | reset =>
      cases advanced
      exact inv.set found rfl (by simp [Db.reset]) (fun _ => .inr condition) rfl (.inr (.inr condition))
    | bindText =>
      cases advanced
      have ready : s.db.stmtInsertEvent.stepped = false := bound
      have ok : a.ok = true := condition
      refine inv.set found rfl (by simp [Db.bindText]) (fun _ => .inl trivial) ⟨?_,?_⟩ (.inr (.inl trivial))
      · simpa [Db.bindText] using ready
      · simp [Db.bindText,bind_bindings ready,ok]
    | bindBlob =>
      cases advanced
      obtain ⟨ready,text⟩ := bound
      have ok : a.ok = true := condition
      refine inv.set found rfl (by simp [Db.bindBlob]) (fun _ => .inl trivial) ?_ (.inr (.inl trivial))
      simp [Bound,Db.bindBlob,bind_bindings ready,ok,Call.row,text]
    | step =>
      cases advanced
      have row : s.db.stmtInsertEvent.bindings = c.row := bound
      refine inv.set found rfl ?_ (by simp) trivial (.inr (.inl trivial))
      cases a.ok <;> simp [Db.step,row]
    | returned rc => cases advanced

theorem orderly {db : Db} {calls : List Call} {trace : List Action} {s : World}
    (run : Run step Serialised (World.initial db calls) trace s) : Orderly db.stmtInsertEvent.rows s := by
  refine run.invariant (I := fun _ s => Orderly db.stmtInsertEvent.rows s) ?_ ?_
  · have nobody : ∀ c ∈ (World.initial db calls).calls, stored? c = none ∧ ¬ Inside c := by
      intro c member
      obtain ⟨d,_,rfl⟩ := List.mem_map.mp member
      exact ⟨rfl,id⟩
    refine ⟨?_,?_,?_⟩
    · rw [List.filterMap_eq_nil_iff.mpr (fun c member => (nobody c member).1),List.append_nil]
      rfl
    · intro i j a b there _ inside _
      exact absurd inside (nobody a (List.mem_of_getElem? there)).2
    · exact fun c member => bound_of_outside _ (nobody c member).2
  · intro trace t a u label _ inv allowed moved
    exact orderly_step inv allowed moved

/-- In every run in which the calls are serialised, when all of them have returned the
    table has gained exactly the rows of the calls that returned 0. -/
theorem inserts_persisted {db : Db} {calls : List Call} {trace : List Action} {s : World}
    (run : Run step Serialised (World.initial db calls) trace s) : Persisted db.stmtInsertEvent.rows s :=
  fun _ => (orderly run).rows

/-- The events of two monitors. -/
def monitored : List Call := [⟨some [1],some "process_monitor"⟩,⟨some [2],some "network_monitor"⟩]

/-- An open database with an empty table. -/
def opened : Db := ⟨true,⟨⟨none,none⟩,false,[]⟩⟩

/-- Two calls one after the other; the second begins while the first is still running. -/
theorem inserts_persisted_in_turn : ∃ s : World, s.db.stmtInsertEvent.rows = monitored.map Call.row ∧
    s.calls.map Prod.snd = [.returned 0,.returned 0] ∧ Persisted [] s := by
  obtain ⟨trace,s,run,checked⟩ := exists_run_of_check step Serialised (World.initial opened monitored)
    (fun s _ => decide (s.db.stmtInsertEvent.rows = monitored.map Call.row ∧
      s.calls.map Prod.snd = [.returned 0,.returned 0]))
    ([⟨0,true⟩,⟨0,true⟩,⟨1,true⟩,⟨0,true⟩,⟨0,true⟩,⟨0,true⟩,⟨1,true⟩,⟨1,true⟩,⟨1,true⟩,⟨1,true⟩])
    (by decide)
  obtain ⟨rows,returned⟩ := of_decide_eq_true checked
  exact ⟨s,rows,returned,inserts_persisted run⟩

/-- The second call resets the statement and binds its own parameters before the first
    call steps: both calls return 0, and both rows are the second call's. -/
theorem inserts_mixed : ∃ (trace : List Action) (s : World), Run step free (World.initial opened monitored) trace s ∧
    (∀ a ∈ trace, a.ok = true) ∧ s.calls.map Prod.snd = [.returned 0,.returned 0] ∧
    s.db.stmtInsertEvent.rows = [⟨some "network_monitor",some [2]⟩,⟨some "network_monitor",some [2]⟩] ∧
    ¬ Persisted [] s := by
  obtain ⟨trace,s,run,checked⟩ := exists_run_of_check step free (World.initial opened monitored)
    (fun s trace => decide ((∀ a ∈ trace, a.ok = true) ∧
      s.calls = [(⟨some [1],some "process_monitor"⟩,.returned 0),(⟨some [2],some "network_monitor"⟩,.returned 0)] ∧
      s.db.stmtInsertEvent.rows = [⟨some "network_monitor",some [2]⟩,⟨some "network_monitor",some [2]⟩]))
    (List.replicate 4 ⟨0,true⟩ ++ List.replicate 4 ⟨1,true⟩ ++ [⟨0,true⟩,⟨1,true⟩])
    (by decide)
  obtain ⟨succeeded,calls,rows⟩ := of_decide_eq_true checked
  refine ⟨trace,s,run,succeeded,by rw [calls]; rfl,rows,?_⟩
  intro persisted
  have same := persisted (by rw [calls]; simp)
  rw [calls,rows] at same
  exact absurd (same.mem_iff (a := ⟨some "process_monitor",some [1]⟩)) (by decide)

end Nulleye.EventInserts
