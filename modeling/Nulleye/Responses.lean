import Nulleye.CStrings
import Nulleye.Statements

/-!
Recording alerts and performing responses. A response is recorded as one row of the
alerts table, or not at all when its message does not fit or the insert fails.
-/
namespace Nulleye.Responses
open Nulleye.CStrings Nulleye.Statements

/-- The bound parameters of `stmt_insert_alert`, and so a row of the table without its
    `id`, `ts` and `acknowledged`. NULL is `none`. -/
structure AlertRow where
  severity : Option Mem
  module : Option Mem
  message : Option Mem
  deriving DecidableEq

/-- The database as `db_insert_alert` uses it: whether `g_db` is set, and the statement with its table. -/
structure Db where
  gDb : Bool
  stmtInsertAlert : Insert AlertRow

/-- `db_insert_alert`; `done` is whether the step returns `SQLITE_DONE`. -/
def dbInsertAlert (done : Bool) (severity module msg : Mem) (db : Db) : Db × Int :=
  if !db.gDb then (db,-1) else
    let stmt := db.stmtInsertAlert.reset
    let stmt := stmt.bind fun r => { r with severity := some severity }
    let stmt := stmt.bind fun r => { r with module := some module }
    let stmt := stmt.bind fun r => { r with message := some msg }
    let stmt := stmt.step done
    ({ db with stmtInsertAlert := stmt },if !done then -1 else 0)

/-- What `snprintf` prints for `"action=%s target=%s reason=%s"`. -/
def responseMessage (action target reason : Mem) : Mem :=
  ascii "action=" ++ action ++ ascii " target=" ++ target ++ ascii " reason=" ++ reason

/-- `response_engine_perform`; `none` is a string that leaves its block, and NULL is the inner `none`. -/
def responseEnginePerform (done : Bool) (action target reason : Option Mem) (db : Db) : Option (Db × Int) :=
  match action,target with
  | some action,some target => do
    let reason ← match reason with
      | some reason => cstr reason
      | none => some []
    let buf := responseMessage (← cstr action) (← cstr target) reason
    if buf.length = 0 ∨ 512 ≤ buf.length then return (db,-1)
    let (db,rc) := dbInsertAlert done (ascii "info") (ascii "response_engine") buf db
    return (db,if rc ≠ 0 then -1 else 0)
  | _,_ => some (db,-1)

/-- The rows of the alerts table. -/
def Db.alerts (db : Db) : List AlertRow := db.stmtInsertAlert.rows

/-- A call inserts exactly its own row, if it inserts. -/
theorem dbInsertAlert_rows (done : Bool) (severity module msg : Mem) (db : Db) :
    (dbInsertAlert done severity module msg db).1.alerts =
        db.alerts ++ (if db.gDb && done then [⟨some severity,some module,some msg⟩] else []) ∧
      (dbInsertAlert done severity module msg db).1.gDb = db.gDb ∧
      (dbInsertAlert done severity module msg db).2 = if db.gDb && done then 0 else -1 := by
  unfold dbInsertAlert Db.alerts
  cases opened : db.gDb with
  | false => simp [opened]
  | true => cases done <;> simp [Insert.bind,Insert.reset,Insert.step]

/-- The row that records a response. -/
def responseRow (action target reason : Mem) : AlertRow :=
  ⟨some (ascii "info"),some (ascii "response_engine"),some (responseMessage action target reason)⟩

/-- A response whose message fits is recorded exactly if its insert succeeds. -/
theorem responseEnginePerform_rows {action target reason : Mem} {actionText targetText reasonText : Mem} (done : Bool)
    (db : Db) (action_read : cstr action = some actionText) (target_read : cstr target = some targetText)
    (reason_read : cstr reason = some reasonText) (fits : (responseMessage actionText targetText reasonText).length < 512) :
    ∃ after,responseEnginePerform done (some action) (some target) (some reason) db =
        some (after,if db.gDb && done then 0 else -1) ∧ after.gDb = db.gDb ∧
      after.alerts =
        db.alerts ++ if db.gDb && done then [responseRow actionText targetText reasonText] else [] := by
  have some_byte : (responseMessage actionText targetText reasonText).length ≠ 0 := by simp [responseMessage,ascii]
  obtain ⟨rows,opened,rc⟩ :=
    dbInsertAlert_rows done (ascii "info") (ascii "response_engine") (responseMessage actionText targetText reasonText) db
  refine ⟨_,?_,opened,rows⟩
  simp only [responseEnginePerform,action_read,target_read,reason_read,Option.bind_eq_bind,Option.bind_some,rc]
  rw [if_neg (by omega)]
  cases db.gDb <;> cases done <;> rfl

end Nulleye.Responses
