import Nulleye.ResponseAudit

/-!
The responses of a whole run in the alerts table. Killing and blocking only leave records:
one row for each call that returned 0, in order, and a line in the log, which is left out
here. The rows tell which calls these were, also where an address has blanks of its own.
-/
namespace Nulleye.AuditTrails
open Nulleye.CStrings Nulleye.Decimals Nulleye.Responses Nulleye.ResponseAudit

/-- A call of a built-in action, an address as the string that it is. -/
inductive Call where
  | kill (pid : UInt32)
  | block (ip : { ip : Mem // 0 ∉ ip })

/-- The action and the target that are recorded. -/
def Call.words : Call → Mem × Mem
  | .kill pid => (ascii "kill",decimal pid.toNat)
  | .block ip => (ascii "block_ip",ip.val)

/-- The call, where `done` is whether the insert succeeds. -/
def Call.perform (done : Bool) (db : Db) : Call → Option (Db × Int)
  | .kill pid => responseKillProcess done pid db
  | .block ip => responseBlockIp done (some (ip.val ++ [0])) db

def Call.message (c : Call) : Mem := responseMessage c.words.1 c.words.2 (ascii "policy")

def Call.row (c : Call) : AlertRow := responseRow c.words.1 c.words.2 (ascii "policy")

/-- Whether a call is recorded. -/
def Call.recorded (opened done : Bool) (c : Call) : Bool := c.message.length < 512 && opened && done

/-- Some calls in turn, with their return codes. -/
def performAll : List (Call × Bool) → Db → Option (Db × List Int)
  | [],db => some (db,[])
  | (c,done) :: rest,db => do
    let (db,rc) ← c.perform done db
    let (db,rcs) ← performAll rest db
    return (db,rc :: rcs)

/-- The calls that are recorded. -/
def recordedCalls (opened : Bool) (calls : List (Call × Bool)) : List Call :=
  (calls.filter fun (c,done) => c.recorded opened done).map (·.1)

/-! ### One call -/

theorem decimal_plain (pid : UInt32) : 0 ∉ decimal pid.toNat := by
  intro zero
  rcases decimal_bytes _ 0 zero with digit | minus
  · cases digit
  · cases minus

theorem Call.words_plain (c : Call) : 0 ∉ c.words.1 ∧ 0 ∉ c.words.2 := by
  cases c with
  | kill pid => exact ⟨show 0 ∉ ascii "kill" by decide,decimal_plain pid⟩
  | block ip => exact ⟨show 0 ∉ ascii "block_ip" by decide,ip.property⟩

/-- Every action is performed by the response engine. -/
theorem Call.perform_eq (done : Bool) (db : Db) (c : Call) : c.perform done db =
    (responseEnginePerform done (some (c.words.1 ++ [0])) (some (c.words.2 ++ [0])) (some (ascii "policy" ++ [0])) db).map
      fun (db,rc) => (db,if rc ≠ 0 then -1 else 0) := by
  cases c <;> rfl

/-- A call adds its row and returns 0, or returns -1. -/
theorem Call.performed (done : Bool) (db : Db) (c : Call) : ∃ after,
    c.perform done db = some (after,if c.recorded db.gDb done then 0 else -1) ∧ after.gDb = db.gDb ∧
      after.alerts = db.alerts ++ if c.recorded db.gDb done then [c.row] else [] := by
  have policy : reasonText (some (ascii "policy" ++ [0])) = some (ascii "policy") := cstr_terminated (by decide) []
  obtain ⟨after,performed,kept,rows⟩ := ResponseAudit.perform_eq done db (cstr_terminated c.words_plain.1 [])
    (cstr_terminated c.words_plain.2 []) policy
  have same : ((responseMessage c.words.1 c.words.2 (ascii "policy")).length < 512 ∧ db.gDb ∧ done) ↔ c.recorded db.gDb done := by
    rw [Call.recorded,Bool.and_eq_true,Bool.and_eq_true,decide_eq_true_iff,and_assoc]
    rfl
  simp only [same] at performed rows
  refine ⟨after,?_,kept,rows⟩
  rw [c.perform_eq,performed,Option.map_some]
  cases c.recorded db.gDb done <;> rfl

/-! ### The rows of a run -/

/-- The target is what stands between the beginning and the end of the message, also if it has blanks. -/
theorem target_inj {a t t' : Mem} (same : responseMessage a t (ascii "policy") = responseMessage a t' (ascii "policy")) : t = t' := by
  simp only [responseMessage,List.append_assoc,List.append_cancel_left_eq] at same
  exact List.append_cancel_right same

theorem decimal_inj {pid pid' : UInt32} (same : decimal pid.toNat = decimal pid'.toNat) : pid = pid' := by
  have stops : ¬ StartsWithDigit [] := by
    rintro ⟨b,head,_⟩
    cases head
  have value := (numberOf_decimal pid.toNat stops).1
  have value' := (numberOf_decimal pid'.toNat stops).1
  rw [same,value'] at value
  exact UInt32.toNat_inj.mp (by exact_mod_cast value.symm)

/-- A row tells which call it records. -/
theorem row_injective : Function.Injective Call.row := by
  intro c c' same
  have message : c.message = c'.message := Option.some.inj (congrArg AlertRow.message same)
  cases c with
  | kill pid =>
    cases c' with
    | kill pid' => rw [decimal_inj (target_inj message)]
    | block ip' => exact absurd (congrArg (fun l => l[7]?) message) (by simp [Call.message,Call.words,responseMessage,ascii])
  | block ip =>
    cases c' with
    | kill pid' => exact absurd (congrArg (fun l => l[7]?) message) (by simp [Call.message,Call.words,responseMessage,ascii])
    | block ip' => rw [Subtype.ext (target_inj message)]

/-- **The audit trail of a run**: one row for each call that returned 0, in order, and the rows tell which calls these were. -/
theorem trail_recorded (calls : List (Call × Bool)) (db : Db) : ∃ after,
    performAll calls db = some (after,calls.map fun (c,done) => if c.recorded db.gDb done then 0 else -1) ∧
      after.alerts = db.alerts ++ (recordedCalls db.gDb calls).map Call.row ∧
      ∀ calls',(recordedCalls db.gDb calls).map Call.row = calls'.map Call.row → recordedCalls db.gDb calls = calls' := by
  have ran : ∃ after,performAll calls db = some (after,calls.map fun (c,done) => if c.recorded db.gDb done then 0 else -1) ∧
      after.alerts = db.alerts ++ (recordedCalls db.gDb calls).map Call.row := by
    induction calls generalizing db with
    | nil => exact ⟨db,rfl,by simp [recordedCalls]⟩
    | cons call calls ih =>
      obtain ⟨c,done⟩ := call
      obtain ⟨first,performed,kept,rows⟩ := c.performed done db
      obtain ⟨after,later,more⟩ := ih first
      rw [kept] at later more
      refine ⟨after,by simp [performAll,performed,later],?_⟩
      rw [more,rows]
      cases recorded : c.recorded db.gDb done <;> simp [recordedCalls,recorded]
  obtain ⟨after,performed,rows⟩ := ran
  exact ⟨after,performed,rows,fun calls' same => List.map_injective_iff.mpr row_injective same⟩

end Nulleye.AuditTrails
