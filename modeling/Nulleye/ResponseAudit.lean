import Nulleye.Decimals
import Nulleye.Responses

/-!
The audit record of a response. A call adds its row in full or no row at all, and its
return code says which. The strings are not escaped in the message, but an action and a
target without blanks end at the next blank, and the reason is all that is left.
-/
namespace Nulleye.ResponseAudit
open Nulleye.CStrings Nulleye.Decimals Nulleye.Responses

/-- The reason that is printed: NULL counts as the empty string. -/
def reasonText : Option Mem → Option Mem
  | some reason => cstr reason
  | none => some []

/-- `response_kill_process`; `%u` prints at most ten digits into the 64 bytes of `buf`. -/
def responseKillProcess (done : Bool) (pid : UInt32) (db : Db) : Option (Db × Int) :=
  (responseEnginePerform done (some (ascii "kill" ++ [0])) (some (decimal pid.toNat ++ [0])) (some (ascii "policy" ++ [0])) db).map
    fun (db,rc) => (db,if rc ≠ 0 then -1 else 0)

/-- `response_block_ip`. -/
def responseBlockIp (done : Bool) (ip : Option Mem) (db : Db) : Option (Db × Int) :=
  match ip with
  | none => some (db,-1)
  | some ip =>
    (responseEnginePerform done (some (ascii "block_ip" ++ [0])) (some ip) (some (ascii "policy" ++ [0])) db).map
      fun (db,rc) => (db,if rc ≠ 0 then -1 else 0)

/-! ### The row -/

variable {action target action' target' a t r a' t' r' : Mem} {reason reason' : Option Mem}

/-- A response is recorded exactly if its message fits, the database is open and the insert is done. -/
theorem perform_eq (done : Bool) (db : Db) (action_read : cstr action = some a) (target_read : cstr target = some t)
    (reason_read : reasonText reason = some r) :
    ∃ after,responseEnginePerform done (some action) (some target) reason db =
        some (after,if (responseMessage a t r).length < 512 ∧ db.gDb ∧ done then 0 else -1) ∧
      after.gDb = db.gDb ∧
      after.alerts = db.alerts ++ if (responseMessage a t r).length < 512 ∧ db.gDb ∧ done then [responseRow a t r] else [] := by
  have some_byte : (responseMessage a t r).length ≠ 0 := by simp [responseMessage,ascii]
  have read : responseEnginePerform done (some action) (some target) reason db =
      if (responseMessage a t r).length = 0 ∨ 512 ≤ (responseMessage a t r).length then some (db,-1) else
        some ((dbInsertAlert done (ascii "info") (ascii "response_engine") (responseMessage a t r) db).1,
          if (dbInsertAlert done (ascii "info") (ascii "response_engine") (responseMessage a t r) db).2 ≠ 0 then -1 else 0) := by
    cases reason with
    | none =>
      cases reason_read
      simp only [responseEnginePerform,action_read,target_read,Option.bind_eq_bind,Option.bind_some]
      rfl
    | some reason =>
      have string : cstr reason = some r := reason_read
      simp only [responseEnginePerform,action_read,target_read,string,Option.bind_eq_bind,Option.bind_some]
      rfl
  rw [read]
  by_cases fits : (responseMessage a t r).length < 512
  · obtain ⟨rows,opened,rc⟩ := dbInsertAlert_rows done (ascii "info") (ascii "response_engine") (responseMessage a t r) db
    rw [if_neg (by omega)]
    refine ⟨_,?_,opened,?_⟩
    · rw [rc]
      cases db.gDb <;> cases done <;> simp [fits]
    · rw [rows]
      cases db.gDb <;> cases done <;> simp [fits,responseRow]
  · rw [if_pos (.inr (by omega))]
    exact ⟨db,by simp [fits],rfl,by simp [fits]⟩

/-- A call that returns 0 has recorded its response. -/
theorem perform_recorded {done : Bool} {db after : Db} (action_read : cstr action = some a) (target_read : cstr target = some t)
    (reason_read : reasonText reason = some r)
    (performed : responseEnginePerform done (some action) (some target) reason db = some (after,0)) :
    after.alerts = db.alerts ++ [responseRow a t r] := by
  obtain ⟨after',performed',_,rows⟩ := perform_eq done db action_read target_read reason_read
  obtain ⟨rfl,returned⟩ := Prod.mk.inj (Option.some.inj (performed.symm.trans performed'))
  by_cases recorded : (responseMessage a t r).length < 512 ∧ db.gDb ∧ done
  · rw [rows,if_pos recorded]
  · rw [if_neg recorded] at returned
    cases returned

/-! ### The message -/

/-- The message determines what it was made of, whatever the reason holds. -/
theorem responseMessage_injective (a_word : 32 ∉ a) (t_word : 32 ∉ t) (a_word' : 32 ∉ a') (t_word' : 32 ∉ t')
    (same : responseMessage a t r = responseMessage a' t' r') : a = a' ∧ t = t' ∧ r = r' := by
  have target_blank : ascii " target=" = 32 :: ascii "target=" := rfl
  have reason_blank : ascii " reason=" = 32 :: ascii "reason=" := rfl
  simp only [responseMessage,target_blank,reason_blank,List.append_assoc,List.append_cancel_left_eq,List.cons_append] at same
  obtain ⟨rfl,later⟩ := separator_inj a_word a_word' same
  obtain ⟨rfl,last⟩ := separator_inj t_word t_word' (List.append_cancel_left later)
  exact ⟨rfl,rfl,List.append_cancel_left last⟩

/-- **The audit record is atomic and unambiguous.** -/
theorem response_audited :
    (∀ (done : Bool) (db : Db) (action target : Mem) (reason : Option Mem) (a t r : Mem),
      cstr action = some a → cstr target = some t → reasonText reason = some r →
      ∃ after rc,responseEnginePerform done (some action) (some target) reason db = some (after,rc) ∧
        ((rc = 0 ∧ after.alerts = db.alerts ++ [responseRow a t r]) ∨ (rc = -1 ∧ after.alerts = db.alerts)) ∧
        (rc = 0 ↔ (responseMessage a t r).length < 512 ∧ db.gDb ∧ done)) ∧
    ∀ (done done' : Bool) (db db' after after' : Db) (action target action' target' : Mem) (reason reason' : Option Mem)
      (a t r a' t' r' : Mem) (row row' : AlertRow),
      cstr action = some a → cstr target = some t → reasonText reason = some r →
      cstr action' = some a' → cstr target' = some t' → reasonText reason' = some r' →
      32 ∉ a → 32 ∉ t → 32 ∉ a' → 32 ∉ t' →
      responseEnginePerform done (some action) (some target) reason db = some (after,0) →
      responseEnginePerform done' (some action') (some target') reason' db' = some (after',0) →
      after.alerts = db.alerts ++ [row] → after'.alerts = db'.alerts ++ [row'] → row.message = row'.message →
      a = a' ∧ t = t' ∧ r = r' := by
  constructor
  · intro done db action target reason a t r action_read target_read reason_read
    obtain ⟨after,performed,_,rows⟩ := perform_eq done db action_read target_read reason_read
    refine ⟨after,_,performed,?_,?_⟩
    · by_cases recorded : (responseMessage a t r).length < 512 ∧ db.gDb ∧ done
      · exact .inl ⟨if_pos recorded,by rw [rows,if_pos recorded]⟩
      · exact .inr ⟨if_neg recorded,by rw [rows,if_neg recorded,List.append_nil]⟩
    · split <;> simp_all
  · intro done done' db db' after after' action target action' target' reason reason' a t r a' t' r' row row'
      action_read target_read reason_read action_read' target_read' reason_read' a_word t_word a_word' t_word'
      performed performed' added added' same
    have own := perform_recorded action_read target_read reason_read performed
    have own' := perform_recorded action_read' target_read' reason_read' performed'
    rw [added,List.append_right_inj,List.singleton_inj] at own
    rw [added',List.append_right_inj,List.singleton_inj] at own'
    rw [own,own',responseRow,responseRow,Option.some.injEq] at same
    exact responseMessage_injective a_word t_word a_word' t_word' same

/-- A reason that looks like a target, and the database refusing the insert. -/
theorem response_audited_twice :
    (∃ after rc,responseEnginePerform false (some (ascii "kill" ++ [0])) (some (ascii "4711" ++ [0])) (some (ascii "x target=y" ++ [0]))
        ⟨true,⟨⟨none,none,none⟩,true,[]⟩⟩ = some (after,rc) ∧
      ((rc = 0 ∧ after.alerts = [responseRow (ascii "kill") (ascii "4711") (ascii "x target=y")]) ∨ (rc = -1 ∧ after.alerts = [])) ∧
      (rc = 0 ↔ (responseMessage (ascii "kill") (ascii "4711") (ascii "x target=y")).length < 512 ∧ true ∧ false)) ∧
    ascii "kill" = ascii "kill" ∧ ascii "4711" = ascii "4711" ∧ ascii "" = [] := by
  have read : ∀ {line : Mem},0 ∉ line → cstr (line ++ [0]) = some line := fun plain => cstr_terminated plain []
  refine ⟨?_,?_⟩
  · exact response_audited.1 false ⟨true,⟨⟨none,none,none⟩,true,[]⟩⟩ _ _ (some (ascii "x target=y" ++ [0])) _ _ _
      (read (by decide)) (read (by decide)) (read (by decide))
  · exact response_audited.2 true true ⟨true,⟨⟨none,none,none⟩,true,[]⟩⟩ ⟨true,⟨⟨none,none,none⟩,true,[]⟩⟩ _ _
      (ascii "kill" ++ [0]) (ascii "4711" ++ [0]) (ascii "kill" ++ [0]) (ascii "4711" ++ [0]) (some [0]) none _ _ _ _ _ _
      (responseRow (ascii "kill") (ascii "4711") []) (responseRow (ascii "kill") (ascii "4711") [])
      (read (by decide)) (read (by decide)) rfl (read (by decide)) (read (by decide)) rfl
      (by decide) (by decide) (by decide) (by decide) rfl rfl rfl rfl rfl

end Nulleye.ResponseAudit
