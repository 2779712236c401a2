import Nulleye.RuleEvaluation

/-!
Firing the rules of a store against a terminated payload. Each rule whose condition
evaluates to true is answered once, in the order of the store; a failed insert is not
noticed by the loop, and the message of a response always fits. The rules are counted in
an `int`, so their number is returned as long as fewer than `2 ^ 31` of them fire.
-/
namespace Nulleye.RuleFiring
open Nulleye.CStrings Nulleye.RuleFiles Nulleye.Responses Nulleye.RuleEvaluation Nulleye.Words

/-- The condition and the action of every rule are terminated within their buffers. -/
def Terminated (store : Store) : Prop :=
  store.count ≤ store.rules.length ∧
    ∀ entry ∈ store.rules.take store.count,0 ∈ entry.condition.toList ∧ 0 ∈ entry.action.toList

/-- The condition of a rule, as a string, evaluates to true. -/
def fires (s : Mem) (len : Nat) (entry : RuleEntry) : Bool :=
  evaluateConditionSimple (some (text entry.condition.toList ++ [0])) (some s) len = some true

/-- The rules that fire, by their place in the store. -/
def firing (store : Store) (s : Mem) (len : Nat) : List Nat :=
  (List.range store.count).filter fun i => (store.rules[i]?).any (fires s len)

/-- The row that records the response of rule `i`. -/
def firedRow (store : Store) (i : Nat) : Option AlertRow :=
  (store.rules[i]?).map fun entry => responseRow (text entry.action.toList) (ascii "auto") (ascii "rule match")

/-- The rules that fire are answered once each in the order of the store, their number is returned, and
    the alerts table grows by the rows of those whose insert succeeds, in the same order. -/
def Answered (done : Nat → Bool) (store : Store) (payload : Mem) (len : Nat) (db : Db) : Prop :=
  ∃ after triggers,rulesEvaluateAndAct done store (some payload) len db = some (after,triggers,firing store payload len) ∧
    triggers.toInt = (firing store payload len).length ∧
    after.alerts = db.alerts ++ ((firing store payload len).filter fun i => db.gDb && done i).filterMap (firedRow store)

/-! ### One rule -/

theorem conditionAt_eq {store : Store} {i : Nat} (inside : i < store.rules.length) :
    conditionAt store i =
      store.rules[i].condition.toList ++ (store.rules[i].action.toList ++ conditionAt store (i + 1)) := by
  rw [conditionAt,List.drop_eq_getElem_cons inside,List.flatMap_cons,List.append_assoc,conditionAt]

theorem actionAt_eq {store : Store} {i : Nat} (inside : i < store.rules.length) :
    actionAt store i = store.rules[i].action.toList ++ conditionAt store (i + 1) := by
  rw [actionAt,conditionAt_eq inside,List.drop_left' (by simp)]

theorem condition_evaluates {store : Store} {i : Nat} (inside : i < store.rules.length)
    (terminated : 0 ∈ store.rules[i].condition.toList) {s : Mem} {len : Nat} (ended : 0 ∈ s) (fits : len ≤ s.length) :
    evaluateConditionSimple (some (conditionAt store i)) (some s) len = some (fires s len store.rules[i]) := by
  obtain ⟨rest,split⟩ := text_split terminated
  have plain := zero_not_mem_text store.rules[i].condition.toList
  obtain ⟨r,evaluated⟩ := evaluate_ended plain [] ended fits
  rw [conditionAt_eq inside,split,List.append_assoc,List.cons_append,evaluate_string plain _ fits,evaluated,fires,
    evaluated]
  cases r <;> rfl

theorem action_read {store : Store} {i : Nat} (inside : i < store.rules.length)
    (terminated : 0 ∈ store.rules[i].action.toList) :
    cstr (actionAt store i) = some (text store.rules[i].action.toList) := by
  obtain ⟨rest,split⟩ := text_split terminated
  rw [actionAt_eq inside,split,List.append_assoc,List.cons_append,
    cstr_terminated (zero_not_mem_text _),text_terminated (zero_not_mem_text _)]

/-- An action of at most 127 bytes leaves its message far below the 512 bytes of the buffer. -/
theorem message_fits {action : Vector UInt8 128} (terminated : 0 ∈ action.toList) :
    (responseMessage (text action.toList) (ascii "auto") (ascii "rule match")).length < 512 := by
  obtain ⟨rest,split⟩ := text_split terminated
  have short : (text action.toList).length + (rest.length + 1) = 128 := by
    rw [← List.length_cons,← List.length_append,← split]
    simp
  simp only [responseMessage,List.length_append,
    show (ascii "action=").length = 7 by decide,show (ascii " target=").length = 8 by decide,
    show (ascii "auto").length = 4 by decide,show (ascii " reason=").length = 8 by decide,
    show (ascii "rule match").length = 10 by decide]
  omega

/-- A response to a rule is recorded exactly if its insert succeeds. -/
theorem response_recorded {store : Store} {i : Nat} (inside : i < store.rules.length)
    (terminated : 0 ∈ store.rules[i].action.toList) (done : Nat → Bool) (db : Db) :
    ∃ after rc,responseEnginePerform (done i) (some (actionAt store i)) (some (ascii "auto" ++ [0]))
        (some (ascii "rule match" ++ [0])) db = some (after,rc) ∧ after.gDb = db.gDb ∧
      after.alerts = db.alerts ++ ([i].filter fun i => db.gDb && done i).filterMap (firedRow store) := by
  obtain ⟨after,performed,opened,rows⟩ := responseEnginePerform_rows (done i) db (action_read inside terminated)
    (cstr_terminated (by decide : 0 ∉ ascii "auto") []) (cstr_terminated (by decide : 0 ∉ ascii "rule match") [])
    (message_fits terminated)
  refine ⟨after,_,performed,opened,?_⟩
  rw [rows]
  cases recorded : db.gDb && done i <;> simp [recorded,firedRow,List.getElem?_eq_getElem inside]

/-! ### The store -/

/-- A rule that does not fire is passed over. -/
theorem loop_quiet {store : Store} {s : Mem} {len i : Nat} (inside : i < store.rules.length)
    (terminated : 0 ∈ store.rules[i].condition.toList) (ended : 0 ∈ s) (fits : len ≤ s.length)
    (quiet : fires s len store.rules[i] = false) (done : Nat → Bool) (n : Nat) (db : Db) (triggers : Int32) (attempts : List Nat) :
    rulesLoopAct done store (some s) len (n + 1) i db triggers attempts =
      rulesLoopAct done store (some s) len n (i + 1) db triggers attempts := by
  rw [rulesLoopAct,condition_evaluates inside terminated ended fits,quiet]
  rfl

/-- A rule that fires is answered, and counted if it can be. -/
theorem loop_answered {store : Store} {s : Mem} {len i : Nat} (inside : i < store.rules.length)
    (terminated : 0 ∈ store.rules[i].condition.toList) (ended : 0 ∈ s) (fits : len ≤ s.length)
    (fired : fires s len store.rules[i] = true) {done : Nat → Bool} {db recorded : Db} {rc : Int}
    (performed : responseEnginePerform (done i) (some (actionAt store i)) (some (ascii "auto" ++ [0]))
      (some (ascii "rule match" ++ [0])) db = some (recorded,rc)) (n : Nat) (triggers : Int32) (attempts : List Nat) :
    rulesLoopAct done store (some s) len (n + 1) i db triggers attempts =
      (int (triggers.toInt + 1)).bind fun triggers =>
        rulesLoopAct done store (some s) len n (i + 1) recorded triggers (attempts ++ [i]) := by
  rw [rulesLoopAct,condition_evaluates inside terminated ended fits,fired]
  simp only [Option.bind_eq_bind,Option.bind_some,if_true,performed]

/-- From rule `i` on the loop answers the rules that fire, in order, and nothing else, unless they are too
    many to be counted. -/
theorem loop_fires {store : Store} {s : Mem} {len : Nat} (ended : 0 ∈ s) (fits : len ≤ s.length) (done : Nat → Bool)
    (n i : Nat) (inside : i + n ≤ store.rules.length)
    (terminated : ∀ entry ∈ store.rules.take (i + n),0 ∈ entry.condition.toList ∧ 0 ∈ entry.action.toList)
    (db : Db) {triggers : Int32} {t : Nat} (counted : triggers.toInt = t) (attempts : List Nat) :
    ∃ added,added = ((List.range' i n).filter fun i => (store.rules[i]?).any (fires s len)) ∧
      if t + added.length < 2 ^ 31 then
        ∃ after r,rulesLoopAct done store (some s) len n i db triggers attempts = some (after,r,attempts ++ added) ∧
          r.toInt = (t + added.length : Nat) ∧ after.gDb = db.gDb ∧
          after.alerts = db.alerts ++ (added.filter fun i => db.gDb && done i).filterMap (firedRow store)
      else rulesLoopAct done store (some s) len n i db triggers attempts = none := by
  induction n generalizing i db triggers t attempts with
  | zero =>
    have small := triggers.toInt_lt
    refine ⟨[],rfl,?_⟩
    rw [List.length_nil,if_pos (by omega)]
    exact ⟨db,triggers,by simp [rulesLoopAct],by simpa using counted,rfl,by simp⟩
  | succ n ih =>
    have here : i < store.rules.length := by omega
    obtain ⟨condition_ended,action_ended⟩ := terminated store.rules[i]
      (List.mem_take_iff_getElem.mpr ⟨i,by omega,rfl⟩)
    have later : i + 1 + n = i + (n + 1) := by omega
    cases fired : fires s len store.rules[i] with
    | true =>
      obtain ⟨recorded,rc,performed,opened,rows⟩ := response_recorded here action_ended done db
      have head : ((List.range' i (n + 1)).filter fun i => (store.rules[i]?).any (fires s len)) =
          i :: (List.range' (i + 1) n).filter fun i => (store.rules[i]?).any (fires s len) := by
        rw [List.range'_succ,List.filter_cons_of_pos (by simp [List.getElem?_eq_getElem here,fired])]
      rw [loop_answered here condition_ended ended fits fired performed,counted,head]
      refine ⟨_,rfl,?_⟩
      by_cases room : t + 1 < 2 ^ 31
      · obtain ⟨next,value⟩ := int_eq (n := (t : Int) + 1) (by omega) (by omega)
        obtain ⟨added,members,rest⟩ := ih (i + 1) (by omega) (later ▸ terminated) recorded
          (value.trans (Int.natCast_succ t).symm) (attempts ++ [i])
        have total : t + (i :: added).length = t + 1 + added.length := by rw [List.length_cons]; omega
        rw [← members,next,Option.bind_some,total]
        by_cases few : t + 1 + added.length < 2 ^ 31
        · rw [if_pos few] at rest ⊢
          obtain ⟨after,r,ran,number,kept,appended⟩ := rest
          refine ⟨after,r,by rw [ran,List.append_assoc,List.singleton_append],number,kept.trans opened,?_⟩
          rw [appended,rows,opened,List.append_assoc,← List.filterMap_append,← List.filter_append,List.singleton_append]
        · rw [if_neg few] at rest ⊢
          exact rest
      · rw [int_eq_none (by omega),if_neg (by rw [List.length_cons]; omega),Option.bind_none]
    | false =>
      obtain ⟨added,members,rest⟩ := ih (i + 1) (by omega) (later ▸ terminated) db counted attempts
      rw [loop_quiet here condition_ended ended fits fired]
      refine ⟨added,?_,rest⟩
      rw [List.range'_succ,List.filter_cons_of_neg (by simp [List.getElem?_eq_getElem here,fired]),members]

/-- A store is answered as long as the rules that fire can be counted. -/
theorem evaluate_fires {store : Store} (terminated : Terminated store) {payload : Mem} (ended : 0 ∈ payload) {len : Nat}
    (fits : len ≤ payload.length) (done : Nat → Bool) (db : Db) :
    if (firing store payload len).length < 2 ^ 31 then
      ∃ after r,rulesEvaluateAndAct done store (some payload) len db = some (after,r,firing store payload len) ∧
        r.toInt = (firing store payload len).length ∧ after.gDb = db.gDb ∧
        after.alerts = db.alerts ++ ((firing store payload len).filter fun i => db.gDb && done i).filterMap (firedRow store)
    else rulesEvaluateAndAct done store (some payload) len db = none := by
  obtain ⟨inside,ends⟩ := terminated
  unfold rulesEvaluateAndAct
  by_cases missing : store.rules = []
  · have none_left : store.count = 0 := by simpa [missing] using inside
    have nothing : firing store payload len = [] := by simp [firing,none_left]
    rw [nothing,if_pos (by decide),if_pos missing]
    exact ⟨db,0,rfl,rfl,rfl,by simp⟩
  · obtain ⟨added,members,ran⟩ := @loop_fires store payload len ended fits done store.count 0
      (by omega) (by simpa using ends) db 0 0 rfl []
    rw [← List.range_eq_range'] at members
    have same : firing store payload len = added := members.symm
    rw [if_neg missing,same]
    simpa using ran

/-- Nothing is answered as it should be where the behaviour is undefined. -/
theorem not_answered {done : Nat → Bool} {store : Store} {payload : Mem} {len : Nat} {db : Db}
    (undefined : rulesEvaluateAndAct done store (some payload) len db = none) : ¬ Answered done store payload len db := by
  rintro ⟨after,triggers,answered,_⟩
  rw [undefined] at answered
  cases answered

/-- Whatever inserts fail, a store is answered as it should be exactly if fewer than `2 ^ 31` of its rules fire. -/
theorem rules_fire {store : Store} (terminated : Terminated store) {payload : Mem} (ended : 0 ∈ payload) {len : Nat}
    (fits : len ≤ payload.length) (done : Nat → Bool) (db : Db) :
    Answered done store payload len db ↔ (firing store payload len).length < 2 ^ 31 := by
  have ran := evaluate_fires terminated ended fits done db
  constructor
  · intro answered
    by_contra many
    rw [if_neg many] at ran
    exact not_answered ran answered
  · intro few
    rw [if_pos few] at ran
    obtain ⟨after,r,answered,number,_,rows⟩ := ran
    exact ⟨after,r,answered,number,rows⟩

/-- A buffer that holds a short string. -/
private def buffer (n : Nat) (line : Mem) : Vector UInt8 n := overwrite (.replicate n 0) (padded n line)

private theorem buffer_toList (n : Nat) (line : Mem) : (buffer n line).toList = padded n line :=
  overwrite_whole _ (padded_length n line)

private theorem buffer_ended {n : Nat} {line : Mem} (fits : line.length < n) : 0 ∈ (buffer n line).toList := by
  rw [buffer_toList,padded]
  exact List.mem_append_right _ (List.mem_replicate.mpr ⟨by omega,rfl⟩)

private theorem buffer_text {n : Nat} {line : Mem} (plain : 0 ∉ line) (fits : line.length < n) :
    text (buffer n line).toList = line := by
  rw [buffer_toList,text_padded plain,List.take_of_length_le (by omega)]

private def twoRules : Store :=
  ⟨[⟨buffer 256 (ascii "comm==sh"),buffer 128 (ascii "a")⟩,⟨buffer 256 (ascii "contains('x')"),buffer 128 (ascii "b")⟩],2⟩

private theorem twoRules_terminated : Terminated twoRules := by
  refine ⟨by decide,?_⟩
  intro entry member
  rcases List.mem_cons.mp member with rfl | member
  · exact ⟨buffer_ended (by decide),buffer_ended (by decide)⟩
  · rw [List.mem_singleton.mp member]
    exact ⟨buffer_ended (by decide),buffer_ended (by decide)⟩

private theorem twoRules_firing : firing twoRules (ascii "x" ++ [0]) 1 = [1] := by
  have first : fires (ascii "x" ++ [0]) 1 ⟨buffer 256 (ascii "comm==sh"),buffer 128 (ascii "a")⟩ = false := by
    rw [fires,buffer_text (by decide) (by decide)]
    decide
  have second : fires (ascii "x" ++ [0]) 1 ⟨buffer 256 (ascii "contains('x')"),buffer 128 (ascii "b")⟩ = true := by
    rw [fires,buffer_text (by decide) (by decide)]
    decide
  simp [firing,twoRules,List.range_succ,first,second]

/-- Of two rules the second fires, and its action is recorded. -/
theorem rules_fire_second :
    ∃ after triggers,rulesEvaluateAndAct (fun _ => true) twoRules (some (ascii "x" ++ [0])) 1
        ⟨true,⟨⟨none,none,none⟩,true,[]⟩⟩ = some (after,triggers,[1]) ∧ triggers.toInt = 1 ∧
      after.alerts = [responseRow (ascii "b") (ascii "auto") (ascii "rule match")] := by
  obtain ⟨after,triggers,ran,number,rows⟩ := (rules_fire twoRules_terminated (by decide : 0 ∈ ascii "x" ++ [0])
    (by decide : 1 ≤ 2) (fun _ => true) ⟨true,⟨⟨none,none,none⟩,true,[]⟩⟩).mpr (by rw [twoRules_firing]; decide)
  rw [twoRules_firing] at ran number rows
  refine ⟨after,triggers,ran,number,rows.trans ?_⟩
  have action : text (buffer 128 (ascii "b")).toList = ascii "b" := buffer_text (by decide) (by decide)
  simp [Db.alerts,firedRow,twoRules,action]

/-- `n` times the rule `if contains('x') then b`. -/
private def copies (n : Nat) : Store :=
  ⟨List.replicate n ⟨buffer 256 (ascii "contains('x')"),buffer 128 (ascii "b")⟩,n⟩

private theorem copies_terminated (n : Nat) : Terminated (copies n) := by
  refine ⟨by rw [copies,List.length_replicate],?_⟩
  intro entry member
  rw [List.eq_of_mem_replicate (List.mem_of_mem_take member)]
  exact ⟨buffer_ended (by decide),buffer_ended (by decide)⟩

private theorem copies_firing (n : Nat) : firing (copies n) (ascii "x" ++ [0]) 1 = List.range n := by
  have fired : fires (ascii "x" ++ [0]) 1 ⟨buffer 256 (ascii "contains('x')"),buffer 128 (ascii "b")⟩ = true := by
    rw [fires,buffer_text (by decide) (by decide)]
    decide
  rw [firing,copies,List.filter_eq_self]
  intro i member
  rw [List.getElem?_replicate,if_pos (List.mem_range.mp member),Option.any_some,fired]

private theorem copies_count (n : Nat) : (firing (copies n) (ascii "x" ++ [0]) 1).length = n := by
  rw [copies_firing,List.length_range]

private theorem copies_overflow {n : Nat} (many : 2 ^ 31 ≤ n) (db : Db) :
    rulesEvaluateAndAct (fun _ => true) (copies n) (some (ascii "x" ++ [0])) 1 db = none := by
  have ran := evaluate_fires (copies_terminated n) (by decide : 0 ∈ ascii "x" ++ [0]) (by decide : 1 ≤ 2) (fun _ => true) db
  rwa [copies_count,if_neg (Nat.not_lt.mpr many)] at ran

/-- `2 ^ 31` rules fire, and the count overflows. -/
theorem rules_overflow : ∃ store,Terminated store ∧ (firing store (ascii "x" ++ [0]) 1).length = 2 ^ 31 ∧
    (∀ db,rulesEvaluateAndAct (fun _ => true) store (some (ascii "x" ++ [0])) 1 db = none) ∧
    ∀ db,¬ Answered (fun _ => true) store (ascii "x" ++ [0]) 1 db :=
  ⟨copies (2 ^ 31),copies_terminated _,copies_count _,copies_overflow le_rfl,fun db => not_answered (copies_overflow le_rfl db)⟩

end Nulleye.RuleFiring
