import Nulleye.Responses
import Nulleye.RuleStores
import Nulleye.Words

/-!
Evaluating the conditions of the rules against a payload. `contains(` is searched with
a length, but `score=` and the name of `comm==` are searched, and the score is read, as
in a terminated string. A payload need not hold a terminator, so the result may depend
on the memory behind it: it does not exactly if each of these is decided by the bytes of
the payload.
-/
namespace Nulleye.RuleEvaluation
open Nulleye.CStrings Nulleye.RuleFiles Nulleye.RuleStores Nulleye.Responses Nulleye.Words

/-- `strchr(cpos, '\'')`, and `strchr(cpos, '"')` if that finds nothing. -/
def openQuote (cpos : Mem) : Option (Option Nat) := do
  match ← strchr 39 cpos with
  | some j => return some j
  | none => strchr 34 cpos

/-- The text between the quotes behind `contains(`. -/
def quoted (cond : Mem) : Option (Option Mem) := do
  match ← strstr (ascii "contains(") cond with
  | none => return none
  | some i =>
    let cpos := cond.drop i
    match ← openQuote cpos with
    | none => return none
    | some j =>
      let quote ← (cpos.drop j).head?
      let start := cpos.drop (j + 1)
      match ← strchr quote start with
      | none => return none
      | some slen => return some (start.take slen)

/-- The first check: whether it returns 1. `s` is the payload if there is one. -/
def checkContains (cond : Mem) (s : Option Mem) (len : Nat) : Option Bool := do
  match ← quoted cond,s with
  | some start,some s => memmem start len s
  | _,_ => return false

/-- The second check: what it returns, if it returns. -/
def checkScore (cond : Mem) (s : Option Mem) : Option (Option Bool) := do
  match ← strstr (ascii "anomaly_score>") cond,s with
  | some i,some s =>
    let threshold ← atoi (cond.drop (i + 14))
    match ← strstr (ascii "score=") s with
    | none => return none
    | some p =>
      let score ← atoi (s.drop (p + 6))
      return some (decide (threshold < score))
  | _,_ => return none

/-- The third check. -/
def checkComm (cond : Mem) (s : Option Mem) : Option Bool := do
  match ← strstr (ascii "comm==") cond,s with
  | some i,some s =>
    let val := cond.drop (i + 6)
    let first ← val.head?
    let val := if first = 39 ∨ first = 34 then val.tail else val
    return (← strstr (← cstr val) s).isSome
  | _,_ => return false

/-- `evaluate_condition_simple`; NULL is `none`, and `true` stands for the result 1. -/
def evaluateConditionSimple (cond blob : Option Mem) (len : Nat) : Option Bool :=
  match cond with
  | none => some false
  | some cond => do
    let s := if 0 < len then blob else none
    if ← checkContains cond s len then return true
    match ← checkScore cond s with
    | some r => return r
    | none => checkComm cond s

/-- What a pointer to the condition of rule `i` points to: the rest of the block. -/
def conditionAt (store : Store) (i : Nat) : Mem :=
  (store.rules.drop i).flatMap fun rule => rule.condition.toList ++ rule.action.toList

/-- What a pointer to the action of rule `i` points to. -/
def actionAt (store : Store) (i : Nat) : Mem := (conditionAt store i).drop 256

/-- The loop over the rules from rule `i` on, `n` of them: the database, `triggers`, and the
    rules for which `response_engine_perform` was called, in turn. `done i` is whether an
    insert for rule `i` succeeds. `triggers` is an `int`, and its overflow is undefined. -/
def rulesLoopAct (done : Nat → Bool) (store : Store) (blob : Option Mem) (len : Nat) :
    Nat → Nat → Db → Int32 → List Nat → Option (Db × Int32 × List Nat)
  | 0,_,db,triggers,attempts => some (db,triggers,attempts)
  | n + 1,i,db,triggers,attempts => do
    if ← evaluateConditionSimple (some (conditionAt store i)) blob len then
      let (db,_) ← responseEnginePerform (done i) (some (actionAt store i)) (some (ascii "auto" ++ [0]))
        (some (ascii "rule match" ++ [0])) db
      let triggers ← int (triggers.toInt + 1)
      rulesLoopAct done store blob len n (i + 1) db triggers (attempts ++ [i])
    else rulesLoopAct done store blob len n (i + 1) db triggers attempts

/-- `rules_evaluate_and_act`. -/
def rulesEvaluateAndAct (done : Nat → Bool) (store : Store) (blob : Option Mem) (len : Nat) (db : Db) :
    Option (Db × Int32 × List Nat) :=
  if store.rules = [] then some (db,0,[]) else rulesLoopAct done store blob len store.count 0 db 0 []

/-! ### Longer memory -/

theorem checkContains_append {cond s : Mem} {len : Nat} {r : Bool} (more : Mem)
    (read : checkContains cond (some s) len = some r) : checkContains cond (some (s ++ more)) len = some r := by
  unfold checkContains at read ⊢
  obtain ⟨start,found,read⟩ := Option.bind_eq_some_iff.mp read
  rw [found]
  cases start with
  | none => exact read
  | some start => exact memmem_append more read

theorem checkScore_append {cond s : Mem} {r : Option Bool} (more : Mem) (read : checkScore cond (some s) = some r) :
    checkScore cond (some (s ++ more)) = some r := by
  unfold checkScore at read ⊢
  obtain ⟨op,found,read⟩ := Option.bind_eq_some_iff.mp read
  rw [found]
  cases op with
  | none => exact read
  | some i =>
    obtain ⟨threshold,number,read⟩ := Option.bind_eq_some_iff.mp read
    obtain ⟨p,searched,read⟩ := Option.bind_eq_some_iff.mp read
    simp only [Option.bind_eq_bind,Option.bind_some,number,strstr_append more searched]
    cases p with
    | none => exact read
    | some p =>
      obtain ⟨score,scored,read⟩ := Option.bind_eq_some_iff.mp read
      have inside : p + 6 ≤ s.length := by
        by_contra outside
        rw [List.drop_of_length_le (by omega)] at scored
        cases scored
      dsimp only
      rw [List.drop_append_of_le_length inside,atoi_append more scored]
      exact read

theorem checkComm_append {cond s : Mem} {r : Bool} (more : Mem) (read : checkComm cond (some s) = some r) :
    checkComm cond (some (s ++ more)) = some r := by
  unfold checkComm at read ⊢
  obtain ⟨op,found,read⟩ := Option.bind_eq_some_iff.mp read
  rw [found]
  cases op with
  | none => exact read
  | some i =>
    obtain ⟨first,opened,read⟩ := Option.bind_eq_some_iff.mp read
    obtain ⟨name,named,read⟩ := Option.bind_eq_some_iff.mp read
    obtain ⟨place,searched,read⟩ := Option.bind_eq_some_iff.mp read
    simp only [Option.bind_eq_bind,Option.bind_some,opened,named,strstr_append more searched]
    exact read

/-- A result that the bytes of a block decide is the result on every longer block. -/
theorem evaluate_append {cond s : Mem} {len : Nat} {r : Bool} (more : Mem)
    (read : evaluateConditionSimple (some cond) (some s) len = some r) :
    evaluateConditionSimple (some cond) (some (s ++ more)) len = some r := by
  unfold evaluateConditionSimple at read ⊢
  by_cases positive : 0 < len
  · simp only [if_pos positive] at read ⊢
    obtain ⟨hit,contained,read⟩ := Option.bind_eq_some_iff.mp read
    rw [checkContains_append more contained]
    cases hit with
    | true => exact read
    | false =>
      obtain ⟨score,scored,read⟩ := Option.bind_eq_some_iff.mp read
      simp only [Option.bind_eq_bind,Option.bind_some,checkScore_append more scored]
      cases score with
      | some r => exact read
      | none => exact checkComm_append more read
  · simp only [if_neg positive] at read ⊢
    exact read

/-! ### Terminated conditions -/

/-- The text between the quotes in the string of a condition. -/
def quotedText (cond : Mem) : Option Mem :=
  (firstAt (ascii "contains(") cond).bind fun i =>
    ((cond.drop i).idxOf? 39).or ((cond.drop i).idxOf? 34) |>.bind fun j =>
      ((cond.drop i)[j]?).bind fun quote =>
        (((cond.drop i).drop (j + 1)).idxOf? quote).map fun slen => ((cond.drop i).drop (j + 1)).take slen

/-- The name behind `comm==`, without a quote before it. -/
def commName (cond : Mem) : Option Mem :=
  (firstAt (ascii "comm==") cond).map fun i =>
    let val := cond.drop (i + 6)
    if val.head? = some 39 ∨ val.head? = some 34 then val.tail else val

/-- The bytes of a payload settle the second and the third check: there is an
    `anomaly_score>` and a number behind `score=` that ends in the payload, or a terminator
    but no `score=` before it; or there is no `anomaly_score>`, and a terminator or the
    name of `comm==` if one is asked for. -/
def Settled (cond front : Mem) : Prop :=
  if ascii "anomaly_score>" <:+: cond then
    match firstAt (ascii "score=") (text front) with
    | some p => afterNumber (front.drop (p + 6)) ≠ []
    | none => 0 ∈ front
  else ∀ name,commName cond = some name → 0 ∈ front ∨ name <:+: front

/-- The bytes of a payload decide the condition: it is empty, it contains the quoted text,
    or it settles the other checks. -/
def Stays (cond front : Mem) : Prop :=
  front = [] ∨ (∃ start,quotedText cond = some start ∧ start <:+: front) ∨ Settled cond front

theorem openQuote_terminated {line : Mem} (plain : 0 ∉ line) (rest : Mem) :
    openQuote (line ++ 0 :: rest) = some ((line.idxOf? 39).or (line.idxOf? 34)) := by
  rw [openQuote,strchr_terminated (by decide) plain]
  cases line.idxOf? 39 with
  | some j => rfl
  | none => exact strchr_terminated (by decide) plain rest

theorem quoted_terminated {cond : Mem} (plain : 0 ∉ cond) (rest : Mem) :
    quoted (cond ++ 0 :: rest) = some (quotedText cond) := by
  rw [quoted,strstr_terminated (by decide) plain,quotedText]
  cases op : firstAt (ascii "contains(") cond with
  | none => rfl
  | some i =>
    have inside : i ≤ cond.length := (firstAt_eq_some.mp op).2.1
    have cpos_plain := plain_drop plain i
    simp only [Option.bind_eq_bind,Option.bind_some,Option.pure_def,List.drop_append_of_le_length inside]
    generalize cond.drop i = cpos at cpos_plain
    rw [openQuote_terminated cpos_plain]
    cases opened : (cpos.idxOf? 39).or (cpos.idxOf? 34) with
    | none => rfl
    | some j =>
      have place : j < cpos.length := by
        rcases Option.or_eq_some_iff.mp opened with single | ⟨_,double⟩
        · exact (List.idxOf?_eq_some_iff.mp single).1
        · exact (List.idxOf?_eq_some_iff.mp double).1
      have quote_plain : cpos[j] ≠ 0 := fun zero => cpos_plain (zero ▸ List.getElem_mem place)
      have start_plain := plain_drop cpos_plain (j + 1)
      have quote : ((cpos ++ 0 :: rest).drop j).head? = some cpos[j] := by
        rw [List.head?_drop,List.getElem?_append_left place,List.getElem?_eq_getElem place]
      have start : (cpos ++ 0 :: rest).drop (j + 1) = cpos.drop (j + 1) ++ 0 :: rest :=
        List.drop_append_of_le_length place
      simp only [Option.bind_some,quote,start,List.getElem?_eq_getElem place,strchr_terminated quote_plain start_plain]
      cases closed : (cpos.drop (j + 1)).idxOf? cpos[j] with
      | none => rfl
      | some slen =>
        have shut := (List.idxOf?_eq_some_iff.mp closed).1
        dsimp only
        rw [List.take_append_of_le_length (Nat.le_of_lt shut)]
        rfl

theorem checkContains_terminated {cond : Mem} (plain : 0 ∉ cond) (rest : Mem) {s : Mem} {len : Nat}
    (inside : len ≤ s.length) : checkContains (cond ++ 0 :: rest) (some s) len =
      some (decide (∃ start ∈ quotedText cond,start <:+: s.take len)) := by
  rw [checkContains,quoted_terminated plain]
  cases quotedText cond with
  | none => simp
  | some start => simp [memmem,Nat.not_lt.mpr inside]

theorem found_inside {needle line : Mem} {i : Nat} (found : firstAt needle line = some i) : i + needle.length ≤ line.length := by
  obtain ⟨here,inside,_⟩ := firstAt_eq_some.mp found
  have fits := here.length_le
  rw [List.length_drop] at fits
  omega

theorem checkScore_terminated {cond : Mem} (plain : 0 ∉ cond) :
    ∃ threshold : Int32,∀ rest front,checkScore (cond ++ 0 :: rest) (some front) =
      if ascii "anomaly_score>" <:+: cond then
        match firstAt (ascii "score=") (text front) with
        | some p => (atoi (front.drop (p + 6))).map fun score => some (decide (threshold < score))
        | none => if 0 ∈ front then some none else none
      else some none := by
  cases op : firstAt (ascii "anomaly_score>") cond with
  | none =>
    refine ⟨0,?_⟩
    intro rest front
    rw [checkScore,strstr_terminated (by decide) plain,op,if_neg (firstAt_eq_none.mp op)]
    rfl
  | some i =>
    have inside : i + 14 ≤ cond.length := found_inside op
    have asked : ascii "anomaly_score>" <:+: cond := by
      by_contra missing
      rw [firstAt_eq_none.mpr missing] at op
      cases op
    obtain ⟨threshold,number⟩ : ∃ n,atoi (cond.drop (i + 14) ++ [0]) = some n := atoi_terminated (by simp)
    refine ⟨threshold,?_⟩
    intro rest front
    have longer : atoi ((cond ++ 0 :: rest).drop (i + 14)) = some threshold := by
      rw [List.drop_append_of_le_length inside]
      simpa using atoi_append rest number
    rw [checkScore,strstr_terminated (by decide) plain,op]
    simp only [if_pos asked,Option.bind_eq_bind,Option.bind_some,longer,strstr_eq (by decide : 0 ∉ ascii "score=") front]
    cases firstAt (ascii "score=") (text front) with
    | some p =>
      simp only [Option.bind_some]
      cases atoi (front.drop (p + 6)) <;> rfl
    | none => by_cases ended : 0 ∈ front <;> simp [ended]

theorem zero_not_mem_commName {cond name : Mem} (plain : 0 ∉ cond) (named : commName cond = some name) : 0 ∉ name := by
  obtain ⟨i,_,same⟩ := Option.map_eq_some_iff.mp named
  have val_plain := plain_drop plain (i + 6)
  dsimp only at same
  split_ifs at same with quote
  · intro zero
    exact val_plain (List.tail_subset _ (same ▸ zero))
  · exact same ▸ val_plain

theorem checkComm_terminated {cond : Mem} (plain : 0 ∉ cond) (rest front : Mem) :
    checkComm (cond ++ 0 :: rest) (some front) =
      match commName cond with
      | none => some false
      | some name => (strstr name front).map Option.isSome := by
  rw [checkComm,strstr_terminated (by decide) plain,commName]
  cases op : firstAt (ascii "comm==") cond with
  | none => rfl
  | some i =>
    have inside : i + 6 ≤ cond.length := found_inside op
    have val_plain := plain_drop plain (i + 6)
    simp only [Option.bind_eq_bind,Option.bind_some,Option.map_some,List.drop_append_of_le_length inside]
    generalize cond.drop (i + 6) = val at val_plain
    cases val with
    | nil =>
      have name : cstr (0 :: rest) = some [] := cstr_terminated List.not_mem_nil rest
      simp only [List.nil_append,List.head?_cons,Option.bind_some,show ¬ ((0 : UInt8) = 39 ∨ (0 : UInt8) = 34) by decide,
        if_false,name,List.head?_nil,reduceCtorEq,or_self]
      cases strstr [] front <;> rfl
    | cons b val =>
      obtain ⟨_,tail_plain⟩ := List.ne_and_not_mem_of_not_mem_cons val_plain
      by_cases quote : b = 39 ∨ b = 34
      · simp only [List.cons_append,List.head?_cons,Option.bind_some,Option.some.injEq,if_pos quote,List.tail_cons,
          cstr_terminated tail_plain]
        cases strstr val front <;> rfl
      · simp only [List.cons_append,List.head?_cons,Option.bind_some,Option.some.injEq,if_neg quote]
        rw [← List.cons_append,cstr_terminated val_plain,Option.bind_some]
        cases strstr (b :: val) front <;> rfl

/-- Without a payload no condition holds. -/
theorem evaluate_nothing {cond : Mem} (plain : 0 ∉ cond) (rest : Mem) (blob : Option Mem) :
    evaluateConditionSimple (some (cond ++ 0 :: rest)) blob 0 = some false := by
  simp only [evaluateConditionSimple,checkContains,checkScore,checkComm,quoted_terminated plain,
    strstr_terminated (show 0 ∉ ascii "anomaly_score>" by decide) plain,
    strstr_terminated (show 0 ∉ ascii "comm==" by decide) plain]
  cases quotedText cond <;> cases firstAt (ascii "anomaly_score>") cond <;> cases firstAt (ascii "comm==") cond <;> rfl

/-- The second and the third check stay inside a block exactly if its bytes settle them. -/
theorem settled_isSome {cond : Mem} (plain : 0 ∉ cond) (rest front : Mem) :
    ((checkScore (cond ++ 0 :: rest) (some front)).bind fun
      | some r => some r
      | none => checkComm (cond ++ 0 :: rest) (some front)).isSome ↔ Settled cond front := by
  obtain ⟨threshold,score⟩ := checkScore_terminated plain
  rw [score,checkComm_terminated plain,Settled]
  have comm : ∀ name,0 ∉ name → ((strstr name front).isSome ↔ 0 ∈ front ∨ name <:+: front) := by
    intro name name_plain
    rw [← not_iff_not,Option.not_isSome_iff_eq_none,strstr_eq_none name_plain,not_or]
  by_cases asked : ascii "anomaly_score>" <:+: cond
  · simp only [if_pos asked]
    cases firstAt (ascii "score=") (text front) with
    | some p =>
      cases number : atoi (front.drop (p + 6)) with
      | none => simp [number,atoi_eq_none.mp number]
      | some score =>
        have ended : afterNumber (front.drop (p + 6)) ≠ [] := fun missing => by
          rw [atoi_eq_none.mpr missing] at number
          cases number
        simp [number,ended]
    | none =>
      by_cases ended : 0 ∈ front
      · cases named : commName cond with
        | none => simp [ended]
        | some name =>
          have decided := (comm name (zero_not_mem_commName plain named)).mpr (.inl ended)
          simpa [ended] using decided
      · simp [ended]
  · simp only [if_neg asked]
    cases named : commName cond with
    | none => simp
    | some name => simpa using comm name (zero_not_mem_commName plain named)

/-- A condition is evaluated inside a block exactly if its bytes decide it. -/
theorem evaluate_isSome {cond : Mem} (plain : 0 ∉ cond) (rest front : Mem) :
    (evaluateConditionSimple (some (cond ++ 0 :: rest)) (some front) front.length).isSome ↔ Stays cond front := by
  by_cases empty : front = []
  · subst empty
    simp [evaluate_nothing plain,Stays]
  have positive : 0 < front.length := List.length_pos_iff.mpr empty
  have settled := settled_isSome plain rest front
  simp only [evaluateConditionSimple,if_pos positive,checkContains_terminated plain rest (le_refl front.length),
    List.take_length,Option.bind_eq_bind,Option.bind_some,Option.pure_def,Stays,empty,false_or]
  by_cases hit : ∃ start ∈ quotedText cond,start <:+: front
  · have found : ∃ start,quotedText cond = some start ∧ start <:+: front := hit
    simp [found]
  have missed : ¬ ∃ start,quotedText cond = some start ∧ start <:+: front := hit
  simpa only [hit,missed,decide_false,Bool.false_eq_true,if_false,false_or] using settled

/-- A condition is evaluated as the string that it holds. -/
theorem evaluate_string {cond : Mem} (plain : 0 ∉ cond) (rest : Mem) {s : Mem} {len : Nat} (inside : len ≤ s.length) :
    evaluateConditionSimple (some (cond ++ 0 :: rest)) (some s) len =
      evaluateConditionSimple (some (cond ++ [0])) (some s) len := by
  by_cases positive : 0 < len
  · obtain ⟨threshold,score⟩ := checkScore_terminated plain
    simp only [evaluateConditionSimple,if_pos positive,checkContains_terminated plain _ inside,
      checkComm_terminated plain,score]
  · have empty : len = 0 := by omega
    rw [empty,evaluate_nothing plain,evaluate_nothing plain]

theorem settled_ended (cond : Mem) {s : Mem} (ended : 0 ∈ s) : Settled cond s := by
  unfold Settled
  by_cases asked : ascii "anomaly_score>" <:+: cond
  · rw [if_pos asked]
    cases found : firstAt (ascii "score=") (text s) with
    | none => exact ended
    | some p =>
      have reached : 0 ∈ s.drop (p + 6) := by
        obtain ⟨rest,split⟩ := text_split ended
        have before : p + 6 ≤ (text s).length := found_inside found
        rw [split,List.drop_append_of_le_length before]
        simp
      exact List.ne_nil_of_mem (zero_mem_afterNumber reached)
  · rw [if_neg asked]
    exact fun _ _ => .inl ended

/-- Against a terminated payload every condition is evaluated. -/
theorem evaluate_ended {cond : Mem} (plain : 0 ∉ cond) (rest : Mem) {s : Mem} {len : Nat} (ended : 0 ∈ s)
    (inside : len ≤ s.length) : ∃ r,evaluateConditionSimple (some (cond ++ 0 :: rest)) (some s) len = some r := by
  by_cases positive : 0 < len
  · have settled := (settled_isSome plain rest s).mpr (settled_ended cond ended)
    simp only [evaluateConditionSimple,if_pos positive,checkContains_terminated plain rest inside,
      Option.bind_eq_bind,Option.bind_some,Option.pure_def]
    by_cases hit : ∃ start ∈ quotedText cond,start <:+: s.take len
    · exact ⟨true,by rw [if_pos (decide_eq_true hit)]⟩
    · rw [if_neg (by simpa using hit)]
      exact Option.isSome_iff_exists.mp settled
  · have empty : len = 0 := by omega
    exact ⟨false,by rw [empty,evaluate_nothing plain]⟩

/-! ### Two payloads that agree -/

/-- Evaluating a condition reads nothing behind the payload `front`, and the memory there does not matter. -/
def PayloadOnly (cond front : Mem) : Prop :=
  (∀ more more',evaluateConditionSimple (some cond) (some (front ++ more)) front.length =
      evaluateConditionSimple (some cond) (some (front ++ more')) front.length) ∧
    (evaluateConditionSimple (some cond) (some front) front.length).isSome

theorem stays_evaluate {cond front : Mem} (ended : 0 ∈ cond) (stays : Stays (text cond) front) :
    ∃ r,∀ more,evaluateConditionSimple (some cond) (some (front ++ more)) front.length = some r := by
  obtain ⟨rest,split⟩ := text_split ended
  rw [split]
  obtain ⟨r,read⟩ := Option.isSome_iff_exists.mp
    ((evaluate_isSome (zero_not_mem_text cond) rest front).mpr stays)
  exact ⟨r,fun more => evaluate_append more read⟩

theorem stays_loop {store : Store} {front : Mem} (done : Nat → Bool) (n i : Nat)
    (stays : ∀ j,i ≤ j → j < i + n → 0 ∈ conditionAt store j ∧ Stays (text (conditionAt store j)) front)
    (more more' : Mem) (db : Db) (triggers : Int32) (attempts : List Nat) :
    rulesLoopAct done store (some (front ++ more)) front.length n i db triggers attempts =
      rulesLoopAct done store (some (front ++ more')) front.length n i db triggers attempts := by
  induction n generalizing i db triggers attempts with
  | zero => rfl
  | succ n ih =>
    obtain ⟨ended,decided⟩ := stays i (le_refl i) (by omega)
    obtain ⟨r,evaluated⟩ := stays_evaluate ended decided
    have rest : ∀ db triggers attempts,_ := ih (i + 1) fun j after before => stays j (by omega) (by omega)
    simp only [rulesLoopAct,evaluated,rest]

/-- With a `strstr` that reads from left to right, the bytes of the payload alone decide what a condition evaluates to
    exactly if `Stays` holds; where it does for every rule, the same rules fire whatever lies behind the payload. -/
theorem payload_only {cond : Mem} (ended : 0 ∈ cond) (front : Mem) :
    (PayloadOnly cond front ↔ Stays (text cond) front) ∧
      ∀ (done : Nat → Bool) (store : Store) (db : Db),
        (∀ i < store.count,0 ∈ conditionAt store i ∧ Stays (text (conditionAt store i)) front) →
        ∀ more more',rulesEvaluateAndAct done store (some (front ++ more)) front.length db =
          rulesEvaluateAndAct done store (some (front ++ more')) front.length db := by
  constructor
  · constructor
    · rintro ⟨_,inside⟩
      obtain ⟨rest,split⟩ := text_split ended
      rw [split] at inside
      exact (evaluate_isSome (zero_not_mem_text cond) rest front).mp inside
    · intro stays
      obtain ⟨r,evaluated⟩ := stays_evaluate ended stays
      refine ⟨fun more more' => by rw [evaluated,evaluated],?_⟩
      have alone := evaluated []
      rw [List.append_nil] at alone
      rw [alone]
      rfl
  · intro done store db stays more more'
    unfold rulesEvaluateAndAct
    by_cases missing : store.rules = []
    · rw [if_pos missing,if_pos missing]
    · rw [if_neg missing,if_neg missing]
      exact stays_loop done _ 0 (fun j _ before => stays j (by omega)) more more' db 0 []

/-- The name that is asked for is in the payload. -/
theorem payload_only_comm : PayloadOnly (ascii "comm=='sh" ++ [0]) (ascii "comm=sh") := by
  have ended : 0 ∈ ascii "comm=='sh" ++ [0] := by decide
  have plain : text (ascii "comm=='sh" ++ [0]) = ascii "comm=='sh" := by decide
  have asked : commName (ascii "comm=='sh") = some (ascii "sh") := by decide
  obtain ⟨decided,_⟩ := payload_only ended (ascii "comm=sh")
  refine decided.mpr (.inr (.inr ?_))
  rw [plain,Settled,if_neg (by decide),asked]
  rintro name ⟨⟩
  exact .inr (by decide)

/-- A score that ends with the payload is read on from the memory behind it. -/
theorem score_behind_payload :
    ¬ ∀ cond front : Mem,0 ∈ cond → PayloadOnly cond front := by
  intro always
  have same := (always (ascii "anomaly_score>50" ++ [0]) (ascii "score=6") (by decide)).1 [0] (ascii "0" ++ [0])
  revert same
  decide

end Nulleye.RuleEvaluation
