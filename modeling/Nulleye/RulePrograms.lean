import Nulleye.Conditions
import Nulleye.RuleFiring
import Nulleye.RuleSyntax

/-!
Rule files as programs. A program is a list of conditions with actions, and what it means is
said without the C strings: which of its rules answer an event. Printed as a file, in any
layout, loaded into the empty store and evaluated against any sequence of events, it does
what it means. The lines that are logged meanwhile are left out.
-/
namespace Nulleye.RulePrograms
open Nulleye.CStrings Nulleye.Lines Nulleye.Responses Nulleye.RuleFiles Nulleye.RuleStores Nulleye.RuleEvaluation
open Nulleye.ScoreConditions Nulleye.Conditions Nulleye.RuleFiring Nulleye.RuleSyntax

/-! ### Conditions and what they mean -/

inductive Condition where
  | contains (q : UInt8) (T : Mem)
  | score (t : Int32)
  | comm (N : Mem)

/-- How a condition is spelled. -/
def Condition.text : Condition → Mem
  | .contains q T => containsText q T
  | .score t => scoreAbove t
  | .comm N => commIs N

/-- The score of a payload. -/
def scoreOf (payload : Mem) : Option Int32 := scoreIn payload []

/-- What a condition means. The name of `comm==` may stand anywhere, as the code has it. -/
def Condition.Means (payload : Mem) : Condition → Prop
  | .contains _ T => payload ≠ [] ∧ T <:+: payload
  | .score t => ∃ score ∈ scoreOf payload,t < score
  | .comm N => payload ≠ [] ∧ N <:+: payload

instance (payload : Mem) (c : Condition) : Decidable (c.Means payload) :=
  match c with
  | .contains _ T => inferInstanceAs (Decidable (payload ≠ [] ∧ T <:+: payload))
  | .score t => inferInstanceAs (Decidable (∃ score ∈ scoreOf payload,t < score))
  | .comm N => inferInstanceAs (Decidable (payload ≠ [] ∧ N <:+: payload))

/-- No operator and no quote stands in what another operator is given. -/
def Condition.Clear : Condition → Prop
  | .contains q T => IsQuote q ∧ 39 ∉ T ∧ 34 ∉ T ∧ ¬ ascii "anomaly_score>" <:+: T ∧ ¬ ascii "comm==" <:+: T
  | .score _ => True
  | .comm N => 39 ∉ N ∧ 34 ∉ N ∧ ¬ ascii "anomaly_score>" <:+: N

/-- The memory behind a terminated payload does not matter for its score. -/
theorem scoreIn_eq (payload more : Mem) : scoreIn payload more = scoreOf payload := by
  rw [scoreOf,scoreIn,scoreIn]
  cases searched : firstAt (ascii "score=") (CStrings.text payload) with
  | none => rfl
  | some p =>
    have before : p + 6 ≤ payload.length := Nat.le_trans (found_inside searched) (List.takeWhile_prefix _).length_le
    obtain ⟨score,read⟩ : ∃ n,atoi (payload.drop (p + 6) ++ [0]) = some n := atoi_terminated (by simp)
    have longer := atoi_append more read
    rw [List.append_assoc,List.singleton_append] at longer
    rw [Option.bind_some,Option.bind_some,List.drop_append_of_le_length before,List.drop_append_of_le_length before,longer,read]

theorem thresholdOf_none {line : Mem} (absent : ¬ ascii "anomaly_score>" <:+: line) : thresholdOf line = none := by
  rw [thresholdOf,firstAt_eq_none.mpr absent,Option.bind_none]

/-- A text without operators leaves nothing to the other checks. -/
theorem fallsThrough_clear {q : UInt8} (quote : IsQuote q) {T : Mem} (score : ¬ ascii "anomaly_score>" <:+: T)
    (comm : ¬ ascii "comm==" <:+: T) (payload more : Mem) : fallsThrough q T payload more = false := by
  have no_name : commName (T ++ [q,41]) = none := by
    rw [commName,firstAt_separated (by decide) (quote.not_mem (by decide) (by decide)),firstAt_eq_none.mpr comm,
      show firstAt (ascii "comm==") [41] = none by decide]
    rfl
  rw [fallsThrough,compared,thresholdOf_none score,no_name]
  simp

/-- **A clear condition evaluates to what it means.** -/
theorem evaluate_means {c : Condition} (clear : c.Clear) (plain : 0 ∉ c.text) {payload : Mem} (payload_plain : 0 ∉ payload)
    (rest more : Mem) :
    evaluateConditionSimple (some (c.text ++ 0 :: rest)) (some (payload ++ 0 :: more)) payload.length =
      some (decide (c.Means payload)) := by
  by_cases empty : payload = []
  · subst empty
    have nothing : ¬ c.Means [] := by
      cases c with
      | contains q T => exact fun means => means.1 rfl
      | score t => simp [Condition.Means,scoreOf,scoreIn,firstAt,ascii]
      | comm N => exact fun means => means.1 rfl
    rw [List.length_nil,evaluate_nothing plain,decide_eq_false nothing]
  cases c with
  | contains q T =>
    obtain ⟨quote,single,double,score,comm⟩ := clear
    have unquoted : q ∉ T := quote.not_mem single double
    have whole : searched q T = some T := by simp [searched,single]
    rw [Condition.text] at plain ⊢
    rw [evaluate_eq plain rest empty,quotedText_contains quote unquoted,whole,otherwise_contains quote,
      fallsThrough_clear quote score comm]
    simp [Condition.Means,empty]
  | score t =>
    rw [Condition.text,evaluate_scoreAbove,scoreIn_eq]
    rfl
  | comm N =>
    obtain ⟨single,double,score⟩ := clear
    obtain ⟨no_text,name⟩ := bare_name single double
    have uncompared : compared (commIs N) payload more = none := by
      rw [(compared_comm (.inl rfl) N payload more).1,compared,thresholdOf_none score,Option.bind_none]
    rw [Condition.text] at plain ⊢
    rw [evaluate_eq plain rest empty,no_text,otherwise,uncompared,name,text_plain payload_plain]
    simp [Condition.Means,empty]

/-! ### Programs as files -/

/-- A line of a rule file, its condition as a condition. -/
inductive Item where
  | blank (blanks : Mem)
  | comment (blanks rest : Mem)
  | rule (blanks : Mem) (c : Condition) (act : Mem)

def Item.line : Item → Line
  | .blank blanks => .blank blanks
  | .comment blanks rest => .comment blanks rest
  | .rule blanks c act => .rule blanks c.text act

/-- The rule of a line. -/
def Item.rule? : Item → Option (Condition × Mem)
  | .rule _ c act => some (c,act)
  | _ => none

/-- A line that the loader reads as it is meant, with a clear condition. -/
structure Item.WellFormed (item : Item) : Prop where
  line : item.line.WellFormed
  clear : ∀ c act,item.rule? = some (c,act) → c.Clear

/-- The program that a file holds. -/
def program (items : List Item) : List (Condition × Mem) := items.filterMap Item.rule?

/-- The file that is printed for it. -/
def print (items : List Item) (newline : Bool) : Mem := joined (items.map fun item => item.line.bytes) newline

/-- The rules of the lines are those of the program. -/
theorem rules_program (items : List Item) :
    (items.map Item.line).filterMap Line.rule? = (program items).map fun (c,act) => (c.text,act) := by
  rw [program,List.filterMap_map,List.map_filterMap]
  refine List.filterMap_congr fun item _ => ?_
  cases item <;> rfl

/-- The entries of a store hold a program, as terminated strings. -/
structure HoldsProgram (store : Store) (rules : List (Condition × Mem)) : Prop where
  count : store.count = rules.length
  inside : store.count ≤ store.rules.length
  texts : (store.rules.take store.count).map texts = rules.map fun (c,act) => (some c.text,some act)

/-- A printed program is loaded. -/
theorem load_program (contents : Nat → Nat → RuleEntry) {items : List Item} (newline : Bool)
    (formed : ∀ item ∈ items,item.WellFormed) :
    ∃ store,rulesLoadFromFile (fun ncap => some (contents ncap)) (some (print items newline)) Store.empty = some (store,0) ∧
      HoldsProgram store (program items) := by
  have ok : ∀ line ∈ items.map Item.line,line.WellFormed := by
    intro line member
    obtain ⟨item,inside,rfl⟩ := List.mem_map.mp member
    exact (formed item inside).line
  have each : ∀ bytes ∈ (items.map Item.line).map Line.bytes,0 ∉ bytes ∧ 10 ∉ bytes ∧ bytes.length ≤ 510 := by
    intro bytes inside
    obtain ⟨line,member,rfl⟩ := List.mem_map.mp inside
    obtain ⟨plain,unbroken,fits,_⟩ := ok line member
    exact ⟨plain,unbroken,fits⟩
  have printed : print items newline = joined ((items.map Item.line).map Line.bytes) newline := by
    rw [print,List.map_map]
    rfl
  have parsed : (pieces 511 (print items newline)).filterMap ruleOf = (items.map Item.line).filterMap Line.rule? := by
    rw [printed,rules_joined newline each,List.filterMap_map]
    exact List.filterMap_congr fun line member => ruleOf_wellFormed (ok line member)
  obtain ⟨store,ran,counted,matched⟩ :=
    @loadRules_empty (fun ncap => some (contents ncap)) (fun _ => rfl) ((items.map Item.line).filterMap Line.rule?)
  have stored := texts_of_forall matched fun cond act held => rule_fits ok held
  have inside : store.count ≤ store.rules.length := by
    have taken := matched.length_eq
    rw [← counted,List.length_take] at taken
    omega
  refine ⟨store,by rw [rulesLoadFromFile,rulesLoop_eq,parsed,ran],⟨?_,inside,?_⟩⟩
  · rw [counted,rules_program,List.length_map]
  · rw [stored,rules_program,List.map_map]
    rfl

/-! ### Events -/

/-- A terminated payload, the memory behind it, and for which rules an insert succeeds. -/
structure Event where
  payload : Mem
  more : Mem
  done : Nat → Bool

/-- The calls of `rules_evaluate_and_act` for some events, and what they return. -/
def evaluateAll (store : Store) : List Event → Db → Option (Db × List Int32)
  | [],db => some (db,[])
  | e :: rest,db => do
    let (db,triggers,_) ← rulesEvaluateAndAct e.done store (some (e.payload ++ 0 :: e.more)) e.payload.length db
    let (db,counts) ← evaluateAll store rest db
    return (db,triggers :: counts)

/-- The rows that record what a program answers to an event. -/
def answers (rules : List (Condition × Mem)) (opened : Bool) (e : Event) : List AlertRow :=
  rules.zipIdx.filterMap fun ((c,act),i) =>
    if c.Means e.payload ∧ (opened && e.done i) = true then some (responseRow act (ascii "auto") (ascii "rule match")) else none

/-- How many of the rules answer. -/
def answering (rules : List (Condition × Mem)) (e : Event) : Nat := rules.countP fun (c,_) => decide (c.Means e.payload)

theorem zipIdx_filterMap {α β : Type*} (l : List α) (f : α × Nat → Option β) :
    l.zipIdx.filterMap f = (List.range l.length).filterMap fun i => (l[i]?).bind fun x => f (x,i) := by
  induction l using List.reverseRecOn with
  | nil => rfl
  | append_singleton l x ih =>
    have front : ∀ i ∈ List.range l.length,((l ++ [x])[i]?.bind fun x => f (x,i)) = (l[i]?).bind fun x => f (x,i) := by
      intro i inside
      rw [List.getElem?_append_left (List.mem_range.mp inside)]
    rw [List.zipIdx_append,List.filterMap_append,ih,List.length_append,List.length_singleton,List.range_succ,List.filterMap_append,
      List.filterMap_congr front]
    congr 1
    simp [List.filterMap_cons]

theorem range_countP {α : Type*} (l : List α) (p : α → Bool) :
    ((List.range l.length).filter fun i => (l[i]?).any p).length = l.countP p := by
  induction l using List.reverseRecOn with
  | nil => rfl
  | append_singleton l x ih =>
    have front : ∀ i ∈ List.range l.length,((l ++ [x])[i]?).any p = (l[i]?).any p := by
      intro i inside
      rw [List.getElem?_append_left (List.mem_range.mp inside)]
    rw [List.length_append,List.length_singleton,List.range_succ,List.filter_append,List.length_append,List.filter_congr front,ih,
      List.countP_append]
    cases holds : p x <;> simp [holds]

theorem cstr_some {mem line : Mem} (read : cstr mem = some line) : 0 ∈ mem ∧ CStrings.text mem = line := by
  rw [cstr_eq] at read
  obtain ⟨ended,same⟩ := Option.ite_none_right_eq_some.mp read
  exact ⟨ended,Option.some.inj same⟩

section Stored
variable {store : Store} {rules : List (Condition × Mem)}

/-- The entry that holds a rule. -/
theorem HoldsProgram.entry (holds : HoldsProgram store rules) {i : Nat} {c : Condition} {act : Mem} (held : rules[i]? = some (c,act)) :
    ∃ entry,store.rules[i]? = some entry ∧ (0 ∈ entry.condition.toList ∧ CStrings.text entry.condition.toList = c.text) ∧
      0 ∈ entry.action.toList ∧ CStrings.text entry.action.toList = act := by
  have inside : i < store.count := by
    rw [holds.count]
    exact (List.getElem?_eq_some_iff.mp held).1
  have same := congrArg (fun l => l[i]?) holds.texts
  simp only [List.getElem?_map,held,Option.map_some,List.getElem?_take_of_lt inside] at same
  obtain ⟨entry,found,read⟩ := Option.map_eq_some_iff.mp same
  have parts := Prod.mk.inj read
  exact ⟨entry,found,cstr_some parts.1,cstr_some parts.2⟩

/-- All entries that hold rules are terminated. -/
theorem HoldsProgram.terminated (holds : HoldsProgram store rules) :
    ∀ entry ∈ store.rules.take store.count,0 ∈ entry.condition.toList ∧ 0 ∈ entry.action.toList := by
  intro entry member
  have read : RuleSyntax.texts entry ∈ rules.map fun (c,act) => (some c.text,some act) := holds.texts ▸ List.mem_map_of_mem member
  obtain ⟨⟨c,act⟩,_,same⟩ := List.mem_map.mp read
  have parts := Prod.mk.inj same.symm
  exact ⟨(cstr_some parts.1).1,(cstr_some parts.2).1⟩

/-- A rule fires where its condition means the payload. -/
theorem HoldsProgram.fires (holds : HoldsProgram store rules) (clear : ∀ r ∈ rules,r.1.Clear ∧ 0 ∉ r.1.text) {payload : Mem}
    (plain : 0 ∉ payload) (more : Mem) (i : Nat) (inside : i < rules.length) :
    (store.rules[i]?).any (RuleFiring.fires (payload ++ 0 :: more) payload.length) =
      (rules[i]?).any fun (c,_) => decide (c.Means payload) := by
  obtain ⟨⟨c,act⟩,held⟩ : ∃ r,rules[i]? = some r := ⟨rules[i],List.getElem?_eq_getElem inside⟩
  obtain ⟨entry,found,⟨_,condition⟩,_⟩ := holds.entry held
  obtain ⟨clear,text_plain⟩ := clear _ (List.mem_of_getElem? held)
  rw [found,held,Option.any_some,Option.any_some,RuleFiring.fires,condition,evaluate_means clear text_plain plain [] more]
  simp

/-- The row of a rule that fires. -/
theorem HoldsProgram.firedRow (holds : HoldsProgram store rules) (i : Nat) (inside : i < rules.length) :
    RuleFiring.firedRow store i = (rules[i]?).map fun (_,act) => responseRow act (ascii "auto") (ascii "rule match") := by
  obtain ⟨⟨c,act⟩,held⟩ : ∃ r,rules[i]? = some r := ⟨rules[i],List.getElem?_eq_getElem inside⟩
  obtain ⟨entry,found,_,_,action⟩ := holds.entry held
  rw [RuleFiring.firedRow,found,held,Option.map_some,Option.map_some,action]

/-- The rules that fire are those whose conditions mean the payload. -/
theorem HoldsProgram.firing (holds : HoldsProgram store rules) (clear : ∀ r ∈ rules,r.1.Clear ∧ 0 ∉ r.1.text) (e : Event)
    (plain : 0 ∉ e.payload) : RuleFiring.firing store (e.payload ++ 0 :: e.more) e.payload.length =
      (List.range rules.length).filter fun i => (rules[i]?).any fun (c,_) => decide (c.Means e.payload) := by
  rw [RuleFiring.firing,holds.count]
  exact List.filter_congr fun i member => holds.fires clear plain e.more i (List.mem_range.mp member)

/-- One event is answered by the rules that mean it, if they can be counted. -/
theorem HoldsProgram.answered (holds : HoldsProgram store rules) (clear : ∀ r ∈ rules,r.1.Clear ∧ 0 ∉ r.1.text) (e : Event)
    (plain : 0 ∉ e.payload) (few : answering rules e < 2 ^ 31) (db : Db) : ∃ after triggers attempts,
      rulesEvaluateAndAct e.done store (some (e.payload ++ 0 :: e.more)) e.payload.length db = some (after,triggers,attempts) ∧
      triggers.toInt = answering rules e ∧ after.gDb = db.gDb ∧ after.alerts = db.alerts ++ answers rules db.gDb e := by
  have fired := holds.firing clear e plain
  have counted : (RuleFiring.firing store (e.payload ++ 0 :: e.more) e.payload.length).length = answering rules e := by
    rw [fired]
    exact range_countP rules fun (c,_) => decide (c.Means e.payload)
  have rows : ((RuleFiring.firing store (e.payload ++ 0 :: e.more) e.payload.length).filter
      fun i => db.gDb && e.done i).filterMap (RuleFiring.firedRow store) = answers rules db.gDb e := by
    rw [fired,answers,zipIdx_filterMap,List.filterMap_filter,List.filterMap_filter]
    refine List.filterMap_congr fun i member => ?_
    have inside := List.mem_range.mp member
    obtain ⟨⟨c,act⟩,held⟩ : ∃ r,rules[i]? = some r := ⟨rules[i],List.getElem?_eq_getElem inside⟩
    rw [holds.firedRow i inside,held]
    by_cases means : c.Means e.payload <;> cases db.gDb <;> cases done : e.done i <;> simp [means,done]
  have ran := evaluate_fires ⟨holds.inside,holds.terminated⟩ (by simp : 0 ∈ e.payload ++ 0 :: e.more)
    (by simp : e.payload.length ≤ (e.payload ++ 0 :: e.more).length) e.done db
  rw [counted,if_pos few,rows] at ran
  obtain ⟨after,triggers,ran,number,kept,appended⟩ := ran
  exact ⟨after,triggers,_,ran,number,kept,appended⟩

end Stored

/-- **A rule file does what its program means**: printed in any layout and loaded into the empty store, it answers every
    event of any sequence by the rules whose conditions hold of it, in their order, as far as the inserts succeed, and
    returns how many they are, as long as an `int` can count them. -/
theorem program_means (contents : Nat → Nat → RuleEntry) {items : List Item} (newline : Bool)
    (formed : ∀ item ∈ items,item.WellFormed) : ∃ store,
      rulesLoadFromFile (fun ncap => some (contents ncap)) (some (print items newline)) Store.empty = some (store,0) ∧
      ∀ (events : List Event) (db : Db),(∀ e ∈ events,0 ∉ e.payload ∧ answering (program items) e < 2 ^ 31) →
        ∃ after counts,evaluateAll store events db = some (after,counts) ∧
          counts.map Int32.toInt = events.map (fun e => (answering (program items) e : Int)) ∧
          after.alerts = db.alerts ++ events.flatMap (answers (program items) db.gDb) := by
  obtain ⟨store,loaded,holds⟩ := load_program contents newline formed
  have clear : ∀ r ∈ program items,r.1.Clear ∧ 0 ∉ r.1.text := by
    intro r member
    obtain ⟨item,inside,held⟩ := List.mem_filterMap.mp member
    obtain ⟨⟨plain,_⟩,clear⟩ := formed item inside
    cases item with
    | blank | comment => cases held
    | rule blanks c act =>
      cases held
      refine ⟨clear c act rfl,fun zero => plain ?_⟩
      simp [Item.line,Line.bytes,zero]
  refine ⟨store,loaded,?_⟩
  intro events
  induction events with
  | nil => exact fun db _ => ⟨db,[],rfl,rfl,by simp⟩
  | cons e events ih =>
    intro db each
    obtain ⟨plain,few⟩ := each e List.mem_cons_self
    obtain ⟨first,triggers,attempts,ran,number,kept,rows⟩ := holds.answered clear e plain few db
    obtain ⟨after,counts,later,numbers,more⟩ := ih first fun e member => each e (List.mem_cons_of_mem _ member)
    refine ⟨after,triggers :: counts,?_,?_,?_⟩
    · simp [evaluateAll,ran,later]
    · rw [List.map_cons,List.map_cons,number,numbers]
    · rw [more,rows,kept,List.flatMap_cons,List.append_assoc]

/-- `if anomaly_score>80 then kill` and `if contains('ssh') then notify`. -/
private def twoActions : List Item :=
  [.rule [] (.score 80) (ascii "kill"),.rule [] (.contains 39 (ascii "ssh")) (ascii "notify")]

private theorem twoActions_formed : ∀ item ∈ twoActions,item.WellFormed := by
  intro item member
  rcases List.mem_pair.mp member with rfl | rfl
  · refine ⟨⟨by decide,by decide,by decide,List.forall_mem_nil _,by decide,by decide,by decide,by decide,by decide⟩,?_⟩
    rintro c act ⟨⟩
    trivial
  · refine ⟨⟨by decide,by decide,by decide,List.forall_mem_nil _,by decide,by decide,by decide,by decide,by decide⟩,?_⟩
    rintro c act ⟨⟩
    exact ⟨.inl rfl,by decide,by decide,by decide,by decide⟩

/-- Both rules answer a high score of `sshd`, only the second a low one; neither kills. -/
theorem program_means_both : ∃ store after counts,
    rulesLoadFromFile (fun _ => some fun _ => ⟨.replicate 256 0,.replicate 128 0⟩) (some (print twoActions false)) Store.empty =
      some (store,0) ∧
    evaluateAll store [⟨ascii "score=85 comm=sshd",[],fun _ => true⟩,⟨ascii "score=5 comm=ssh",[7],fun _ => true⟩]
      ⟨true,⟨⟨none,none,none⟩,true,[]⟩⟩ = some (after,counts) ∧ counts.map Int32.toInt = [2,1] ∧
    after.alerts = [responseRow (ascii "kill") (ascii "auto") (ascii "rule match"),
      responseRow (ascii "notify") (ascii "auto") (ascii "rule match"),
      responseRow (ascii "notify") (ascii "auto") (ascii "rule match")] := by
  obtain ⟨store,loaded,means⟩ :=
    program_means (fun _ _ => ⟨.replicate 256 0,.replicate 128 0⟩) false twoActions_formed
  obtain ⟨after,counts,ran,numbers,rows⟩ := means
    [⟨ascii "score=85 comm=sshd",[],fun _ => true⟩,⟨ascii "score=5 comm=ssh",[7],fun _ => true⟩]
    ⟨true,⟨⟨none,none,none⟩,true,[]⟩⟩
    (List.forall_mem_cons.mpr ⟨by decide,List.forall_mem_singleton.mpr (by decide)⟩)
  exact ⟨store,after,counts,loaded,ran,numbers.trans (by decide),rows.trans (by decide)⟩

end Nulleye.RulePrograms
