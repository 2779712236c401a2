import Nulleye.RuleFiring

/-!
The last byte of the condition and of the action of a rule. The copies fill all bytes but
this one, so a text that leaves no byte of its bound over is ended by what the memory from
`realloc` held there before. The rules of a run of loads are self-contained strings
exactly if that byte is zero wherever it is needed, and then their evaluation does not
depend on the memory.
-/
namespace Nulleye.RuleFields
open Nulleye.CStrings Nulleye.Lines Nulleye.RuleFiles Nulleye.RuleStores Nulleye.Responses Nulleye.RuleEvaluation
open Nulleye.RuleFiring

/-- A call of `rules_load_from_file`, with what `realloc` does in it. -/
structure Call where
  memory : Realloc
  file : Option Mem

def Call.call (c : Call) (store : Store) : Option (Store × Int) := rulesLoadFromFile c.memory c.file store

/-- The rules parsed from the file. -/
def Call.rules (c : Call) : List (Mem × Mem) := ((c.file.map (pieces 511)).getD []).filterMap ruleOf

/-- The rules that the block has room for, up to a failing `realloc`, each with its entry as
    the block holds it before the copies. -/
def oldEntries (memory : Realloc) : List (Mem × Mem) → Nat → Store → List (RuleEntry × Mem × Mem)
  | [] => fun _ _ => []
  | rule :: rest => fun cap store =>
    (growRules memory cap store).elim [] fun grown =>
      (grown.2.rules[grown.2.count]?).elim [] fun old =>
        (old,rule) :: oldEntries memory rest grown.1 ⟨grown.2.rules,grown.2.count + 1⟩

def Call.entries (c : Call) (store : Store) : List (RuleEntry × Mem × Mem) := oldEntries c.memory c.rules 0 store

/-- A run of calls: the store, and the rules stored, each with its entry before the copies. -/
def loadAll : List Call → Store → Option (Store × List (RuleEntry × Mem × Mem))
  | [] => fun store => some (store,[])
  | c :: calls => fun store =>
    (c.call store).bind fun loaded => (loadAll calls loaded.1).map fun last => (last.1,c.entries store ++ last.2)

/-- The fields of an entry are strings within their buffers: what fits of the texts. -/
structure SelfContained (entry : RuleEntry) (rule : Mem × Mem) : Prop where
  condition : 0 ∈ entry.condition.toList ∧ text entry.condition.toList = rule.1.take 255
  action : 0 ∈ entry.action.toList ∧ text entry.action.toList = rule.2.take 127

/-- Each text leaves a byte of its bound over, or the last byte of the old field is zero. -/
def Closes (old : RuleEntry) (rule : Mem × Mem) : Prop :=
  (rule.1.length < 255 ∨ old.condition[255] = 0) ∧ (rule.2.length < 127 ∨ old.action[127] = 0)

/-! ### One field -/

/-- A bounded copy ends inside its buffer exactly if it wrote a terminator or found one behind it. -/
theorem copy_closes {n : Nat} (old : Vector UInt8 (n + 1)) {line : Mem} (plain : 0 ∉ line) :
    (0 ∈ (overwrite old (padded n line)).toList ∧ text (overwrite old (padded n line)).toList = line.take n) ↔
      line.length < n ∨ old[n] = 0 := by
  have last : old.toList.drop n = [old[n]] := by
    rw [List.drop_eq_getElem_cons (by simp),List.drop_of_length_le (by simp)]
    simp
  have start := plain_take plain n
  rw [overwrite_toList old (by simp),padded_length,last]
  by_cases short : line.length < n
  · refine iff_of_true ?_ (.inl short)
    have zeros : List.replicate (n - line.length) (0 : UInt8) = 0 :: List.replicate (n - line.length - 1) 0 := by
      rw [← List.replicate_succ,Nat.sub_add_cancel (by omega)]
    have split : padded n line ++ [old[n]] = line.take n ++ 0 :: (List.replicate (n - line.length - 1) 0 ++ [old[n]]) := by
      rw [padded,zeros,List.append_assoc,List.cons_append]
    rw [split,text_terminated start]
    exact ⟨by simp,rfl⟩
  · have whole : padded n line = line.take n := by simp [padded,show n - line.length = 0 by omega]
    rw [whole,text_append start,or_iff_right short]
    constructor
    · rintro ⟨ended,_⟩
      rcases List.mem_append.mp ended with inside | here
      · exact absurd inside start
      · exact (List.mem_singleton.mp here).symm
    · intro zero
      rw [zero]
      exact ⟨by simp,by simp [text_cons]⟩

theorem copied_self_contained (old : RuleEntry) {rule : Mem × Mem} (plain : 0 ∉ rule.1 ∧ 0 ∉ rule.2) :
    SelfContained (copied old rule) rule ↔ Closes old rule := by
  obtain ⟨cond_plain,act_plain⟩ := plain
  rw [Closes,← copy_closes old.condition cond_plain,← copy_closes old.action act_plain]
  constructor
  · rintro ⟨condition,action⟩
    exact ⟨condition,action⟩
  · rintro ⟨condition,action⟩
    exact ⟨condition,action⟩

/-- The rules of a file hold no NUL. -/
theorem Call.rules_plain (c : Call) : ∀ rule ∈ c.rules,0 ∉ rule.1 ∧ 0 ∉ rule.2 := by
  intro rule member
  obtain ⟨piece,_,parsed⟩ := List.mem_filterMap.mp member
  have read := ruleLine_eq piece
  rw [parsed] at read
  exact ⟨read.1,read.2.1⟩

/-! ### The loop -/

/-- Growing depends on the entries behind the count alone, and keeps those of them that fit. -/
theorem growRules_drop (memory : Realloc) (cap n : Nat) {rules rules' : List RuleEntry} (length : rules.length = rules'.length)
    (behind : rules.drop n = rules'.drop n) :
    (growRules memory cap ⟨rules,n⟩ = none ∧ growRules memory cap ⟨rules',n⟩ = none) ∨
      ∃ cap' tmp tmp',growRules memory cap ⟨rules,n⟩ = some (cap',⟨tmp,n⟩) ∧
        growRules memory cap ⟨rules',n⟩ = some (cap',⟨tmp',n⟩) ∧ tmp.length = tmp'.length ∧ tmp.drop n = tmp'.drop n := by
  unfold growRules
  by_cases full : n + 1 > cap
  · simp only [full,if_true,realloc]
    cases memory (if cap = 0 then 8 else cap * 2) with
    | none => exact .inl ⟨rfl,rfl⟩
    | some fresh =>
      refine .inr ⟨_,_,_,rfl,rfl,?_,?_⟩
      · simp [length]
      · simp only [List.drop_append,List.drop_take,behind,length,List.length_take]
  · simp only [full,if_false]
    exact .inr ⟨cap,rules,rules',rfl,rfl,length,behind⟩

theorem oldEntries_cons (memory : Realloc) (rule : Mem × Mem) (rest : List (Mem × Mem)) (cap : Nat) (store : Store) :
    oldEntries memory (rule :: rest) cap store = (growRules memory cap store).elim [] fun grown =>
      (grown.2.rules[grown.2.count]?).elim [] fun old =>
        (old,rule) :: oldEntries memory rest grown.1 ⟨grown.2.rules,grown.2.count + 1⟩ := rfl

theorem oldEntries_drop (memory : Realloc) (loaded : List (Mem × Mem)) (cap n : Nat) {rules rules' : List RuleEntry}
    (length : rules.length = rules'.length) (behind : rules.drop n = rules'.drop n) :
    oldEntries memory loaded cap ⟨rules,n⟩ = oldEntries memory loaded cap ⟨rules',n⟩ := by
  induction loaded generalizing cap n rules rules' with
  | nil => rfl
  | cons rule loaded ih =>
    rcases growRules_drop memory cap n length behind with ⟨failed,failed'⟩ | ⟨cap',tmp,tmp',grew,grew',length',behind'⟩
    · rw [oldEntries_cons,oldEntries_cons,failed,failed']
    · have here : tmp[n]? = tmp'[n]? := by
        have first := congrArg (·[0]?) behind'
        simpa using first
      have rest : tmp.drop (n + 1) = tmp'.drop (n + 1) := by
        have tail := congrArg List.tail behind'
        simpa using tail
      rw [oldEntries_cons,oldEntries_cons,grew,grew']
      simp only [Option.elim_some,here,ih cap' (n + 1) length' rest]

/-- A call copies each rule into its entry and keeps the rules before. -/
theorem loadRules_copies {memory : Realloc} {rules : List (Mem × Mem)} {cap : Nat} {store after : Store} {rc : Int}
    (ready : Ready cap store) (ran : loadRules memory rules cap store = some (after,rc)) :
    Extends store after ((oldEntries memory rules cap store).map fun e => copied e.1 e.2) := by
  induction rules generalizing cap store with
  | nil =>
    cases ran
    exact .refl ready.1
  | cons rule rules ih =>
    rw [oldEntries_cons]
    rcases loadRules_step ready ran with ⟨failed,rfl,_⟩ | ⟨cap',grown,old,grew,found,ready',first,ran⟩
    · rw [failed]
      exact .refl ready.1
    · have same : oldEntries memory rules cap' ⟨grown.rules.set grown.count (copied old rule),grown.count + 1⟩ =
          oldEntries memory rules cap' ⟨grown.rules,grown.count + 1⟩ :=
        oldEntries_drop memory rules cap' _ (by simp) (List.drop_set_of_lt (by omega))
      have rest := ih ready' ran
      rw [same] at rest
      rw [grew,Option.elim_some,found]
      exact first.trans rest

theorem oldEntries_rules (memory : Realloc) (rules : List (Mem × Mem)) (cap : Nat) (store : Store) :
    (oldEntries memory rules cap store).map Prod.snd <+: rules := by
  induction rules generalizing cap store with
  | nil => exact List.nil_prefix
  | cons rule rules ih =>
    rw [oldEntries_cons]
    cases growRules memory cap store with
    | none => exact List.nil_prefix
    | some grown =>
      rw [Option.elim_some]
      cases grown.2.rules[grown.2.count]? with
      | none => exact List.nil_prefix
      | some old => simp [ih]

/-! ### Runs of loads -/

theorem Call.copies {c : Call} {store after : Store} {rc : Int} (inside : store.count ≤ store.rules.length)
    (ran : c.call store = some (after,rc)) : Extends store after ((c.entries store).map fun e => copied e.1 e.2) := by
  obtain ⟨memory,file⟩ := c
  cases file with
  | none =>
    cases ran
    exact .refl inside
  | some file =>
    rw [Call.call,rulesLoadFromFile,rulesLoop_eq] at ran
    exact loadRules_copies ⟨inside,fun zero => absurd rfl zero⟩ ran

theorem loadAll_copies {calls : List Call} {store after : Store} {entries : List (RuleEntry × Mem × Mem)}
    (inside : store.count ≤ store.rules.length) (ran : loadAll calls store = some (after,entries)) :
    Extends store after (entries.map fun e => copied e.1 e.2) ∧ ∀ e ∈ entries,0 ∉ e.2.1 ∧ 0 ∉ e.2.2 := by
  induction calls generalizing store entries with
  | nil =>
    cases ran
    exact ⟨.refl inside,by simp⟩
  | cons c calls ih =>
    obtain ⟨⟨loaded,rc⟩,called,ran⟩ := Option.bind_eq_some_iff.mp ran
    obtain ⟨⟨last,more⟩,rest,same⟩ := Option.map_eq_some_iff.mp ran
    cases same
    have first := Call.copies inside called
    obtain ⟨later,plain⟩ := ih first.2.1 rest
    constructor
    · rw [List.map_append]
      exact first.trans later
    · intro e member
      rcases List.mem_append.mp member with here | behind
      · exact c.rules_plain e.2 ((oldEntries_rules _ _ _ _).subset (List.mem_map_of_mem here))
      · exact plain e behind

/-- The store after a run from the start, and that its texts hold no NUL. -/
theorem loadAll_stored {calls : List Call} {after : Store} {entries : List (RuleEntry × Mem × Mem)}
    (ran : loadAll calls Store.empty = some (after,entries)) :
    after.rules.take after.count = entries.map (fun e => copied e.1 e.2) ∧ ∀ e ∈ entries,0 ∉ e.2.1 ∧ 0 ∉ e.2.2 := by
  obtain ⟨⟨_,_,stored⟩,plain⟩ := loadAll_copies (Nat.le_refl 0) ran
  exact ⟨by simpa [Store.empty] using stored,plain⟩

/-- **After every run of loads each stored rule is self-contained exactly if it closes its fields**, by
    its lengths or by the byte that the memory of its entry held. -/
theorem fields_self_contained {calls : List Call} {after : Store} {entries : List (RuleEntry × Mem × Mem)}
    (ran : loadAll calls Store.empty = some (after,entries)) :
    List.Forall₂ SelfContained (after.rules.take after.count) (entries.map Prod.snd) ↔ ∀ e ∈ entries,Closes e.1 e.2 := by
  obtain ⟨stored,plain⟩ := loadAll_stored ran
  rw [stored,List.forall₂_map_left_iff,List.forall₂_map_right_iff,List.forall₂_same]
  exact forall₂_congr fun e member => copied_self_contained e.1 (plain e member)

/-- Memory from `realloc` whose bytes are all `b`. -/
def filled (b : UInt8) : Realloc := fun _ => some fun _ => ⟨.replicate 256 b,.replicate 128 b⟩

theorem one_rule_loads (b : UInt8) {file : Mem} {rule : Mem × Mem} (one : pieces 511 file = [file])
    (parsed : ruleOf file = some rule) :
    ∃ after,loadAll [⟨filled b,some file⟩] Store.empty = some (after,[(⟨.replicate 256 b,.replicate 128 b⟩,rule)]) := by
  have rules : (Call.mk (filled b) (some file)).rules = [rule] := by simp [Call.rules,one,parsed]
  have entries : (Call.mk (filled b) (some file)).entries Store.empty = [(⟨.replicate 256 b,.replicate 128 b⟩,rule)] := by
    rw [Call.entries,rules]
    rfl
  obtain ⟨after,ran,_⟩ := @loadRules_empty (filled b) (fun _ => rfl) (Call.mk (filled b) (some file)).rules
  have called : (Call.mk (filled b) (some file)).call Store.empty = some (after,0) := by
    rw [Call.call,rulesLoadFromFile,rulesLoop_eq]
    exact ran
  refine ⟨after,?_⟩
  simp [loadAll,called,entries]

/-- A rule whose condition has 255 bytes. -/
def longRule : Mem := ascii "if " ++ List.replicate 255 97 ++ ascii " then b"

theorem longRule_loads (b : UInt8) : ∃ after,loadAll [⟨filled b,some longRule⟩] Store.empty =
    some (after,[(⟨.replicate 256 b,.replicate 128 b⟩,List.replicate 255 97,ascii "b")]) :=
  one_rule_loads b (by decide +kernel) (by decide +kernel)

theorem fields_self_contained_zeroed : ∃ after entries,loadAll [⟨filled 0,some longRule⟩] Store.empty = some (after,entries) ∧
    List.Forall₂ SelfContained (after.rules.take after.count) (entries.map Prod.snd) := by
  obtain ⟨after,ran⟩ := longRule_loads 0
  refine ⟨after,_,ran,(fields_self_contained ran).mpr ?_⟩
  intro e member
  rw [List.mem_singleton.mp member]
  exact ⟨.inr (by simp),.inl (by decide)⟩

/-- A condition of 255 bytes in a block of other bytes than zero runs on into the action. -/
theorem long_condition_open :
    ¬ ∀ (calls : List Call) (after : Store) (entries : List (RuleEntry × Mem × Mem)),
      loadAll calls Store.empty = some (after,entries) →
        List.Forall₂ SelfContained (after.rules.take after.count) (entries.map Prod.snd) := by
  intro always
  obtain ⟨after,ran⟩ := longRule_loads 120
  have fields := always _ after _ ran
  obtain ⟨stored,plain⟩ := loadAll_stored ran
  rw [stored] at fields
  have first := (copied_self_contained _ (plain _ List.mem_cons_self)).mp (List.forall₂_cons.mp fields).1
  rcases first.1 with short | zero
  · rw [List.length_replicate] at short
    omega
  · simp at zero

/-! ### Evaluation -/

/-- Rules of two stores that hold the same texts are evaluated and answered alike. -/
theorem loop_same {store store' : Store} {rules : List (Mem × Mem)}
    (fields : List.Forall₂ SelfContained (store.rules.take store.count) rules)
    (fields' : List.Forall₂ SelfContained (store'.rules.take store'.count) rules) {s : Mem} {len : Nat} (inside : len ≤ s.length)
    (done : Nat → Bool) (n i : Nat) (bounded : i + n ≤ rules.length) (db : Db) (triggers : Int32) (attempts : List Nat) :
    rulesLoopAct done store (some s) len n i db triggers attempts =
      rulesLoopAct done store' (some s) len n i db triggers attempts := by
  induction n generalizing i db triggers attempts with
  | zero => rfl
  | succ n ih =>
    have field : ∀ {store : Store},List.Forall₂ SelfContained (store.rules.take store.count) rules →
        evaluateConditionSimple (some (conditionAt store i)) (some s) len =
            evaluateConditionSimple (some (rules[i].1.take 255 ++ [0])) (some s) len ∧
          cstr (actionAt store i) = some (rules[i].2.take 127) := by
      intro store fields
      have counted := fields.length_eq
      rw [List.length_take] at counted
      have here : i < store.rules.length := by omega
      obtain ⟨⟨condition_ended,condition⟩,action_ended,action⟩ := (List.forall₂_iff_get.mp fields).2 i (by simp; omega) (by omega)
      simp only [List.get_eq_getElem,List.getElem_take] at condition_ended condition action_ended action
      obtain ⟨rest,split⟩ := text_split condition_ended
      constructor
      · rw [conditionAt_eq here,split,List.append_assoc,List.cons_append,evaluate_string (zero_not_mem_text _) _ inside,condition]
      · rw [action_read here action_ended,action]
    obtain ⟨evaluated,action⟩ := field fields
    obtain ⟨evaluated',action'⟩ := field fields'
    have performed : ∀ db,responseEnginePerform (done i) (some (actionAt store i)) (some (ascii "auto" ++ [0]))
          (some (ascii "rule match" ++ [0])) db =
        responseEnginePerform (done i) (some (actionAt store' i)) (some (ascii "auto" ++ [0])) (some (ascii "rule match" ++ [0])) db := by
      intro db
      simp only [responseEnginePerform,action,action']
    have later : ∀ db triggers attempts,rulesLoopAct done store (some s) len n (i + 1) db triggers attempts =
        rulesLoopAct done store' (some s) len n (i + 1) db triggers attempts := ih (i + 1) (by omega)
    simp only [rulesLoopAct,evaluated,evaluated',performed,later]

/-- Evaluation and the recorded alerts depend on the texts of self-contained rules alone, and not on
    what the memory of the two stores held before. -/
theorem rules_same {store store' : Store} {rules : List (Mem × Mem)} (whole : store.count ≤ store.rules.length)
    (whole' : store'.count ≤ store'.rules.length) (fields : List.Forall₂ SelfContained (store.rules.take store.count) rules)
    (fields' : List.Forall₂ SelfContained (store'.rules.take store'.count) rules) {s : Mem} {len : Nat} (inside : len ≤ s.length)
    (done : Nat → Bool) (db : Db) :
    rulesEvaluateAndAct done store (some s) len db = rulesEvaluateAndAct done store' (some s) len db := by
  have counted : store.count = rules.length := by
    rw [← fields.length_eq,List.length_take,Nat.min_eq_left whole]
  have counted' : store'.count = rules.length := by
    rw [← fields'.length_eq,List.length_take,Nat.min_eq_left whole']
  have loop : ∀ store : Store,store.count ≤ store.rules.length → rulesEvaluateAndAct done store (some s) len db =
      rulesLoopAct done store (some s) len store.count 0 db 0 [] := by
    intro store whole
    unfold rulesEvaluateAndAct
    split_ifs with missing
    · rw [missing] at whole
      rw [Nat.le_zero.mp whole]
      rfl
    · rfl
  rw [loop store whole,loop store' whole',counted,counted']
  exact loop_same fields fields' inside done _ 0 (by omega) db 0 []

end Nulleye.RuleFields
