import Nulleye.RuleFiles

/-!
Loading several rule files one after the other. The count of rules survives a call
but the capacity that decides about growth does not: every call begins with a
capacity of zero, and its first rule reallocates the block to eight entries,
whatever it holds. A run of loads keeps and extends the store exactly if no file
with rules is loaded into a store of eight rules or more.
-/
namespace Nulleye.RuleStores
open Nulleye.CStrings Nulleye.Lines Nulleye.RuleFiles

/-- What the copies of a condition and an action leave in an entry; its two last bytes are not written. -/
def Holds (entry : RuleEntry) (rule : Mem × Mem) : Prop :=
  entry.condition.toList.take 255 = padded 255 rule.1 ∧ entry.action.toList.take 127 = padded 127 rule.2

/-- An entry after both copies. -/
def copied (old : RuleEntry) (rule : Mem × Mem) : RuleEntry :=
  ⟨overwrite old.condition (padded 255 rule.1),overwrite old.action (padded 127 rule.2)⟩

/-! ### Buffers and blocks -/

theorem copied_holds (old : RuleEntry) (rule : Mem × Mem) : Holds (copied old rule) rule := by
  constructor
  · simpa [copied] using overwrite_take old.condition (padded 255 rule.1) (by simp)
  · simpa [copied] using overwrite_take old.action (padded 127 rule.2) (by simp)

theorem realloc_eq_some {memory : Realloc} {rules tmp : List RuleEntry} {ncap : Nat}
    (moved : realloc memory rules ncap = some tmp) :
    tmp.length = ncap ∧ ∀ n ≤ ncap,n ≤ rules.length → tmp.take n = rules.take n := by
  obtain ⟨fresh,_,rfl⟩ := Option.map_eq_some_iff.mp moved
  constructor
  · simp
    omega
  · intro n inside kept
    rw [List.take_append_of_le_length (by simp; omega),List.take_take,Nat.min_eq_left inside]

theorem put_eq {store : Store} {cond act : Mem} (cond_plain : 0 ∉ cond) (act_plain : 0 ∉ act) (behind after : Mem) :
    store.put (cond ++ 0 :: behind) (act ++ 0 :: after) =
      store.rules[store.count]?.map fun old =>
        ⟨store.rules.set store.count (copied old (cond,act)),store.count + 1⟩ := by
  unfold Store.put
  rw [strncpy_terminated cond_plain,strncpy_terminated act_plain]
  cases store.rules[store.count]? <;> rfl

/-! ### One rule -/

/-- The state in which the loop of a call is: `cap` is the length of the block once the call has grown it. -/
def Ready (cap : Nat) (store : Store) : Prop :=
  store.count ≤ store.rules.length ∧ (cap ≠ 0 → cap = store.rules.length)

/-- A store after one more rule: the entries before it are unchanged. -/
def Extends (before after : Store) (added : List RuleEntry) : Prop :=
  after.count = before.count + added.length ∧ after.count ≤ after.rules.length ∧
    after.rules.take after.count = before.rules.take before.count ++ added

theorem grow_keeps {memory : Realloc} {cap cap' : Nat} {store grown : Store} (ready : Ready cap store)
    (room : cap ≠ 0 ∨ store.count < 8) (grew : growRules memory cap store = some (cap',grown)) :
    grown.count = store.count ∧ cap' = grown.rules.length ∧ store.count < cap' ∧
      grown.rules.take store.count = store.rules.take store.count := by
  obtain ⟨inside,whole⟩ := ready
  unfold growRules at grew
  split_ifs at grew with full zero
  · obtain ⟨tmp,moved,same⟩ := Option.map_eq_some_iff.mp grew
    obtain ⟨length,kept⟩ := realloc_eq_some moved
    cases same
    exact ⟨rfl,length.symm,by omega,kept _ (by omega) inside⟩
  · obtain ⟨tmp,moved,same⟩ := Option.map_eq_some_iff.mp grew
    obtain ⟨length,kept⟩ := realloc_eq_some moved
    cases same
    have cap_whole := whole zero
    exact ⟨rfl,length.symm,by omega,kept _ (by omega) inside⟩
  · cases grew
    exact ⟨rfl,whole (by omega),by omega,rfl⟩

theorem grow_succeeds {memory : Realloc} (succeeds : ∀ n,(memory n).isSome) (cap : Nat) (store : Store) :
    ∃ cap' grown,growRules memory cap store = some (cap',grown) := by
  unfold growRules
  obtain ⟨fresh,found⟩ := Option.isSome_iff_exists.mp (succeeds (if cap = 0 then 8 else cap * 2))
  by_cases full : store.count + 1 > cap
  · simp [full,realloc,found]
  · simp [full]

/-- The first rule of a call gives the block eight entries, whatever the store holds. -/
theorem grow_full {memory : Realloc} {cap' : Nat} {store grown : Store}
    (grew : growRules memory 0 store = some (cap',grown)) : grown.count = store.count ∧ grown.rules.length = 8 := by
  obtain ⟨tmp,moved,_,rfl⟩ : ∃ tmp,realloc memory store.rules 8 = some tmp ∧ 8 = cap' ∧
      { store with rules := tmp } = grown := by
    simpa [growRules] using grew
  exact ⟨rfl,(realloc_eq_some moved).1⟩

theorem copied_extends {store : Store} (inside : store.count < store.rules.length) (rule : Mem × Mem) :
    Extends store ⟨store.rules.set store.count (copied store.rules[store.count] rule),store.count + 1⟩
      [copied store.rules[store.count] rule] := by
  refine ⟨rfl,?_,?_⟩
  · simp only [List.length_set]
    omega
  · rw [List.take_succ_eq_append_getElem (by simpa using inside)]
    simp [List.take_set_of_le]

/-! ### The loop -/

/-- Loading rules that are already parsed. -/
def loadRules (memory : Realloc) : List (Mem × Mem) → Nat → Store → Option (Store × Int)
  | [],_,store => some (store,0)
  | rule :: rest,cap,store =>
    match growRules memory cap store with
    | none => some (store,-1)
    | some (cap,grown) =>
      grown.rules[grown.count]?.bind fun old =>
        loadRules memory rest cap ⟨grown.rules.set grown.count (copied old rule),grown.count + 1⟩

/-- The loop over the lines loads the rules that the lines hold. -/
theorem rulesLoop_eq (memory : Realloc) (lines : List Mem) (cap : Nat) (store : Store) :
    rulesLoop memory lines cap store = loadRules memory (lines.filterMap ruleOf) cap store := by
  induction lines generalizing cap store with
  | nil => rfl
  | cons line rest ih =>
    have read := ruleLine_eq line
    cases loaded : ruleOf line with
    | none =>
      simp only [loaded] at read
      simp [rulesLoop,read,loaded,ih]
    | some rule =>
      obtain ⟨cond,act⟩ := rule
      simp only [loaded] at read
      obtain ⟨cond_plain,act_plain,behind,after,read⟩ := read
      rw [List.filterMap_cons_some loaded]
      simp only [rulesLoop,loadRules,read,Option.bind_eq_bind,Option.bind_some]
      cases growRules memory cap store with
      | none => rfl
      | some grown =>
        simp only [put_eq cond_plain act_plain,Option.bind_map]
        congr 1
        funext old
        exact ih _ _

theorem Extends.refl {store : Store} (inside : store.count ≤ store.rules.length) : Extends store store [] :=
  ⟨rfl,inside,(List.append_nil _).symm⟩

theorem Extends.trans {first second third : Store} {added more : List RuleEntry} (before : Extends first second added)
    (after : Extends second third more) : Extends first third (added ++ more) := by
  obtain ⟨counted,_,kept⟩ := before
  obtain ⟨counted',inside,kept'⟩ := after
  exact ⟨by rw [counted',counted,List.length_append,Nat.add_assoc],inside,by rw [kept',kept,List.append_assoc]⟩

/-- The first rule of a call: its block could not grow, or the rule is copied behind the rules before. -/
theorem loadRules_step {memory : Realloc} {rule : Mem × Mem} {rules : List (Mem × Mem)} {cap : Nat} {store after : Store}
    {rc : Int} (ready : Ready cap store) (ran : loadRules memory (rule :: rules) cap store = some (after,rc)) :
    (growRules memory cap store = none ∧ after = store ∧ rc = -1) ∨
      ∃ cap' grown old,growRules memory cap store = some (cap',grown) ∧ grown.rules[grown.count]? = some old ∧
        Ready cap' ⟨grown.rules.set grown.count (copied old rule),grown.count + 1⟩ ∧
        Extends store ⟨grown.rules.set grown.count (copied old rule),grown.count + 1⟩ [copied old rule] ∧
        loadRules memory rules cap' ⟨grown.rules.set grown.count (copied old rule),grown.count + 1⟩ = some (after,rc) := by
  rw [loadRules] at ran
  cases grew : growRules memory cap store with
  | none =>
    rw [grew] at ran
    cases ran
    exact .inl ⟨rfl,rfl,rfl⟩
  | some grown =>
    obtain ⟨cap',grown⟩ := grown
    rw [grew] at ran
    obtain ⟨old,found,ran⟩ := Option.bind_eq_some_iff.mp ran
    obtain ⟨inside,rfl⟩ := List.getElem?_eq_some_iff.mp found
    have room : cap ≠ 0 ∨ store.count < 8 := by
      by_contra full
      obtain ⟨rfl,many⟩ : cap = 0 ∧ 8 ≤ store.count := by omega
      obtain ⟨count,length⟩ := grow_full grew
      omega
    obtain ⟨count,whole,below,kept⟩ := grow_keeps ready room grew
    have first := copied_extends inside rule
    have moved : Extends store grown [] := ⟨count,Nat.le_of_lt inside,by rw [count,kept,List.append_nil]⟩
    exact .inr ⟨cap',grown,_,rfl,found,⟨first.2.1,fun _ => by simpa using whole⟩,moved.trans first,ran⟩

/-- Whatever a call returns, the rules before it are unchanged, and behind them are the
    rules of the file up to the one at which an allocation failed. -/
theorem loadRules_extends {memory : Realloc} {rules : List (Mem × Mem)} {cap : Nat} {store after : Store} {rc : Int}
    (ready : Ready cap store) (ran : loadRules memory rules cap store = some (after,rc)) :
    ∃ added taken,taken <+: rules ∧ (rc = 0 → taken = rules) ∧ List.Forall₂ Holds added taken ∧
      Extends store after added := by
  induction rules generalizing cap store with
  | nil =>
    cases ran
    exact ⟨[],[],List.nil_prefix,fun _ => rfl,.nil,.refl ready.1⟩
  | cons rule rules ih =>
    rcases loadRules_step ready ran with ⟨_,rfl,rfl⟩ | ⟨cap',grown,old,_,_,ready',first,ran⟩
    · exact ⟨[],[],List.nil_prefix,fun failed => absurd failed (by decide),.nil,.refl ready.1⟩
    · obtain ⟨added,taken,front,whole,matched,extended⟩ := ih ready' ran
      refine ⟨_,rule :: taken,?_,?_,.cons (copied_holds _ _) matched,first.trans extended⟩
      · simpa using front
      · intro success
        rw [whole success]

/-- While the allocations succeed, a call on a store with room for its first rule loads the whole file. -/
theorem loadRules_returns {memory : Realloc} (succeeds : ∀ n,(memory n).isSome) {rules : List (Mem × Mem)} {cap : Nat}
    {store : Store} (ready : Ready cap store) (room : rules = [] ∨ cap ≠ 0 ∨ store.count < 8) :
    ∃ after,loadRules memory rules cap store = some (after,0) := by
  induction rules generalizing cap store with
  | nil => exact ⟨store,rfl⟩
  | cons rule rules ih =>
    have room' : cap ≠ 0 ∨ store.count < 8 := by simpa using room
    obtain ⟨cap',grown,grew⟩ := grow_succeeds succeeds cap store
    obtain ⟨count,whole,below,_⟩ := grow_keeps ready room' grew
    have inside : grown.count < grown.rules.length := by omega
    have first := copied_extends inside rule
    obtain ⟨after,ran⟩ := ih ⟨first.2.1,fun _ => by simpa using whole⟩ (.inr (.inl (by omega)))
    refine ⟨after,?_⟩
    rw [loadRules,grew]
    simpa [List.getElem?_eq_getElem inside] using ran

/-- While the allocations succeed, a call on the empty store loads the whole file. -/
theorem loadRules_empty {memory : Realloc} (succeeds : ∀ n,(memory n).isSome) (rules : List (Mem × Mem)) :
    ∃ after,loadRules memory rules 0 Store.empty = some (after,0) ∧ after.count = rules.length ∧
      List.Forall₂ Holds (after.rules.take after.count) rules := by
  have ready : Ready 0 Store.empty := ⟨Nat.le_refl 0,fun zero => absurd rfl zero⟩
  obtain ⟨after,ran⟩ := @loadRules_returns memory succeeds rules 0 Store.empty ready (.inr (.inr (by decide)))
  obtain ⟨added,taken,_,whole,matched,counted,_,stored⟩ := loadRules_extends ready ran
  rw [whole rfl] at matched
  have kept : after.rules.take after.count = added := by simpa [Store.empty] using stored
  refine ⟨after,ran,?_,kept ▸ matched⟩
  simpa [Store.empty,matched.length_eq] using counted

/-- A call on a store of eight rules or more writes its first rule outside the block. -/
theorem loadRules_outside {memory : Realloc} (succeeds : ∀ n,(memory n).isSome) {rules : List (Mem × Mem)}
    {store : Store} (many : 8 ≤ store.count) (some_rule : rules ≠ []) : loadRules memory rules 0 store = none := by
  cases rules with
  | nil => exact absurd rfl some_rule
  | cons rule rules =>
    obtain ⟨cap',grown,grew⟩ := grow_succeeds succeeds 0 store
    obtain ⟨count,length⟩ := grow_full grew
    rw [loadRules,grew]
    simp [List.getElem?_eq_none (show grown.rules.length ≤ grown.count by omega)]

/-! ### Runs of loads -/

/-- One call: what the memory that `realloc` gives holds, and the file. -/
structure Load where
  contents : Nat → Nat → RuleEntry
  file : Option Mem

/-- The call on a store, all its allocations succeeding. -/
def Load.call (l : Load) (store : Store) : Option (Store × Int) :=
  rulesLoadFromFile (fun ncap => some (l.contents ncap)) l.file store

/-- The rules parsed from the file. -/
def Load.rules (l : Load) : List (Mem × Mem) := ((l.file.map (pieces 511)).getD []).filterMap ruleOf

/-- Every call of a run writes its rules inside the block, leaves the rules before them
    unchanged and in order, and adds the rules of its file behind them. -/
def Kept : Store → List Load → Prop
  | _,[] => True
  | store,l :: loads => ∃ after rc added,
      l.call store = some (after,rc) ∧ List.Forall₂ Holds added l.rules ∧ Extends store after added ∧ Kept after loads

/-- A call with rules to load and no room for them leaves the block; any other call keeps the store. -/
theorem call_cases (l : Load) {store : Store} (inside : store.count ≤ store.rules.length) :
    if l.rules = [] ∨ store.count < 8 then
      ∃ after rc added,l.call store = some (after,rc) ∧ List.Forall₂ Holds added l.rules ∧ Extends store after added
    else l.call store = none := by
  obtain ⟨contents,file⟩ := l
  have succeeds : ∀ n,((fun ncap => some (contents ncap) : Realloc) n).isSome := fun _ => rfl
  have ready : Ready 0 store := ⟨inside,fun zero => absurd rfl zero⟩
  cases file with
  | none => exact ⟨store,-1,[],rfl,.nil,.refl inside⟩
  | some file =>
    rw [Load.call,rulesLoadFromFile,rulesLoop_eq]
    by_cases room : (Load.mk contents (some file)).rules = [] ∨ store.count < 8
    · rw [if_pos room]
      obtain ⟨after,ran⟩ := loadRules_returns succeeds ready (room.imp_right .inr)
      obtain ⟨added,taken,_,whole,matched,extended⟩ := loadRules_extends ready ran
      rw [whole rfl] at matched
      exact ⟨after,0,added,ran,matched,extended⟩
    · rw [if_neg room]
      obtain ⟨some_rule,many⟩ := not_or.mp room
      exact loadRules_outside succeeds (Nat.le_of_not_lt many) some_rule

private theorem kept_iff (loads : List Load) {store : Store} (inside : store.count ≤ store.rules.length) :
    Kept store loads ↔
      ∀ before l after,loads = before ++ l :: after →
        l.rules = [] ∨ store.count + (before.flatMap Load.rules).length < 8 := by
  induction loads generalizing store with
  | nil => simp [Kept]
  | cons l loads ih =>
    have call := call_cases l inside
    by_cases room : l.rules = [] ∨ store.count < 8
    · rw [if_pos room] at call
      obtain ⟨after,rc,added,ran,matched,extended⟩ := call
      have later : Kept store (l :: loads) ↔ Kept after loads := by
        constructor
        · rintro ⟨after',rc',_,ran',_,_,kept⟩
          cases ran.symm.trans ran'
          exact kept
        · exact fun kept => ⟨after,rc,added,ran,matched,extended,kept⟩
      obtain ⟨counted,after_inside,_⟩ := extended
      rw [later,ih after_inside,counted,matched.length_eq]
      constructor
      · intro rest before l' behind split
        cases before with
        | nil =>
          cases split
          simpa using room
        | cons first before =>
          cases split
          simpa [Nat.add_assoc] using rest before l' behind rfl
      · rintro all before l' behind rfl
        simpa [Nat.add_assoc] using all (l :: before) l' behind rfl
    · rw [if_neg room] at call
      constructor
      · rintro ⟨_,_,_,ran,_⟩
        cases call.symm.trans ran
      · intro all
        exact absurd (by simpa using all [] l loads rfl) room

/-- A run of loads keeps its rules exactly if every file with rules is loaded when the
    files before it hold fewer than eight rules together. -/
theorem loads_keep_rules (loads : List Load) :
    Kept Store.empty loads ↔
      ∀ before l after,loads = before ++ l :: after → l.rules = [] ∨ (before.flatMap Load.rules).length < 8 := by
  have counted := @kept_iff loads Store.empty (Nat.le_refl 0)
  simpa [Store.empty] using counted

/-- Eight rules and then one more: the ninth is written behind a block of eight entries. -/
theorem second_load_overruns :
    ¬ Kept Store.empty
      [⟨fun _ _ => ⟨.replicate 256 0,.replicate 128 0⟩,some (unlines (List.replicate 8 (ascii "if a then b")))⟩,
        ⟨fun _ _ => ⟨.replicate 256 0,.replicate 128 0⟩,some (ascii "if c then d")⟩] := by
  intro kept
  have bounded := (kept_iff _ (Nat.le_refl 0)).mp kept [_] _ [] rfl
  revert bounded
  decide

end Nulleye.RuleStores
