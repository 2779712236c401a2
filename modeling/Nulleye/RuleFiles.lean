import Nulleye.Lines

/-!
The rule store and the loader of rule files. A line is read into a buffer and cut
in place, its condition and action are copied into the next entry of a block that
grows by reallocation. `none` stands for undefined behaviour: a read outside a
buffer, or a rule written outside the block.
-/
namespace Nulleye.RuleFiles
open Nulleye.CStrings Nulleye.Lines

/-- `struct rule_entry`. -/
structure RuleEntry where
  condition : Vector UInt8 256
  action : Vector UInt8 128
  deriving DecidableEq

/-- `g_rules`, empty for NULL, and `g_rules_count`. -/
structure Store where
  rules : List RuleEntry
  count : Nat
  deriving DecidableEq

/-- The store before the first load. -/
def Store.empty : Store := ⟨[],0⟩

/-- What `realloc` does for a number of entries: it fails, or gives memory of unknown contents. -/
abbrev Realloc := Nat → Option (Nat → RuleEntry)

/-- `realloc(g_rules, ncap * sizeof(*tmp))`: what fits of the old block is kept. -/
def realloc (memory : Realloc) (rules : List RuleEntry) (ncap : Nat) : Option (List RuleEntry) :=
  (memory ncap).map fun fresh =>
    rules.take ncap ++ (List.range (ncap - rules.length)).map fun i => fresh (rules.length + i)

/-- `if (p) *p = '\0'`. -/
def cutAt (line : Mem) : Option Nat → Mem
  | some p => line.set p 0
  | none => line

/-- The pointers to the condition and to the action of the line in the buffer, if it is loaded. -/
def ruleLine (line : Mem) : Option (Option (Mem × Mem)) := do
  let line := cutAt line (← strchr 10 line)
  let s ← skipBlank line
  if s.head? = some 0 ∨ s.head? = some 35 then return none
  if !(← begins (ascii "if ") s) then return none
  match ← strstr (ascii " then ") s with
  | none => return none
  | some t =>
    let s := s.set t 0
    let cond := s.drop 3
    let act := s.drop (t + 6)
    if cond.head? = some 0 ∨ act.head? = some 0 then return none
    return some (cond,act)

/-- Copying a condition and an action into entry `count`. -/
def Store.put (store : Store) (cond act : Mem) : Option Store := do
  let old ← store.rules[store.count]?
  let condition ← strncpy 255 cond
  let action ← strncpy 127 act
  return ⟨store.rules.set store.count ⟨overwrite old.condition condition,overwrite old.action action⟩,store.count + 1⟩

/-- Growing the block when entry `count` lies behind the capacity `cap`; `none` if `realloc` fails. -/
def growRules (memory : Realloc) (cap : Nat) (store : Store) : Option (Nat × Store) :=
  if store.count + 1 > cap then
    let ncap := if cap = 0 then 8 else cap * 2
    (realloc memory store.rules ncap).map fun tmp => (ncap,{ store with rules := tmp })
  else some (cap,store)

/-- The loop over the lines; `cap` is the local variable of the function. Of the buffer
    `line` only what `fgets` wrote is given, its terminator the last byte. -/
def rulesLoop (memory : Realloc) : List Mem → Nat → Store → Option (Store × Int)
  | [],_,store => some (store,0)
  | line :: rest,cap,store => do
    match ← ruleLine (line ++ [0]) with
    | none => rulesLoop memory rest cap store
    | some (cond,act) =>
      match growRules memory cap store with
      | none => return (store,-1)
      | some (cap,store) => rulesLoop memory rest cap (← store.put cond act)

/-- `rules_load_from_file`; `file` is `none` if the path is NULL or cannot be opened. -/
def rulesLoadFromFile (memory : Realloc) (file : Option Mem) (store : Store) : Option (Store × Int) :=
  match file with
  | none => some (store,-1)
  | some file => rulesLoop memory (pieces 511 file) 0 store

/-! ### One line -/

/-- The string in the buffer up to its newline. -/
def lineText (piece : Mem) : Mem := (text piece).takeWhile (· ≠ 10)

/-- The condition and the action that a line loads. Behind `if ` the condition goes up to
    the first ` then `, except where that begins with the blank of `if ` itself. -/
def ruleOf (piece : Mem) : Option (Mem × Mem) :=
  let s := (lineText piece).dropWhile isBlank
  if ascii "if " <+: s then
    (firstAt (ascii " then ") s).bind fun t =>
      let cond := if t = 2 then s.drop 3 else (s.take t).drop 3
      let act := s.drop (t + 6)
      if cond = [] ∨ act = [] then none else some (cond,act)
  else none

theorem zero_not_mem_lineText (piece : Mem) : 0 ∉ lineText piece :=
  plain_takeWhile (zero_not_mem_text piece) _

private theorem cutAt_idxOf (line rest : Mem) :
    ∃ behind,cutAt (line ++ 0 :: rest) (line.idxOf? 10) = line.takeWhile (· ≠ 10) ++ 0 :: behind := by
  induction line with
  | nil => exact ⟨rest,rfl⟩
  | cons b line ih =>
    rw [List.idxOf?_cons]
    by_cases newline : b = 10
    · exact ⟨line ++ 0 :: rest,by simp [newline,cutAt]⟩
    · obtain ⟨behind,same⟩ := ih
      refine ⟨behind,?_⟩
      cases found : line.idxOf? 10 <;> simpa [newline,found,cutAt] using same

/-- After the cut the buffer holds the line up to its newline. -/
theorem cut_newline (piece : Mem) :
    ∃ p behind,strchr 10 (piece ++ [0]) = some p ∧ cutAt (piece ++ [0]) p = lineText piece ++ 0 :: behind := by
  obtain ⟨rest,split⟩ := text_ended piece
  obtain ⟨behind,same⟩ := cutAt_idxOf (text piece) rest
  refine ⟨_,behind,?_,split ▸ same⟩
  rw [split,strchr_terminated (by decide) (zero_not_mem_text piece)]

/-- Where ` then ` stands behind `if `, there are at least two bytes before it. -/
theorem two_le_of_found {s : Mem} {t : Nat} (opened : ascii "if " <+: s)
    (found : firstAt (ascii " then ") s = some t) : 2 ≤ t := by
  obtain ⟨tail,rfl⟩ := opened
  obtain ⟨here,_,_⟩ := firstAt_eq_some.mp found
  match t with
  | 0 => simp [ascii,List.cons_prefix_cons] at here
  | 1 => simp [ascii,List.cons_prefix_cons] at here
  | t + 2 => omega

private theorem head_zero {line : Mem} (plain : 0 ∉ line) (rest : Mem) :
    (line ++ 0 :: rest).head? = some 0 ↔ line = [] := by
  cases line with
  | nil => simp
  | cons b line => simpa using (List.ne_of_not_mem_cons plain).symm

/-- The strings at the two pointers after `*then = '\0'`. -/
private theorem cut_then {s : Mem} {t : Nat} (late : 2 ≤ t) (inside : t + 6 ≤ s.length) (behind : Mem) :
    (∃ after,((s ++ 0 :: behind).set t 0).drop 3 = (if t = 2 then s.drop 3 else (s.take t).drop 3) ++ 0 :: after) ∧
      ((s ++ 0 :: behind).set t 0).drop (t + 6) = s.drop (t + 6) ++ 0 :: behind := by
  have cut : (s ++ 0 :: behind).set t 0 = s.take t ++ 0 :: (s.drop (t + 1) ++ 0 :: behind) := by
    rw [List.set_append_left _ _ (by omega),List.set_eq_take_append_cons_drop,if_pos (by omega)]
    simp
  have front : (s.take t).length = t := by simp; omega
  rw [cut]
  constructor
  · by_cases overlap : t = 2
    · refine ⟨behind,?_⟩
      subst overlap
      rw [List.drop_append,front,List.drop_of_length_le (by omega)]
      simp
    · refine ⟨s.drop (t + 1) ++ 0 :: behind,?_⟩
      rw [if_neg overlap,List.drop_append_of_le_length (by omega)]
  · rw [List.drop_append,front,List.drop_of_length_le (by omega)]
    have gap : t + 6 - t = 5 + 1 := by omega
    rw [gap,List.drop_succ_cons,List.drop_append_of_le_length (by simp; omega),List.drop_drop]
    simp

/-- The pointers that a line yields, and the strings at them. -/
theorem ruleLine_eq (piece : Mem) :
    match ruleOf piece with
    | none => ruleLine (piece ++ [0]) = some none
    | some (cond,act) =>
      0 ∉ cond ∧ 0 ∉ act ∧
        ∃ behind after,ruleLine (piece ++ [0]) = some (some (cond ++ 0 :: behind,act ++ 0 :: after)) := by
  obtain ⟨p,behind,searched,cut⟩ := cut_newline piece
  have skipped := @skipBlank_terminated (lineText piece) behind
  have s_plain := plain_dropWhile (zero_not_mem_lineText piece) isBlank
  unfold ruleOf ruleLine
  simp only [searched,cut,skipped,Option.bind_eq_bind,Option.bind_some,Option.pure_def]
  generalize (lineText piece).dropWhile isBlank = s at s_plain ⊢
  rw [begins_terminated (by decide) s_plain,strstr_terminated (by decide) s_plain]
  by_cases opened : ascii "if " <+: s
  · have first : (s ++ 0 :: behind).head? = some 105 := by
      obtain ⟨tail,rfl⟩ := opened
      rfl
    simp only [opened,first,Option.bind_some,if_true]
    cases found : firstAt (ascii " then ") s with
    | none => simp
    | some t =>
      have late := two_le_of_found opened found
      have inside : t + 6 ≤ s.length := by
        have fits := (firstAt_eq_some.mp found).1.length_le
        have six : (ascii " then ").length = 6 := by decide
        rw [six,List.length_drop] at fits
        omega
      obtain ⟨⟨after,cond_eq⟩,act_eq⟩ := cut_then late inside behind
      have cond_plain : 0 ∉ (if t = 2 then s.drop 3 else (s.take t).drop 3) := by
        split_ifs
        · exact plain_drop s_plain 3
        · exact plain_drop (plain_take s_plain t) 3
      have act_plain := plain_drop s_plain (t + 6)
      simp only [Option.bind_some,cond_eq,act_eq,head_zero cond_plain,head_zero act_plain]
      generalize (if t = 2 then s.drop 3 else (s.take t).drop 3) = cond at cond_plain
      generalize s.drop (t + 6) = act at act_plain
      by_cases missing : cond = [] ∨ act = []
      · simp [missing]
      · simp [missing,cond_plain,act_plain]
  · by_cases skip : (s ++ 0 :: behind).head? = some 0 ∨ (s ++ 0 :: behind).head? = some 35 <;> simp [opened]

end Nulleye.RuleFiles
