import Nulleye.ConfigFiles
import Nulleye.RuleStores

/-!
Comment lines in rule files and configuration files. Both parsers look at the first
byte of what one `fgets` returned, so of a comment that does not fit the buffer only
the first piece is skipped, and the pieces behind it are parsed as lines.
-/
namespace Nulleye.CommentLines
open Nulleye.CStrings Nulleye.Lines Nulleye.RuleFiles Nulleye.RuleStores Nulleye.ConfigFiles

/-- A line of a file, up to and with its newline or at the end of the file, whose first byte that is not blank is `#`. -/
structure Comment (before line after : Mem) : Prop where
  starts : Closed before
  ends : (∃ body,10 ∉ body ∧ line = body ++ [10]) ∨ 10 ∉ line ∧ after = []
  hash : ∃ blanks rest,(∀ b ∈ blanks,isBlank b) ∧ line = blanks ++ 35 :: rest

/-- Deleting a line changes neither what a load makes of any store of rules nor the settings. -/
def Inert (before line after : Mem) (settings : Settings) : Prop :=
  (∀ memory store,
    rulesLoadFromFile memory (some (before ++ line ++ after)) store =
      rulesLoadFromFile memory (some (before ++ after)) store) ∧
  configLoad (some (before ++ line ++ after)) settings = configLoad (some (before ++ after)) settings

/-- No piece of the line behind the first 511 bytes holds a rule. -/
def NoRule (line : Mem) : Prop := ∀ piece ∈ (pieces 511 line).tail,ruleOf piece = none

/-- What the pieces of the line behind the first 1023 bytes assign last to a setting is assigned
    again behind the line, or it is the value that the setting has before the line. -/
def NoSetting (before line after : Mem) (settings : Settings) : Prop :=
  ∀ k val,latest k (assignments (pieces 1023 line).tail) = some val →
    (latest k (assignments (pieces 1023 after))).isSome ∨
      Agree k (settings.assign val k)
        ((latest k (assignments (pieces 1023 before))).elim settings fun old => settings.assign old k)

/-! ### The pieces of a comment -/

theorem pieces_around {room : Nat} (positive : 0 < room) {before line after : Mem} (comment : Comment before line after) :
    pieces room (before ++ line ++ after) = pieces room before ++ pieces room line ++ pieces room after ∧
      pieces room (before ++ after) = pieces room before ++ pieces room after := by
  constructor
  · rw [List.append_assoc,pieces_append positive comment.starts,List.append_assoc]
    congr 1
    rcases comment.ends with ⟨body,_,rfl⟩ | ⟨_,rfl⟩
    · exact pieces_append positive (.inr (by simp)) after
    · simp
  · exact pieces_append positive comment.starts after

theorem ruleOf_blank_cons {b : UInt8} (blank : isBlank b) (piece : Mem) : ruleOf (b :: piece) = ruleOf piece := by
  have plain : b ≠ 0 := by rintro rfl; cases blank
  have unbroken : b ≠ 10 := by rintro rfl; cases blank
  have kept : lineText (b :: piece) = b :: lineText piece := by simp [lineText,text_cons,plain,unbroken]
  rw [ruleOf,ruleOf,kept,List.dropWhile_cons_of_pos blank]

theorem assignOf_blank_cons {b : UInt8} (blank : isBlank b) (piece : Mem) : assignOf (b :: piece) = assignOf piece := by
  have plain : b ≠ 0 := by rintro rfl; cases blank
  rw [assignOf,assignOf,text_cons,if_neg plain,List.dropWhile_cons_of_pos blank]

/-- The first piece of a comment is skipped. -/
theorem first_piece {piece blanks rest : Mem} (all_blank : ∀ b ∈ blanks,isBlank b) (front : piece <+: blanks ++ 35 :: rest) :
    ruleOf piece = none ∧ assignOf piece = none := by
  induction blanks generalizing piece with
  | nil =>
    cases piece with
    | nil => exact ⟨rfl,rfl⟩
    | cons b piece =>
      obtain ⟨rfl,_⟩ := List.cons_prefix_cons.mp front
      constructor
      · rfl
      · rfl
  | cons b blanks ih =>
    obtain ⟨blank,rest_blank⟩ := List.forall_mem_cons.mp all_blank
    cases piece with
    | nil => exact ⟨rfl,rfl⟩
    | cons c piece =>
      obtain ⟨rfl,behind⟩ := List.cons_prefix_cons.mp front
      rw [ruleOf_blank_cons blank,assignOf_blank_cons blank]
      exact ih rest_blank behind

/-- What is parsed of a comment comes from the pieces behind its first. -/
theorem parsed_tail {room : Nat} (positive : 0 < room) {before line after : Mem} (comment : Comment before line after) :
    (pieces room line).filterMap ruleOf = (pieces room line).tail.filterMap ruleOf ∧
      assignments (pieces room line) = assignments (pieces room line).tail := by
  obtain ⟨blanks,rest,all_blank,rfl⟩ := comment.hash
  rw [pieces_cons positive (by simp)]
  obtain ⟨no_rule,no_assignment⟩ :=
    first_piece all_blank ⟨_,fgets_append room (blanks ++ 35 :: rest)⟩
  exact ⟨List.filterMap_cons_none no_rule,List.filterMap_cons_none no_assignment⟩

/-! ### Two loads -/

theorem rules_unchanged {before line after : Mem} (comment : Comment before line after) :
    (∀ memory store,
      rulesLoadFromFile memory (some (before ++ line ++ after)) store =
        rulesLoadFromFile memory (some (before ++ after)) store) ↔ NoRule line := by
  obtain ⟨with_line,without_line⟩ := @pieces_around 511 (by decide) before line after comment
  obtain ⟨tail_only,_⟩ := @parsed_tail 511 (by decide) before line after comment
  simp only [rulesLoadFromFile,rulesLoop_eq,with_line,without_line,List.filterMap_append,tail_only]
  constructor
  · intro same
    have succeeds : ∀ n,((fun _ => some fun _ => ⟨.replicate 256 0,.replicate 128 0⟩ : Realloc) n).isSome := fun _ => rfl
    obtain ⟨_,ran,counted,_⟩ := loadRules_empty succeeds
      ((pieces 511 before).filterMap ruleOf ++ (pieces 511 line).tail.filterMap ruleOf ++ (pieces 511 after).filterMap ruleOf)
    obtain ⟨_,ran',counted',_⟩ := loadRules_empty succeeds
      ((pieces 511 before).filterMap ruleOf ++ (pieces 511 after).filterMap ruleOf)
    rw [same,ran'] at ran
    cases ran
    simp only [List.length_append] at counted counted'
    have none_left : ((pieces 511 line).tail.filterMap ruleOf).length = 0 := by omega
    exact List.filterMap_eq_nil_iff.mp (List.length_eq_zero_iff.mp none_left)
  · intro no_rule memory store
    rw [List.filterMap_eq_nil_iff.mpr no_rule,List.append_nil]

theorem settings_unchanged {before line after : Mem} (comment : Comment before line after) (settings : Settings) :
    configLoad (some (before ++ line ++ after)) settings = configLoad (some (before ++ after)) settings ↔
      NoSetting before line after settings := by
  obtain ⟨with_line,without_line⟩ := @pieces_around 1023 (by decide) before line after comment
  obtain ⟨_,tail_only⟩ := @parsed_tail 1023 (by decide) before line after comment
  have parts : ∀ xs ys : List Mem,assignments (xs ++ ys) = assignments xs ++ assignments ys :=
    fun xs ys => List.filterMap_append
  rw [configLoad_eq,configLoad_eq,with_line,without_line,parts,parts,parts,tail_only,NoSetting]
  simp only [Option.some.injEq,Prod.mk.injEq,and_true]
  rw [← agree_all]
  apply forall_congr'
  intro k
  have whole := last_wins k
    (assignments (pieces 1023 before) ++ assignments (pieces 1023 line).tail ++ assignments (pieces 1023 after)) settings
  have deleted := last_wins k (assignments (pieces 1023 before) ++ assignments (pieces 1023 after)) settings
  rw [latest_append,latest_append] at whole
  rw [latest_append] at deleted
  have moved : ∀ {s s' t t'},Agree k s s' → Agree k t t' → (Agree k s t ↔ Agree k s' t') := fun first second =>
    ⟨fun same => agree_trans (agree_symm first) (agree_trans same second),
      fun same => agree_trans first (agree_trans same (agree_symm second))⟩
  rw [moved whole deleted]
  cases again : latest k (assignments (pieces 1023 after)) with
  | some val => simp [agree_refl]
  | none =>
    cases made : latest k (assignments (pieces 1023 line).tail) with
    | none => simp [agree_refl]
    | some val => simp

/-- Deleting a comment line changes nothing exactly if the pieces behind its first neither
    hold a rule nor assign a setting to any effect. -/
theorem comment_inert {before line after : Mem} (comment : Comment before line after) (settings : Settings) :
    Inert before line after settings ↔ NoRule line ∧ NoSetting before line after settings :=
  and_congr (rules_unchanged comment) (settings_unchanged comment settings)

theorem comment_inert_short :
    Inert (ascii "if a then b\n") (ascii "\t# c\n") [] Settings.initial ↔
      NoRule (ascii "\t# c\n") ∧ NoSetting (ascii "if a then b\n") (ascii "\t# c\n") [] Settings.initial :=
  comment_inert ⟨.inr (by decide),.inl ⟨ascii "\t# c",by decide,rfl⟩,[9],ascii " c\n",List.forall_mem_singleton.mpr rfl,rfl⟩
    Settings.initial

/-- A comment of `n` bytes behind its `#`. -/
def filled (n : Nat) : Mem := 35 :: List.replicate n 120

/-- The rule behind a comment that fills the buffer is loaded, although it is in the same line. -/
theorem comment_tail_loaded :
    Comment [] (filled 510 ++ ascii "if a then b") [] ∧
      ¬ Inert [] (filled 510 ++ ascii "if a then b") [] Settings.initial := by
  have unbroken : ∀ n,10 ∉ filled n := fun n => by simp [filled]
  have length : ∀ n,(filled n).length = n + 1 := fun n => by simp [filled]
  have some_byte : ∀ n rest,filled n ++ rest ≠ [] := fun n rest => by simp [filled]
  have last_unbroken : 10 ∉ filled 510 ++ ascii "if a then b" := by
    rw [List.mem_append]
    exact not_or.mpr ⟨unbroken 510,by decide⟩
  have skipped : Comment [] (filled 510 ++ ascii "if a then b") [] :=
    ⟨.inl rfl,.inr ⟨last_unbroken,rfl⟩,[],_,List.forall_mem_nil _,rfl⟩
  refine ⟨skipped,?_⟩
  rintro ⟨same,_⟩
  have no_rule := (rules_unchanged skipped).mp same
  have cut := fgets_full (unbroken 510) (ascii "if a then b")
  rw [length 510] at cut
  rw [NoRule,pieces_cons (by decide) (some_byte _ _),cut] at no_rule
  exact absurd (no_rule (ascii "if a then b") (by decide)) (by decide)

end Nulleye.CommentLines
