import Nulleye.RuleStores
import Mathlib.Data.List.Forall2

/-!
What the loader makes of the lines that a rule file is documented to consist of, and
of the lines that it is not. Blank lines, comments and rules load exactly. The first
` then ` is searched from the beginning of the line while the condition begins at a
fixed offset, so `if then` loads a rule whose condition is the rest of the line.
-/
namespace Nulleye.RuleSyntax
open Nulleye.CStrings Nulleye.Lines Nulleye.RuleFiles Nulleye.RuleStores

/-- The lines of a well-formed rule file. -/
inductive Line where
  | blank (blanks : Mem)
  | comment (blanks rest : Mem)
  | rule (blanks cond act : Mem)

/-- The bytes of a line without its newline. -/
def Line.bytes : Line → Mem
  | .blank blanks => blanks
  | .comment blanks rest => blanks ++ ascii "#" ++ rest
  | .rule blanks cond act => blanks ++ (ascii "if " ++ cond ++ ascii " then " ++ act)

/-- The rule that a line holds. -/
def Line.rule? : Line → Option (Mem × Mem)
  | .rule _ cond act => some (cond,act)
  | _ => none

/-- At most 510 bytes without NUL and newline, and for a rule that its parts fit their
    buffers and ` then ` does not occur before the one that ends the condition. -/
def Line.WellFormed (line : Line) : Prop :=
  0 ∉ line.bytes ∧ 10 ∉ line.bytes ∧ line.bytes.length ≤ 510 ∧
    match line with
    | .blank blanks | .comment blanks _ => ∀ b ∈ blanks,isBlank b
    | .rule blanks cond act =>
      (∀ b ∈ blanks,isBlank b) ∧ 1 ≤ cond.length ∧ cond.length ≤ 254 ∧ 1 ≤ act.length ∧ act.length ≤ 126 ∧
        ∀ i < 3 + cond.length,¬ ascii " then " <+: (ascii "if " ++ cond ++ ascii " then " ++ act).drop i

/-- The condition and the action of an entry as the strings that its buffers hold. -/
def texts (entry : RuleEntry) : Option Mem × Option Mem := (cstr entry.condition.toList,cstr entry.action.toList)

/-! ### Lines in the buffer -/

theorem lineText_plain {line : Mem} (plain : 0 ∉ line) (unbroken : 10 ∉ line) : lineText line = line := by
  rw [lineText,text_plain plain]
  apply List.takeWhile_eq_self_iff.mpr
  intro b inside
  have different : b ≠ 10 := fun same => unbroken (same ▸ inside)
  simpa using different

theorem lineText_newline {line : Mem} (plain : 0 ∉ line) (unbroken : 10 ∉ line) : lineText (line ++ [10]) = line := by
  have whole : text (line ++ [10]) = line ++ [10] := text_plain (by simp [plain])
  have kept := lineText_plain plain unbroken
  rw [lineText,text_plain plain] at kept
  rw [lineText,whole,List.takeWhile_append_of_pos (fun b inside => List.takeWhile_eq_self_iff.mp kept b inside)]
  simp

theorem ruleOf_newline {line : Mem} (plain : 0 ∉ line) (unbroken : 10 ∉ line) : ruleOf (line ++ [10]) = ruleOf line := by
  rw [ruleOf,ruleOf,lineText_newline plain unbroken,lineText_plain plain unbroken]

/-- A line that begins with `if ` behind its blanks. -/
theorem ruleOf_opened {blanks s : Mem} (all_blank : ∀ b ∈ blanks,isBlank b) (plain : 0 ∉ blanks ++ s)
    (unbroken : 10 ∉ blanks ++ s) (opened : ascii "if " <+: s) :
    ruleOf (blanks ++ s) =
      (firstAt (ascii " then ") s).bind fun t =>
        let cond := if t = 2 then s.drop 3 else (s.take t).drop 3
        let act := s.drop (t + 6)
        if cond = [] ∨ act = [] then none else some (cond,act) := by
  have kept : s.dropWhile isBlank = s := by
    obtain ⟨tail,rfl⟩ := opened
    rfl
  rw [ruleOf,lineText_plain plain unbroken,List.dropWhile_append_of_pos all_blank,kept]
  exact if_pos opened

/-- Where ` then ` first stands behind the blank of `if `, the line is cut into its parts. -/
theorem split_then {s : Mem} {t : Nat} (opened : ascii "if " <+: s) (late : 3 ≤ t)
    (found : firstAt (ascii " then ") s = some t) :
    s = ascii "if " ++ (s.take t).drop 3 ++ ascii " then " ++ s.drop (t + 6) := by
  obtain ⟨⟨rest,split⟩,_,_⟩ := firstAt_eq_some.mp found
  have behind : s.drop (t + 6) = rest := by
    rw [← List.drop_drop,← split]
    rfl
  have front : (s.take t).take 3 = ascii "if " := by
    rw [List.take_take,Nat.min_eq_left late]
    exact (List.prefix_iff_eq_take.mp opened).symm
  calc s = s.take t ++ s.drop t := (List.take_append_drop t s).symm
    _ = (s.take t).take 3 ++ (s.take t).drop 3 ++ s.drop t := by rw [List.take_append_drop 3]
    _ = ascii "if " ++ (s.take t).drop 3 ++ ascii " then " ++ s.drop (t + 6) := by
      rw [front,behind,← split,List.append_assoc _ (ascii " then ")]

/-- Where it stands at the blank of `if `, the rest of the line is behind it. -/
theorem split_overlap {s : Mem} (opened : ascii "if " <+: s) (found : firstAt (ascii " then ") s = some 2) :
    s = ascii "if then " ++ s.drop 8 := by
  obtain ⟨tail,rfl⟩ := opened
  obtain ⟨⟨rest,split⟩,_,_⟩ := firstAt_eq_some.mp found
  have same : (ascii "if " ++ tail) = ascii "if" ++ (ascii "if " ++ tail).drop 2 := rfl
  rw [same,← split]
  rfl

/-- A rule is loaded from a line that begins with `if ` behind its blanks and has a ` then ` behind that. -/
theorem ruleOf_eq_some {line cond act : Mem} (plain : 0 ∉ line) (unbroken : 10 ∉ line)
    (loaded : ruleOf line = some (cond,act)) :
    ∃ blanks s t,(∀ b ∈ blanks,isBlank b) ∧ line = blanks ++ s ∧ ascii "if " <+: s ∧
      firstAt (ascii " then ") s = some t ∧ cond = (if t = 2 then s.drop 3 else (s.take t).drop 3) ∧
      act = s.drop (t + 6) ∧ cond ≠ [] ∧ act ≠ [] := by
  rw [ruleOf,lineText_plain plain unbroken] at loaded
  have split := (List.takeWhile_append_dropWhile (p := isBlank) (l := line)).symm
  generalize line.dropWhile isBlank = s at loaded split
  dsimp only at loaded
  by_cases opened : ascii "if " <+: s
  · rw [if_pos opened] at loaded
    obtain ⟨t,found,loaded⟩ := Option.bind_eq_some_iff.mp loaded
    by_cases missing : (if t = 2 then s.drop 3 else (s.take t).drop 3) = [] ∨ s.drop (t + 6) = []
    · rw [if_pos missing] at loaded
      cases loaded
    · rw [if_neg missing] at loaded
      cases loaded
      obtain ⟨cond_some,act_some⟩ := not_or.mp missing
      exact ⟨_,s,t,fun b inside => List.mem_takeWhile_imp inside,split,opened,found,rfl,rfl,cond_some,act_some⟩
  · rw [if_neg opened] at loaded
    cases loaded

/-! ### Well-formed files -/

theorem ruleOf_wellFormed {line : Line} (ok : line.WellFormed) : ruleOf line.bytes = line.rule? := by
  obtain ⟨plain,unbroken,_,parts⟩ := ok
  cases line with
  | blank blanks =>
    have empty : blanks.dropWhile isBlank = [] := List.dropWhile_eq_nil_iff.mpr parts
    simp [Line.bytes] at plain unbroken
    simp [ruleOf,Line.bytes,Line.rule?,lineText_plain plain unbroken,empty,ascii]
  | comment blanks rest =>
    simp only [Line.bytes,List.append_assoc] at plain unbroken ⊢
    rw [ruleOf,lineText_plain plain unbroken,List.dropWhile_append_of_pos parts]
    rfl
  | rule blanks cond act =>
    obtain ⟨all_blank,cond_some,_,act_some,_,first⟩ := parts
    have front : (ascii "if " ++ cond).length = 3 + cond.length := by simp [ascii]; omega
    have found : firstAt (ascii " then ") (ascii "if " ++ cond ++ ascii " then " ++ act) = some (3 + cond.length) := by
      rw [firstAt_eq_some]
      refine ⟨?_,by simp [ascii]; omega,first⟩
      rw [← front,List.append_assoc,List.drop_left]
      exact List.prefix_append _ _
    have opened : ascii "if " <+: ascii "if " ++ cond ++ ascii " then " ++ act := by
      rw [List.append_assoc,List.append_assoc]
      exact List.prefix_append _ _
    have cond_eq : ((ascii "if " ++ cond ++ ascii " then " ++ act).take (3 + cond.length)).drop 3 = cond := by
      rw [← front,List.append_assoc,List.take_left]
      rfl
    have act_eq : (ascii "if " ++ cond ++ ascii " then " ++ act).drop (3 + cond.length + 6) = act := by
      rw [← front,← List.drop_drop,List.append_assoc,List.drop_left]
      rfl
    have both : ¬ (cond = [] ∨ act = []) := by
      rintro (rfl | rfl)
      · simp at cond_some
      · simp at act_some
    have late : ¬ 3 + cond.length = 2 := by omega
    rw [Line.bytes,ruleOf_opened all_blank plain unbroken opened,found,Option.bind_some]
    dsimp only
    rw [if_neg late,cond_eq,act_eq,if_neg both,Line.rule?]

theorem texts_of_holds {entry : RuleEntry} {cond act : Mem} (holds : Holds entry (cond,act)) (cond_plain : 0 ∉ cond)
    (act_plain : 0 ∉ act) (cond_fits : cond.length ≤ 254) (act_fits : act.length ≤ 126) :
    texts entry = (some cond,some act) := by
  obtain ⟨condition,action⟩ := holds
  have read : ∀ {n : Nat} {line buffer : Mem},0 ∉ line → line.length < n → buffer.take n = padded n line →
      cstr buffer = some line := by
    intro n line buffer plain fits copied
    obtain ⟨zeros,more⟩ : ∃ zeros,n - line.length = zeros + 1 := ⟨n - line.length - 1,by omega⟩
    have split : buffer = line ++ 0 :: (List.replicate zeros 0 ++ buffer.drop n) := by
      have front := List.take_append_drop n buffer
      rw [copied,padded,List.take_of_length_le (by omega),more,List.replicate_succ] at front
      simpa using front.symm
    rw [split,cstr_terminated plain]
  rw [texts,read cond_plain (by omega) condition,read act_plain (by omega) action]

theorem texts_of_forall {added : List RuleEntry} {rules : List (Mem × Mem)} (matched : List.Forall₂ Holds added rules)
    (fits : ∀ cond act,(cond,act) ∈ rules → 0 ∉ cond ∧ 0 ∉ act ∧ cond.length ≤ 254 ∧ act.length ≤ 126) :
    added.map texts = rules.map fun (cond,act) => (some cond,some act) := by
  induction matched with
  | nil => rfl
  | cons holds _ ih =>
    obtain ⟨cond_plain,act_plain,cond_fits,act_fits⟩ := fits _ _ List.mem_cons_self
    rw [List.map_cons,List.map_cons,texts_of_holds holds cond_plain act_plain cond_fits act_fits,
      ih fun cond act held => fits cond act (List.mem_cons_of_mem _ held)]

theorem rule_fits {lines : List Line} (ok : ∀ line ∈ lines,line.WellFormed) {cond act : Mem}
    (held : (cond,act) ∈ lines.filterMap Line.rule?) :
    0 ∉ cond ∧ 0 ∉ act ∧ cond.length ≤ 254 ∧ act.length ≤ 126 := by
  obtain ⟨line,member,same⟩ := List.mem_filterMap.mp held
  obtain ⟨plain,_,_,parts⟩ := ok line member
  cases line with
  | blank => cases same
  | comment => cases same
  | rule blanks cond act =>
    cases same
    obtain ⟨_,_,cond_fits,_,act_fits,_⟩ := parts
    simp only [Line.bytes,List.mem_append,not_or] at plain
    exact ⟨plain.2.1.1.2,plain.2.2,cond_fits,act_fits⟩

/-- A file of lines that fit the buffer holds the rules of its lines. -/
theorem rules_joined {lines : List Mem} (newline : Bool)
    (ok : ∀ line ∈ lines,0 ∉ line ∧ 10 ∉ line ∧ line.length ≤ 510) :
    (pieces 511 (joined lines newline)).filterMap ruleOf = lines.filterMap ruleOf :=
  pieces_joined (fun line member => (ok line member).2.1)
    (fun line member => Nat.lt_succ_of_le (ok line member).2.2) (by decide) newline
    (fun line member => ruleOf_newline (ok line member).1 (ok line member).2.1) rfl

/-- A well-formed rule file loads exactly: its rules are in the store in their order,
    each as two terminated strings. -/
theorem well_formed_file_loads (contents : Nat → Nat → RuleEntry) (lines : List Line) (newline : Bool)
    (ok : ∀ line ∈ lines,line.WellFormed) :
    ∃ after,
      rulesLoadFromFile (fun ncap => some (contents ncap)) (some (joined (lines.map Line.bytes) newline)) Store.empty =
        some (after,0) ∧
      after.count = (lines.filterMap Line.rule?).length ∧
      (after.rules.take after.count).map texts =
        (lines.filterMap Line.rule?).map fun (cond,act) => (some cond,some act) := by
  have each : ∀ bytes ∈ lines.map Line.bytes,0 ∉ bytes ∧ 10 ∉ bytes ∧ bytes.length ≤ 510 := by
    intro bytes inside
    obtain ⟨line,member,rfl⟩ := List.mem_map.mp inside
    obtain ⟨plain,unbroken,fits,_⟩ := ok line member
    exact ⟨plain,unbroken,fits⟩
  have parsed : (pieces 511 (joined (lines.map Line.bytes) newline)).filterMap ruleOf = lines.filterMap Line.rule? := by
    rw [rules_joined newline each,List.filterMap_map]
    exact List.filterMap_congr fun line member => ruleOf_wellFormed (ok line member)
  obtain ⟨after,ran,counted,matched⟩ :=
    @loadRules_empty (fun ncap => some (contents ncap)) (fun _ => rfl) (lines.filterMap Line.rule?)
  exact ⟨after,by rw [rulesLoadFromFile,rulesLoop_eq,parsed,ran],counted,
    texts_of_forall matched fun cond act held => rule_fits ok held⟩

theorem well_formed_file_loads_two :
    ∃ after,
      rulesLoadFromFile (fun _ => some fun _ => ⟨.replicate 256 0,.replicate 128 0⟩)
        (some (ascii "# alerts\n\tif contains('ssh') then notify")) Store.empty = some (after,0) ∧ after.count = 1 ∧
      (after.rules.take after.count).map texts = [(some (ascii "contains('ssh')"),some (ascii "notify"))] :=
  well_formed_file_loads (fun _ _ => ⟨.replicate 256 0,.replicate 128 0⟩)
    [.comment [] (ascii " alerts"),.rule [9] (ascii "contains('ssh')") (ascii "notify")] false (by
      intro line member
      rcases List.mem_pair.mp member with rfl | rfl
      · exact ⟨by decide,by decide,by decide,List.forall_mem_nil _⟩
      · exact ⟨by decide,by decide,by decide,List.forall_mem_singleton.mpr rfl,by decide,by decide,by decide,by decide,by decide⟩)

/-! ### Malformed lines -/

/-- A line of the documented form, with the condition and the action between and behind its keywords. -/
def Documented (line cond act : Mem) : Prop :=
  ∃ blanks,(∀ b ∈ blanks,isBlank b) ∧ cond ≠ [] ∧ act ≠ [] ∧
    line = blanks ++ (ascii "if " ++ cond ++ ascii " then " ++ act)

/-- Whether the loader takes a rule from a line. -/
def arms (line : Mem) : Bool := (ruleLine (line ++ [0])).join.isSome

/-- The strings that were copied into an entry are those of a documented line, cut to their buffers. -/
def ComesFrom (entry : RuleEntry) (line : Mem) : Prop :=
  ∃ cond act,Documented line cond act ∧ text (entry.condition.toList.take 255) <+: cond ∧
    text (entry.action.toList.take 127) <+: act

/-- Whatever a call adds to a store comes, rule by rule, from the lines of the file of
    which it takes rules, and it takes none from a line that is not of the documented form. -/
def Faithful (lines : List Mem) (newline : Bool) : Prop :=
  (∀ memory store after rc,store.count ≤ store.rules.length →
    rulesLoadFromFile memory (some (joined lines newline)) store = some (after,rc) →
    ∃ added loaded,loaded <+: lines.filter arms ∧ (rc = 0 → loaded = lines.filter arms) ∧
      List.Forall₂ ComesFrom added loaded ∧ Extends store after added) ∧
  ∀ line ∈ lines,(∀ cond act,¬ Documented line cond act) → arms line = false

/-- Behind its blanks a line begins with `if then ` and goes on. It is excepted when a
    later ` then ` ends a condition of at least 255 bytes and the action behind that begins
    with the 127 bytes behind the first: what is copied is then also of the documented form. -/
def Overlaps (line : Mem) : Prop :=
  ∃ blanks rest,(∀ b ∈ blanks,isBlank b) ∧ rest ≠ [] ∧ line = blanks ++ (ascii "if then " ++ rest) ∧
    ¬ ∃ cond act,act ≠ [] ∧ rest = cond ++ ascii " then " ++ act ∧ 250 ≤ cond.length ∧ rest.take 127 <+: act

theorem arms_eq (line : Mem) : arms line = (ruleOf line).isSome := by
  have read := ruleLine_eq line
  cases loaded : ruleOf line with
  | none =>
    rw [loaded] at read
    simp [arms,read]
  | some rule =>
    rw [loaded] at read
    obtain ⟨_,_,behind,after,read⟩ := read
    simp [arms,read]

/-- The lines of which rules are taken, and these rules. -/
theorem forall_arms (lines : List Mem) :
    List.Forall₂ (fun rule line => ruleOf line = some rule) (lines.filterMap ruleOf) (lines.filter arms) := by
  induction lines with
  | nil => exact .nil
  | cons line lines ih =>
    cases loaded : ruleOf line with
    | none => simpa [loaded,arms_eq] using ih
    | some rule => simpa [loaded,arms_eq] using ih

/-- The rule of a line is of the documented form as far as it is copied. -/
def Good (line : Mem) : Prop :=
  ∀ rule ∈ ruleOf line,∃ cond act,Documented line cond act ∧ rule.1.take 255 <+: cond ∧ rule.2.take 127 <+: act

theorem comesFrom_iff {entry : RuleEntry} {line : Mem} {rule : Mem × Mem} (plain : 0 ∉ rule.1 ∧ 0 ∉ rule.2)
    (holds : Holds entry rule) :
    ComesFrom entry line ↔
      ∃ cond act,Documented line cond act ∧ rule.1.take 255 <+: cond ∧ rule.2.take 127 <+: act := by
  obtain ⟨condition,action⟩ := holds
  rw [ComesFrom,condition,action,text_padded plain.1,text_padded plain.2]

theorem ruleOf_overlap {blanks rest : Mem} (all_blank : ∀ b ∈ blanks,isBlank b) (some_rest : rest ≠ [])
    (plain : 0 ∉ blanks ++ (ascii "if then " ++ rest)) (unbroken : 10 ∉ blanks ++ (ascii "if then " ++ rest)) :
    ruleOf (blanks ++ (ascii "if then " ++ rest)) = some (ascii "then " ++ rest,rest) := by
  have found : firstAt (ascii " then ") (ascii "if then " ++ rest) = some 2 := by
    rw [firstAt_eq_some]
    refine ⟨⟨rest,rfl⟩,by simp [ascii],?_⟩
    intro j early
    rcases j with _ | _ | j
    · simp [ascii,List.cons_prefix_cons]
    · simp [ascii,List.cons_prefix_cons]
    · omega
  rw [ruleOf_opened all_blank plain unbroken ⟨ascii "then " ++ rest,rfl⟩,found]
  have parts : ¬ ((ascii "if then " ++ rest).drop 3 = [] ∨ (ascii "if then " ++ rest).drop 8 = []) := by
    rintro (missing | missing)
    · cases missing
    · exact some_rest missing
  exact if_neg parts

theorem good_iff {line : Mem} (plain : 0 ∉ line) (unbroken : 10 ∉ line) : Good line ↔ ¬ Overlaps line := by
  constructor
  · rintro good ⟨blanks,rest,all_blank,some_rest,rfl,unlike⟩
    obtain ⟨cond,act,⟨blanks',all_blank',_,act_some,split⟩,cond_front,act_front⟩ :=
      good _ (ruleOf_overlap all_blank some_rest plain unbroken)
    have same : ascii "then " ++ rest = cond ++ (ascii " then " ++ act) := by
      have stripped := congrArg (List.dropWhile isBlank) split
      rw [List.dropWhile_append_of_pos all_blank,List.dropWhile_append_of_pos all_blank',
        List.append_assoc,List.append_assoc] at stripped
      exact List.append_cancel_left (show ascii "if " ++ _ = ascii "if " ++ _ from stripped)
    have long : 255 ≤ cond.length := by
      have fits := cond_front.length_le
      rw [same] at fits
      simp [ascii] at fits
      omega
    have head : cond.take 5 = ascii "then " := by
      have front := congrArg (List.take 5) same
      rw [List.take_append_of_le_length (by omega : 5 ≤ cond.length)] at front
      exact front.symm
    have tail : rest = cond.drop 5 ++ ascii " then " ++ act := by
      have behind := congrArg (List.drop 5) same
      rw [List.drop_append_of_le_length (by omega : 5 ≤ cond.length),← List.append_assoc] at behind
      exact behind
    exact unlike ⟨cond.drop 5,act,act_some,tail,by simp; omega,act_front⟩
  · intro apart rule loaded
    obtain ⟨blanks,s,t,all_blank,rfl,opened,found,cond_eq,act_eq,cond_some,act_some⟩ :=
      ruleOf_eq_some plain unbroken loaded
    by_cases overlap : t = 2
    · subst overlap
      have split := split_overlap opened found
      by_contra unlike
      apply apart
      refine ⟨blanks,s.drop 8,all_blank,act_eq ▸ act_some,by rw [← split],?_⟩
      rintro ⟨cond,act,some_act,later,long,front⟩
      have whole : s.drop 3 = (ascii "then " ++ cond) ++ (ascii " then " ++ act) := by
        rw [split,later]
        simp [ascii]
      refine unlike ⟨ascii "then " ++ cond,act,⟨blanks,all_blank,by simp [ascii],some_act,?_⟩,?_,?_⟩
      · rw [split,later]
        simp [ascii]
      · rw [cond_eq,if_pos rfl,whole,List.take_append_of_le_length (by simp [ascii]; omega)]
        exact List.take_prefix _ _
      · rw [act_eq]
        exact front
    · have late := two_le_of_found opened found
      have split := split_then opened (by omega) found
      rw [if_neg overlap] at cond_eq
      rw [← cond_eq,← act_eq] at split
      exact ⟨rule.1,rule.2,⟨blanks,all_blank,cond_some,act_some,by rw [← split]⟩,List.take_prefix _ _,List.take_prefix _ _⟩

theorem comes_of_holds {added : List RuleEntry} {rules : List (Mem × Mem)} {loaded : List Mem}
    (held : List.Forall₂ Holds added rules) (taken : List.Forall₂ (fun rule line => ruleOf line = some rule) rules loaded)
    (plain : ∀ rule ∈ rules,0 ∉ rule.1 ∧ 0 ∉ rule.2) (good : ∀ line ∈ loaded,Good line) :
    List.Forall₂ ComesFrom added loaded := by
  induction held generalizing loaded with
  | nil =>
    cases taken
    exact .nil
  | cons holds _ ih =>
    cases taken with
    | cons found rest =>
      obtain ⟨rule_plain,rules_plain⟩ := List.forall_mem_cons.mp plain
      obtain ⟨line_good,lines_good⟩ := List.forall_mem_cons.mp good
      exact .cons ((comesFrom_iff rule_plain holds).mpr (line_good _ found)) (ih rest rules_plain lines_good)

theorem good_of_comes {added : List RuleEntry} {rules : List (Mem × Mem)} {loaded : List Mem}
    (held : List.Forall₂ Holds added rules) (taken : List.Forall₂ (fun rule line => ruleOf line = some rule) rules loaded)
    (plain : ∀ rule ∈ rules,0 ∉ rule.1 ∧ 0 ∉ rule.2) (comes : List.Forall₂ ComesFrom added loaded) :
    ∀ line ∈ loaded,Good line := by
  induction held generalizing loaded with
  | nil =>
    cases taken
    simp
  | cons holds _ ih =>
    cases taken with
    | cons found rest =>
      cases comes with
      | cons first later =>
        obtain ⟨rule_plain,rules_plain⟩ := List.forall_mem_cons.mp plain
        refine List.forall_mem_cons.mpr ⟨?_,ih rest rules_plain later⟩
        intro rule loaded
        cases found.symm.trans loaded
        exact (comesFrom_iff rule_plain holds).mp first

theorem rules_plain (lines : List Mem) : ∀ rule ∈ lines.filterMap ruleOf,0 ∉ rule.1 ∧ 0 ∉ rule.2 := by
  intro rule held
  obtain ⟨line,_,loaded⟩ := List.mem_filterMap.mp held
  have read := ruleLine_eq line
  rw [loaded] at read
  exact ⟨read.1,read.2.1⟩

/-- A call on the empty store takes a rule from every line that has one, so that each
    of them must be of the documented form. -/
theorem good_of_faithful {lines : List Mem} {newline : Bool}
    (ok : ∀ line ∈ lines,0 ∉ line ∧ 10 ∉ line ∧ line.length ≤ 510) (faithful : Faithful lines newline) :
    ∀ line ∈ lines,Good line := by
  obtain ⟨after,ran,_,held⟩ :=
    @loadRules_empty (fun _ => some fun _ => ⟨.replicate 256 0,.replicate 128 0⟩) (fun _ => rfl) (lines.filterMap ruleOf)
  obtain ⟨added,loaded,_,whole,comes,_,_,stored⟩ := faithful.1 _ Store.empty after 0 (Nat.le_refl 0)
    (by rw [rulesLoadFromFile,rulesLoop_eq,rules_joined newline ok,ran])
  have kept : after.rules.take after.count = added := by simpa [Store.empty] using stored
  rw [kept] at held
  rw [whole rfl] at comes
  have good := good_of_comes held (forall_arms lines) (rules_plain lines) comes
  intro line member rule found
  have armed : arms line = true := by
    rw [arms_eq,Option.mem_def.mp found]
    rfl
  exact good line (List.mem_filter.mpr ⟨member,armed⟩) rule found

theorem faithful_of_good {lines : List Mem} {newline : Bool}
    (ok : ∀ line ∈ lines,0 ∉ line ∧ 10 ∉ line ∧ line.length ≤ 510) (good : ∀ line ∈ lines,Good line) :
    Faithful lines newline := by
  have taken := forall_arms lines
  constructor
  · intro memory store after rc inside ran
    rw [rulesLoadFromFile,rulesLoop_eq,rules_joined newline ok] at ran
    obtain ⟨added,some_rules,front,whole,held,extended⟩ :=
      loadRules_extends ⟨inside,fun zero => absurd rfl zero⟩ ran
    have some_rules_eq := List.prefix_iff_eq_take.mp front
    have loaded := List.forall₂_take some_rules.length taken
    rw [← some_rules_eq] at loaded
    refine ⟨added,(lines.filter arms).take some_rules.length,List.take_prefix _ _,?_,?_,extended⟩
    · intro success
      rw [whole success,taken.length_eq,List.take_length]
    · exact comes_of_holds held loaded (fun rule member => rules_plain lines rule (front.subset member))
        (fun line member => good line (List.mem_of_mem_filter (List.take_subset _ _ member)))
  · intro line member undocumented
    cases loaded : ruleOf line with
    | none => rw [arms_eq,loaded]; rfl
    | some rule =>
      obtain ⟨cond,act,documented,_⟩ := good line member rule loaded
      exact absurd documented (undocumented cond act)

/-- What a file adds is faithful exactly if no line of it overlaps its keywords. -/
theorem malformed_never_loaded (lines : List Mem) (newline : Bool)
    (ok : ∀ line ∈ lines,0 ∉ line ∧ 10 ∉ line ∧ line.length ≤ 510) :
    Faithful lines newline ↔ ∀ line ∈ lines,¬ Overlaps line := by
  have apart : ∀ line ∈ lines,(Good line ↔ ¬ Overlaps line) := by
    intro line member
    obtain ⟨plain,unbroken,_⟩ := ok line member
    exact good_iff plain unbroken
  constructor
  · intro faithful line member
    exact (apart line member).mp (good_of_faithful ok faithful line member)
  · intro no_overlap
    exact faithful_of_good ok fun line member => (apart line member).mpr (no_overlap line member)

theorem malformed_never_loaded_one :
    Faithful [ascii "# alerts",ascii "if a then b"] true ↔
      ∀ line ∈ [ascii "# alerts",ascii "if a then b"],¬ Overlaps line :=
  malformed_never_loaded [ascii "# alerts",ascii "if a then b"] true (by decide)

/-- The line `if then notify` has no condition, and arms an action whose condition is `then notify`. -/
theorem missing_condition_loaded : ¬ Faithful [ascii "if then notify"] true := by
  rintro ⟨_,rejected⟩
  have armed : arms (ascii "if then notify") = true := by decide
  rw [rejected _ List.mem_cons_self] at armed
  · cases armed
  · rintro cond act ⟨blanks,all_blank,_,_,split⟩
    cases blanks with
    | nil =>
      have behind : ascii "then notify" = cond ++ ascii " then " ++ act := by
        rw [List.nil_append,List.append_assoc,List.append_assoc] at split
        rw [List.append_assoc]
        exact List.append_cancel_left (show ascii "if " ++ _ = ascii "if " ++ _ from split)
      have inside : ascii " then " <:+: ascii "then notify" := ⟨cond,act,behind.symm⟩
      revert inside
      decide
    | cons b blanks =>
      have first := congrArg List.head? split
      cases first
      exact absurd (all_blank _ List.mem_cons_self) (by decide)

end Nulleye.RuleSyntax
