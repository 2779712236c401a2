import Nulleye.Decimals
import Nulleye.RuleEvaluation

/-!
Conditions on the score. The condition `anomaly_score>t` holds of a payload exactly if
the number behind the first `score=` in it is greater than `t`.
-/
namespace Nulleye.ScoreConditions
open Nulleye.CStrings Nulleye.Decimals Nulleye.RuleEvaluation

/-- The condition that a score is greater than `t`. -/
def scoreAbove (t : Int32) : Mem := ascii "anomaly_score>" ++ decimal t.toInt

/-- The score in a terminated payload. -/
def scoreIn (payload more : Mem) : Option Int32 :=
  (firstAt (ascii "score=") (text payload)).bind fun p => atoi ((payload ++ 0 :: more).drop (p + 6))

/-- The number behind the first `anomaly_score>` of a condition. -/
def thresholdOf (cond : Mem) : Option Int32 :=
  (firstAt (ascii "anomaly_score>") cond).bind fun i => atoi (cond.drop (i + 14) ++ [0])

/-- What the second check finds: the comparison of the score with the number in the condition. -/
def compared (cond payload more : Mem) : Option Bool :=
  (thresholdOf cond).bind fun threshold => (scoreIn payload more).map fun score => decide (threshold < score)

/-- What the checks behind the first one find: the comparison, and the name where there is none. -/
def otherwise (cond payload more : Mem) : Bool :=
  (compared cond payload more).getD (decide (∃ name ∈ commName cond,name <:+: text payload))

/-! ### Terminated payloads -/

theorem checkScore_eq {cond : Mem} (plain : 0 ∉ cond) (rest payload more : Mem) :
    checkScore (cond ++ 0 :: rest) (some (payload ++ 0 :: more)) = some (compared cond payload more) := by
  rw [checkScore,strstr_terminated (by decide) plain,compared,thresholdOf]
  cases op : firstAt (ascii "anomaly_score>") cond with
  | none => rfl
  | some i =>
    have inside : i + 14 ≤ cond.length := found_inside op
    obtain ⟨threshold,number⟩ : ∃ n,atoi (cond.drop (i + 14) ++ [0]) = some n := atoi_terminated (by simp)
    have longer : atoi ((cond ++ 0 :: rest).drop (i + 14)) = some threshold := by
      rw [List.drop_append_of_le_length inside]
      simpa using atoi_append rest number
    have ended : 0 ∈ payload ++ 0 :: more := by simp
    simp only [Option.bind_eq_bind,Option.bind_some,number,longer,strstr_eq (by decide : 0 ∉ ascii "score="),text_cut,scoreIn]
    cases searched : firstAt (ascii "score=") (text payload) with
    | none => simp [ended]
    | some p =>
      have before : p + 6 ≤ payload.length := Nat.le_trans (found_inside searched) (List.takeWhile_prefix _).length_le
      obtain ⟨score,read⟩ : ∃ n,atoi ((payload ++ 0 :: more).drop (p + 6)) = some n := by
        apply atoi_terminated
        rw [List.drop_append_of_le_length before]
        simp
      simp [read]

/-- A condition holds of a terminated payload if its text is in it or one of the other checks holds. -/
theorem evaluate_eq {cond : Mem} (plain : 0 ∉ cond) (rest : Mem) {payload : Mem} (some_byte : payload ≠ []) (more : Mem) :
    evaluateConditionSimple (some (cond ++ 0 :: rest)) (some (payload ++ 0 :: more)) payload.length =
      some (decide (∃ start ∈ quotedText cond,start <:+: payload) || otherwise cond payload more) := by
  have positive : 0 < payload.length := List.length_pos_iff.mpr some_byte
  have inside : payload.length ≤ (payload ++ 0 :: more).length := by simp
  have ended : 0 ∈ payload ++ 0 :: more := by simp
  simp only [evaluateConditionSimple,if_pos positive,checkContains_terminated plain rest inside,checkScore_eq plain,
    checkComm_terminated plain,List.take_left,otherwise]
  cases decide (∃ start ∈ quotedText cond,start <:+: payload) with
  | true => rfl
  | false =>
    cases compared cond payload more with
    | some r => rfl
    | none =>
      cases named : commName cond with
      | none => simp
      | some name =>
        have name_plain := zero_not_mem_commName plain named
        have searched : (strstr name (payload ++ 0 :: more)).map Option.isSome = some (decide (name <:+: text payload)) := by
          rw [strstr_eq name_plain,text_cut,if_pos ended]
          cases found : firstAt name (text payload) with
          | none => simp [firstAt_eq_none.mp found]
          | some i =>
            have inside : name <:+: text payload := by
              by_contra absent
              rw [firstAt_eq_none.mpr absent] at found
              cases found
            simp [inside]
        simp [searched]

/-! ### The condition -/

/-- A byte that is in the condition is one of its keyword, a digit or a minus sign. -/
theorem not_mem_scoreAbove {b : UInt8} (keyword : b ∉ ascii "anomaly_score>") (no_digit : isdigit b = false) (minus : b ≠ 45)
    (t : Int32) : b ∉ scoreAbove t := by
  intro member
  rcases List.mem_append.mp member with front | behind
  · exact keyword front
  · rcases decimal_bytes t.toInt b behind with digit | sign
    · rw [no_digit] at digit
      cases digit
    · exact minus sign

theorem scoreAbove_plain (t : Int32) : 0 ∉ scoreAbove t := not_mem_scoreAbove (by decide) rfl (by decide) t

/-- The condition asks for no text and no name. -/
theorem scoreAbove_alone (t : Int32) : quotedText (scoreAbove t) = none ∧ commName (scoreAbove t) = none := by
  have paren : 40 ∉ scoreAbove t := not_mem_scoreAbove (by decide) rfl (by decide) t
  have equals : 61 ∉ scoreAbove t := not_mem_scoreAbove (by decide) rfl (by decide) t
  have contains : firstAt (ascii "contains(") (scoreAbove t) = none := by
    rw [firstAt_eq_none]
    intro found
    exact paren (found.subset (by decide))
  have comm : firstAt (ascii "comm==") (scoreAbove t) = none := by
    rw [firstAt_eq_none]
    intro found
    exact equals (found.subset (by decide))
  rw [quotedText,commName,contains,comm]
  exact ⟨rfl,rfl⟩

theorem int32_range (t : Int32) : -2 ^ 31 ≤ t.toInt ∧ t.toInt < 2 ^ 31 := ⟨t.le_toInt,t.toInt_lt⟩

/-- A printed `int` is read back where no digit follows. -/
theorem atoi_decimal (t : Int32) {rest : Mem} (stops : ¬ StartsWithDigit rest) (some_byte : rest ≠ []) :
    atoi (decimal t.toInt ++ rest) = some t := by
  obtain ⟨low,high⟩ := int32_range t
  obtain ⟨value,left⟩ := numberOf_decimal t.toInt stops
  rw [atoi_eq (by rwa [left]) (by rwa [value]) (by rwa [value]),value,Int32.ofInt_toInt]

theorem thresholdOf_scoreAbove (t : Int32) : thresholdOf (scoreAbove t) = some t := by
  have first : firstAt (ascii "anomaly_score>") (scoreAbove t) = some 0 := firstAt_self _ _
  have stops : ¬ StartsWithDigit [0] := by
    rintro ⟨b,head,digit⟩
    cases head
    cases digit
  rw [thresholdOf,first]
  exact atoi_decimal t stops (by simp)

/-- The condition holds of a payload exactly if the payload has a greater score. -/
theorem evaluate_scoreAbove (t : Int32) (rest payload more : Mem) :
    evaluateConditionSimple (some (scoreAbove t ++ 0 :: rest)) (some (payload ++ 0 :: more)) payload.length =
      some (decide (∃ score ∈ scoreIn payload more,t < score)) := by
  have plain := scoreAbove_plain t
  obtain ⟨no_text,no_name⟩ := scoreAbove_alone t
  by_cases empty : payload = []
  · subst empty
    rw [List.length_nil,evaluate_nothing plain]
    simp [scoreIn,firstAt,ascii]
  rw [evaluate_eq plain rest empty,otherwise,compared,thresholdOf_scoreAbove,no_text,no_name]
  cases scoreIn payload more <;> simp

/-! ### The payload -/

/-- A printed score behind text without `score=` is the score of the payload. -/
theorem scoreIn_printed (s : Int32) {front behind : Mem} (plain : 0 ∉ front) (absent : ¬ ascii "score=" <:+: front)
    (stops : ¬ StartsWithDigit behind) (more : Mem) :
    scoreIn (front ++ (ascii "score=" ++ (decimal s.toInt ++ behind))) more = some s := by
  have found : firstAt (ascii "score=") (text (front ++ (ascii "score=" ++ (decimal s.toInt ++ behind)))) =
      some front.length := by
    rw [text_append plain,text_append (by decide : 0 ∉ ascii "score=")]
    exact firstAt_behind (by decide) absent _
  have number : (front ++ (ascii "score=" ++ (decimal s.toInt ++ behind)) ++ 0 :: more).drop (front.length + 6) =
      decimal s.toInt ++ (behind ++ 0 :: more) := by
    have length : (front ++ ascii "score=").length = front.length + 6 := List.length_append
    rw [List.append_assoc,List.append_assoc,List.append_assoc,← List.append_assoc front,List.drop_left' length]
  have stops' : ¬ StartsWithDigit (behind ++ 0 :: more) := by
    rintro ⟨b,head,digit⟩
    cases behind with
    | nil =>
      cases head
      cases digit
    | cons c behind => exact stops ⟨b,head,digit⟩
  rw [scoreIn,found,Option.bind_some,number,atoi_decimal s stops' (by simp)]

theorem scoreIn_absent {payload : Mem} (absent : ¬ ascii "score=" <:+: payload) (more : Mem) : scoreIn payload more = none := by
  have missing : firstAt (ascii "score=") (text payload) = none := by
    rw [firstAt_eq_none]
    intro found
    exact absent (found.trans (List.takeWhile_prefix _).isInfix)
  rw [scoreIn,missing,Option.bind_none]

/-- **Conditions on the score compare numbers.** A printed score is compared with the
    printed threshold, a payload without a score satisfies no such condition, and a
    condition that holds holds with every lower threshold. -/
theorem anomaly_score_compares :
    (∀ (s t : Int32) (front behind rest more : Mem),0 ∉ front → ¬ ascii "score=" <:+: front → ¬ StartsWithDigit behind →
      evaluateConditionSimple (some (scoreAbove t ++ 0 :: rest))
        (some (front ++ (ascii "score=" ++ (decimal s.toInt ++ behind)) ++ 0 :: more))
        (front ++ (ascii "score=" ++ (decimal s.toInt ++ behind))).length = some (decide (t < s))) ∧
    (∀ (t : Int32) (payload rest more : Mem),¬ ascii "score=" <:+: payload →
      evaluateConditionSimple (some (scoreAbove t ++ 0 :: rest)) (some (payload ++ 0 :: more)) payload.length = some false) ∧
    ∀ (t t' : Int32) (payload rest rest' more : Mem),t ≤ t' →
      evaluateConditionSimple (some (scoreAbove t' ++ 0 :: rest')) (some (payload ++ 0 :: more)) payload.length = some true →
      evaluateConditionSimple (some (scoreAbove t ++ 0 :: rest)) (some (payload ++ 0 :: more)) payload.length = some true := by
  refine ⟨?_,?_,?_⟩
  · intro s t front behind rest more plain absent stops
    rw [evaluate_scoreAbove,scoreIn_printed s plain absent stops]
    simp
  · intro t payload rest more absent
    rw [evaluate_scoreAbove,scoreIn_absent absent]
    simp
  · intro t t' payload rest rest' more lower holds
    rw [evaluate_scoreAbove] at holds ⊢
    obtain ⟨score,found,above⟩ := of_decide_eq_true (Option.some.inj holds)
    exact congrArg some (decide_eq_true ⟨score,found,Int32.lt_of_le_of_lt lower above⟩)

/-- The score -5 behind a text that ends like the beginning of `score=`. -/
theorem anomaly_score_compares_negative :
    evaluateConditionSimple (some (scoreAbove (-7) ++ [0]))
      (some (ascii "sco" ++ (ascii "score=" ++ (decimal (Int32.toInt (-5)) ++ ascii " pid=1")) ++ [0]))
      (ascii "sco" ++ (ascii "score=" ++ (decimal (Int32.toInt (-5)) ++ ascii " pid=1"))).length =
        some (decide ((-7 : Int32) < -5)) :=
  anomaly_score_compares.1 (-5) (-7) (ascii "sco") (ascii " pid=1") [] [] (by decide) (by decide) (by
    rintro ⟨b,head,digit⟩
    cases head
    cases digit)

end Nulleye.ScoreConditions
