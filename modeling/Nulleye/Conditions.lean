import Nulleye.ScoreConditions

/-!
Conditions on a text and on a name, as rules spell them. `contains(` prefers a single
quote wherever one stands, a check that fails leaves the same condition to the next
operator, and the quote behind a name is searched with the name. A condition means what
its spelling says exactly where none of this matters for the payload.
-/
namespace Nulleye.Conditions
open Nulleye.CStrings Nulleye.Decimals Nulleye.RuleEvaluation Nulleye.ScoreConditions

/-- The two quote characters. -/
def IsQuote (q : UInt8) : Prop := q = 39 ∨ q = 34

theorem IsQuote.stops {q : UInt8} (quote : IsQuote q) : Stops q := by
  rcases quote with rfl | rfl <;> exact ⟨rfl,rfl,by decide,by decide⟩

theorem IsQuote.ne {q b : UInt8} (quote : IsQuote q) (single : b ≠ 39) (double : b ≠ 34) : q ≠ b := by
  rcases quote with rfl | rfl
  · exact single.symm
  · exact double.symm

/-- A keyword without quotes. -/
theorem IsQuote.not_mem {q : UInt8} (quote : IsQuote q) {word : Mem} (single : 39 ∉ word) (double : 34 ∉ word) : q ∉ word := by
  rcases quote with rfl | rfl
  · exact single
  · exact double

/-! ### Texts -/

/-- The condition `contains(` with a text between quotes. -/
def containsText (q : UInt8) (T : Mem) : Mem := ascii "contains(" ++ q :: (T ++ [q,41])

/-- What is searched for it: the text, unless there is a single quote between double quotes. -/
def searched (q : UInt8) (T : Mem) : Option Mem :=
  if q = 34 ∧ 39 ∈ T then
    let behind := (T.dropWhile (· ≠ 39)).tail
    if 39 ∈ behind then some (behind.takeWhile (· ≠ 39)) else none
  else some T

/-- What the other operators find where the condition falls through to them: a number and a
    name of theirs can only stand in the text. -/
def fallsThrough (q : UInt8) (T payload more : Mem) : Bool :=
  (compared T payload more).getD (decide (∃ name ∈ commName (T ++ [q,41]),name <:+: text payload))

theorem idxOf_behind {b : UInt8} {front : Mem} (absent : b ∉ front) (rest : Mem) :
    (front ++ b :: rest).idxOf? b = some front.length := by
  induction front with
  | nil => simp [List.idxOf?_cons]
  | cons c front ih =>
    obtain ⟨other,behind⟩ := List.ne_and_not_mem_of_not_mem_cons absent
    rw [List.cons_append,List.idxOf?_cons,ih behind]
    simp [Ne.symm other]

/-- A line at the first place of a byte. -/
theorem split_first {b : UInt8} {line : Mem} (inside : b ∈ line) :
    line = line.takeWhile (· ≠ b) ++ b :: (line.dropWhile (· ≠ b)).tail ∧ b ∉ line.takeWhile (· ≠ b) := by
  constructor
  · have whole := List.takeWhile_append_dropWhile (p := (decide <| · ≠ b)) (l := line)
    cases behind : line.dropWhile (decide <| · ≠ b) with
    | nil => simpa using List.dropWhile_eq_nil_iff.mp behind b inside
    | cons c tail =>
      have first : c = b := by simpa using dropWhile_stops behind
      rw [behind,first] at whole
      exact whole.symm
  · intro member
    simpa using List.mem_takeWhile_imp member

/-- The text behind the quote that opens it. -/
theorem quotedText_opened {front rest : Mem} {q : UInt8} (first : firstAt (ascii "contains(") (front ++ q :: rest) = some 0)
    (opened : ((front ++ q :: rest).idxOf? 39).or ((front ++ q :: rest).idxOf? 34) = some front.length) :
    quotedText (front ++ q :: rest) = (rest.idxOf? q).map fun slen => rest.take slen := by
  rw [quotedText,first,Option.bind_some,List.drop_zero,opened]
  simp

/-- The first quote that stands in a line, single quotes first. -/
theorem opened_by {q : UInt8} (quote : IsQuote q) {front rest : Mem} (unquoted : q ∉ front)
    (single : q = 34 → 39 ∉ front ∧ 39 ∉ rest) :
    ((front ++ q :: rest).idxOf? 39).or ((front ++ q :: rest).idxOf? 34) = some front.length := by
  rcases quote with rfl | rfl
  · rw [idxOf_behind unquoted,Option.some_or]
  · obtain ⟨before,behind⟩ := single rfl
    have none_single : (front ++ 34 :: rest).idxOf? 39 = none := by
      rw [List.idxOf?_eq_none_iff]
      simp [before,behind]
    rw [none_single,Option.none_or,idxOf_behind unquoted]

/-- The text up to the next quote of the same kind. -/
theorem closed_behind {q : UInt8} {front : Mem} (unquoted : q ∉ front) (rest : Mem) :
    ((front ++ q :: rest).idxOf? q).map (fun slen => (front ++ q :: rest).take slen) = some front := by
  rw [idxOf_behind unquoted,Option.map_some,List.take_left]

theorem quotedText_contains {q : UInt8} (quote : IsQuote q) {T : Mem} (unquoted : q ∉ T) :
    quotedText (containsText q T) = searched q T := by
  have keyword : 39 ∉ ascii "contains(" ∧ 34 ∉ ascii "contains(" := by decide
  rw [searched]
  by_cases other : q = 34 ∧ 39 ∈ T
  · -- The first single quote stands in the text.
    have double := other.1
    subst double
    obtain ⟨split,front⟩ := split_first other.2
    rw [if_pos other]
    dsimp only
    generalize T.takeWhile (· ≠ 39) = before at split front
    generalize (T.dropWhile (· ≠ 39)).tail = behind at split ⊢
    have whole : containsText 34 T = (ascii "contains(" ++ 34 :: before) ++ 39 :: (behind ++ [34,41]) := by
      simp [containsText,split]
    have absent : 39 ∉ ascii "contains(" ++ 34 :: before := by simp [keyword.1,front]
    have first : firstAt (ascii "contains(") (ascii "contains(" ++ 34 :: before ++ 39 :: (behind ++ [34,41])) = some 0 := by
      rw [List.append_assoc]
      exact firstAt_self _ _
    rw [whole,quotedText_opened first (by rw [idxOf_behind absent,Option.some_or])]
    split_ifs with closed
    · obtain ⟨rest,shut⟩ := split_first closed
      have longer : behind ++ [34,41] =
          behind.takeWhile (· ≠ 39) ++ 39 :: ((behind.dropWhile (· ≠ 39)).tail ++ [34,41]) := by
        conv_lhs => rw [rest]
        simp
      rw [longer,closed_behind shut]
    · have none_behind : (behind ++ [34,41]).idxOf? 39 = none := by
        rw [List.idxOf?_eq_none_iff]
        simp [closed]
      rw [none_behind,Option.map_none]
  · have single : q = 34 → 39 ∉ ascii "contains(" ∧ 39 ∉ T ++ [q,41] := by
      rintro rfl
      have missing : 39 ∉ T := fun inside => other ⟨rfl,inside⟩
      exact ⟨keyword.1,by simp [missing]⟩
    have opened := opened_by quote (quote.not_mem keyword.1 keyword.2) single
    rw [if_neg other,containsText,quotedText_opened (firstAt_self _ _) opened,closed_behind unquoted]

/-- A keyword of another operator is not found before the text. -/
theorem firstAt_contains {word : Mem} {q : UInt8} (some_byte : word ≠ []) (other : q ∉ word)
    (elsewhere : firstAt word (ascii "contains(") = none) (line : Mem) :
    firstAt word (ascii "contains(" ++ q :: line) = (firstAt word line).map (· + 10) := by
  rw [firstAt_separated some_byte other,elsewhere,Option.none_or]
  rfl

theorem drop_contains (q : UInt8) (line : Mem) (n : Nat) : (ascii "contains(" ++ q :: line).drop (n + 10) = line.drop n := by
  have length : (ascii "contains(" ++ [q]).length = 10 := rfl
  have split : ascii "contains(" ++ q :: line = (ascii "contains(" ++ [q]) ++ line := by simp
  rw [split,List.drop_append,length,Nat.add_sub_cancel,List.drop_of_length_le (by omega),List.nil_append]

/-- A number is the same behind whatever ends the text. -/
theorem thresholdOf_ended {q : UInt8} (quote : IsQuote q) (T : Mem) {rest : Mem}
    (elsewhere : firstAt (ascii "anomaly_score>") rest = none) : thresholdOf (T ++ q :: rest) = thresholdOf T := by
  rw [thresholdOf,thresholdOf,firstAt_separated (by decide) (quote.not_mem (by decide) (by decide)),elsewhere,Option.map_none,
    Option.or_none]
  cases found : firstAt (ascii "anomaly_score>") T with
  | none => rfl
  | some i =>
    have inside : i + 14 ≤ T.length := found_inside found
    rw [Option.bind_some,Option.bind_some,List.drop_append_of_le_length inside,List.append_assoc,List.cons_append]
    exact atoi_stop quote.stops ⟨rfl,rfl,by decide,by decide⟩ _ _ _

theorem otherwise_contains {q : UInt8} (quote : IsQuote q) (T payload more : Mem) :
    otherwise (containsText q T) payload more = fallsThrough q T payload more := by
  have threshold : thresholdOf (containsText q T) = thresholdOf T := by
    rw [← thresholdOf_ended quote T (show firstAt (ascii "anomaly_score>") [41] = none by decide),containsText,thresholdOf,
      thresholdOf,firstAt_contains (by decide) (quote.not_mem (by decide) (by decide)) (by decide)]
    cases firstAt (ascii "anomaly_score>") (T ++ [q,41]) with
    | none => rfl
    | some i =>
      rw [Option.map_some,Option.bind_some,Option.bind_some,show i + 10 + 14 = i + 14 + 10 by omega,drop_contains]
  have name : commName (containsText q T) = commName (T ++ [q,41]) := by
    rw [containsText,commName,commName,firstAt_contains (by decide) (quote.not_mem (by decide) (by decide)) (by decide)]
    cases firstAt (ascii "comm==") (T ++ [q,41]) with
    | none => rfl
    | some i => simp only [Option.map_some,show i + 10 + 6 = i + 6 + 10 by omega,drop_contains]
  rw [otherwise,fallsThrough,compared,compared,threshold,name]

/-- What is searched is part of the text. -/
theorem searched_part {q : UInt8} {T start : Mem} (found : start ∈ searched q T) : start <:+: T := by
  unfold searched at found
  split_ifs at found with other
  · dsimp only at found
    split_ifs at found with closed
    · obtain rfl := Option.some.inj found
      obtain ⟨split,_⟩ := split_first other.2
      have behind : ((T.dropWhile (· ≠ 39)).tail) <:+: T := ⟨T.takeWhile (· ≠ 39) ++ [39],[],by simpa using split.symm⟩
      exact (List.takeWhile_prefix _).isInfix.trans behind
    · cases found
  · obtain rfl := Option.some.inj found
    exact List.infix_refl _

/-- **A quoted text matches exactly the payloads that contain it**, if for a payload with the text
    something is searched or the condition falls through to a check that holds, and for
    a payload without it neither what is searched is found nor such a check holds. -/
theorem contains_matches {q : UInt8} (quote : IsQuote q) {T payload : Mem} (plain : 0 ∉ T) (unquoted : q ∉ T)
    (some_byte : payload ≠ []) (rest more : Mem) :
    (evaluateConditionSimple (some (containsText q T ++ 0 :: rest)) (some (payload ++ 0 :: more)) payload.length = some true ↔
        T <:+: payload) ↔
      (T <:+: payload → (searched q T).isSome ∨ fallsThrough q T payload more = true) ∧
        (¬ T <:+: payload → (∀ start ∈ searched q T,¬ start <:+: payload) ∧ fallsThrough q T payload more = false) := by
  have cond_plain : 0 ∉ containsText q T := by
    have nul : q ≠ 0 := quote.ne (by decide) (by decide)
    simp [containsText,plain,nul.symm,show (0 : UInt8) ∉ ascii "contains(" by decide]
  rw [evaluate_eq cond_plain rest some_byte,quotedText_contains quote unquoted,otherwise_contains quote]
  simp only [Option.some.injEq,Bool.or_eq_true,decide_eq_true_eq]
  by_cases occurs : T <:+: payload
  · have part : (∃ start ∈ searched q T,start <:+: payload) ↔ (searched q T).isSome := by
      rw [Option.isSome_iff_exists]
      constructor
      · rintro ⟨start,found,_⟩
        exact ⟨start,found⟩
      · rintro ⟨start,found⟩
        exact ⟨start,found,(searched_part found).trans occurs⟩
    rw [part]
    simp [occurs]
  · simp [occurs]

/-- A text without the other quote and without an operator of its own. -/
theorem contains_matches_ssh :
    evaluateConditionSimple (some (containsText 39 (ascii "ssh") ++ [0])) (some (ascii "note: ssh login" ++ [0])) 15 = some true :=
  ((contains_matches (.inl rfl) (by decide : 0 ∉ ascii "ssh") (by decide) (by decide : ascii "note: ssh login" ≠ []) [] []).mpr
    (by decide)).mpr (by decide)

/-- A text with an apostrophe between double quotes is never found. -/
theorem apostrophe_missed :
    ¬ ∀ (q : UInt8) (T payload more : Mem),IsQuote q → T ≠ [] → 0 ∉ T → q ∉ T → (containsText q T).length ≤ 255 → payload ≠ [] →
      (evaluateConditionSimple (some (containsText q T ++ [0])) (some (payload ++ 0 :: more)) payload.length = some true ↔
        T <:+: payload) := by
  intro always
  have missed := always 34 (ascii "it's") (ascii "it's") [] (.inr rfl) (by decide) (by decide) (by decide) (by decide) (by decide)
  revert missed
  decide

/-! ### Names -/

/-- The condition `comm==` with a bare name. -/
def commIs (N : Mem) : Mem := ascii "comm==" ++ N

/-- The condition `comm==` with a name between quotes. -/
def commQuoted (q : UInt8) (N : Mem) : Mem := ascii "comm==" ++ q :: (N ++ [q])

/-- A field of a payload. -/
structure Field where
  key : Mem
  value : Mem
  key_plain : 61 ∉ key ∧ 32 ∉ key ∧ 0 ∉ key
  value_plain : 32 ∉ value ∧ 0 ∉ value

def Field.text (f : Field) : Mem := f.key ++ 61 :: f.value

/-- The payload of some fields, with a blank between them. -/
def payloadOf (fields : List Field) : Mem := [32].intercalate (fields.map Field.text)

/-- There is a field with the key `comm` whose value contains the name. -/
def CommHas (N : Mem) (fields : List Field) : Prop := ∃ f ∈ fields,f.key = ascii "comm" ∧ N <:+: f.value

instance (N : Mem) (fields : List Field) : Decidable (CommHas N fields) :=
  inferInstanceAs (Decidable (∃ f ∈ fields,f.key = ascii "comm" ∧ N <:+: f.value))

theorem Field.text_plain (f : Field) : 0 ∉ f.text := by
  simp [Field.text,f.key_plain.2.2,f.value_plain.2]

theorem payloadOf_cons (f : Field) (fields : List Field) :
    payloadOf (f :: fields) = f.text ++ if fields = [] then [] else 32 :: payloadOf fields := by
  cases fields <;> simp [payloadOf,List.intercalate]

theorem payloadOf_plain (fields : List Field) : 0 ∉ payloadOf fields := by
  induction fields with
  | nil => exact List.not_mem_nil
  | cons f fields ih =>
    rw [payloadOf_cons]
    split_ifs <;> simp [f.text_plain,ih]

theorem value_part {f : Field} {fields : List Field} (member : f ∈ fields) : f.value <:+: payloadOf fields := by
  induction fields with
  | nil => cases member
  | cons g fields ih =>
    rw [payloadOf_cons]
    rcases List.mem_cons.mp member with rfl | behind
    · exact ⟨f.key ++ [61],if fields = [] then [] else 32 :: payloadOf fields,by simp [Field.text]⟩
    · rw [if_neg (List.ne_nil_of_mem behind)]
      exact (ih behind).trans ⟨g.text ++ [32],[],by simp⟩

theorem payloadOf_eq_nil {fields : List Field} (empty : payloadOf fields = []) : fields = [] := by
  cases fields with
  | nil => rfl
  | cons f fields =>
    rw [payloadOf_cons] at empty
    simp [Field.text] at empty

/-- A condition with a bare name asks for no text, and for the name. -/
theorem bare_name {N : Mem} (single : 39 ∉ N) (double : 34 ∉ N) :
    quotedText (commIs N) = none ∧ commName (commIs N) = some N := by
  have none_single : 39 ∉ commIs N := by simp [commIs,single,show 39 ∉ ascii "comm==" by decide]
  have none_double : 34 ∉ commIs N := by simp [commIs,double,show 34 ∉ ascii "comm==" by decide]
  constructor
  · rw [quotedText]
    cases firstAt (ascii "contains(") (commIs N) with
    | none => rfl
    | some i =>
      have dropped : ((commIs N).drop i).idxOf? 39 = none ∧ ((commIs N).drop i).idxOf? 34 = none := by
        rw [List.idxOf?_eq_none_iff,List.idxOf?_eq_none_iff]
        exact ⟨fun inside => none_single (List.mem_of_mem_drop inside),fun inside => none_double (List.mem_of_mem_drop inside)⟩
      rw [Option.bind_some,dropped.1,dropped.2]
      rfl
  · have bare : ¬ (N.head? = some 39 ∨ N.head? = some 34) := by
      rintro (first | first)
      · exact single (List.mem_of_head? first)
      · exact double (List.mem_of_head? first)
    rw [commName,commIs,firstAt_self,Option.map_some]
    simp only [List.drop_left' (show (ascii "comm==").length = 0 + 6 from rfl),if_neg bare]

/-- A condition with a quoted name asks for no text either, and for the name with the quote behind it. -/
theorem quoted_name {q : UInt8} (quote : IsQuote q) {N : Mem} (single : 39 ∉ N) (double : 34 ∉ N) :
    quotedText (commQuoted q N) = none ∧ commName (commQuoted q N) = some (N ++ [q]) := by
  constructor
  · have place : firstAt (ascii "contains(") (commQuoted q N) = (firstAt (ascii "contains(") N).map (· + 7) := by
      rw [commQuoted,firstAt_separated (by decide) (quote.not_mem (by decide) (by decide)),
        show firstAt (ascii "contains(") (ascii "comm==") = none by decide,Option.none_or,
        firstAt_separated (by decide) (quote.not_mem (by decide) (by decide)),
        show firstAt (ascii "contains(") [] = none by decide,Option.map_none,Option.or_none]
      rfl
    rw [quotedText,place]
    cases found : firstAt (ascii "contains(") N with
    | none => rfl
    | some i =>
      have inside : i ≤ N.length := (firstAt_eq_some.mp found).2.1
      have dropped : (commQuoted q N).drop (i + 7) = N.drop i ++ [q] := by
        have length : (ascii "comm==" ++ [q]).length = 7 := rfl
        have split : commQuoted q N = (ascii "comm==" ++ [q]) ++ (N ++ [q]) := by simp [commQuoted]
        rw [split,List.drop_append,length,Nat.add_sub_cancel,List.drop_of_length_le (by omega),List.nil_append,
          List.drop_append_of_le_length inside]
      have no_single : 39 ∉ N.drop i := fun member => single (List.mem_of_mem_drop member)
      have no_double : 34 ∉ N.drop i := fun member => double (List.mem_of_mem_drop member)
      -- The only quote behind the keyword is the last byte of the condition.
      have opened := @opened_by q quote (N.drop i) [] (quote.not_mem no_single no_double) fun _ => ⟨no_single,List.not_mem_nil⟩
      simp only [Option.map_some,Option.bind_some,dropped,opened]
      generalize N.drop i = front
      simp
  · rw [commName,commQuoted,firstAt_self,Option.map_some]
    simp only [List.drop_left' (show (ascii "comm==").length = 0 + 6 from rfl),List.head?_cons,Option.some.injEq]
    rw [if_pos (show q = 39 ∨ q = 34 from quote)]
    rfl

/-- A number is the same behind text without the first letter of its keyword. -/
theorem thresholdOf_behind {front : Mem} (other : 97 ∉ front) (line : Mem) : thresholdOf (front ++ line) = thresholdOf line := by
  have first : ascii "anomaly_score>" = 97 :: ascii "nomaly_score>" := rfl
  rw [thresholdOf,thresholdOf,first,firstAt_head other]
  cases firstAt (97 :: ascii "nomaly_score>") line with
  | none => rfl
  | some i =>
    rw [Option.map_some,Option.bind_some,Option.bind_some,List.drop_append,List.drop_of_length_le (by omega),List.nil_append,
      show i + front.length + 14 - front.length = i + 14 by omega]

theorem compared_comm {q : UInt8} (quote : IsQuote q) (N payload more : Mem) :
    compared (commIs N) payload more = compared N payload more ∧ compared (commQuoted q N) payload more = compared N payload more := by
  have bare : thresholdOf (commIs N) = thresholdOf N := thresholdOf_behind (by decide) N
  have quoted : thresholdOf (commQuoted q N) = thresholdOf N := by
    have split : commQuoted q N = (ascii "comm==" ++ [q]) ++ (N ++ [q]) := by simp [commQuoted]
    have other : 97 ∉ ascii "comm==" ++ [q] := by
      have letter : q ≠ 97 := quote.ne (by decide) (by decide)
      simp [letter.symm,show (97 : UInt8) ∉ ascii "comm==" by decide]
    rw [split,thresholdOf_behind other,thresholdOf_ended quote N (by decide)]
  rw [compared,compared,compared,bare,quoted]
  exact ⟨rfl,rfl⟩

/-- What the payload must look like for the three spellings to mean the name. -/
def Spelled (N : Mem) (fields : List Field) (more : Mem) : Prop :=
  match compared N (payloadOf fields) more with
  | some above => above = true ↔ CommHas N fields
  | none => (CommHas N fields → N ++ [39] <:+: payloadOf fields ∧ N ++ [34] <:+: payloadOf fields) ∧
      (¬ CommHas N fields → ¬ N <:+: payloadOf fields)

/-- A condition that asks for no text compares, or searches for its name. -/
theorem evaluate_name {cond name N : Mem} (plain : 0 ∉ cond) (asked : quotedText cond = none ∧ commName cond = some name)
    {payload : Mem} (some_byte : payload ≠ []) (payload_plain : 0 ∉ payload) (rest : Mem) {more : Mem}
    (same : compared cond payload more = compared N payload more) :
    evaluateConditionSimple (some (cond ++ 0 :: rest)) (some (payload ++ 0 :: more)) payload.length = some true ↔
      (compared N payload more).getD (decide (name <:+: payload)) = true := by
  rw [evaluate_eq plain rest some_byte,asked.1,otherwise,asked.2,same,text_plain payload_plain]
  simp

theorem CommHas.occurs {N : Mem} {fields : List Field} (has : CommHas N fields) : N <:+: payloadOf fields := by
  obtain ⟨f,member,_,inside⟩ := has
  exact inside.trans (value_part member)

/-- **A name matches exactly the payloads whose `comm` contains it, in all three spellings**, if a comparison
    that it asks for says the same, or if it asks for none and the payload holds the name with
    either quote behind it, or no `comm` with the name and no other place with it. -/
theorem comm_matches {N : Mem} (plain : 0 ∉ N) (single : 39 ∉ N) (double : 34 ∉ N) (some_name : N ≠ []) (fields : List Field)
    (rest more : Mem) :
    (∀ cond ∈ [commIs N,commQuoted 39 N,commQuoted 34 N],
      (evaluateConditionSimple (some (cond ++ 0 :: rest)) (some (payloadOf fields ++ 0 :: more)) (payloadOf fields).length = some true ↔
        CommHas N fields)) ↔ Spelled N fields more := by
  have bare_plain : 0 ∉ commIs N := by simp [commIs,plain,show (0 : UInt8) ∉ ascii "comm==" by decide]
  have quoted_plain : ∀ {q : UInt8},IsQuote q → 0 ∉ commQuoted q N := by
    intro q quote
    have nul : q ≠ 0 := quote.ne (by decide) (by decide)
    simp [commQuoted,plain,nul.symm,show (0 : UInt8) ∉ ascii "comm==" by decide]
  by_cases empty : payloadOf fields = []
  · -- No condition holds of an empty payload, and it has no field.
    obtain rfl := payloadOf_eq_nil empty
    have nothing : ¬ CommHas N [] := by
      rintro ⟨f,member,_⟩
      cases member
    have no_score : scoreIn [] more = none := by simp [scoreIn,firstAt,ascii]
    have uncompared : compared N [] more = none := by simp [compared,no_score]
    have never : ∀ {cond : Mem},0 ∉ cond →
        evaluateConditionSimple (some (cond ++ 0 :: rest)) (some (payloadOf [] ++ 0 :: more)) (payloadOf []).length ≠ some true := by
      intro cond cond_plain
      rw [empty,List.length_nil,evaluate_nothing cond_plain]
      simp
    rw [Spelled,empty,uncompared]
    refine iff_of_true ?_ ⟨fun has => absurd has nothing,fun _ => by simpa using some_name⟩
    intro cond member
    rw [← empty]
    refine iff_of_false (never ?_) nothing
    simp only [List.mem_cons,List.not_mem_nil,or_false] at member
    rcases member with rfl | rfl | rfl
    · exact bare_plain
    · exact quoted_plain (.inl rfl)
    · exact quoted_plain (.inr rfl)
  · have payload_plain := payloadOf_plain fields
    have bare := evaluate_name bare_plain (bare_name single double) empty payload_plain rest
      (compared_comm (.inl rfl) N (payloadOf fields) more).1
    have quoted : ∀ {q : UInt8},IsQuote q → (evaluateConditionSimple (some (commQuoted q N ++ 0 :: rest))
        (some (payloadOf fields ++ 0 :: more)) (payloadOf fields).length = some true ↔
          (compared N (payloadOf fields) more).getD (decide (N ++ [q] <:+: payloadOf fields)) = true) := fun quote =>
      evaluate_name (quoted_plain quote) (quoted_name quote single double) empty payload_plain rest
        (compared_comm quote N (payloadOf fields) more).2
    rw [List.forall_mem_cons,List.forall_mem_cons,List.forall_mem_singleton,bare,quoted (.inl rfl),quoted (.inr rfl),Spelled]
    cases compared N (payloadOf fields) more with
    | some above => simp
    | none =>
      have shorter : ∀ q : UInt8,N ++ [q] <:+: payloadOf fields → N <:+: payloadOf fields := fun q =>
        (List.prefix_append N [q]).isInfix.trans
      simp only [Option.getD_none,decide_eq_true_eq]
      by_cases has : CommHas N fields
      · have occurs := has.occurs
        simp [has,occurs]
      · simp only [has,iff_false,false_implies,true_and,not_false_eq_true,true_implies]
        constructor
        · exact fun all => all.1
        · exact fun absent => ⟨absent,mt (shorter 39) absent,mt (shorter 34) absent⟩

/-- The fields `score=85` and `comm=badproc`. -/
def badproc : List Field :=
  [⟨ascii "score",ascii "85",by decide,by decide⟩,⟨ascii "comm",ascii "badproc",by decide,by decide⟩]

theorem comm_matches_other :
    (evaluateConditionSimple (some (commIs (ascii "ssh") ++ [0])) (some (payloadOf badproc ++ [0])) (payloadOf badproc).length =
        some true ↔ CommHas (ascii "ssh") badproc) ∧
      (evaluateConditionSimple (some (commQuoted 39 (ascii "ssh") ++ [0])) (some (payloadOf badproc ++ [0]))
        (payloadOf badproc).length = some true ↔ CommHas (ascii "ssh") badproc) ∧
      (evaluateConditionSimple (some (commQuoted 34 (ascii "ssh") ++ [0])) (some (payloadOf badproc ++ [0]))
        (payloadOf badproc).length = some true ↔ CommHas (ascii "ssh") badproc) := by
  have uncompared : compared (ascii "ssh") (payloadOf badproc) [] = none := by decide
  have spelled : Spelled (ascii "ssh") badproc [] := by
    rw [Spelled,uncompared]
    decide
  have all := (comm_matches (by decide) (by decide) (by decide) (by decide) badproc [] []).mpr spelled
  exact ⟨all _ (by simp),all _ (by simp),all _ (by simp)⟩

/-- The quoted name of a process is not found behind its `comm=`. -/
theorem quoted_name_missed :
    ¬ ∀ (N : Mem) (fields : List Field) (more : Mem),N ≠ [] → 0 ∉ N → 32 ∉ N → 39 ∉ N → 34 ∉ N → (commQuoted 39 N).length ≤ 255 →
      ∀ cond ∈ [commIs N,commQuoted 39 N,commQuoted 34 N],
        (evaluateConditionSimple (some (cond ++ [0])) (some (payloadOf fields ++ 0 :: more)) (payloadOf fields).length = some true ↔
          CommHas N fields) := by
  intro always
  have missed := always (ascii "badproc") badproc [] (by decide) (by decide) (by decide) (by decide) (by decide) (by decide)
    (commQuoted 39 (ascii "badproc")) (by simp)
  revert missed
  decide

end Nulleye.Conditions
