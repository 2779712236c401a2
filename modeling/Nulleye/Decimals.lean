import Mathlib.Algebra.Ring.Int.Defs
import Nulleye.CStrings

/-!
Decimal numbers in text, as a library: the number that a text begins with, and the
text that a number is printed as. A number that fits is read as what it is, and a
printed number is read back whatever follows it, unless that is a digit.
-/
namespace Nulleye.Decimals
open Nulleye.CStrings

/-- What `%d` prints. -/
def decimal (n : Int) : Mem := ascii (toString n)

/-- The digits of a word behind the number `n`. -/
def number (n : Nat) (word : Mem) : Nat := word.foldl (fun n b => 10 * n + (b.toNat - 48)) n

/-- The number that a text begins with, 0 if it begins with none. -/
def numberOf (line : Mem) : Int :=
  let signed := sign (line.dropWhile isspace)
  let n := number 0 (signed.2.takeWhile isdigit)
  if signed.1 then -n else n

/-- A text that goes on with a digit where another one ended. -/
def StartsWithDigit (rest : Mem) : Prop := ∃ b ∈ rest.head?,isdigit b

/-! ### Reading -/

theorem digits_eq {mem : Mem} (ended : mem.dropWhile isdigit ≠ []) (n : Nat) :
    digits n mem = some (number n (mem.takeWhile isdigit)) := by
  induction mem generalizing n with
  | nil => exact absurd rfl ended
  | cons b mem ih =>
    by_cases digit : isdigit b
    · simp only [List.dropWhile_cons,digit,if_true] at ended
      simp [digits,digit,ih ended,number]
    · simp [digits,digit,number]

/-- What `strtol` reads, if a byte behind the number ends it. -/
theorem strtol_eq {mem : Mem} (ended : afterNumber mem ≠ []) :
    strtol mem = some (max (min (numberOf mem) (2 ^ 63 - 1)) (-2 ^ 63)) := by
  have some_byte : mem.dropWhile isspace ≠ [] := by
    intro blank
    rw [afterNumber,blank] at ended
    exact ended rfl
  rw [strtol,skipSpace_eq,if_neg some_byte,Option.bind_some,digits_eq ended,Option.map_some,numberOf]
  congr 1
  split_ifs <;> omega

/-- A number that fits an `int` is read as what it is. -/
theorem atoi_eq {mem : Mem} (ended : afterNumber mem ≠ []) (low : -2 ^ 31 ≤ numberOf mem) (high : numberOf mem < 2 ^ 31) :
    atoi mem = some (Int32.ofInt (numberOf mem)) := by
  rw [atoi,strtol_eq ended,Option.map_some]
  congr 2
  omega

/-- A byte that ends a number, wherever it stands. -/
def Stops (b : UInt8) : Prop := isspace b = false ∧ isdigit b = false ∧ b ≠ 45 ∧ b ≠ 43

/-- Nothing from such a byte on is part of the number. -/
theorem numberOf_stop {b : UInt8} (stops : Stops b) (line rest : Mem) : numberOf (line ++ b :: rest) = numberOf line := by
  obtain ⟨no_space,no_digit,minus,plus⟩ := stops
  cases kept : line.dropWhile isspace with
  | nil =>
    have blank : ∀ c ∈ line,isspace c := List.dropWhile_eq_nil_iff.mp kept
    rw [numberOf,numberOf,kept,List.dropWhile_append_of_pos blank]
    simp [no_space,sign,minus,plus,no_digit]
  | cons c tail =>
    have longer : (line ++ b :: rest).dropWhile isspace = c :: tail ++ b :: rest := by
      rw [List.dropWhile_append,kept]
      rfl
    simp only [numberOf,longer,kept,sign_append (b :: rest) (List.cons_ne_nil c tail),takeWhile_cut no_digit]

theorem afterNumber_stop {b : UInt8} (stops : Stops b) (line rest : Mem) : afterNumber (line ++ b :: rest) ≠ [] := by
  obtain ⟨no_space,no_digit,minus,plus⟩ := stops
  have behind : b ∈ (line ++ b :: rest).dropWhile isspace := mem_dropWhile no_space (by simp)
  refine List.ne_nil_of_mem (mem_dropWhile (b := b) no_digit ?_)
  cases split : (line ++ b :: rest).dropWhile isspace with
  | nil => simp [split] at behind
  | cons c tail =>
    rw [split] at behind
    simp only [sign]
    split_ifs with negative positive
    · simpa [negative,minus] using behind
    · simpa [positive,plus] using behind
    · exact behind

/-- Which byte ends a number, and what follows it, does not matter. -/
theorem atoi_stop {b c : UInt8} (stops : Stops b) (stops' : Stops c) (line rest rest' : Mem) :
    atoi (line ++ b :: rest) = atoi (line ++ c :: rest') := by
  rw [atoi,atoi,strtol_eq (afterNumber_stop stops line rest),strtol_eq (afterNumber_stop stops' line rest'),
    numberOf_stop stops,numberOf_stop stops']

/-- The terminator of a text is no part of its number. -/
theorem numberOf_cut (line rest : Mem) : numberOf (line ++ 0 :: rest) = numberOf line :=
  numberOf_stop ⟨rfl,rfl,by decide,by decide⟩ line rest

/-! ### Printing -/

theorem digitChar_byte : ∀ d < 10,d.digitChar.toNat.toUInt8 = UInt8.ofNat (48 + d) := by decide

/-- The last digit of a natural number, behind those of its tenth. -/
theorem ascii_repr (n : Nat) :
    ascii n.repr = (if n < 10 then [] else ascii (n / 10).repr) ++ [UInt8.ofNat (48 + n % 10)] := by
  have last := digitChar_byte (n % 10) (Nat.mod_lt n (by decide : 10 > 0))
  rw [ascii,Nat.toList_repr,Nat.toDigits_eq_if (by decide)]
  split_ifs with small
  · rw [← last,Nat.mod_eq_of_lt small]
    rfl
  · rw [List.map_append,← last,ascii,Nat.toList_repr]
    rfl

theorem digit_byte : ∀ d < 10,isdigit (UInt8.ofNat (48 + d)) = true ∧ (UInt8.ofNat (48 + d)).toNat = 48 + d := by
  decide

/-- A natural number is printed as a word of digits whose value it is. -/
theorem ascii_repr_number (n : Nat) :
    (∀ b ∈ ascii n.repr,isdigit b = true) ∧ ascii n.repr ≠ [] ∧ number 0 (ascii n.repr) = n := by
  induction n using Nat.strong_induction_on with
  | h n ih =>
    obtain ⟨last,value⟩ := digit_byte (n % 10) (Nat.mod_lt n (by decide : 10 > 0))
    rw [ascii_repr]
    split_ifs with small
    · refine ⟨by simpa using last,by simp,?_⟩
      rw [List.nil_append,number,List.foldl_cons,List.foldl_nil,value]
      omega
    · obtain ⟨front,_,tenth⟩ := ih (n / 10) (by omega)
      refine ⟨?_,by simp,?_⟩
      · intro b member
        rcases List.mem_append.mp member with before | here
        · exact front b before
        · exact List.mem_singleton.mp here ▸ last
      · rw [number] at tenth ⊢
        rw [List.foldl_append,tenth,List.foldl_cons,List.foldl_nil,value]
        omega

/-- A natural number below `10 ^ k` has at most `k` digits. -/
theorem ascii_repr_length {n k : Nat} (small : n < 10 ^ (k + 1)) : (ascii n.repr).length ≤ k + 1 := by
  induction k generalizing n with
  | zero =>
    rw [ascii_repr,if_pos (by omega)]
    simp
  | succ k ih =>
    rw [ascii_repr]
    split_ifs
    · simp
    · have tenth : n / 10 < 10 ^ (k + 1) := by
        rw [Nat.div_lt_iff_lt_mul (by decide),← Nat.pow_succ]
        exact small
      have front := ih tenth
      simp only [List.length_append,List.length_singleton]
      omega

theorem decimal_eq (n : Int) : decimal n = if 0 ≤ n then ascii n.toNat.repr else 45 :: ascii (-n).toNat.repr := by
  rw [decimal,Int.toString_eq_repr,Int.repr_eq_if]
  split_ifs
  · rfl
  · simp [ascii]

/-- The bytes of a printed number are digits, and a minus sign. -/
theorem decimal_bytes (n : Int) : ∀ b ∈ decimal n,isdigit b = true ∨ b = 45 := by
  intro b member
  rw [decimal_eq] at member
  split_ifs at member
  · exact .inl ((ascii_repr_number _).1 b member)
  · rcases List.mem_cons.mp member with minus | behind
    · exact .inr minus
    · exact .inl ((ascii_repr_number _).1 b behind)

/-- A word of digits in front of no further digit is read as its value. -/
theorem word_read {word : Mem} (all_digits : ∀ b ∈ word,isdigit b = true) {rest : Mem} (stops : ¬ StartsWithDigit rest) :
    (word ++ rest).takeWhile isdigit = word ∧ (word ++ rest).dropWhile isdigit = rest := by
  have behind : rest.takeWhile isdigit = [] ∧ rest.dropWhile isdigit = rest := by
    cases rest with
    | nil => exact ⟨rfl,rfl⟩
    | cons b rest =>
      have other : isdigit b = false := Bool.eq_false_iff.mpr fun digit => stops ⟨b,rfl,digit⟩
      simp [other]
  rw [List.takeWhile_append_of_pos all_digits,List.dropWhile_append_of_pos all_digits,behind.1,behind.2,List.append_nil]
  exact ⟨rfl,rfl⟩

theorem sign_word {word : Mem} (all_digits : ∀ b ∈ word,isdigit b = true) (some_digit : word ≠ []) (rest : Mem) :
    (word ++ rest).dropWhile isspace = word ++ rest ∧ sign (word ++ rest) = (false,word ++ rest) := by
  cases word with
  | nil => exact absurd rfl some_digit
  | cons b tail =>
    have digit : isdigit b = true := all_digits b List.mem_cons_self
    have no_space : isspace b = false := by
      simp only [isdigit,Bool.and_eq_true,decide_eq_true_eq,UInt8.le_iff_toNat_le] at digit
      have at_least : 48 ≤ b.toNat := digit.1
      simp only [isspace,Bool.or_eq_false_iff,Bool.and_eq_false_iff,decide_eq_false_iff_not,UInt8.le_iff_toNat_le]
      constructor
      · rintro rfl
        exact absurd at_least (by decide)
      · exact .inr (by change ¬ b.toNat ≤ 13; omega)
    have no_sign : b ≠ 45 ∧ b ≠ 43 := by
      constructor <;> rintro rfl <;> cases digit
    simp [no_space,sign,no_sign]

/-- **A printed number is read back**, whatever follows that is no digit. -/
theorem numberOf_decimal (n : Int) {rest : Mem} (stops : ¬ StartsWithDigit rest) :
    numberOf (decimal n ++ rest) = n ∧ afterNumber (decimal n ++ rest) = rest := by
  rw [decimal_eq,numberOf,afterNumber]
  by_cases positive : 0 ≤ n
  · obtain ⟨all_digits,some_digit,value⟩ := ascii_repr_number n.toNat
    obtain ⟨read,left⟩ := word_read all_digits stops
    obtain ⟨no_space,no_sign⟩ := sign_word all_digits some_digit rest
    rw [if_pos positive,no_space,no_sign]
    dsimp only
    rw [read,value,left]
    exact ⟨Int.toNat_of_nonneg positive,rfl⟩
  · obtain ⟨all_digits,_,value⟩ := ascii_repr_number (-n).toNat
    obtain ⟨read,left⟩ := word_read all_digits stops
    have signed : (45 :: ascii (-n).toNat.repr ++ rest).dropWhile isspace = 45 :: (ascii (-n).toNat.repr ++ rest) := rfl
    rw [if_neg positive,signed,sign,if_pos rfl]
    dsimp only
    rw [read,value,left,if_pos rfl]
    exact ⟨by omega,rfl⟩

end Nulleye.Decimals
