import Mathlib.Data.List.Basic
import Mathlib.Data.List.Infix
import Mathlib.Data.List.TakeWhile
import Mathlib.Data.Vector.Basic

/-!
The string functions of C over blocks of memory, as a library. A pointer is the
memory from where it points to the end of its block, and an offset from it a number.
Every function reads byte by byte from the front and stops where its result is
decided; `none` is a read behind the end of the block. So a result on a block is
the result on every longer one, and a function that reads no byte from some offset
on is one that gives a result on the block cut there.
-/
namespace Nulleye.CStrings

/-- The memory from a pointer to the end of its block. -/
abbrev Mem := List UInt8

/-- The bytes of a string literal without its terminator. -/
def ascii (text : String) : Mem := text.toList.map fun c => c.toNat.toUInt8

/-- The string at a pointer, without its terminator. -/
def cstr : Mem → Option Mem
  | [] => none
  | b :: rest => if b = 0 then some [] else (cstr rest).map (b :: ·)

/-- `strchr`: the offset of the first `c` of a string. -/
def strchr (c : UInt8) : Mem → Option (Option Nat)
  | [] => none
  | b :: rest => if b = c then some (some 0) else if b = 0 then some none else (strchr c rest).map (·.map (· + 1))

/-- Whether a string begins with `needle`: `strncmp(p, needle, strlen(needle)) == 0`. -/
def begins : Mem → Mem → Option Bool
  | [],_ => some true
  | _ :: _,[] => none
  | c :: needle,b :: rest => if b = c then begins needle rest else some false

/-- `strstr`: the offset of the first occurrence of `needle` in a string. C leaves a call on memory without a terminator
    undefined; here it reads from left to right, and no byte behind those that decide its result. -/
def strstr (needle : Mem) : Mem → Option (Option Nat)
  | [] => (begins needle []).map fun _ => some 0
  | b :: rest =>
    match begins needle (b :: rest) with
    | none => none
    | some true => some (some 0)
    | some false => if b = 0 then some none else (strstr needle rest).map (·.map (· + 1))

/-- `memmem(p, len, needle, strlen(needle)) != NULL`. -/
def memmem (needle : Mem) (len : Nat) (mem : Mem) : Option Bool :=
  if mem.length < len then none else some (decide (needle <:+: mem.take len))

/-- `strncpy`: the `n` bytes that it writes. -/
def strncpy : Nat → Mem → Option Mem
  | 0,_ => some []
  | _ + 1,[] => none
  | n + 1,b :: rest => if b = 0 then some (List.replicate (n + 1) 0) else (strncpy n rest).map (b :: ·)

/-- Writing bytes at the front of a buffer. -/
def overwrite {n : Nat} (old : Vector UInt8 n) (bytes : Mem) : Vector UInt8 n :=
  Vector.ofFn fun i => bytes[i.val]?.getD old[i]

/-- A blank or a tab. -/
def isBlank (b : UInt8) : Bool := b = 32 || b = 9

/-- `while (*s == ' ' || *s == '\t') s++`. -/
def skipBlank : Mem → Option Mem
  | [] => none
  | b :: rest => if isBlank b then skipBlank rest else some (b :: rest)

/-- `isspace` in the C locale. -/
def isspace (b : UInt8) : Bool := b = 32 || (9 ≤ b && b ≤ 13)

/-- `isdigit`. -/
def isdigit (b : UInt8) : Bool := 48 ≤ b && b ≤ 57

/-- The memory behind the white space at its front. -/
def skipSpace : Mem → Option Mem
  | [] => none
  | b :: rest => if isspace b then skipSpace rest else some (b :: rest)

/-- The number that the digits at the front go on from `n`. -/
def digits (n : Nat) : Mem → Option Nat
  | [] => none
  | b :: rest => if isdigit b then digits (10 * n + (b.toNat - 48)) rest else some n

/-- Whether a number has a minus sign, and the memory behind its sign. -/
def sign : Mem → Bool × Mem
  | [] => (false,[])
  | b :: rest => if b = 45 then (true,rest) else if b = 43 then (false,rest) else (false,b :: rest)

/-- `strtol(p, NULL, 10)`, which stops at the bounds of a 64-bit `long`. -/
def strtol (mem : Mem) : Option Int :=
  (skipSpace mem).bind fun mem =>
    (digits 0 (sign mem).2).map fun (n : Nat) =>
      if (sign mem).1 then max (-(n : Int)) (-2 ^ 63) else min (n : Int) (2 ^ 63 - 1)

/-- `atoi`: the `long` that `strtol` reads, converted to `int`. -/
def atoi (mem : Mem) : Option Int32 := (strtol mem).map Int32.ofInt

/-! ### Longer blocks -/

theorem begins_append {needle mem : Mem} {r : Bool} (more : Mem) (read : begins needle mem = some r) :
    begins needle (mem ++ more) = some r := by
  induction needle generalizing mem with
  | nil => simpa [begins] using read
  | cons c needle ih =>
    cases mem with
    | nil => simp [begins] at read
    | cons b rest =>
      simp only [begins,List.cons_append] at read ⊢
      split_ifs at read ⊢
      · exact ih read
      · exact read

theorem strstr_append {needle mem : Mem} {r : Option Nat} (more : Mem) (read : strstr needle mem = some r) :
    strstr needle (mem ++ more) = some r := by
  induction mem generalizing r with
  | nil =>
    cases needle with
    | nil => cases more <;> simpa [strstr,begins] using read
    | cons c needle => simp [strstr,begins] at read
  | cons b rest ih =>
    simp only [strstr,List.cons_append] at read ⊢
    cases first : begins needle (b :: rest) with
    | none => simp [first] at read
    | some found =>
      rw [← List.cons_append,begins_append more first]
      rw [first] at read
      cases found with
      | true => exact read
      | false =>
        simp only at read ⊢
        split_ifs at read ⊢
        · exact read
        · obtain ⟨r',rest_read,rfl⟩ := Option.map_eq_some_iff.mp read
          simp [ih rest_read]

theorem memmem_append {needle mem : Mem} {len : Nat} {r : Bool} (more : Mem) (read : memmem needle len mem = some r) :
    memmem needle len (mem ++ more) = some r := by
  unfold memmem at read ⊢
  split_ifs at read with short
  have inside : ¬ (mem ++ more).length < len := by simp; omega
  rw [if_neg inside,List.take_append_of_le_length (by omega)]
  exact read

theorem skipSpace_append {mem rest : Mem} (more : Mem) (read : skipSpace mem = some rest) :
    skipSpace (mem ++ more) = some (rest ++ more) := by
  induction mem with
  | nil => simp [skipSpace] at read
  | cons b mem ih =>
    simp only [skipSpace,List.cons_append] at read ⊢
    split_ifs at read ⊢
    · exact ih read
    · cases read; rfl

theorem digits_append {n m : Nat} {mem : Mem} (more : Mem) (read : digits n mem = some m) :
    digits n (mem ++ more) = some m := by
  induction mem generalizing n with
  | nil => simp [digits] at read
  | cons b rest ih =>
    simp only [digits,List.cons_append] at read ⊢
    split_ifs at read ⊢
    · exact ih read
    · exact read

/-! ### What is found -/

/-- The bytes before the terminator, or all bytes of a block without one. -/
def text (mem : Mem) : Mem := mem.takeWhile (· ≠ 0)

/-- The offset of the first occurrence of `needle`. -/
def firstAt (needle : Mem) : Mem → Option Nat
  | [] => if needle = [] then some 0 else none
  | b :: rest => if needle <+: b :: rest then some 0 else (firstAt needle rest).map (· + 1)

@[simp] theorem text_nil : text [] = [] := rfl

theorem text_cons (b : UInt8) (rest : Mem) : text (b :: rest) = if b = 0 then [] else b :: text rest := by
  by_cases zero : b = 0 <;> simp [text,zero]

theorem text_plain {mem : Mem} (plain : 0 ∉ mem) : text mem = mem := by
  apply List.takeWhile_eq_self_iff.mpr
  intro b inside
  have different : b ≠ 0 := fun same => plain (same ▸ inside)
  simpa using different

/-- A byte that stops a scan hides what is behind it. -/
theorem takeWhile_cut {p : UInt8 → Bool} {b : UInt8} (stops : p b = false) (mem rest : Mem) :
    (mem ++ b :: rest).takeWhile p = mem.takeWhile p := by
  induction mem with
  | nil => simp [stops]
  | cons c mem ih => rw [List.cons_append,List.takeWhile_cons,List.takeWhile_cons,ih]

/-- Two texts that are cut at the same byte are the same up to it and behind it. -/
theorem separator_inj {q : UInt8} {front front' rest rest' : Mem} (other : q ∉ front) (other' : q ∉ front')
    (same : front ++ q :: rest = front' ++ q :: rest') : front = front' ∧ rest = rest' := by
  have cut : ∀ {line rest : Mem},q ∉ line → (line ++ q :: rest).takeWhile (· ≠ q) = line := by
    intro line rest clear
    rw [takeWhile_cut (by simp),List.takeWhile_eq_self_iff]
    intro b member
    exact decide_eq_true fun found => clear (found ▸ member)
  have fronts : front = front' := by rw [← cut other,same,cut other']
  subst fronts
  exact ⟨rfl,(List.cons.inj (List.append_cancel_left same)).2⟩

/-- The byte at which a scan stops. -/
theorem dropWhile_stops {p : UInt8 → Bool} {mem rest : Mem} {b : UInt8} (behind : mem.dropWhile p = b :: rest) : p b = false := by
  have stopped := List.head?_dropWhile_not p mem
  rw [behind] at stopped
  simpa using stopped

/-- A terminator behind a block ends its string, if nothing before it does. -/
theorem text_cut (mem rest : Mem) : text (mem ++ 0 :: rest) = text mem := takeWhile_cut rfl mem rest

theorem text_append {line : Mem} (plain : 0 ∉ line) (rest : Mem) : text (line ++ rest) = line ++ text rest := by
  apply List.takeWhile_append_of_pos
  intro b inside
  have different : b ≠ 0 := fun same => plain (same ▸ inside)
  simpa using different

theorem text_terminated {line : Mem} (plain : 0 ∉ line) (rest : Mem) : text (line ++ 0 :: rest) = line := by
  rw [text_cut,text_plain plain]

theorem plain_take {mem : Mem} (plain : 0 ∉ mem) (n : Nat) : 0 ∉ mem.take n := by
  intro zero
  exact plain (List.take_subset n mem zero)

theorem plain_drop {mem : Mem} (plain : 0 ∉ mem) (n : Nat) : 0 ∉ mem.drop n := by
  intro zero
  exact plain (List.drop_subset n mem zero)

theorem plain_dropWhile {mem : Mem} (plain : 0 ∉ mem) (p : UInt8 → Bool) : 0 ∉ mem.dropWhile p := by
  intro zero
  exact plain (List.dropWhile_subset p zero)

theorem plain_takeWhile {mem : Mem} (plain : 0 ∉ mem) (p : UInt8 → Bool) : 0 ∉ mem.takeWhile p := by
  intro zero
  exact plain (List.takeWhile_subset p zero)

theorem zero_not_mem_text (mem : Mem) : 0 ∉ text mem := by
  intro inside
  simpa using List.mem_takeWhile_imp inside

theorem text_length_le (mem : Mem) : (text mem).length ≤ mem.length := List.IsPrefix.length_le (List.takeWhile_prefix _)

theorem texts_length (raws : List Mem) : (raws.map text).flatten.length ≤ raws.flatten.length := by
  induction raws with
  | nil => exact Nat.le_refl _
  | cons raw raws ih =>
    have here := text_length_le raw
    simp only [List.map_cons,List.flatten_cons,List.length_append]
    omega

/-- Strings that are together as long as the bytes they were read from are these bytes. -/
theorem texts_whole {raws : List Mem} (whole : (raws.map text).flatten.length = raws.flatten.length) : raws.map text = raws := by
  induction raws with
  | nil => rfl
  | cons raw raws ih =>
    have here := text_length_le raw
    have behind := texts_length raws
    simp only [List.map_cons,List.flatten_cons,List.length_append] at whole
    have same : text raw = raw := List.IsPrefix.eq_of_length (List.takeWhile_prefix _) (show (text raw).length = _ by omega)
    rw [List.map_cons,same,ih (by omega)]

theorem cstr_eq (mem : Mem) : cstr mem = if 0 ∈ mem then some (text mem) else none := by
  induction mem with
  | nil => rfl
  | cons b rest ih =>
    by_cases zero : b = 0
    · simp [cstr,text_cons,zero]
    · by_cases ended : 0 ∈ rest <;> simp [cstr,text_cons,zero,Ne.symm zero,ih,ended]

theorem cstr_terminated {line : Mem} (plain : 0 ∉ line) (rest : Mem) : cstr (line ++ 0 :: rest) = some line := by
  simp [cstr_eq,text_terminated plain]

theorem strchr_eq {c : UInt8} (printable : c ≠ 0) (mem : Mem) :
    strchr c mem =
      match (text mem).idxOf? c with
      | some i => some (some i)
      | none => if 0 ∈ mem then some none else none := by
  induction mem with
  | nil => rfl
  | cons b rest ih =>
    by_cases here : b = c
    · simp [strchr,text_cons,here,printable,List.idxOf?_cons]
    · by_cases zero : b = 0
      · simp [strchr,text_cons,zero,Ne.symm printable]
      · rw [strchr,if_neg here,if_neg zero,ih,text_cons,if_neg zero,List.idxOf?_cons]
        cases (text rest).idxOf? c <;> by_cases ended : 0 ∈ rest <;> simp [here,ended,Ne.symm zero]

/-- What `strncmp` compares: it stops inside the block unless the block ends inside `needle`. -/
theorem begins_eq {needle : Mem} (plain : 0 ∉ needle) (mem : Mem) :
    begins needle mem =
      if needle <+: text mem then some true else if mem <+: needle then none else some false := by
  induction needle generalizing mem with
  | nil => simp [begins]
  | cons c needle ih =>
    obtain ⟨c_plain,needle_plain⟩ := List.ne_and_not_mem_of_not_mem_cons plain
    cases mem with
    | nil => simp [begins]
    | cons b rest =>
      by_cases same : b = c
      · subst same
        simp [begins,text_cons,Ne.symm c_plain,ih needle_plain,List.cons_prefix_cons]
      · by_cases zero : b = 0
        · simp [begins,text_cons,zero,c_plain,List.cons_prefix_cons]
        · simp [begins,text_cons,zero,same,Ne.symm same,List.cons_prefix_cons]

theorem firstAt_short {needle mem : Mem} (short : mem.length < needle.length) : firstAt needle mem = none := by
  induction mem with
  | nil =>
    have some_byte : needle ≠ [] := List.length_pos_iff.mp short
    simp [firstAt,some_byte]
  | cons b rest ih =>
    have not_here : ¬ needle <+: b :: rest := fun here => absurd here.length_le (by omega)
    simp [firstAt,not_here,ih (by simp at short; omega)]

/-- A search finds the first occurrence before the terminator, and leaves the block if there is neither. -/
theorem strstr_eq {needle : Mem} (plain : 0 ∉ needle) (mem : Mem) :
    strstr needle mem =
      match firstAt needle (text mem) with
      | some i => some (some i)
      | none => if 0 ∈ mem then some none else none := by
  induction mem with
  | nil =>
    cases needle with
    | nil => rfl
    | cons c needle => simp [strstr,begins,firstAt]
  | cons b rest ih =>
    rw [strstr,begins_eq plain]
    by_cases here : needle <+: text (b :: rest)
    · have found : firstAt needle (text (b :: rest)) = some 0 := by
        cases split : text (b :: rest) with
        | nil => rw [split] at here; simp [firstAt,List.prefix_nil.mp here]
        | cons d tail => rw [split] at here; simp [firstAt,here]
      simp [here,found]
    · rw [if_neg here]
      by_cases cut : b :: rest <+: needle
      · have plain_mem : 0 ∉ b :: rest := fun inside => plain (cut.subset inside)
        have whole : text (b :: rest) = b :: rest := text_plain plain_mem
        have short : (b :: rest).length < needle.length := by
          rw [whole] at here
          rcases Nat.lt_or_ge (b :: rest).length needle.length with less | enough
          · exact less
          · exact absurd (cut.eq_of_length_le enough ▸ List.prefix_rfl) here
        rw [if_pos cut,whole,firstAt_short short,if_neg plain_mem]
      · rw [if_neg cut]
        by_cases zero : b = 0
        · have some_byte : needle ≠ [] := by rintro rfl; simp at here
          simp [zero,text_cons,firstAt,some_byte]
        · rw [text_cons,if_neg zero] at here ⊢
          simp only [firstAt,if_neg here,if_neg zero,ih]
          cases firstAt needle (text rest) <;> by_cases ended : 0 ∈ rest <;> simp [ended,Ne.symm zero]

theorem firstAt_eq_some {needle mem : Mem} {i : Nat} :
    firstAt needle mem = some i ↔ needle <+: mem.drop i ∧ i ≤ mem.length ∧ ∀ j < i, ¬ needle <+: mem.drop j := by
  induction mem generalizing i with
  | nil =>
    cases needle with
    | nil => cases i <;> simp [firstAt]
    | cons c needle => simp [firstAt]
  | cons b rest ih =>
    by_cases here : needle <+: b :: rest
    · constructor
      · intro found
        simp only [firstAt,if_pos here,Option.some.injEq] at found
        subst found
        simp [here]
      · rintro ⟨_,_,first⟩
        cases i with
        | zero => simp [firstAt,here]
        | succ i => exact absurd here (first 0 (by omega))
    · simp only [firstAt,if_neg here,Option.map_eq_some_iff,ih]
      constructor
      · rintro ⟨k,⟨found,inside,first⟩,rfl⟩
        refine ⟨by simpa using found,by simpa using inside,?_⟩
        rintro (_ | j) earlier
        · simpa using here
        · simpa using first j (by omega)
      · rintro ⟨found,inside,first⟩
        cases i with
        | zero => exact absurd (by simpa using found) here
        | succ i =>
          refine ⟨i,⟨by simpa using found,by simpa using inside,?_⟩,rfl⟩
          intro j earlier
          simpa using first (j + 1) (by omega)

/-- A text begins with itself. -/
theorem firstAt_self (needle rest : Mem) : firstAt needle (needle ++ rest) = some 0 :=
  firstAt_eq_some.mpr ⟨List.prefix_append _ _,Nat.zero_le _,fun _ before => absurd before (Nat.not_lt_zero _)⟩

theorem firstAt_eq_none {needle mem : Mem} : firstAt needle mem = none ↔ ¬ needle <:+: mem := by
  induction mem with
  | nil => by_cases empty : needle = [] <;> simp [firstAt,empty]
  | cons b rest ih =>
    by_cases here : needle <+: b :: rest
    · simp [firstAt,here,List.infix_cons_iff]
    · simp [firstAt,here,ih,List.infix_cons_iff]

/-- A needle that does not overlap itself is first found where it stands behind text without it. -/
theorem firstAt_behind {needle front : Mem} (unbordered : ∀ k < needle.length,0 < k → ¬ needle.drop k <+: needle)
    (absent : ¬ needle <:+: front) (behind : Mem) : firstAt needle (front ++ (needle ++ behind)) = some front.length := by
  rw [firstAt_eq_some]
  refine ⟨by simp,by simp,?_⟩
  intro j earlier found
  rw [List.drop_append_of_le_length (Nat.le_of_lt earlier)] at found
  have split : (front.drop j).length = front.length - j := List.length_drop
  by_cases inside : needle.length ≤ front.length - j
  · have here : needle <+: front.drop j :=
      List.prefix_of_prefix_length_le found (List.prefix_append _ _) (by omega)
    exact absent (here.isInfix.trans (List.drop_suffix j front).isInfix)
  · -- The occurrence ends inside the needle, so the part of it there begins the needle.
    have cut : needle.drop (front.length - j) <+: needle ++ behind := by
      have dropped := found.drop (front.drop j).length
      rwa [List.drop_left,split] at dropped
    have border : needle.drop (front.length - j) <+: needle :=
      List.prefix_of_prefix_length_le cut (List.prefix_append _ _) (by simp)
    exact unbordered (front.length - j) (by omega) (by omega) border

/-- A needle whose first byte is not in the text before is found behind it. -/
theorem firstAt_head {c : UInt8} {front : Mem} (other : c ∉ front) (needle rest : Mem) :
    firstAt (c :: needle) (front ++ rest) = (firstAt (c :: needle) rest).map (· + front.length) := by
  induction front with
  | nil => simp
  | cons b front ih =>
    obtain ⟨first,behind⟩ := List.ne_and_not_mem_of_not_mem_cons other
    have elsewhere : ¬ c :: needle <+: b :: (front ++ rest) := fun here => first (List.cons_prefix_cons.mp here).1
    rw [List.cons_append,firstAt,if_neg elsewhere,ih behind,Option.map_map]
    rfl

/-- A prefix without a byte ends before it. -/
theorem prefix_separated {needle : Mem} {q : UInt8} (other : q ∉ needle) (front rest : Mem) :
    needle <+: front ++ q :: rest ↔ needle <+: front := by
  constructor
  · intro here
    rcases Nat.le_total needle.length front.length with short | long
    · exact List.prefix_of_prefix_length_le here (List.prefix_append _ _) short
    · have beyond : front ++ [q] <+: front ++ q :: rest := by simp
      rcases Nat.eq_or_lt_of_le long with whole | longer
      · exact (List.prefix_of_prefix_length_le here (List.prefix_append _ _) (Nat.le_of_eq whole.symm))
      · have inside := List.prefix_of_prefix_length_le beyond here (by simp; omega)
        exact absurd (inside.subset (by simp)) other
  · exact fun here => here.trans (List.prefix_append _ _)

/-- A needle without a byte is first found before or behind it. -/
theorem firstAt_separated {needle : Mem} {q : UInt8} (some_byte : needle ≠ []) (other : q ∉ needle) (front rest : Mem) :
    firstAt needle (front ++ q :: rest) =
      (firstAt needle front).or ((firstAt needle rest).map (· + (front.length + 1))) := by
  induction front with
  | nil =>
    have elsewhere : ¬ needle <+: q :: rest := by
      have nowhere := (prefix_separated other [] rest).mp
      simpa [some_byte] using nowhere
    simp [firstAt,elsewhere,some_byte]
  | cons b front ih =>
    have same := prefix_separated other (b :: front) rest
    rw [List.cons_append] at same
    rw [List.cons_append,firstAt,firstAt]
    by_cases here : needle <+: b :: front
    · rw [if_pos here,if_pos (same.mpr here)]
      rfl
    · rw [if_neg here,if_neg (mt same.mp here),ih]
      cases firstAt needle front <;> cases firstAt needle rest <;> rfl

theorem strstr_eq_none {needle mem : Mem} (plain : 0 ∉ needle) :
    strstr needle mem = none ↔ 0 ∉ mem ∧ ¬ needle <:+: mem := by
  rw [strstr_eq plain]
  by_cases ended : 0 ∈ mem
  · cases firstAt needle (text mem) <;> simp [ended]
  · rw [text_plain ended,← firstAt_eq_none]
    cases firstAt needle mem <;> simp [ended]

/-! ### Terminated strings -/

theorem text_split {mem : Mem} (ended : 0 ∈ mem) : ∃ rest, mem = text mem ++ 0 :: rest := by
  induction mem with
  | nil => simp at ended
  | cons b mem ih =>
    by_cases zero : b = 0
    · exact ⟨mem,by simp [text_cons,zero]⟩
    · obtain ⟨rest,split⟩ := ih (by simpa [Ne.symm zero] using ended)
      refine ⟨rest,?_⟩
      rw [text_cons,if_neg zero,List.cons_append,← split]

/-- What a string function sees of bytes that a terminator was put behind. -/
theorem text_ended (piece : Mem) : ∃ rest,piece ++ [0] = text piece ++ 0 :: rest := by
  by_cases ended : 0 ∈ piece
  · obtain ⟨rest,split⟩ := text_split ended
    exact ⟨rest ++ [0],by rw [← List.cons_append,← List.append_assoc,← split]⟩
  · exact ⟨[],by rw [text_plain ended]⟩

theorem strchr_terminated {c : UInt8} {line : Mem} (printable : c ≠ 0) (plain : 0 ∉ line) (rest : Mem) :
    strchr c (line ++ 0 :: rest) = some (line.idxOf? c) := by
  rw [strchr_eq printable,text_terminated plain]
  cases line.idxOf? c <;> simp

theorem begins_terminated {needle line : Mem} (needle_plain : 0 ∉ needle) (plain : 0 ∉ line) (rest : Mem) :
    begins needle (line ++ 0 :: rest) = some (decide (needle <+: line)) := by
  have not_cut : ¬ line ++ 0 :: rest <+: needle := fun cut => needle_plain (cut.subset (by simp))
  rw [begins_eq needle_plain,text_terminated plain,if_neg not_cut]
  by_cases here : needle <+: line <;> simp [here]

theorem strstr_terminated {needle line : Mem} (needle_plain : 0 ∉ needle) (plain : 0 ∉ line) (rest : Mem) :
    strstr needle (line ++ 0 :: rest) = some (firstAt needle line) := by
  rw [strstr_eq needle_plain,text_terminated plain]
  cases firstAt needle line <;> simp

theorem skipBlank_terminated {line : Mem} (rest : Mem) :
    skipBlank (line ++ 0 :: rest) = some (line.dropWhile isBlank ++ 0 :: rest) := by
  induction line with
  | nil => rfl
  | cons b line ih => by_cases blank : isBlank b <;> simp [skipBlank,blank,ih]

theorem skipSpace_terminated (line rest : Mem) :
    skipSpace (line ++ 0 :: rest) = some (line.dropWhile isspace ++ 0 :: rest) := by
  induction line with
  | nil => rfl
  | cons b line ih => by_cases space : isspace b <;> simp [skipSpace,space,ih]

/-! ### Copies into buffers -/

/-- The `n` bytes that copying a string writes. -/
def padded (n : Nat) (line : Mem) : Mem := line.take n ++ List.replicate (n - line.length) 0

@[simp] theorem padded_length (n : Nat) (line : Mem) : (padded n line).length = n := by
  simp [padded]
  omega

/-- The bytes behind the ones that are written stay. -/
theorem overwrite_toList {n : Nat} (old : Vector UInt8 n) {bytes : Mem} (fits : bytes.length ≤ n) :
    (overwrite old bytes).toList = bytes ++ old.toList.drop bytes.length := by
  apply List.ext_getElem
  · simp
    omega
  · intro i _ _
    by_cases inside : i < bytes.length
    · simp [overwrite,inside]
    · simp [overwrite,inside,List.getElem_append,Nat.add_sub_cancel' (Nat.not_lt.mp inside)]

theorem overwrite_take {n : Nat} (old : Vector UInt8 n) (bytes : Mem) (fits : bytes.length ≤ n) :
    (overwrite old bytes).toList.take bytes.length = bytes := by
  rw [overwrite_toList old fits,List.take_left]

theorem overwrite_whole {n : Nat} (old : Vector UInt8 n) {bytes : Mem} (whole : bytes.length = n) :
    (overwrite old bytes).toList = bytes := by
  rw [overwrite_toList old (Nat.le_of_eq whole),List.drop_of_length_le (by simp [whole]),List.append_nil]

theorem text_padded {line : Mem} (plain : 0 ∉ line) (n : Nat) : text (padded n line) = line.take n := by
  have front_plain := plain_take plain n
  rw [padded]
  cases zeros : n - line.length with
  | zero => rw [List.replicate_zero,List.append_nil,text_plain front_plain]
  | succ more => rw [List.replicate_succ,text_terminated front_plain]

theorem strncpy_terminated {line : Mem} (plain : 0 ∉ line) (n : Nat) (rest : Mem) :
    strncpy n (line ++ 0 :: rest) = some (padded n line) := by
  induction line generalizing n with
  | nil => cases n <;> simp [strncpy,padded]
  | cons b line ih =>
    obtain ⟨b_plain,line_plain⟩ := List.ne_and_not_mem_of_not_mem_cons plain
    cases n with
    | zero => simp [strncpy,padded]
    | succ n => simp [strncpy,Ne.symm b_plain,ih line_plain,padded]

/-- The bytes that `strncpy` writes, where it stays inside its memory. -/
theorem strncpy_eq {n : Nat} {mem bytes : Mem} (copied : strncpy n mem = some bytes) : bytes = padded n ((text mem).take n) := by
  induction n generalizing mem bytes with
  | zero =>
    cases mem <;> simp_all [strncpy,padded]
  | succ n ih =>
    cases mem with
    | nil => simp [strncpy] at copied
    | cons b rest =>
      by_cases ends : b = 0
      · simp only [strncpy,ends,if_true,Option.some.injEq] at copied
        simp [← copied,ends,text,padded]
      · simp only [strncpy,ends,if_false,Option.map_eq_some_iff] at copied
        obtain ⟨more,later,rfl⟩ := copied
        rw [ih later]
        simp [text,padded,ends]

/-- A short string that is copied into a field can be read back. -/
theorem overwrite_padded_inj {n m : Nat} (old : Vector UInt8 n) (fits : m ≤ n) {a b : Mem} (a_plain : 0 ∉ a) (b_plain : 0 ∉ b)
    (a_short : a.length ≤ m) (b_short : b.length ≤ m) (same : overwrite old (padded m a) = overwrite old (padded m b)) : a = b := by
  have read : ∀ s : Mem,(overwrite old (padded m s)).toList.take m = padded m s := by
    intro s
    have front := overwrite_take old (padded m s) (by simpa using fits)
    rwa [padded_length] at front
  have copied : padded m a = padded m b := by rw [← read a,same,read b]
  have strings := congrArg text copied
  rwa [text_padded a_plain,text_padded b_plain,List.take_of_length_le a_short,List.take_of_length_le b_short] at strings

/-! ### Numbers -/

/-- What is left behind the number that a block begins with. -/
def afterNumber (mem : Mem) : Mem := (sign (mem.dropWhile isspace)).2.dropWhile isdigit

theorem skipSpace_eq (mem : Mem) :
    skipSpace mem = if mem.dropWhile isspace = [] then none else some (mem.dropWhile isspace) := by
  induction mem with
  | nil => rfl
  | cons b rest ih => by_cases space : isspace b <;> simp [skipSpace,space,ih]

theorem digits_eq_none {n : Nat} {mem : Mem} : digits n mem = none ↔ mem.dropWhile isdigit = [] := by
  induction mem generalizing n with
  | nil => simp [digits]
  | cons b rest ih => by_cases digit : isdigit b <;> simp [digits,digit,ih]

/-- A number is read inside its block when a byte behind it ends it. -/
theorem strtol_eq_none {mem : Mem} : strtol mem = none ↔ afterNumber mem = [] := by
  rw [strtol,skipSpace_eq]
  by_cases blank : mem.dropWhile isspace = []
  · simp [blank,afterNumber,sign]
  · rw [if_neg blank,Option.bind_some,Option.map_eq_none_iff,digits_eq_none,afterNumber]

theorem sign_append {mem : Mem} (more : Mem) (some_byte : mem ≠ []) :
    sign (mem ++ more) = ((sign mem).1,(sign mem).2 ++ more) := by
  cases mem with
  | nil => exact absurd rfl some_byte
  | cons b rest =>
    simp only [sign,List.cons_append]
    split_ifs <;> rfl

theorem strtol_append {mem : Mem} {n : Int} (more : Mem) (read : strtol mem = some n) :
    strtol (mem ++ more) = some n := by
  obtain ⟨rest,skipped,read⟩ := Option.bind_eq_some_iff.mp read
  obtain ⟨m,digits_read,rfl⟩ := Option.map_eq_some_iff.mp read
  have some_byte : rest ≠ [] := by
    rintro rfl
    simp [sign,digits] at digits_read
  rw [strtol,skipSpace_append more skipped]
  simp [sign_append more some_byte,digits_append more digits_read]

theorem atoi_eq_none {mem : Mem} : atoi mem = none ↔ afterNumber mem = [] := by
  rw [atoi,Option.map_eq_none_iff,strtol_eq_none]

theorem mem_dropWhile {p : UInt8 → Bool} {b : UInt8} {mem : Mem} (stops : p b = false) (inside : b ∈ mem) :
    b ∈ mem.dropWhile p := by
  have split := List.takeWhile_append_dropWhile (p := p) (l := mem)
  rw [← split] at inside
  rcases List.mem_append.mp inside with front | behind
  · rw [List.mem_takeWhile_imp front] at stops
    cases stops
  · exact behind

theorem zero_mem_afterNumber {mem : Mem} (ended : 0 ∈ mem) : 0 ∈ afterNumber mem := by
  have behind : 0 ∈ mem.dropWhile isspace := mem_dropWhile rfl ended
  apply mem_dropWhile rfl
  cases split : mem.dropWhile isspace with
  | nil => simp [split] at behind
  | cons b rest =>
    rw [split] at behind
    simp only [sign]
    split_ifs with minus plus
    · simpa [minus] using behind
    · simpa [plus] using behind
    · exact behind

/-- A terminated string holds a number. -/
theorem atoi_terminated {mem : Mem} (ended : 0 ∈ mem) : ∃ n,atoi mem = some n := by
  cases read : atoi mem with
  | none =>
    have inside := zero_mem_afterNumber ended
    simp [atoi_eq_none.mp read] at inside
  | some n => exact ⟨n,rfl⟩

theorem atoi_append {mem : Mem} {n : Int32} (more : Mem) (read : atoi mem = some n) : atoi (mem ++ more) = some n := by
  obtain ⟨m,number,rfl⟩ := Option.map_eq_some_iff.mp read
  rw [atoi,strtol_append more number,Option.map_some]

end Nulleye.CStrings
