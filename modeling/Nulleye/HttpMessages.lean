import Nulleye.Decimals

/-!
Messages of HTTP/1.1 in a stream of bytes, as a library: a start line, header fields, and
a body whose length a field gives. A message that is framed is read back from the front of
a stream, and what follows it is left.
-/
namespace Nulleye.HttpMessages
open Nulleye.CStrings Nulleye.Decimals

structure Message where
  start : Mem
  fields : List (Mem × Mem)
  body : Mem

/-! ### Writing -/

def crlf : Mem := [13,10]

def renderField (f : Mem × Mem) : Mem := f.1 ++ ascii ": " ++ f.2 ++ crlf

def Message.render (m : Message) : Mem := m.start ++ crlf ++ m.fields.flatMap renderField ++ crlf ++ m.body

/-! ### Reading -/

/-- The bytes before the first CRLF, and those behind it. -/
def readLine : Mem → Option (Mem × Mem)
  | [] => none
  | b :: rest => if b = 13 ∧ rest.head? = some 10 then some ([],rest.tail) else (readLine rest).map fun x => (b :: x.1,x.2)

/-- The name and the value in a line of a header. -/
def readField (line : Mem) : Option (Mem × Mem) :=
  match line.dropWhile (· ≠ 58) with
  | [] => none
  | _ :: value => some (line.takeWhile (· ≠ 58),value.dropWhile isBlank)

theorem readLine_shorter {mem line rest : Mem} (read : readLine mem = some (line,rest)) : rest.length < mem.length := by
  induction mem generalizing line with
  | nil => cases read
  | cons b mem ih =>
    rw [readLine] at read
    split_ifs at read
    · cases read
      simp only [List.length_tail,List.length_cons]
      omega
    · obtain ⟨⟨front,behind⟩,found,same⟩ := Option.map_eq_some_iff.mp read
      cases same
      exact Nat.lt_succ_of_lt (ih found)

/-- The fields up to an empty line, and what is behind that. -/
def readFields (mem : Mem) : Option (List (Mem × Mem) × Mem) :=
  match _line : readLine mem with
  | none => none
  | some ([],rest) => some ([],rest)
  | some (b :: line,rest) => do
    let f ← readField (b :: line)
    let (fields,rest) ← readFields rest
    return (f :: fields,rest)
termination_by mem.length
decreasing_by exact readLine_shorter _line

/-- The number in the first field of this name. -/
def contentLength (fields : List (Mem × Mem)) : Option Nat := do
  let f ← fields.find? fun f => f.1 = ascii "Content-Length"
  if f.2 ≠ [] ∧ f.2.all isdigit then some (number 0 f.2) else none

def readMessage (mem : Mem) : Option (Message × Mem) := do
  let (start,rest) ← readLine mem
  let (fields,rest) ← readFields rest
  let n ← contentLength fields
  if rest.length < n then none else some (⟨start,fields,rest.take n⟩,rest.drop n)

/-! ### Framed messages -/

/-- A field whose line can be told from other lines, and its name from its value. -/
structure FieldFramed (f : Mem × Mem) : Prop where
  named : f.1 ≠ []
  name : 13 ∉ f.1 ∧ 58 ∉ f.1
  value : 13 ∉ f.2
  unpadded : ∀ b ∈ f.2.head?,isBlank b = false

structure Framed (m : Message) : Prop where
  start : 13 ∉ m.start
  fields : ∀ f ∈ m.fields,FieldFramed f
  length : contentLength m.fields = some m.body.length

theorem readLine_crlf {line : Mem} (plain : 13 ∉ line) (rest : Mem) : readLine (line ++ crlf ++ rest) = some (line,rest) := by
  induction line with
  | nil => rfl
  | cons b line ih =>
    obtain ⟨other,plain⟩ := List.ne_and_not_mem_of_not_mem_cons plain
    rw [List.cons_append,List.cons_append,readLine,if_neg (fun here => other here.1.symm),ih plain]
    rfl

theorem readField_render {f : Mem × Mem} (framed : FieldFramed f) : readField (f.1 ++ ascii ": " ++ f.2) = some f := by
  have none_before : ∀ b ∈ f.1,(b ≠ 58 : Bool) = true := by
    intro b member
    have other : b ≠ 58 := by
      rintro rfl
      exact framed.name.2 member
    simpa using other
  have colon : f.1 ++ ascii ": " ++ f.2 = f.1 ++ 58 :: 32 :: f.2 := by
    rw [List.append_assoc]
    rfl
  have unpadded : f.2.dropWhile isBlank = f.2 := by
    cases split : f.2 with
    | nil => rfl
    | cons b value =>
      have visible := framed.unpadded b (by rw [split]; rfl)
      rw [List.dropWhile_cons_of_neg (by simp [visible])]
  rw [readField,colon,List.dropWhile_append_of_pos none_before,List.takeWhile_append_of_pos none_before]
  simp [isBlank,unpadded]

theorem readFields_line {mem line rest : Mem} (read : readLine mem = some (line,rest)) :
    readFields mem = if line = [] then some ([],rest) else do
      let f ← readField line
      let (fields,rest) ← readFields rest
      return (f :: fields,rest) := by
  rw [readFields]
  split
  · rename_i failed
    rw [failed] at read
    cases read
  · rename_i found
    rw [found] at read
    cases read
    rfl
  · rename_i found
    rw [found] at read
    cases read
    rw [if_neg (List.cons_ne_nil _ _)]

theorem readFields_render {fields : List (Mem × Mem)} (framed : ∀ f ∈ fields,FieldFramed f) (rest : Mem) :
    readFields (fields.flatMap renderField ++ crlf ++ rest) = some (fields,rest) := by
  induction fields with
  | nil =>
    have empty : readLine (crlf ++ rest) = some ([],rest) := rfl
    exact readFields_line empty
  | cons f fields ih =>
    have first := framed f List.mem_cons_self
    have plain : 13 ∉ f.1 ++ ascii ": " ++ f.2 := by
      have colon : (13 : UInt8) ∉ ascii ": " := by decide
      simp [first.name.1,first.value,colon]
    have lines : (f :: fields).flatMap renderField ++ crlf ++ rest =
        f.1 ++ ascii ": " ++ f.2 ++ crlf ++ (fields.flatMap renderField ++ crlf ++ rest) := by simp [renderField]
    have visible : f.1 ++ ascii ": " ++ f.2 ≠ [] := by simp [first.named]
    have later := ih fun f member => framed f (List.mem_cons_of_mem _ member)
    rw [lines,readFields_line (readLine_crlf plain _),if_neg visible,readField_render first]
    simp only [Option.bind_eq_bind,Option.bind_some,later]
    rfl

/-- **A framed message is read back**, whatever follows it. -/
theorem readMessage_render {m : Message} (framed : Framed m) (rest : Mem) : readMessage (m.render ++ rest) = some (m,rest) := by
  have parts : m.render ++ rest = m.start ++ crlf ++ (m.fields.flatMap renderField ++ crlf ++ (m.body ++ rest)) := by
    simp [Message.render]
  have fields := readFields_render framed.fields (m.body ++ rest)
  rw [readMessage,parts,readLine_crlf framed.start]
  simp only [Option.bind_eq_bind,Option.bind_some,fields,framed.length]
  simp

end Nulleye.HttpMessages
