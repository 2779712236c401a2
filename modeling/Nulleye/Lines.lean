import Nulleye.CStrings

/-!
Reading a text file with `fgets` into a buffer of fixed size, as a library. A call
stops behind a newline, at the end of the file or when the buffer is full, so a
line is read in one piece if it fits and in several pieces otherwise. No piece
holds bytes of two lines: what is read of a file is what is read of its lines.
-/
namespace Nulleye.Lines
open Nulleye.CStrings

/-- `fgets` with a buffer of `room + 1` bytes: what it stores before the terminator, and what is left of the file. -/
def fgets : Nat → Mem → Mem × Mem
  | 0,file => ([],file)
  | _ + 1,[] => ([],[])
  | room + 1,b :: file => if b = 10 then ([b],file) else (b :: (fgets room file).1,(fgets room file).2)

/-- The first `calls` pieces that `fgets` returns. -/
def fgetsUpTo (room : Nat) : Nat → Mem → List Mem
  | 0,_ => []
  | calls + 1,file => if file = [] then [] else (fgets room file).1 :: fgetsUpTo room calls (fgets room file).2

/-- `while (fgets(line, sizeof(line), f))`: the pieces in turn. Every call reads at least one byte. -/
def pieces (room : Nat) (file : Mem) : List Mem := fgetsUpTo room file.length file

/-- Whether a file, or a part of it, ends where a line ends. -/
def Closed (file : Mem) : Prop := file = [] ∨ file.getLast? = some 10

/-- The lines of a file, each ended by a newline. -/
def unlines (lines : List Mem) : Mem := lines.flatMap (· ++ [10])

/-- Lines as a file, whose last newline may be missing. -/
def joined (lines : List Mem) (newline : Bool) : Mem := if newline then unlines lines else (unlines lines).dropLast

/-- The lines of a file; behind a last newline there is an empty one. -/
def linesOf (file : Mem) : List Mem := file.splitOn 10

@[simp] theorem fgets_append (room : Nat) (file : Mem) : (fgets room file).1 ++ (fgets room file).2 = file := by
  induction room generalizing file with
  | zero => rfl
  | succ room ih =>
    cases file with
    | nil => rfl
    | cons b file =>
      simp only [fgets]
      split_ifs <;> simp [ih]

theorem fgets_length (room : Nat) (file : Mem) :
    (fgets room file).1.length + (fgets room file).2.length = file.length := by
  rw [← List.length_append,fgets_append]

theorem fgets_reads {room : Nat} {file : Mem} (positive : 0 < room) (some_byte : file ≠ []) :
    (fgets room file).2.length < file.length := by
  obtain ⟨room,rfl⟩ : ∃ n, room = n + 1 := ⟨room - 1,by omega⟩
  cases file with
  | nil => exact absurd rfl some_byte
  | cons b file =>
    have counted := fgets_length room file
    simp only [fgets]
    split_ifs <;> simp only [List.length_cons] <;> omega

private theorem fgetsUpTo_enough {room n m : Nat} (positive : 0 < room) {file : Mem} (n_enough : file.length ≤ n)
    (m_enough : file.length ≤ m) : fgetsUpTo room n file = fgetsUpTo room m file := by
  induction n generalizing m file with
  | zero =>
    have empty : file = [] := List.length_eq_zero_iff.mp (Nat.le_zero.mp n_enough)
    cases m <;> simp [fgetsUpTo,empty]
  | succ n ih =>
    by_cases empty : file = []
    · cases m <;> simp [fgetsUpTo,empty]
    · have reads := fgets_reads positive empty
      obtain ⟨m,rfl⟩ : ∃ k, m = k + 1 := ⟨m - 1,by omega⟩
      have same : fgetsUpTo room n (fgets room file).2 = fgetsUpTo room m (fgets room file).2 :=
        ih (by omega) (by omega)
      simp only [fgetsUpTo,if_neg empty,same]

@[simp] theorem pieces_nil (room : Nat) : pieces room [] = [] := rfl

theorem pieces_cons {room : Nat} {file : Mem} (positive : 0 < room) (some_byte : file ≠ []) :
    pieces room file = (fgets room file).1 :: pieces room (fgets room file).2 := by
  have reads := fgets_reads positive some_byte
  obtain ⟨n,length⟩ : ∃ n, file.length = n + 1 := ⟨file.length - 1,by omega⟩
  rw [pieces,length,fgetsUpTo,if_neg some_byte,pieces,fgetsUpTo_enough positive (by omega) (Nat.le_refl _)]

/-! ### Pieces and lines -/

theorem fgets_line {room : Nat} {body : Mem} (unbroken : 10 ∉ body) (fits : body.length < room) (rest : Mem) :
    fgets room (body ++ 10 :: rest) = (body ++ [10],rest) := by
  induction body generalizing room with
  | nil =>
    obtain ⟨room,rfl⟩ : ∃ n, room = n + 1 := ⟨room - 1,by omega⟩
    simp [fgets]
  | cons b body ih =>
    obtain ⟨b_other,body_unbroken⟩ := List.ne_and_not_mem_of_not_mem_cons unbroken
    obtain ⟨room,rfl⟩ : ∃ n, room = n + 1 := ⟨room - 1,by omega⟩
    have body_read : fgets room (body ++ 10 :: rest) = (body ++ [10],rest) := ih body_unbroken (by simp at fits; omega)
    simp [fgets,Ne.symm b_other,body_read]

theorem fgets_last {room : Nat} {body : Mem} (unbroken : 10 ∉ body) (fits : body.length ≤ room) :
    fgets room body = (body,[]) := by
  induction body generalizing room with
  | nil => cases room <;> rfl
  | cons b body ih =>
    obtain ⟨b_other,body_unbroken⟩ := List.ne_and_not_mem_of_not_mem_cons unbroken
    obtain ⟨room,rfl⟩ : ∃ n, room = n + 1 := ⟨room - 1,by simp at fits; omega⟩
    have body_read : fgets room body = (body,[]) := ih body_unbroken (by simpa using fits)
    simp [fgets,Ne.symm b_other,body_read]

/-- A line that does not fit is cut where the buffer is full. -/
theorem fgets_full {front : Mem} (unbroken : 10 ∉ front) (rest : Mem) : fgets front.length (front ++ rest) = (front,rest) := by
  induction front with
  | nil => rfl
  | cons b front ih =>
    obtain ⟨b_other,front_unbroken⟩ := List.ne_and_not_mem_of_not_mem_cons unbroken
    simp [fgets,Ne.symm b_other,ih front_unbroken]

/-- Lines that fit are read one by one; the last one may lack its newline. -/
theorem pieces_unlines {room : Nat} (lines : List Mem) (last : Mem) (unbroken : ∀ line ∈ lines,10 ∉ line)
    (fits : ∀ line ∈ lines,line.length < room) (last_unbroken : 10 ∉ last) (last_fits : last.length ≤ room)
    (positive : 0 < room) :
    pieces room (unlines lines ++ last) = lines.map (· ++ [10]) ++ if last = [] then [] else [last] := by
  induction lines with
  | nil =>
    by_cases empty : last = []
    · simp [unlines,empty]
    · simp [unlines,pieces_cons positive empty,fgets_last last_unbroken last_fits,empty]
  | cons line lines ih =>
    obtain ⟨line_unbroken,lines_unbroken⟩ := List.forall_mem_cons.mp unbroken
    obtain ⟨line_fits,lines_fit⟩ := List.forall_mem_cons.mp fits
    have split : unlines (line :: lines) ++ last = line ++ 10 :: (unlines lines ++ last) := by simp [unlines]
    rw [split,pieces_cons positive (by simp),fgets_line line_unbroken line_fits,ih lines_unbroken lines_fit,
      List.map_cons,List.cons_append]

/-- What is read from a file of lines that fit, by a reader to which newlines do not matter. -/
theorem pieces_joined {room : Nat} {lines : List Mem} {β : Type} {read : Mem → Option β} (unbroken : ∀ line ∈ lines,10 ∉ line)
    (fits : ∀ line ∈ lines,line.length < room) (positive : 0 < room) (newline : Bool)
    (same : ∀ line ∈ lines,read (line ++ [10]) = read line) (blank : read [] = none) :
    (pieces room (joined lines newline)).filterMap read = lines.filterMap read := by
  have each : ∀ some_lines : List Mem,(∀ line ∈ some_lines,line ∈ lines) →
      (some_lines.map (· ++ [10])).filterMap read = some_lines.filterMap read := by
    intro some_lines inside
    rw [List.filterMap_map]
    exact List.filterMap_congr fun line member => same line (inside line member)
  cases newline with
  | true =>
    have pieces_eq := pieces_unlines lines [] unbroken fits (by simp) (Nat.zero_le _) positive
    simp only [List.append_nil,if_true] at pieces_eq
    rw [joined,if_pos rfl,pieces_eq,each lines fun _ member => member]
  | false =>
    rcases List.eq_nil_or_concat lines with rfl | ⟨front,last,rfl⟩
    · rfl
    · have file : (unlines (front ++ [last])).dropLast = unlines front ++ last := by
        simp [unlines,← List.append_assoc]
      have pieces_eq := pieces_unlines front last
        (fun line member => unbroken line (by simp [member])) (fun line member => fits line (by simp [member]))
        (unbroken last (by simp)) (Nat.le_of_lt (fits last (by simp))) positive
      simp only [joined,List.concat_eq_append,Bool.false_eq_true,if_false,file,pieces_eq,List.filterMap_append] at each ⊢
      rw [each front fun line member => by simp [member]]
      by_cases empty : last = [] <;> simp [empty,blank]

theorem fgets_closed {room : Nat} {front : Mem} (closed : front.getLast? = some 10) (rest : Mem) :
    fgets room (front ++ rest) = ((fgets room front).1,(fgets room front).2 ++ rest) ∧ Closed (fgets room front).2 := by
  induction room generalizing front with
  | zero => exact ⟨rfl,.inr closed⟩
  | succ room ih =>
    cases front with
    | nil => simp at closed
    | cons b front =>
      by_cases newline : b = 10
      · refine ⟨by simp [fgets,newline],?_⟩
        cases front with
        | nil => exact .inl (by simp [fgets,newline])
        | cons c front => exact .inr (by simpa [fgets,newline] using closed)
      · have front_closed : front.getLast? = some 10 := by
          cases front with
          | nil => simp [newline] at closed
          | cons c front => simpa using closed
        obtain ⟨read,left⟩ := ih front_closed
        exact ⟨by simp [fgets,newline,read],by simpa [fgets,newline] using left⟩

/-- Where a line ends, the pieces of a file divide. -/
theorem pieces_append {room : Nat} (positive : 0 < room) {front : Mem} (closed : Closed front) (rest : Mem) :
    pieces room (front ++ rest) = pieces room front ++ pieces room rest := by
  induction length : front.length using Nat.strong_induction_on generalizing front with
  | h n ih =>
    rcases closed with rfl | closed
    · simp
    · have some_byte : front ≠ [] := by rintro rfl; simp at closed
      have reads := fgets_reads positive some_byte
      obtain ⟨read,left⟩ := @fgets_closed room front closed rest
      rw [pieces_cons positive (by simp [some_byte]),read,pieces_cons positive some_byte,
        ih _ (by omega) left rfl,List.cons_append]

/-! ### The lines of a file -/

theorem linesOf_cons (b : UInt8) (file : Mem) :
    linesOf (b :: file) = if b = 10 then [] :: linesOf file else (linesOf file).modifyHead (b :: ·) := by
  rw [linesOf,List.splitOn_cons_eq_if_modifyHead]
  simp [linesOf]

theorem unlines_linesOf (file : Mem) : unlines (linesOf file) = file ++ [10] := by
  induction file with
  | nil => rfl
  | cons b file ih =>
    rw [linesOf_cons]
    split_ifs with newline
    · rw [unlines,List.flatMap_cons,← unlines,ih,newline]
      rfl
    · cases split : linesOf file with
      | nil => exact absurd split (List.splitOn_ne_nil 10 file)
      | cons line lines =>
        rw [split] at ih
        simpa [unlines] using ih

/-- A file is its lines. -/
theorem joined_linesOf (file : Mem) : joined (linesOf file) false = file := by
  simp [joined,unlines_linesOf]

theorem linesOf_unbroken (file : Mem) : ∀ line ∈ linesOf file,10 ∉ line := by
  induction file with
  | nil => simp [linesOf]
  | cons b file ih =>
    rw [linesOf_cons]
    split_ifs with newline
    · exact List.forall_mem_cons.mpr ⟨List.not_mem_nil,ih⟩
    · cases split : linesOf file with
      | nil => simp
      | cons line lines =>
        rw [split] at ih
        obtain ⟨here,rest⟩ := List.forall_mem_cons.mp ih
        refine List.forall_mem_cons.mpr ⟨?_,rest⟩
        exact List.not_mem_cons_of_ne_of_not_mem (Ne.symm newline) here

/-- The lines of a file of unbroken lines. -/
theorem linesOf_unlines {lines : List Mem} (unbroken : ∀ line ∈ lines,10 ∉ line) : linesOf (unlines lines) = lines ++ [[]] := by
  have parted : unlines lines = [10].intercalate (lines ++ [[]]) := by
    induction lines with
    | nil => rfl
    | cons line lines ih =>
      obtain ⟨_,later⟩ := List.forall_mem_cons.mp unbroken
      rw [List.cons_append,List.intercalate_cons_of_ne_nil (by simp),← ih later]
      simp [unlines]
  rw [parted]
  refine List.splitOn_intercalate 10 ?_ (by simp)
  intro line member
  rcases List.mem_append.mp member with inside | last
  · exact unbroken line inside
  · rw [List.mem_singleton.mp last]
    exact List.not_mem_nil

theorem linesOf_subset {file line : Mem} (member : line ∈ linesOf file) : line ⊆ file := by
  intro b inside
  have unbroken := linesOf_unbroken file line member
  have whole : b ∈ unlines (linesOf file) := List.mem_flatMap.mpr ⟨line,member,List.mem_append_left _ inside⟩
  rw [unlines_linesOf] at whole
  rcases List.mem_append.mp whole with before | newline
  · exact before
  · exact absurd (List.mem_singleton.mp newline ▸ inside) unbroken

theorem unlines_length (lines : List Mem) : (unlines lines).length = lines.flatten.length + lines.length := by
  induction lines with
  | nil => rfl
  | cons line lines ih =>
    rw [unlines,List.flatMap_cons,← unlines]
    simp only [List.length_append,List.length_cons,List.length_nil,List.flatten_cons,ih]
    omega

/-- Strings make the lines that they are cut from exactly if no line has a newline or a NUL. -/
theorem linesOf_texts (lines : List Mem) :
    linesOf (unlines (lines.map text)) = lines ++ [[]] ↔ ∀ line ∈ lines,10 ∉ line ∧ 0 ∉ line := by
  constructor
  · intro parted
    have same : unlines (lines.map text) = unlines lines := by
      have back := unlines_linesOf (unlines (lines.map text))
      rw [parted,unlines,List.flatMap_append,← unlines] at back
      exact (List.append_cancel_right back).symm
    have whole : lines.map text = lines := by
      apply texts_whole
      have long := congrArg List.length same
      rw [unlines_length,unlines_length,List.length_map] at long
      omega
    intro line member
    constructor
    · exact linesOf_unbroken _ line (parted ▸ List.mem_append_left _ member)
    · have kept : text line = line := List.map_inj_left.mp (whole.trans (List.map_id _).symm) line member
      exact kept ▸ zero_not_mem_text line
  · intro clear
    have whole : lines.map text = lines := by
      refine (List.map_congr_left ?_).trans (List.map_id _)
      intro line member
      exact text_plain (clear line member).2
    rw [whole]
    exact linesOf_unlines fun line member => (clear line member).1

end Nulleye.Lines
