import Nulleye.ConfigFiles
import Nulleye.Decimals

/-!
What a configuration file means, line by line. A line assigns a setting when it is a
key, a colon and a value, and each setting is what the last line that assigns it says,
cut to its buffer.
-/
namespace Nulleye.ConfigAssignments
open Nulleye.CStrings Nulleye.Decimals Nulleye.Lines Nulleye.ConfigFiles

/-! ### Lines that assign -/

/-- Behind its blanks a line is the key, a colon, white space and a value, of which 511 bytes count. -/
def Assigns (line key val : Mem) : Prop :=
  ∃ blanks spaces rest,(∀ b ∈ blanks,isBlank b) ∧ (∀ b ∈ spaces,isspace b) ∧
    line = blanks ++ (key ++ 58 :: (spaces ++ rest)) ∧ (∃ b ∈ rest.head?,isspace b = false) ∧ val = rest.take 511

/-- The keys of a setting. -/
def names : Key → List Mem
  | .database => [ascii "database"]
  | .socket => [ascii "socket"]
  | .logFile => [ascii "log_file"]
  | .ringbufSize => [ascii "ringbuf_size",ascii "ebpf_ringbuf_size"]

/-- The last line that assigns the setting assigns this value. -/
def LastAssigned (lines : List Mem) (k : Key) (val : Mem) : Prop :=
  ∃ before line after,lines = before ++ line :: after ∧ (∃ key ∈ names k,Assigns line key val) ∧
    ∀ l ∈ after,∀ key ∈ names k,∀ v,¬ Assigns l key v

/-- No line assigns the setting. -/
def Unassigned (lines : List Mem) (k : Key) : Prop := ∀ line ∈ lines,∀ key ∈ names k,∀ v,¬ Assigns line key v

/-! ### The settings -/

/-- `config_get_database`: the 256 bytes that the result points to. -/
def configGetDatabase (s : Settings) : Mem := s.database.toList ++ [0]

/-- `config_get_socket_path`. -/
def configGetSocketPath (s : Settings) : Mem := s.socket.toList ++ [0]

/-- `config_get_log_file`. -/
def configGetLogFile (s : Settings) : Mem := s.logfile.toList ++ [0]

/-- `config_get_ebpf_ringbuf_size`. -/
def configGetEbpfRingbufSize (s : Settings) : Int32 := s.ringbufSize

/-- What the lines of a file make of a buffer of `room + 1` bytes: the front of the value
    assigned last, or what it was before, and always a string. -/
def TextSet (lines : List Mem) (k : Key) (room : Nat) (old new : Mem) : Prop :=
  (∀ val,LastAssigned lines k val → cstr new = some (val.take room)) ∧ (Unassigned lines k → new = old) ∧
    ∃ str,cstr new = some str

/-- What the lines of a file make of the size of the ring buffer. -/
def SizeSet (lines : List Mem) (old new : Int32) : Prop :=
  (∀ val,LastAssigned lines .ringbufSize val → -2 ^ 31 ≤ numberOf val → numberOf val < 2 ^ 31 →
    new.toInt = if 0 < numberOf val then numberOf val else 4096) ∧
  (Unassigned lines .ringbufSize → new = old)

/-! ### The parser -/

/-- What a key looks like to the parser. -/
structure Plain (key : Mem) (k : Key) : Prop where
  named : keyOf key = some k
  short : key.length ≤ 127
  no_colon : 58 ∉ key
  starts : ∃ b tail,key = b :: tail ∧ isBlank b = false ∧ b ≠ 35 ∧ b ≠ 10

theorem names_plain (k : Key) : ∀ key ∈ names k,Plain key k := by
  cases k with
  | database => exact List.forall_mem_singleton.mpr ⟨by decide,by decide,by decide,_,_,rfl,by decide⟩
  | socket => exact List.forall_mem_singleton.mpr ⟨by decide,by decide,by decide,_,_,rfl,by decide⟩
  | logFile => exact List.forall_mem_singleton.mpr ⟨by decide,by decide,by decide,_,_,rfl,by decide⟩
  | ringbufSize =>
    refine List.forall_mem_cons.mpr ⟨⟨by decide,by decide,by decide,_,_,rfl,by decide⟩,?_⟩
    exact List.forall_mem_singleton.mpr ⟨by decide,by decide,by decide,_,_,rfl,by decide⟩

theorem mem_names {key : Mem} {k : Key} (named : keyOf key = some k) : key ∈ names k := by
  unfold keyOf at named
  split_ifs at named with database socket logFile size
  all_goals cases named
  · exact List.mem_singleton.mpr database
  · exact List.mem_singleton.mpr socket
  · exact List.mem_singleton.mpr logFile
  · exact List.mem_pair.mpr size

/-- The value behind a colon. -/
def valueOf (tail : Mem) : Mem := (tail.dropWhile isspace).takeWhile (· ≠ 10)

theorem valueOf_unbroken {tail : Mem} (unbroken : 10 ∉ tail) : valueOf tail = tail.dropWhile isspace := by
  apply List.takeWhile_eq_self_iff.mpr
  intro b inside
  have different : b ≠ 10 := fun same => unbroken (same ▸ List.dropWhile_subset _ inside)
  simpa using different

/-- A newline is no part of a value. -/
theorem valueOf_newline (tail : Mem) : valueOf (tail ++ [10]) = valueOf tail := by
  induction tail with
  | nil => rfl
  | cons b tail ih =>
    by_cases space : isspace b
    · simpa [valueOf,space] using ih
    · have kept : (b :: tail).dropWhile isspace = b :: tail ∧
          (b :: tail ++ [10]).dropWhile isspace = b :: tail ++ [10] := by simp [space]
      rw [valueOf,valueOf,kept.1,kept.2,takeWhile_cut rfl]

/-- The pair that a line with a colon behind its key is scanned into. -/
theorem pairOf_colon {key tail : Mem} (no_colon : 58 ∉ key) :
    pairOf (key ++ 58 :: tail) =
      if key = [] ∨ 127 < key.length ∨ valueOf tail = [] then none else some (key,(valueOf tail).take 511) := by
  have scanned : (key ++ 58 :: tail).takeWhile (· ≠ 58) = key := by
    rw [List.takeWhile_append_of_pos (fun b inside => by
      have different : b ≠ 58 := fun same => no_colon (same ▸ inside)
      simpa using different)]
    simp
  have behind : (key ++ 58 :: tail).drop (key.length + 1) = tail := by
    rw [← List.drop_drop,List.drop_left]
    rfl
  have longer : key.length ≠ (key ++ 58 :: tail).length := by simp
  rw [pairOf,scanned]
  simp only [behind,longer,false_or]
  congr

/-- What a line is scanned into has a colon behind the key. -/
theorem pairOf_eq_some {p key val : Mem} (scanned : pairOf p = some (key,val)) :
    ∃ tail,p = key ++ 58 :: tail ∧ 58 ∉ key ∧ key ≠ [] ∧ key.length ≤ 127 := by
  have split : p.takeWhile (· ≠ 58) ++ p.dropWhile (· ≠ 58) = p := List.takeWhile_append_dropWhile
  rw [pairOf] at scanned
  split_ifs at scanned with refused
  cases scanned
  have colon : p.dropWhile (· ≠ 58) ≠ [] := by
    intro missing
    rw [missing,List.append_nil] at split
    exact refused (.inr (.inr (.inl (congrArg List.length split))))
  obtain ⟨c,tail,behind⟩ := List.exists_cons_of_ne_nil colon
  have same : c = 58 := by simpa using dropWhile_stops behind
  rw [behind,same] at split
  refine ⟨tail,split.symm,?_,fun empty => refused (.inl empty),by
    by_contra long
    exact refused (.inr (.inl (Nat.not_le.mp long)))⟩
  intro inside
  simpa using List.mem_takeWhile_imp inside

/-- The parser finds in a line the assignment that it makes. -/
theorem assignOf_iff {line : Mem} (plain : 0 ∉ line) (unbroken : 10 ∉ line) {k : Key} {val : Mem} :
    assignOf line = some (k,val) ↔ ∃ key ∈ names k,Assigns line key val := by
  rw [assignOf,text_plain plain]
  constructor
  · intro found
    dsimp only at found
    split_ifs at found with comment
    obtain ⟨⟨key,val'⟩,scanned,named⟩ := Option.bind_eq_some_iff.mp found
    obtain ⟨k',known,same⟩ := Option.map_eq_some_iff.mp named
    cases same
    obtain ⟨tail,split,no_colon,some_key,short⟩ := pairOf_eq_some scanned
    have tail_unbroken : 10 ∉ tail := by
      intro inside
      apply unbroken
      apply List.dropWhile_subset isBlank
      rw [split]
      exact List.mem_append_right _ (List.mem_cons_of_mem _ inside)
    rw [split,pairOf_colon no_colon,valueOf_unbroken tail_unbroken] at scanned
    split_ifs at scanned with refused
    cases scanned
    obtain ⟨b,rest,valued⟩ := List.exists_cons_of_ne_nil fun empty => refused (.inr (.inr empty))
    refine ⟨key,mem_names known,line.takeWhile isBlank,tail.takeWhile isspace,tail.dropWhile isspace,
      fun b => List.mem_takeWhile_imp,fun b => List.mem_takeWhile_imp,?_,⟨b,by rw [valued]; rfl,?_⟩,rfl⟩
    · rw [List.takeWhile_append_dropWhile,← split,List.takeWhile_append_dropWhile]
    · exact dropWhile_stops valued
  · rintro ⟨key,member,blanks,spaces,rest,all_blank,all_space,rfl,⟨b,head,visible⟩,rfl⟩
    obtain ⟨named,short,no_colon,c,key_tail,rfl,no_blank,no_hash,no_newline⟩ := names_plain k key member
    obtain ⟨rest_tail,rfl⟩ : ∃ tail,rest = b :: tail := List.head?_eq_some_iff.mp head
    have skipped : (blanks ++ (c :: key_tail ++ 58 :: (spaces ++ b :: rest_tail))).dropWhile isBlank =
        c :: key_tail ++ 58 :: (spaces ++ b :: rest_tail) := by
      rw [List.dropWhile_append_of_pos all_blank,List.cons_append,List.dropWhile_cons,no_blank]
      rfl
    have valued : (spaces ++ b :: rest_tail).dropWhile isspace = b :: rest_tail := by
      rw [List.dropWhile_append_of_pos all_space,List.dropWhile_cons,visible]
      rfl
    have tail_unbroken : 10 ∉ spaces ++ b :: rest_tail := by
      intro inside
      exact unbroken (List.mem_append_right _ (List.mem_append_right _ (List.mem_cons_of_mem _ inside)))
    have scanned := @pairOf_colon (c :: key_tail) (spaces ++ b :: rest_tail) no_colon
    rw [valueOf_unbroken tail_unbroken,valued,if_neg (by
      rintro (empty | long | missing)
      · cases empty
      · exact absurd short (Nat.not_le.mpr long)
      · cases missing)] at scanned
    simp only [skipped]
    rw [if_neg (by simp [no_hash,no_newline]),scanned,Option.bind_some,named,Option.map_some]

theorem pairOf_newline (p : Mem) : pairOf (p ++ [10]) = pairOf p := by
  by_cases colon : 58 ∈ p
  · obtain ⟨key,tail,rfl,no_colon⟩ := List.eq_append_cons_of_mem colon
    rw [List.append_assoc,List.cons_append,pairOf_colon no_colon,pairOf_colon no_colon,valueOf_newline]
  · have none_read : ∀ line : Mem,58 ∉ line → pairOf line = none := by
      intro line no_colon
      cases scanned : pairOf line with
      | none => rfl
      | some pair =>
        obtain ⟨tail,split,_⟩ := pairOf_eq_some scanned
        exact absurd (split ▸ List.mem_append_right _ List.mem_cons_self) no_colon
    rw [none_read p colon,none_read (p ++ [10]) (by simpa using colon)]

theorem assignOf_newline {line : Mem} (plain : 0 ∉ line) : assignOf (line ++ [10]) = assignOf line := by
  have ended : 0 ∉ line ++ [10] := by simpa using plain
  rw [assignOf,assignOf,text_plain plain,text_plain ended]
  cases kept : line.dropWhile isBlank with
  | nil =>
    have blank : ∀ b ∈ line,isBlank b := List.dropWhile_eq_nil_iff.mp kept
    rw [List.dropWhile_append_of_pos blank]
    rfl
  | cons b tail =>
    have longer : (line ++ [10]).dropWhile isBlank = b :: tail ++ [10] := by
      rw [List.dropWhile_append,kept]
      rfl
    rw [longer,pairOf_newline]
    rfl

theorem assignments_linesOf {file : Mem} (plain : 0 ∉ file) (fits : ∀ line ∈ linesOf file,line.length ≤ 1022) :
    assignments (pieces 1023 file) = assignments (linesOf file) := by
  have read := @pieces_joined 1023 (linesOf file) _ assignOf (linesOf_unbroken file)
    (fun line member => Nat.lt_succ_of_le (fits line member)) (by decide) false
    (fun line member => assignOf_newline fun zero => plain (linesOf_subset member zero)) rfl
  rwa [joined_linesOf] at read

/-! ### The last assignment -/

theorem latest_none {lines : List Mem} {k : Key} (none_assigns : ∀ line ∈ lines,∀ val,assignOf line ≠ some (k,val)) :
    latest k (assignments lines) = none := by
  have empty : (assignments lines).filter (·.1 = k) = [] := by
    rw [List.filter_eq_nil_iff]
    rintro ⟨key,val⟩ made
    obtain ⟨line,member,assigned⟩ := List.mem_filterMap.mp made
    intro same
    have key_eq : key = k := of_decide_eq_true same
    exact none_assigns line member val (by rw [assigned,key_eq])
  rw [latest,empty]
  rfl

/-- The lines of a file, as the parser reads them. -/
theorem latest_of_lines {lines : List Mem} (plain : ∀ line ∈ lines,0 ∉ line ∧ 10 ∉ line) (k : Key) :
    (∀ val,LastAssigned lines k val → latest k (assignments lines) = some val) ∧
      (Unassigned lines k → latest k (assignments lines) = none) := by
  have silent : ∀ some_lines : List Mem,(∀ line ∈ some_lines,line ∈ lines) → Unassigned some_lines k →
      latest k (assignments some_lines) = none := by
    intro some_lines inside unassigned
    apply latest_none
    intro line member val assigned
    obtain ⟨line_plain,unbroken⟩ := plain line (inside line member)
    obtain ⟨key,named,assigns⟩ := (assignOf_iff line_plain unbroken).mp assigned
    exact unassigned line member key named val assigns
  refine ⟨?_,silent lines fun _ member => member⟩
  rintro val ⟨before,line,after,rfl,assigns,later⟩
  obtain ⟨line_plain,unbroken⟩ := plain line (by simp)
  have here : assignments (line :: after) = (k,val) :: assignments after := by
    rw [assignments,List.filterMap_cons_some ((assignOf_iff line_plain unbroken).mpr assigns)]
    rfl
  have behind := silent after (fun l member => by simp [member]) later
  rw [assignments,List.filterMap_append,← assignments,← assignments,latest_append,here]
  have split : (k,val) :: assignments after = [(k,val)] ++ assignments after := rfl
  rw [split,latest_append,behind]
  simp [latest]

/-! ### The settings after a load -/

theorem cstr_held {val : Mem} (plain : 0 ∉ val) (n : Nat) : cstr ((held n val).toList ++ [0]) = some (val.take n) := by
  have bytes : (held n val).toList = padded n val := rfl
  rw [bytes,cstr_eq,if_pos (by simp),text_cut,text_padded plain]

theorem cstr_buffer {n : Nat} (buffer : Vector UInt8 n) : ∃ str,cstr (buffer.toList ++ [0]) = some str := by
  rw [cstr_eq,if_pos (by simp)]
  exact ⟨_,rfl⟩

theorem lastAssigned_plain {lines : List Mem} (plain : ∀ line ∈ lines,0 ∉ line ∧ 10 ∉ line) {k : Key} {val : Mem}
    (found : LastAssigned lines k val) : 0 ∉ val := by
  obtain ⟨before,line,after,rfl,⟨key,_,blanks,spaces,rest,_,_,split,_,rfl⟩,_⟩ := found
  obtain ⟨line_plain,_⟩ := plain line (by simp)
  refine plain_take (fun zero => line_plain ?_) 511
  simp [split,zero]

/-- What a file makes of a text is decided by the value that is assigned last. -/
theorem textSet {lines : List Mem} (plain : ∀ line ∈ lines,0 ∉ line ∧ 10 ∉ line) {k : Key} {room : Nat}
    {old new : Vector UInt8 room} (last : new = (latest k (assignments lines)).elim old fun val => held room val) :
    TextSet lines k room (old.toList ++ [0]) (new.toList ++ [0]) := by
  obtain ⟨assigned,unassigned⟩ := latest_of_lines plain k
  refine ⟨?_,?_,cstr_buffer new⟩
  · intro val found
    rw [last,assigned val found,Option.elim_some,cstr_held (lastAssigned_plain plain found)]
  · intro silent
    rw [last,unassigned silent,Option.elim_none]

theorem atoi_assigned {val : Mem} (low : -2 ^ 31 ≤ numberOf val) (high : numberOf val < 2 ^ 31) :
    ∃ size,atoi (val ++ [0]) = some size ∧ size.toInt = numberOf val := by
  have ended : afterNumber (val ++ [0]) ≠ [] := List.ne_nil_of_mem (zero_mem_afterNumber (by simp))
  have value := numberOf_cut val []
  refine ⟨Int32.ofInt (numberOf val),?_,Int32.toInt_ofInt_of_le low high⟩
  rw [atoi_eq ended (by rwa [value]) (by rwa [value]),value]

/-- The last value for the ring buffer is its size, if it is positive. -/
theorem sizeSet {lines : List Mem} (plain : ∀ line ∈ lines,0 ∉ line ∧ 10 ∉ line) {s t : Settings}
    (last : Agree .ringbufSize t
      ((latest .ringbufSize (assignments lines)).elim s fun val => s.assign val .ringbufSize)) :
    SizeSet lines s.ringbufSize t.ringbufSize := by
  obtain ⟨assigned,unassigned⟩ := latest_of_lines plain .ringbufSize
  constructor
  · intro val found low high
    obtain ⟨size,read,value⟩ := atoi_assigned low high
    rw [assigned val found,Option.elim_some] at last
    have set : t.ringbufSize = if size ≤ 0 then 4096 else size := by
      simpa [Agree,Settings.assign,read] using last
    rw [set,← value]
    by_cases positive : 0 < size.toInt
    · have above : ¬ size ≤ 0 := by
        rw [Int32.le_iff_toInt_le]
        exact Int.not_le.mpr positive
      rw [if_pos positive,if_neg above]
    · have below : size ≤ 0 := Int32.le_iff_toInt_le.mpr (Int.not_lt.mp positive)
      rw [if_neg positive,if_pos below]
      rfl
  · intro silent
    rw [unassigned silent] at last
    exact last

/-- **Of each setting the last line that assigns it is what counts**, cut to the buffer of the setting. -/
theorem config_load_last_wins (file : Mem) (plain : 0 ∉ file) (fits : ∀ line ∈ linesOf file,line.length ≤ 1022)
    (s : Settings) :
    ∃ after,configLoad (some file) s = some (after,0) ∧
      TextSet (linesOf file) .database 255 (configGetDatabase s) (configGetDatabase after) ∧
      TextSet (linesOf file) .socket 107 (configGetSocketPath s) (configGetSocketPath after) ∧
      TextSet (linesOf file) .logFile 255 (configGetLogFile s) (configGetLogFile after) ∧
      SizeSet (linesOf file) (configGetEbpfRingbufSize s) (configGetEbpfRingbufSize after) := by
  have lines_plain : ∀ line ∈ linesOf file,0 ∉ line ∧ 10 ∉ line := by
    intro line member
    exact ⟨fun zero => plain (linesOf_subset member zero),linesOf_unbroken file line member⟩
  have last : ∀ k,Agree k (s.assignAll (assignments (linesOf file))) _ := fun k => last_wins k _ s
  refine ⟨s.assignAll (assignments (linesOf file)),?_,textSet lines_plain ?_,textSet lines_plain ?_,textSet lines_plain ?_,
    sizeSet lines_plain (last .ringbufSize)⟩
  · rw [configLoad_eq,assignments_linesOf plain fits]
  · have set := last .database
    cases found : latest .database (assignments (linesOf file)) <;> simpa [Agree,found,Settings.assign] using set
  · have set := last .socket
    cases found : latest .socket (assignments (linesOf file)) <;> simpa [Agree,found,Settings.assign] using set
  · have set := last .logFile
    cases found : latest .logFile (assignments (linesOf file)) <;> simpa [Agree,found,Settings.assign] using set

/-- A comment, a setting twice, and a last line without a newline. -/
def twice : Mem := ascii "# db\nsocket: /a\n socket:\t/b\nringbuf_size: 0"

theorem config_load_last_wins_twice :
    ∃ after,configLoad (some twice) Settings.initial = some (after,0) ∧
      TextSet (linesOf twice) .database 255 (configGetDatabase Settings.initial) (configGetDatabase after) ∧
      TextSet (linesOf twice) .socket 107 (configGetSocketPath Settings.initial) (configGetSocketPath after) ∧
      TextSet (linesOf twice) .logFile 255 (configGetLogFile Settings.initial) (configGetLogFile after) ∧
      SizeSet (linesOf twice) (configGetEbpfRingbufSize Settings.initial) (configGetEbpfRingbufSize after) :=
  config_load_last_wins twice (by decide) (by decide) Settings.initial

end Nulleye.ConfigAssignments
