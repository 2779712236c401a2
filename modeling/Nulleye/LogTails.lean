import Nulleye.Lines
import Nulleye.Runs

/-!
Tailing a log file with `fgets`. The thread reads byte by byte what the writer has appended
so far, and records what a call returns: a line, as much of one as fits the buffer, or
as much of one as the file held when its end was found. The lines are recorded one by
one exactly if each fits and the end of the file is never found inside one.
-/
namespace Nulleye.LogTails
open Nulleye.CStrings Nulleye.Lines Nulleye.Runs

/-- The file behind the position of the stream, what the call at work has read, and the
    end-of-file indicator, at which a call returns at once. -/
structure Tail where
  unread : Mem
  line : Mem
  eof : Bool

/-- The writer appends, or the thread goes on. -/
inductive Action where
  | append (bytes : Mem)
  | read

/-- What a step did: of the thread that it read a byte, that a call returned behind a newline or with
    a full buffer, that one found the end of the file behind some bytes, or that it cleared the indicator. -/
inductive Label where
  | appended (bytes : Mem)
  | byte
  | line (raw : Mem)
  | ended (raw : Mem)
  | cleared

/-- `user_thread` behind `fseek`: the next byte of `fgets(line, sizeof(line), f)`, its return, or `clearerr`. -/
def userThread (s : Tail) : Tail × Label :=
  if s.eof then ({ s with eof := false },.cleared)
  else
    match s.unread with
    | [] => (⟨[],[],true⟩,.ended s.line)
    | b :: rest =>
      let line := s.line ++ [b]
      if b = 10 ∨ line.length = 1023 then (⟨rest,[],false⟩,.line line) else (⟨rest,line,false⟩,.byte)

def step (s : Tail) : Action → Option (Tail × Label)
  | .append bytes => some ({ s with unread := s.unread ++ bytes },.appended bytes)
  | .read => some (userThread s)

/-- The thread at the end of the file. -/
def start : Tail := ⟨[],[],false⟩

/-- What a call returned in the buffer, if it did not return NULL. -/
def returned : Label → Option Mem
  | .line raw => some raw
  | .ended raw => if raw = [] then none else some raw
  | _ => none

/-- What the calls of a run returned. -/
def calls (trace : List Label) : List Mem := trace.filterMap returned

/-- The blobs passed to `db_insert_event(line, strlen(line), "user_monitor")`. -/
def inserted (trace : List Label) : List Mem := (calls trace).map text

def added : Label → Mem
  | .appended bytes => bytes
  | _ => []

/-- What the writer has appended. -/
def appendedText (trace : List Label) : Mem := trace.flatMap added

@[simp] theorem calls_append (trace : List Label) (label : Label) :
    calls (trace ++ [label]) = calls trace ++ (returned label).toList := by
  cases same : returned label <;> simp [calls,same]

@[simp] theorem appendedText_append (trace : List Label) (label : Label) :
    appendedText (trace ++ [label]) = appendedText trace ++ added label := by
  simp [appendedText]

/-! ### One step -/

/-- What a call returns: a line, or bytes of one that fill the buffer or were followed by the end of the file. -/
def Returns (trace : List Label) (raw : Mem) : Prop :=
  (∃ body,10 ∉ body ∧ body.length ≤ 1022 ∧ raw = body ++ [10]) ∨
    10 ∉ raw ∧ (raw.length = 1023 ∨ raw ≠ [] ∧ Label.ended raw ∈ trace)

/-- What a run keeps: the calls and the buffer hold what was read, and no call reads past a newline. -/
structure Reading (trace : List Label) (s : Tail) : Prop where
  whole : (calls trace).flatten ++ s.line ++ s.unread = appendedText trace
  unbroken : 10 ∉ s.line
  short : s.line.length < 1023
  at_end : s.eof = true → s.line = []
  returns : ∀ raw ∈ calls trace,Returns trace raw
  ends : ∀ raw,Label.ended raw ∈ trace → 10 ∉ raw

theorem Returns.later {trace : List Label} {raw : Mem} (returns : Returns trace raw) (label : Label) :
    Returns (trace ++ [label]) raw := by
  rcases returns with line | ⟨unbroken,full | ⟨some_byte,ended⟩⟩
  · exact .inl line
  · exact .inr ⟨unbroken,.inl full⟩
  · exact .inr ⟨unbroken,.inr ⟨some_byte,List.mem_append_left _ ended⟩⟩

/-- A step by which nothing is returned keeps what the calls have returned. -/
theorem Reading.quiet {trace : List Label} {s : Tail} (reading : Reading trace s) (label : Label) (silent : returned label = none)
    (other : ∀ raw,label = .ended raw → 10 ∉ raw) :
    (∀ raw ∈ calls (trace ++ [label]),Returns (trace ++ [label]) raw) ∧ ∀ raw,Label.ended raw ∈ trace ++ [label] → 10 ∉ raw := by
  constructor
  · intro raw member
    rw [calls_append,silent,Option.toList_none,List.append_nil] at member
    exact (reading.returns raw member).later label
  · intro raw member
    rcases List.mem_append.mp member with before | here
    · exact reading.ends raw before
    · exact other raw (List.mem_singleton.mp here).symm

/-- A step by which a call returns. -/
theorem Reading.call {trace : List Label} {s : Tail} (reading : Reading trace s) {label : Label} {raw : Mem}
    (some_raw : returned label = some raw) (returns : Returns (trace ++ [label]) raw)
    (other : ∀ raw,label = .ended raw → 10 ∉ raw) :
    (∀ raw ∈ calls (trace ++ [label]),Returns (trace ++ [label]) raw) ∧ ∀ raw,Label.ended raw ∈ trace ++ [label] → 10 ∉ raw := by
  constructor
  · intro raw' member
    rw [calls_append,some_raw] at member
    rcases List.mem_append.mp member with before | here
    · exact (reading.returns raw' before).later label
    · rw [List.mem_singleton.mp here]
      exact returns
  · intro raw' member
    rcases List.mem_append.mp member with before | here
    · exact reading.ends raw' before
    · exact other raw' (List.mem_singleton.mp here).symm

theorem reading_start : Reading [] start := ⟨rfl,by simp [start],by simp [start],fun _ => rfl,by simp [calls],by simp⟩

theorem step_cases {s t : Tail} {a : Action} {label : Label} (moved : step s a = some (t,label)) :
    (∃ bytes,label = .appended bytes ∧ t = { s with unread := s.unread ++ bytes }) ∨
      (label = .cleared ∧ t = { s with eof := false }) ∨
      (s.unread = [] ∧ label = .ended s.line ∧ t = ⟨[],[],true⟩) ∨
      (∃ b rest,s.unread = b :: rest ∧ (b = 10 ∨ s.line.length = 1022) ∧ label = .line (s.line ++ [b]) ∧ t = ⟨rest,[],false⟩) ∨
      ∃ b rest,s.unread = b :: rest ∧ b ≠ 10 ∧ s.line.length ≠ 1022 ∧ label = .byte ∧ t = ⟨rest,s.line ++ [b],false⟩ := by
  cases a with
  | append bytes =>
    cases moved
    exact .inl ⟨bytes,rfl,rfl⟩
  | read =>
    have moved := Option.some.inj moved
    unfold userThread at moved
    by_cases flag : s.eof = true
    · rw [if_pos flag] at moved
      cases moved
      exact .inr (.inl ⟨rfl,rfl⟩)
    · rw [if_neg flag] at moved
      cases left : s.unread with
      | nil =>
        rw [left] at moved
        cases moved
        exact .inr (.inr (.inl ⟨rfl,rfl,rfl⟩))
      | cons b rest =>
        rw [left] at moved
        by_cases returns : b = 10 ∨ s.line.length = 1022
        · have stop : b = 10 ∨ (s.line ++ [b]).length = 1023 := by simpa using returns
          simp only [if_pos stop] at moved
          cases moved
          exact .inr (.inr (.inr (.inl ⟨b,rest,rfl,returns,rfl,rfl⟩)))
        · have on : ¬ (b = 10 ∨ (s.line ++ [b]).length = 1023) := by simpa using returns
          simp only [if_neg on] at moved
          cases moved
          obtain ⟨other,room⟩ := not_or.mp returns
          exact .inr (.inr (.inr (.inr ⟨b,rest,rfl,other,room,rfl,rfl⟩)))

theorem reading_step {trace : List Label} {s t : Tail} {a : Action} {label : Label} (reading : Reading trace s)
    (moved : step s a = some (t,label)) : Reading (trace ++ [label]) t := by
  have whole := reading.whole
  have unbroken := reading.unbroken
  have short := reading.short
  rcases step_cases moved with ⟨bytes,rfl,rfl⟩ | ⟨rfl,rfl⟩ | ⟨nothing,rfl,rfl⟩ | ⟨b,rest,left,returns,rfl,rfl⟩ |
    ⟨b,rest,left,other,room,rfl,rfl⟩
  · obtain ⟨returns,ends⟩ := reading.quiet (.appended bytes) rfl (by simp)
    exact ⟨by simp [← whole,returned,added],unbroken,short,reading.at_end,returns,ends⟩
  · obtain ⟨returns,ends⟩ := reading.quiet .cleared rfl (by simp)
    exact ⟨by simp [← whole,returned,added],unbroken,short,by simp,returns,ends⟩
  · by_cases empty : s.line = []
    · obtain ⟨returns,ends⟩ := reading.quiet (.ended s.line) (by simp [returned,empty]) (by simp [empty])
      exact ⟨by simp [← whole,returned,added,nothing,empty],by simp,by simp,fun _ => rfl,returns,ends⟩
    · have some_raw : returned (.ended s.line) = some s.line := if_neg empty
      have raw : Returns (trace ++ [Label.ended s.line]) s.line := .inr ⟨unbroken,.inr ⟨empty,by simp⟩⟩
      obtain ⟨returns,ends⟩ := reading.call some_raw raw fun _ same => Label.ended.inj same ▸ unbroken
      exact ⟨by simp [← whole,some_raw,added,nothing],by simp,by simp,fun _ => rfl,returns,ends⟩
  · have raw : Returns (trace ++ [Label.line (s.line ++ [b])]) (s.line ++ [b]) := by
      by_cases newline : b = 10
      · exact .inl ⟨s.line,unbroken,by omega,by rw [newline]⟩
      · have full : s.line.length = 1022 := returns.resolve_left newline
        exact .inr ⟨by simp [unbroken,Ne.symm newline],.inl (by simp [full])⟩
    obtain ⟨returns,ends⟩ := @Reading.call trace s reading (.line (s.line ++ [b])) _ rfl raw (by simp)
    exact ⟨by simp [← whole,returned,added,left],by simp,by simp,by simp,returns,ends⟩
  · obtain ⟨returns,ends⟩ := reading.quiet .byte rfl (by simp)
    exact ⟨by simp [← whole,returned,added,left],by simp [unbroken,Ne.symm other],by simp; omega,by simp,returns,ends⟩

theorem run_reading {trace : List Label} {t : Tail} (run : Run step free start trace t) : Reading trace t :=
  run.invariant reading_start fun _ _ _ _ _ _ reading _ moved => reading_step reading moved

/-! ### Runs -/

/-- Calls that return lines, or more than fits a line, return the lines that they return together. -/
theorem returned_lines {raws lines : List Mem} (unbroken : ∀ line ∈ lines,10 ∉ line) (fits : ∀ line ∈ lines,line.length ≤ 1022)
    (shapes : ∀ raw ∈ raws,(∃ body,10 ∉ body ∧ raw = body ++ [10]) ∨ 10 ∉ raw ∧ raw.length = 1023)
    (whole : raws.flatten = unlines lines) : raws = lines.map (· ++ [10]) := by
  induction raws generalizing lines with
  | nil =>
    cases lines with
    | nil => rfl
    | cons line lines => simp [unlines] at whole
  | cons raw raws ih =>
    obtain ⟨shape,later⟩ := List.forall_mem_cons.mp shapes
    cases lines with
    | nil =>
      have empty : raw = [] := by
        have both : raw = [] ∧ raws.flatten = [] := by simpa [unlines] using whole
        exact both.1
      rcases shape with ⟨body,_,same⟩ | ⟨_,full⟩
      · simp [empty] at same
      · simp [empty] at full
    | cons line lines =>
      obtain ⟨line_unbroken,lines_unbroken⟩ := List.forall_mem_cons.mp unbroken
      obtain ⟨line_fits,lines_fit⟩ := List.forall_mem_cons.mp fits
      have split : raw ++ raws.flatten = line ++ 10 :: unlines lines := by simpa [unlines] using whole
      rcases shape with ⟨body,body_unbroken,rfl⟩ | ⟨raw_unbroken,full⟩
      · rw [List.append_assoc,List.singleton_append] at split
        obtain ⟨same,behind⟩ := separator_inj body_unbroken line_unbroken split
        subst same
        rw [List.map_cons,ih lines_unbroken lines_fit later behind]
      · -- A full buffer without a newline is part of a line that does not fit.
        have inside : raw <+: line := by
          rw [← prefix_separated raw_unbroken line (unlines lines),← split]
          exact List.prefix_append _ _
        have long := inside.length_le
        omega

theorem unlines_closed (lines : List Mem) : Closed (unlines lines) := by
  rcases List.eq_nil_or_concat lines with rfl | ⟨front,last,rfl⟩
  · exact .inl rfl
  · exact .inr (by simp [unlines])

/-- **The lines appended to the log are recorded one by one exactly if** each fits the buffer and holds no
    NUL, and no call finds the end of the file inside one. -/
theorem tail_lines {lines : List Mem} (unbroken : ∀ line ∈ lines,10 ∉ line) {trace : List Label} {t : Tail}
    (run : Run step free start trace t) (appended : appendedText trace = unlines lines) (finished : t.unread = []) :
    inserted trace = lines.map (· ++ [10]) ↔
      (∀ line ∈ lines,line.length ≤ 1022 ∧ 0 ∉ line) ∧ ∀ raw,Label.ended raw ∈ trace → raw = [] := by
  obtain ⟨whole,open_end,_,_,returns,ends⟩ := run_reading run
  rw [finished,appended,List.append_nil] at whole
  have all_returned : (calls trace).flatten = unlines lines := by
    have complete : t.line = [] := by
      by_contra some_byte
      have closed := unlines_closed lines
      rw [← whole] at closed
      rcases closed with empty | last
      · exact some_byte (List.append_eq_nil_iff.mp empty).2
      · rw [List.getLast?_append_of_ne_nil _ some_byte] at last
        exact open_end (List.mem_of_getLast? last)
    rwa [complete,List.append_nil] at whole
  constructor
  · intro recorded
    have same : (calls trace).map text = calls trace := by
      apply texts_whole
      rw [← inserted,recorded,all_returned,unlines,List.flatMap_def]
    have raws : calls trace = lines.map (· ++ [10]) := same.symm.trans recorded
    constructor
    · intro line member
      have called : line ++ [10] ∈ calls trace := by
        rw [raws]
        exact List.mem_map_of_mem member
      have kept : text (line ++ [10]) = line ++ [10] := List.map_inj_left.mp (same.trans (List.map_id _).symm) _ called
      have plain : 0 ∉ line ++ [10] := kept ▸ zero_not_mem_text _
      refine ⟨?_,fun zero => plain (List.mem_append_left _ zero)⟩
      rcases returns _ called with ⟨body,_,fits,ended⟩ | ⟨missing,_⟩
      · rwa [List.append_cancel_right ended]
      · simp at missing
    · intro raw member
      by_contra some_byte
      have called : raw ∈ calls trace := List.mem_filterMap.mpr ⟨_,member,if_neg some_byte⟩
      rw [raws] at called
      obtain ⟨line,_,rfl⟩ := List.mem_map.mp called
      exact ends _ member (by simp)
  · rintro ⟨fits,never⟩
    have raws : calls trace = lines.map (· ++ [10]) := by
      apply returned_lines unbroken (fun line member => (fits line member).1) _ all_returned
      intro raw member
      rcases returns raw member with ⟨body,body_unbroken,_,same⟩ | ⟨raw_unbroken,full | ⟨some_byte,ended⟩⟩
      · exact .inl ⟨body,body_unbroken,same⟩
      · exact .inr ⟨raw_unbroken,full⟩
      · exact absurd (never raw ended) some_byte
    rw [inserted,raws,List.map_map]
    apply List.map_congr_left
    intro line member
    exact text_plain (by simp [(fits line member).2])

theorem tail_lines_whole : ∃ trace t,Run step free start trace t ∧ appendedText trace = unlines [ascii "a",ascii "b"] ∧
    inserted trace = [ascii "a\n",ascii "b\n"] := by
  have executed : exec step free start ([.append (ascii "a\nb"),.append (ascii "\n")] ++ List.replicate 4 .read) =
    some (_,[.appended (ascii "a\nb"),.appended (ascii "\n"),.byte,.line (ascii "a\n"),.byte,.line (ascii "b\n")]) := rfl
  have run := run_of_exec executed
  refine ⟨_,_,run,by decide,(@tail_lines [ascii "a",ascii "b"] (by decide) _ _ run (by decide) rfl).mpr ⟨by decide,?_⟩⟩
  intro raw member
  simp at member

/-- A line whose newline is appended after the thread has found the end of the file makes two events. -/
theorem tail_splits :
    ¬ ∀ (lines : List Mem) (trace : List Label) (t : Tail),(∀ line ∈ lines,10 ∉ line) → Run step free start trace t →
      appendedText trace = unlines lines → t.unread = [] → inserted trace = lines.map (· ++ [10]) := by
  intro always
  have executed : exec step free start [.append (ascii "a"),.read,.read,.read,.append (ascii "\n"),.read] =
    some (_,[.appended (ascii "a"),.byte,.ended (ascii "a"),.cleared,.appended (ascii "\n"),.line (ascii "\n")]) := rfl
  have recorded := always [ascii "a"] _ _ (by decide) (run_of_exec executed) (by decide) rfl
  revert recorded
  decide

/-! ### Calls of `fgets` -/

/-- Where nothing is appended meanwhile, a call returns what `fgets` reads. -/
theorem fgets_run {file line : Mem} {room : Nat} (some_room : 0 < room) (left : line.length + room = 1023) :
    ∃ trace label t,Run step free ⟨file,line,false⟩ (trace ++ [label]) t ∧ calls trace = [] ∧ t.unread = (fgets room file).2 ∧
      t.line = [] ∧ returned label = if line ++ (fgets room file).1 = [] then none else some (line ++ (fgets room file).1) := by
  induction file generalizing line room with
  | nil =>
    have same : fgets room [] = ([],[]) := by cases room <;> rfl
    have moved : step ⟨[],line,false⟩ .read = some (⟨[],[],true⟩,.ended line) := rfl
    rw [same]
    exact ⟨[],_,_,.next .start trivial moved,rfl,rfl,rfl,by simp [returned]⟩
  | cons b file ih =>
    obtain ⟨room,rfl⟩ : ∃ n,room = n + 1 := ⟨room - 1,by omega⟩
    by_cases returns : b = 10 ∨ (line ++ [b]).length = 1023
    · have read : fgets (room + 1) (b :: file) = ([b],file) := by
        rcases returns with rfl | full
        · rfl
        · obtain rfl : room = 0 := by simp at full; omega
          by_cases newline : b = 10 <;> simp [fgets,newline]
      have moved : step ⟨b :: file,line,false⟩ .read = some (⟨file,[],false⟩,.line (line ++ [b])) := by
        simp only [step,userThread,Bool.false_eq_true,if_false,if_pos returns]
      rw [read]
      exact ⟨[],_,_,.next .start trivial moved,rfl,rfl,rfl,by simp [returned]⟩
    · obtain ⟨other,room_left⟩ := not_or.mp returns
      have moved : step ⟨b :: file,line,false⟩ .read = some (⟨file,line ++ [b],false⟩,.byte) := by
        simp only [step,userThread,Bool.false_eq_true,if_false,if_neg returns]
      obtain ⟨trace,label,t,run,silent,rest,closed,back⟩ :=
        @ih (line ++ [b]) room (by simp at room_left; omega) (by simp; omega)
      have read : fgets (room + 1) (b :: file) = (b :: (fgets room file).1,(fgets room file).2) := by simp [fgets,other]
      rw [read]
      refine ⟨.byte :: trace,label,t,?_,silent,rest,closed,by simpa using back⟩
      have first : Run step free ⟨b :: file,line,false⟩ [.byte] ⟨file,line ++ [b],false⟩ := .next .start trivial moved
      exact first.trans run

end Nulleye.LogTails
