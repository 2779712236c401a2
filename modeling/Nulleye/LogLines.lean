import Nulleye.Decimals
import Nulleye.Lines
import Nulleye.Runs
import Nulleye.SharedQueues

/-!
The lines of the log file. A call formats its message and its line before it takes the
lock, and writes the line byte by byte while it holds it. No line is cut or mixed with
another one, so the file holds one line for each call exactly as long as the messages
hold no newline of their own.
-/
namespace Nulleye.LogLines
open Nulleye.CStrings Nulleye.Decimals Nulleye.Lines Nulleye.Runs Nulleye.SharedQueues

/-- `nye_log_level_t`. -/
inductive Level where
  | debug
  | info
  | warn
  | err
  deriving DecidableEq

/-- `level_str`. -/
def levelStr : Level → Mem
  | .debug => ascii "DEBUG"
  | .info => ascii "INFO"
  | .warn => ascii "WARN"
  | .err => ascii "ERROR"

/-- What `localtime_r` fills in, in a year of four digits. -/
structure Tm where
  tmYear : Nat
  tmMon : Nat
  tmMday : Nat
  tmHour : Nat
  tmMin : Nat
  tmSec : Nat
  year : tmYear + 1900 < 10000
  mon : tmMon < 12
  mday : tmMday < 32
  hour : tmHour < 24
  min : tmMin < 60
  sec : tmSec < 61

/-- A call of `nulleye_log`: the level, what its format prints, and the time. -/
structure Call where
  level : Level
  message : Mem
  tm : Tm

/-- `%04d` and `%02d`. -/
def zeroPadded (width n : Nat) : Mem := List.replicate (width - (ascii n.repr).length) 48 ++ ascii n.repr

/-- What a line begins with: `"%04d-%02d-%02d %02d:%02d:%02d [%s] "`. -/
def stamp (tm : Tm) (level : Level) : Mem :=
  zeroPadded 4 (tm.tmYear + 1900) ++ 45 :: (zeroPadded 2 (tm.tmMon + 1) ++ 45 :: (zeroPadded 2 tm.tmMday ++
    32 :: (zeroPadded 2 tm.tmHour ++ 58 :: (zeroPadded 2 tm.tmMin ++ 58 :: (zeroPadded 2 tm.tmSec ++
      32 :: 91 :: (levelStr level ++ [93,32]))))))

/-- The string in `buf` after `vsnprintf(buf, sizeof(buf), fmt, ap)`. -/
def Call.buf (c : Call) : Mem := text (c.message.take 1023)

/-- The string in `out` after `snprintf(out, sizeof(out), ...)`. -/
def Call.out (c : Call) : Mem := (stamp c.tm c.level ++ (c.buf ++ [10])).take 1199

/-- Where a thread is in a call: before the lock, or with what is left to write. -/
inductive Pc where
  | idle
  | formatted (c : Call)
  | writing (c : Call) (left : Mem)

/-- What `g_logfile` got since it was opened, the thread that holds `g_lock`, and the threads. -/
structure World where
  gLogfile : Mem
  gLock : Option Nat
  threads : Nat → Pc

def World.initial : World := ⟨[],none,fun _ => .idle⟩

/-- A thread calls `nulleye_log`, or takes the next step in it. -/
inductive Action where
  | call (i : Nat) (c : Call)
  | advance (i : Nat)

inductive Label where
  | called (i : Nat) (c : Call)
  | locked (i : Nat) (c : Call)
  | wrote (i : Nat) (b : UInt8)
  | unlocked (i : Nat)

/-- `nulleye_log` in thread `i`, with the lock and the bytes that `fputs` writes as single steps. What the
    holder of the lock hands to `syslog` and to the ring does not touch the file. -/
def step (s : World) : Action → Option (World × Label)
  | .call i c =>
    match s.threads i with
    | .idle => some ({ s with threads := Function.update s.threads i (.formatted c) },.called i c)
    | _ => none
  | .advance i =>
    match s.threads i with
    | .idle => none
    | .formatted c =>
      if s.gLock = none then
        some ({ s with gLock := some i, threads := Function.update s.threads i (.writing c c.out) },.locked i c)
      else none
    | .writing c (b :: left) =>
      some ({ s with gLogfile := s.gLogfile ++ [b], threads := Function.update s.threads i (.writing c left) },.wrote i b)
    | .writing _ [] => some ({ s with gLock := none, threads := Function.update s.threads i .idle },.unlocked i)

/-- The calls in the order in which they took the lock, each with its thread. -/
def order (trace : List Label) : List (Nat × Call) := trace.filterMap fun
  | .locked i c => some (i,c)
  | _ => none

/-- The calls in the order in which they began. -/
def begun (trace : List Label) : List (Nat × Call) := trace.filterMap fun
  | .called i c => some (i,c)
  | _ => none

/-- The line of a call, with as much of its message as fits the buffer. -/
def Call.line (c : Call) : Mem := stamp c.tm c.level ++ c.message.take 1023

/-- What a line tells of its call. -/
def Call.shown (c : Call) : Tm × Level × Mem := (c.tm,c.level,c.message.take 1023)

/-- The call that a thread has begun and not locked for. -/
def Pc.waiting : Pc → List Call
  | .formatted c => [c]
  | _ => []

@[simp] theorem order_append (trace back : List Label) : order (trace ++ back) = order trace ++ order back := List.filterMap_append

@[simp] theorem begun_append (trace back : List Label) : begun (trace ++ back) = begun trace ++ begun back := List.filterMap_append

@[simp] theorem order_one : (∀ i c,order [.called i c] = []) ∧ (∀ i c,order [.locked i c] = [(i,c)]) ∧
    (∀ i b,order [.wrote i b] = []) ∧ ∀ i,order [.unlocked i] = [] :=
  ⟨fun _ _ => rfl,fun _ _ => rfl,fun _ _ => rfl,fun _ => rfl⟩

@[simp] theorem begun_one : (∀ i c,begun [.called i c] = [(i,c)]) ∧ (∀ i c,begun [.locked i c] = []) ∧
    (∀ i b,begun [.wrote i b] = []) ∧ ∀ i,begun [.unlocked i] = [] :=
  ⟨fun _ _ => rfl,fun _ _ => rfl,fun _ _ => rfl,fun _ => rfl⟩

/-! ### One line -/

theorem zeroPadded_length {k n : Nat} (small : n < 10 ^ (k + 1)) : (zeroPadded (k + 1) n).length = k + 1 := by
  have digits := ascii_repr_length small
  rw [zeroPadded,List.length_append,List.length_replicate]
  omega

theorem zeroPadded_digits (width n : Nat) : ∀ b ∈ zeroPadded width n,isdigit b = true := by
  intro b member
  rcases List.mem_append.mp member with zero | digit
  · rw [(List.mem_replicate.mp zero).2]
    rfl
  · exact (ascii_repr_number n).1 b digit

/-- Only digits are printed, so what separates the fields is in none of them. -/
theorem zeroPadded_clear {b : UInt8} (other : isdigit b = false) (width n : Nat) : b ∉ zeroPadded width n := by
  intro member
  rw [zeroPadded_digits width n b member] at other
  cases other

/-- The number that a printed field stands for. -/
theorem zeroPadded_number (width n : Nat) : number 0 (zeroPadded width n) = n := by
  have zeros : ∀ k,number 0 (List.replicate k 48) = 0 := by
    intro k
    induction k with
    | zero => rfl
    | succ k ih => simpa [List.replicate_succ,number] using ih
  have front := zeros (width - (ascii n.repr).length)
  have word := (ascii_repr_number n).2.2
  rw [number] at front word
  rw [zeroPadded,number,List.foldl_append,front,word]

/-- The fields of a time have their fixed widths. -/
theorem Tm.widths (tm : Tm) : (zeroPadded 4 (tm.tmYear + 1900)).length = 4 ∧ (zeroPadded 2 (tm.tmMon + 1)).length = 2 ∧
    (zeroPadded 2 tm.tmMday).length = 2 ∧ (zeroPadded 2 tm.tmHour).length = 2 ∧ (zeroPadded 2 tm.tmMin).length = 2 ∧
    (zeroPadded 2 tm.tmSec).length = 2 := by
  obtain ⟨year,mon,mday,hour,min,sec⟩ : tm.tmYear + 1900 < 10 ^ 4 ∧ tm.tmMon + 1 < 10 ^ 2 ∧ tm.tmMday < 10 ^ 2 ∧
      tm.tmHour < 10 ^ 2 ∧ tm.tmMin < 10 ^ 2 ∧ tm.tmSec < 10 ^ 2 := by
    obtain ⟨_,_,_,_,_,_,year,mon,mday,hour,min,sec⟩ := tm
    dsimp only
    omega
  exact ⟨zeroPadded_length year,zeroPadded_length mon,zeroPadded_length mday,zeroPadded_length hour,zeroPadded_length min,
    zeroPadded_length sec⟩

theorem levelStr_length (level : Level) : (levelStr level).length ≤ 5 := by cases level <;> decide

theorem stamp_length (tm : Tm) (level : Level) : (stamp tm level).length ≤ 28 := by
  obtain ⟨year,mon,mday,hour,min,sec⟩ := tm.widths
  have word := levelStr_length level
  simp only [stamp,List.length_append,List.length_cons,List.length_nil,year,mon,mday,hour,min,sec]
  omega

/-- Neither a newline nor a NUL is in what a line begins with. -/
theorem stamp_plain (tm : Tm) (level : Level) : 10 ∉ stamp tm level ∧ 0 ∉ stamp tm level := by
  have newline := @zeroPadded_clear 10 rfl
  have nul := @zeroPadded_clear 0 rfl
  have word : 10 ∉ levelStr level ∧ 0 ∉ levelStr level := by cases level <;> decide
  simp [stamp,newline,nul,word]

/-- The newline of a line is never cut. -/
theorem Call.out_eq (c : Call) : c.out = stamp c.tm c.level ++ (c.buf ++ [10]) := by
  have front := stamp_length c.tm c.level
  have cut : c.buf.length ≤ 1023 := Nat.le_trans (text_length_le _) (List.length_take_le 1023 _)
  rw [out,List.take_of_length_le]
  simp only [List.length_append,List.length_singleton]
  omega

theorem zeroPadded_inj {width n m : Nat} (same : zeroPadded width n = zeroPadded width m) : n = m := by
  rw [← zeroPadded_number width n,same,zeroPadded_number]

theorem levelStr_inj {level level' : Level} (same : levelStr level = levelStr level') : level = level' := by
  revert same
  cases level <;> cases level' <;> decide

/-- A line tells the time, the level and what fitted of the message. -/
theorem line_injective {c c' : Call} (same : c.line = c'.line) : c.shown = c'.shown := by
  obtain ⟨level,message,tm⟩ := c
  obtain ⟨level',message',tm'⟩ := c'
  have bracket : ∀ level,93 ∉ levelStr level := by
    intro level
    cases level <;> decide
  simp only [Call.line,stamp,List.append_assoc,List.cons_append] at same
  obtain ⟨year,same⟩ := separator_inj (zeroPadded_clear rfl _ _) (zeroPadded_clear rfl _ _) same
  obtain ⟨mon,same⟩ := separator_inj (zeroPadded_clear rfl _ _) (zeroPadded_clear rfl _ _) same
  obtain ⟨mday,same⟩ := separator_inj (zeroPadded_clear rfl _ _) (zeroPadded_clear rfl _ _) same
  obtain ⟨hour,same⟩ := separator_inj (zeroPadded_clear rfl _ _) (zeroPadded_clear rfl _ _) same
  obtain ⟨min,same⟩ := separator_inj (zeroPadded_clear rfl _ _) (zeroPadded_clear rfl _ _) same
  obtain ⟨sec,same⟩ := separator_inj (zeroPadded_clear rfl _ _) (zeroPadded_clear rfl _ _) same
  obtain ⟨words,same⟩ := separator_inj (bracket _) (bracket _) (List.cons.inj same).2
  have messages : message.take 1023 = message'.take 1023 := (List.cons.inj same).2
  have years := zeroPadded_inj year
  have months := zeroPadded_inj mon
  have times : tm = tm' := by
    obtain ⟨y,mo,d,h,mi,s,_,_,_,_,_,_⟩ := tm
    obtain ⟨y',mo',d',h',mi',s',_,_,_,_,_,_⟩ := tm'
    obtain rfl : y = y' := by dsimp only at years; omega
    obtain rfl : mo = mo' := by dsimp only at months; omega
    obtain rfl : d = d' := zeroPadded_inj mday
    obtain rfl : h = h' := zeroPadded_inj hour
    obtain rfl : mi = mi' := zeroPadded_inj min
    obtain rfl : s = s' := zeroPadded_inj sec
    rfl
  simp only [Call.shown,times,levelStr_inj words,messages]

/-! ### Threads -/

/-- What a run keeps: the holder of the lock has the rest of the last line to write, nobody
    else writes, and each thread has locked for its calls in turn. -/
structure Written (trace : List Label) (s : World) : Prop where
  file : ∃ left,s.gLogfile ++ left = (order trace).flatMap (fun p => p.2.out) ∧
    (s.gLock = none → left = []) ∧ ∀ i,s.gLock = some i → ∃ c,s.threads i = .writing c left
  holder : ∀ i c left,s.threads i = .writing c left → s.gLock = some i
  turns : ∀ i,share i (begun trace) = share i (order trace) ++ (s.threads i).waiting

theorem written_initial : Written [] World.initial := by
  refine ⟨⟨[],rfl,fun _ => rfl,?_⟩,?_,fun i => rfl⟩
  · intro i held
    cases held
  · intro i c left writing
    cases writing

theorem step_cases {s t : World} {a : Action} {label : Label} (moved : step s a = some (t,label)) :
    (∃ i c,s.threads i = .idle ∧ label = .called i c ∧ t = { s with threads := Function.update s.threads i (.formatted c) }) ∨
      (∃ i c,s.threads i = .formatted c ∧ s.gLock = none ∧ label = .locked i c ∧
        t = { s with gLock := some i, threads := Function.update s.threads i (.writing c c.out) }) ∨
      (∃ i c b left,s.threads i = .writing c (b :: left) ∧ label = .wrote i b ∧
        t = { s with gLogfile := s.gLogfile ++ [b], threads := Function.update s.threads i (.writing c left) }) ∨
      ∃ i c,s.threads i = .writing c [] ∧ label = .unlocked i ∧
        t = { s with gLock := none, threads := Function.update s.threads i .idle } := by
  cases a with
  | call i c =>
    simp only [step] at moved
    split at moved
    · cases moved
      exact .inl ⟨i,c,by assumption,rfl,rfl⟩
    · cases moved
  | advance i =>
    simp only [step] at moved
    split at moved
    · cases moved
    · split_ifs at moved with free_lock
      cases moved
      exact .inr (.inl ⟨i,_,by assumption,free_lock,rfl,rfl⟩)
    · cases moved
      exact .inr (.inr (.inl ⟨i,_,_,_,by assumption,rfl,rfl⟩))
    · cases moved
      exact .inr (.inr (.inr ⟨i,_,by assumption,rfl,rfl⟩))

/-- The thread that took a step. -/
def Label.thread : Label → Nat
  | .called i _ => i
  | .locked i _ => i
  | .wrote i _ => i
  | .unlocked i => i

/-- A step of one thread leaves the calls of the others. -/
theorem turns_change {trace : List Label} {threads : Nat → Pc}
    (turns : ∀ i,share i (begun trace) = share i (order trace) ++ (threads i).waiting) (label : Label) (pc : Pc)
    (own : share label.thread (begun (trace ++ [label])) = share label.thread (order (trace ++ [label])) ++ pc.waiting) (i : Nat) :
    share i (begun (trace ++ [label])) =
      share i (order (trace ++ [label])) ++ (Function.update threads label.thread pc i).waiting := by
  by_cases here : i = label.thread
  · subst here
    rw [own,Function.update_self]
  · have turn := turns i
    have other : label.thread ≠ i := Ne.symm here
    rw [Function.update_of_ne here]
    cases label <;> simp only [Label.thread] at other <;> simpa [other] using turn

/-- A thread writes one line at a time. -/
theorem writing_inj {s : World} {i : Nat} {c c' : Call} {left left' : Mem} (writing : s.threads i = .writing c left)
    (also : s.threads i = .writing c' left') : c = c' ∧ left = left' := by
  rw [writing] at also
  cases also
  exact ⟨rfl,rfl⟩

theorem writer_other {s : World} {i j : Nat} {c : Call} {left : Mem} (idle : s.threads i = .idle)
    (writing : s.threads j = .writing c left) : j ≠ i := by
  rintro rfl
  rw [idle] at writing
  cases writing

theorem written_step {trace : List Label} {s t : World} {a : Action} {label : Label} (written : Written trace s)
    (moved : step s a = some (t,label)) : Written (trace ++ [label]) t := by
  obtain ⟨⟨left,file,free_lock,held⟩,holder,turns⟩ := written
  rcases step_cases moved with ⟨i,c,idle,rfl,rfl⟩ | ⟨i,c,ready,unlocked,rfl,rfl⟩ | ⟨i,c,b,rest,writing,rfl,rfl⟩ |
    ⟨i,c,writing,rfl,rfl⟩
  · refine ⟨⟨left,by simpa using file,free_lock,?_⟩,?_,?_⟩
    · intro j locked
      obtain ⟨c',writing⟩ := held j locked
      have other := writer_other idle writing
      exact ⟨c',by simpa [other] using writing⟩
    · intro j c' rest writing
      by_cases here : j = i
      · simp [here] at writing
      · exact holder j c' rest (by simpa [here] using writing)
    · have turn := turns i
      exact turns_change turns (.called i c) (.formatted c) (by simpa [Label.thread,idle,Pc.waiting] using turn)
  · -- Nobody held the lock, so the file ends where a line ends.
    have complete := free_lock unlocked
    rw [complete,List.append_nil] at file
    refine ⟨⟨c.out,by simp [file],by simp,?_⟩,?_,?_⟩
    · intro j locked
      obtain rfl : i = j := Option.some.inj locked
      exact ⟨c,by simp⟩
    · intro j c' rest writing
      by_cases here : j = i
      · rw [here]
      · have before := holder j c' rest (by simpa [here] using writing)
        rw [unlocked] at before
        cases before
    · have turn := turns i
      exact turns_change turns (.locked i c) (.writing c c.out)
        (by simpa [Label.thread,ready,Pc.waiting] using turn)
  · have locked := holder i c (b :: rest) writing
    obtain ⟨c',also⟩ := held i locked
    obtain ⟨rfl,rfl⟩ := writing_inj writing also
    refine ⟨⟨rest,by simpa using file,by simp [locked],?_⟩,?_,?_⟩
    · intro j held_j
      obtain rfl : i = j := Option.some.inj (locked.symm.trans held_j)
      exact ⟨c,by simp⟩
    · intro j c' left writing_j
      by_cases here : j = i
      · rw [here]
        exact locked
      · exact holder j c' left (by simpa [here] using writing_j)
    · have turn := turns i
      exact turns_change turns (.wrote i b) (.writing c rest) (by simpa [Label.thread,writing,Pc.waiting] using turn)
  · have locked := holder i c [] writing
    obtain ⟨c',also⟩ := held i locked
    obtain ⟨rfl,rfl⟩ := writing_inj writing also
    refine ⟨⟨[],by simpa using file,fun _ => rfl,by simp⟩,?_,?_⟩
    · intro j c' left writing_j
      by_cases here : j = i
      · simp [here] at writing_j
      · have before := holder j c' left (by simpa [here] using writing_j)
        exact absurd (Option.some.inj (before.symm.trans locked)) here
    · have turn := turns i
      exact turns_change turns (.unlocked i) .idle (by simpa [Label.thread,writing,Pc.waiting] using turn)

theorem run_written {trace : List Label} {t : World} (run : Run step free World.initial trace t) : Written trace t :=
  run.invariant written_initial fun _ _ _ _ _ _ written _ moved => written_step written moved

/-! ### One call -/

theorem write_run {left : Mem} {c : Call} {i : Nat} {s : World} (writing : s.threads i = .writing c left) :
    Run step free s (left.map (.wrote i) ++ [.unlocked i]) ⟨s.gLogfile ++ left,none,Function.update s.threads i .idle⟩ := by
  induction left generalizing s with
  | nil =>
    have moved : step s (.advance i) = some (⟨s.gLogfile,none,Function.update s.threads i .idle⟩,.unlocked i) := by
      simp only [step,writing]
    rw [List.append_nil]
    exact .next .start trivial moved
  | cons b left ih =>
    have moved : step s (.advance i) =
        some (⟨s.gLogfile ++ [b],s.gLock,Function.update s.threads i (.writing c left)⟩,.wrote i b) := by
      simp only [step,writing]
    have first : Run step free s [.wrote i b] ⟨s.gLogfile ++ [b],s.gLock,Function.update s.threads i (.writing c left)⟩ :=
      .next .start trivial moved
    have later := @ih ⟨s.gLogfile ++ [b],s.gLock,Function.update s.threads i (.writing c left)⟩ (Function.update_self ..)
    simpa using first.trans later

/-- A call that has its line before it finds the lock free goes on to its end. -/
theorem formatted_run {s : World} {i : Nat} {c : Call} (formatted : s.threads i = .formatted c) (free_lock : s.gLock = none) :
    Run step free s (.locked i c :: (c.out.map (.wrote i) ++ [.unlocked i]))
      ⟨s.gLogfile ++ c.out,none,Function.update s.threads i .idle⟩ := by
  have locked : step s (.advance i) =
      some (⟨s.gLogfile,some i,Function.update s.threads i (.writing c c.out)⟩,.locked i c) := by
    simp [step,formatted,free_lock]
  have begins : Run step free s [.locked i c] ⟨s.gLogfile,some i,Function.update s.threads i (.writing c c.out)⟩ :=
    .next .start trivial locked
  simpa using begins.trans (write_run (Function.update_self ..))

/-- A call that finds the lock free can go on to its end, and appends its line. -/
theorem call_run {s : World} {i : Nat} (idle : s.threads i = .idle) (free_lock : s.gLock = none) (c : Call) :
    Run step free s ([.called i c,.locked i c] ++ (c.out.map (.wrote i) ++ [.unlocked i])) { s with gLogfile := s.gLogfile ++ c.out } := by
  have called : step s (.call i c) = some ({ s with threads := Function.update s.threads i (.formatted c) },.called i c) := by
    simp only [step,idle]
  have begins : Run step free s [.called i c] { s with threads := Function.update s.threads i (.formatted c) } :=
    .next .start trivial called
  have whole := begins.trans (formatted_run (Function.update_self ..) free_lock)
  simpa [free_lock,← idle] using whole

theorem call_order (i : Nat) (c : Call) :
    order ([.called i c,.locked i c] ++ (c.out.map (.wrote i) ++ [.unlocked i])) = [(i,c)] := by
  simp [order]

/-! ### The file -/

/-- A string of the code is the line up to its first NUL. -/
theorem Call.out_text (c : Call) : c.out = text c.line ++ [10] := by
  rw [out_eq,line,text_append (stamp_plain c.tm c.level).2,buf,List.append_assoc]

theorem Call.line_clear (c : Call) : 10 ∉ c.line ∧ 0 ∉ c.line ↔ 10 ∉ c.message.take 1023 ∧ 0 ∉ c.message.take 1023 := by
  obtain ⟨newline,nul⟩ := stamp_plain c.tm c.level
  simp only [line,List.mem_append,newline,nul,false_or]

/-- What the calls write. -/
theorem outs_unlines (calls : List (Nat × Call)) :
    calls.flatMap (fun p => p.2.out) = unlines ((calls.map fun p => p.2.line).map text) := by
  induction calls with
  | nil => rfl
  | cons p calls ih =>
    rw [List.flatMap_cons,ih,p.2.out_text,List.map_cons,List.map_cons,unlines,unlines,List.flatMap_cons]

/-- Lines tell the calls that they are the lines of. -/
theorem shown_of_lines {calls : List Call} {made : List (Nat × Call)}
    (same : calls.map Call.line = made.map fun p => p.2.line) : calls.map Call.shown = made.map fun p => p.2.shown := by
  induction calls generalizing made with
  | nil =>
    cases made with
    | nil => rfl
    | cons p made => cases same
  | cons c calls ih =>
    cases made with
    | nil => cases same
    | cons p made =>
      obtain ⟨here,later⟩ := List.cons.inj same
      rw [List.map_cons,List.map_cons,line_injective here,ih later]

/-- **Whenever no line is being written, the file holds one line for each call**, in the order in which
    the calls took the lock, and these lines tell the calls, exactly if no message has a newline or a NUL
    in its first 1023 bytes. -/
theorem log_lines {trace : List Label} {t : World} (run : Run step free World.initial trace t) (free_lock : t.gLock = none) :
    ((∀ i,share i (begun trace) = share i (order trace) ++ (t.threads i).waiting) ∧
      linesOf t.gLogfile = (order trace).map (fun p => p.2.line) ++ [[]] ∧
      ∀ calls : List Call,linesOf t.gLogfile = calls.map Call.line ++ [[]] →
        calls.map Call.shown = (order trace).map (fun p => p.2.shown)) ↔
      ∀ p ∈ order trace,10 ∉ p.2.message.take 1023 ∧ 0 ∉ p.2.message.take 1023 := by
  obtain ⟨⟨left,file,complete,_⟩,_,turns⟩ := run_written run
  have written : t.gLogfile = unlines (((order trace).map (fun p => p.2.line)).map text) := by
    rw [complete free_lock,List.append_nil] at file
    rw [file,outs_unlines]
  have exact_lines := linesOf_texts ((order trace).map fun p => p.2.line)
  rw [← written] at exact_lines
  have clear : (∀ line ∈ (order trace).map (fun p => p.2.line),10 ∉ line ∧ 0 ∉ line) ↔
      ∀ p ∈ order trace,10 ∉ p.2.message.take 1023 ∧ 0 ∉ p.2.message.take 1023 := by
    rw [List.forall_mem_map]
    exact forall₂_congr fun p _ => p.2.line_clear
  rw [← clear,← exact_lines]
  constructor
  · rintro ⟨_,parted,_⟩
    exact parted
  · intro parted
    refine ⟨turns,parted,?_⟩
    intro calls also
    rw [parted] at also
    exact shown_of_lines (List.append_cancel_right also).symm

/-- A warning in 2026. -/
def warning (message : Mem) : Call :=
  ⟨.warn,message,⟨126,5,1,12,30,0,by decide,by decide,by decide,by decide,by decide,by decide⟩⟩

private def stat : Call := warning (ascii "stat failed for /etc/a")

private def full : Call := warning (ascii "event_bus_publish failed (file_integrity): -1")

/-- A thread has its line ready while another writes. -/
theorem log_lines_warning : ∃ trace t,Run step free World.initial trace t ∧
    begun trace = [(1,full),(0,stat)] ∧ order trace = [(0,stat),(1,full)] ∧ linesOf t.gLogfile = [stat.line,full.line,[]] := by
  have called : step World.initial (.call 1 full) =
      some (⟨[],none,Function.update World.initial.threads 1 (.formatted full)⟩,.called 1 full) := rfl
  have begins : Run step free World.initial [.called 1 full] _ := .next .start trivial called
  have writes := begins.trans (call_run (i := 0) rfl rfl stat)
  have run := writes.trans (formatted_run (Function.update_self ..) rfl)
  have first : begun ([.called 1 full] ++ ([.called 0 stat,.locked 0 stat] ++ (stat.out.map (.wrote 0) ++ [.unlocked 0])) ++
      .locked 1 full :: (full.out.map (.wrote 1) ++ [.unlocked 1])) = [(1,full),(0,stat)] := by simp [begun]
  have made : order ([.called 1 full] ++ ([.called 0 stat,.locked 0 stat] ++ (stat.out.map (.wrote 0) ++ [.unlocked 0])) ++
      .locked 1 full :: (full.out.map (.wrote 1) ++ [.unlocked 1])) = [(0,stat),(1,full)] := by simp [order]
  obtain ⟨_,lines,_⟩ := (log_lines run rfl).mpr (by rw [made]; decide)
  rw [made] at lines
  exact ⟨_,_,run,first,made,lines⟩

/-- A file name with a newline makes two lines of one call. -/
theorem newline_splits :
    ¬ ∀ (trace : List Label) (t : World),Run step free World.initial trace t → t.gLock = none →
      linesOf t.gLogfile = (order trace).map (fun p => p.2.line) ++ [[]] := by
  intro always
  have parted := always _ _ (@call_run World.initial 0 rfl rfl (warning (ascii "stat failed for /etc/a\nb"))) rfl
  rw [call_order,show World.initial.gLogfile = [] from rfl,List.nil_append,Call.out_text] at parted
  have clear := (linesOf_texts [(warning (ascii "stat failed for /etc/a\nb")).line]).mp parted _ List.mem_cons_self
  rw [Call.line_clear] at clear
  revert clear
  decide

end Nulleye.LogLines
