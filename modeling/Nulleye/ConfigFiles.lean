import Nulleye.Lines

/-!
The settings and the parser of configuration files. A line is scanned into two
buffers as a key and a value, and a known key takes its value over. Of each setting
the last line that assigns it is what counts.
-/
namespace Nulleye.ConfigFiles
open Nulleye.CStrings Nulleye.Lines

/-- `g_database`, `g_socket`, `g_logfile` and `g_ringbuf_size`; the buffers without their
    last bytes, which are zero and never written. -/
structure Settings where
  database : Vector UInt8 255
  socket : Vector UInt8 107
  logfile : Vector UInt8 255
  ringbufSize : Int32
  deriving DecidableEq

/-- The settings before the first load. -/
def Settings.initial : Settings where
  database := overwrite (.replicate 255 0) (ascii "/var/lib/nulleye/nulleye.db")
  socket := overwrite (.replicate 107 0) (ascii "/var/run/nulleye.sock")
  logfile := overwrite (.replicate 255 0) (ascii "/var/log/nulleye/nulleye.log")
  ringbufSize := 4096

/-- A conversion `%n[^…]`: the bytes that it reads, and what is left. -/
def scanSet (stop : UInt8) : Nat → Mem → Option (Mem × Mem)
  | 0,mem => some ([],mem)
  | _ + 1,[] => none
  | n + 1,b :: rest =>
    if b = 0 ∨ b = stop then some ([],b :: rest) else (scanSet stop n rest).map fun (read,left) => (b :: read,left)

/-- `key` and `val` if `sscanf(p, "%127[^:]: %511[^\n]", key, val) == 2`. -/
def scanPair (p : Mem) : Option (Option (Mem × Mem)) := do
  let (key,rest) ← scanSet 58 127 p
  if key = [] then return none
  if (← rest.head?) ≠ 58 then return none
  let (val,_) ← scanSet 10 511 (← skipSpace rest.tail)
  if val = [] then return none
  return some (key,val)

/-- `strncpy(buffer, val, sizeof(buffer) - 1)`. -/
def copyText {n : Nat} (buffer : Vector UInt8 n) (val : Mem) : Option (Vector UInt8 n) :=
  (strncpy n (val ++ [0])).map (overwrite buffer)

/-- The body of the loop, on the bytes of the buffer that `fgets` wrote. -/
def configLine (line : Mem) (s : Settings) : Option Settings := do
  let p ← skipBlank line
  let first ← p.head?
  if first = 35 ∨ first = 10 ∨ first = 0 then return s
  match ← scanPair p with
  | none => return s
  | some (key,val) =>
    if key = ascii "database" then return { s with database := ← copyText s.database val }
    else if key = ascii "socket" then return { s with socket := ← copyText s.socket val }
    else if key = ascii "log_file" then return { s with logfile := ← copyText s.logfile val }
    else if key = ascii "ringbuf_size" ∨ key = ascii "ebpf_ringbuf_size" then
      let size ← atoi (val ++ [0])
      return { s with ringbufSize := if size ≤ 0 then 4096 else size }
    else return s

def configLoop : List Mem → Settings → Option Settings
  | [],s => some s
  | line :: rest,s => do configLoop rest (← configLine (line ++ [0]) s)

/-- `config_load`; `file` is `none` if it cannot be opened. -/
def configLoad (file : Option Mem) (s : Settings) : Option (Settings × Int) :=
  match file with
  | none => some (s,-1)
  | some file => (configLoop (pieces 1023 file) s).map fun s => (s,0)

/-! ### Assignments -/

inductive Key where
  | database
  | socket
  | logFile
  | ringbufSize
  deriving DecidableEq

/-- The setting that a key names. -/
def keyOf (key : Mem) : Option Key :=
  if key = ascii "database" then some .database
  else if key = ascii "socket" then some .socket
  else if key = ascii "log_file" then some .logFile
  else if key = ascii "ringbuf_size" ∨ key = ascii "ebpf_ringbuf_size" then some .ringbufSize
  else none

/-- A buffer that holds a value. -/
def held (n : Nat) (val : Mem) : Vector UInt8 n := ⟨(padded n val).toArray,by simp⟩

/-- The settings after an assignment. -/
def Settings.assign (s : Settings) (val : Mem) : Key → Settings
  | .database => { s with database := held 255 val }
  | .socket => { s with socket := held 107 val }
  | .logFile => { s with logfile := held 255 val }
  | .ringbufSize =>
    let size := (atoi (val ++ [0])).getD 0
    { s with ringbufSize := if size ≤ 0 then 4096 else size }

/-- The pair that a line is scanned into. -/
def pairOf (p : Mem) : Option (Mem × Mem) :=
  let key := p.takeWhile (· ≠ 58)
  let val := ((p.drop (key.length + 1)).dropWhile isspace).takeWhile (· ≠ 10)
  if key = [] ∨ 127 < key.length ∨ key.length = p.length ∨ val = [] then none else some (key,val.take 511)

/-- The assignment that a line makes. -/
def assignOf (piece : Mem) : Option (Key × Mem) :=
  let p := (text piece).dropWhile isBlank
  if p.head? = some 35 ∨ p.head? = some 10 then none
  else (pairOf p).bind fun (key,val) => (keyOf key).map fun key => (key,val)

theorem scanSet_terminated {stop : UInt8} (n : Nat) {line : Mem} (plain : 0 ∉ line) (rest : Mem) :
    scanSet stop n (line ++ 0 :: rest) =
      some ((line.takeWhile (· ≠ stop)).take n,line.drop ((line.takeWhile (· ≠ stop)).take n).length ++ 0 :: rest) := by
  induction line generalizing n with
  | nil => cases n <;> simp [scanSet]
  | cons b line ih =>
    obtain ⟨b_plain,line_plain⟩ := List.ne_and_not_mem_of_not_mem_cons plain
    cases n with
    | zero => simp [scanSet]
    | succ n => by_cases stopped : b = stop <;> simp [scanSet,Ne.symm b_plain,stopped,ih n line_plain]

theorem scanPair_terminated {p : Mem} (plain : 0 ∉ p) (rest : Mem) : scanPair (p ++ 0 :: rest) = some (pairOf p) := by
  have split : p = p.takeWhile (· ≠ 58) ++ p.dropWhile (· ≠ 58) := List.takeWhile_append_dropWhile.symm
  have unlike : ∀ b ∈ p.takeWhile (· ≠ 58),b ≠ 58 := fun b inside => by simpa using List.mem_takeWhile_imp inside
  rw [scanPair,scanSet_terminated 127 plain,pairOf]
  simp only [Option.bind_eq_bind,Option.bind_some,Option.pure_def]
  generalize p.takeWhile (· ≠ 58) = key at split unlike ⊢
  by_cases missing : key = []
  · simp [missing]
  by_cases long : 127 < key.length
  · obtain ⟨b,tail,behind⟩ : ∃ b tail,key.drop 127 = b :: tail :=
      List.exists_cons_of_length_pos (by simp; omega)
    have taken : (key.take 127).length = 127 := by simp; omega
    have next : (p.drop 127 ++ 0 :: rest).head? = some b := by
      rw [split,List.drop_append_of_le_length (by omega),behind]
      rfl
    have b_unlike : b ≠ 58 := unlike b (List.drop_subset 127 key (behind ▸ List.mem_cons_self))
    have taken_some : key.take 127 ≠ [] := fun empty => by simp [empty] at taken
    rw [taken,next]
    simp [taken_some,b_unlike,long]
  · rw [List.take_of_length_le (by omega)]
    cases colon : p.dropWhile (· ≠ 58) with
    | nil =>
      rw [colon,List.append_nil] at split
      subst split
      simp [missing]
    | cons c tail =>
      have c_colon : c = 58 := by simpa using dropWhile_stops colon
      rw [colon,c_colon] at split
      have behind : p.drop key.length = 58 :: tail := by rw [split,List.drop_left]
      have beyond : p.drop (key.length + 1) = tail := by rw [← List.drop_drop,behind]; rfl
      have inside : key.length ≠ p.length := by rw [split]; simp
      have val_plain : 0 ∉ tail.dropWhile isspace := by
        intro zero
        apply plain
        rw [split]
        exact List.mem_append_right _ (List.mem_cons_of_mem _ (List.dropWhile_subset _ zero))
      simp only [behind,beyond,List.cons_append,List.head?_cons,List.tail_cons,Option.bind_some,
        skipSpace_terminated,scanSet_terminated 511 val_plain]
      generalize (tail.dropWhile isspace).takeWhile (· ≠ 10) = val
      by_cases empty : val = []
      · simp [missing,empty]
      · simp [missing,long,inside,empty]

theorem copyText_eq {n : Nat} (buffer : Vector UInt8 n) {val : Mem} (plain : 0 ∉ val) :
    copyText buffer val = some (held n val) := by
  rw [copyText,strncpy_terminated plain,Option.map_some]
  congr 1
  apply Vector.toList_inj.mp
  exact overwrite_whole buffer (padded_length n val)

theorem zero_not_mem_pairOf {p key val : Mem} (plain : 0 ∉ p) (scanned : pairOf p = some (key,val)) : 0 ∉ val := by
  rw [pairOf] at scanned
  split_ifs at scanned
  cases scanned
  exact plain_take (plain_takeWhile (plain_dropWhile (plain_drop plain _) _) _) _

/-- A line of a configuration file makes its assignment. -/
theorem configLine_eq (piece : Mem) (s : Settings) :
    configLine (piece ++ [0]) s = some ((assignOf piece).elim s fun (key,val) => s.assign val key) := by
  obtain ⟨rest,split⟩ := text_ended piece
  have p_plain := plain_dropWhile (zero_not_mem_text piece) isBlank
  rw [configLine,split,skipBlank_terminated,assignOf]
  simp only [Option.bind_eq_bind,Option.bind_some]
  generalize (text piece).dropWhile isBlank = p at p_plain ⊢
  cases p with
  | nil => rfl
  | cons b tail =>
    have b_plain : b ≠ 0 := (List.ne_of_not_mem_cons p_plain).symm
    by_cases comment : b = 35 ∨ b = 10
    · simp [comment,or_assoc.symm]
    · have scanned := scanPair_terminated p_plain rest
      rw [List.cons_append] at scanned ⊢
      simp only [List.head?_cons,Option.bind_some,Option.some.injEq,b_plain,or_false,if_neg comment,scanned]
      cases found : pairOf (b :: tail) with
      | none => rfl
      | some pair =>
        obtain ⟨key,val⟩ := pair
        have val_plain := zero_not_mem_pairOf p_plain found
        obtain ⟨size,number⟩ := @atoi_terminated (val ++ [0]) (by simp)
        simp only [copyText_eq _ val_plain,number,keyOf,Option.bind_some,Option.pure_def]
        split_ifs <;> simp [Settings.assign, *]

/-! ### The last assignment counts -/

/-- The assignments of some lines in turn. -/
def assignments (lines : List Mem) : List (Key × Mem) := lines.filterMap assignOf

/-- The value that is assigned last. -/
def latest (k : Key) (made : List (Key × Mem)) : Option Mem := ((made.filter (·.1 = k)).getLast?).map (·.2)

/-- The settings after some assignments. -/
def Settings.assignAll (s : Settings) (made : List (Key × Mem)) : Settings :=
  made.foldl (fun s (key,val) => s.assign val key) s

/-- Two settings have the same value for a key. -/
def Agree : Key → Settings → Settings → Prop
  | .database,s,t => s.database = t.database
  | .socket,s,t => s.socket = t.socket
  | .logFile,s,t => s.logfile = t.logfile
  | .ringbufSize,s,t => s.ringbufSize = t.ringbufSize

theorem configLoad_eq (file : Mem) (s : Settings) :
    configLoad (some file) s = some (s.assignAll (assignments (pieces 1023 file)),0) := by
  have loop : ∀ lines s,configLoop lines s = some (Settings.assignAll s (assignments lines)) := by
    intro lines
    induction lines with
    | nil => intro s; rfl
    | cons line lines ih =>
      intro s
      rw [configLoop,configLine_eq,Option.bind_eq_bind,Option.bind_some,ih]
      cases made : assignOf line <;> simp [assignments,made,Settings.assignAll]
  rw [configLoad,loop,Option.map_some]

theorem agree_refl (k : Key) (s : Settings) : Agree k s s := by
  cases k <;> rfl

theorem agree_symm {k : Key} {s t : Settings} (same : Agree k s t) : Agree k t s := by
  cases k <;> exact Eq.symm same

theorem agree_trans {k : Key} {s t u : Settings} (first : Agree k s t) (second : Agree k t u) : Agree k s u := by
  cases k <;> exact Eq.trans first second

theorem agree_all {s t : Settings} : (∀ k,Agree k s t) ↔ s = t := by
  constructor
  · intro same
    obtain ⟨database,socket,logfile,size⟩ : Agree .database s t ∧ Agree .socket s t ∧ Agree .logFile s t ∧
        Agree .ringbufSize s t := ⟨same _,same _,same _,same _⟩
    cases s
    cases t
    simp_all [Agree]
  · rintro rfl k
    exact agree_refl k s

/-- An assignment overwrites the value. -/
theorem agree_assign (k : Key) (val : Mem) (s t : Settings) : Agree k (s.assign val k) (t.assign val k) := by
  cases k <;> rfl

/-- An assignment to another key leaves the value. -/
theorem agree_assign_other {k other : Key} (different : other ≠ k) (val : Mem) (s : Settings) :
    Agree k (s.assign val other) s := by
  cases k <;> cases other <;> first | rfl | exact absurd rfl different

theorem latest_append (k : Key) (before after : List (Key × Mem)) :
    latest k (before ++ after) = (latest k after).or (latest k before) := by
  simp [latest,List.getLast?_append,Option.map_or]

/-- **The last line that assigns a setting is what counts.** -/
theorem last_wins (k : Key) (made : List (Key × Mem)) (s : Settings) :
    Agree k (s.assignAll made) ((latest k made).elim s fun val => s.assign val k) := by
  induction made using List.reverseRecOn with
  | nil => exact agree_refl k s
  | append_singleton made last ih =>
    obtain ⟨key,val⟩ := last
    have step : s.assignAll (made ++ [(key,val)]) = (s.assignAll made).assign val key := by
      simp [Settings.assignAll]
    rw [step]
    by_cases same : key = k
    · subst same
      have found : latest key (made ++ [(key,val)]) = some val := by simp [latest]
      rw [found]
      exact agree_assign key val _ _
    · have kept : latest k (made ++ [(key,val)]) = latest k made := by simp [latest,same]
      rw [kept]
      exact agree_trans (agree_assign_other same val _) ih

end Nulleye.ConfigFiles
