import Mathlib.Logic.Function.Basic
import Nulleye.CStrings
import Nulleye.Events
import Nulleye.FileReads
import Nulleye.MerkleSeparation

/-!
The rows of the file integrity module. A failed read ends the loop over a file like its
end, the callback records an empty root where there is none, and what `stat` did not fill
in. A row describes the complete file exactly if every pass over it is undisturbed.
-/
namespace Nulleye.FileRecords
open Nulleye.CStrings Nulleye.Events Nulleye.HashTrees
open Nulleye.MerkleRoot Nulleye.MerkleTamper Nulleye.MerkleSeparation Nulleye.FileReads

/-- What lies at a path: a file, no longer than `off_t` counts, or a directory, whose reads fail. -/
inductive Node where
  | file (content : Bytes) (counted : content.length < 2 ^ 63)
  | directory

def Node.content : Node → Option Bytes
  | .file content _ => some content
  | .directory => none

/-- One pass over a file: whether `fopen` succeeds, and where reads fail. -/
structure Pass where
  opened : Bool
  faults : List Nat

/-- The results of the calls of `fread`. -/
def Pass.reads (p : Pass) : Node → List Bytes
  | .file content _ => freads p.faults content
  | .directory => []

/-! ### The digests -/

/-- `sha256_file_hex`. -/
def sha256FileHex (H : Bytes → Digest) (p : Pass) (node : Node) (outhex : Vector UInt8 65) : Int × Vector UInt8 65 :=
  if !p.opened then (-1,outhex)
  else
    let ctx := (p.reads node).foldl (fun ctx buf => ctx ++ buf) []
    (0,writeHex (H ctx) outhex)

/-- The loop of `compute_merkle_root` over the calls of `fread`. -/
def leafReads (H : Bytes → Digest) (malloc : Site → Bool) : List Bytes → Progress → Option Progress
  | [], s => some s
  | buf :: rest, s =>
    if !malloc (.leaf s.blocks.length) then none
    else if !malloc (.grow s.blocks.length) then none
    else leafReads H malloc rest ⟨s.blocks ++ [H buf],s.hashed ++ [buf]⟩

/-- `compute_merkle_root`, where `fopen` gives the results of the calls of `fread`. -/
def merkleRootOfReads {Path : Type} (H : Bytes → Digest) (malloc : Site → Bool) (fopen : Path → Option (List Bytes))
    (path : Option Path) (outhex : Option (Vector UInt8 65)) : Outcome :=
  match path, outhex with
  | some path, some out =>
    match fopen path with
    | none => ⟨-1,outhex,[]⟩
    | some reads =>
      match leafReads H malloc reads ⟨[],[]⟩ with
      | some s =>
        if nonempty : 0 < s.blocks.length then
          match levelLoop H malloc s nonempty with
          | some ⟨t,_⟩ => ⟨0,some (writeHex t.blocks[0] out),t.hashed⟩
          | none => ⟨-1,outhex,[]⟩
        else ⟨0,some (writeHex (H []) out),s.hashed ++ [[]]⟩
      | none => ⟨-1,outhex,[]⟩
  | _, _ => ⟨-1,outhex,[]⟩

theorem leafLoop_reads (H : Bytes → Digest) (malloc : Site → Bool) (stream : Bytes) (s : Progress) :
    leafLoop H malloc stream s = leafReads H malloc (blocks stream) s := by
  fun_induction leafLoop H malloc stream s with
  | case1 stream s buf more failed | case2 stream s buf more _ failed | case3 stream s buf more _ _ ih =>
    rw [blocks_of_ne_nil (some_block.mp more)]
    simp_all [leafReads,buf]
  | case4 stream s buf stop =>
    have empty : stream = [] := not_not.mp (mt some_block.mpr stop)
    simp [empty,leafReads]

/-- Without failing reads it is the function on the bytes of the file. -/
theorem computeMerkleRoot_reads (H : Bytes → Digest) (malloc : Site → Bool) (fopen : String → Option Bytes)
    (path : Option String) (outhex : Option (Vector UInt8 65)) :
    computeMerkleRoot H malloc fopen path outhex =
      merkleRootOfReads H malloc (fun path => (fopen path).map (freads [])) path outhex := by
  unfold computeMerkleRoot merkleRootOfReads
  cases path with
  | none => rfl
  | some path =>
    cases outhex with
    | none => rfl
    | some out =>
      cases opened : fopen path with
      | none => simp [opened]
      | some stream =>
        simp only [opened,Option.map_some,freads_blocks,leafLoop_reads]
        cases leafReads H malloc (blocks stream) ⟨[],[]⟩ with
        | none => rfl
        | some s =>
          by_cases empty : s.blocks.length = 0
          · have none_left : ¬0 < s.blocks.length := by omega
            simp only [dif_pos empty,dif_neg none_left]
          · have nonempty := Nat.pos_of_ne_zero empty
            simp only [dif_neg empty,dif_pos nonempty]
            cases levelLoop H malloc s nonempty <;> rfl

/-! ### `file_cb` -/

/-- What `stat` fills in. -/
structure Stat where
  stMtime : Int64
  stSize : Int64
  stMode : UInt32
  stUid : UInt32
  stGid : UInt32
  deriving DecidableEq

/-- A row of `file_entries`. -/
structure Row where
  hash : Bytes
  merkle : Bytes
  mtime : Int64
  size : Int64
  perms : Int32
  uid : Int32
  gid : Int32
  attrs : Bytes

/-- The memory of the locals `h`, `merkle` and `st` before the call. -/
structure Locals where
  h : Vector UInt8 65
  merkle : Vector UInt8 65
  st : Stat

/-- The results of what `file_cb` calls. -/
structure Results where
  sha : Pass
  merkle : Pass
  malloc : Site → Bool
  stat : Option Stat
  updated : Bool
  time : UInt64
  pubrc : Int

/-- The row with two digests, as digits, and what `stat` filled in. -/
def rowOf (h merkle : Vector UInt8 65) (st : Stat) : Row :=
  ⟨text h.toList,text merkle.toList,st.stMtime,st.stSize,(st.stMode &&& 0o777).toInt32,st.stUid.toInt32,st.stGid.toInt32,[]⟩

/-- The call `compute_merkle_root(path, merkle)`. -/
def rootOutcome (H : Bytes → Digest) (path : Mem) (node : Node) (r : Results) (l : Locals) : Outcome :=
  merkleRootOfReads H r.malloc (fun _ => if r.merkle.opened then some (r.merkle.reads node) else none) (some path) (some l.merkle)

/-- The row that `file_cb` passes to `db_update_file_entry`. -/
def passedRow (H : Bytes → Digest) (path : Mem) (node : Node) (r : Results) (l : Locals) : Option Row :=
  let (rc,h) := sha256FileHex H r.sha node l.h
  if rc = 0 then
    let o := rootOutcome H path node r l
    let merkle := o.outhex.getD l.merkle
    let merkle := if o.rc ≠ 0 then merkle.set 0 0 else merkle
    let st := r.stat.getD l.st
    some (rowOf h merkle st)
  else none

/-- `"stat failed for %s"` and `"event_bus_publish failed (file_integrity): %d"`. -/
inductive Warning where
  | stat (path : Mem)
  | publish (pubrc : Int)

/-- The table, the events handed to `event_bus_publish`, and what is logged. -/
structure World where
  entries : Mem → Option Row
  published : List NuleyeEvent
  logged : List Warning

def dbUpdateFileEntry (updated : Bool) (path : Mem) (row : Row) (w : World) : World :=
  if updated then { w with entries := Function.update w.entries path (some row) } else w

def NYE_MODULE_FILE : UInt32 := 2

/-- `strncpy(field, s, sizeof(field) - 1)` into an array of zeros. -/
def copied (n : Nat) (s : Mem) : Vector UInt8 n :=
  overwrite (Vector.replicate n 0) ((strncpy (n - 1) (s ++ [0])).getD [])

/-- The event for a file with the digest `h`. -/
def fileEvent (ts : UInt64) (path h : Mem) : NuleyeEvent :=
  { zeroEvent with
    ts
    module := NYE_MODULE_FILE
    path := copied 256 path
    payload := copied 256 h
    payloadLen := h.length.toUInt64 }

def fileCb (H : Bytes → Digest) (path : Mem) (node : Node) (r : Results) (l : Locals) (w : World) : World :=
  match passedRow H path node r l with
  | none => w
  | some row =>
    let w := if r.stat = none then { w with logged := w.logged ++ [.stat path] } else w
    let w := dbUpdateFileEntry r.updated path row w
    let w := { w with published := w.published ++ [fileEvent r.time path row.hash] }
    if r.pubrc < 0 then { w with logged := w.logged ++ [.publish r.pubrc] } else w

/-! ### The allocations of a run -/

/-- The allocations of the loop over the levels, from `n` digests on. -/
def LevelsAllocate (malloc : Site → Bool) (n : Nat) : Prop :=
  if 1 < n then
    malloc (.level n) = true ∧ (∀ i < (n + 1) / 2,malloc (.node n i) = true) ∧ LevelsAllocate malloc ((n + 1) / 2)
  else True
termination_by n

/-- All allocations for `n` blocks succeed. -/
def Allocates (malloc : Site → Bool) (n : Nat) : Prop :=
  (∀ i < n,malloc (.leaf i) = true ∧ malloc (.grow i) = true) ∧ LevelsAllocate malloc n

section
variable {H : Bytes → Digest} {malloc : Site → Bool}

theorem leafReads_iff {l : List Bytes} {s t : Progress} :
    leafReads H malloc l s = some t ↔
      (∀ i < l.length,malloc (.leaf (s.blocks.length + i)) = true ∧ malloc (.grow (s.blocks.length + i)) = true) ∧
        t = ⟨s.blocks ++ l.map H,s.hashed ++ l⟩ := by
  induction l generalizing s with
  | nil =>
    constructor
    · intro done
      cases done
      simp
    · rintro ⟨_,rfl⟩
      simp [leafReads]
  | cons buf rest ih =>
    have step : leafReads H malloc (buf :: rest) s = some t ↔
        (malloc (.leaf s.blocks.length) = true ∧ malloc (.grow s.blocks.length) = true) ∧
          leafReads H malloc rest ⟨s.blocks ++ [H buf],s.hashed ++ [buf]⟩ = some t := by
      rw [leafReads]
      cases malloc (.leaf s.blocks.length) <;> cases malloc (.grow s.blocks.length) <;> simp
    rw [step,ih,List.length_cons,Nat.forall_lt_succ_left,and_assoc (c := t = _)]
    simp [Nat.add_assoc,Nat.add_comm 1]

theorem nodeLoop_iff (blocks : List Digest) (i : Nat) (s : Progress) :
    (∃ t,nodeLoop H malloc blocks i s = some t) ↔
      ∀ j,i ≤ j → j < (blocks.length + 1) / 2 → malloc (.node blocks.length j) = true := by
  fun_induction nodeLoop H malloc blocks i s with
  | case1 i s pairs inside =>
    rename_i failed
    simp only [reduceCtorEq,exists_false,false_iff]
    intro allocated
    simp [allocated i le_rfl inside] at failed
  | case2 i s pairs inside =>
    rename_i allocated ih
    rw [ih]
    constructor
    · intro later j above below
      rcases Nat.eq_or_lt_of_le above with rfl | beyond
      · simpa using allocated
      · exact later j beyond below
    · intro all j above below
      exact all j (by omega) below
  | case3 i s pairs outside =>
    refine ⟨fun _ j above below => ?_,fun _ => ⟨s,rfl⟩⟩
    omega

theorem levelLoop_iff (s : Progress) (nonempty : 0 < s.blocks.length) :
    (∃ t,levelLoop H malloc s nonempty = some t) ↔ LevelsAllocate malloc s.blocks.length := by
  fun_induction levelLoop H malloc s nonempty with
  | case1 s nonempty more failed =>
    rw [LevelsAllocate,if_pos more]
    simp only [reduceCtorEq,exists_false,false_iff]
    rintro ⟨allocated,_⟩
    simp [allocated] at failed
  | case2 s nonempty more allocated failed =>
    rw [LevelsAllocate,if_pos more]
    simp only [reduceCtorEq,exists_false,false_iff]
    rintro ⟨_,nodes,_⟩
    obtain ⟨t,done⟩ := (nodeLoop_iff s.blocks 0 ⟨[],s.hashed⟩).mpr fun j _ below => nodes j below
    rw [failed] at done
    cases done
  | case3 s nonempty more allocated next looped ih =>
    have nodes := (nodeLoop_iff s.blocks 0 ⟨[],s.hashed⟩).mp ⟨next,looped⟩
    have length := nodeLoop_length H malloc looped
    rw [List.length_nil,Nat.zero_add,Nat.sub_zero] at length
    rw [LevelsAllocate,if_pos more,ih,length]
    constructor
    · intro later
      exact ⟨by simpa using allocated,fun i inside => nodes i (Nat.zero_le i) inside,later⟩
    · rintro ⟨_,_,later⟩
      exact later
  | case4 s nonempty single =>
    rw [LevelsAllocate,if_neg single]
    simp

/-! ### What the functions deliver -/

/-- The root over what the calls of `fread` delivered. -/
def readRoot (H : Bytes → Digest) (l : List Bytes) : Digest := (root H concat (l.map H)).getD (H [])

/-- The leaves: what was delivered, or the empty string if nothing was. -/
def leafStrings (l : List Bytes) : List Bytes := if l = [] then [[]] else l

theorem leafStrings_ne_nil (l : List Bytes) : leafStrings l ≠ [] := by
  unfold leafStrings
  split
  · simp
  · assumption

theorem leafStrings_length (l : List Bytes) : (leafStrings l).length ≤ l.length + 1 := by
  unfold leafStrings
  split <;> simp

theorem root_leafStrings (H : Bytes → Digest) (l : List Bytes) :
    root H concat ((leafStrings l).map H) = some (readRoot H l) := by
  by_cases empty : l = []
  · subst empty
    simp [leafStrings,readRoot,root]
  · obtain ⟨d,top,_⟩ := lift_height H concat (l := l.map H) (by simpa using empty)
    rw [leafStrings,if_neg empty,readRoot,top,Option.getD_some]

theorem sha256FileHex_eq (p : Pass) (node : Node) (out : Vector UInt8 65) : sha256FileHex H p node out =
    if p.opened then (0,hexString (H (p.reads node).flatten)) else (-1,out) := by
  have joined : (p.reads node).foldl (fun ctx buf => ctx ++ buf) [] = (p.reads node).flatten :=
    (List.foldl_append_eq_append (f := id)).trans (by simp)
  unfold sha256FileHex
  cases p.opened
  · rfl
  · simp [joined,writeHex_eq]

theorem levelLoop_root {l : List Bytes} {s : Progress} {nonempty : 0 < s.blocks.length}
    {t : { t : Progress // 0 < t.blocks.length }} (present : l ≠ []) (digests : s.blocks = l.map H)
    (done : levelLoop H malloc s nonempty = some t) :
    t.1.blocks = [readRoot H l] := by
  obtain ⟨d,top,single⟩ := lift_height H concat (l := l.map H) (by simpa using present)
  rw [levelLoop_eq done,digests,single,readRoot,top,Option.getD_some]

/-- Either all allocations succeed and the root is that of what was delivered, or the call fails. -/
theorem merkleRootOfReads_cases {Path : Type} {fopen : Path → Option (List Bytes)} {path : Path} {l : List Bytes}
    (opened : fopen path = some l) (out : Vector UInt8 65) :
    let o := merkleRootOfReads H malloc fopen (some path) (some out)
    (Allocates malloc l.length ∧ o.rc = 0 ∧ o.outhex = some (hexString (readRoot H l))) ∨
      (¬Allocates malloc l.length ∧ o.rc = -1 ∧ o.outhex = some out) := by
  unfold merkleRootOfReads
  simp only [opened]
  cases leaves : leafReads H malloc l ⟨[],[]⟩ with
  | none =>
    right
    refine ⟨?_,rfl,rfl⟩
    rintro ⟨each,_⟩
    rw [(leafReads_iff (s := ⟨[],[]⟩)).mpr ⟨by simpa using each,rfl⟩] at leaves
    cases leaves
  | some s =>
    obtain ⟨each,rfl⟩ := leafReads_iff.mp leaves
    by_cases empty : l = []
    · subst empty
      left
      refine ⟨⟨by simp,by rw [LevelsAllocate]; simp⟩,?_⟩
      simp [writeHex_eq,readRoot,root]
    · have nonempty : 0 < ([] ++ l.map H).length := by simpa [List.length_pos_iff] using empty
      simp only [dif_pos nonempty]
      have higher : (∃ t,levelLoop H malloc ⟨[] ++ l.map H,[] ++ l⟩ nonempty = some t) ↔ _ := levelLoop_iff _ _
      simp only [List.nil_append,List.length_map] at higher
      cases levels : levelLoop H malloc ⟨[] ++ l.map H,[] ++ l⟩ nonempty with
      | none =>
        right
        refine ⟨?_,rfl,rfl⟩
        rintro ⟨_,allocated⟩
        obtain ⟨t,done⟩ := higher.mpr allocated
        exact absurd (levels.symm.trans done) (by simp)
      | some t =>
        left
        have single := levelLoop_root empty (by simp) levels
        obtain ⟨⟨digests,hashed⟩,one⟩ := t
        cases single
        exact ⟨⟨by simpa using each,higher.mp ⟨_,levels⟩⟩,rfl,by simp only [writeHex_eq]; rfl⟩

theorem rootOfReads_unopened {Path : Type} {fopen : Path → Option (List Bytes)} {path : Path} (closed : fopen path = none)
    (out : Vector UInt8 65) : merkleRootOfReads H malloc fopen (some path) (some out) = ⟨-1,some out,[]⟩ := by
  simp [merkleRootOfReads,closed]

/-- The call of `compute_merkle_root` opens the file and its allocations succeed. -/
def RootRuns (node : Node) (r : Results) : Prop :=
  r.merkle.opened = true ∧ Allocates r.malloc (r.merkle.reads node).length

theorem rootOutcome_cases (H : Bytes → Digest) (path : Mem) (node : Node) (r : Results) (l : Locals) :
    (RootRuns node r ∧ (rootOutcome H path node r l).rc = 0 ∧
        (rootOutcome H path node r l).outhex = some (hexString (readRoot H (r.merkle.reads node)))) ∨
      (¬RootRuns node r ∧ (rootOutcome H path node r l).rc = -1 ∧ (rootOutcome H path node r l).outhex = some l.merkle) := by
  cases opened : r.merkle.opened with
  | false =>
    right
    rw [rootOutcome,rootOfReads_unopened (by simp [opened])]
    exact ⟨fun runs => by simp [RootRuns,opened] at runs,rfl,rfl⟩
  | true =>
    have call := @merkleRootOfReads_cases H r.malloc Mem
      (fun _ => if r.merkle.opened then some (r.merkle.reads node) else none) path (r.merkle.reads node)
      (by rw [opened]; rfl) l.merkle
    rcases call with ⟨allocated,done⟩ | ⟨failed,done⟩
    · exact .inl ⟨⟨opened,allocated⟩,done⟩
    · exact .inr ⟨fun runs => failed runs.2,done⟩

theorem text_eq_nil (v : Vector UInt8 65) : text v.toList = [] ↔ v[0] = 0 := by
  obtain ⟨x,rest,whole⟩ := List.exists_cons_of_length_pos (l := v.toList) (by simp)
  have first := congrArg (fun l => l[0]?) whole
  simp only [Vector.getElem?_toList,List.getElem?_cons_zero] at first
  obtain ⟨_,first⟩ := Vector.getElem?_eq_some_iff.mp first
  rw [whole,text_cons,first]
  split <;> simp_all

/-- The digits of a digest are no empty text. -/
theorem text_hexString (d : Digest) : text (hexString d).toList ≠ [] := by
  intro empty
  have zero := (text_eq_nil _).mp empty
  have high := hexString_high d (i := 0) (by omega) (by omega)
  simp only [Nat.zero_mul] at high
  have small := d[0].toNat_lt
  have digit := congrArg UInt8.toNat (high.symm.trans zero)
  simp only [hexDigit,UInt8.toNat_ofNat'] at digit
  split at digit <;> simp at digit <;> omega

theorem text_cleared (out : Vector UInt8 65) : text (out.set 0 0).toList = [] := by
  simp [text_eq_nil]

theorem passedRow_unopened {path : Mem} {node : Node} {r : Results} {l : Locals} (closed : r.sha.opened = false) :
    passedRow H path node r l = none := by
  simp [passedRow,sha256FileHex_eq,closed]

/-- Once the file is hashed a row is passed, whatever the root and `stat` give. -/
theorem passedRow_opened (H : Bytes → Digest) (path : Mem) (node : Node) {r : Results} (l : Locals)
    (opened : r.sha.opened = true) :
    ∃ merkle,(RootRuns node r → merkle = hexString (readRoot H (r.merkle.reads node))) ∧
      (¬RootRuns node r → text merkle.toList = []) ∧
      passedRow H path node r l = some (rowOf (hexString (H (r.sha.reads node).flatten)) merkle (r.stat.getD l.st)) := by
  rcases rootOutcome_cases H path node r l with ⟨runs,returned,digits⟩ | ⟨fails,returned,digits⟩
  · refine ⟨_,fun _ => rfl,fun fails => absurd runs fails,?_⟩
    simp [passedRow,sha256FileHex_eq,opened,returned,digits]
  · refine ⟨l.merkle.set 0 0,fun runs => absurd runs fails,fun _ => text_cleared l.merkle,?_⟩
    simp [passedRow,sha256FileHex_eq,opened,returned,digits]

/-! ### Complete files -/

/-- A row has the digests of the complete content and what a successful `stat` filled in. -/
def Describes (H : Bytes → Digest) (node : Node) (r : Results) (row : Row) : Prop :=
  ∃ content st,node.content = some content ∧ r.stat = some st ∧
    row = rowOf (hexString (H content)) (hexString (merkleRoot H content)) st

/-- Codes of 0 and rows are given only for complete files, and otherwise the stored row stays. -/
structure Honest (H : Bytes → Digest) (path : Mem) (node : Node) (r : Results) (l : Locals) (w : World) : Prop where
  hashed : (sha256FileHex H r.sha node l.h).1 = 0 →
    ∃ content,node.content = some content ∧ (sha256FileHex H r.sha node l.h).2 = hexString (H content)
  rooted : (rootOutcome H path node r l).rc = 0 →
    ∃ content,node.content = some content ∧ (rootOutcome H path node r l).outhex = some (hexString (merkleRoot H content))
  passed : ∀ row,passedRow H path node r l = some row → Describes H node r row
  stored : (fileCb H path node r l w).entries path = w.entries path ∨
    ∃ row,Describes H node r row ∧ (fileCb H path node r l w).entries path = some row

/-- The passes of both functions that get to the end deliver the file, for the root up to the repeated
    leaves of odd levels, and where the first opens the file, the second and `stat` succeed. -/
structure Undisturbed (node : Node) (r : Results) : Prop where
  hashed : r.sha.opened = true → node.content = some (r.sha.reads node).flatten
  rooted : RootRuns node r → ∃ content,node.content = some content ∧
    Alike (leafStrings (r.merkle.reads node)) (leafStrings (blocks content))
  whole : r.sha.opened = true → RootRuns node r ∧ r.stat.isSome

/-- The table after a call is what it was, or has the passed row at the path. -/
theorem fileCb_entries (H : Bytes → Digest) (path : Mem) (node : Node) (r : Results) (l : Locals) (w : World) :
    (fileCb H path node r l w).entries = w.entries ∨
      ∃ row,passedRow H path node r l = some row ∧
        (fileCb H path node r l w).entries = Function.update w.entries path (some row) := by
  unfold fileCb
  cases passed : passedRow H path node r l with
  | none => exact .inl rfl
  | some row =>
    cases updated : r.updated with
    | false =>
      left
      simp only [dbUpdateFileEntry,Bool.false_eq_true,if_false]
      split <;> split <;> rfl
    | true =>
      right
      refine ⟨row,rfl,?_⟩
      simp only [dbUpdateFileEntry,if_true]
      split <;> split <;> rfl

/-- Digests that agree under every hash function are of one string. -/
theorem eq_of_digests {x y : Bytes} (same : ∀ H : Bytes → Digest,H x = H y) : x = y := by
  by_contra different
  have digests := same fun s => if s = x then Vector.replicate 32 0 else Vector.replicate 32 1
  rw [if_pos rfl,if_neg (Ne.symm different)] at digests
  exact absurd digests (by decide)

theorem node_content_length {node : Node} {content : Bytes} (present : node.content = some content) :
    content.length < 2 ^ 63 := by
  cases node with
  | file whole counted =>
    cases present
    exact counted
  | directory => cases present

theorem reads_length (p : Pass) {node : Node} {content : Bytes} (present : node.content = some content) :
    (p.reads node).length < 2 ^ 63 := by
  cases node with
  | file whole counted => exact (freads_length p.faults whole).trans_lt counted
  | directory => cases present

/-- The roots over what was read and over the blocks agree under every hash function exactly if the leaves are alike. -/
theorem readRoots_iff {p : Pass} {node : Node} {content : Bytes} (present : node.content = some content) :
    (∀ H,readRoot H (p.reads node) = merkleRoot H content) ↔
      Alike (leafStrings (p.reads node)) (leafStrings (blocks content)) := by
  have delivered := reads_length p present
  have counted := node_content_length present
  have blocked : (blocks content).length ≤ content.length := by
    rw [← freads_blocks]
    exact freads_length [] content
  have few := leafStrings_length (p.reads node)
  have few' := leafStrings_length (blocks content)
  rw [← roots_iff_alike (leafStrings_ne_nil _) (leafStrings_ne_nil _) (by omega) (by omega)]
  refine forall_congr' fun H => ?_
  rw [root_leafStrings,root_leafStrings,Option.some.injEq]
  rfl

variable {path : Mem} {node : Node} {r : Results} {l : Locals} {w : World}

theorem Undisturbed.root_eq (quiet : Undisturbed node r) (runs : RootRuns node r) {content : Bytes}
    (present : node.content = some content) (H : Bytes → Digest) : readRoot H (r.merkle.reads node) = merkleRoot H content := by
  obtain ⟨content',present',alike⟩ := quiet.rooted runs
  rw [present] at present'
  cases present'
  exact (readRoots_iff present).mpr alike H

/-- In an undisturbed call every row describes the complete file. -/
theorem Undisturbed.describes (quiet : Undisturbed node r) {row : Row} (passed : passedRow H path node r l = some row) :
    Describes H node r row := by
  cases opened : r.sha.opened with
  | false =>
    rw [passedRow_unopened opened] at passed
    cases passed
  | true =>
    obtain ⟨merkle,rooted,_,whole⟩ := passedRow_opened H path node l opened
    obtain ⟨runs,filled⟩ := quiet.whole opened
    obtain ⟨st,stated⟩ := Option.isSome_iff_exists.mp filled
    have present := quiet.hashed opened
    rw [passed] at whole
    refine ⟨_,st,present,stated,?_⟩
    rw [Option.some.inj whole,rooted runs,quiet.root_eq runs present,stated,Option.getD_some]

theorem Undisturbed.honest (quiet : Undisturbed node r) (H : Bytes → Digest) (path : Mem) (l : Locals) (w : World) :
    Honest H path node r l w where
  hashed returned := by
    rw [sha256FileHex_eq] at returned ⊢
    cases opened : r.sha.opened with
    | false => simp [opened] at returned
    | true => exact ⟨_,quiet.hashed opened,rfl⟩
  rooted returned := by
    rcases rootOutcome_cases H path node r l with ⟨runs,_,digits⟩ | ⟨_,failed,_⟩
    · obtain ⟨content,present,_⟩ := quiet.rooted runs
      exact ⟨content,present,by rw [digits,quiet.root_eq runs present]⟩
    · rw [failed] at returned
      cases returned
  passed row passed := quiet.describes passed
  stored := by
    rcases fileCb_entries H path node r l w with kept | ⟨row,passed,updated⟩
    · exact .inl (by rw [kept])
    · exact .inr ⟨row,quiet.describes passed,by rw [updated,Function.update_self]⟩

theorem one_content {P : (Bytes → Digest) → Bytes → Prop}
    (each : ∀ H,∃ content,node.content = some content ∧ P H content) :
    ∃ content,node.content = some content ∧ ∀ H,P H content := by
  obtain ⟨content,present,_⟩ := each fun _ => Vector.replicate 32 0
  refine ⟨content,present,fun H => ?_⟩
  obtain ⟨content',present',holds⟩ := each H
  rw [present] at present'
  cases present'
  exact holds

theorem hashed_of_honest (honest : ∀ H,Honest H path node r l w) (opened : r.sha.opened = true) :
    node.content = some (r.sha.reads node).flatten := by
  have digests : ∀ H : Bytes → Digest,∃ content,node.content = some content ∧
      hexString (H (r.sha.reads node).flatten) = hexString (H content) := by
    intro H
    have hashed := (honest H).hashed
    rw [sha256FileHex_eq,if_pos opened] at hashed
    exact hashed rfl
  obtain ⟨content,present,same⟩ := one_content digests
  rw [present,eq_of_digests fun H => hexString_injective (same H)]

theorem rooted_of_honest (honest : ∀ H,Honest H path node r l w) (runs : RootRuns node r) :
    ∃ content,node.content = some content ∧ Alike (leafStrings (r.merkle.reads node)) (leafStrings (blocks content)) := by
  have digests : ∀ H : Bytes → Digest,∃ content,node.content = some content ∧
      hexString (readRoot H (r.merkle.reads node)) = hexString (merkleRoot H content) := by
    intro H
    rcases rootOutcome_cases H path node r l with ⟨_,returned,digits⟩ | ⟨fails,_⟩
    · obtain ⟨content,present,recorded⟩ := (honest H).rooted returned
      exact ⟨content,present,Option.some.inj (digits.symm.trans recorded)⟩
    · exact absurd runs fails
  obtain ⟨content,present,same⟩ := one_content digests
  exact ⟨content,present,(readRoots_iff present).mp fun H => hexString_injective (same H)⟩

/-- A row without a root, or without what `stat` fills in, describes no file. -/
theorem whole_of_honest (honest : Honest H path node r l w) (opened : r.sha.opened = true) :
    RootRuns node r ∧ r.stat.isSome := by
  obtain ⟨merkle,_,cleared,passed⟩ := passedRow_opened H path node l opened
  obtain ⟨content,st,_,stated,same⟩ := honest.passed _ passed
  refine ⟨?_,by rw [stated]; rfl⟩
  by_contra fails
  have roots := congrArg Row.merkle same
  simp only [rowOf] at roots
  rw [cleared fails] at roots
  exact text_hexString _ roots.symm

/-- Rows and codes of 0 are for complete files, whatever the hash function, exactly in undisturbed calls. -/
theorem records_complete (path : Mem) (node : Node) (r : Results) (l : Locals) (w : World) :
    (∀ H,Honest H path node r l w) ↔ Undisturbed node r :=
  ⟨fun honest => ⟨hashed_of_honest honest,rooted_of_honest honest,whole_of_honest (honest fun _ => Vector.replicate 32 0)⟩,
    fun quiet H => quiet.honest H path l w⟩

/-- A call on a file whose reads, allocations and `stat` all succeed is undisturbed. -/
theorem undisturbed_of_success {content : Bytes} {counted : content.length < 2 ^ 63} (hashed : r.sha = ⟨true,[]⟩)
    (rooted : r.merkle = ⟨true,[]⟩) (allocated : Allocates r.malloc (blocks content).length) (stated : r.stat.isSome) :
    Undisturbed (.file content counted) r where
  hashed _ := by rw [hashed,Pass.reads,freads_blocks,blocks_flatten,Node.content]
  rooted _ := by
    refine ⟨content,rfl,?_⟩
    rw [rooted,Pass.reads,freads_blocks]
    exact ⟨rfl,rfl⟩
  whole _ := by
    refine ⟨⟨by rw [rooted],?_⟩,stated⟩
    rwa [rooted,Pass.reads,freads_blocks]

end

/-! ### Scans -/

/-- A path that `nftw` visits, what lies there, and what the calls for it find. -/
structure Visit where
  path : Mem
  node : Node
  results : Results
  locals : Locals

/-- `nftw_cb`: the callback gets every path, whatever its type. -/
def nftwCb (H : Bytes → Digest) (w : World) (v : Visit) : World := fileCb H v.path v.node v.results v.locals w

/-- `file_scan_path` over the paths that `nftw` visits. -/
def fileScanPath (H : Bytes → Digest) (visits : List Visit) (w : World) : World := visits.foldl (nftwCb H) w

/-- A scan of undisturbed calls leaves in every place the old row, or one that describes the file visited there. -/
theorem scan_describes {visits : List Visit} (quiet : ∀ v ∈ visits,Undisturbed v.node v.results) (H : Bytes → Digest)
    (w : World) (path : Mem) : (fileScanPath H visits w).entries path = w.entries path ∨
      ∃ v ∈ visits,v.path = path ∧
        ∃ row,Describes H v.node v.results row ∧ (fileScanPath H visits w).entries path = some row := by
  induction visits generalizing w with
  | nil => exact .inl rfl
  | cons v rest ih =>
    have here : fileScanPath H (v :: rest) w = fileScanPath H rest (nftwCb H w v) := rfl
    rw [here]
    rcases ih (fun v member => quiet v (List.mem_cons_of_mem _ member)) (nftwCb H w v) with kept | ⟨v',member,later⟩
    · rw [kept]
      rcases fileCb_entries H v.path v.node v.results v.locals w with same | ⟨row,passed,updated⟩
      · exact .inl (by rw [nftwCb,same])
      · by_cases visited : v.path = path
        · have described := (quiet v List.mem_cons_self).describes passed
          refine .inr ⟨v,List.mem_cons_self,visited,row,described,?_⟩
          rw [nftwCb,updated,visited,Function.update_self]
        · exact .inl (by rw [nftwCb,updated,Function.update_of_ne (Ne.symm visited)])
    · exact .inr ⟨v',List.mem_cons_of_mem _ member,later⟩

/-- The walk visits directories too. `fopen` opens one for reading, and the first read fails. -/
def visited : Results := ⟨⟨true,[]⟩,⟨true,[]⟩,fun _ => true,some ⟨0,4096,0o40755,0,0⟩,true,0,0⟩

def garbage : Locals := ⟨Vector.replicate 65 0,Vector.replicate 65 0,⟨0,0,0,0,0⟩⟩

/-- A row with the digest of the empty string is passed for a directory. -/
theorem directory_recorded :
    (∃ row,passedRow lengthDigest (ascii "/etc") .directory visited garbage = some row) ∧
      ¬Honest lengthDigest (ascii "/etc") .directory visited garbage ⟨fun _ => none,[],[]⟩ := by
  constructor
  · obtain ⟨_,_,_,passed⟩ := passedRow_opened lengthDigest (ascii "/etc") .directory (r := visited) garbage rfl
    exact ⟨_,passed⟩
  · intro honest
    obtain ⟨content,present,_⟩ := honest.hashed rfl
    cases present

end Nulleye.FileRecords
