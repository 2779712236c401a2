import Nulleye.FileRecords

/-!
What any sequence of scans leaves behind, whatever fails and however the files change in
between. The table holds the row of the last visit that stored one for each path, and no
row is ever taken back. Every visit that could open the file is reported to the bus, also
where nothing has changed: no visit reads the table.
-/
namespace Nulleye.FileScans
open Nulleye.CStrings Nulleye.Events Nulleye.HashTrees Nulleye.MerkleRoot Nulleye.FileRecords

/-! ### Tables that are written row by row -/

section Tables
variable {Key Value Step : Type*} [DecidableEq Key]

/-- The table after one step, which stores at most one value. -/
def store (write : Step → Option (Key × Value)) (table : Key → Option Value) (step : Step) : Key → Option Value :=
  (write step).elim table fun (k,v) => Function.update table k (some v)

/-- The values that some steps store for a key. -/
def storedAt (write : Step → Option (Key × Value)) (k : Key) (steps : List Step) : List Value :=
  ((steps.filterMap write).filter (·.1 = k)).map (·.2)

/-- After any steps a table holds what was stored last for each key. -/
theorem foldl_store (write : Step → Option (Key × Value)) (steps : List Step) (table : Key → Option Value) (k : Key) :
    steps.foldl (store write) table k = (storedAt write k steps).getLast?.or (table k) := by
  induction steps using List.reverseRecOn with
  | nil => rfl
  | append_singleton steps last ih =>
    rw [List.foldl_append,List.foldl_cons,List.foldl_nil,store]
    cases written : write last with
    | none => simpa [storedAt,written] using ih
    | some pair =>
      obtain ⟨k',v⟩ := pair
      by_cases same : k' = k
      · subst same
        simp [storedAt,written]
      · simpa [storedAt,written,same,Function.update_of_ne (Ne.symm same)] using ih

end Tables

/-! ### One visit -/

section Visits
variable (H : Bytes → Digest)

/-- The 64 digits of a digest. -/
def digitsOf (d : Digest) : Mem := text (hexString d).toList

/-- What a visit reports: the time, the path as far as it is copied, and the digest of what was read. -/
structure Report where
  ts : UInt64
  path : Mem
  digest : Digest

def report (v : Visit) : Option Report :=
  if v.results.sha.opened then
    some ⟨v.results.time,(text v.path).take 255,H (v.results.sha.reads v.node).flatten⟩
  else none

/-- The event for a report. -/
def Report.event (r : Report) : NuleyeEvent :=
  { zeroEvent with
    ts := r.ts
    module := NYE_MODULE_FILE
    path := overwrite (Vector.replicate 256 0) (padded 255 r.path)
    payload := overwrite (Vector.replicate 256 0) (padded 255 (digitsOf r.digest))
    payloadLen := 64 }

/-- The row that a visit stores. -/
def storedRow (v : Visit) : Option (Mem × Row) :=
  if v.results.updated then (passedRow H v.path v.node v.results v.locals).map fun row => (v.path,row) else none

/-- What a visit logs. -/
def warnings (v : Visit) : List Warning :=
  if v.results.sha.opened then
    (if v.results.stat = none then [.stat v.path] else []) ++ if v.results.pubrc < 0 then [.publish v.results.pubrc] else []
  else []

theorem hexDigit_plain : ∀ n < 16,hexDigit n ≠ 0 := by decide

theorem hexString_digit (d : Digest) {j : Nat} (inside : j < 65) (first : j < 64) : ∃ n < 16,(hexString d)[j] = hexDigit n := by
  have half : j / 2 < 32 := by omega
  have small := d[j / 2].toNat_lt
  refine ⟨if j % 2 = 0 then d[j / 2].toNat / 16 else d[j / 2].toNat % 16,by split <;> omega,?_⟩
  rw [hexString,Vector.getElem_ofFn,dif_pos first]

/-- All bytes of the string are digits but the last. -/
theorem digitsOf_split (d : Digest) : (hexString d).toList = digitsOf d ++ [0] ∧ (digitsOf d).length = 64 := by
  have plain : 0 ∉ (hexString d).toList.take 64 := by
    intro zero
    obtain ⟨j,inside,found⟩ := List.mem_take_iff_getElem.mp zero
    rw [Vector.length_toList,Nat.min_eq_left (by decide)] at inside
    obtain ⟨n,small,digit⟩ := hexString_digit d (by omega) inside
    rw [Vector.getElem_toList,digit] at found
    exact hexDigit_plain n small found
  have last : (hexString d).toList.drop 64 = [0] := by
    apply List.ext_getElem (by simp)
    intro j inside inside'
    obtain rfl : j = 0 := by simpa using inside'
    simp [hexString]
  have split : (hexString d).toList = (hexString d).toList.take 64 ++ 0 :: [] := by
    rw [← last,List.take_append_drop]
  have digits : digitsOf d = (hexString d).toList.take 64 := by
    rw [digitsOf,split,text_terminated plain,← split]
  exact ⟨by rw [digits]; exact split,by rw [digits]; simp⟩

/-- The digits determine the digest. -/
theorem digitsOf_inj {d d' : Digest} (same : digitsOf d = digitsOf d') : d = d' := by
  apply hexString_injective
  apply Vector.toList_inj.mp
  rw [(digitsOf_split d).1,(digitsOf_split d').1,same]

theorem copied_eq (s : Mem) : copied 256 s = overwrite (Vector.replicate 256 0) (padded 255 ((text s).take 255)) := by
  obtain ⟨rest,split⟩ := text_ended s
  have written := strncpy_terminated (zero_not_mem_text s) 255 rest
  have short : padded 255 (text s) = padded 255 ((text s).take 255) := strncpy_eq written ▸ by simp [text_terminated (zero_not_mem_text s)]
  rw [copied,split,written,Option.getD_some,short]

/-- The event of a visit is that of its report. -/
theorem fileEvent_eq (ts : UInt64) (path : Mem) (d : Digest) :
    fileEvent ts path (text (hexString d).toList) = Report.event ⟨ts,(text path).take 255,d⟩ := by
  have plain : 0 ∉ digitsOf d := zero_not_mem_text _
  have short : (text (digitsOf d)).take 255 = digitsOf d := by
    rw [text_plain plain,List.take_of_length_le (by rw [(digitsOf_split d).2]; decide)]
  have length : (digitsOf d).length.toUInt64 = 64 := by rw [(digitsOf_split d).2]; rfl
  rw [fileEvent,Report.event,← digitsOf,copied_eq path,copied_eq (digitsOf d),short,length]

/-- What one visit does. -/
theorem nftwCb_eq (w : World) (v : Visit) : nftwCb H w v =
    ⟨store (storedRow H) w.entries v,w.published ++ ((report H v).map Report.event).toList,w.logged ++ warnings v⟩ := by
  cases opened : v.results.sha.opened with
  | false => simp [nftwCb,fileCb,passedRow_unopened opened,store,storedRow,report,warnings,opened]
  | true =>
    obtain ⟨merkle,_,_,passed⟩ := passedRow_opened H v.path v.node v.locals opened
    have event := fileEvent_eq v.results.time v.path (H (v.results.sha.reads v.node).flatten)
    simp only [nftwCb,fileCb,passed,rowOf,event,report,opened,warnings,if_true,Option.map_some,Option.toList_some]
    cases stated : v.results.stat <;> cases updated : v.results.updated <;> by_cases full : v.results.pubrc < 0 <;>
      simp [dbUpdateFileEntry,store,storedRow,passed,rowOf,stated,updated,full]

/-! ### Any sequence of visits -/

/-- The path of a report is a string that fits the event. -/
theorem report_path {v : Visit} {r : Report} (reported : report H v = some r) : 0 ∉ r.path ∧ r.path.length ≤ 255 := by
  obtain ⟨_,made⟩ := Option.ite_none_right_eq_some.mp reported
  cases made
  exact ⟨plain_take (zero_not_mem_text _) _,List.length_take_le _ _⟩

/-- What was copied into the event can be read back. -/
theorem event_inj {r r' : Report} (path : 0 ∉ r.path ∧ r.path.length ≤ 255) (path' : 0 ∉ r'.path ∧ r'.path.length ≤ 255)
    (same : r.event = r'.event) : r = r' := by
  simp only [Report.event,NuleyeEvent.mk.injEq] at same
  obtain ⟨ts,-,-,-,-,-,-,-,paths,digits,-⟩ := same
  have short : ∀ d,(digitsOf d).length ≤ 255 := fun d => by rw [(digitsOf_split d).2]; decide
  have path := overwrite_padded_inj _ (Nat.le_succ 255) path.1 path'.1 path.2 path'.2 paths
  have digest := digitsOf_inj (overwrite_padded_inj _ (Nat.le_succ 255) (zero_not_mem_text _) (zero_not_mem_text _) (short _) (short _) digits)
  cases r
  cases r'
  simp_all

/-- A visit that stores a row reports its file, with the same digest. -/
theorem storedRow_reported {v : Visit} {path : Mem} {row : Row} (stored : storedRow H v = some (path,row)) :
    path = v.path ∧ ∃ r,report H v = some r ∧ row.hash = digitsOf r.digest := by
  obtain ⟨_,made⟩ := Option.ite_none_right_eq_some.mp stored
  obtain ⟨row',passed,made⟩ := Option.map_eq_some_iff.mp made
  cases made
  cases opened : v.results.sha.opened with
  | false => simp [passedRow_unopened opened] at passed
  | true =>
    obtain ⟨merkle,_,_,whole⟩ := passedRow_opened H v.path v.node v.locals opened
    rw [passed] at whole
    refine ⟨rfl,_,by rw [report,if_pos opened],?_⟩
    rw [Option.some.inj whole,rowOf,digitsOf]

/-- **What scans leave behind**, of any paths in any order and with any failures. The table holds for each path the row that
    was stored last, or what it held before. Each visit that opened its file is reported by one event, in order, and the
    events tell the reports apart. A row has the digest of its report. Nothing that is published or logged depends on the
    table. -/
theorem scans_leave (visits : List Visit) (w : World) :
    (∀ path,(fileScanPath H visits w).entries path = (storedAt (storedRow H) path visits).getLast?.or (w.entries path)) ∧
      (fileScanPath H visits w).published = w.published ++ (visits.filterMap (report H)).map Report.event ∧
      (fileScanPath H visits w).logged = w.logged ++ visits.flatMap warnings ∧
      (∀ r ∈ visits.filterMap (report H),∀ r' ∈ visits.filterMap (report H),r.event = r'.event → r = r') ∧
      ∀ v ∈ visits,∀ path row,storedRow H v = some (path,row) →
        path = v.path ∧ ∃ r,report H v = some r ∧ row.hash = digitsOf r.digest := by
  have after : fileScanPath H visits w = ⟨visits.foldl (store (storedRow H)) w.entries,
      w.published ++ (visits.filterMap (report H)).map Report.event,w.logged ++ visits.flatMap warnings⟩ := by
    induction visits generalizing w with
    | nil => simp [fileScanPath]
    | cons v visits ih =>
      have here : fileScanPath H (v :: visits) w = fileScanPath H visits (nftwCb H w v) := rfl
      rw [here,ih,nftwCb_eq]
      cases reported : report H v <;> simp [reported]
  refine ⟨fun path => ?_,by rw [after],by rw [after],?_,fun v _ path row stored => storedRow_reported H stored⟩
  · rw [after]
    exact foldl_store _ _ _ _
  · intro r member r' member' same
    obtain ⟨v,_,reported⟩ := List.mem_filterMap.mp member
    obtain ⟨v',_,reported'⟩ := List.mem_filterMap.mp member'
    exact event_inj (report_path H reported) (report_path H reported') same

end Visits

end Nulleye.FileScans
