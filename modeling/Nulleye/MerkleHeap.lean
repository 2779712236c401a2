import Nulleye.FileRecords
import Nulleye.Ledgers

/-!
The memory of `compute_merkle_root`: the stream, the copies of the digests, and the arrays
that point to them. Whichever allocation fails, everything is freed once, unless it is one of
the loop over the file: what that loop has built is then lost.
-/
namespace Nulleye.MerkleHeap
open Nulleye.FileRecords Nulleye.Ledgers Nulleye.MerkleRoot

/-- The array `blocks` and its elements: the copies, as they were allocated, each with its digest. -/
structure Memory where
  heap : Ledger
  blocks : Option Nat
  copies : List (Nat × Digest)

def ids (copies : List (Nat × Digest)) : List Nat := copies.map Prod.fst

def digests (copies : List (Nat × Digest)) : List Digest := copies.map Prod.snd

/-- What `blocks` points to, and `blocks`. -/
def Memory.held (m : Memory) : List Nat := ids m.copies ++ m.blocks.toList

@[simp] theorem ids_length (copies : List (Nat × Digest)) : (ids copies).length = copies.length := List.length_map _
@[simp] theorem digests_length (copies : List (Nat × Digest)) : (digests copies).length = copies.length := List.length_map _

/-- `for (…) free(blocks[i]); free(blocks)`. -/
def Memory.free (m : Memory) : Ledger := (m.heap.releaseAll (ids m.copies)).releaseSome m.blocks

@[simp] theorem ids_concat (copies : List (Nat × Digest)) (copy : Nat × Digest) : ids (copies ++ [copy]) = ids copies ++ [copy.1] := by
  simp [ids]

section
variable (H : Bytes → Digest) (malloc : Site → Bool)

/-- The loop over the calls of `fread`; where the function returns -1 it leaves the heap. -/
def leafCopies : List Bytes → Memory → Except Ledger Memory
  | [],m => .ok m
  | buf :: rest,m =>
    if !malloc (.leaf m.copies.length) then .error m.heap
    else
      let hcopy := m.heap.fresh
      let heap := m.heap.acquire
      if !malloc (.grow m.copies.length) then .error (heap.release hcopy)
      else
        -- `realloc` frees the old array.
        let heap := heap.releaseSome m.blocks
        leafCopies rest ⟨heap.acquire,some heap.fresh,m.copies ++ [(hcopy,H buf)]⟩

/-- The loop over the pairs of one level, from pair `i` on; whether it ends, with `next`. -/
def nodeCopies (blocks : List (Nat × Digest)) (i : Nat) (heap : Ledger) (next : List (Nat × Digest)) :
    Bool × Ledger × List (Nat × Digest) :=
  let pairs := (blocks.length + 1) / 2
  if inside : i < pairs then
    have first : i * 2 < blocks.length := by omega
    let a := blocks[i * 2].2
    let b := if second : i * 2 + 1 < blocks.length then blocks[i * 2 + 1].2 else blocks[i * 2].2
    if !malloc (.node blocks.length i) then (false,heap,next)
    else nodeCopies blocks (i + 1) heap.acquire (next ++ [(heap.fresh,H (concat (a,b)))])
  else (true,heap,next)
termination_by (blocks.length + 1) / 2 - i

theorem nodeCopies_length {blocks next next' : List (Nat × Digest)} {i : Nat} {heap heap' : Ledger}
    (done : nodeCopies H malloc blocks i heap next = (true,heap',next')) :
    next'.length = next.length + ((blocks.length + 1) / 2 - i) := by
  fun_induction nodeCopies H malloc blocks i heap next with
  | case1 => cases done
  | case2 i heap next pairs inside first a b allocated ih =>
    rw [ih done,List.length_append,List.length_singleton]
    omega
  | case3 i heap next pairs outside =>
    cases done
    omega

/-- The loop over the levels. -/
def levelCopies (m : Memory) (nonempty : 0 < m.copies.length) : Except Ledger { m : Memory // 0 < m.copies.length } :=
  if 1 < m.copies.length then
    if !malloc (.level m.copies.length) then .error m.free
    else
      let next := m.heap.fresh
      match done : nodeCopies H malloc m.copies 0 m.heap.acquire [] with
      | (false,heap,copies) => .error (Memory.free ⟨Memory.free ⟨heap,m.blocks,m.copies⟩,some next,copies⟩)
      | (true,heap,copies) =>
        levelCopies ⟨Memory.free ⟨heap,m.blocks,m.copies⟩,some next,copies⟩
          (by have := nodeCopies_length H malloc done; simp only [List.length_nil] at this ⊢; omega)
  else .ok ⟨m,nonempty⟩
termination_by m.copies.length
decreasing_by
  have := nodeCopies_length H malloc done
  simp only [List.length_nil] at this
  omega

/-- `compute_merkle_root` from a heap on: what it returns, the caller's buffer, and the heap. -/
def merkleCopies {Path : Type} (fopen : Path → Option (List Bytes)) (path : Option Path) (outhex : Option (Vector UInt8 65))
    (heap : Ledger) : Int × Option (Vector UInt8 65) × Ledger :=
  match path, outhex with
  | some path, some out =>
    match fopen path with
    | none => (-1,outhex,heap)
    | some reads =>
      let f := heap.fresh
      match leafCopies H malloc reads ⟨heap.acquire,none,[]⟩ with
      | .error heap => (-1,outhex,heap.release f)
      | .ok m =>
        if nonempty : 0 < m.copies.length then
          match levelCopies H malloc { m with heap := m.heap.release f } nonempty with
          | .error heap => (-1,outhex,heap)
          | .ok ⟨m,_⟩ => (0,some (writeHex m.copies[0].2 out),(m.heap.release m.copies[0].1).releaseSome m.blocks)
        else (0,some (writeHex (H []) out),m.heap.release f)
  | _, _ => (-1,outhex,heap)

end

/-! ### The result -/

section Results
variable {H : Bytes → Digest} {malloc : Site → Bool}

theorem leafCopies_result (reads : List Bytes) {m : Memory} {s : Progress} (same : s.blocks = digests m.copies) :
    match leafCopies H malloc reads m with
    | .ok m' => ∃ t,leafReads H malloc reads s = some t ∧ t.blocks = digests m'.copies
    | .error _ => leafReads H malloc reads s = none := by
  induction reads generalizing m s with
  | nil => exact ⟨s,rfl,same⟩
  | cons buf rest ih =>
    have count : s.blocks.length = m.copies.length := by rw [same,digests_length]
    rw [leafCopies,leafReads,count]
    split_ifs
    · rfl
    · rfl
    · exact ih (by simp [same,digests])

theorem nodeCopies_result {blocks next next' : List (Nat × Digest)} {i : Nat} {heap heap' : Ledger} {ended : Bool} {s : Progress}
    (ran : nodeCopies H malloc blocks i heap next = (ended,heap',next')) (same : s.blocks = digests next) :
    if ended then ∃ t,nodeLoop H malloc (digests blocks) i s = some t ∧ t.blocks = digests next'
    else nodeLoop H malloc (digests blocks) i s = none := by
  fun_induction nodeCopies H malloc blocks i heap next generalizing s with
  | case1 i heap next pairs inside first =>
    rename_i failed
    cases ran
    have here : malloc (.node (digests blocks).length i) = false := by simpa using failed
    rw [nodeLoop,dif_pos (by simpa using inside)]
    simp only [here,Bool.not_false,Bool.false_eq_true,if_true,if_false]
  | case2 i heap next pairs inside first a b =>
    rename_i allocated ih
    have step : ∃ hashed,nodeLoop H malloc (digests blocks) i s =
        nodeLoop H malloc (digests blocks) (i + 1) ⟨s.blocks ++ [H (concat (a,b))],hashed⟩ := by
      have here : malloc (.node (digests blocks).length i) = true := by simpa using allocated
      rw [nodeLoop,dif_pos (by simpa using inside)]
      simp only [here,Bool.not_true,Bool.false_eq_true,if_false]
      exact ⟨s.hashed ++ [concat (a,b)],by simp [digests,a,b]⟩
    obtain ⟨hashed,step⟩ := step
    rw [step]
    exact ih ran (by simp [same,digests])
  | case3 i heap next pairs =>
    rename_i outside
    cases ran
    rw [nodeLoop,dif_neg (by simpa using outside)]
    exact ⟨s,rfl,same⟩

theorem levelLoop_failed {s : Progress} {nonempty : 0 < s.blocks.length} (more : 1 < s.blocks.length)
    (failed : malloc (.level s.blocks.length) = true → nodeLoop H malloc s.blocks 0 ⟨[],s.hashed⟩ = none) :
    levelLoop H malloc s nonempty = none := by
  rw [levelLoop,if_pos more]
  split_ifs with refused
  · rfl
  · have stopped := failed (by simpa using refused)
    split
    · rfl
    · rename_i looped
      rw [stopped] at looped
      cases looped

theorem levelLoop_level {s t : Progress} {nonempty : 0 < s.blocks.length} {nonempty' : 0 < t.blocks.length}
    (more : 1 < s.blocks.length) (allocated : malloc (.level s.blocks.length) = true)
    (done : nodeLoop H malloc s.blocks 0 ⟨[],s.hashed⟩ = some t) : levelLoop H malloc s nonempty = levelLoop H malloc t nonempty' := by
  rw [levelLoop,if_pos more,if_neg (by simp [allocated])]
  split
  · rename_i looped
    rw [done] at looped
    cases looped
  · rename_i looped
    rw [done] at looped
    cases looped
    rfl

theorem levelCopies_result (m : Memory) (nonempty : 0 < m.copies.length) {s : Progress} (same : s.blocks = digests m.copies)
    (nonempty' : 0 < s.blocks.length) :
    match levelCopies H malloc m nonempty with
    | .ok m' => ∃ t,levelLoop H malloc s nonempty' = some t ∧ t.1.blocks = digests m'.1.copies
    | .error _ => levelLoop H malloc s nonempty' = none := by
  have count : s.blocks.length = (digests m.copies).length := by rw [same]
  rw [digests_length] at count
  fun_induction levelCopies H malloc m nonempty generalizing s with
  | case1 m nonempty more failed =>
    refine levelLoop_failed (by omega) fun allocated => ?_
    rw [count] at allocated
    simp [allocated] at failed
  | case2 m nonempty more allocated next heap copies =>
    rename_i done
    refine levelLoop_failed (by omega) fun _ => ?_
    rw [same]
    simpa using nodeCopies_result (s := ⟨[],s.hashed⟩) done rfl
  | case3 m nonempty more allocated next heap copies =>
    rename_i done ih
    have looped := nodeCopies_result (s := ⟨[],s.hashed⟩) done rfl
    rw [if_pos rfl] at looped
    obtain ⟨t,looped,copied⟩ := looped
    have later : 0 < t.blocks.length := by
      have halved := nodeCopies_length H malloc done
      rw [copied,digests_length,halved,List.length_nil]
      omega
    rw [← same] at looped
    rw [@levelLoop_level H malloc s t nonempty' later (by omega) (by rw [count]; simpa using allocated) looped]
    exact ih copied later (by rw [copied,digests_length])
  | case4 m nonempty single =>
    refine ⟨⟨s,nonempty'⟩,?_,same⟩
    rw [levelLoop,if_neg (by omega)]

/-- With the copies in view, the function returns what it returns without them. -/
theorem merkleCopies_result {Path : Type} (fopen : Path → Option (List Bytes)) (path : Option Path)
    (outhex : Option (Vector UInt8 65)) (heap : Ledger) :
    (merkleCopies H malloc fopen path outhex heap).1 = (merkleRootOfReads H malloc fopen path outhex).rc ∧
      (merkleCopies H malloc fopen path outhex heap).2.1 = (merkleRootOfReads H malloc fopen path outhex).outhex := by
  cases path with
  | none => exact ⟨rfl,rfl⟩
  | some path =>
    cases outhex with
    | none => exact ⟨rfl,rfl⟩
    | some out =>
      cases opened : fopen path with
      | none => simp [merkleCopies,merkleRootOfReads,opened]
      | some reads =>
        have leaves := @leafCopies_result H malloc reads ⟨heap.acquire,none,[]⟩ ⟨[],[]⟩ rfl
        cases copied : leafCopies H malloc reads ⟨heap.acquire,none,[]⟩ with
        | error heap' =>
          rw [copied] at leaves
          simp [merkleCopies,merkleRootOfReads,opened,copied,leaves]
        | ok m =>
          rw [copied] at leaves
          obtain ⟨t,read,same⟩ := leaves
          have count : t.blocks.length = m.copies.length := by rw [same,digests_length]
          by_cases nonempty : 0 < m.copies.length
          · have nonempty' : 0 < t.blocks.length := by omega
            have levels := @levelCopies_result H malloc { m with heap := m.heap.release heap.fresh } nonempty t same nonempty'
            cases lifted : levelCopies H malloc { m with heap := m.heap.release heap.fresh } nonempty with
            | error heap' =>
              rw [lifted] at levels
              simp [merkleCopies,merkleRootOfReads,opened,copied,read,nonempty,nonempty',lifted,levels]
            | ok m' =>
              rw [lifted] at levels
              obtain ⟨u,lifted',same'⟩ := levels
              simp [merkleCopies,merkleRootOfReads,opened,copied,read,nonempty,nonempty',lifted,lifted',same',digests]
          · have empty : ¬ 0 < t.blocks.length := by omega
            simp [merkleCopies,merkleRootOfReads,opened,copied,read,nonempty,empty]

end Results

/-! ### The heap -/

section Heap
variable {H : Bytes → Digest} {malloc : Site → Bool} {rest : List Nat}

/-- An allocation of the loop over the file fails for this block. -/
def fails (malloc : Site → Bool) (k : Nat) : Bool := !(malloc (.leaf k) && malloc (.grow k))

/-- The numbers of the copies of `k` blocks, in a call whose stream has the number `f`: before each copy but the first
    stands the array that points to the earlier ones. -/
def copyNumbers (f k : Nat) : List Nat := (List.range k).map fun i => f + 2 * i + 1

/-- The number of the array that points to them. -/
def arrayNumber (f k : Nat) : Option Nat := if k = 0 then none else some (f + 2 * k)

/-- What the loop over the file has built, in a call whose stream has the number `f`. -/
structure Built (f : Nat) (m : Memory) : Prop where
  fresh : m.heap.fresh = f + 2 * m.copies.length + 1
  copies : ids m.copies = copyNumbers f m.copies.length
  blocks : m.blocks = arrayNumber f m.copies.length

theorem Built.held {f : Nat} {m : Memory} (built : Built f m) :
    m.held = copyNumbers f m.copies.length ++ (arrayNumber f m.copies.length).toList := by
  rw [Memory.held,built.copies,built.blocks]

theorem built_nil {f : Nat} {heap : Ledger} (same : heap.fresh = f) : Built f ⟨heap.acquire,none,[]⟩ :=
  ⟨by simp [same],rfl,rfl⟩

/-- One more block has its copy, and the array is a new one. -/
theorem Built.grow {f : Nat} {m : Memory} (built : Built f m) (digest : Digest) :
    Built f ⟨(m.heap.acquire.releaseSome m.blocks).acquire,some (m.heap.acquire.releaseSome m.blocks).fresh,
      m.copies ++ [(m.heap.fresh,digest)]⟩ := by
  have fresh := built.fresh
  refine ⟨?_,?_,?_⟩
  · simp only [fresh_acquire,fresh_releaseSome,List.length_append,List.length_singleton]
    omega
  · rw [ids_concat,built.copies,List.length_append,List.length_singleton,copyNumbers,copyNumbers,List.range_succ,List.map_append,
      fresh]
    rfl
  · rw [arrayNumber,if_neg (by simp)]
    simp only [fresh_acquire,fresh_releaseSome,List.length_append,List.length_singleton,Option.some.injEq]
    omega

theorem free_fresh (m : Memory) : m.free.fresh = m.heap.fresh := by simp [Memory.free]

theorem free_owes {m : Memory} (owes : m.heap.Owes (m.held ++ rest)) : m.free.Owes rest := by
  rw [Memory.held,List.append_assoc] at owes
  exact Ledger.Owes.releaseSome (Ledger.Owes.releaseAll owes)

theorem nodeCopies_owes {blocks next next' : List (Nat × Digest)} {i : Nat} {heap heap' : Ledger} {ended : Bool}
    (ran : nodeCopies H malloc blocks i heap next = (ended,heap',next')) (owes : heap.Owes (ids next ++ rest)) :
    heap.fresh ≤ heap'.fresh ∧ heap'.Owes (ids next' ++ rest) := by
  fun_induction nodeCopies H malloc blocks i heap next with
  | case1 =>
    cases ran
    exact ⟨le_rfl,owes⟩
  | case2 i heap next pairs inside first a b =>
    rename_i ih
    obtain ⟨grows,owes'⟩ := ih ran <| owes.acquired.perm <| by
      rw [ids_concat,List.append_assoc]
      exact List.perm_middle.symm
    rw [fresh_acquire] at grows
    exact ⟨by omega,owes'⟩
  | case3 =>
    cases ran
    exact ⟨le_rfl,owes⟩

/-- The loop over the file loses its array and the copies in it, and nothing else. -/
theorem leafCopies_owes (reads : List Bytes) (m : Memory) {f : Nat} (built : Built f m) (owes : m.heap.Owes (m.held ++ rest)) :
    match leafCopies H malloc reads m with
    | .ok m' => f < m'.heap.fresh ∧ m'.heap.Owes (m'.held ++ rest) ∧ (m'.copies = [] → m'.blocks = none) ∧
        (List.range' m.copies.length reads.length).find? (fails malloc) = none
    | .error heap => f < heap.fresh ∧ ∃ k,(List.range' m.copies.length reads.length).find? (fails malloc) = some k ∧
        heap.Owes (copyNumbers f k ++ (arrayNumber f k).toList ++ rest) := by
  have above : f < m.heap.fresh := by
    have fresh := built.fresh
    omega
  induction reads generalizing m with
  | nil => exact ⟨above,owes,fun empty => by rw [built.blocks,empty]; rfl,rfl⟩
  | cons buf reads ih =>
    rw [leafCopies,List.length_cons,List.range'_succ]
    split_ifs with leaf grow
    · refine ⟨above,m.copies.length,?_,built.held ▸ owes⟩
      rw [List.find?_cons_of_pos]
      simp at leaf
      simp [fails,leaf]
    · refine ⟨?_,m.copies.length,?_,built.held ▸ owes.acquired.release⟩
      · rw [fresh_release,fresh_acquire]
        exact Nat.lt_succ_of_lt above
      rw [List.find?_cons_of_pos]
      simp at grow
      simp [fails,grow]
    · have passes : ¬ fails malloc m.copies.length = true := by
        simp at leaf grow
        simp [fails,leaf,grow]
      rw [List.find?_cons_of_neg passes]
      have grown : (m.heap.acquire.releaseSome m.blocks).Owes (m.heap.fresh :: (ids m.copies ++ rest)) := by
        refine Ledger.Owes.releaseSome (owes.acquired.perm ?_)
        rw [Memory.held,List.append_assoc]
        refine List.Perm.trans (List.Perm.cons _ ?_) List.perm_middle.symm
        exact List.perm_append_comm_assoc _ _ _
      have built' := built.grow (H buf)
      have more : f < (m.heap.acquire.releaseSome m.blocks).acquire.fresh := by
        simp only [fresh_acquire,fresh_releaseSome]
        omega
      obtain ⟨heap,same⟩ : ∃ heap,heap = m.heap.acquire.releaseSome m.blocks := ⟨_,rfl⟩
      rw [← same] at grown built' more
      have next : heap.acquire.Owes (Memory.held ⟨heap.acquire,some heap.fresh,m.copies ++ [(m.heap.fresh,H buf)]⟩ ++ rest) := by
        refine grown.acquired.perm (List.perm_iff_count.mpr fun n => ?_)
        simp only [Memory.held,ids_concat,Option.toList_some,List.count_append,List.count_cons,List.count_nil]
        omega
      have later := ih ⟨heap.acquire,some heap.fresh,m.copies ++ [(m.heap.fresh,H buf)]⟩ built' next more
      rw [List.length_append,List.length_singleton] at later
      subst same
      exact later

/-- One level, whether it ends or not: the copies of the level below are freed, those made so far are there with their array. -/
theorem level_owes {m : Memory} {ended : Bool} {heap : Ledger} {copies : List (Nat × Digest)}
    (done : nodeCopies H malloc m.copies 0 m.heap.acquire [] = (ended,heap,copies)) (owes : m.heap.Owes (m.held ++ rest)) :
    m.heap.fresh < heap.fresh ∧
      (Memory.free ⟨heap,m.blocks,m.copies⟩).Owes (Memory.held ⟨heap,some m.heap.fresh,copies⟩ ++ rest) := by
  have begun : m.heap.acquire.Owes (ids [] ++ (m.held ++ (m.heap.fresh :: rest))) := owes.acquired.perm List.perm_middle.symm
  obtain ⟨grows,looped⟩ := nodeCopies_owes done begun
  have swapped : heap.Owes (m.held ++ (ids copies ++ (m.heap.fresh :: rest))) := looped.perm (List.perm_append_comm_assoc _ _ _)
  refine ⟨by rwa [fresh_acquire] at grows,?_⟩
  simpa [Memory.held] using free_owes (m := ⟨heap,m.blocks,m.copies⟩) swapped

theorem levelCopies_owes (m : Memory) (nonempty : 0 < m.copies.length) {f : Nat} (above : f < m.heap.fresh)
    (owes : m.heap.Owes (m.held ++ rest)) :
    match levelCopies H malloc m nonempty with
    | .ok m' => f < m'.1.heap.fresh ∧ m'.1.heap.Owes (m'.1.held ++ rest) ∧ m'.1.copies.length = 1
    | .error heap => f < heap.fresh ∧ heap.Owes rest := by
  fun_induction levelCopies H malloc m nonempty with
  | case1 m => exact ⟨by rwa [free_fresh],free_owes owes⟩
  | case2 m nonempty more allocated next heap copies =>
    rename_i done
    obtain ⟨grows,owes'⟩ := level_owes done owes
    have later : f < heap.fresh := above.trans grows
    exact ⟨by rwa [free_fresh,free_fresh],free_owes owes'⟩
  | case3 m nonempty more allocated next heap copies =>
    rename_i done ih
    obtain ⟨grows,owes'⟩ := level_owes done owes
    have later : f < heap.fresh := above.trans grows
    exact ih (by rwa [free_fresh]) owes'
  | case4 m nonempty single => exact ⟨above,owes,Nat.le_antisymm (Nat.not_lt.mp single) nonempty⟩

end Heap

/-! ### Every scan -/

/-- A call for a file: the results of its allocations and of `fopen`, and the buffer of the caller. -/
structure Call where
  malloc : Site → Bool
  reads : Option (List Bytes)
  outhex : Vector UInt8 65

/-- `compute_merkle_root(path, outhex)`. Its stream gets the number `heap.fresh`. -/
def Call.run (H : Bytes → Digest) (c : Call) (heap : Ledger) : Int × Option (Vector UInt8 65) × Ledger :=
  merkleCopies H c.malloc (fun _ : Unit => c.reads) (some ()) (some c.outhex) heap

/-- The block for which an allocation of the loop over the file fails first. -/
def Call.failing (c : Call) : Option Nat := c.reads.bind fun reads => (List.range reads.length).find? (fails c.malloc)

/-- What a call loses whose stream has the number `f`. -/
def Call.lost (c : Call) (f : Nat) : List Nat :=
  match c.failing with
  | some k => copyNumbers f k ++ (arrayNumber f k).toList
  | none => []

theorem lost_nil_iff (c : Call) (f : Nat) : c.lost f = [] ↔ ∀ k ∈ c.failing,k = 0 := by
  rw [Call.lost]
  cases c.failing with
  | none => simp
  | some k => cases k <;> simp [copyNumbers,arrayNumber]

/-- What a call loses was allocated after its stream was opened. -/
theorem lost_above {c : Call} {f n : Nat} (member : n ∈ c.lost f) : f < n := by
  rw [Call.lost] at member
  cases failing : c.failing with
  | none => simp [failing] at member
  | some k =>
    simp only [failing,copyNumbers,arrayNumber,List.mem_append,List.mem_map,Option.mem_toList] at member
    rcases member with ⟨i,_,rfl⟩ | last
    · omega
    · split_ifs at last with none_built
      have same := Option.some.inj last
      omega

/-- A call adds what it loses to what the heap owes. -/
theorem run_owes (H : Bytes → Digest) (c : Call) {heap : Ledger} {rest : List Nat} (owes : heap.Owes rest) :
    heap.fresh + (if c.reads.isSome then 1 else 0) ≤ (c.run H heap).2.2.fresh ∧
      (c.run H heap).2.2.Owes (c.lost heap.fresh ++ rest) := by
  cases opened : c.reads with
  | none => simpa [Call.run,Call.lost,Call.failing,merkleCopies,opened] using owes
  | some reads =>
    have begun : Ledger.Owes heap.acquire (Memory.held ⟨heap.acquire,none,[]⟩ ++ (heap.fresh :: rest)) := owes.acquired
    have leaves := @leafCopies_owes H c.malloc _ reads ⟨heap.acquire,none,[]⟩ _ (built_nil rfl) begun
    simp only [List.length_nil,← List.range_eq_range'] at leaves
    simp only [Call.run,merkleCopies,Call.lost,Call.failing,opened,Option.bind_some,Option.isSome_some,if_true]
    cases copied : leafCopies H c.malloc reads ⟨heap.acquire,none,[]⟩ with
    | error heap' =>
      rw [copied] at leaves
      obtain ⟨grows,k,first,owes'⟩ := leaves
      simp only [first]
      exact ⟨by rwa [fresh_release],(owes'.perm List.perm_middle).release⟩
    | ok m =>
      rw [copied] at leaves
      obtain ⟨grows,owes',array,none_fails⟩ := leaves
      have closed : (m.heap.release heap.fresh).Owes (m.held ++ rest) := (owes'.perm List.perm_middle).release
      simp only [none_fails,List.nil_append]
      by_cases nonempty : 0 < m.copies.length
      · simp only [dif_pos nonempty]
        have levels := @levelCopies_owes H c.malloc _ { m with heap := m.heap.release heap.fresh } nonempty heap.fresh
          (by rwa [fresh_release]) closed
        cases lifted : levelCopies H c.malloc { m with heap := m.heap.release heap.fresh } nonempty with
        | error heap' =>
          rw [lifted] at levels
          exact levels
        | ok m' =>
          rw [lifted] at levels
          obtain ⟨more,owes'',single⟩ := levels
          obtain ⟨⟨heap',blocks,copies⟩,some_copy⟩ := m'
          obtain ⟨copy,rfl⟩ := List.length_eq_one_iff.mp single
          exact ⟨by simpa [Nat.succ_le_iff] using more,Ledger.Owes.releaseSome (Ledger.Owes.release owes'')⟩
      · simp only [dif_neg nonempty]
        have empty : m.copies = [] := by simpa using nonempty
        rw [Memory.held,empty,array empty] at closed
        exact ⟨by rwa [fresh_release],closed⟩

/-- The heap after one call after the other. -/
def afterCalls (H : Bytes → Digest) (calls : List Call) (heap : Ledger) : Ledger :=
  calls.foldl (fun heap c => (c.run H heap).2.2) heap

/-- What the calls lose, one after the other. -/
def lostBy (H : Bytes → Digest) : List Call → Ledger → List Nat
  | [],_ => []
  | c :: calls,heap => lostBy H calls (c.run H heap).2.2 ++ c.lost heap.fresh

theorem afterCalls_owes (H : Bytes → Digest) (calls : List Call) {heap : Ledger} {held : List Nat} (owes : heap.Owes held) :
    heap.fresh ≤ (afterCalls H calls heap).fresh ∧ (afterCalls H calls heap).Owes (lostBy H calls heap ++ held) := by
  induction calls generalizing heap held with
  | nil => exact ⟨le_rfl,owes⟩
  | cons c calls ih =>
    obtain ⟨first,owes'⟩ := run_owes H c owes
    obtain ⟨more,later⟩ := ih owes'
    refine ⟨Nat.le_trans (Nat.le_of_add_right_le first) more,?_⟩
    rw [lostBy,List.append_assoc]
    exact later

/-- What the calls lose was allocated by them. -/
theorem lostBy_above (H : Bytes → Digest) (calls : List Call) {heap : Ledger} {held : List Nat} (owes : heap.Owes held) {n : Nat}
    (member : n ∈ lostBy H calls heap) : heap.fresh < n := by
  induction calls generalizing heap held with
  | nil => cases member
  | cons c calls ih =>
    obtain ⟨first,owes'⟩ := run_owes H c owes
    rcases List.mem_append.mp member with later | here
    · exact Nat.lt_of_le_of_lt (Nat.le_of_add_right_le first) (ih owes' later)
    · exact lost_above here

theorem lostBy_append (H : Bytes → Digest) (before after : List Call) (heap : Ledger) :
    lostBy H (before ++ after) heap = lostBy H after (afterCalls H before heap) ++ lostBy H before heap := by
  induction before generalizing heap with
  | nil => exact (List.append_nil _).symm
  | cons c before ih =>
    rw [List.cons_append,lostBy,ih,List.append_assoc,lostBy]
    rfl

theorem lostBy_nil_iff (H : Bytes → Digest) (calls : List Call) (heap : Ledger) :
    lostBy H calls heap = [] ↔ ∀ c ∈ calls,∀ k ∈ c.failing,k = 0 := by
  induction calls generalizing heap with
  | nil => simp [lostBy]
  | cons c calls ih => rw [lostBy,List.append_eq_nil_iff,ih,lost_nil_iff,List.forall_mem_cons,and_comm]

/-- The stream of every call that opens one was closed once. -/
theorem stream_closed (H : Bytes → Digest) (before after : List Call) {c : Call} (opens : c.reads.isSome) :
    (afterCalls H (before ++ c :: after) .empty).releases[(afterCalls H before .empty).fresh]? = some 1 := by
  obtain ⟨_,begun⟩ := afterCalls_owes H before owes_empty
  obtain ⟨opened,middle⟩ := run_owes H c begun
  rw [if_pos opens] at opened
  obtain ⟨more,_⟩ := afterCalls_owes H after middle
  obtain ⟨_,ended⟩ := afterCalls_owes H (before ++ c :: after) owes_empty
  have whole : afterCalls H (before ++ c :: after) .empty = afterCalls H after (c.run H (afterCalls H before .empty)).2.2 := by
    simp [afterCalls]
  refine ended.released (by rw [whole]; omega) fun member => ?_
  rw [List.append_nil,lostBy_append,lostBy] at member
  rcases List.mem_append.mp member with later | earlier
  · rcases List.mem_append.mp later with later | here
    · have above := lostBy_above H after middle later
      omega
    · exact Nat.lt_irrefl _ (lost_above here)
  · exact Nat.lt_irrefl _ (begun.known _ (List.mem_append_left _ earlier))

/-- Over any calls for any files, whichever allocations fail: each call returns what the function returns, every block of
    memory and every stream is released once but what the loops over the files have lost, which is never released, every
    stream is closed, and nothing is lost exactly if no allocation of such a loop fails first behind block 0. A loop whose
    allocations fail first for block `k` loses the copies of the blocks before and the array that points to them. -/
theorem merkle_heap (H : Bytes → Digest) (calls : List Call) :
    (∀ (c : Call) (heap : Ledger),((c.run H heap).1,(c.run H heap).2.1) =
      ((merkleRootOfReads H c.malloc (fun _ : Unit => c.reads) (some ()) (some c.outhex)).rc,
        (merkleRootOfReads H c.malloc (fun _ : Unit => c.reads) (some ()) (some c.outhex)).outhex)) ∧
      (afterCalls H calls .empty).Owes (lostBy H calls .empty) ∧
      (∀ before c after,calls = before ++ c :: after → c.reads.isSome →
        (afterCalls H calls .empty).releases[(afterCalls H before .empty).fresh]? = some 1) ∧
      ((afterCalls H calls .empty).Balanced ↔ ∀ c ∈ calls,∀ k ∈ c.failing,k = 0) := by
  obtain ⟨_,owes⟩ := afterCalls_owes H calls owes_empty
  rw [List.append_nil] at owes
  refine ⟨?_,owes,?_,owes.balanced_iff.trans (lostBy_nil_iff H calls .empty)⟩
  · intro c heap
    obtain ⟨rc,out⟩ := @merkleCopies_result H c.malloc Unit (fun _ => c.reads) (some ()) (some c.outhex) heap
    exact Prod.ext rc out
  · rintro before c after rfl opens
    exact stream_closed H before after opens

/-- The copy of the third block cannot be allocated: two copies and the second array are lost. -/
example (H : Bytes → Digest) (out : Vector UInt8 65) :
    afterCalls H [⟨fun | .leaf 2 => false | _ => true,some [[1],[2],[3]],out⟩] .empty = ⟨[1,0,1,0,0]⟩ := rfl

end Nulleye.MerkleHeap
