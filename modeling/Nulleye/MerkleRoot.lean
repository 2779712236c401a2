import Nulleye.HashTrees
import Mathlib.Data.Vector.Basic

/-!
The root that the file integrity module records for a file. The function reads the
file in blocks of 4096 bytes, hashes each, and replaces the array of digests by the
digests of its pairs until one is left. The hash function is a parameter, and so is
the success of each allocation.
-/
namespace Nulleye.MerkleRoot
open Nulleye.HashTrees

abbrev Bytes := List UInt8

/-- What `SHA256` writes: `SHA256_DIGEST_LENGTH` bytes. -/
abbrev Digest := Vector UInt8 32

/-! ### The function -/

/-- The allocations of one run: the copy of a block's digest, the array grown by one,
    the array of the next level, and the copy of an inner digest. -/
inductive Site where
  | leaf (bcount : Nat)
  | grow (bcount : Nat)
  | level (bcount : Nat)
  | node (bcount i : Nat)

/-- The array of digests, and for the statements below the strings hashed so far. -/
structure Progress where
  blocks : List Digest
  hashed : List Bytes

/-- `memcpy(concat, a, …); memcpy(concat + SHA256_DIGEST_LENGTH, b, …)`. -/
def concat (p : Digest × Digest) : Bytes := p.1.toList ++ p.2.toList

section
variable (H : Bytes → Digest) (malloc : Site → Bool)

/-- The loop over `fread(buf, 1, sizeof(buf), f)`; `none` where the function returns -1. -/
def leafLoop (stream : Bytes) (s : Progress) : Option Progress :=
  let buf := stream.take 4096
  if 0 < buf.length then
    if !malloc (.leaf s.blocks.length) then none
    else if !malloc (.grow s.blocks.length) then none
    else leafLoop (stream.drop 4096) ⟨s.blocks ++ [H buf],s.hashed ++ [buf]⟩
  else some s
termination_by stream.length
decreasing_by
  simp only [buf,List.length_take] at *
  rw [List.length_drop]
  omega

/-- The loop over the pairs of one level, from pair `i` on; `s` holds `next`. -/
def nodeLoop (blocks : List Digest) (i : Nat) (s : Progress) : Option Progress :=
  let pairs := (blocks.length + 1) / 2
  if inside : i < pairs then
    have first : i * 2 < blocks.length := by omega
    let a := blocks[i * 2]
    let b := if second : i * 2 + 1 < blocks.length then blocks[i * 2 + 1] else blocks[i * 2]
    let concat := concat (a,b)
    if !malloc (.node blocks.length i) then none
    else nodeLoop blocks (i + 1) ⟨s.blocks ++ [H concat],s.hashed ++ [concat]⟩
  else some s
termination_by (blocks.length + 1) / 2 - i

/-- Every round of the loop over the levels halves the array, rounded up. -/
theorem nodeLoop_length {blocks : List Digest} {i : Nat} {s t : Progress}
    (done : nodeLoop H malloc blocks i s = some t) :
    t.blocks.length = s.blocks.length + ((blocks.length + 1) / 2 - i) := by
  fun_induction nodeLoop H malloc blocks i s with
  | case1 => cases done
  | case2 i s pairs inside first a b concat allocated ih =>
    rw [ih done,List.length_append,List.length_singleton]
    omega
  | case3 i s pairs outside =>
    cases done
    omega

/-- The loop over the levels. -/
def levelLoop (s : Progress) (nonempty : 0 < s.blocks.length) : Option { t : Progress // 0 < t.blocks.length } :=
  if 1 < s.blocks.length then
    if !malloc (.level s.blocks.length) then none
    else
      match done : nodeLoop H malloc s.blocks 0 ⟨[],s.hashed⟩ with
      | none => none
      | some next => levelLoop next (by have := nodeLoop_length H malloc done; simp at this; omega)
  else some ⟨s,nonempty⟩
termination_by s.blocks.length
decreasing_by
  have := nodeLoop_length H malloc done
  simp only [List.length_nil] at this
  omega

end

/-- A digit of `%02x`. -/
def hexDigit (n : Nat) : UInt8 := UInt8.ofNat (if n < 10 then 48 + n else 87 + n)

/-- `sprintf(&outhex[i * 2], "%02x", x)`, with its terminating NUL. -/
def sprintfHex (outhex : Vector UInt8 65) (i : Fin 32) (x : UInt8) : Vector UInt8 65 :=
  ((outhex.set (i * 2) (hexDigit (x.toNat / 16))).set (i * 2 + 1) (hexDigit (x.toNat % 16))).set (i * 2 + 2) 0

/-- The loop over the bytes of a digest, and the NUL after it. -/
def writeHex (hash : Digest) (outhex : Vector UInt8 65) : Vector UInt8 65 :=
  ((List.finRange 32).foldl (fun out i => sprintfHex out i hash[i]) outhex).set 64 0

/-- The return code, the caller's buffer, and the strings hashed where the code is 0. -/
structure Outcome where
  rc : Int
  outhex : Option (Vector UInt8 65)
  hashed : List Bytes

/-- `compute_merkle_root`. NULL arguments are `none`, and `fopen` gives the bytes that
    `fread` delivers from a file. -/
def computeMerkleRoot (H : Bytes → Digest) (malloc : Site → Bool) (fopen : String → Option Bytes)
    (path : Option String) (outhex : Option (Vector UInt8 65)) : Outcome :=
  match path, outhex with
  | some path, some out =>
    match fopen path with
    | none => ⟨-1,outhex,[]⟩
    | some stream =>
      match leafLoop H malloc stream ⟨[],[]⟩ with
      | none => ⟨-1,outhex,[]⟩
      | some s =>
        if empty : s.blocks.length = 0 then ⟨0,some (writeHex (H []) out),s.hashed ++ [[]]⟩ else
          match levelLoop H malloc s (Nat.pos_of_ne_zero empty) with
          | none => ⟨-1,outhex,[]⟩
          | some ⟨t,nonempty⟩ => ⟨0,some (writeHex t.blocks[0] out),t.hashed⟩
  | _, _ => ⟨-1,outhex,[]⟩

/-! ### What the function is to compute -/

/-- The blocks of a file: 4096 bytes each, and what remains in the last. -/
def blocks (content : Bytes) : List Bytes :=
  if content = [] then [] else content.take 4096 :: blocks (content.drop 4096)
termination_by content.length
decreasing_by
  have := List.length_pos_of_ne_nil ‹_›
  rw [List.length_drop]
  omega

@[simp] theorem blocks_nil : blocks [] = [] := by rw [blocks,if_pos rfl]

theorem blocks_of_ne_nil {content : Bytes} (present : content ≠ []) :
    blocks content = content.take 4096 :: blocks (content.drop 4096) := by
  conv_lhs => rw [blocks,if_neg present]

/-- The reference root: of the digests of the blocks, or the digest of the empty string. -/
def merkleRoot (H : Bytes → Digest) (content : Bytes) : Digest :=
  (root H concat ((blocks content).map H)).getD (H [])

/-- The strings that the reference hashes for a file, blocks first. -/
def hashedStrings (H : Bytes → Digest) (content : Bytes) : List Bytes :=
  if content = [] then [[]] else
    blocks content ++ strings H concat (height (blocks content)) ((blocks content).map H)

/-- The lower-case hexadecimal digits of a digest, and a NUL. -/
def hexString (d : Digest) : Vector UInt8 65 := Vector.ofFn fun j =>
  if inside : j.val < 64 then
    have : j.val / 2 < 32 := by omega
    hexDigit (if j.val % 2 = 0 then d[j.val / 2].toNat / 16 else d[j.val / 2].toNat % 16)
  else 0

/-! ### Writing the digits -/

theorem sprintfHex_getElem (out : Vector UInt8 65) (i : Fin 32) (x : UInt8) (j : Nat) (inside : j < 65) :
    (sprintfHex out i x)[j] = if j = i * 2 then hexDigit (x.toNat / 16)
      else if j = i * 2 + 1 then hexDigit (x.toNat % 16) else if j = i * 2 + 2 then 0 else out[j] := by
  simp only [sprintfHex,Vector.getElem_set]
  split_ifs <;> first | rfl | omega

theorem hexString_high (d : Digest) {i : Nat} (inside : i < 32) (first : i * 2 < 65) :
    (hexString d)[i * 2] = hexDigit (d[i].toNat / 16) := by
  have half : i * 2 / 2 = i := by omega
  have even : i * 2 % 2 = 0 := by omega
  rw [hexString,Vector.getElem_ofFn,dif_pos (by simp only; omega)]
  simp only [half,even]
  rfl

theorem hexString_low (d : Digest) {i : Nat} (inside : i < 32) (second : i * 2 + 1 < 65) :
    (hexString d)[i * 2 + 1] = hexDigit (d[i].toNat % 16) := by
  have half : (i * 2 + 1) / 2 = i := by omega
  have odd : (i * 2 + 1) % 2 = 1 := by omega
  rw [hexString,Vector.getElem_ofFn,dif_pos (by simp only; omega)]
  simp only [half,odd]
  rfl

/-- After the first `k` bytes their digits are written. -/
theorem writeHex_prefix (hash : Digest) (out : Vector UInt8 65) (k : Nat) (bounded : k ≤ 32) (j : Nat)
    (inside : j < 65) (written : j < k * 2) :
    (((List.finRange 32).take k).foldl (fun out i => sprintfHex out i hash[i]) out)[j] = (hexString hash)[j] := by
  induction k with
  | zero => omega
  | succ k ih =>
    have last : (List.finRange 32).take (k + 1) = (List.finRange 32).take k ++ [⟨k,by omega⟩] := by
      rw [List.take_add_one,List.getElem?_eq_getElem (by simp; omega)]
      simp
    rw [last,List.foldl_append,List.foldl_cons,List.foldl_nil,sprintfHex_getElem]
    rcases Nat.lt_trichotomy j (k * 2) with before | rfl | after
    · rw [if_neg (by simp; omega),if_neg (by simp; omega),if_neg (by simp; omega)]
      exact ih (by omega) before
    · rw [if_pos rfl,hexString_high hash (by omega)]
      rfl
    · obtain rfl : j = k * 2 + 1 := by omega
      rw [if_neg (by simp),if_pos rfl,hexString_low hash (by omega)]
      rfl

theorem writeHex_eq (hash : Digest) (out : Vector UInt8 65) : writeHex hash out = hexString hash := by
  apply Vector.ext
  intro j inside
  rw [writeHex,Vector.getElem_set]
  by_cases last : j = 64
  · subst last
    simp [hexString]
  · rw [if_neg (Ne.symm last)]
    have written := writeHex_prefix hash out 32 (by omega) j inside (by omega)
    rwa [List.take_of_length_le (by simp)] at written

/-- Different nibbles have different digits. -/
theorem hexDigit_injective {m n : Nat} (small : m < 16) (small' : n < 16) (same : hexDigit m = hexDigit n) : m = n := by
  have numbers := congrArg UInt8.toNat same
  simp only [hexDigit,UInt8.toNat_ofNat'] at numbers
  split at numbers <;> split at numbers <;> omega

/-- The digits determine the digest. -/
theorem hexString_injective : Function.Injective hexString := by
  intro d d' same
  apply Vector.ext
  intro i inside
  have first : i * 2 < 65 := by omega
  have second : i * 2 + 1 < 65 := by omega
  have high : (hexString d)[i * 2] = (hexString d')[i * 2] := by rw [same]
  have low : (hexString d)[i * 2 + 1] = (hexString d')[i * 2 + 1] := by rw [same]
  rw [hexString_high d inside,hexString_high d' inside] at high
  rw [hexString_low d inside,hexString_low d' inside] at low
  have small := d[i].toNat_lt
  have small' := d'[i].toNat_lt
  have upper := hexDigit_injective (by omega) (by omega) high
  have lower := hexDigit_injective (by omega) (by omega) low
  exact UInt8.toNat_inj.mp (by omega)

/-! ### The loops -/

section Loops
variable {H : Bytes → Digest} {malloc : Site → Bool}

theorem some_block {stream : Bytes} : 0 < (stream.take 4096).length ↔ stream ≠ [] := by
  rw [List.length_pos_iff]
  simp

theorem leafLoop_eq {stream : Bytes} {s t : Progress} (done : leafLoop H malloc stream s = some t) :
    t = ⟨s.blocks ++ (blocks stream).map H,s.hashed ++ blocks stream⟩ := by
  fun_induction leafLoop H malloc stream s with
  | case1 | case2 => cases done
  | case3 stream s buf more _ _ ih =>
    rw [ih done,blocks_of_ne_nil (some_block.mp more)]
    simp [buf]
  | case4 stream s buf stop =>
    have empty : stream = [] := not_not.mp (mt some_block.mpr stop)
    cases done
    simp [empty]

theorem leafLoop_done (allocated : ∀ site, malloc site = true) (stream : Bytes) (s : Progress) :
    ∃ t, leafLoop H malloc stream s = some t := by
  fun_induction leafLoop H malloc stream s with
  | case1 _ _ _ _ failed | case2 _ _ _ _ _ failed => simp [allocated] at failed
  | case3 _ _ _ _ _ _ ih => exact ih
  | case4 stream s => exact ⟨s,rfl⟩

theorem nodeLoop_eq {blocks : List Digest} {i : Nat} {s t : Progress} (done : nodeLoop H malloc blocks i s = some t) :
    t = ⟨s.blocks ++ ((pairs blocks).drop i).map (fun p => H (concat p)),
      s.hashed ++ ((pairs blocks).drop i).map concat⟩ := by
  fun_induction nodeLoop H malloc blocks i s with
  | case1 => cases done
  | case2 i s _ inside first a b string _ ih =>
    have here : (pairs blocks)[i]? = some (a,b) := by
      rw [pairs_getElem?,List.getElem?_eq_getElem first]
      by_cases second : i * 2 + 1 < blocks.length
      · simp [a,b,second]
      · simp [a,b,second]
    obtain ⟨_,same⟩ := List.getElem?_eq_some_iff.mp here
    rw [ih done,List.drop_eq_getElem_cons (i := i) (by rw [pairs_length]; omega),same]
    simp [string]
  | case3 i s _ outside =>
    cases done
    rw [List.drop_eq_nil_of_le (by rw [pairs_length]; omega)]
    simp

theorem nodeLoop_done (allocated : ∀ site, malloc site = true) (blocks : List Digest) (i : Nat) (s : Progress) :
    ∃ t, nodeLoop H malloc blocks i s = some t := by
  fun_induction nodeLoop H malloc blocks i s with
  | case1 => rename_i failed; simp [allocated] at failed
  | case2 => rename_i ih; exact ih
  | case3 i s => exact ⟨s,rfl⟩

theorem levelLoop_eq {s : Progress} {nonempty : 0 < s.blocks.length} {t : { t : Progress // 0 < t.blocks.length }}
    (done : levelLoop H malloc s nonempty = some t) :
    t.1 = ⟨lift H concat (height s.blocks) s.blocks,
      s.hashed ++ strings H concat (height s.blocks) s.blocks⟩ := by
  fun_induction levelLoop H malloc s nonempty with
  | case1 | case2 => cases done
  | case3 s nonempty more _ next looped ih =>
    have nodes := nodeLoop_eq looped
    have digests : next.blocks = level H concat s.blocks := by rw [nodes]; simp [level]
    have hashed : next.hashed = s.hashed ++ (pairs s.blocks).map concat := by rw [nodes]; simp
    rw [ih done,height_level H concat more,digests,hashed,List.append_assoc]
    rfl
  | case4 s nonempty single =>
    cases done
    have bottom : height s.blocks = 0 := by rw [height,Nat.clog_of_right_le_one (by omega)]
    rw [bottom]
    simp [lift,strings]

theorem levelLoop_done (allocated : ∀ site, malloc site = true) (s : Progress) (nonempty : 0 < s.blocks.length) :
    ∃ t, levelLoop H malloc s nonempty = some t := by
  fun_induction levelLoop H malloc s nonempty with
  | case1 _ _ _ failed => simp [allocated] at failed
  | case2 s _ _ _ failed =>
    obtain ⟨t,looped⟩ := nodeLoop_done allocated s.blocks 0 ⟨[],s.hashed⟩
    rw [failed] at looped
    cases looped
  | case3 _ _ _ _ _ _ ih => exact ih
  | case4 s nonempty => exact ⟨⟨s,nonempty⟩,rfl⟩

end Loops

/-! ### The root -/

variable {H : Bytes → Digest} {malloc : Site → Bool} {fopen : String → Option Bytes} {path : String} {content : Bytes}

/-- Where the function returns 0 it has computed the reference root. -/
theorem outcome_eq (opened : fopen path = some content) (out : Vector UInt8 65)
    (returned : (computeMerkleRoot H malloc fopen (some path) (some out)).rc = 0) :
    computeMerkleRoot H malloc fopen (some path) (some out) =
      ⟨0,some (hexString (merkleRoot H content)),hashedStrings H content⟩ := by
  unfold computeMerkleRoot at returned ⊢
  simp only [opened] at returned ⊢
  cases leaves : leafLoop H malloc content ⟨[],[]⟩ with
  | none => simp [leaves] at returned
  | some s =>
    have read := leafLoop_eq leaves
    simp only [leaves] at returned ⊢
    by_cases absent : content = []
    · subst absent
      simp [read,writeHex_eq,merkleRoot,hashedStrings,root]
    · have present : blocks content ≠ [] := by rw [blocks_of_ne_nil absent]; simp
      have nonempty : s.blocks ≠ [] := by rw [read]; simpa using present
      rw [dif_neg (by simpa using nonempty)] at returned ⊢
      cases levels : levelLoop H malloc s (Nat.pos_of_ne_zero (by simpa using nonempty)) with
      | none => simp [levels] at returned
      | some t =>
        obtain ⟨⟨digests,hashed⟩,one⟩ := t
        have lifted := levelLoop_eq levels
        simp only [read,List.nil_append,Progress.mk.injEq] at lifted
        obtain ⟨rfl,rfl⟩ := lifted
        obtain ⟨d,top,single⟩ := lift_height H concat (l := (blocks content).map H) (by simpa using present)
        rw [height_map] at single
        simp [writeHex_eq,merkleRoot,hashedStrings,absent,top,single]

/-- With all allocations it returns 0. -/
theorem outcome_done (allocated : ∀ site, malloc site = true) (opened : fopen path = some content)
    (out : Vector UInt8 65) : (computeMerkleRoot H malloc fopen (some path) (some out)).rc = 0 := by
  obtain ⟨s,leaves⟩ := leafLoop_done (H := H) allocated content ⟨[],[]⟩
  unfold computeMerkleRoot
  simp only [opened,leaves]
  split
  · rfl
  · rename_i nonempty
    obtain ⟨t,levels⟩ := levelLoop_done (H := H) allocated s (Nat.pos_of_ne_zero nonempty)
    simp only [levels]

/-- For every content and every hash function, if no allocation fails, the function
    returns 0 and writes the digits of the reference root. -/
theorem compute_merkle_root_correct (allocated : ∀ site, malloc site = true) (opened : fopen path = some content)
    (out : Vector UInt8 65) : computeMerkleRoot H malloc fopen (some path) (some out) =
      ⟨0,some (hexString (merkleRoot H content)),hashedStrings H content⟩ :=
  outcome_eq opened out (outcome_done allocated opened out)

/-- A hash function that keeps the length, modulo `2 ^ 16`, and the first byte. -/
def lengthDigest (s : Bytes) : Digest := Vector.ofFn fun i =>
  if i = 0 then UInt8.ofNat (s.length / 256) else if i = 1 then UInt8.ofNat (s.length % 256)
  else if i = 2 then s.headD 0 else 0

/-- A file of two blocks. -/
theorem compute_merkle_root_two : computeMerkleRoot lengthDigest (fun _ => true)
    (fun _ => some (List.replicate 5000 7)) (some "/etc/passwd") (some (Vector.replicate 65 0)) =
      ⟨0,some (hexString (merkleRoot lengthDigest (List.replicate 5000 7))),
        hashedStrings lengthDigest (List.replicate 5000 7)⟩ :=
  compute_merkle_root_correct (fun _ => rfl) rfl _

end Nulleye.MerkleRoot
