import Nulleye.MerkleRoot

/-!
What equal recorded roots say about two files. With equal numbers of blocks the
files are equal or the hash function collides. With different numbers there are two
more ways: an odd level repeats its last node, so a file that ends in the repeated
blocks has the same root; and blocks are hashed like pairs of digests, so a file of
64 bytes can be the pair below the root of another.
-/
namespace Nulleye.MerkleTamper
open Nulleye.HashTrees Nulleye.MerkleRoot

variable {H : Bytes → Digest} {content content' : Bytes} {o o' : Outcome}

/-- The outcome of a run that read `content` and returned 0, whatever its path, buffer and allocations. -/
structure Recorded (H : Bytes → Digest) (content : Bytes) (o : Outcome) : Prop where
  run : ∃ malloc fopen path out, fopen path = some content ∧
    o = computeMerkleRoot H malloc fopen (some path) (some out)
  returned : o.rc = 0

theorem Recorded.eq (recorded : Recorded H content o) :
    o = ⟨0,some (hexString (merkleRoot H content)),hashedStrings H content⟩ := by
  obtain ⟨⟨malloc,fopen,path,out,opened,rfl⟩,returned⟩ := recorded
  exact outcome_eq opened out returned

/-- Equal digits are equal roots. -/
theorem Recorded.root_eq (recorded : Recorded H content o) (recorded' : Recorded H content' o')
    (same : o.outhex = o'.outhex) : merkleRoot H content = merkleRoot H content' := by
  rw [recorded.eq,recorded'.eq] at same
  exact hexString_injective (Option.some.inj same)

/-! ### Blocks -/

theorem blocks_flatten (content : Bytes) : (blocks content).flatten = content := by
  fun_induction blocks content with
  | case1 => rfl
  | case2 content present ih => rw [List.flatten_cons,ih,List.take_append_drop]

theorem blocks_injective (same : blocks content = blocks content') : content = content' := by
  rw [← blocks_flatten content,same,blocks_flatten]

/-- A first block of fewer than 4096 bytes is the whole file. -/
theorem blocks_short {b : Bytes} {rest : List Bytes} (whole : blocks content = b :: rest) (short : b.length < 4096) :
    content = b := by
  have present : content ≠ [] := by rintro rfl; simp at whole
  rw [blocks_of_ne_nil present,List.cons.injEq] at whole
  obtain ⟨rfl,_⟩ := whole
  rw [List.length_take] at short
  rw [List.take_of_length_le (by omega)]

theorem mem_blocks_ne_nil {b : Bytes} (member : b ∈ blocks content) : b ≠ [] := by
  fun_induction blocks content with
  | case1 => cases member
  | case2 content present ih =>
    rcases List.mem_cons.mp member with rfl | later
    · simp [present]
    · exact ih later

theorem blocks_replicate (n : Nat) (x : UInt8) :
    blocks (List.replicate (n * 4096) x) = List.replicate n (List.replicate 4096 x) := by
  induction n with
  | zero => simp
  | succ n ih =>
    have present : List.replicate ((n + 1) * 4096) x ≠ [] := by simp
    have rest : (n + 1) * 4096 - 4096 = n * 4096 := by omega
    have block : min 4096 ((n + 1) * 4096) = 4096 := by omega
    rw [blocks_of_ne_nil present,List.take_replicate,List.drop_replicate,rest,block,ih]
    rfl

/-! ### Hashed strings -/

theorem concat_length (p : Digest × Digest) : (concat p).length = 64 := by
  simp [concat]

theorem concat_injective : Function.Injective concat := by
  intro p q same
  obtain ⟨first,second⟩ := List.append_inj same (by simp)
  exact Prod.ext (Vector.toList_inj.mp first) (Vector.toList_inj.mp second)

/-- The digests of the blocks. -/
def leaves (H : Bytes → Digest) (content : Bytes) : List Digest := (blocks content).map H

theorem leaves_ne_nil (present : content ≠ []) : leaves H content ≠ [] := by
  rw [leaves,blocks_of_ne_nil present]
  simp

theorem root_leaves (present : content ≠ []) : root H concat (leaves H content) = some (merkleRoot H content) := by
  obtain ⟨d,top,_⟩ := lift_height H concat (leaves_ne_nil (H := H) present)
  rw [top,merkleRoot]
  exact congrArg some (congrArg (fun r => r.getD (H [])) top).symm

theorem hashed_of_block {x : Bytes} (member : x ∈ blocks content) : x ∈ hashedStrings H content := by
  have present : content ≠ [] := by rintro rfl; simp at member
  rw [hashedStrings,if_neg present]
  exact List.mem_append_left _ member

/-- The strings hashed as inner nodes, level by level: pairs of digests, and no blocks. -/
def nodeStrings (H : Bytes → Digest) (content : Bytes) : List Bytes :=
  strings H concat (height (leaves H content)) (leaves H content)

theorem hashed_of_string (present : content ≠ []) {x : Bytes} (member : x ∈ nodeStrings H content) :
    x ∈ hashedStrings H content := by
  rw [nodeStrings,leaves,height_map] at member
  rw [hashedStrings,if_neg present]
  exact List.mem_append_right _ member

/-- The root of a file that is not empty is the digest of a hashed string that is not empty. -/
theorem root_hashed (present : content ≠ []) :
    ∃ x ∈ hashedStrings H content, x ≠ [] ∧ merkleRoot H content = H x := by
  obtain ⟨d,top,lifted⟩ := lift_height H concat (leaves_ne_nil (H := H) present)
  have recorded : merkleRoot H content = d := Option.some.inj ((root_leaves present).symm.trans top)
  cases levels : height (leaves H content) with
  | zero =>
    rw [levels,lift] at lifted
    have member : d ∈ leaves H content := by rw [lifted]; simp
    obtain ⟨b,block,rfl⟩ := List.mem_map.mp member
    exact ⟨b,hashed_of_block block,mem_blocks_ne_nil block,recorded⟩
  | succ h =>
    rw [levels] at lifted
    obtain ⟨p,digest,hashed⟩ := mem_lift_succ (l := leaves H content) (d := d) (by rw [lifted]; simp)
    refine ⟨concat p,hashed_of_string present (by rw [nodeStrings,levels]; exact hashed),?_,by rw [recorded,digest]⟩
    intro empty
    have := concat_length p
    rw [empty] at this
    simp at this

/-! ### Equal roots -/

/-- Equal heights, and equal blocks once every odd level is completed by its repeated last node. -/
def PaddedAlike (content content' : Bytes) : Prop :=
  height (blocks content) = height (blocks content') ∧
    complete (height (blocks content)) (blocks content) = complete (height (blocks content)) (blocks content')

/-- The file is the concatenation of two digests that is hashed as an inner node for the other file. -/
def LeafAsNode (H : Bytes → Digest) (content content' : Bytes) : Prop :=
  ∃ p, content = concat p ∧ concat p ∈ nodeStrings H content'

/-- An empty file shares its root with another only through a collision. -/
theorem empty_collision (present : content' ≠ []) (same : merkleRoot H [] = merkleRoot H content') :
    Collision H (hashedStrings H [] ++ hashedStrings H content') := by
  obtain ⟨x,hashed,different,digest⟩ := root_hashed (H := H) present
  have empty : merkleRoot H [] = H [] := by simp [merkleRoot,root]
  refine ⟨[],?_,x,List.mem_append_right _ hashed,different.symm,by rw [← empty,same,digest]⟩
  exact List.mem_append_left _ (by simp [hashedStrings])

/-- The two trees compared at the height of the lower one. -/
theorem lower_root (present : content ≠ []) (present' : content' ≠ [])
    (lower : height (blocks content) ≤ height (blocks content')) (same : merkleRoot H content = merkleRoot H content') :
    Collision H (hashedStrings H content ++ hashedStrings H content') ∨ PaddedAlike content content' ∨
      (height (blocks content) < height (blocks content') ∧ LeafAsNode H content content') := by
  have some := leaves_ne_nil (H := H) present
  have some' := leaves_ne_nil (H := H) present'
  have roots : root H concat (leaves H content) = root H concat (leaves H content') := by
    rw [root_leaves present,root_leaves present',same]
  have heights : ∀ content, height (leaves H content) = height (blocks content) := fun content => by
    rw [leaves,height_map]
  rcases root_eq concat_injective some some' (by rw [heights,heights]; exact lower) roots with collision | alike | leaf
  · refine .inl (collision.mono ?_)
    intro x member
    rcases List.mem_append.mp member with first | second
    · exact List.mem_append_left _ (hashed_of_string present first)
    · exact List.mem_append_right _ (hashed_of_string present' second)
  · obtain ⟨level,equal⟩ := alike
    rw [heights,leaves,leaves,complete_map,complete_map] at equal
    rw [heights,heights] at level
    rcases map_eq_or_collision equal with blocks | collision
    · exact .inr (.inl ⟨level,blocks⟩)
    · refine .inl (collision.mono ?_)
      intro x member
      rcases List.mem_append.mp member with first | second
      · exact List.mem_append_left _ (hashed_of_block (mem_complete first))
      · exact List.mem_append_right _ (hashed_of_block (mem_complete second))
  · obtain ⟨below,p,first,hashed⟩ := leaf
    rw [heights,heights] at below
    have split := blocks_of_ne_nil present
    obtain ⟨b,rest,whole⟩ : ∃ b rest, blocks content = b :: rest := ⟨_,_,split⟩
    rw [leaves,whole] at first
    have digest : H b = H (concat p) := Option.some.inj first
    have inside := hashed_of_string present' hashed
    by_cases equal : b = concat p
    · refine .inr (.inr ⟨below,p,?_,hashed⟩)
      rw [← equal]
      exact blocks_short whole (by rw [equal,concat_length]; omega)
    · exact .inl ⟨b,List.mem_append_left _ (hashed_of_block (by rw [whole]; simp)),concat p,
        List.mem_append_right _ inside,equal,digest⟩

/-- Two different contents with equal numbers of blocks and equal recorded roots exhibit
    a collision among the strings hashed for the two roots. -/
theorem tamper_evident_equal_counts (recorded : Recorded H content o) (recorded' : Recorded H content' o')
    (counts : (blocks content).length = (blocks content').length) (different : content ≠ content')
    (same : o.outhex = o'.outhex) : Collision H (o.hashed ++ o'.hashed) := by
  have roots := recorded.root_eq recorded' same
  rw [recorded.eq,recorded'.eq]
  by_cases empty : content = []
  · subst empty
    exact empty_collision different.symm roots
  · by_cases empty' : content' = []
    · subst empty'
      exact (empty_collision different roots.symm).symm
    · have level : height (blocks content) = height (blocks content') := by rw [height,height,counts]
      rcases lower_root empty empty' level.le roots with collision | alike | leaf
      · exact collision
      · exact absurd (blocks_injective (complete_injective counts alike.2)) different
      · exact absurd level leaf.1.ne

/-- Two contents with different numbers of blocks and equal recorded roots exhibit a
    collision among the strings hashed for the two roots, or are alike up to repeated
    last nodes of odd levels, or one of them is a pair of digests hashed as an inner node
    for the other. -/
theorem tamper_evident_different_counts (recorded : Recorded H content o) (recorded' : Recorded H content' o')
    (counts : (blocks content).length ≠ (blocks content').length) (same : o.outhex = o'.outhex) :
    Collision H (o.hashed ++ o'.hashed) ∨ PaddedAlike content content' ∨ LeafAsNode H content content' ∨
      LeafAsNode H content' content := by
  have roots := recorded.root_eq recorded' same
  have different : content ≠ content' := fun equal => counts (by rw [equal])
  rw [recorded.eq,recorded'.eq]
  by_cases empty : content = []
  · subst empty
    exact .inl (empty_collision different.symm roots)
  · by_cases empty' : content' = []
    · subst empty'
      exact .inl (empty_collision different roots.symm).symm
    · rcases Nat.le_total (height (blocks content)) (height (blocks content')) with lower | higher
      · rcases lower_root empty empty' lower roots with collision | alike | leaf
        · exact .inl collision
        · exact .inr (.inl alike)
        · exact .inr (.inr (.inl leaf.2))
      · rcases lower_root empty' empty higher roots.symm with collision | alike | leaf
        · exact .inl collision.symm
        · exact .inr (.inl ⟨alike.1.symm,by rw [← alike.1]; exact alike.2.symm⟩)
        · exact .inr (.inr (.inr leaf.2))

/-- Contents that are alike up to repeated last nodes have one root, whatever the hash function. -/
theorem padded_same_root (present : content ≠ []) (present' : content' ≠ []) (alike : PaddedAlike content content') :
    merkleRoot H content = merkleRoot H content' := by
  have blocks_alike : Alike (blocks content) (blocks content') := alike
  have same : root H concat (leaves H content) = root H concat (leaves H content') :=
    root_of_alike (leaves_ne_nil present) (leaves_ne_nil present') (blocks_alike.map H)
  rw [root_leaves present,root_leaves present'] at same
  exact Option.some.inj same

/-! ### Runs on given contents -/

/-- A run in which every allocation succeeds. -/
def allocated (H : Bytes → Digest) (content : Bytes) : Outcome :=
  computeMerkleRoot H (fun _ => true) (fun _ => some content) (some "/etc/passwd") (some (Vector.replicate 65 0))

theorem recorded_allocated (H : Bytes → Digest) (content : Bytes) : Recorded H content (allocated H content) :=
  ⟨⟨_,_,_,_,rfl,rfl⟩,outcome_done (fun _ => rfl) rfl _⟩

/-- Equal roots are recorded as equal digits. -/
theorem allocated_outhex (same : merkleRoot H content = merkleRoot H content') :
    (allocated H content).outhex = (allocated H content').outhex := by
  rw [(recorded_allocated H content).eq,(recorded_allocated H content').eq]
  simp only [same]

theorem blocks_small {content : Bytes} (present : content ≠ []) (small : content.length ≤ 4096) :
    blocks content = [content] := by
  rw [blocks_of_ne_nil present,List.take_of_length_le small,List.drop_eq_nil_of_le small,blocks_nil]

/-- A block of zeros. -/
def zeroBlock : Bytes := List.replicate 4096 0

/-- A file of `n` blocks of zeros. -/
def zeros (n : Nat) : Bytes := List.replicate (n * 4096) 0

theorem blocks_zeros (n : Nat) : blocks (zeros n) = List.replicate n zeroBlock := blocks_replicate n 0

theorem zeros_ne_nil {n : Nat} (positive : 0 < n) : zeros n ≠ [] := by
  intro empty
  have := congrArg List.length empty
  rw [zeros,List.length_replicate,List.length_nil] at this
  omega

/-- A hash function that forgets everything. -/
def forgetful (_ : Bytes) : Digest := Vector.replicate 32 0

theorem forgetful_root (present : content ≠ []) : merkleRoot forgetful content = Vector.replicate 32 0 := by
  obtain ⟨x,_,_,digest⟩ := root_hashed (H := forgetful) present
  exact digest

/-- Three blocks of zeros and three of ones under a hash function that forgets everything. -/
theorem tamper_evident_forgetful : Collision forgetful
    ((allocated forgetful (zeros 3)).hashed ++ (allocated forgetful (List.replicate (3 * 4096) 1)).hashed) := by
  have present : List.replicate (3 * 4096) (1 : UInt8) ≠ [] := List.ne_nil_of_length_pos (by rw [List.length_replicate]; omega)
  have same : merkleRoot forgetful (zeros 3) = merkleRoot forgetful (List.replicate (3 * 4096) 1) := by
    rw [forgetful_root (zeros_ne_nil (by omega)),forgetful_root present]
  refine tamper_evident_equal_counts (recorded_allocated forgetful (zeros 3)) (recorded_allocated forgetful _) ?_ ?_
    (allocated_outhex same)
  · rw [blocks_zeros,blocks_replicate,List.length_replicate,List.length_replicate]
  · intro equal
    have heads := congrArg List.head? equal
    rw [zeros,List.head?_replicate,List.head?_replicate] at heads
    cases heads

theorem height_replicate (n : Nat) (z : Bytes) : height (List.replicate n z) = Nat.clog 2 n := by
  rw [height,List.length_replicate]

/-- Three blocks of zeros completed are four. -/
theorem padded_zeros : PaddedAlike (zeros 3) (zeros 4) := by
  rw [PaddedAlike,blocks_zeros,blocks_zeros,height_replicate,height_replicate]
  exact ⟨rfl,rfl⟩

theorem zeros_same_root (H : Bytes → Digest) : merkleRoot H (zeros 3) = merkleRoot H (zeros 4) :=
  padded_same_root (zeros_ne_nil (by omega)) (zeros_ne_nil (by omega)) padded_zeros

/-- A block of zeros appended to three. -/
theorem tamper_evident_zeros :
    Collision lengthDigest ((allocated lengthDigest (zeros 3)).hashed ++ (allocated lengthDigest (zeros 4)).hashed) ∨
      PaddedAlike (zeros 3) (zeros 4) ∨ LeafAsNode lengthDigest (zeros 3) (zeros 4) ∨
      LeafAsNode lengthDigest (zeros 4) (zeros 3) :=
  tamper_evident_different_counts (recorded_allocated _ _) (recorded_allocated _ _)
    (by rw [blocks_zeros,blocks_zeros,List.length_replicate,List.length_replicate]; decide)
    (allocated_outhex (zeros_same_root _))

/-- The digests that are hashed as a pair for two blocks of zeros. -/
def zeroPair (H : Bytes → Digest) : Bytes := concat (H zeroBlock,H zeroBlock)

/-- The strings hashed for two to four blocks of zeros: the block, its pair, and the pair of pairs. -/
theorem zeros_hashed (H : Bytes → Digest) {n : Nat} (size : n = 2 ∨ n = 3 ∨ n = 4) {x : Bytes}
    (member : x ∈ hashedStrings H (zeros n)) :
    x = zeroBlock ∨ x = zeroPair H ∨ x = concat (H (zeroPair H),H (zeroPair H)) := by
  have present : zeros n ≠ [] := zeros_ne_nil (by omega)
  rw [hashedStrings,if_neg present,blocks_zeros,height_replicate,List.map_replicate] at member
  have two : Nat.clog 2 2 = 1 := rfl
  have three : Nat.clog 2 3 = 2 := rfl
  have four : Nat.clog 2 4 = 2 := rfl
  rcases size with rfl | rfl | rfl <;>
  · simp [two,three,four,strings,level,pairs,List.replicate,zeroPair] at member ⊢
    tauto

theorem lengthDigest_zero (s : Bytes) : (lengthDigest s)[0] = UInt8.ofNat (s.length / 256) := by
  rw [lengthDigest,Vector.getElem_ofFn]
  rfl

theorem lengthDigest_two (s : Bytes) : (lengthDigest s)[2] = s.headD 0 := by
  rw [lengthDigest,Vector.getElem_ofFn]
  rfl

theorem lengthDigest_block : (lengthDigest zeroBlock)[0] = 16 := by
  rw [lengthDigest_zero,zeroBlock,List.length_replicate]
  rfl

theorem lengthDigest_concat (p : Digest × Digest) :
    (lengthDigest (concat p))[0] = 0 ∧ (lengthDigest (concat p))[2] = p.1[0] := by
  rw [lengthDigest_zero,lengthDigest_two,concat_length]
  exact ⟨rfl,by simp [concat,List.headD_eq_head?_getD,List.head?_eq_getElem?]⟩

/-- The strings hashed for blocks of zeros have different digests. -/
theorem zeros_distinct {hashed : List Bytes}
    (all : ∀ x ∈ hashed, x = zeroBlock ∨ x = zeroPair lengthDigest ∨
      x = concat (lengthDigest (zeroPair lengthDigest),lengthDigest (zeroPair lengthDigest))) :
    ¬ Collision lengthDigest hashed := by
  rintro ⟨x,first,y,second,different,same⟩
  have lengths := congrArg (fun d : Digest => d[0]) same
  have heads := congrArg (fun d : Digest => d[2]) same
  rcases all x first with rfl | rfl | rfl <;> rcases all y second with rfl | rfl | rfl <;>
    simp [lengthDigest_block,lengthDigest_concat,zeroPair] at different lengths heads

/-- Files of different numbers of blocks with one recorded root and no collision. -/
def Unnoticed (H : Bytes → Digest) (content content' : Bytes) : Prop :=
  ∃ o o' : Outcome, Recorded H content o ∧ Recorded H content' o' ∧
    (blocks content).length ≠ (blocks content').length ∧ o.outhex = o'.outhex ∧ ¬ Collision H (o.hashed ++ o'.hashed)

/-- Appending a block of zeros to three goes unnoticed, and so does replacing two blocks
    of zeros by the 64 bytes of their digests. -/
theorem appended_block_unnoticed : Unnoticed lengthDigest (zeros 3) (zeros 4) ∧
    Unnoticed lengthDigest (zeros 2) (zeroPair lengthDigest) := by
  have length : (zeroPair lengthDigest).length = 64 := concat_length _
  have present : zeroPair lengthDigest ≠ [] := List.ne_nil_of_length_pos (by omega)
  have pair : blocks (zeroPair lengthDigest) = [zeroPair lengthDigest] := blocks_small present (by omega)
  refine ⟨⟨_,_,recorded_allocated _ _,recorded_allocated _ _,?_,allocated_outhex (zeros_same_root _),?_⟩,
    ⟨_,_,recorded_allocated _ _,recorded_allocated _ _,?_,allocated_outhex ?_,?_⟩⟩
  · rw [blocks_zeros,blocks_zeros,List.length_replicate,List.length_replicate]
    decide
  · rw [(recorded_allocated _ _).eq,(recorded_allocated _ _).eq]
    refine zeros_distinct ?_
    intro x member
    rcases List.mem_append.mp member with first | second
    · exact zeros_hashed _ (.inr (.inl rfl)) first
    · exact zeros_hashed _ (.inr (.inr rfl)) second
  · rw [blocks_zeros,pair]
    decide
  · simp [merkleRoot,blocks_zeros,pair,root,level,pairs,List.replicate]
    rfl
  · rw [(recorded_allocated _ _).eq,(recorded_allocated _ _).eq]
    refine zeros_distinct ?_
    intro x member
    rcases List.mem_append.mp member with first | second
    · exact zeros_hashed _ (.inl rfl) first
    · rw [hashedStrings,if_neg present,pair] at second
      simp [height,strings] at second
      exact .inr (.inl second)

end Nulleye.MerkleTamper
