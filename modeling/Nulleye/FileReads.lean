import Nulleye.MerkleTamper

/-!
Reading a file with `fread` until a call delivers nothing. A read may fail after any number
of bytes; `fread` then delivers what it has, and the loop takes a call that delivers nothing
for the end of the file.
-/
namespace Nulleye.FileReads
open Nulleye.MerkleRoot Nulleye.MerkleTamper

/-- `fread(buf, 1, 4096, f)` where `left` is left of the file: the bytes delivered and the faults that are left.
    The faults say after how many bytes more the next read fails. -/
def fread (faults : List Nat) (left : Bytes) : Bytes × List Nat :=
  match faults with
  | [] => (left.take 4096,[])
  | k :: later =>
    if k < (left.take 4096).length then (left.take k,later)
    else (left.take 4096,(k - (left.take 4096).length) :: later)

/-- What a call delivers is the beginning of what is left. -/
theorem fread_eq (faults : List Nat) (left : Bytes) : (fread faults left).1 = left.take (fread faults left).1.length := by
  have whole : left.take 4096 = left.take (left.take 4096).length := by simp
  unfold fread
  split
  · exact whole
  · rename_i k later
    split
    · rename_i short
      rw [List.length_take] at short
      simp [List.length_take,Nat.min_eq_left (show k ≤ left.length by omega)]
    · exact whole

/-- The results of the calls of a loop that ends with the first that delivers nothing. -/
def freads (faults : List Nat) (left : Bytes) : List Bytes :=
  let buf := fread faults left
  if 0 < buf.1.length then buf.1 :: freads buf.2 (left.drop buf.1.length) else []
termination_by left.length
decreasing_by
  have begins := congrArg List.length (fread_eq faults left)
  simp only [buf,List.length_take] at *
  rw [List.length_drop]
  omega

/-- The loop delivers the beginning of the file. -/
theorem freads_begin (faults : List Nat) (left : Bytes) : (freads faults left).flatten <+: left := by
  fun_induction freads faults left with
  | case1 faults left buf more ih =>
    obtain ⟨rest,whole⟩ := ih
    refine ⟨rest,?_⟩
    rw [List.flatten_cons,List.append_assoc,whole]
    have begins := fread_eq faults left
    calc buf.1 ++ left.drop buf.1.length = left.take buf.1.length ++ left.drop buf.1.length := congrArg (· ++ _) begins
      _ = left := List.take_append_drop _ _
  | case2 => exact List.nil_prefix

theorem freads_nonempty {faults : List Nat} {left buf : Bytes} (member : buf ∈ freads faults left) : buf ≠ [] := by
  fun_induction freads faults left with
  | case1 faults left first more ih =>
    rcases List.mem_cons.mp member with rfl | later
    · exact List.length_pos_iff.mp more
    · exact ih later
  | case2 => cases member

/-- Every call delivers a byte or more. -/
theorem freads_length (faults : List Nat) (left : Bytes) : (freads faults left).length ≤ left.length := by
  have counted : ∀ l : List Bytes,(∀ buf ∈ l,buf ≠ []) → l.length ≤ l.flatten.length := by
    intro l nonempty
    induction l with
    | nil => exact Nat.zero_le _
    | cons buf rest ih =>
      have first := List.length_pos_iff.mpr (nonempty buf (by simp))
      have later := ih fun buf member => nonempty buf (by simp [member])
      simp only [List.length_cons,List.flatten_cons,List.length_append]
      omega
  exact (counted _ fun _ => freads_nonempty).trans (freads_begin faults left).length_le

/-- Without faults the calls deliver the blocks of the file. -/
theorem freads_blocks (left : Bytes) : freads [] left = blocks left := by
  fun_induction blocks left with
  | case1 => simp [freads,fread]
  | case2 content present ih =>
    have more := List.length_pos_iff.mpr present
    have delivered : fread [] content = (content.take 4096,[]) := rfl
    have some_byte : 0 < (content.take 4096).length := by rw [List.length_take]; omega
    have rest : content.drop (content.take 4096).length = content.drop 4096 := by
      rw [List.length_take]
      rcases Nat.le_total 4096 content.length with long | short
      · rw [Nat.min_eq_left long]
      · rw [Nat.min_eq_right short,List.drop_length,List.drop_eq_nil_of_le short]
    rw [freads,delivered]
    dsimp only
    rw [if_pos some_byte,rest,ih]

end Nulleye.FileReads
