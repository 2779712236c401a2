import Mathlib.Algebra.Ring.Nat

/-!
Values copied into and out of bytes, as a library: a codec writes every value in the
same number of bytes and reads back what it wrote, and reads nothing behind them.
Pairs and arrays of values are written one after the other.
-/
namespace Nulleye.Codecs

variable {α β : Type}

/-- Values of one size; `none` is a read outside the memory. -/
structure Codec (α : Type) where
  size : Nat
  encode : α → List UInt8
  decode : List UInt8 → Option α
  encode_length : ∀ a,(encode a).length = size
  decode_encode : ∀ a rest,decode (encode a ++ rest) = some a
  decode_isSome : ∀ mem,(decode mem).isSome ↔ size ≤ mem.length

/-! ### Numbers -/

/-- The `n` bytes of a number, least significant first. -/
def leBytes : Nat → Nat → List UInt8
  | 0,_ => []
  | n + 1,v => UInt8.ofNat v :: leBytes n (v / 256)

/-- The number of these bytes. -/
def leValue : List UInt8 → Nat
  | [] => 0
  | b :: rest => b.toNat + 256 * leValue rest

theorem leBytes_length (n v : Nat) : (leBytes n v).length = n := by
  induction n generalizing v with
  | zero => rfl
  | succ n ih => simp [leBytes,ih]

theorem leValue_leBytes {n v : Nat} (fits : v < 256 ^ n) : leValue (leBytes n v) = v := by
  induction n generalizing v with
  | zero => simpa [leBytes,leValue,eq_comm] using fits
  | succ n ih =>
    have rest : leValue (leBytes n (v / 256)) = v / 256 := by
      apply ih
      rw [Nat.pow_succ] at fits
      omega
    have byte : (UInt8.ofNat v).toNat = v % 256 := UInt8.toNat_ofNat'
    simp only [leBytes,leValue,rest,byte]
    omega

/-- An `int` in memory. -/
def int32 : Codec Int32 where
  size := 4
  encode x := leBytes 4 x.toUInt32.toNat
  decode mem := if mem.length < 4 then none else some (UInt32.ofNat (leValue (mem.take 4))).toInt32
  encode_length x := leBytes_length 4 _
  decode_encode x rest := by
    have length := leBytes_length 4 x.toUInt32.toNat
    have value : leValue (leBytes 4 x.toUInt32.toNat) = x.toUInt32.toNat :=
      leValue_leBytes (Nat.lt_of_lt_of_le x.toUInt32.toNat_lt (by decide))
    rw [if_neg (by simp [length]),List.take_left' length,value,UInt32.ofNat_toNat]
    rfl
  decode_isSome mem := by
    by_cases short : mem.length < 4
    · simp [short]
    · simp [short,Nat.not_lt.mp short]

/-- A number of `n` bytes in memory, least significant first. -/
def number (n : Nat) (value : α → Nat) (of : Nat → α) (fits : ∀ a,value a < 256 ^ n) (back : ∀ a,of (value a) = a) : Codec α where
  size := n
  encode a := leBytes n (value a)
  decode mem := if mem.length < n then none else some (of (leValue (mem.take n)))
  encode_length a := leBytes_length n _
  decode_encode a rest := by
    have length := leBytes_length n (value a)
    rw [if_neg (by simp [length]),List.take_left' length,leValue_leBytes (fits a),back]
  decode_isSome mem := by
    by_cases short : mem.length < n
    · simp [short]
    · simp [short,Nat.not_lt.mp short]

def uint32 : Codec UInt32 := number 4 UInt32.toNat UInt32.ofNat UInt32.toNat_lt fun _ => UInt32.ofNat_toNat

def uint64 : Codec UInt64 := number 8 UInt64.toNat UInt64.ofNat UInt64.toNat_lt fun _ => UInt64.ofNat_toNat

/-- An array of `n` bytes. -/
def byteArray (n : Nat) : Codec (Vector UInt8 n) where
  size := n
  encode := Vector.toList
  decode mem := if inside : n ≤ mem.length then some ⟨(mem.take n).toArray,by simp [inside]⟩ else none
  encode_length _ := Vector.length_toList
  decode_encode bytes rest := by
    have inside : n ≤ (bytes.toList ++ rest).length := by simp
    rw [dif_pos inside]
    congr 1
    apply Vector.toList_inj.mp
    simp [Vector.toList]
  decode_isSome mem := by
    by_cases inside : n ≤ mem.length <;> simp [inside]

/-! ### Pairs and arrays -/

/-- One value behind the other. -/
def Codec.pair (a : Codec α) (b : Codec β) : Codec (α × β) where
  size := a.size + b.size
  encode x := a.encode x.1 ++ b.encode x.2
  decode mem := do
    let x ← a.decode mem
    let y ← b.decode (mem.drop a.size)
    return (x,y)
  encode_length x := by rw [List.length_append,a.encode_length,b.encode_length]
  decode_encode x rest := by
    rw [List.append_assoc,a.decode_encode,List.drop_left' (a.encode_length x.1)]
    simp [b.decode_encode]
  decode_isSome mem := by
    have first := a.decode_isSome mem
    have second := b.decode_isSome (mem.drop a.size)
    rw [List.length_drop] at second
    cases read : a.decode mem with
    | none =>
      have short : ¬ a.size ≤ mem.length := by simpa [read] using first
      simp
      omega
    | some x =>
      have inside : a.size ≤ mem.length := by simpa [read] using first
      cases read' : b.decode (mem.drop a.size) <;> simp [read'] at second ⊢ <;> omega

/-- Different values have different bytes. -/
theorem encode_inj (c : Codec α) {x y : α} (same : c.encode x = c.encode y) : x = y := by
  have read := c.decode_encode x []
  rw [same,c.decode_encode y []] at read
  exact (Option.some.inj read).symm

/-- Values of another type that a value of this one stands for. -/
def Codec.via (c : Codec α) (f : β → α) (g : α → β) (back : ∀ b,g (f b) = b) : Codec β where
  size := c.size
  encode b := c.encode (f b)
  decode mem := (c.decode mem).map g
  encode_length b := c.encode_length (f b)
  decode_encode b rest := by rw [c.decode_encode,Option.map_some,back]
  decode_isSome mem := by rw [Option.isSome_map,c.decode_isSome]

/-- The bytes of an array. -/
def Codec.encodeAll (c : Codec α) (xs : List α) : List UInt8 := xs.flatMap c.encode

/-- Reading an array of `n` values. -/
def Codec.decodeAll (c : Codec α) : Nat → List UInt8 → Option (List α)
  | 0,_ => some []
  | n + 1,mem => do
    let x ← c.decode mem
    let xs ← c.decodeAll n (mem.drop c.size)
    return x :: xs

theorem encodeAll_length (c : Codec α) (xs : List α) : (c.encodeAll xs).length = xs.length * c.size := by
  induction xs with
  | nil => simp [Codec.encodeAll]
  | cons x xs ih =>
    rw [Codec.encodeAll,List.flatMap_cons,List.length_append,c.encode_length,List.length_cons,Nat.succ_mul,Nat.add_comm]
    exact congrArg (· + c.size) ih

/-- An array is read back as it was written. -/
theorem decodeAll_encodeAll (c : Codec α) (xs : List α) (rest : List UInt8) :
    c.decodeAll xs.length (c.encodeAll xs ++ rest) = some xs := by
  induction xs with
  | nil => rfl
  | cons x xs ih =>
    have whole : c.encodeAll (x :: xs) ++ rest = c.encode x ++ (c.encodeAll xs ++ rest) := by
      rw [Codec.encodeAll,List.flatMap_cons,List.append_assoc,Codec.encodeAll]
    rw [whole,List.length_cons,Codec.decodeAll,c.decode_encode,List.drop_left' (c.encode_length x),ih]
    rfl

/-- An array is read exactly if it lies inside the memory. -/
theorem decodeAll_isSome (c : Codec α) (n : Nat) (mem : List UInt8) :
    (c.decodeAll n mem).isSome ↔ n * c.size ≤ mem.length := by
  induction n generalizing mem with
  | zero => simp [Codec.decodeAll]
  | succ n ih =>
    have first := c.decode_isSome mem
    have rest := ih (mem.drop c.size)
    rw [List.length_drop] at rest
    rw [Codec.decodeAll,Nat.succ_mul]
    cases read : c.decode mem with
    | none =>
      have short : ¬ c.size ≤ mem.length := by simpa [read] using first
      simp
      omega
    | some x =>
      have inside : c.size ≤ mem.length := by simpa [read] using first
      cases read' : c.decodeAll n (mem.drop c.size) <;> simp [read'] at rest ⊢ <;> omega

theorem decodeAll_length {c : Codec α} {n : Nat} {mem : List UInt8} {xs : List α} (read : c.decodeAll n mem = some xs) :
    xs.length = n := by
  induction n generalizing mem xs with
  | zero =>
    cases read
    rfl
  | succ n ih =>
    obtain ⟨x,_,read⟩ := Option.bind_eq_some_iff.mp read
    obtain ⟨rest,found,read⟩ := Option.bind_eq_some_iff.mp read
    cases read
    rw [List.length_cons,ih found]

/-- Each value of an array is read at its own place. -/
theorem decodeAll_getElem {c : Codec α} {n : Nat} {mem : List UInt8} {xs : List α} (read : c.decodeAll n mem = some xs)
    {i : Nat} (inside : i < n) : c.decode (mem.drop (i * c.size)) = xs[i]? := by
  induction n generalizing mem xs i with
  | zero => omega
  | succ n ih =>
    obtain ⟨x,first,read⟩ := Option.bind_eq_some_iff.mp read
    obtain ⟨rest,found,read⟩ := Option.bind_eq_some_iff.mp read
    cases read
    cases i with
    | zero => simpa using first
    | succ i =>
      have later := @ih (mem.drop c.size) rest found i (by omega)
      rw [List.drop_drop] at later
      rw [Nat.succ_mul,Nat.add_comm,later,List.getElem?_cons_succ]

end Nulleye.Codecs
