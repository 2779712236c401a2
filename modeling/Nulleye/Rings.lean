import Mathlib.Data.Int.ModEq
import Mathlib.Data.List.Basic
import Mathlib.Data.List.Rotate

/-!
Rings: a fixed number of cells where index `i` lives in cell `i % capacity`, the
queue that such a ring holds from an index on, and the bounded first-in first-out
queue that says what a ring buffer is for.
-/
namespace Nulleye.Rings

variable {α : Type*}

/-- Indices less than one lap apart live in different cells. -/
theorem slot_ne {c i j : Nat} (before : i < j) (lap : j < i + c) : i % c ≠ j % c := by
  intro same
  have divides : c ∣ j - i := (Nat.modEq_iff_dvd' before.le).mp same
  have := Nat.le_of_dvd (by omega) divides
  omega

section Cells
variable {c : Nat} (positive : 0 < c)

/-- The cell of an index. -/
def slot (i : Nat) : Fin c := ⟨i % c,Nat.mod_lt _ positive⟩

/-- The content of the cell of index `i`. -/
def load (cells : Vector α c) (i : Nat) : α := cells[slot positive i]

/-- The cells after index `i` got the content `x`. -/
def store (cells : Vector α c) (i : Nat) (x : α) : Vector α c := cells.set (slot positive i) x

@[simp] theorem load_store_self (cells : Vector α c) (i : Nat) (x : α) :
    load positive (store positive cells i x) i = x := by
  simp [load,store]

theorem load_store_of_slot_ne (cells : Vector α c) {i j : Nat} (x : α) (apart : i % c ≠ j % c) :
    load positive (store positive cells i x) j = load positive cells j := by
  simp [load,store,slot,apart]

/-- Storing leaves every other index of the same lap alone. -/
theorem load_store_of_lap (cells : Vector α c) {i j : Nat} (x : α) (other : i ≠ j) (after : i < j + c)
    (before : j < i + c) : load positive (store positive cells i x) j = load positive cells j := by
  apply load_store_of_slot_ne
  rcases Nat.lt_or_gt_of_ne other with first | first
  · exact slot_ne first before
  · exact (slot_ne first after).symm

/-- From index `start` on, the cells hold the queue `q`, oldest first. -/
def Holds (cells : Vector α c) (start : Nat) (q : List α) : Prop :=
  ∀ k x, q[k]? = some x → load positive cells (start + k) = x

theorem holds_nil (cells : Vector α c) (start : Nat) : Holds positive cells start [] := by
  intro k x found
  simp at found

/-- An element of a sequence with one more at its end. -/
theorem found_append {q : List α} {x y : α} {k : Nat} (found : (q ++ [x])[k]? = some y) :
    k < q.length ∧ q[k]? = some y ∨ k = q.length ∧ x = y := by
  rcases Nat.lt_trichotomy k q.length with inside | last | outside
  · rw [List.getElem?_append_left inside] at found
    exact .inl ⟨inside,found⟩
  · subst last
    simp only [List.getElem?_concat_length,Option.some.injEq] at found
    exact .inr ⟨rfl,found⟩
  · rw [List.getElem?_eq_none (by simp; omega)] at found
    cases found

/-- A queue with room grows at its end by the content stored at the next index. -/
theorem Holds.push {cells : Vector α c} {start : Nat} {q : List α} (holds : Holds positive cells start q)
    (room : q.length < c) (x : α) : Holds positive (store positive cells (start + q.length) x) start (q ++ [x]) := by
  intro k y found
  rcases found_append found with ⟨inside,found⟩ | ⟨rfl,rfl⟩
  · rw [load_store_of_lap positive cells x (by omega) (by omega) (by omega)]
    exact holds k y found
  · rw [load_store_self]

/-- The first element of a queue is the content of its first index. -/
theorem Holds.front {cells : Vector α c} {start : Nat} {x : α} {q : List α}
    (holds : Holds positive cells start (x :: q)) : load positive cells start = x := holds 0 x rfl

/-- Without its first element the queue starts one index later. -/
theorem Holds.pop {cells : Vector α c} {start : Nat} {x : α} {q : List α}
    (holds : Holds positive cells start (x :: q)) : Holds positive cells (start + 1) q := by
  intro k y found
  have := holds (k + 1) y (by simpa using found)
  rwa [show start + 1 + k = start + (k + 1) by omega]

/-- The cells hold the latest elements of a sequence, each at its index. -/
def Latest (cells : Vector α c) (seq : List α) : Prop :=
  ∀ i x, seq[i]? = some x → seq.length ≤ i + c → load positive cells i = x

/-- The element stored at the next index displaces only one that is a lap old. -/
theorem Latest.store {cells : Vector α c} {seq : List α} (latest : Latest positive cells seq) (x : α) :
    Latest positive (store positive cells seq.length x) (seq ++ [x]) := by
  intro i y found recent
  simp only [List.length_append,List.length_singleton] at recent
  rcases found_append found with ⟨inside,found⟩ | ⟨rfl,rfl⟩
  · rw [load_store_of_lap positive cells x (by omega) (by omega) (by omega)]
    exact latest i y found (by omega)
  · rw [load_store_self]

theorem load_lap (cells : Vector α c) (i : Nat) : load positive cells (i + c) = load positive cells i := by simp [load,slot]

/-- The cells from that of index `start` on, around the ring. -/
theorem rotate_get (cells : Vector α c) (start : Nat) {k : Nat} (inside : k < c) :
    (cells.toList.rotate start)[k]? = some (load positive cells (start + k)) := by
  have long : k < (cells.toList.rotate start).length := by simpa using inside
  rw [List.getElem?_eq_getElem long,List.getElem_rotate]
  simp [load,slot,Nat.add_comm]

/-- From that of the next index on, the cells are those that were never filled and then the latest elements. -/
theorem Latest.around {cells : Vector α c} {seq : List α} (latest : Latest positive cells seq) {blank : α}
    (unfilled : ∀ i,seq.length ≤ i → i < c → load positive cells i = blank) :
    cells.toList.rotate seq.length = List.replicate (c - seq.length) blank ++ seq.drop (seq.length - c) := by
  apply List.ext_getElem?
  intro k
  rcases Nat.lt_or_ge k (c - seq.length) with front | behind
  · rw [rotate_get positive cells _ (by omega),unfilled _ (by omega) (by omega),List.getElem?_append_left (by simpa using front),
      List.getElem?_replicate_of_lt front]
  · rw [List.getElem?_append_right (by simpa using behind),List.length_replicate,List.getElem?_drop]
    rcases Nat.lt_or_ge k c with inside | outside
    · -- One lap before its cell is met again, the element was stored.
      have index : seq.length - c + (k - (c - seq.length)) < seq.length := by omega
      have lap : seq.length + k = seq.length - c + (k - (c - seq.length)) + c := by omega
      rw [rotate_get positive cells _ inside,lap,load_lap,List.getElem?_eq_getElem index]
      exact congrArg some (latest _ _ (List.getElem?_eq_getElem index) (by omega))
    · rw [List.getElem?_eq_none (by simpa using outside),List.getElem?_eq_none (by omega)]

/-- From that of the next index on, without those that were never filled, the cells are the latest elements. -/
theorem Latest.recent {cells : Vector α c} {seq : List α} (latest : Latest positive cells seq) :
    (cells.toList.rotate seq.length).drop (c - seq.length) = seq.drop (seq.length - c) := by
  apply List.ext_getElem?
  intro k
  rw [List.getElem?_drop,List.getElem?_drop]
  rcases Nat.lt_or_ge (c - seq.length + k) c with inside | outside
  · have index : seq.length - c + k < seq.length := by omega
    have lap : seq.length + (c - seq.length + k) = seq.length - c + k + c := by omega
    rw [rotate_get positive cells _ inside,lap,load_lap,List.getElem?_eq_getElem index]
    exact congrArg some (latest _ _ (List.getElem?_eq_getElem index) (by omega))
  · rw [List.getElem?_eq_none (by simpa using outside),List.getElem?_eq_none (by omega)]

end Cells

/-! ### The bounded queue -/

/-- Adding to a queue of at most `c` elements: the queue after it, and whether there was room. -/
def push (c : Nat) (q : List α) (x : α) : List α × Bool := if q.length < c then (q ++ [x],true) else (q,false)

/-- Taking from a queue: the queue after it, and the oldest element if there was one. -/
def pop : List α → List α × Option α
  | [] => ([],none)
  | x :: q => (q,some x)

theorem push_bounded {c : Nat} {q : List α} (bounded : q.length ≤ c) (x : α) : (push c q x).1.length ≤ c := by
  unfold push
  split
  · simp; omega
  · exact bounded

theorem pop_bounded {c : Nat} {q : List α} (bounded : q.length ≤ c) : (pop q).1.length ≤ c := by
  cases q with
  | nil => exact bounded
  | cons x q => simp [pop] at bounded ⊢; omega

end Nulleye.Rings
