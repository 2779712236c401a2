import Mathlib.Data.List.Range
import Nulleye.Consumers
import Nulleye.Decimals
import Nulleye.Rings
import Nulleye.Words

/-!
The history that the TUI shows. The consumer stores every event at the next index of a
ring and counts in an `int`, and both views read the last events back. They are shown
as they were consumed until the count leaves the range of the `int`.
-/
namespace Nulleye.TuiHistory
open Nulleye.CStrings Nulleye.Consumers Nulleye.Decimals Nulleye.Events Nulleye.Rings Nulleye.Words

/-- `g_events` and `g_ehead`. -/
structure Tui where
  gEvents : Vector NuleyeEvent 1024
  gEhead : Int32

def Tui.initial : Tui := ⟨.replicate 1024 zeroEvent,0⟩

/-- The index `i % MAX_EVENTS` into `g_events`; a remainder has the sign of `i`. -/
def position (i : Int) : Option (Fin 1024) :=
  if inside : 0 ≤ i.tmod 1024 then
    some ⟨(i.tmod 1024).toNat,by have := Int.tmod_lt_of_pos i (show 0 < 1024 by decide); omega⟩
  else none

/-- What `consumer` does with an event. -/
def Tui.consumer (ev : NuleyeEvent) (t : Tui) : Option Tui := do
  let p ← position t.gEhead.toInt
  let gEhead ← int (t.gEhead.toInt + 1)
  return ⟨t.gEvents.set p ev,gEhead⟩

/-- The events that `consumer` takes, one after the other. -/
def Tui.consumeAll : List NuleyeEvent → Tui → Option Tui
  | [],t => some t
  | ev :: evs,t => (t.consumer ev).bind (consumeAll evs)

/-! ### Drawing -/

/-- `%5u` and the like. -/
def padLeft (width : Nat) (s : Mem) : Mem := List.replicate (width - s.length) 32 ++ s

/-- `%-16s` and the like. -/
def padRight (width : Nat) (s : Mem) : Mem := s ++ List.replicate (width - s.length) 32

/-- What is printed for an event, its path padded to a width. -/
def eventLine (width : Nat) (ev : NuleyeEvent) : Option Mem := do
  let comm ← cstr (ev.comm.toList ++ pathAt ev)
  let path ← if ev.pathless then some (ascii "-") else cstr (pathAt ev)
  return padLeft 5 (decimal ev.pid.toNat) ++ ascii " " ++ padRight 16 comm ++ ascii " " ++ padRight width path

/-- The loop from index `i` and row `row` on: the events drawn, each with its row. `++i` does not overflow below `g_ehead`. -/
def drawLoop (t : Tui) (limit : Option Int32) (i : Int) (row : Nat) : Option (List (NuleyeEvent × Nat)) :=
  if i < t.gEhead.toInt ∧ limit.all fun l => (row : Int) < l.toInt then do
    let p ← position i
    let rest ← drawLoop t limit (i + 1) (row + 1)
    return (t.gEvents[p],row) :: rest
  else some []
termination_by (t.gEhead.toInt - i).toNat

/-- `g_ehead > shown ? g_ehead - shown : 0`. -/
def Tui.start (shown : Int32) (t : Tui) : Option Int32 :=
  if t.gEhead > shown then int (t.gEhead.toInt - shown.toInt) else some 0

/-- `draw_main_fallback`: what is written to `out`. -/
def drawMainFallback (t : Tui) : Option Mem := do
  let start ← t.start 20
  let drawn ← drawLoop t none start.toInt 0
  let lines ← drawn.mapM fun d => (eventLine 0 d.1).map (· ++ [10])
  return ascii "--- NullEye events (last 20) ---\n" ++ lines.flatten

/-- `draw_main`, for a window of `rows` rows: the texts printed, each with its row. -/
def drawMain (rows : Int32) (t : Tui) : Option (List (Mem × Nat)) := do
  let shown ← int (rows.toInt - 3)
  let start ← t.start shown
  let limit ← int (rows.toInt - 1)
  let drawn ← drawLoop t (some limit) start.toInt 1
  drawn.mapM fun d => (eventLine 30 d.1).map fun text => (text,d.2)

/-! ### The history -/

/-- The events up to now, the last ones in the ring, and their number. -/
structure Tracks (evs : List NuleyeEvent) (t : Tui) : Prop where
  latest : Latest (show 0 < 1024 by decide) t.gEvents evs
  count : t.gEhead.toInt = evs.length

theorem position_eq (i : Nat) : position i = some (slot (show 0 < 1024 by decide) i) := by
  have value : (i : Int).tmod 1024 = (i % 1024 : Nat) := (Int.ofNat_tmod i 1024).symm
  have inside : 0 ≤ (i : Int).tmod 1024 := by omega
  rw [position,dif_pos inside]
  exact congrArg some (Fin.ext (by simp only [value,slot,Int.toNat_natCast]))

theorem tracks_initial : Tracks [] Tui.initial := ⟨fun _ _ found => by simp at found,rfl⟩

theorem Tracks.consumer {evs : List NuleyeEvent} {t : Tui} (tracks : Tracks evs t) (ev : NuleyeEvent) :
    if evs.length + 1 < 2 ^ 31 then ∃ u,t.consumer ev = some u ∧ Tracks (evs ++ [ev]) u else t.consumer ev = none := by
  obtain ⟨latest,count⟩ := tracks
  unfold Tui.consumer
  rw [count,position_eq]
  by_cases few : evs.length + 1 < 2 ^ 31
  · obtain ⟨counted,value⟩ := @int_eq (evs.length + 1) (by omega) (by omega)
    rw [if_pos few,counted]
    exact ⟨_,rfl,latest.store _ ev,by rw [value]; simp⟩
  · rw [if_neg few,int,if_neg (by omega)]
    rfl

/-- The consumer gets through its events exactly as long as their number is an `int`. -/
theorem Tracks.consumeAll {before evs : List NuleyeEvent} {t : Tui} (tracks : Tracks before t) :
    if before.length + evs.length < 2 ^ 31 then ∃ u,t.consumeAll evs = some u ∧ Tracks (before ++ evs) u
    else evs ≠ [] → t.consumeAll evs = none := by
  induction evs generalizing before t with
  | nil =>
    split
    · exact ⟨t,rfl,by simpa using tracks⟩
    · exact fun some_event => absurd rfl some_event
  | cons ev evs ih =>
    have one := tracks.consumer ev
    have total : before.length + (ev :: evs).length = (before ++ [ev]).length + evs.length := by simp; omega
    by_cases few : before.length + 1 < 2 ^ 31
    · rw [if_pos few] at one
      obtain ⟨u,stored,next⟩ := one
      have rest := ih next
      rw [total,Tui.consumeAll,stored,Option.bind_some]
      split_ifs with all
      · rw [if_pos all] at rest
        simpa using rest
      · rw [if_neg all] at rest
        intro _
        cases evs with
        | nil => exact absurd few (by simpa using all)
        | cons => exact rest (List.cons_ne_nil _ _)
    · rw [if_neg few] at one
      rw [if_neg (by simp; omega)]
      intro _
      rw [Tui.consumeAll,one]
      rfl

/-- The loop draws the events from an index of the last lap on. -/
theorem Tracks.loop_draws {evs : List NuleyeEvent} {t : Tui} (tracks : Tracks evs t) {limit : Option Int32} {i row : Nat}
    (lap : evs.length ≤ i + 1024) (room : ∀ l ∈ limit,(row + (evs.length - i) : Nat) ≤ l.toInt) :
    drawLoop t limit i row = some ((evs.drop i).zipIdx row) := by
  obtain ⟨latest,count⟩ := tracks
  induction left : evs.length - i generalizing i row with
  | zero =>
    rw [drawLoop,if_neg (by omega),List.drop_eq_nil_of_le (by omega)]
    rfl
  | succ left ih =>
    have here : i < evs.length := by omega
    have below : (limit.all fun l => (row : Int) < l.toInt) = true := by
      cases limit with
      | none => rfl
      | some l =>
        have inside := room l rfl
        exact decide_eq_true (by omega)
    have content : t.gEvents[slot (show 0 < 1024 by decide) i] = evs[i] :=
      latest i evs[i] (List.getElem?_eq_getElem here) lap
    have rest : drawLoop t limit (i + 1) (row + 1) = some ((evs.drop (i + 1)).zipIdx (row + 1)) := by
      refine ih (i := i + 1) (by omega) ?_ (by omega)
      intro l found
      have := room l found
      omega
    rw [drawLoop,if_pos ⟨by omega,below⟩,position_eq,rest,List.drop_eq_getElem_cons here,List.zipIdx_cons,
      ← content]
    rfl

/-- The last events of a sequence, at most `k` of them. -/
def last (k : Nat) (evs : List NuleyeEvent) : List NuleyeEvent := evs.drop (evs.length - k)

/-- A view that has room for its events draws the last ones, from the row on that it starts with. -/
theorem Tracks.drawn {evs : List NuleyeEvent} {t : Tui} (tracks : Tracks evs t) (shown : Int32) (limit : Option Int32)
    (row : Nat) (some_shown : 0 ≤ shown.toInt) (few : shown.toInt ≤ 1024) (room : ∀ l ∈ limit,row + shown.toInt ≤ l.toInt) :
    ∃ start,t.start shown = some start ∧ drawLoop t limit start.toInt row = some ((last shown.toInt.toNat evs).zipIdx row) := by
  have found : ∃ start,t.start shown = some start ∧ start.toInt = (evs.length - shown.toInt.toNat : Nat) := by
    have bound := t.gEhead.toInt_lt
    have count := tracks.count
    unfold Tui.start
    split_ifs with more
    · rw [gt_iff_lt,Int32.lt_iff_toInt_lt] at more
      obtain ⟨found,value⟩ := @int_eq (t.gEhead.toInt - shown.toInt) (by omega) (by omega)
      exact ⟨_,found,by omega⟩
    · rw [gt_iff_lt,Int32.lt_iff_toInt_lt] at more
      exact ⟨0,rfl,by rw [Int32.toInt_zero]; omega⟩
  obtain ⟨start,found,value⟩ := found
  refine ⟨start,found,?_⟩
  rw [value]
  apply tracks.loop_draws
  · omega
  · intro l bounded
    have := room l bounded
    omega

/-- What is printed of the events alone does not depend on their rows. -/
theorem mapM_rows {β : Type} (print : NuleyeEvent → Option β) (row : Nat) (evs : List NuleyeEvent) :
    (evs.zipIdx row).mapM (fun d => print d.1) = evs.mapM print := by
  conv_rhs => rw [← List.zipIdx_map_fst row evs,List.mapM_map]
  rfl

/-- What the program shows after the consumer took the events `evs`. -/
structure Shown (evs : List NuleyeEvent) (t : Tui) : Prop where
  /-- The next event, and every event that is drawn, has an index into the array. -/
  inside : (position t.gEhead.toInt).isSome ∧
    ∀ shown start i,t.start shown = some start → start.toInt ≤ i → i < t.gEhead.toInt → (position i).isSome
  fallback : drawMainFallback t = ((last 20 evs).mapM fun ev => (eventLine 0 ev).map (· ++ [10])).map fun lines =>
    ascii "--- NullEye events (last 20) ---\n" ++ lines.flatten
  main : ∀ rows : Int32,3 < rows.toInt → rows.toInt ≤ 1026 →
    drawMain rows t = ((last (rows.toInt - 3).toNat evs).zipIdx 1).mapM fun d => (eventLine 30 d.1).map fun text => (text,d.2)

theorem Tracks.shown {evs : List NuleyeEvent} {t : Tui} (tracks : Tracks evs t) : Shown evs t := by
  refine ⟨⟨?_,?_⟩,?_,?_⟩
  · rw [tracks.count,position_eq]
    rfl
  · intro shown start i found from_start _
    have nonneg : 0 ≤ start.toInt := by
      unfold Tui.start at found
      split_ifs at found with more
      · rw [gt_iff_lt,Int32.lt_iff_toInt_lt] at more
        unfold int at found
        split_ifs at found with range
        rw [← Option.some.inj found,Int32.toInt_ofInt_of_le range.1 range.2]
        omega
      · rw [← Option.some.inj found,Int32.toInt_zero]
    have index := position_eq i.toNat
    rw [Int.toNat_of_nonneg (by omega)] at index
    rw [index]
    rfl
  · obtain ⟨start,found,drawn⟩ := tracks.drawn 20 none 0 (by decide) (by decide) (by simp)
    have twenty : (20 : Int32).toInt.toNat = 20 := by decide
    rw [drawMainFallback,found,Option.bind_eq_bind,Option.bind_some,drawn,twenty,Option.bind_eq_bind,Option.bind_some,
      mapM_rows fun ev => (eventLine 0 ev).map (· ++ [10]),Option.map_eq_bind]
    rfl
  · intro rows more few
    obtain ⟨shown,value⟩ := @int_eq (rows.toInt - 3) (by omega) (by omega)
    obtain ⟨limit,border⟩ := @int_eq (rows.toInt - 1) (by omega) (by omega)
    have room : ∀ l ∈ some (Int32.ofInt (rows.toInt - 1)),(1 : Nat) + (Int32.ofInt (rows.toInt - 3)).toInt ≤ l.toInt := by
      rintro l ⟨⟩
      omega
    obtain ⟨start,found,drawn⟩ := tracks.drawn _ _ _ (by omega) (by omega) room
    rw [value] at drawn
    rw [drawMain,shown,Option.bind_eq_bind,Option.bind_some,found,Option.bind_eq_bind,Option.bind_some,limit,
      Option.bind_some,drawn]
    rfl

/-- **The views show the events as they were consumed exactly as long as an `int` counts them.** -/
theorem history_shown (evs : List NuleyeEvent) :
    (∃ t,Tui.initial.consumeAll evs = some t ∧ Shown evs t) ↔ evs.length < 2 ^ 31 := by
  have run := @Tracks.consumeAll [] evs _ tracks_initial
  rw [List.length_nil,Nat.zero_add] at run
  constructor
  · rintro ⟨t,consumed,_⟩
    by_contra many
    rw [if_neg many] at run
    have nothing := run (by rintro rfl; exact many (by decide))
    rw [nothing] at consumed
    cases consumed
  · intro few
    rw [if_pos few] at run
    obtain ⟨t,consumed,tracks⟩ := run
    exact ⟨t,consumed,Tracks.shown tracks⟩

/-- With the event that counts to `INT_MAX + 1` the history is lost. -/
theorem history_overflow : ¬ ∀ evs : List NuleyeEvent,∃ t,Tui.initial.consumeAll evs = some t ∧ Shown evs t := by
  intro always
  have few := (history_shown _).mp (always (List.replicate (2 ^ 31) zeroEvent))
  rw [List.length_replicate] at few
  exact absurd few (Nat.lt_irrefl _)

/-! ### The consumer among the other loops -/

/-- The globals of the TUI among those of all loops. -/
def tuiOf (r : Records) : Tui := ⟨r.gEvents,Int32.ofInt r.gEhead⟩

/-- What the four loops leave for the views. -/
structure TracksRecords (done : List (Loop × NuleyeEvent)) (r : Records) : Prop where
  count : r.gEhead = (SharedQueues.share .tui done).length
  few : r.gEhead < 2 ^ 31
  latest : Latest (show 0 < 1024 by decide) r.gEvents (SharedQueues.share .tui done)

theorem TracksRecords.tracks {done : List (Loop × NuleyeEvent)} {r : Records} (tracks : TracksRecords done r) :
    Tracks (SharedQueues.share .tui done) (tuiOf r) := by
  have few := tracks.few
  refine ⟨tracks.latest,?_⟩
  rw [tuiOf,(@int_eq r.gEhead (by omega) (by omega)).2,tracks.count]

/-- The other loops leave the ring alone. -/
theorem body_ring {hour : UInt64 → Int32} {l : Loop} {random : Random} {ev : NuleyeEvent} {r r' : Records} (other : l ≠ .tui)
    (ran : body hour l random ev r = some r') : r'.gEvents = r.gEvents ∧ r'.gEhead = r.gEhead := by
  cases l with
  | ai =>
    obtain ⟨_,_,ring⟩ := aiThread_records ran
    exact ring
  | proc =>
    cases ran
    unfold procThread
    split_ifs <;> exact ⟨rfl,rfl⟩
  | net =>
    cases ran
    unfold netThread
    split_ifs <;> exact ⟨rfl,rfl⟩
  | tui => exact absurd rfl other

theorem body_tracks {hour : UInt64 → Int32} {done : List (Loop × NuleyeEvent)} {l : Loop} {random : Random}
    {ev : NuleyeEvent} {r r' : Records} (tracks : TracksRecords done r) (ran : body hour l random ev r = some r') :
    TracksRecords (done ++ [(l,ev)]) r' := by
  obtain ⟨count,few,latest⟩ := tracks
  by_cases other : l = .tui
  · subst other
    have all : SharedQueues.share .tui (done ++ [(Loop.tui,ev)]) = SharedQueues.share .tui done ++ [ev] := by
      simp [SharedQueues.share]
    simp only [body,Consumers.consumer] at ran
    split_ifs at ran with next
    obtain rfl := Option.some.inj ran
    have stored := latest.store _ ev
    rw [← count] at stored
    exact ⟨by simp [count],next,all ▸ stored⟩
  · have none_more : SharedQueues.share .tui (done ++ [(l,ev)]) = SharedQueues.share .tui done := by
      simp [SharedQueues.share,other]
    obtain ⟨same_events,same_count⟩ := body_ring other ran
    constructor
    · rw [same_count,none_more,count]
    · rw [same_count]
      exact few
    · rw [same_events,none_more]
      exact latest

/-- After every run of the loops the views show the events that the TUI took for itself. -/
theorem run_shown {capacity : Nat} {hour : UInt64 → Int32} {model : Models.Iforest}
    {trace : List (SharedQueues.Label NuleyeEvent Loop)} {t : SharedQueues.World NuleyeEvent Loop Records}
    (run : Runs.Run (steps capacity hour) Runs.free (initial model) trace t) :
    Shown (SharedQueues.share .tui (SharedQueues.handled trace)) (tuiOf t.records) := by
  have before : TracksRecords [] (initial model).records := ⟨rfl,show 0 < 2 ^ 31 by decide,tracks_initial.latest⟩
  have after : TracksRecords (SharedQueues.handled trace) t.records :=
    SharedQueues.records_invariant before (fun _ _ _ _ _ _ tracks ran => body_tracks tracks ran) run
  exact after.tracks.shown

end Nulleye.TuiHistory
