import Nulleye.Consumers
import Nulleye.FileRecords
import Nulleye.KernelEvents

/-!
The features of published events. Both producers end the strings of an event inside its
arrays, so the features can always be extracted; they are what they are meant to be as
long as the user id is an `int` and the time is in nanoseconds since the epoch, which
neither producer stores.
-/
namespace Nulleye.EventFeatures
open Nulleye.CStrings Nulleye.Consumers Nulleye.Events Nulleye.FileRecords Nulleye.KernelEvents Nulleye.MerkleRoot

/-- The strings of an event end inside its arrays. -/
structure Ended (ev : NuleyeEvent) : Prop where
  comm : 0 ∈ ev.comm.toList
  path : 0 ∈ ev.path.toList

/-- `ev` is what a call of `file_cb` hands to `event_bus_publish`. -/
def FilePublishes (H : Bytes → Digest) (path : Mem) (node : Node) (r : Results) (l : Locals) (w : World) (ev : NuleyeEvent) : Prop :=
  0 ∉ path ∧ (fileCb H path node r l w).published = w.published ++ [ev]

/-- The events that `file_cb` and `handle_rb_event` publish; the kernel terminates a file name. -/
inductive Produced : NuleyeEvent → Prop where
  | file {H : Bytes → Digest} {path : Mem} {node : Node} {r : Results} {l : Locals} {w : World} {ev : NuleyeEvent} :
    FilePublishes H path node r l w ev → Produced ev
  | kernel {e : BpfEvent} {behind : Mem} {ev : NuleyeEvent} : 0 ∈ e.filename.toList → rbEvent e behind = some ev → Produced ev

/-! ### Strings -/

theorem text_length {mem : Mem} (ended : 0 ∈ mem) : (text mem).length < mem.length := by
  obtain ⟨rest,split⟩ := text_split ended
  have := congrArg List.length split
  simp only [List.length_append,List.length_cons] at this
  omega

theorem strncpy_length {n : Nat} {mem bytes : Mem} (copied : strncpy n mem = some bytes) : bytes.length = n := by
  induction n generalizing mem bytes with
  | zero =>
    cases mem <;> simp [strncpy] at copied <;> simp [copied]
  | succ n ih =>
    cases mem with
    | nil => simp [strncpy] at copied
    | cons b rest =>
      simp only [strncpy] at copied
      split_ifs at copied
      · cases copied
        simp
      · obtain ⟨tail,found,rfl⟩ := Option.map_eq_some_iff.mp copied
        simp [ih found]

/-- A copy that leaves out the last byte of a zeroed array ends inside it. -/
theorem overwrite_ended {n : Nat} {bytes : Mem} (short : bytes.length < n) :
    0 ∈ (overwrite (Vector.replicate n (0 : UInt8)) bytes).toList := by
  rw [overwrite_toList _ (by omega),Vector.toList_replicate,List.drop_replicate]
  exact List.mem_append_right _ (List.mem_replicate.mpr ⟨by omega,rfl⟩)

theorem rbEvent_ended {e : BpfEvent} {behind : Mem} {ev : NuleyeEvent} (built : rbEvent e behind = some ev) : Ended ev := by
  obtain ⟨comm,comm_copied,built⟩ := Option.bind_eq_some_iff.mp built
  obtain ⟨path,path_copied,built⟩ := Option.bind_eq_some_iff.mp built
  cases built
  constructor
  · exact overwrite_ended (by rw [strncpy_length comm_copied]; decide)
  · exact overwrite_ended (by rw [strncpy_length path_copied]; decide)

/-- What a call of `file_cb` publishes, if the file can be opened. -/
theorem fileCb_published (H : Bytes → Digest) (path : Mem) (node : Node) (r : Results) (l : Locals) (w : World) :
    (fileCb H path node r l w).published =
      w.published ++ ((passedRow H path node r l).map fun row => fileEvent r.time path row.hash).toList := by
  unfold fileCb
  cases passedRow H path node r l with
  | none => simp
  | some row =>
    dsimp only [dbUpdateFileEntry]
    split_ifs <;> rfl

theorem FilePublishes.event {H : Bytes → Digest} {path : Mem} {node : Node} {r : Results} {l : Locals} {w : World}
    {ev : NuleyeEvent} (published : FilePublishes H path node r l w ev) : ∃ h,ev = fileEvent r.time path h := by
  obtain ⟨_,published⟩ := published
  rw [fileCb_published,List.append_cancel_left_eq] at published
  cases row : passedRow H path node r l with
  | none =>
    rw [row] at published
    cases published
  | some row' =>
    rw [row] at published
    exact ⟨row'.hash,(List.singleton_inj.mp published).symm⟩

theorem copied_ended {n : Nat} (positive : 0 < n) {s : Mem} (plain : 0 ∉ s) : 0 ∈ (copied n s).toList := by
  rw [copied,strncpy_terminated plain,Option.getD_some]
  exact overwrite_ended (by rw [padded_length]; omega)

theorem Produced.ended {ev : NuleyeEvent} (produced : Produced ev) : Ended ev := by
  cases produced with
  | file published =>
    obtain ⟨h,rfl⟩ := published.event
    constructor
    · exact List.mem_replicate.mpr ⟨by decide,rfl⟩
    · exact copied_ended (by decide) published.1
  | kernel _ built => exact rbEvent_ended built

/-! ### Features -/

/-- The features of an event whose strings end inside its arrays. -/
theorem Ended.features {ev : NuleyeEvent} (ended : Ended ev) (hour : UInt64 → Int32) : aiExtractFeatures hour ev =
    some [(ev.pid &&& 0xFFF).toInt32,(ev.ppid &&& 0xFFF).toInt32,ev.uid.toInt32,Int32.ofNat (text ev.comm.toList).length,
      Int32.ofNat (text ev.path.toList).length,hour (ev.ts / 1000000000)] := by
  obtain ⟨comm,comm_split⟩ := text_split ended.comm
  obtain ⟨path,path_split⟩ := text_split ended.path
  have comm_read : cstr (ev.comm.toList ++ pathAt ev) = some (text ev.comm.toList) := by
    rw [comm_split,List.append_assoc,List.cons_append,cstr_terminated (zero_not_mem_text _),← comm_split]
  have path_read : cstr (pathAt ev) = some (text ev.path.toList) := by
    rw [pathAt,path_split,List.append_assoc,List.append_assoc,List.cons_append,cstr_terminated (zero_not_mem_text _),← path_split]
  rw [aiExtractFeatures,comm_read,path_read]
  rfl

/-- The largest value of each feature; for the user it is that of an `int`. -/
def highest : List Int := [4095,4095,2 ^ 31 - 1,15,255,23]

/-- The strings of an event end, and every feature is in its range. -/
def InRange (hour : UInt64 → Int32) (ev : NuleyeEvent) : Prop :=
  Ended ev ∧ ∃ f,aiExtractFeatures hour ev = some f ∧ List.Forall₂ (fun x high => 0 ≤ x.toInt ∧ x.toInt ≤ high) f highest

/-- A larger user id, or a longer name or path, makes a larger feature. -/
def InOrder (hour : UInt64 → Int32) (ev ev' : NuleyeEvent) : Prop :=
  ∃ f f',aiExtractFeatures hour ev = some f ∧ aiExtractFeatures hour ev' = some f' ∧
    (ev.uid < ev'.uid → f.getD 2 0 < f'.getD 2 0) ∧
    ((text ev.comm.toList).length < (text ev'.comm.toList).length → f.getD 3 0 < f'.getD 3 0) ∧
    ((text ev.path.toList).length < (text ev'.path.toList).length → f.getD 4 0 < f'.getD 4 0)

/-- The conversion of an `unsigned` to `int`, which wraps. -/
theorem toInt32_value (n : UInt32) : n.toInt32.toInt = if n < 2147483648 then (n.toNat : Int) else n.toNat - 2 ^ 32 := by
  have cond : n.toInt32.toInt = if 2 * n.toNat < 2 ^ 32 then (n.toNat : Int) else n.toNat - (2 ^ 32 : Nat) :=
    BitVec.toInt_eq_toNat_cond n.toBitVec
  have small : n < 2147483648 ↔ n.toNat < 2147483648 := UInt32.lt_iff_toNat_lt
  simp only [cond,small]
  split_ifs <;> omega

theorem masked_range (n : UInt32) : 0 ≤ (n &&& 0xFFF).toInt32.toInt ∧ (n &&& 0xFFF).toInt32.toInt ≤ 4095 := by
  have low : (n &&& 0xFFF).toNat ≤ 4095 := by
    rw [UInt32.toNat_and]
    exact Nat.and_le_right
  have small : n &&& 0xFFF < 2147483648 := UInt32.lt_iff_toNat_lt.mpr (Nat.lt_of_le_of_lt low (by decide))
  rw [toInt32_value,if_pos small]
  omega

/-- A user id keeps its value as long as it is an `int`. -/
theorem uid_range (uid : UInt32) : (0 ≤ uid.toInt32.toInt ∧ uid.toInt32.toInt ≤ 2 ^ 31 - 1) ↔ uid < 2147483648 := by
  have limit := uid.toNat_lt
  have small : uid < 2147483648 ↔ uid.toNat < 2147483648 := UInt32.lt_iff_toNat_lt
  simp only [toInt32_value,small]
  split_ifs <;> omega

theorem length_value {n : Nat} (few : n < 256) : (Int32.ofNat n).toInt = n := Int32.toInt_ofNat_of_lt (by omega)

theorem Ended.in_range {ev : NuleyeEvent} (ended : Ended ev) {hour : UInt64 → Int32}
    (day : ∀ t,0 ≤ (hour t).toInt ∧ (hour t).toInt ≤ 23) : InRange hour ev ↔ ev.uid < 2147483648 := by
  have comm := text_length ended.comm
  have path := text_length ended.path
  simp only [Vector.length_toList] at comm path
  rw [InRange,ended.features hour,and_iff_right ended,← uid_range]
  simp only [Option.some.injEq,exists_eq_left',highest,List.forall₂_cons,List.Forall₂.nil,and_true,length_value,
    show (text ev.comm.toList).length < 256 by omega,path]
  constructor
  · rintro ⟨_,_,user,_⟩
    exact user
  · intro user
    exact ⟨masked_range _,masked_range _,user,by omega,by omega,day _⟩

theorem Ended.in_order {ev ev' : NuleyeEvent} (ended : Ended ev) (ended' : Ended ev') (hour : UInt64 → Int32)
    (fits : ev.uid < 2147483648) (fits' : ev'.uid < 2147483648) : InOrder hour ev ev' := by
  have comm := text_length ended.comm
  have comm' := text_length ended'.comm
  have path := text_length ended.path
  have path' := text_length ended'.path
  simp only [Vector.length_toList] at comm comm' path path'
  refine ⟨_,_,ended.features hour,ended'.features hour,?_,?_,?_⟩
  · intro larger
    have := UInt32.lt_iff_toNat_lt.mp larger
    change ev.uid.toInt32 < ev'.uid.toInt32
    rw [Int32.lt_iff_toInt_lt,toInt32_value,toInt32_value,if_pos fits,if_pos fits']
    omega
  · intro longer
    change Int32.ofNat _ < Int32.ofNat _
    rw [Int32.lt_iff_toInt_lt,length_value (by omega),length_value (by omega)]
    omega
  · intro longer
    change Int32.ofNat _ < Int32.ofNat _
    rw [Int32.lt_iff_toInt_lt,length_value path,length_value path']
    omega

/-- **The features of any two published events are in range and in order exactly if both user
    ids are an `int`.** -/
theorem features_right {hour : UInt64 → Int32} (day : ∀ t,0 ≤ (hour t).toInt ∧ (hour t).toInt ≤ 23) {ev ev' : NuleyeEvent}
    (produced : Produced ev) (produced' : Produced ev') :
    (InRange hour ev ∧ InRange hour ev' ∧ InOrder hour ev ev') ↔ ev.uid < 2147483648 ∧ ev'.uid < 2147483648 := by
  rw [produced.ended.in_range day,produced'.ended.in_range day]
  constructor
  · rintro ⟨fits,fits',_⟩
    exact ⟨fits,fits'⟩
  · rintro ⟨fits,fits'⟩
    exact ⟨fits,fits',produced.ended.in_order produced'.ended hour fits fits'⟩

/-- `tm_hour` where the local time is UTC. -/
def utcHour (t : UInt64) : Int32 := Int32.ofNat (t.toNat / 3600 % 24)

theorem utcHour_day (t : UInt64) : 0 ≤ (utcHour t).toInt ∧ (utcHour t).toInt ≤ 23 := by
  rw [utcHour,length_value (by omega)]
  omega

/-- A record of a process of a user. -/
def recordOf (uid : UInt32) : BpfEvent := ⟨0,1,0,uid,0,.replicate 16 0,0,.replicate 128 0⟩

theorem record_produced (uid : UInt32) : ∃ ev,Produced ev ∧ ev.uid = uid := by
  have ended : 0 ∈ (recordOf uid).filename.toList := List.mem_replicate.mpr ⟨by decide,rfl⟩
  have built : ∃ ev,rbEvent (recordOf uid) [] = some ev ∧ ev.uid = uid := ⟨_,rfl,rfl⟩
  obtain ⟨ev,built,user⟩ := built
  exact ⟨ev,.kernel ended built,user⟩

theorem features_right_users : ∃ ev ev',Produced ev ∧ Produced ev' ∧ ev.uid = 0 ∧ ev'.uid = 65534 ∧ InOrder utcHour ev ev' := by
  obtain ⟨ev,produced,user⟩ := record_produced 0
  obtain ⟨ev',produced',user'⟩ := record_produced 65534
  have right := (features_right utcHour_day produced produced').mpr ⟨by rw [user]; decide,by rw [user']; decide⟩
  exact ⟨ev,ev',produced,produced',user,user',right.2.2⟩

/-- The user with the largest id. -/
theorem features_wrap :
    ¬ ∀ (hour : UInt64 → Int32) (_ : ∀ t,0 ≤ (hour t).toInt ∧ (hour t).toInt ≤ 23) (ev ev' : NuleyeEvent),
      Produced ev → Produced ev' → InRange hour ev ∧ InRange hour ev' ∧ InOrder hour ev ev' := by
  intro always
  obtain ⟨ev,produced,user⟩ := record_produced 4294967295
  have fits := (produced.ended.in_range utcHour_day).mp (always _ utcHour_day ev ev produced produced).1
  rw [user] at fits
  exact absurd fits (by decide)

/-! ### Times -/

/-- The feature of the hour is that of the second `T`, whatever the local time is. -/
def HourAgrees (ev : NuleyeEvent) (T : UInt64) : Prop :=
  ∀ hour : UInt64 → Int32,∃ f,aiExtractFeatures hour ev = some f ∧ f[5]? = some (hour T)

/-- The time of an event is read as nanoseconds since the epoch. -/
theorem Ended.hour_agrees {ev : NuleyeEvent} (ended : Ended ev) (T : UInt64) : HourAgrees ev T ↔ ev.ts / 1000000000 = T := by
  constructor
  · intro agrees
    obtain ⟨f,extracted,found⟩ := agrees fun t => if t = T then 1 else 0
    rw [ended.features] at extracted
    obtain rfl := Option.some.inj extracted
    by_contra other
    simp [other] at found
  · rintro rfl hour
    exact ⟨_,ended.features hour,rfl⟩

theorem FilePublishes.ended {H : Bytes → Digest} {path : Mem} {node : Node} {r : Results} {l : Locals} {w : World}
    {ev : NuleyeEvent} (published : FilePublishes H path node r l w ev) : Ended ev := (Produced.file published).ended

/-- `file_cb` stores seconds. -/
theorem FilePublishes.hour_agrees {H : Bytes → Digest} {path : Mem} {node : Node} {r : Results} {l : Locals} {w : World}
    {ev : NuleyeEvent} (published : FilePublishes H path node r l w ev) : HourAgrees ev r.time ↔ r.time = 0 := by
  rw [published.ended.hour_agrees]
  obtain ⟨h,rfl⟩ := published.event
  change r.time / 1000000000 = r.time ↔ r.time = 0
  rw [← UInt64.toNat_inj,← UInt64.toNat_inj,UInt64.toNat_div]
  change r.time.toNat / 1000000000 = r.time.toNat ↔ r.time.toNat = 0
  omega

/-- The loader passes on nanoseconds since boot. -/
theorem published_hour {p : Program} {i : Invocation} {old : BpfEvent} {behind : Mem} {ev : NuleyeEvent}
    (published : publishedEvent p i old behind = some ev) (T : UInt64) : HourAgrees ev T ↔ i.ktimeGetNs / 1000000000 = T := by
  obtain ⟨e,ran,built⟩ := Option.bind_eq_some_iff.mp published
  rw [(rbEvent_ended built).hour_agrees]
  have time : ev.ts = i.ktimeGetNs := by
    obtain ⟨arg,same,_⟩ := run_eq p
    rw [same] at ran
    cases ran
    obtain ⟨comm,_,built⟩ := Option.bind_eq_some_iff.mp built
    obtain ⟨path,_,built⟩ := Option.bind_eq_some_iff.mp built
    cases built
    rfl
  rw [time]

/-- **The two producers agree with the extractor on no other time** than the epoch for `file_cb`, and
    for the kernel on the times of a system that was booted at the epoch. -/
theorem hours_agree (ev : NuleyeEvent) (T : UInt64) :
    (∀ (H : Bytes → Digest) (path : Mem) (node : Node) (r : Results) (l : Locals) (w : World),
      FilePublishes H path node r l w ev → r.time = T → (HourAgrees ev T ↔ T = 0)) ∧
    ∀ (p : Program) (i : Invocation) (old : BpfEvent) (behind : Mem),
      publishedEvent p i old behind = some ev → (HourAgrees ev T ↔ i.ktimeGetNs / 1000000000 = T) := by
  constructor
  · rintro H path node r l w published rfl
    exact published.hour_agrees
  · intro p i old behind published
    exact published_hour published T

/-- The results of a scan at a second. -/
def scanAt (T : UInt64) : Results := ⟨⟨true,[]⟩,⟨true,[]⟩,fun _ => true,none,true,T,0⟩

theorem scan_publishes (T : UInt64) : ∃ H path node l w ev,FilePublishes H path node (scanAt T) l w ev := by
  let H : Bytes → Digest := fun _ => .replicate 32 0
  let l : Locals := ⟨.replicate 65 0,.replicate 65 0,⟨0,0,0,0,0⟩⟩
  let empty : Node := .file [] (by decide)
  have passed : ∃ row,passedRow H [] empty (scanAt T) l = some row := ⟨_,rfl⟩
  obtain ⟨row,passed⟩ := passed
  refine ⟨H,[],empty,l,⟨fun _ => none,[],[]⟩,fileEvent T [] row.hash,List.not_mem_nil,?_⟩
  rw [fileCb_published,passed]
  rfl

theorem execve_published : ∃ ev,publishedEvent .execve unnamed (recordOf 0) [] = some ev := by
  obtain ⟨path,published⟩ := published_written (p := .execve) rfl unnamed
  exact ⟨_,published _ _⟩

theorem hours_agree_scan :
    (∃ H path node l w ev,FilePublishes H path node (scanAt 1700000000) l w ev ∧ ¬ HourAgrees ev 1700000000) ∧
      ∃ ev,publishedEvent .execve unnamed (recordOf 0) [] = some ev ∧ HourAgrees ev 0 := by
  obtain ⟨H,path,node,l,w,ev,published⟩ := scan_publishes 1700000000
  obtain ⟨ev',published'⟩ := execve_published
  have file := (hours_agree ev 1700000000).1 H path node _ l w published rfl
  have kernel := (hours_agree ev' 0).2 .execve unnamed _ _ published'
  exact ⟨⟨H,path,node,l,w,ev,published,fun agrees => absurd (file.mp agrees) (by decide)⟩,ev',published',kernel.mpr rfl⟩

/-- In November 2023 neither producer's event has the hour of its second. -/
theorem hours_disagree :
    (¬ ∀ (H : Bytes → Digest) (path : Mem) (node : Node) (r : Results) (l : Locals) (w : World) (ev : NuleyeEvent),
      FilePublishes H path node r l w ev → HourAgrees ev r.time) ∧
    ¬ ∀ (p : Program) (i : Invocation) (old : BpfEvent) (behind : Mem) (ev : NuleyeEvent) (T : UInt64),
      publishedEvent p i old behind = some ev → HourAgrees ev T := by
  constructor
  · intro always
    obtain ⟨H,path,node,l,w,ev,published⟩ := scan_publishes 1700000000
    exact absurd (published.hour_agrees.mp (always H path node _ l w ev published)) (by decide)
  · intro always
    obtain ⟨ev,published⟩ := execve_published
    exact absurd ((published_hour published 1700000000).mp (always _ _ _ _ ev 1700000000 published)) (by decide)

end Nulleye.EventFeatures
