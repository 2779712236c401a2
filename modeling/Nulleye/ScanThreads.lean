import Nulleye.FileRecords
import Nulleye.Runs

/-!
The thread of the file integrity module, with the functions that start it and stop it. It
scans three directories one after the other and sleeps, and it looks at `g_run` only between
two passes. Whenever it is stopped it finishes its pass, and the table tells of nothing else
than of what lies in these directories.
-/
namespace Nulleye.ScanThreads
open Nulleye.CStrings Nulleye.FileRecords Nulleye.MerkleRoot Nulleye.Runs

/-- `paths`. -/
def paths : List Mem := [ascii "/etc",ascii "/usr/bin",ascii "/var/www"]

/-- What `nftw` visits for a path. -/
def Under (root path : Mem) : Prop := path = root ∨ root ++ [47] <+: path

instance (root path : Mem) : Decidable (Under root path) := inferInstanceAs (Decidable (_ ∨ _))

inductive Pc where
  /-- Before `while (g_run)`. -/
  | test
  /-- In `nftw` for a path, with the paths that come after it. -/
  | scans (path : Mem) (rest : List Mem)
  | sleeps
  | ended
  deriving DecidableEq

structure World where
  gRun : Bool
  /-- `g_cb` is not NULL. -/
  gCb : Bool
  /-- The thread that was created and not joined. -/
  thread : Option Pc
  /-- Whether `fi_stop` waits for the thread. -/
  joins : Bool
  files : FileRecords.World

def initial (files : FileRecords.World) : World := ⟨false,false,none,false,files⟩

inductive Action where
  | start (created : Bool)
  | stop
  | join
  /-- The next step of the thread: outside of `nftw`, or its end. -/
  | turn
  | visit (v : Visit)

inductive Label where
  | started (created : Bool)
  | stopping
  | joined
  | scanning (path : Mem)
  | visited (v : Visit)
  | sleeping
  | woken
  | ended

/-- `file_scan_path` of the next path up to `nftw`, or `sleep`. -/
def World.next (s : World) : List Mem → World × Label
  | path :: rest => ({ s with gCb := true, thread := some (.scans path rest) },.scanning path)
  | [] => ({ s with gCb := false, thread := some .sleeps },.sleeping)

/-- The next step of `scan_thread` at `pc`. -/
def scanThread (pc : Pc) (s : World) : Option (World × Label) :=
  match pc with
  | .test => some (if s.gRun then s.next paths else ({ s with thread := some .ended },.ended))
  | .scans _ rest => some (s.next rest)
  | .sleeps => some ({ s with thread := some .test },.woken)
  | .ended => none

variable (H : Bytes → Digest)

/-- `nftw_cb`, which calls what `g_cb` points to. -/
def World.nftwCb (s : World) (v : Visit) : World := if s.gCb then { s with files := FileRecords.nftwCb H s.files v } else s

def step (s : World) : Action → Option (World × Label)
  /- `fi_start`, which is called before the thread is there. -/
  | .start created =>
    if s.thread = none ∧ s.joins = false then
      some ({ s with gRun := created, thread := if created then some .test else none },.started created)
    else none
  /- `fi_stop`. -/
  | .stop => if s.joins then none else some ({ s with gRun := false, joins := true },.stopping)
  | .join => if s.joins = true ∧ s.thread = some .ended then some ({ s with thread := none, joins := false },.joined) else none
  | .turn => s.thread.bind fun pc => scanThread pc s
  | .visit v =>
    match s.thread with
    | some (.scans path _) => if Under path v.path then some (s.nftwCb H v,.visited v) else none
    | _ => none

/-! ### One step -/

/-- Everything that a step can do. -/
inductive Moves (s : World) : World → Label → Prop
  | starts {created : Bool} : s.thread = none → s.joins = false →
      Moves s { s with gRun := created, thread := if created then some .test else none } (.started created)
  | stops : s.joins = false → Moves s { s with gRun := false, joins := true } .stopping
  | joins : s.joins = true → s.thread = some .ended → Moves s { s with thread := none, joins := false } .joined
  | begins : s.thread = some .test → s.gRun = true → Moves s (s.next paths).1 (s.next paths).2
  | ends : s.thread = some .test → s.gRun = false → Moves s { s with thread := some .ended } .ended
  | scans {path : Mem} {rest : List Mem} : s.thread = some (.scans path rest) → Moves s (s.next rest).1 (s.next rest).2
  | wakes : s.thread = some .sleeps → Moves s { s with thread := some .test } .woken
  | visits {path : Mem} {rest : List Mem} {v : Visit} : s.thread = some (.scans path rest) → Under path v.path →
      Moves s (s.nftwCb H v) (.visited v)

variable {H} {s t : World} {a : Action} {label : Label}

theorem step_moves {r : World × Label} (moved : step H s a = some r) : Moves H s r.1 r.2 := by
  cases a with
  | start created =>
    obtain ⟨outside,same⟩ := Option.ite_none_right_eq_some.mp moved
    cases same
    exact .starts outside.1 outside.2
  | stop =>
    simp only [step] at moved
    split_ifs at moved with outside
    cases moved
    exact .stops (by simpa using outside)
  | join =>
    obtain ⟨done,same⟩ := Option.ite_none_right_eq_some.mp moved
    cases same
    exact .joins done.1 done.2
  | turn =>
    obtain ⟨pc,at_pc,moved⟩ := Option.bind_eq_some_iff.mp moved
    cases pc with
    | test =>
      obtain rfl := Option.some.inj moved
      by_cases run : s.gRun = true
      · rw [if_pos run]
        exact .begins at_pc run
      · rw [if_neg run]
        exact .ends at_pc (by simpa using run)
    | scans path rest =>
      cases moved
      exact .scans at_pc
    | sleeps =>
      cases moved
      exact .wakes at_pc
    | ended => cases moved
  | visit v =>
    simp only [step] at moved
    split at moved
    · rename_i path rest at_pc
      obtain ⟨under,same⟩ := Option.ite_none_right_eq_some.mp moved
      cases same
      exact .visits at_pc under
    · cases moved

/-! ### Passes -/

def scanned? : Label → Option Mem
  | .scanning path => some path
  | _ => none

def visited? : Label → Option Visit
  | .visited v => some v
  | _ => none

/-- The paths whose scans were begun, in order. -/
def scanned (trace : List Label) : List Mem := trace.filterMap scanned?

def visits (trace : List Label) : List Visit := trace.filterMap visited?

def Pc.left : Pc → List Mem
  | .scans _ rest => rest
  | _ => []

/-- The paths that are left of the pass. -/
def World.left (s : World) : List Mem := s.thread.elim [] Pc.left

@[simp] theorem scanned_append (front back : List Label) : scanned (front ++ back) = scanned front ++ scanned back :=
  List.filterMap_append

@[simp] theorem visits_append (front back : List Label) : visits (front ++ back) = visits front ++ visits back :=
  List.filterMap_append

@[simp] theorem scanned_one (label : Label) : scanned [label] = (scanned? label).toList := by
  cases scan : scanned? label <;> simp [scanned,scan]

@[simp] theorem visits_one (label : Label) : visits [label] = (visited? label).toList := by
  cases visit : visited? label <;> simp [visits,visit]

/-- What a run of the thread keeps. -/
structure Inv (H : Bytes → Digest) (files : FileRecords.World) (trace : List Label) (s : World) : Prop where
  files : s.files = fileScanPath H (visits trace) files
  passes : ∃ n,scanned trace ++ s.left = (List.replicate n paths).flatten
  callback : ∀ path rest,s.thread = some (.scans path rest) → s.gCb = true
  last : ∀ path rest,s.thread = some (.scans path rest) → (scanned trace).getLast? = some path
  rest : s.left <:+ paths.tail
  stopped : s.joins = true → s.gRun = false

variable {files : FileRecords.World} {trace : List Label}

theorem inv_initial : Inv H files [] (initial files) :=
  ⟨rfl,⟨0,rfl⟩,fun _ _ scans => (nomatch scans),fun _ _ scans => (nomatch scans),List.nil_suffix,fun joins => (nomatch joins)⟩

/-- A step by which the thread leaves or enters no scan. -/
theorem Inv.between (inv : Inv H files trace s) {gRun joins : Bool} {thread : Option Pc} (idle : s.left = [])
    (outside : ∀ path rest,thread ≠ some (.scans path rest)) (quiet : scanned? label = none ∧ visited? label = none)
    (stopped : joins = true → gRun = false) : Inv H files (trace ++ [label]) { s with gRun, thread, joins } := by
  have left : thread.elim [] Pc.left = [] := by
    rcases thread with _ | pc
    · rfl
    · cases pc with
      | scans path rest => exact absurd rfl (outside path rest)
      | test | sleeps | ended => rfl
  refine ⟨?_,?_,fun path rest scans => absurd scans (outside path rest),fun path rest scans => absurd scans (outside path rest),
    ?_,stopped⟩
  · simpa [quiet.2] using inv.files
  · have whole := inv.passes
    rw [idle] at whole
    simpa [quiet.1,World.left,left] using whole
  · rw [World.left,left]
    exact List.nil_suffix

/-- The next scan of a pass is begun, or the pass is over. -/
theorem Inv.next (inv : Inv H files trace s) {rest : List Mem}
    (whole : ∃ n,scanned trace ++ rest = (List.replicate n paths).flatten) (suffix : rest.tail <:+ paths.tail) :
    Inv H files (trace ++ [(s.next rest).2]) (s.next rest).1 := by
  cases rest with
  | nil =>
    refine ⟨by simpa [World.next,visited?] using inv.files,?_,fun _ _ scans => ?_,fun _ _ scans => ?_,List.nil_suffix,inv.stopped⟩
    · simpa [World.next,World.left,Pc.left,scanned?] using whole
    · cases scans
    · cases scans
  | cons path rest =>
    refine ⟨by simpa [World.next,visited?] using inv.files,?_,fun _ _ _ => rfl,fun path' rest' scans => ?_,suffix,inv.stopped⟩
    · simpa [World.next,World.left,Pc.left,scanned?] using whole
    · cases scans
      simp [World.next,scanned?]

theorem inv_moves (inv : Inv H files trace s) (moves : Moves H s t label) : Inv H files (trace ++ [label]) t := by
  cases moves with
  | @starts created nothing outside =>
    refine inv.between (by simp [World.left,nothing]) ?_ ⟨rfl,rfl⟩ (by simp [outside])
    intro path rest
    cases created <;> simp
  | stops outside =>
    refine ⟨?_,?_,inv.callback,?_,inv.rest,fun _ => rfl⟩
    · simpa [visited?] using inv.files
    · simpa [scanned?,World.left] using inv.passes
    · simpa [scanned?] using inv.last
  | joins joins at_pc => exact inv.between (by simp [World.left,Pc.left,at_pc]) (by simp) ⟨rfl,rfl⟩ (by simp)
  | begins at_pc run =>
    obtain ⟨n,whole⟩ := inv.passes
    refine inv.next ⟨n + 1,?_⟩ (List.suffix_refl _)
    rw [List.replicate_succ',List.flatten_append,← whole]
    simp [World.left,Pc.left,at_pc]
  | ends at_pc stopped => exact inv.between (by simp [World.left,Pc.left,at_pc]) (by simp) ⟨rfl,rfl⟩ inv.stopped
  | @scans path rest at_pc =>
    have left : s.left = rest := by simp [World.left,Pc.left,at_pc]
    rw [← left]
    exact inv.next inv.passes ((List.tail_suffix _).trans inv.rest)
  | wakes at_pc => exact inv.between (by simp [World.left,Pc.left,at_pc]) (by simp) ⟨rfl,rfl⟩ inv.stopped
  | @visits path rest v at_pc under =>
    have called : s.nftwCb H v = { s with files := FileRecords.nftwCb H s.files v } := if_pos (inv.callback _ _ at_pc)
    rw [called]
    refine ⟨?_,?_,inv.callback,?_,inv.rest,inv.stopped⟩
    · simp [visited?,fileScanPath,inv.files]
    · simpa [scanned?,World.left] using inv.passes
    · simpa [scanned?] using inv.last

theorem inv_run (run : Run (step H) free (initial files) trace t) : Inv H files trace t :=
  run.invariant (I := Inv H files) inv_initial fun _ _ _ _ _ _ inv _ moved => inv_moves inv (step_moves moved)

/-- Visits of other paths leave a row alone. -/
theorem fileScanPath_entries {path : Mem} {vs : List Visit} (others : ∀ v ∈ vs,v.path ≠ path) (w : FileRecords.World) :
    (fileScanPath H vs w).entries path = w.entries path := by
  induction vs generalizing w with
  | nil => rfl
  | cons v vs ih =>
    have here : fileScanPath H (v :: vs) w = fileScanPath H vs (FileRecords.nftwCb H w v) := rfl
    rw [here,ih fun v' member => others v' (List.mem_cons_of_mem _ member)]
    have other := others v List.mem_cons_self
    rcases fileCb_entries H v.path v.node v.results v.locals w with same | ⟨row,_,updated⟩
    · rw [FileRecords.nftwCb,same]
    · rw [FileRecords.nftwCb,updated,Function.update_of_ne (Ne.symm other)]

/-- A visit belongs to the scan that was begun last. -/
theorem visited_under {front back : List Label} {v : Visit}
    (run : Run (step H) free (initial files) (front ++ .visited v :: back) t) :
    ∃ path,(scanned front).getLast? = some path ∧ Under path v.path := by
  obtain ⟨s,a,s',before,_,moved⟩ := run.at_label
  have last := (inv_run before).last
  generalize same : Label.visited v = label at moved
  cases step_moves moved with
  | visits at_pc under =>
    cases same
    exact ⟨_,last _ _ at_pc,under⟩
  | starts | stops | joins | ends | wakes => cases same
  | begins => cases same
  | @scans path rest =>
    cases rest with
    | nil => cases same
    | cons => cases same

/-- In every run the files that were recorded are those that were visited, each under the path whose scan was begun last.
    The scans that were begun, with those that are left of the pass at work, are whole passes over the three paths. The row
    of a path under none of them stays what it was. -/
theorem passes_finish (run : Run (step H) free (initial files) trace t) :
    t.files = fileScanPath H (visits trace) files ∧
      (∃ n,scanned trace ++ t.left = (List.replicate n paths).flatten) ∧
      (∀ front v back,trace = front ++ .visited v :: back → ∃ path,(scanned front).getLast? = some path ∧ Under path v.path) ∧
      ∀ path,(∀ root ∈ paths,¬Under root path) → t.files.entries path = files.entries path := by
  have inv := inv_run run
  obtain ⟨n,whole⟩ := inv.passes
  have under : ∀ front v back,trace = front ++ .visited v :: back →
      ∃ path,(scanned front).getLast? = some path ∧ Under path v.path := by
    rintro front v back rfl
    exact visited_under run
  refine ⟨inv.files,⟨n,whole⟩,under,fun path outside => ?_⟩
  rw [inv.files]
  apply fileScanPath_entries
  rintro v member rfl
  obtain ⟨label,there,visit⟩ := List.mem_filterMap.mp member
  obtain ⟨front,back,rfl⟩ := List.append_of_mem there
  cases label with
  | visited v' =>
    cases visit
    obtain ⟨root,begun,under⟩ := under front v back rfl
    have among : root ∈ (List.replicate n paths).flatten := by
      rw [← whole,scanned_append]
      exact List.mem_append_left _ (List.mem_append_left _ (List.mem_of_getLast? begun))
    obtain ⟨pass,here,member⟩ := List.mem_flatten.mp among
    rw [List.eq_of_mem_replicate here] at member
    exact outside root member under
  | started | stopping | joined | scanning | sleeping | woken | ended => cases visit

/-- A visit of the first directory. -/
private def etc : Visit := ⟨ascii "/etc",.directory,visited,garbage⟩

/-- Stopped in its first scan, the thread still begins the other two. -/
theorem passes_finish_stopped : ∃ trace t,Run (step lengthDigest) free (initial ⟨fun _ => none,[],[]⟩) trace t ∧
    scanned trace = paths ∧ (visits trace).length = 1 ∧
    t.files = fileScanPath lengthDigest (visits trace) ⟨fun _ => none,[],[]⟩ := by
  obtain ⟨trace,t,run,checked⟩ := exists_run_of_check (step lengthDigest) free (initial ⟨fun _ => none,[],[]⟩)
    (fun _ trace => scanned trace = paths ∧ (visits trace).length = 1)
    [.start true,.turn,.visit etc,.stop,.turn,.turn,.turn,.turn,.turn,.join] rfl
  obtain ⟨scans,one⟩ := of_decide_eq_true checked
  exact ⟨trace,t,run,scans,one,(passes_finish run).1⟩

/-! ### Stopping -/

/-- How many steps the thread has before it at most, apart from visits, once `g_run` is cleared. -/
def Pc.rank : Pc → Nat
  | .ended => 0
  | .test => 1
  | .sleeps => 2
  | .scans _ rest => rest.length + 3

def World.rank (s : World) : Nat := s.thread.elim 0 Pc.rank

/-- A step of the thread that is no visit. -/
def Label.turns : Label → Bool
  | .scanning _ | .sleeping | .woken | .ended => true
  | _ => false

/-- While `fi_stop` waits, the thread goes through what is left of its pass and comes nearer to its end. -/
theorem joins_moves (joins : s.joins = true) (stopped : s.gRun = false) (moves : Moves H s t label) :
    label = .joined ∨ (t.joins = true ∧ t.gRun = false ∧ (scanned? label).toList ++ t.left = s.left ∧
      label.turns.toNat + t.rank ≤ s.rank) := by
  cases moves with
  | starts _ outside | stops outside =>
    rw [joins] at outside
    cases outside
  | joins => exact .inl rfl
  | begins _ run =>
    rw [stopped] at run
    cases run
  | ends at_pc | wakes at_pc =>
    exact .inr ⟨joins,stopped,by simp [World.left,at_pc,scanned?,Pc.left],by simp [World.rank,at_pc,Label.turns,Pc.rank]⟩
  | @scans path rest at_pc =>
    refine .inr ?_
    cases rest with
    | nil =>
      exact ⟨joins,stopped,by simp [World.next,World.left,at_pc,scanned?,Pc.left],
        by simp [World.next,World.rank,at_pc,Label.turns,Pc.rank]⟩
    | cons path' rest =>
      refine ⟨joins,stopped,by simp [World.next,World.left,at_pc,scanned?,Pc.left],?_⟩
      simp only [World.next,World.rank,at_pc,Label.turns,Option.elim_some,Pc.rank,List.length_cons,Bool.toNat_true]
      omega
  | visits at_pc =>
    rw [World.nftwCb]
    split <;> exact .inr ⟨joins,stopped,rfl,by simp [World.rank,Label.turns]⟩

/-- While `fi_stop` waits the thread begins only the scans that were left of its pass, so two at most, and takes at most five
    steps besides its visits. It has a next step until it has ended, and then `fi_stop` returns. -/
theorem stop_finishes {more : List Label} {u : World} (run : Run (step H) free (initial files) trace t) (joins : t.joins = true)
    (later : Run (step H) free t more u) (waits : .joined ∉ more) :
    u.joins = true ∧ scanned more ++ u.left = t.left ∧ t.left <:+ paths.tail ∧ (more.filter Label.turns).length ≤ 5 ∧
      ∀ pc,u.thread = some pc → if pc = .ended then ∃ v,step H u .join = some (v,.joined) ∧ v.thread = none
        else ∃ v label,step H u .turn = some (v,label) := by
  have inv := inv_run run
  have counted : u.joins = true ∧ u.gRun = false ∧ scanned more ++ u.left = t.left ∧
      (more.filter Label.turns).length + u.rank ≤ t.rank := by
    revert waits
    refine later.invariant (I := fun more u => .joined ∉ more → u.joins = true ∧ u.gRun = false ∧
      scanned more ++ u.left = t.left ∧ (more.filter Label.turns).length + u.rank ≤ t.rank) ?_ ?_
    · exact fun _ => ⟨joins,inv.stopped joins,rfl,by simp⟩
    · intro more v a w label _ before _ moved waits
      obtain ⟨joins,stopped,rest,few⟩ := before fun joined => waits (List.mem_append_left _ joined)
      rcases joins_moves joins stopped (step_moves moved) with rfl | ⟨joins',stopped',left,nearer⟩
      · exact absurd (List.mem_append_right _ (List.mem_singleton_self _)) waits
      · refine ⟨joins',stopped',by rw [scanned_append,scanned_one,List.append_assoc,left,rest],?_⟩
        cases turns : label.turns <;> simp [turns] at nearer ⊢ <;> omega
  obtain ⟨joins',stopped,rest,few⟩ := counted
  have five : t.rank ≤ 5 := by
    have short := inv.rest.length_le
    rw [World.left] at short
    rw [World.rank]
    generalize t.thread = thread at short ⊢
    rcases thread with _ | pc
    · exact Nat.zero_le 5
    · cases pc with
      | scans path rest => exact Nat.add_le_add_right short 3
      | test | sleeps | ended => simp [Pc.rank]
  refine ⟨joins',rest,inv.rest,by omega,fun pc at_pc => ?_⟩
  split_ifs with ended
  · subst ended
    exact ⟨_,if_pos ⟨joins',at_pc⟩,rfl⟩
  · have turn : step H u .turn = scanThread pc u := by rw [step,at_pc,Option.bind_some]
    rw [turn]
    cases pc with
    | ended => exact absurd rfl ended
    | test | scans | sleeps => exact ⟨_,_,rfl⟩

/-- Stopped in the scan of `/etc`. -/
theorem stop_finishes_etc : ∃ trace t,Run (step lengthDigest) free (initial ⟨fun _ => none,[],[]⟩) trace t ∧ t.left = paths.tail ∧
    ∀ more u,Run (step lengthDigest) free t more u → .joined ∉ more → (more.filter Label.turns).length ≤ 5 := by
  obtain ⟨trace,t,run,checked⟩ := exists_run_of_check (step lengthDigest) free (initial ⟨fun _ => none,[],[]⟩)
    (fun t _ => t.joins = true ∧ t.left = paths.tail) [.start true,.turn,.stop] rfl
  obtain ⟨joins,left⟩ := of_decide_eq_true checked
  exact ⟨trace,t,run,left,fun more u later waits => (stop_finishes run joins later waits).2.2.2.1⟩

end Nulleye.ScanThreads
