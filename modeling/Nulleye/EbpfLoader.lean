import Nulleye.CStrings
import Nulleye.KernelEvents
import Nulleye.Ledgers

/-!
The loader of the kernel programs, built with libbpf. It loads the objects of a directory
and polls one ring buffer, which it makes from the first map `events` that it finds. Each
of the objects has its own map: what the programs of the other objects submit is not polled.
-/
namespace Nulleye.EbpfLoader
open Nulleye.CStrings Nulleye.KernelEvents Nulleye.Ledgers

/-- A file that libbpf can open: whether it loads, which of its programs attach, and whether it has a map `events`. -/
structure ObjectFile where
  loads : Bool
  programs : List Bool
  events : Bool
  deriving DecidableEq

/-- An entry of the directory; `bpf_object__open_file` fails where there is no file. -/
structure Dirent where
  dName : Mem
  file : Option ObjectFile
  deriving DecidableEq

/-- `!strstr(ent->d_name, ".bpf.o")` lets the loop continue. -/
def Dirent.isObject (ent : Dirent) : Bool := ((strstr (ascii ".bpf.o") (ent.dName ++ [0])).join).isSome

/-- An object that was opened. The descriptor of its map is named by its number. -/
structure BpfObject where
  number : Nat
  file : ObjectFile
  deriving DecidableEq

/-- The tables up to their counts, the maps that the ring buffer `rb` reads, and the ledgers of the objects and of the links. -/
structure Loader where
  gObjs : List BpfObject
  gLinks : List Nat
  rb : Option (List Nat)
  rbRunning : Bool
  objects : Ledger
  links : Ledger
  deriving DecidableEq

def Loader.initial : Loader := ⟨[],[],none,false,.empty,.empty⟩

/-- `MAX_BPF_OBJECTS`. -/
def maxBpfObjects : Nat := 64

/-- The capacity of `g_links`. -/
def maxLinks : Nat := 256

/-! ### `ebpf_loader_start` -/

/-- A link that `bpf_program__attach` returned is kept while there is room. -/
def Loader.attach (s : Loader) : Loader :=
  { s with
    links := s.links.acquire
    gLinks := if s.gLinks.length < maxLinks then s.gLinks ++ [s.links.fresh] else s.gLinks }

/-- `bpf_object__for_each_program`. -/
def attachAll : List Bool → Loader → Loader
  | [], s => s
  | attaches :: rest, s => attachAll rest (if attaches then s.attach else s)

/-- The loop over the directory, with the descriptor `found_map_fd`. -/
def loop : List Dirent → Loader × Option Nat → Loader × Option Nat
  | [], state => state
  | ent :: rest, (s,foundMapFd) =>
    if !ent.isObject then loop rest (s,foundMapFd)
    else if maxBpfObjects ≤ s.gObjs.length then (s,foundMapFd)
    else
      match ent.file with
      | none => loop rest (s,foundMapFd)
      | some file =>
        let obj : BpfObject := ⟨s.objects.fresh,file⟩
        let s := { s with objects := s.objects.acquire }
        if !file.loads then loop rest ({ s with objects := s.objects.release obj.number },foundMapFd)
        else
          let s := attachAll file.programs { s with gObjs := s.gObjs ++ [obj] }
          loop rest (s,if file.events && foundMapFd.isNone then some obj.number else foundMapFd)

/-- Every link and every object of the tables is destroyed or closed. -/
def Loader.cleanUp (s : Loader) : Loader :=
  { s with
    links := s.links.releaseAll s.gLinks
    gLinks := []
    objects := s.objects.releaseAll (s.gObjs.map BpfObject.number)
    gObjs := [] }

/-- With the directory, which is `none` if it cannot be opened, and whether `ring_buffer__new` and `pthread_create` succeed. -/
def ebpfLoaderStart (dir : Option (List Dirent)) (ringBuffer thread : Bool) (s : Loader) : Loader × Int :=
  match dir with
  | none => (s,-1)
  | some entries =>
    match loop entries ({ s with gObjs := [], gLinks := [] },none) with
    | (s,none) => (s.cleanUp,-2)
    | (s,some foundMapFd) =>
      if !ringBuffer then ({ s with rb := none }.cleanUp,-12)
      else if !thread then ({ s with rb := none, rbRunning := false }.cleanUp,-1)
      else ({ s with rb := some [foundMapFd], rbRunning := true },0)

def ebpfLoaderStop (s : Loader) : Loader := { s with rb := none, rbRunning := false }.cleanUp

/-! ### Telemetry -/

/-- A map that the ring buffer reads. -/
def Loader.registered (s : Loader) (obj : BpfObject) : Bool := (s.rb.getD []).contains obj.number

/-- `rb_poll`: of the records that programs submitted to the maps of their objects, those that reach `handle_rb_event`. -/
def rbPoll (s : Loader) (submitted : List (BpfObject × BpfEvent)) : List BpfEvent :=
  (submitted.filter fun r => s.registered r.1).map Prod.snd

/-- What is submitted to the maps of the kept objects is polled. -/
def AllPolled (s : Loader) : Prop :=
  (∀ obj ∈ s.gObjs,obj.file.events = true → s.registered obj = true) ∧
    ∀ submitted : List (BpfObject × BpfEvent),(∀ r ∈ submitted,r.1 ∈ s.gObjs ∧ r.1.file.events = true) →
      rbPoll s submitted = submitted.map Prod.snd

/-- The objects of a directory that the loader can load. -/
def loadable (entries : List Dirent) : List ObjectFile :=
  (entries.filter Dirent.isObject).filterMap fun ent => ent.file.filter ObjectFile.loads

/-- The objects that it keeps. -/
def kept (entries : List Dirent) : List ObjectFile := (loadable entries).take maxBpfObjects

@[simp] theorem attachAll_frame (programs : List Bool) (s : Loader) :
    (attachAll programs s).gObjs = s.gObjs ∧ (attachAll programs s).objects = s.objects := by
  induction programs generalizing s with
  | nil => exact ⟨rfl,rfl⟩
  | cons attaches rest ih =>
    cases attaches with
    | false => exact ih s
    | true => exact ih s.attach

/-- What the loop does on an entry: it passes over it, ends because the table is full, closes an object that
    does not load, or keeps one that does. -/
theorem loop_cases (ent : Dirent) (rest : List Dirent) (s : Loader) (found : Option Nat) :
    (loadable (ent :: rest) = loadable rest ∧ loop (ent :: rest) (s,found) = loop rest (s,found)) ∨
      (maxBpfObjects ≤ s.gObjs.length ∧ loop (ent :: rest) (s,found) = (s,found)) ∨
      (loadable (ent :: rest) = loadable rest ∧ loop (ent :: rest) (s,found) =
        loop rest ({ s with objects := s.objects.acquire.release s.objects.fresh },found)) ∨
      (∃ file,s.gObjs.length < maxBpfObjects ∧ loadable (ent :: rest) = file :: loadable rest ∧ loop (ent :: rest) (s,found) =
        loop rest (attachAll file.programs { s with objects := s.objects.acquire, gObjs := s.gObjs ++ [⟨s.objects.fresh,file⟩] },
          if file.events && found.isNone then some s.objects.fresh else found)) := by
  cases object : ent.isObject with
  | false => exact .inl (by simp [loadable,loop,object])
  | true =>
    rcases Nat.lt_or_ge s.gObjs.length maxBpfObjects with room | full
    · have more : ¬maxBpfObjects ≤ s.gObjs.length := by omega
      cases present : ent.file with
      | none => exact .inl (by simp [loadable,loop,object,present,more])
      | some file =>
        cases loads : file.loads with
        | false => exact .inr (.inr (.inl (by simp [loadable,loop,object,present,loads,more])))
        | true => exact .inr (.inr (.inr ⟨file,room,by simp [loadable,loop,object,present,loads,more,Option.filter]⟩))
    · exact .inr (.inl ⟨full,by simp [loop,object,full]⟩)

/-- The objects that the loop adds to the table: as many of the loadable ones as there is room for,
    each with a number of its own; the first with a map is found. -/
structure Adds (entries : List Dirent) (s : Loader) (found : Option Nat) (objs : List BpfObject) : Prop where
  table : (loop entries (s,found)).1.gObjs = s.gObjs ++ objs
  files : objs.map BpfObject.file = (loadable entries).take (maxBpfObjects - s.gObjs.length)
  fresh : ∀ obj ∈ objs,s.objects.fresh ≤ obj.number
  once : (objs.map BpfObject.number).Nodup
  first : (loop entries (s,found)).2 = found.or ((objs.find? fun obj => obj.file.events).map BpfObject.number)

theorem loop_objects (entries : List Dirent) (s : Loader) (found : Option Nat) : ∃ objs,Adds entries s found objs := by
  induction entries generalizing s found with
  | nil => exact ⟨[],by simp [loop],by simp [loadable],by simp,by simp,by simp [loop]⟩
  | cons ent rest ih =>
    rcases loop_cases ent rest s found with ⟨skipped,here⟩ | ⟨full,here⟩ | ⟨skipped,here⟩ | ⟨file,room,loaded,here⟩
    · obtain ⟨objs,table,files,fresh,once,first⟩ := ih s found
      exact ⟨objs,by rw [here,table],by rw [skipped,files],fresh,once,by rw [here,first]⟩
    · exact ⟨[],by simp [here],by simp [Nat.sub_eq_zero_of_le full],by simp,by simp,by simp [here]⟩
    · obtain ⟨objs,table,files,fresh,once,first⟩ := ih { s with objects := s.objects.acquire.release s.objects.fresh } found
      refine ⟨objs,by rw [here,table],by rw [skipped,files],fun obj member => ?_,once,by rw [here,first]⟩
      have later := fresh obj member
      simp at later
      omega
    · obtain ⟨objs,table,files,fresh,once,first⟩ :=
        ih (attachAll file.programs { s with objects := s.objects.acquire, gObjs := s.gObjs ++ [⟨s.objects.fresh,file⟩] })
          (if file.events && found.isNone then some s.objects.fresh else found)
      simp only [attachAll_frame,List.length_append,List.length_singleton,fresh_acquire] at table files fresh
      refine ⟨⟨s.objects.fresh,file⟩ :: objs,by simpa [here] using table,?_,?_,?_,?_⟩
      · have size : maxBpfObjects - s.gObjs.length = maxBpfObjects - (s.gObjs.length + 1) + 1 := by omega
        simp [loaded,size,files]
      · intro obj member
        rcases List.mem_cons.mp member with rfl | member
        · exact Nat.le_refl _
        · exact Nat.le_of_succ_le (fresh obj member)
      · refine List.nodup_cons.mpr ⟨fun member => ?_,once⟩
        obtain ⟨obj,member,same⟩ := List.mem_map.mp member
        have later := fresh obj member
        dsimp only at same
        omega
      · rw [here,first]
        cases events : file.events <;> cases found <;> simp [events]

/-- Where the loop finds a map and nothing fails, the ring buffer reads that map. -/
theorem start_succeeds {entries : List Dirent} {s t : Loader} {foundMapFd : Nat}
    (looped : loop entries ({ s with gObjs := [], gLinks := [] },none) = (t,some foundMapFd)) :
    ebpfLoaderStart (some entries) true true s = ({ t with rb := some [foundMapFd], rbRunning := true },0) := by
  simp [ebpfLoaderStart,looped]

/-- That is the only way to return 0. -/
theorem start_zero {dir : Option (List Dirent)} {ringBuffer thread : Bool} {s : Loader}
    (started : (ebpfLoaderStart dir ringBuffer thread s).2 = 0) :
    ringBuffer = true ∧ thread = true ∧ ∃ entries t foundMapFd,dir = some entries ∧
      loop entries ({ s with gObjs := [], gLinks := [] },none) = (t,some foundMapFd) := by
  unfold ebpfLoaderStart at started
  split at started
  · cases started
  · rename_i entries
    split at started
    · cases started
    · rename_i t foundMapFd looped
      cases ringBuffer <;> cases thread <;> simp at started
      exact ⟨rfl,rfl,entries,t,foundMapFd,rfl,looped⟩

/-- The maps of the objects are polled exactly if they are all registered. -/
theorem allPolled_iff (s : Loader) :
    AllPolled s ↔ ∀ obj ∈ s.gObjs,obj.file.events = true → s.registered obj = true := by
  refine ⟨And.left,fun registered => ⟨registered,fun submitted own => ?_⟩⟩
  unfold rbPoll
  rw [List.filter_eq_self.mpr]
  intro r member
  obtain ⟨inside,events⟩ := own r member
  exact registered r.1 inside events

/-- No object but the first that is found has a map exactly if at most one has. -/
theorem alone_iff {objs : List BpfObject} (once : (objs.map BpfObject.number).Nodup) {obj : BpfObject}
    (found : (objs.find? fun obj => obj.file.events) = some obj) :
    (∀ other ∈ objs,other.file.events = true → other.number = obj.number) ↔
      ((objs.map BpfObject.file).filter ObjectFile.events).length ≤ 1 := by
  rw [List.filter_map,List.length_map]
  have first : obj ∈ objs.filter (ObjectFile.events ∘ BpfObject.file) :=
    List.mem_filter.mpr ⟨List.mem_of_find?_eq_some found,List.find?_some found⟩
  have distinct : ((objs.filter (ObjectFile.events ∘ BpfObject.file)).map BpfObject.number).Nodup :=
    once.sublist (List.filter_sublist.map BpfObject.number)
  have members : ∀ other,other ∈ objs.filter (ObjectFile.events ∘ BpfObject.file) ↔ other ∈ objs ∧ other.file.events = true :=
    fun other => List.mem_filter
  generalize objs.filter (ObjectFile.events ∘ BpfObject.file) = having at *
  constructor
  · intro alone
    match having,distinct,members with
    | [],_,_ => exact Nat.zero_le 1
    | [_],_,_ => exact Nat.le_refl 1
    | x :: y :: _,distinct,members =>
      obtain ⟨inside,events⟩ := (members x).mp (by simp)
      obtain ⟨inside',events'⟩ := (members y).mp (by simp)
      have same := (alone x inside events).trans (alone y inside' events').symm
      simp [same] at distinct
  · intro few other inside events
    have second := (members other).mpr ⟨inside,events⟩
    match having,first,second,few with
    | [x],first,second,_ => rw [List.mem_singleton.mp first,List.mem_singleton.mp second]

/-- What a successful loop over the directory leaves is polled exactly if at most one kept object has a map. -/
theorem polled_iff {entries : List Dirent} {s t : Loader} {foundMapFd : Nat}
    (looped : loop entries ({ s with gObjs := [], gLinks := [] },none) = (t,some foundMapFd)) :
    AllPolled { t with rb := some [foundMapFd], rbRunning := true } ↔
      ((kept entries).filter ObjectFile.events).length ≤ 1 := by
  obtain ⟨objs,table,files,_,once,first⟩ := loop_objects entries { s with gObjs := [], gLinks := [] } none
  simp only [looped,List.nil_append,List.length_nil,Nat.sub_zero,Option.none_or] at table files first
  obtain ⟨obj,found,rfl⟩ := Option.map_eq_some_iff.mp first.symm
  unfold kept
  rw [← files,← alone_iff once found,allPolled_iff]
  simp [Loader.registered,table]

/-- A loop that finds no map keeps no object that has one. -/
theorem unfound {entries : List Dirent} {s t : Loader}
    (looped : loop entries ({ s with gObjs := [], gLinks := [] },none) = (t,none)) :
    (kept entries).filter ObjectFile.events = [] := by
  obtain ⟨objs,_,files,_,_,first⟩ := loop_objects entries { s with gObjs := [], gLinks := [] } none
  simp only [looped,List.length_nil,Nat.sub_zero,Option.none_or] at files first
  have absent := List.find?_eq_none.mp (Option.map_eq_none_iff.mp first.symm)
  unfold kept
  rw [← files,List.filter_eq_nil_iff]
  intro file member
  obtain ⟨obj,inside,rfl⟩ := List.mem_map.mp member
  exact absent obj inside

/-- Where `ebpf_loader_start` returns 0, every kept map is polled exactly if at most one kept object has a map. -/
theorem kept_maps_polled (dir : Option (List Dirent)) (ringBuffer thread : Bool) (s : Loader) :
    ((ebpfLoaderStart dir ringBuffer thread s).2 = 0 → AllPolled (ebpfLoaderStart dir ringBuffer thread s).1) ↔
      (ringBuffer = false ∨ thread = false ∨ ∀ entries ∈ dir,((kept entries).filter ObjectFile.events).length ≤ 1) := by
  constructor
  · intro polled
    cases ringBuffer with
    | false => exact .inl rfl
    | true =>
      cases thread with
      | false => exact .inr (.inl rfl)
      | true =>
        refine .inr (.inr fun entries opened => ?_)
        obtain rfl := Option.mem_def.mp opened
        cases looped : loop entries ({ s with gObjs := [], gLinks := [] },none) with
        | mk t foundMapFd =>
          cases foundMapFd with
          | none => simp [unfound looped]
          | some foundMapFd =>
            rw [start_succeeds looped] at polled
            exact (polled_iff looped).mp (polled rfl)
  · intro condition started
    obtain ⟨rfl,rfl,entries,t,foundMapFd,rfl,looped⟩ := start_zero started
    have few := (condition.resolve_left (by simp)).resolve_left (by simp) entries rfl
    rw [start_succeeds looped]
    exact (polled_iff looped).mpr few

/-- Two objects, each with a program and a map. -/
def twoObjects : List Dirent :=
  [⟨ascii "open.bpf.o",some ⟨true,[true],true⟩⟩,⟨ascii "rename.bpf.o",some ⟨true,[true],true⟩⟩]

/-- The map of the second object is not polled. -/
theorem second_map_unpolled : ¬ ∀ dir ringBuffer thread s,(ebpfLoaderStart dir ringBuffer thread s).2 = 0 →
    AllPolled (ebpfLoaderStart dir ringBuffer thread s).1 := by
  intro always
  have polled := (always (some twoObjects) true true .initial (by decide)).1 ⟨1,⟨true,[true],true⟩⟩ (by decide) rfl
  revert polled
  decide

end Nulleye.EbpfLoader
