import Nulleye.Counting
import Nulleye.EventBus
import Nulleye.Runs

/-!
The event bus under any number of threads. Every atomic load, every `fetch_add`
and `fetch_sub` and every copy of an event is one step of one thread, and the
steps of different threads interleave freely. The bus is initialised: `g_ring`
is not NULL, and neither are the arguments of the calls.
-/
namespace Nulleye.BusThreads
open Nulleye.Counting Nulleye.Events Nulleye.EventBus Nulleye.Runs Nulleye.Words

variable {w : Nat}

/-- What the threads share. -/
structure Shared (w : Nat) where
  slots : Slots w
  gHead : BitVec w
  gTail : BitVec w

def Shared.bus (g : Shared w) : Bus w := ⟨some g.slots,g.gHead,g.gTail⟩

/-- A call that a thread may begin. -/
inductive Op where
  | publish (ev : NuleyeEvent)
  | consume
  | pending

/-- Where a thread is, with its local variables: the constructor names the function
    and the last local variable that got its value. -/
inductive Pc (w : Nat) where
  | idle
  | publish (ev : NuleyeEvent)
  | publishHead (ev : NuleyeEvent) (head : BitVec w)
  | publishTail (ev : NuleyeEvent) (head tail : BitVec w)
  | publishIdx (ev : NuleyeEvent) (idx : BitVec w)
  | consume
  | consumeTail (tail : BitVec w)
  | consumeEmpty (tail : BitVec w)
  | consumeFound (tail : BitVec w)
  | pending
  | pendingHead (head : BitVec w)
  deriving DecidableEq

/-- What one step does. `full`, `copiedIn`, `undone`, `copiedOut` and `pended` are the
    last steps of calls that return `-ENOBUFS`, 0, 0, 1 and `head - tail`. -/
inductive Obs (w : Nat) where
  | called (op : Op)
  | loadedHead (head : BitVec w)
  | full (head tail : BitVec w)
  | roomy (head tail : BitVec w)
  | reserved (idx : BitVec w) (ev : NuleyeEvent)
  | copiedIn (idx : BitVec w) (ev : NuleyeEvent)
  | took (tail : BitVec w)
  | claimed (tail : BitVec w)
  | missed (tail : BitVec w)
  | undone (tail : BitVec w)
  | copiedOut (tail : BitVec w) (ev : NuleyeEvent)
  | pended (head tail : BitVec w)

/-- A step as it is seen from outside. -/
structure Label (w : Nat) where
  thread : Nat
  obs : Obs w

/-- The bus and its threads. -/
structure World (w : Nat) extends Shared w where
  threads : List (Pc w)

/-- An initialised bus of the given capacity with `n` threads that have not called it yet. -/
def World.initial (capacity : BitVec w) (positive : 0 < capacity.toNat) (n : Nat) : World w :=
  ⟨⟨Slots.zeroed capacity positive,0,0⟩,List.replicate n .idle⟩

/-- Where a call begins, after its NULL checks. -/
@[simp] def Op.entry : Op → Pc w
  | .publish ev => .publish ev
  | .consume => .consume
  | .pending => .pending

/-- The next atomic step of a thread inside a call. -/
def advance (g : Shared w) : Pc w → Option (Shared w × Pc w × Obs w)
  | .idle => none
  | .publish ev => some (g,.publishHead ev g.gHead,.loadedHead g.gHead)
  | .publishHead ev head =>
    if g.slots.full head g.gTail then some (g,.idle,.full head g.gTail)
    else some (g,.publishTail ev head g.gTail,.roomy head g.gTail)
  | .publishTail ev _ _ => some ({ g with gHead := g.gHead + 1 },.publishIdx ev g.gHead,.reserved g.gHead ev)
  | .publishIdx ev idx => some ({ g with slots := g.slots.copyIn idx ev },.idle,.copiedIn idx ev)
  | .consume => some ({ g with gTail := g.gTail + 1 },.consumeTail g.gTail,.took g.gTail)
  | .consumeTail tail =>
    if tail ≥ g.gHead then some (g,.consumeEmpty tail,.missed tail) else some (g,.consumeFound tail,.claimed tail)
  | .consumeEmpty tail => some ({ g with gTail := g.gTail - 1 },.idle,.undone tail)
  | .consumeFound tail => some (g,.idle,.copiedOut tail (g.slots.copyOut tail))
  | .pending => some (g,.pendingHead g.gHead,.loadedHead g.gHead)
  | .pendingHead head => some (g,.idle,.pended head g.gTail)

/-- The scheduler's choice: an idle thread begins a call, or a thread takes its next step. -/
inductive Action where
  | call (i : Nat) (op : Op)
  | advance (i : Nat)

def step (s : World w) : Action → Option (World w × Label w)
  | .call i op =>
    match s.threads[i]? with
    | some .idle => some ({ s with threads := s.threads.set i op.entry },⟨i,.called op⟩)
    | _ => none
  | .advance i =>
    match s.threads[i]? with
    | none => none
    | some pc => (advance s.toShared pc).map (fun (g,pc',obs) => (⟨g,s.threads.set i pc'⟩,⟨i,obs⟩))

/-- A condition on the steps of threads inside a call, on the state before the step. -/
def advancing (cond : World w → Pc w → Prop) (s : World w) : Action → Prop
  | .call _ _ => True
  | .advance i =>
    match s.threads[i]? with
    | some pc => cond s pc
    | none => True

instance {cond : World w → Pc w → Prop} [∀ s pc, Decidable (cond s pc)] (s : World w) (a : Action) :
    Decidable (advancing cond s a) :=
  match a with
  | .call _ _ => .isTrue trivial
  | .advance i =>
    match h : s.threads[i]? with
    | some pc => decidable_of_iff (cond s pc) (by simp [advancing,h])
    | none => .isTrue (by simp [advancing,h])

theorem advancing_of_found {cond : World w → Pc w → Prop} {s : World w} {i : Nat} {pc : Pc w}
    (allowed : advancing cond s (.advance i)) (found : s.threads[i]? = some pc) : cond s pc := by
  simpa [advancing,found] using allowed

theorem advancing_weaken {cond cond' : World w → Pc w → Prop} (weaker : ∀ s pc, cond s pc → cond' s pc) (s : World w)
    (a : Action) (allowed : advancing cond s a) : advancing cond' s a := by
  cases a with
  | call i op => trivial
  | advance i =>
    cases found : s.threads[i]? with
    | none => simp [advancing,found]
    | some pc => simpa [advancing,found] using weaker s pc (advancing_of_found allowed found)

theorem advancing_and {cond cond' : World w → Pc w → Prop} {s : World w} {a : Action} (first : advancing cond s a)
    (second : advancing cond' s a) : advancing (fun s pc => cond s pc ∧ cond' s pc) s a := by
  cases a with
  | call i op => trivial
  | advance i =>
    cases found : s.threads[i]? with
    | none => simp [advancing,found]
    | some pc => simpa [advancing,found] using ⟨advancing_of_found first found,advancing_of_found second found⟩

/-! ### The moves of one thread -/

/-- Every way in which a thread moves: where it was, what is seen, and where it is. -/
inductive Move (g : Shared w) : Pc w → Obs w → Shared w → Pc w → Prop
  | call (op : Op) : Move g .idle (.called op) g op.entry
  | loadHead (ev : NuleyeEvent) : Move g (.publish ev) (.loadedHead g.gHead) g (.publishHead ev g.gHead)
  | full (ev : NuleyeEvent) (head : BitVec w) (test : g.slots.full head g.gTail) :
      Move g (.publishHead ev head) (.full head g.gTail) g .idle
  | roomy (ev : NuleyeEvent) (head : BitVec w) (test : ¬ g.slots.full head g.gTail) :
      Move g (.publishHead ev head) (.roomy head g.gTail) g (.publishTail ev head g.gTail)
  | reserve (ev : NuleyeEvent) (head tail : BitVec w) :
      Move g (.publishTail ev head tail) (.reserved g.gHead ev) { g with gHead := g.gHead + 1 }
        (.publishIdx ev g.gHead)
  | copyIn (ev : NuleyeEvent) (idx : BitVec w) :
      Move g (.publishIdx ev idx) (.copiedIn idx ev) { g with slots := g.slots.copyIn idx ev } .idle
  | take : Move g .consume (.took g.gTail) { g with gTail := g.gTail + 1 } (.consumeTail g.gTail)
  | claim (tail : BitVec w) (test : tail < g.gHead) :
      Move g (.consumeTail tail) (.claimed tail) g (.consumeFound tail)
  | miss (tail : BitVec w) (test : g.gHead ≤ tail) :
      Move g (.consumeTail tail) (.missed tail) g (.consumeEmpty tail)
  | undo (tail : BitVec w) :
      Move g (.consumeEmpty tail) (.undone tail) { g with gTail := g.gTail - 1 } .idle
  | copyOut (tail : BitVec w) :
      Move g (.consumeFound tail) (.copiedOut tail (g.slots.copyOut tail)) g .idle
  | loadPending : Move g .pending (.loadedHead g.gHead) g (.pendingHead g.gHead)
  | pend (head : BitVec w) : Move g (.pendingHead head) (.pended head g.gTail) g .idle

theorem advance_move {g g' : Shared w} {pc pc' : Pc w} {obs : Obs w} (moved : advance g pc = some (g',pc',obs)) :
    Move g pc obs g' pc' := by
  cases pc with
  | idle => cases moved
  | publish ev => cases moved; exact .loadHead ev
  | publishHead ev head =>
    rw [advance] at moved
    split at moved
    · rename_i test; cases moved; exact .full ev head test
    · rename_i test; cases moved; exact .roomy ev head test
  | publishTail ev head tail => cases moved; exact .reserve ev head tail
  | publishIdx ev idx => cases moved; exact .copyIn ev idx
  | consume => cases moved; exact .take
  | consumeTail tail =>
    rw [advance] at moved
    split at moved
    · rename_i test; cases moved; exact .miss tail test
    · rename_i test; cases moved; exact .claim tail (BitVec.not_le.mp test)
  | consumeEmpty tail => cases moved; exact .undo tail
  | consumeFound tail => cases moved; exact .copyOut tail
  | pending => cases moved; exact .loadPending
  | pendingHead head => cases moved; exact .pend head

/-- The scheduler's choice behind a label. -/
def Label.action (label : Label w) : Action :=
  match label.obs with
  | .called op => .call label.thread op
  | _ => .advance label.thread

theorem move_action {g g' : Shared w} {pc pc' : Pc w} {obs : Obs w} (i : Nat) (moved : advance g pc = some (g',pc',obs)) :
    Label.action ⟨i,obs⟩ = .advance i := by
  have move := advance_move moved
  cases move with
  | call op => cases moved
  | _ => rfl

/-- The condition holds of a thread that moves, also where it begins a call. -/
theorem advancing_of_move {cond : World w → Pc w → Prop} {s : World w} {i : Nat} {old new : Pc w} {obs : Obs w}
    {g' : Shared w} (allowed : advancing cond s (Label.action ⟨i,obs⟩)) (found : s.threads[i]? = some old)
    (move : Move s.toShared old obs g' new) (idle : cond s .idle) : cond s old := by
  cases move with
  | call op => exact idle
  | _ => exact advancing_of_found allowed found

/-- A step moves the thread that its label names. -/
theorem step_move {s u : World w} {a : Action} {label : Label w} (moved : step s a = some (u,label)) :
    a = label.action ∧ ∃ old new, s.threads[label.thread]? = some old ∧
      u.threads = s.threads.set label.thread new ∧ Move s.toShared old label.obs u.toShared new := by
  cases a with
  | call i op =>
    rw [step] at moved
    split at moved
    · rename_i found
      cases moved
      exact ⟨rfl,.idle,op.entry,found,rfl,.call op⟩
    · cases moved
  | advance i =>
    rw [step] at moved
    split at moved
    · cases moved
    · rename_i pc found
      obtain ⟨⟨g,pc',obs⟩,advanced,same⟩ := Option.map_eq_some_iff.mp moved
      cases same
      exact ⟨(move_action i advanced).symm,pc,pc',found,rfl,advance_move advanced⟩

/-- What holds at first and is kept by every move of every thread holds after every run. -/
theorem run_induction {ok : World w → Action → Prop} {s0 : World w} {I : List (Label w) → World w → Prop}
    (init : I [] s0)
    (keep : ∀ trace g pool i old obs g' new, Run step ok s0 trace ⟨g,pool⟩ → I trace ⟨g,pool⟩ →
      ok ⟨g,pool⟩ (Label.action ⟨i,obs⟩) → pool[i]? = some old → Move g old obs g' new →
      I (trace ++ [⟨i,obs⟩]) ⟨g',pool.set i new⟩)
    {trace : List (Label w)} {s : World w} (run : Run step ok s0 trace s) : I trace s := by
  refine run.invariant init ?_
  intro trace s a u label before holds allowed moved
  obtain ⟨rfl,old,new,found,threads,move⟩ := step_move moved
  obtain ⟨g,pool⟩ := s
  obtain ⟨g',pool'⟩ := u
  cases threads
  exact keep trace g pool label.thread old label.obs g' new before holds allowed found move

/-! ### Calls without interleaving -/

/-- The scheduler's choices for a whole call of thread `i` that takes `steps` atomic steps. -/
def wholeCall (i : Nat) (op : Op) (steps : Nat) : List Action := .call i op :: List.replicate steps (.advance i)

/-- The call as it is made on the bus alone; `out` is the former content of a consumer's buffer. -/
def Op.call (out : NuleyeEvent) : Op → Call
  | .publish ev => .publish ev
  | .consume => .consume out
  | .pending => .pending

/-- What a thread gets back from the call that a step ends. -/
def Obs.reply (out : NuleyeEvent) : Obs w → Option Reply
  | .full _ _ => some (.published (-ENOBUFS))
  | .copiedIn _ _ => some (.published 0)
  | .undone _ => some (.consumed 0 (some out))
  | .copiedOut _ ev => some (.consumed 1 (some ev))
  | .pended head tail => some (.pending (head - tail).toNat)
  | _ => none

/-- How many steps the call takes when no other thread moves. -/
def Op.steps (g : Shared w) : Op → Nat
  | .publish _ => if g.slots.full g.gHead g.gTail then 2 else 4
  | .consume => 3
  | .pending => 2

private theorem exec_call {s : World w} {i : Nat} (idle : s.threads[i]? = some .idle) (op : Op) (rest : List Action) :
    exec step free s (.call i op :: rest) =
      (exec step free ⟨s.toShared,s.threads.set i op.entry⟩ rest).map (fun r => (r.1,⟨i,.called op⟩ :: r.2)) := by
  simp [exec,free,step,idle]

private theorem exec_advance {s : World w} {i : Nat} (inside : i < s.threads.length) {g g' : Shared w} {pc pc' : Pc w}
    {obs : Obs w} (moved : advance g pc = some (g',pc',obs)) (rest : List Action) :
    exec step free ⟨g,s.threads.set i pc⟩ (.advance i :: rest) =
      (exec step free ⟨g',s.threads.set i pc'⟩ rest).map (fun r => (r.1,⟨i,obs⟩ :: r.2)) := by
  simp [exec,free,step,inside,moved]

private theorem exec_done {s : World w} {i : Nat} (idle : s.threads[i]? = some .idle) (g : Shared w) :
    exec step free ⟨g,s.threads.set i .idle⟩ [] = some (⟨g,s.threads⟩,[]) := by
  obtain ⟨inside,same⟩ := List.getElem?_eq_some_iff.mp idle
  rw [exec,← same,List.set_getElem_self]

/-- A call during which no other thread moves does to the bus what the sequential
    function does, and gives the same reply. -/
theorem call_alone (s : World w) {i : Nat} (idle : s.threads[i]? = some .idle) (op : Op) (out : NuleyeEvent) :
    ∃ g trace last,
      exec step free s (wholeCall i op (op.steps s.toShared)) = some (⟨g,s.threads⟩,trace ++ [⟨i,last⟩]) ∧
      (busCall s.toShared.bus (op.call out)).1 = g.bus ∧
      some (busCall s.toShared.bus (op.call out)).2 = last.reply out := by
  obtain ⟨inside,_⟩ := List.getElem?_eq_some_iff.mp idle
  rw [wholeCall,exec_call idle]
  cases op with
  | publish ev =>
    by_cases test : s.slots.full s.gHead s.gTail
    · simp only [Op.steps,test,if_true,List.replicate,Op.entry]
      rw [exec_advance inside rfl,exec_advance inside (by rw [advance,if_pos test]),exec_done idle]
      exact ⟨_,[_,_],_,rfl,by simp [busCall,eventBusPublish,Op.call,Shared.bus,test],
        by simp [busCall,eventBusPublish,Op.call,Shared.bus,test,Obs.reply]⟩
    · simp only [Op.steps,test,if_false,List.replicate,Op.entry]
      rw [exec_advance inside rfl,exec_advance inside (by rw [advance,if_neg test]),exec_advance inside rfl,
        exec_advance inside rfl,exec_done idle]
      exact ⟨_,[_,_,_,_],_,rfl,by simp [busCall,eventBusPublish,Op.call,Shared.bus,test],
        by simp [busCall,eventBusPublish,Op.call,Shared.bus,test,Obs.reply]⟩
  | consume =>
    simp only [Op.steps,List.replicate,Op.entry]
    by_cases test : s.gTail ≥ s.gHead
    · rw [exec_advance inside rfl,exec_advance inside (by rw [advance,if_pos test]),exec_advance inside rfl,
        exec_done idle]
      exact ⟨_,[_,_,_],_,rfl,by simp [busCall,eventBusConsume,Op.call,Shared.bus,test],
        by simp [busCall,eventBusConsume,Op.call,Shared.bus,test,Obs.reply]⟩
    · rw [exec_advance inside rfl,exec_advance inside (by rw [advance,if_neg test]),exec_advance inside rfl,
        exec_done idle]
      exact ⟨_,[_,_,_],_,rfl,by simp [busCall,eventBusConsume,Op.call,Shared.bus,test],
        by simp [busCall,eventBusConsume,Op.call,Shared.bus,test,Obs.reply]⟩
  | pending =>
    simp only [Op.steps,List.replicate,Op.entry]
    rw [exec_advance inside rfl,exec_advance inside rfl,exec_done idle]
    exact ⟨_,[_,_],_,rfl,rfl,rfl⟩

end Nulleye.BusThreads
