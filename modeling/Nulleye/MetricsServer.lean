import Nulleye.Ledgers
import Nulleye.MetricsReplies
import Nulleye.Runs

/-!
The metrics server: the thread that answers one connection after the other, and the main
thread that starts and stops it. Every step of either may come between two steps of the
other. A descriptor is known by the number of its acquisition. What `dprintf` returns is not
looked at; where the client has gone and its signal kills the process, the run ends there.
-/
namespace Nulleye.MetricsServer
open Nulleye.CStrings Nulleye.Ledgers Nulleye.MetricsReplies Nulleye.Runs

/-- Where `metrics_loop` is. -/
inductive Pc where
  /-- Before `while (metrics_running)`. -/
  | test
  /-- Before the call of `accept`. -/
  | calls
  /-- In `accept`, with the value that `listen_fd` had. -/
  | accepts (listenFd : Option Nat)
  /-- In `recv`. -/
  | receives (fd : Nat)
  /-- Before `dprintf`, with what was received. -/
  | replies (fd : Nat) (chunk : Mem)
  /-- Before `close`. -/
  | closes (fd : Nat)
  | ended
  deriving DecidableEq

/-- Where the main thread is: outside of the functions, or in `metrics_stop` before one of its calls. -/
inductive Main where
  | outside
  | shuts
  | closes
  | joins
  deriving DecidableEq

structure World where
  metricsRunning : Bool
  /-- `listen_fd`; -1 is `none`. -/
  listenFd : Option Nat
  /-- The descriptors, as they were opened. -/
  fds : Ledger
  /-- The descriptor that the kernel takes connections on. -/
  listening : Option Nat
  /-- The thread that was created and not joined. -/
  thread : Option Pc
  main : Main

/-- The program before the first call. -/
def initial : World := ⟨false,none,.empty,none,none,.outside⟩

/-- What `metrics_start` gets from the functions that it calls. -/
structure Starting where
  socket : Bool
  bind : Bool
  listen : Bool
  pthreadCreate : Bool

/-- How a call of `accept` ends. -/
inductive Accepted where
  | connection
  | eintr
  | failed

inductive Action where
  | start (results : Starting)
  /-- The next step of `metrics_stop`. -/
  | stop
  /-- The next step of the thread, outside of `accept` and `recv`; `stale` is what `req` held, and `sent` how
      many bytes of a reply `dprintf` can write. -/
  | turn (stale : Mem) (sent : Nat)
  | accept (result : Accepted)
  /-- The end of a call of `recv`, with the bytes that it got. -/
  | recv (chunk : Mem)

inductive Label where
  | started (rc : Int)
  /-- A step of `metrics_stop`; the last one is that it returns. -/
  | stopping
  | stopped
  /-- A step of the thread that concerns no connection. -/
  | turned
  /-- `"metrics accept failed: %s"`. -/
  | failed
  | accepted (fd : Nat)
  | received (fd : Nat) (chunk : Mem)
  /-- The bytes that `dprintf` has written. -/
  | replied (fd : Nat) (bytes : Mem)
  | closed (fd : Nat)
  deriving DecidableEq

/-- `metrics_start`. -/
def metricsStart (r : Starting) (s : World) : World × Int :=
  if s.metricsRunning then (s,0)
  else if !r.socket then ({ s with listenFd := none },-1)
  else
    let fd := s.fds.fresh
    let s := { s with fds := s.fds.acquire, listenFd := some fd }
    if !r.bind || !r.listen then ({ s with fds := s.fds.release fd, listenFd := none },-1)
    else
      let s := { s with listening := some fd, metricsRunning := true }
      if !r.pthreadCreate then
        ({ s with metricsRunning := false, fds := s.fds.release fd, listening := none, listenFd := none },-1)
      else ({ s with thread := some .test },0)

/-- The next step of `metrics_stop`. -/
def metricsStop (s : World) : Option (World × Label) :=
  match s.main with
  | .outside =>
    if !s.metricsRunning then some (s,.stopped)
    else some ({ s with metricsRunning := false, main := if s.listenFd.isSome then .shuts else .joins },.stopping)
  | .shuts => some ({ s with listening := none, main := .closes },.stopping)
  | .closes => some ({ s with fds := s.fds.releaseSome s.listenFd, listenFd := none, main := .joins },.stopping)
  | .joins => if s.thread = some .ended then some ({ s with thread := none, main := .outside },.stopped) else none

/-- The next step of `metrics_loop` at `pc`, outside of `accept` and `recv`. -/
def metricsTurn (stale : Mem) (sent : Nat) (pc : Pc) (s : World) : Option (World × Label) :=
  match pc with
  | .test => some ({ s with thread := some (if s.metricsRunning then .calls else .ended) },.turned)
  | .calls => some ({ s with thread := some (.accepts s.listenFd) },.turned)
  | .replies fd chunk =>
    (reply chunk stale).map fun bytes => ({ s with thread := some (.closes fd) },.replied fd (bytes.take sent))
  | .closes fd => some ({ s with fds := s.fds.release fd, thread := some .test },.closed fd)
  | _ => none

/-- The end of `accept(listenFd, …)`. A descriptor that the kernel does not listen on fails at once. -/
def metricsAccept (result : Accepted) (listenFd : Option Nat) (s : World) : Option (World × Label) :=
  match result with
  | .failed => some ({ s with thread := some .ended },.failed)
  | .eintr => if listenFd.isSome ∧ s.listening = listenFd then some ({ s with thread := some .test },.turned) else none
  | .connection =>
    if listenFd.isSome ∧ s.listening = listenFd then
      some ({ s with fds := s.fds.acquire, thread := some (.receives s.fds.fresh) },.accepted s.fds.fresh)
    else none

/-- The end of `recv(fd, req, sizeof(req) - 1, 0)`; no bytes are the end of the stream, or an error. -/
def metricsRecv (chunk : Mem) (fd : Nat) (s : World) : Option (World × Label) :=
  if 511 < chunk.length then none
  else some ({ s with thread := some (if 0 < chunk.length then .replies fd chunk else .closes fd) },.received fd chunk)

def step (s : World) : Action → Option (World × Label)
  | .start r => if s.main = .outside then some ((metricsStart r s).1,.started (metricsStart r s).2) else none
  | .stop => metricsStop s
  | .turn stale sent => s.thread.bind fun pc => metricsTurn stale sent pc s
  | .accept result =>
    match s.thread with
    | some (.accepts listenFd) => metricsAccept result listenFd s
    | _ => none
  | .recv chunk =>
    match s.thread with
    | some (.receives fd) => metricsRecv chunk fd s
    | _ => none

/-! ### One step -/

/-- What the main thread has brought the server to. -/
inductive Phase : World → Prop
  | down {fds : Ledger} : Phase ⟨false,none,fds,none,none,.outside⟩
  | up {n : Nat} {fds : Ledger} {pc : Pc} : Phase ⟨true,some n,fds,some n,some pc,.outside⟩
  | shuts {n : Nat} {fds : Ledger} {pc : Pc} : Phase ⟨false,some n,fds,some n,some pc,.shuts⟩
  | closes {n : Nat} {fds : Ledger} {pc : Pc} : Phase ⟨false,some n,fds,none,some pc,.closes⟩
  | joins {fds : Ledger} {pc : Pc} : Phase ⟨false,none,fds,none,some pc,.joins⟩

/-- The connection that the thread has. -/
def Pc.connection : Pc → Option Nat
  | .receives fd | .replies fd _ | .closes fd => some fd
  | _ => none

/-- The connection that the server has. -/
def World.connection (s : World) : Option Nat := s.thread.bind Pc.connection

/-- Everything that a step of the thread can do. -/
inductive Moves (s : World) : Pc → Pc → Ledger → Label → Prop
  | test : Moves s .test (if s.metricsRunning then .calls else .ended) s.fds .turned
  | calls : Moves s .calls (.accepts s.listenFd) s.fds .turned
  | fails {l : Option Nat} : Moves s (.accepts l) .ended s.fds .failed
  | interrupted {n : Nat} : s.listening = some n → Moves s (.accepts (some n)) .test s.fds .turned
  | connects {n : Nat} : s.listening = some n →
      Moves s (.accepts (some n)) (.receives s.fds.fresh) s.fds.acquire (.accepted s.fds.fresh)
  | silent {fd : Nat} : Moves s (.receives fd) (.closes fd) s.fds (.received fd [])
  | hears {fd : Nat} {chunk : Mem} : chunk ≠ [] → Moves s (.receives fd) (.replies fd chunk) s.fds (.received fd chunk)
  | replies {fd : Nat} {chunk : Mem} {sent : Nat} :
      Moves s (.replies fd chunk) (.closes fd) s.fds (.replied fd ((answer chunk).render.take sent))
  | closes {fd : Nat} : Moves s (.closes fd) .test (s.fds.release fd) (.closed fd)

variable {s t : World} {a : Action} {label : Label}

/-- Everything that a step can do: a call of `metrics_start`, a step of `metrics_stop`, or one of the thread. -/
theorem step_cases (moved : step s a = some (t,label)) :
    (∃ r,s.main = .outside ∧ t = (metricsStart r s).1 ∧ label = .started (metricsStart r s).2) ∨
      metricsStop s = some (t,label) ∨
      ∃ pc pc' fds,s.thread = some pc ∧ Moves s pc pc' fds label ∧ t = { s with fds, thread := some pc' } := by
  cases a with
  | start r =>
    simp only [step] at moved
    split_ifs at moved with outside
    cases moved
    exact .inl ⟨r,outside,rfl,rfl⟩
  | stop => exact .inr (.inl moved)
  | turn stale sent =>
    obtain ⟨pc,at_pc,moved⟩ := Option.bind_eq_some_iff.mp moved
    refine .inr (.inr ⟨pc,?_⟩)
    cases pc with
    | test =>
      cases moved
      exact ⟨_,_,at_pc,.test,rfl⟩
    | calls =>
      cases moved
      exact ⟨_,_,at_pc,.calls,rfl⟩
    | replies fd chunk =>
      simp only [metricsTurn,reply_answer,Option.map_some] at moved
      cases moved
      exact ⟨_,_,at_pc,.replies,rfl⟩
    | closes fd =>
      cases moved
      exact ⟨_,_,at_pc,.closes,rfl⟩
    | accepts | receives | ended => cases moved
  | accept result =>
    simp only [step] at moved
    split at moved
    · rename_i l at_pc
      refine .inr (.inr ⟨.accepts l,?_⟩)
      cases result with
      | failed =>
        cases moved
        exact ⟨_,_,at_pc,.fails,rfl⟩
      | eintr =>
        simp only [metricsAccept] at moved
        split_ifs at moved with listens
        cases moved
        obtain ⟨n,rfl⟩ := Option.isSome_iff_exists.mp listens.1
        exact ⟨_,_,at_pc,.interrupted listens.2,rfl⟩
      | connection =>
        simp only [metricsAccept] at moved
        split_ifs at moved with listens
        cases moved
        obtain ⟨n,rfl⟩ := Option.isSome_iff_exists.mp listens.1
        exact ⟨_,_,at_pc,.connects listens.2,rfl⟩
    · cases moved
  | recv chunk =>
    simp only [step] at moved
    split at moved
    · rename_i fd at_pc
      refine .inr (.inr ⟨.receives fd,?_⟩)
      simp only [metricsRecv] at moved
      split_ifs at moved with long some_byte
      · cases moved
        exact ⟨_,_,at_pc,.hears (List.length_pos_iff.mp some_byte),rfl⟩
      · cases moved
        have none_left : chunk = [] := by simpa using some_byte
        subst none_left
        exact ⟨_,_,at_pc,.silent,rfl⟩
    · cases moved

/-- A start, and the steps to the first connection. -/
private def connected : List Action := [.start ⟨true,true,true,true⟩,.turn [] 512,.turn [] 512,.accept .connection]

/-! ### The descriptors -/

/-- The server is in one of its phases, and every descriptor but its own two was closed once. -/
structure Inv (s : World) : Prop where
  phase : Phase s
  owes : s.fds.Owes (s.connection.toList ++ s.listenFd.toList)

theorem inv_initial : Inv initial := ⟨.down,owes_empty⟩

theorem inv_start (inv : Inv s) (outside : s.main = .outside) (r : Starting) : Inv (metricsStart r s).1 := by
  obtain ⟨phase,owes⟩ := inv
  cases phase with
  | up => exact ⟨.up,owes⟩
  | shuts | closes | joins => cases outside
  | @down fds =>
    have closed : (fds.acquire.release fds.fresh).Owes [] := owes.acquired.release
    obtain ⟨socket,bind,listen,create⟩ := r
    cases socket with
    | false => exact ⟨.down,owes⟩
    | true =>
      cases bind with
      | false => exact ⟨.down,closed⟩
      | true =>
        cases listen with
        | false => exact ⟨.down,closed⟩
        | true =>
          cases create with
          | false => exact ⟨.down,closed⟩
          | true => exact ⟨.up,owes.acquired⟩

theorem inv_stop (inv : Inv s) (moved : metricsStop s = some (t,label)) : Inv t := by
  obtain ⟨phase,owes⟩ := inv
  cases phase with
  | down =>
    cases moved
    exact ⟨.down,owes⟩
  | up =>
    cases moved
    exact ⟨.shuts,owes⟩
  | shuts =>
    cases moved
    exact ⟨.closes,owes⟩
  | @closes n fds pc =>
    cases moved
    exact ⟨.joins,(owes.perm List.perm_append_comm).release.perm (by simp [World.connection])⟩
  | @joins fds pc =>
    simp only [metricsStop] at moved
    split_ifs at moved with ended
    cases moved
    cases ended
    exact ⟨.down,owes⟩

theorem inv_moves {pc pc' : Pc} {fds : Ledger} (inv : Inv s) (at_pc : s.thread = some pc) (moves : Moves s pc pc' fds label) :
    Inv { s with fds, thread := some pc' } := by
  obtain ⟨phase,owes⟩ := inv
  have kept : Phase { s with fds, thread := some pc' } := by
    cases phase with
    | down => cases at_pc
    | up => exact .up
    | shuts => exact .shuts
    | closes => exact .closes
    | joins => exact .joins
  refine ⟨kept,?_⟩
  rw [World.connection,at_pc,Option.bind_some] at owes
  change fds.Owes (pc'.connection.toList ++ s.listenFd.toList)
  cases moves with
  | test => cases s.metricsRunning <;> exact owes
  | calls | fails | interrupted | silent | hears | replies => exact owes
  | connects => exact owes.acquired
  | closes => exact owes.release

theorem inv_step (inv : Inv s) (moved : step s a = some (t,label)) : Inv t := by
  rcases step_cases moved with ⟨r,outside,rfl,_⟩ | stopped | ⟨pc,pc',fds,at_pc,moves,rfl⟩
  · exact inv_start inv outside r
  · exact inv_stop inv stopped
  · exact inv_moves inv at_pc moves

theorem inv_run {trace : List Label} (run : Run step free initial trace t) : Inv t :=
  run.invariant (I := fun _ t => Inv t) inv_initial fun _ _ _ _ _ _ inv _ moved => inv_step inv moved

/-- In every state that the two threads can reach, every descriptor that was opened was closed once, except the
    one that listens and the connection that is being served; outside of its functions the main thread leaves either a thread
    and its listener, or neither a thread nor a descriptor. -/
theorem descriptors_closed {trace : List Label} (run : Run step free initial trace t) :
    t.fds.Owes (t.connection.toList ++ t.listenFd.toList) ∧
      (t.main = .outside → if t.metricsRunning then t.thread.isSome ∧ t.listenFd.isSome ∧ t.listening = t.listenFd
        else t.thread = none ∧ t.fds.Balanced) := by
  obtain ⟨phase,owes⟩ := inv_run run
  refine ⟨owes,?_⟩
  intro outside
  cases phase with
  | down => exact ⟨rfl,owes.balanced_iff.mpr rfl⟩
  | up => exact ⟨rfl,rfl,rfl⟩
  | shuts | closes | joins => cases outside

/-- Stopped while the thread waits in `accept`. -/
theorem descriptors_closed_stopped : ∃ trace t,Run step free initial trace t ∧ t.fds.fresh = 1 ∧ t.thread = none ∧ t.fds.Balanced := by
  obtain ⟨trace,t,run,checked⟩ := exists_run_of_check step free initial
    (fun t _ => t.main = .outside ∧ t.metricsRunning = false ∧ t.fds.fresh = 1)
    [.start ⟨true,true,true,true⟩,.turn [] 512,.turn [] 512,.stop,.stop,.stop,.accept .failed,.stop] rfl
  obtain ⟨outside,stopped,one⟩ := of_decide_eq_true checked
  have closed := (descriptors_closed run).2 outside
  rw [if_neg (by simp [stopped])] at closed
  exact ⟨trace,t,run,one,closed⟩

/-! ### The end -/

/-- How many steps the thread has before it at most, once `accept` can only fail. -/
def Pc.rank : Pc → Nat
  | .ended => 0
  | .test => 1
  | .accepts _ => 2
  | .closes _ => 2
  | .calls => 3
  | .replies _ _ => 3
  | .receives _ => 4

theorem rank_moves {pc pc' : Pc} {fds : Ledger} (deaf : s.listening = none) (stopped : s.metricsRunning = false)
    (moves : Moves s pc pc' fds label) : pc'.rank < pc.rank := by
  cases moves with
  | test => simp [stopped,Pc.rank]
  | interrupted listens | connects listens =>
    rw [deaf] at listens
    cases listens
  | calls | fails | silent | hears | replies | closes => simp [Pc.rank]

/-- While the main thread waits in `pthread_join` the thread comes nearer to its end with every step. -/
theorem joins_moves {pc : Pc} (phase : Phase s) (joins : s.main = .joins) (at_pc : s.thread = some pc)
    (moved : step s a = some (t,label)) :
    (label = .stopped ∧ pc = .ended) ∨ (t.main = .joins ∧ Phase t ∧ ∃ pc',t.thread = some pc' ∧ pc'.rank < pc.rank) := by
  cases phase with
  | down | up | shuts | closes => cases joins
  | @joins fds pc₀ =>
    cases at_pc
    rcases step_cases moved with ⟨r,outside,_,_⟩ | stopped | ⟨pc₁,pc',fds',at_pc,moves,rfl⟩
    · cases outside
    · simp only [metricsStop] at stopped
      split_ifs at stopped with ended
      cases stopped
      cases ended
      exact .inl ⟨rfl,rfl⟩
    · cases at_pc
      exact .inr ⟨rfl,.joins,pc',rfl,rank_moves rfl rfl moves⟩

/-- Once `metrics_stop` waits for the thread, at most four more steps can come before it returns, whatever the clients do.
    It can return when the thread has ended; until then the thread can take a step by itself, or `accept` fails, unless
    the thread is in `recv`, where it waits for the client of its connection. -/
theorem stop_waits {trace more : List Label} {u : World} (run : Run step free initial trace t) (joins : t.main = .joins)
    (later : Run step free t more u) (waits : .stopped ∉ more) :
    more.length ≤ 4 ∧ u.main = .joins ∧ ∃ pc,u.thread = some pc ∧
      (pc = .ended → ∃ v,step u .stop = some (v,.stopped) ∧ v.thread = none ∧ v.fds.Balanced) ∧
      (pc ≠ .ended → (∃ fd,pc = .receives fd) ∨
        ∀ sent,∃ v label,step u (.turn [] sent) = some (v,label) ∨ step u (.accept .failed) = some (v,label)) := by
  have start : ∃ pc,t.thread = some pc := by
    have inv := inv_run run
    cases inv.phase with
    | down | up | shuts | closes => cases joins
    | joins => exact ⟨_,rfl⟩
  obtain ⟨pc,at_pc⟩ := start
  have counted : Phase u ∧ u.main = .joins ∧ ∃ pc',u.thread = some pc' ∧ more.length + pc'.rank ≤ pc.rank := by
    revert waits
    refine later.invariant (I := fun more u => .stopped ∉ more → Phase u ∧ u.main = .joins ∧
      ∃ pc',u.thread = some pc' ∧ more.length + pc'.rank ≤ pc.rank) ?_ ?_
    · exact fun _ => ⟨(inv_run run).phase,joins,pc,at_pc,by simp⟩
    · intro more v a w label _ before _ moved waits
      obtain ⟨phase,waiting,pc₁,at_pc₁,few⟩ := before fun stopped => waits (List.mem_append_left _ stopped)
      rcases joins_moves phase waiting at_pc₁ moved with ⟨rfl,_⟩ | ⟨still,phase',pc',at_pc',nearer⟩
      · exact absurd (List.mem_append_right _ (List.mem_singleton_self _)) waits
      · refine ⟨phase',still,pc',at_pc',?_⟩
        simp only [List.length_append,List.length_singleton]
        omega
  obtain ⟨phase,waiting,pc',at_pc',few⟩ := counted
  have four : pc.rank ≤ 4 := by cases pc <;> simp [Pc.rank]
  refine ⟨by omega,waiting,pc',at_pc',?_,?_⟩
  · rintro rfl
    have owes := (inv_run (run.trans later)).owes
    cases phase with
    | down | up | shuts | closes => cases waiting
    | @joins fds pc₀ =>
      cases at_pc'
      exact ⟨_,rfl,rfl,owes.balanced_iff.mpr rfl⟩
  · intro unended
    cases pc' with
    | ended => exact absurd rfl unended
    | receives fd => exact .inl ⟨fd,rfl⟩
    | test | calls | closes => exact .inr fun _ => ⟨_,_,.inl (by rw [step,at_pc']; rfl)⟩
    | replies fd chunk => exact .inr fun _ => ⟨_,_,.inl (by rw [step,at_pc',Option.bind_some,metricsTurn,reply_answer]; rfl)⟩
    | accepts l => exact .inr fun _ => ⟨_,_,.inr (by simp only [step,at_pc']; rfl)⟩

/-- The thread is in `recv`, and the client is silent. -/
theorem stop_waits_silent : ∃ trace t,Run step free initial trace t ∧ t.main = .joins ∧ t.thread = some (.receives 1) ∧
    ∀ more u,Run step free t more u → .stopped ∉ more → more.length ≤ 4 := by
  obtain ⟨trace,t,run,checked⟩ := exists_run_of_check step free initial
    (fun t _ => t.main = .joins ∧ t.thread = some (.receives 1)) (connected ++ [.stop,.stop,.stop]) rfl
  obtain ⟨joins,waits⟩ := of_decide_eq_true checked
  exact ⟨trace,t,run,joins,waits,fun more u later unstopped => (stop_waits run joins later unstopped).1⟩

/-! ### The connections -/

/-- The story of a connection that was served: closed at once if nothing was received, and answered once otherwise,
    as far as `dprintf` could write. -/
inductive Served (fd : Nat) : List Label → Prop
  | silent : Served fd [.accepted fd,.received fd [],.closed fd]
  | answered {chunk : Mem} {sent : Nat} : chunk ≠ [] →
      Served fd [.accepted fd,.received fd chunk,.replied fd ((answer chunk).render.take sent),.closed fd]

/-- The story of the connection that the thread serves. -/
inductive Opened (fd : Nat) : Pc → List Label → Prop
  | receives : Opened fd (.receives fd) [.accepted fd]
  | replies {chunk : Mem} : chunk ≠ [] → Opened fd (.replies fd chunk) [.accepted fd,.received fd chunk]
  | silent : Opened fd (.closes fd) [.accepted fd,.received fd []]
  | answered {chunk : Mem} {sent : Nat} : chunk ≠ [] →
      Opened fd (.closes fd) [.accepted fd,.received fd chunk,.replied fd ((answer chunk).render.take sent)]

/-- `accept` has failed, and `metrics_stop` has not returned since. -/
def Failed (trace : List Label) : Prop := ∃ front back,trace = front ++ .failed :: back ∧ .stopped ∉ back

theorem failed_concat (trace : List Label) (label : Label) :
    Failed (trace ++ [label]) ↔ label = .failed ∨ Failed trace ∧ label ≠ .stopped := by
  constructor
  · rintro ⟨front,back,same,waits⟩
    rcases List.eq_nil_or_concat back with rfl | ⟨back,last,rfl⟩
    · exact .inl (List.cons.inj (List.append_inj' same rfl).2).1
    · rw [List.concat_eq_append,← List.cons_append,← List.append_assoc] at same
      obtain ⟨rfl,last_same⟩ := List.append_inj' same rfl
      cases last_same
      rw [List.concat_eq_append] at waits
      exact .inr ⟨⟨front,back,rfl,fun stopped => waits (List.mem_append_left _ stopped)⟩,
        fun stopped => waits (List.mem_append_right _ (List.mem_singleton.mpr stopped.symm))⟩
  · rintro (rfl | ⟨⟨front,back,rfl,waits⟩,other⟩)
    · exact ⟨trace,[],rfl,by simp⟩
    · exact ⟨front,back ++ [label],by simp,by simp [waits,other.symm]⟩

/-- A thread that ends by itself has seen `accept` fail. -/
structure Ended (trace : List Label) (s : World) : Prop where
  failed : s.thread = some .ended → s.metricsRunning = true → Failed trace
  ended : Failed trace → s.thread = some .ended

theorem ended_step {trace : List Label} (phase : Phase s) (ended : Ended trace s) (moved : step s a = some (t,label)) :
    Ended (trace ++ [label]) t := by
  rcases step_cases moved with ⟨r,outside,rfl,rfl⟩ | stopped | ⟨pc,pc',fds,at_pc,moves,rfl⟩
  · have same : Failed (trace ++ [.started (metricsStart r s).2]) ↔ Failed trace := by simp [failed_concat]
    cases phase with
    | up => exact ⟨fun at_end running => same.mpr (ended.failed at_end running),fun failed => ended.ended (same.mp failed)⟩
    | shuts | closes | joins => cases outside
    | down =>
      refine ⟨fun at_end running => ?_,fun failed => ?_⟩
      · obtain ⟨socket,bind,listen,create⟩ := r
        cases socket <;> cases bind <;> cases listen <;> cases create <;> cases running
        cases at_end
      · cases ended.ended (same.mp failed)
  · cases phase with
    | down =>
      cases stopped
      exact ⟨fun at_end => (by cases at_end),fun failed => absurd ((failed_concat _ _).mp failed) (by simp)⟩
    | up | shuts | closes =>
      cases stopped
      exact ⟨fun _ running => (by cases running),fun failed => ended.ended (by simpa [failed_concat] using failed)⟩
    | joins =>
      simp only [metricsStop] at stopped
      split_ifs at stopped
      cases stopped
      exact ⟨fun at_end => (by cases at_end),fun failed => absurd ((failed_concat _ _).mp failed) (by simp)⟩
  · have alive : pc ≠ .ended := by
      rintro rfl
      cases moves
    have unfailed : ¬ Failed trace := fun failed => alive (Option.some.inj (at_pc.symm.trans (ended.ended failed)))
    have kept : label ≠ .failed → ¬ Failed (trace ++ [label]) := by
      intro other failed
      rcases (failed_concat _ _).mp failed with here | ⟨before,_⟩
      · exact other here
      · exact unfailed before
    cases moves with
    | fails => exact ⟨fun _ _ => (failed_concat _ _).mpr (.inl rfl),fun _ => rfl⟩
    | test =>
      refine ⟨fun at_end running => ?_,fun failed => absurd failed (kept (by simp))⟩
      have running : s.metricsRunning = true := running
      simp [running] at at_end
    | calls | interrupted | connects | silent | hears | replies | closes =>
      exact ⟨fun at_end => (by cases at_end),fun failed => absurd failed (kept (by simp))⟩

/-- While `metrics_running` is set the server is dead exactly if `accept` has failed since `metrics_stop` last returned;
    until the main thread stops it, every call of `metrics_start` then returns 0 and no connection is accepted. -/
theorem dead_server {trace : List Label} (run : Run step free initial trace t) (running : t.metricsRunning = true) :
    (t.thread = some .ended ↔ Failed trace) ∧
      (Failed trace → ∀ more u,Run step (fun _ a => a ≠ .stop) t more u → u = t ∧ ∀ label ∈ more,label = .started 0) := by
  have facts : Inv t ∧ Ended trace t := by
    refine run.invariant (I := fun trace t => Inv t ∧ Ended trace t) ⟨inv_initial,fun at_end => (by cases at_end),?_⟩ ?_
    · rintro ⟨front,back,same,_⟩
      simp at same
    · exact fun _ _ _ _ _ _ facts _ moved => ⟨inv_step facts.1 moved,ended_step facts.1.phase facts.2 moved⟩
  obtain ⟨inv,ended⟩ := facts
  refine ⟨⟨fun at_end => ended.failed at_end running,ended.ended⟩,?_⟩
  intro failed more u later
  have at_end := ended.ended failed
  have outside : t.main = .outside := by
    cases inv.phase with
    | up => rfl
    | down | shuts | closes | joins => cases running
  refine later.invariant (I := fun more u => u = t ∧ ∀ label ∈ more,label = .started 0) ⟨rfl,by simp⟩ ?_
  rintro more v a w label _ ⟨rfl,calls⟩ unstopped moved
  cases a with
  | stop => exact absurd rfl unstopped
  | turn => simp only [step,at_end,Option.bind_some,metricsTurn] at moved; cases moved
  | accept | recv => simp only [step,at_end] at moved; cases moved
  | start r =>
    have again : metricsStart r v = (v,0) := by rw [metricsStart,if_pos running]
    simp only [step,if_pos outside,again] at moved
    cases moved
    refine ⟨rfl,?_⟩
    intro label member
    rcases List.mem_append.mp member with before | last
    · exact calls label before
    · exact List.mem_singleton.mp last

theorem dead_server_failed : ∃ trace t,Run step free initial trace t ∧ t.thread = some .ended ∧
    ∀ more u,Run step (fun _ a => a ≠ .stop) t more u → ∀ label ∈ more,label = .started 0 := by
  obtain ⟨trace,t,run,checked⟩ := exists_run_of_check step free initial
    (fun t _ => t.metricsRunning = true ∧ t.thread = some .ended) [.start ⟨true,true,true,true⟩,.turn [] 512,.turn [] 512,.accept .failed] rfl
  obtain ⟨running,ended⟩ := of_decide_eq_true checked
  obtain ⟨dead,stays⟩ := dead_server run running
  exact ⟨trace,t,run,ended,fun more u later => (stays (dead.mp ended) more u later).2⟩

end Nulleye.MetricsServer
