import Nulleye.LogLines

/-!
The limits that the main thread puts on itself. Strict seccomp leaves a thread four system
calls and ends it at any other one. The rest of `sandbox_apply_limits` needs others: where
strict mode is granted the function does not return, and the user stays what it was.
-/
namespace Nulleye.Sandbox
open Nulleye.CStrings Nulleye.LogLines

/-- What the kernel keeps about a thread: the limits `RLIMIT_NOFILE` and `RLIMIT_CORE`, the two settings of `prctl`, and
    the user. -/
structure Task where
  noFile : Nat
  core : Nat
  noNewPrivs : Bool
  strict : Bool
  uid : Nat
  gid : Nat
  deriving DecidableEq

inductive SysCall where
  | read
  | write
  | exit
  | sigreturn
  | setrlimitNoFile (limit : Nat)
  | setrlimitCore (limit : Nat)
  | noNewPrivs
  | seccompStrict
  | setgid (gid : Nat)
  | setuid (uid : Nat)
  | other (number : Nat)
  deriving DecidableEq

/-- What strict mode permits. -/
def SysCall.permitted : SysCall → Bool
  | .read | .write | .exit | .sigreturn => true
  | _ => false

/-- What a system call that succeeds changes. -/
def SysCall.effect : SysCall → Task → Task
  | .setrlimitNoFile limit, t => { t with noFile := limit }
  | .setrlimitCore limit, t => { t with core := limit }
  | .noNewPrivs, t => { t with noNewPrivs := true }
  | .seccompStrict, t => { t with strict := true }
  | .setgid gid, t => { t with gid }
  | .setuid uid, t => { t with uid }
  | _, t => t

/-- A thread that makes system calls and logs, until one of them ends it. -/
abbrev Thread := StateT (Task × List (Level × Mem)) (Except Task)

/-- A system call, with its error number where it fails. -/
def call (c : SysCall) (errno : Option Nat) : Thread Unit := fun (t,logged) =>
  if t.strict && !c.permitted then .error t else .ok ((),if errno.isSome then t else c.effect t,logged)

/-- The system calls of a library function. -/
def callAll : List SysCall → Thread Unit
  | [] => pure ()
  | c :: rest => do
    call c none
    callAll rest

/-- A system call that changes nothing of a task. -/
def SysCall.plain : SysCall → Bool
  | .read | .write | .other _ => true
  | _ => false

/-- What `sandbox_apply_limits` gets from what it calls: the error numbers, their texts, the user `nobody` if there is one, and
    the system calls of `syslog`, which sends to a socket, and of `getpwnam`. -/
structure Env where
  noFile : Option Nat
  core : Option Nat
  noNewPrivs : Option Nat
  strict : Option Nat
  nobody : Option (Nat × Nat)
  setgid : Option Nat
  setuid : Option Nat
  strerror : Nat → Mem
  syslog : List SysCall
  sends : ∃ c ∈ syslog,c.permitted = false
  getpwnam : List SysCall
  plain : ∀ c ∈ syslog ++ getpwnam,c.plain = true

variable (e : Env)

/-- `nulleye_log`: the line is written to the file, and the message is sent to the system log. -/
def nulleyeLog (level : Level) (message : Mem) : Thread Unit := do
  call .write none
  callAll e.syslog
  modify fun (t,logged) => (t,logged ++ [(level,message)])

/-- A system call with the warning that follows its failure. -/
def attempt (c : SysCall) (errno : Option Nat) (what : Mem) : Thread Unit := do
  call c errno
  match errno with
  | some n => nulleyeLog e .warn (what ++ e.strerror n)
  | none => pure ()

def sandboxApplyLimits : Thread Int := do
  attempt e (.setrlimitNoFile 65536) e.noFile (ascii "setrlimit(RLIMIT_NOFILE) failed: ")
  attempt e (.setrlimitCore 0) e.core (ascii "setrlimit(RLIMIT_CORE) failed: ")
  attempt e .noNewPrivs e.noNewPrivs (ascii "prctl(NO_NEW_PRIVS) failed: ")
  call .seccompStrict e.strict
  match e.strict with
  | some n => nulleyeLog e .warn (ascii "seccomp strict not available or failed: " ++ e.strerror n)
  | none => nulleyeLog e .info (ascii "seccomp strict enabled")
  callAll e.getpwnam
  match e.nobody with
  | none => pure ()
  | some (uid,gid) =>
    attempt e (.setgid gid) e.setgid (ascii "setgid failed: ")
    attempt e (.setuid uid) e.setuid (ascii "setuid failed: ")
  return 0

/-! ### One call -/

variable {e} {t : Task} {logged : List (Level × Mem)}

theorem run_ok {α β : Type} {m : Thread α} {f : α → Thread β} {s s' : Task × List (Level × Mem)} {a : α}
    (ran : m s = .ok (a,s')) : (m >>= f) s = f a s' := by
  simp only [bind,StateT.bind,ran,Except.bind]

theorem run_pure {α : Type} (a : α) (s : Task × List (Level × Mem)) : (pure a : Thread α) s = .ok (a,s) := rfl

theorem run_error {α β : Type} {m : Thread α} {f : α → Thread β} {s : Task × List (Level × Mem)} (ended : m s = .error t) :
    (m >>= f) s = .error t := by
  simp only [bind,StateT.bind,ended,Except.bind]

/-- A task after a call that is not forbidden. -/
def Task.after (errno : Option Nat) (c : SysCall) (t : Task) : Task := if errno.isSome then t else c.effect t

theorem call_free (free : t.strict = false) (c : SysCall) (errno : Option Nat) :
    call c errno (t,logged) = .ok ((),t.after errno c,logged) := by
  simp [call,free,Task.after]

theorem effect_plain {c : SysCall} (plain : c.plain = true) (t : Task) : c.effect t = t := by
  cases c <;> first | rfl | cases plain

theorem after_strict {c : SysCall} (other : c ≠ .seccompStrict) (errno : Option Nat) (t : Task) : (t.after errno c).strict = t.strict := by
  cases errno with
  | some n => rfl
  | none => cases c <;> first | rfl | exact absurd rfl other

theorem callAll_free {calls : List SysCall} (plain : ∀ c ∈ calls,c.plain = true) (free : t.strict = false) :
    callAll calls (t,logged) = .ok ((),t,logged) := by
  induction calls with
  | nil => rfl
  | cons c rest ih =>
    have first := @call_free t logged free c none
    rw [Task.after,effect_plain (plain c List.mem_cons_self),ite_self] at first
    rw [callAll,run_ok first]
    exact ih fun c member => plain c (List.mem_cons_of_mem _ member)

/-- In strict mode a call that is not permitted is the last one. -/
theorem callAll_strict {calls : List SysCall} (plain : ∀ c ∈ calls,c.plain = true) (strict : t.strict = true)
    (forbidden : ∃ c ∈ calls,c.permitted = false) : callAll calls (t,logged) = .error t := by
  induction calls with
  | nil => simp at forbidden
  | cons c rest ih =>
    rw [callAll]
    by_cases here : c.permitted = true
    · have later : ∃ c ∈ rest,c.permitted = false := by simpa [here] using forbidden
      have passes : call c none (t,logged) = .ok ((),t,logged) := by
        simp [call,here,effect_plain (plain c List.mem_cons_self)]
      rw [run_ok passes]
      exact ih (fun c member => plain c (List.mem_cons_of_mem _ member)) later
    · have last : call c none (t,logged) = .error t := by simp [call,strict,here]
      exact run_error last

theorem log_free (free : t.strict = false) (level : Level) (message : Mem) :
    nulleyeLog e level message (t,logged) = .ok ((),t,logged ++ [(level,message)]) := by
  have sent : callAll e.syslog (t,logged) = .ok ((),t,logged) :=
    callAll_free (fun c member => e.plain c (List.mem_append_left _ member)) free
  rw [nulleyeLog,run_ok (call_free free .write none)]
  change (callAll e.syslog >>= fun _ => _) (t,logged) = _
  rw [run_ok sent]
  rfl

theorem log_strict (strict : t.strict = true) (level : Level) (message : Mem) :
    nulleyeLog e level message (t,logged) = .error t := by
  have sent : callAll e.syslog (t,logged) = .error t :=
    callAll_strict (fun c member => e.plain c (List.mem_append_left _ member)) strict e.sends
  have written : call .write none (t,logged) = .ok ((),t,logged) := by
    simp [call,SysCall.permitted,SysCall.effect]
  rw [nulleyeLog,run_ok written]
  exact run_error sent

/-- The warning after a call. -/
def warning (strerror : Nat → Mem) (errno : Option Nat) (what : Mem) : List (Level × Mem) :=
  errno.toList.map fun n => (.warn,what ++ strerror n)

theorem attempt_free (free : t.strict = false) {c : SysCall} (other : c ≠ .seccompStrict) (errno : Option Nat) (what : Mem) :
    attempt e c errno what (t,logged) = .ok ((),t.after errno c,logged ++ warning e.strerror errno what) := by
  unfold attempt
  rw [run_ok (call_free free c errno)]
  cases errno with
  | none => simp [warning,run_pure]
  | some n => exact log_free ((after_strict other _ t).trans free) _ _

/-! ### The function -/

/-- The task before strict mode is asked for. -/
def prepared (e : Env) (t : Task) : Task :=
  ((t.after e.noFile (.setrlimitNoFile 65536)).after e.core (.setrlimitCore 0)).after e.noNewPrivs .noNewPrivs

/-- The user is changed, as far as there is one. -/
def lowered (e : Env) (t : Task) : Task :=
  match e.nobody with
  | none => t
  | some (uid,gid) => (t.after e.setgid (.setgid gid)).after e.setuid (.setuid uid)

/-- What is logged. -/
def warnings (e : Env) : List (Level × Mem) :=
  warning e.strerror e.noFile (ascii "setrlimit(RLIMIT_NOFILE) failed: ") ++
    warning e.strerror e.core (ascii "setrlimit(RLIMIT_CORE) failed: ") ++
    warning e.strerror e.noNewPrivs (ascii "prctl(NO_NEW_PRIVS) failed: ") ++
    warning e.strerror e.strict (ascii "seccomp strict not available or failed: ") ++
    if e.nobody.isSome then
      warning e.strerror e.setgid (ascii "setgid failed: ") ++ warning e.strerror e.setuid (ascii "setuid failed: ")
    else []

/-- Where strict mode is granted the thread ends with the user that it had; else the function returns 0 and has tried all
    the rest. -/
theorem limits_eq (free : t.strict = false) :
    sandboxApplyLimits e (t,[]) =
      if e.strict = none then .error { prepared e t with strict := true } else .ok (0,lowered e (prepared e t),warnings e) := by
  have free₁ : (t.after e.noFile (.setrlimitNoFile 65536)).strict = false := (after_strict (by decide) _ _).trans free
  have free₂ : ((t.after e.noFile (.setrlimitNoFile 65536)).after e.core (.setrlimitCore 0)).strict = false :=
    (after_strict (by decide) _ _).trans free₁
  have free₃ : (prepared e t).strict = false := (after_strict (by decide) e.noNewPrivs _).trans free₂
  unfold sandboxApplyLimits
  rw [run_ok (attempt_free free (by decide) e.noFile _),run_ok (attempt_free free₁ (by decide) e.core _),
    run_ok (attempt_free free₂ (by decide) e.noNewPrivs _)]
  change (call .seccompStrict e.strict >>= _) (prepared e t,_) = _
  rw [run_ok (call_free free₃ .seccompStrict e.strict)]
  cases strict : e.strict with
  | none => exact run_error (log_strict rfl _ _)
  | some n =>
    simp only [Task.after,Option.isSome_some,if_true]
    rw [run_ok (log_free free₃ _ _),run_ok (callAll_free (fun c member => e.plain c (List.mem_append_right _ member)) free₃)]
    simp only [reduceCtorEq,if_false]
    cases nobody : e.nobody with
    | none => simp [lowered,warnings,warning,strict,nobody,run_pure]
    | some user =>
      obtain ⟨uid,gid⟩ := user
      have other : SysCall.setgid gid ≠ .seccompStrict := by simp
      have other' : SysCall.setuid uid ≠ .seccompStrict := by simp
      have free₄ : ((prepared e t).after e.setgid (.setgid gid)).strict = false := (after_strict other _ _).trans free₃
      dsimp only
      rw [run_ok (attempt_free free₃ other e.setgid _),run_ok (attempt_free free₄ other' e.setuid _)]
      simp [lowered,warnings,warning,strict,nobody,run_pure]

end Nulleye.Sandbox
