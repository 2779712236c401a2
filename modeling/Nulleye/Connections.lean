import Nulleye.Ledgers

/-!
The connections and prepared statements of a database library, as a library. Both are
known by number, in the order in which they were made. A statement is used through a
pointer on behalf of the current connection: it is misused when it was finalized before
or belongs to another connection. A connection with statements left is not closed.
-/
namespace Nulleye.Connections
open Nulleye.Ledgers

/-- What a step returns. -/
inductive StepResult where
  | done
  | row
  | error
  deriving DecidableEq

/-- A prepared statement; it is active after a step that returned a row until it is reset,
    finalized, or stepped without another row. -/
structure Statement where
  conn : Nat
  finalized : Bool
  active : Bool
  deriving DecidableEq

def Statement.reset (s : Statement) : Statement := { s with active := false }

/-- Binding changes a parameter only. -/
def Statement.bind (s : Statement) : Statement := s

def Statement.step (r : StepResult) (s : Statement) : Statement := { s with active := r = .row }

def Statement.finalize (s : Statement) : Statement := { s with finalized := true, active := false }

/-- The ledger of the connections, the statements, and whether one was misused. -/
structure Engine where
  connections : Ledger
  statements : List Statement
  misused : Bool
  deriving DecidableEq

/-- Opening a connection. -/
def Engine.openConnection (e : Engine) : Engine := { e with connections := e.connections.acquire }

/-- Preparing a statement on a connection. -/
def Engine.prepare (conn : Nat) (e : Engine) : Engine := { e with statements := e.statements ++ [⟨conn,false,false⟩] }

/-- What becomes of a statement that is used; a finalized one is left alone. -/
def Statement.used (f : Statement → Statement) (s : Statement) : Statement := if s.finalized then s else f s

/-- A statement that may be used on behalf of a connection. -/
def Statement.usable (current : Option Nat) (s : Statement) : Bool := !s.finalized && current = some s.conn

/-- Using a statement through a pointer; NULL is not used. -/
def Engine.use (f : Statement → Statement) (current p : Option Nat) (e : Engine) : Engine :=
  match p with
  | none => e
  | some i =>
    { e with
      misused := e.misused || !(e.statements[i]?).any (Statement.usable current)
      statements := e.statements.modify i (Statement.used f) }

/-- Closing a connection, which fails while it has statements that are not finalized. -/
def Engine.close (conn : Nat) (e : Engine) : Engine :=
  if e.statements.any (fun s => s.conn = conn && !s.finalized) then e
  else { e with connections := e.connections.release conn }

/-- A pointer to a statement that was finalized. -/
def Engine.stale (p : Option Nat) (e : Engine) : Bool :=
  match p with
  | none => false
  | some i => (e.statements[i]?).any Statement.finalized

/-- No statement is active. -/
def Engine.Idle (e : Engine) : Prop := ∀ s ∈ e.statements,s.active = false

/-! ### Using a statement -/

@[simp] theorem use_connections (f : Statement → Statement) (current p : Option Nat) (e : Engine) :
    (e.use f current p).connections = e.connections := by
  cases p <;> rfl

@[simp] theorem use_null (f : Statement → Statement) (current : Option Nat) (e : Engine) : e.use f current none = e := rfl

@[simp] theorem use_length (f : Statement → Statement) (current p : Option Nat) (e : Engine) :
    (e.use f current p).statements.length = e.statements.length := by
  cases p <;> simp [Engine.use]

/-- Only the statement of the pointer changes. -/
theorem use_statement (f : Statement → Statement) (current p : Option Nat) (e : Engine) (i : Nat) :
    (e.use f current p).statements[i]? =
      if p = some i then e.statements[i]?.map (Statement.used f) else e.statements[i]? := by
  cases p with
  | none => simp
  | some j => by_cases same : j = i <;> simp [Engine.use,same]

theorem use_found {e : Engine} {i : Nat} {s : Statement} (found : e.statements[i]? = some s) {current : Option Nat}
    (usable : s.usable current = true) (f : Statement → Statement) :
    (e.use f current (some i)).misused = e.misused := by
  simp [Engine.use,found,usable]

theorem stale_found {e : Engine} {p : Option Nat} (stale : e.stale p = true) :
    ∃ i s,p = some i ∧ e.statements[i]? = some s ∧ s.finalized = true := by
  cases p with
  | none => cases stale
  | some i =>
    simp only [Engine.stale,Option.any_eq_true] at stale
    obtain ⟨s,found,finalized⟩ := stale
    exact ⟨i,s,rfl,found,finalized⟩

/-- A finalized statement is misused. -/
theorem use_stale {e : Engine} {p : Option Nat} (stale : e.stale p = true) (f : Statement → Statement) (current : Option Nat) :
    (e.use f current p).misused = true := by
  obtain ⟨i,s,rfl,found,finalized⟩ := stale_found stale
  simp [Engine.use,found,Statement.usable,finalized]

/-- A misuse is not forgotten. -/
theorem use_misused {e : Engine} (misused : e.misused = true) (f : Statement → Statement) (current p : Option Nat) :
    (e.use f current p).misused = true := by
  cases p <;> simp [Engine.use,misused]

/-- A finalized statement stays finalized. -/
theorem stale_use {e : Engine} {p : Option Nat} (stale : e.stale p = true) (f : Statement → Statement) (current q : Option Nat) :
    (e.use f current q).stale p = true := by
  obtain ⟨i,s,rfl,found,finalized⟩ := stale_found stale
  by_cases same : q = some i <;> simp [Engine.stale,use_statement,found,finalized,Statement.used,same]

/-- A pointer is stale after a use that finalizes nothing only if it was before. -/
theorem use_keeps_stale {f : Statement → Statement} (keeps : ∀ s,(f s).finalized = s.finalized) (current q p : Option Nat) (e : Engine) :
    (e.use f current q).stale p = e.stale p := by
  cases p with
  | none => rfl
  | some i =>
    by_cases same : q = some i
    · cases found : e.statements[i]? with
      | none => simp [Engine.stale,use_statement,same,found]
      | some s => cases finalized : s.finalized <;> simp [Engine.stale,use_statement,same,found,Statement.used,keeps,finalized]
    · simp [Engine.stale,use_statement,same]

/-! ### Closing a connection -/

theorem close_misused (conn : Nat) (e : Engine) : (e.close conn).misused = e.misused := by
  unfold Engine.close
  split <;> rfl

end Nulleye.Connections
