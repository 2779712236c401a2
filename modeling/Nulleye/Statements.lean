/-!
Prepared statements of a database in serialised mode, as a library: the parameters
keep their values until they are bound again, binding is refused after a step that
no reset followed, and a step after a finished step executes the statement again. An
INSERT statement is kept together with its table.
-/
namespace Nulleye.Statements

variable {Row : Type}

/-- The statement's parameters, whether it was stepped since its last reset, and the table it inserts into. -/
structure Insert (Row : Type) where
  bindings : Row
  stepped : Bool
  rows : List Row

/-- Resetting keeps the values of the parameters. -/
def Insert.reset (s : Insert Row) : Insert Row := { s with stepped := false }

/-- Binding one parameter; a statement that was stepped and not reset refuses. -/
def Insert.bind (set : Row → Row) (s : Insert Row) : Insert Row :=
  if s.stepped then s else { s with bindings := set s.bindings }

/-- One execution with the values that the parameters have. -/
def Insert.step (done : Bool) (s : Insert Row) : Insert Row :=
  { s with stepped := true, rows := if done then s.rows ++ [s.bindings] else s.rows }

@[simp] theorem reset_bindings (s : Insert Row) : s.reset.bindings = s.bindings := rfl
@[simp] theorem reset_stepped (s : Insert Row) : s.reset.stepped = false := rfl
@[simp] theorem reset_rows (s : Insert Row) : s.reset.rows = s.rows := rfl
@[simp] theorem bind_stepped (set : Row → Row) (s : Insert Row) : (s.bind set).stepped = s.stepped := by
  unfold Insert.bind
  split <;> rfl
@[simp] theorem bind_rows (set : Row → Row) (s : Insert Row) : (s.bind set).rows = s.rows := by
  unfold Insert.bind
  split <;> rfl
theorem bind_bindings {s : Insert Row} (ready : s.stepped = false) (set : Row → Row) :
    (s.bind set).bindings = set s.bindings := by
  simp [Insert.bind,ready]
@[simp] theorem step_rows (done : Bool) (s : Insert Row) :
    (s.step done).rows = s.rows ++ if done then [s.bindings] else [] := by
  cases done <;> simp [Insert.step]

/-! ### Other statements -/

/-- A statement's parameters, and whether it was stepped since its last reset. -/
structure Prepared (Row : Type) where
  bindings : Row
  stepped : Bool

def Prepared.reset (s : Prepared Row) : Prepared Row := { s with stepped := false }

def Prepared.bind (set : Row → Row) (s : Prepared Row) : Prepared Row :=
  if s.stepped then s else { s with bindings := set s.bindings }

/-- Stepping executes the statement with the values that its parameters have. -/
def Prepared.step (s : Prepared Row) : Prepared Row := { s with stepped := true }

@[simp] theorem prepared_reset_stepped (s : Prepared Row) : s.reset.stepped = false := rfl
@[simp] theorem prepared_bind_stepped (set : Row → Row) (s : Prepared Row) : (s.bind set).stepped = s.stepped := by
  unfold Prepared.bind
  split <;> rfl
theorem prepared_bind_bindings {s : Prepared Row} (ready : s.stepped = false) (set : Row → Row) :
    (s.bind set).bindings = set s.bindings := by
  simp [Prepared.bind,ready]

end Nulleye.Statements
