import Mathlib.Data.List.Basic

/-!
# Transactions over a database and a file system

A writer that changes a database and plain files in one transaction gets two
different kinds of atomicity: a failed or interrupted transaction rolls the
*database* back, and leaves every *file* change it already made in place.  This
file is that asymmetry and nothing else, over an arbitrary database type `D`
and an arbitrary file state `F`.

A `Stmt` sees both halves and either goes on or fails; a failing statement may
already have changed files.  `exec` runs a script of statements, `commit`
settles a script that ran to its end, and `interrupted` is what is left when the
process stops (or the commit itself fails) after the first `n` statements.
-/

namespace Kache

universe u v

/-- What one statement of a transaction leaves behind. -/
inductive Outcome (D : Type u) (F : Type v) where
  /-- The transaction goes on with these contents. -/
  | ok (db : D) (files : F)
  /-- The transaction fails; the file changes made so far stay. -/
  | failed (files : F)

namespace Outcome

variable {D : Type u} {F : Type v}

/-- Continue a successful outcome, keep a failed one. -/
def andThen (o : Outcome D F) (next : D → F → Outcome D F) : Outcome D F :=
  match o with
  | ok db files => next db files
  | failed files => failed files

@[simp] theorem andThen_ok (db : D) (files : F) (next : D → F → Outcome D F) :
    (ok db files).andThen next = next db files := rfl

@[simp] theorem andThen_failed (files : F) (next : D → F → Outcome D F) :
    (failed files : Outcome D F).andThen next = failed files := rfl

theorem andThen_eq_ok {o : Outcome D F} {next : D → F → Outcome D F} {db : D} {files : F} :
    o.andThen next = ok db files ↔
      ∃ db' files', o = ok db' files' ∧ next db' files' = ok db files := by
  cases o <;> simp

/-- The files as the statement left them, whether it failed or not. -/
def files : Outcome D F → F
  | ok _ files => files
  | failed files => files

@[simp] theorem files_ok (db : D) (fs : F) : (ok db fs).files = fs := rfl

@[simp] theorem files_failed (fs : F) : (failed fs : Outcome D F).files = fs := rfl

/-- Whether the transaction can still commit. -/
def isOk : Outcome D F → Bool
  | ok _ _ => true
  | failed _ => false

/-- Settle a transaction that began with database `db₀`: success commits, and a
failure rolls the database back and keeps the files. -/
def settle (db₀ : D) : Outcome D F → D × F
  | ok db files => (db, files)
  | failed files => (db₀, files)

@[simp] theorem settle_ok (db₀ db : D) (files : F) : (ok db files).settle db₀ = (db, files) := rfl

@[simp] theorem settle_failed (db₀ : D) (files : F) :
    (failed files : Outcome D F).settle db₀ = (db₀, files) := rfl

end Outcome

/-- A statement of a transaction. -/
abbrev Stmt (D : Type u) (F : Type v) := D → F → Outcome D F

namespace Stmt

variable {D : Type u} {F : Type v}

/-- A statement that touches only the database. -/
def sql (g : D → D) : Stmt D F := fun db files => .ok (g db) files

/-- A statement that touches only the files and cannot fail. -/
def file (g : F → F) : Stmt D F := fun db files => .ok db (g files)

/-- A statement that may touch both, and cannot fail. -/
def both (g : D → D) (f : F → F) : Stmt D F := fun db files => .ok (g db) (f files)

/-- Run a script: statement after statement, up to the first failure. -/
def exec : List (Stmt D F) → Stmt D F
  | [] => fun db files => .ok db files
  | stmt :: rest => fun db files => (stmt db files).andThen (exec rest)

@[simp] theorem exec_nil (db : D) (files : F) :
    exec ([] : List (Stmt D F)) db files = .ok db files := rfl

theorem exec_cons (stmt : Stmt D F) (rest : List (Stmt D F)) (db : D) (files : F) :
    exec (stmt :: rest) db files = (stmt db files).andThen (exec rest) := rfl

@[simp] theorem exec_sql_cons (g : D → D) (rest : List (Stmt D F)) (db : D) (files : F) :
    exec (sql g :: rest) db files = exec rest (g db) files := rfl

@[simp] theorem exec_file_cons (g : F → F) (rest : List (Stmt D F)) (db : D) (files : F) :
    exec (file g :: rest) db files = exec rest db (g files) := rfl

/-- Scripts compose. -/
theorem exec_append (first second : List (Stmt D F)) (db : D) (files : F) :
    exec (first ++ second) db files = (exec first db files).andThen (exec second) := by
  induction first generalizing db files with
  | nil => rfl
  | cons stmt rest ih =>
    rw [List.cons_append, exec_cons, exec_cons]
    cases stmt db files with
    | ok db' files' => exact ih db' files'
    | failed files' => rfl

/-- A script that cannot fail makes its changes one after the other. -/
theorem exec_map_both {ι : Type*} (g : ι → D → D) (f : ι → F → F) (steps : List ι) (db : D)
    (files : F) :
    exec (steps.map fun i => both (g i) (f i)) db files
      = .ok (steps.foldl (fun acc i => g i acc) db) (steps.foldl (fun acc i => f i acc) files) := by
  induction steps generalizing db files with
  | nil => rfl
  | cons i rest ih => exact ih (g i db) (f i files)

/-- Run a whole script as one transaction. -/
def commit (script : List (Stmt D F)) (db : D) (files : F) : D × F :=
  (exec script db files).settle db

/-- The process stops, or the commit fails, after the first `n` statements: the
database is the one the transaction began with, the files are those it left. -/
def interrupted (n : ℕ) (script : List (Stmt D F)) (db : D) (files : F) : D × F :=
  (db, (exec (script.take n) db files).files)

/-- **A file property every statement keeps survives the script**, however it
ends. -/
theorem exec_files_of_forall {P : F → Prop} {script : List (Stmt D F)}
    (keeps : ∀ stmt ∈ script, ∀ db files, P files → P (stmt db files).files)
    (db : D) {files : F} (init : P files) : P (exec script db files).files := by
  induction script generalizing db files with
  | nil => exact init
  | cons stmt rest ih =>
    have head := keeps stmt List.mem_cons_self db files init
    rw [exec_cons]
    cases hstmt : stmt db files with
    | ok db' files' =>
      rw [hstmt] at head
      exact ih (fun s mem => keeps s (List.mem_cons_of_mem _ mem)) db' head
    | failed files' =>
      rw [hstmt] at head
      exact head

/-- **A database property every successful statement keeps** holds when the
script succeeds. -/
theorem exec_ok_of_forall {P : D → Prop} {script : List (Stmt D F)}
    (keeps : ∀ stmt ∈ script, ∀ db files db' files', stmt db files = .ok db' files' →
      P db → P db')
    {db db' : D} {files files' : F} (done : exec script db files = .ok db' files')
    (init : P db) : P db' := by
  induction script generalizing db files with
  | nil =>
    cases done
    exact init
  | cons stmt rest ih =>
    obtain ⟨db₁, files₁, hstmt, done⟩ := Outcome.andThen_eq_ok.mp done
    have head := keeps stmt List.mem_cons_self db files db₁ files₁ hstmt init
    exact ih (fun s mem => keeps s (List.mem_cons_of_mem _ mem)) done head

end Stmt

end Kache
