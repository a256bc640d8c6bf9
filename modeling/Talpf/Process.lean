import Talpf.Interface

/-!
# Starting an SPMD function

`exec` runs an SPMD function on a group of processes.  The first process, which
is the root, knows the function and further symbols by their addresses; the
others look them up by the names that the root broadcasts.  This file models
`exec` from the point on where the processes of the group have a communicator of
their own.  The allocations that may fail are those of the symbol tables.
-/

namespace Talpf

open Spmd

/-- A symbol by name, with its address in this process. -/
structure Symbol where
  fileName : String
  symbolName : String
  /-- Zero stands for a null pointer. -/
  symbol : ℕ
deriving DecidableEq, Repr

namespace Symbol

def null : Symbol := ⟨"", "", 0⟩

end Symbol

namespace Err

/-- The numbers of the return codes. -/
def code : Err → ℕ
  | .success => 0
  | .outOfMemory => 1
  | .fatal => 2

end Err

namespace Process

variable {n : ℕ} {α : Type}

def broadcastVector (array : List Char) : Comm n (Except Exn (List Char)) :=
  .call (.broadcast array.length) fun _ =>
    .call (.allreduceOr false) fun (failed : Bool) =>
      if failed then .done (.error .badAlloc)
      else .call (.broadcastChars array) fun array => .done (.ok array)

def broadcastString (str : String) : Comm n (Except Exn String) :=
  .call (.broadcast str.length) fun (size : ℕ) =>
    if size = 0 then .done (.ok "")
    else
      .call (.allreduceOr false) fun (failed : Bool) =>
        if failed then .done (.error .badAlloc)
        else
          (broadcastVector str.toList).andThen fun array =>
            .call (.allreduceOr false) fun (failed : Bool) =>
              if failed then .done (.error .badAlloc) else .done (.ok (String.ofList array))

/-- The root broadcasts the names of a symbol. -/
def broadcastNames (symbol : Symbol) : Comm n (Except Exn (String × String)) :=
  .call (.allreduceOr false) fun (failed : Bool) =>
    if failed then .done (.error .exception)
    else
      (broadcastString symbol.fileName).andThen fun fileName =>
        (broadcastString symbol.symbolName).andThen fun symbolName =>
          .done (.ok (fileName, symbolName))

/-- The symbol that a process has after the broadcast of its names; the root has it already. -/
def findSymbol (pid : Fin n) (dlsym : String → String → Option ℕ) (symbol : Symbol)
    (fileName symbolName : String) : Option Symbol :=
  if pid.val = 0 then some symbol
  else (dlsym fileName symbolName).map fun address => ⟨fileName, symbolName, address⟩

/-- All processes have to find the symbol. -/
def agreeSymbol (found : Option Symbol) : Comm n (Except Exn Symbol) :=
  match found with
  | none => .call (.allreduceOr true) fun _ => .done (.error .exception)
  | some symbol =>
      .call (.allreduceOr false) fun (failed : Bool) =>
        if failed then .done (.error .exception)
        else if symbol.symbol = 0 then .fault
        else .done (.ok symbol)

/-- Broadcast a symbol from the root. -/
def broadcastSymbol (pid : Fin n) (dlsym : String → String → Option ℕ) (symbol : Symbol) :
    Comm n (Except Exn Symbol) :=
  (broadcastNames symbol).andThen fun (fileName, symbolName) =>
    agreeSymbol (findSymbol pid dlsym symbol fileName symbolName)

/-- Broadcast the symbols of a table, one after the other. -/
def broadcastSymbols (pid : Fin n) (dlsym : String → String → Option ℕ) :
    List Symbol → Comm n (Except Exn (List Symbol))
  | [] => .done (.ok [])
  | symbol :: symbols =>
      (broadcastSymbol pid dlsym symbol).andThen fun symbol =>
        (broadcastSymbols pid dlsym symbols).andThen fun symbols => .done (.ok (symbol :: symbols))

/-- Which of the two tables cannot grow. -/
structure TableFaults where
  auxSymbols : Bool
  fSymbols : Bool
deriving DecidableEq, Repr

/-- Resize the tables; an exception leaves the table of function pointers empty. -/
def resizeTables (faults : TableFaults) (auxSymbols : List Symbol) (fSize : ℕ) :
    (List Symbol × List ℕ) × Err :=
  if faults.auxSymbols ∧ auxSymbols.length < fSize then ((auxSymbols, []), .outOfMemory)
  else
    let auxSymbols := auxSymbols.takeD fSize .null
    if faults.fSymbols ∧ 0 < fSize then ((auxSymbols, []), .outOfMemory)
    else ((auxSymbols, List.replicate fSize 0), .success)

/-- The symbols that are forwarded with an SPMD function. -/
structure Args where
  fSymbols : List ℕ
  fSize : ℕ
deriving DecidableEq, Repr

/-- What a process brings into `exec`. -/
structure Execution (n : ℕ) (α : Type) where
  faults : TableFaults
  /-- The address of a symbol, given the names of its file and of itself. -/
  dlsym : String → String → Option ℕ
  task : Task
  memRange : ℕ
  device : Device n
  /-- The context runs out of memory. -/
  outOfMemory : Bool
  /-- The SPMD function at an address. -/
  code : ℕ → Args → Interface n → Comm n (Interface n × Except Exn α)

/-- The return code of `exec` after `hook` has returned or thrown. -/
def errorCode : Except Exn Err → Err
  | .ok status => status
  | .error .badAlloc => .outOfMemory
  | .error _ => .fatal

/-- Broadcast the SPMD function and the first `size` symbols of the table. -/
def broadcastTables (pid : Fin n) (dlsym : String → String → Option ℕ) (spmdFunction : Symbol)
    (auxSymbols : List Symbol) (size : ℕ) : Comm n (Except Exn (Symbol × List Symbol)) :=
  (broadcastSymbol pid dlsym spmdFunction).andThen fun spmdFunction =>
    (broadcastSymbols pid dlsym (auxSymbols.take size)).andThen fun symbols =>
      .done (.ok (spmdFunction, symbols))

/-- The part of `exec` after the tables are resized. -/
def launch (pid : Fin n) (execution : Execution n α) (spmdFunction : Symbol)
    (auxSymbols : List Symbol) (fSymbols : List ℕ) (fSize : ℕ) : Comm n (Err × Option α) :=
  (broadcastTables pid execution.dlsym spmdFunction auxSymbols fSymbols.length).bind fun received =>
    match received with
    | .error exn => .done (errorCode (.error exn), none)
    | .ok (spmdFunction, symbols) =>
        if fSize ≠ symbols.length then .fault
        else
          (hook pid execution.task execution.memRange execution.device execution.outOfMemory
            (execution.code spmdFunction.symbol ⟨symbols.map Symbol.symbol, fSize⟩)).bind
              fun (status, value) => .done (errorCode status, value)

/-- Run an SPMD function; its own result is returned as well. -/
def exec (pid : Fin n) (execution : Execution n α) (spmdFunction : Symbol)
    (auxSymbols : List Symbol) : Comm n (Err × Option α) :=
  .call (.broadcast auxSymbols.length) fun (fSize : ℕ) =>
    let ((auxSymbols, fSymbols), status) := resizeTables execution.faults auxSymbols fSize
    -- nothing depends on the status that the processes agree on
    .call (.allreduceMax status.code) fun _ =>
      if fSize < fSymbols.length ∨ auxSymbols.length < fSymbols.length then .fault
      else launch pid execution spmdFunction auxSymbols fSymbols fSize

end Process

end Talpf
