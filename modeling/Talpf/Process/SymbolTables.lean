import Talpf.Process
import Talpf.Interface.Creation

/-!
# Symbol tables without memory

The processes agree on whether some of them could not resize their symbol
tables, but go on all the same.  A process without a table then waits for no
further symbols and finds that symbols are missing.
-/

namespace Talpf

open Spmd

namespace Process

variable {m : ℕ} {α : Type} {dlsym : Fin (m + 1) → String → String → Option ℕ}

theorem broadcastVector_executes (arrays : Fin (m + 1) → List Char) :
    ∃ rounds, Executes (fun p => broadcastVector (arrays p)) rounds fun _ => .ok (arrays 0) := by
  refine ⟨[fun p => .broadcast (arrays p).length, fun _ => .allreduceOr false,
    fun p => .broadcastChars (arrays p)], ?_⟩
  apply Comm.executes_broadcast
  apply Comm.executes_allreduceOr
  simp only [Bool.false_eq_true, exists_false, decide_false, if_false]
  apply Comm.executes_broadcastChars
  exact .of_done _

theorem broadcastString_executes (strs : Fin (m + 1) → String) :
    ∃ rounds, Executes (fun p => broadcastString (strs p)) rounds fun _ => .ok (strs 0) := by
  rcases broadcastVector_executes fun p => (strs p).toList with ⟨vectorRounds, vector⟩
  by_cases empty : (strs 0).length = 0
  · refine ⟨[fun p => .broadcast (strs p).length], ?_⟩
    apply Comm.executes_broadcast
    change Executes (fun _ => if (strs 0).length = 0 then _ else _) _ _
    simp only [String.length_eq_zero_iff.mp empty]
    exact .of_done _
  · refine ⟨(fun p => .broadcast (strs p).length) :: (fun _ => .allreduceOr false) ::
      (vectorRounds ++ [fun _ => .allreduceOr false]), ?_⟩
    apply Comm.executes_broadcast
    change Executes (fun p => if (strs 0).length = 0 then _ else _) _ _
    simp only [if_neg empty]
    apply Comm.executes_allreduceOr
    simp only [Bool.false_eq_true, exists_false, decide_false, if_false]
    apply vector.andThen
    apply Comm.executes_allreduceOr
    simp only [Bool.false_eq_true, exists_false, decide_false, if_false, String.ofList_toList]
    exact .of_done _

theorem broadcastNames_executes (symbols : Fin (m + 1) → Symbol) :
    ∃ rounds, Executes (fun p => broadcastNames (symbols p)) rounds
      fun _ => .ok ((symbols 0).fileName, (symbols 0).symbolName) := by
  rcases broadcastString_executes fun p => (symbols p).fileName with ⟨fileRounds, fileName⟩
  rcases broadcastString_executes fun p => (symbols p).symbolName with ⟨symbolRounds, symbolName⟩
  refine ⟨(fun _ => .allreduceOr false) :: (fileRounds ++ (symbolRounds ++ [])), ?_⟩
  apply Comm.executes_allreduceOr
  simp only [Bool.false_eq_true, exists_false, decide_false, if_false]
  apply fileName.andThen
  apply symbolName.andThen
  exact .of_done _

/-- What a process finds under the names that the root broadcasts. -/
def Finds (dlsym : String → String → Option ℕ) (p : Fin (m + 1)) (symbol found : Symbol) : Prop :=
  findSymbol p dlsym symbol symbol.fileName symbol.symbolName = some found ∧ found.symbol ≠ 0

theorem broadcastSymbol_executes (symbols : Fin (m + 1) → Symbol) {found : Fin (m + 1) → Symbol}
    (finds : ∀ p, Finds (dlsym p) p (symbols 0) (found p)) :
    ∃ rounds, Executes (fun p => broadcastSymbol p (dlsym p) (symbols p)) rounds
      fun p => .ok (found p) := by
  rcases broadcastNames_executes symbols with ⟨nameRounds, names⟩
  refine ⟨nameRounds ++ [fun _ => .allreduceOr false], ?_⟩
  apply names.andThen
  have found : ∀ p, findSymbol p (dlsym p) (symbols p) (symbols 0).fileName
      (symbols 0).symbolName = some (found p) := by
    intro p
    rw [← (finds p).1]
    unfold findSymbol
    split
    next isRoot => rw [show p = 0 from Fin.ext isRoot]
    next => rfl
  simp only [found, agreeSymbol]
  apply Comm.executes_allreduceOr
  simp only [Bool.false_eq_true, exists_false, decide_false, if_false, (finds _).2]
  exact .of_done _

theorem broadcastSymbols_executes {tables : Fin (m + 1) → List Symbol}
    {found : Fin (m + 1) → Symbol → Symbol}
    (even : ∀ p, (tables p).length = (tables 0).length)
    (finds : ∀ p, ∀ symbol ∈ tables 0, Finds (dlsym p) p symbol (found p symbol)) :
    ∃ rounds, Executes (fun p => broadcastSymbols p (dlsym p) (tables p)) rounds
      fun p => .ok ((tables 0).map (found p)) := by
  generalize list : tables 0 = symbols at even finds ⊢
  induction symbols generalizing tables with
  | nil =>
      have empty : ∀ p, tables p = [] := fun p => List.length_eq_zero_iff.mp (even p)
      refine ⟨[], ?_⟩
      simp only [empty]
      exact .of_done _
  | cons symbol symbols ih =>
      have split : ∀ p, ∃ head tail, tables p = head :: tail := by
        intro p
        apply List.exists_cons_of_length_pos
        rw [even p]
        exact Nat.succ_pos _
      choose heads tails split using split
      rw [split 0, List.cons.injEq] at list
      have evenTails : ∀ p, (tails p).length = symbols.length := by
        intro p
        have length := even p
        rw [split p] at length
        exact Nat.succ.inj length
      have headFinds : ∀ p, Finds (dlsym p) p (heads 0) (found p symbol) := by
        intro p
        rw [list.1]
        exact finds p symbol List.mem_cons_self
      rcases broadcastSymbol_executes heads headFinds with ⟨headRounds, head⟩
      rcases ih list.2 evenTails fun p other member =>
        finds p other (List.mem_cons_of_mem _ member) with ⟨tailRounds, tail⟩
      refine ⟨headRounds ++ (tailRounds ++ []), ?_⟩
      simp only [split, broadcastSymbols]
      apply head.andThen
      apply tail.andThen
      exact .of_done _

/-- A process throws no `std::bad_alloc` when it learns what it has found. -/
theorem agreeSymbol_follows {n : ℕ} {found : Option Symbol} {answers : List (machine n).Answer}
    {result : Except Exn Symbol} (follows : Follows (agreeSymbol found) answers result) :
    result = .error .exception ∨ ∃ symbol, result = .ok symbol := by
  cases found with
  | none =>
      rcases Follows.call_iff.mp follows with ⟨_, _, _, rest⟩
      exact Or.inl (Follows.done_iff.mp rest).2
  | some symbol =>
      rcases Follows.call_iff.mp follows with ⟨_, _, _, rest⟩
      split at rest
      next => exact Or.inl (Follows.done_iff.mp rest).2
      next =>
        split at rest
        next => exact absurd rest Follows.not_fault
        next => exact Or.inr ⟨symbol, (Follows.done_iff.mp rest).2⟩

theorem resizeTables_fits (faults : TableFaults) (auxSymbols : List Symbol) (fSize : ℕ) :
    ¬(fSize < (resizeTables faults auxSymbols fSize).1.2.length ∨
      (resizeTables faults auxSymbols fSize).1.1.length <
        (resizeTables faults auxSymbols fSize).1.2.length) := by
  simp only [resizeTables]
  split_ifs <;> simp

theorem exec_eq {n : ℕ} (pid : Fin n) (execution : Execution n α) (spmdFunction : Symbol)
    (auxSymbols : List Symbol) :
    exec pid execution spmdFunction auxSymbols =
      .call (.broadcast auxSymbols.length) fun (fSize : ℕ) =>
        .call (.allreduceMax (resizeTables execution.faults auxSymbols fSize).2.code) fun _ =>
          launch pid execution spmdFunction (resizeTables execution.faults auxSymbols fSize).1.1
            (resizeTables execution.faults auxSymbols fSize).1.2 fSize := by
  simp only [exec, if_neg (resizeTables_fits _ _ _)]

/-- Contexts that do not run out of memory are set up together and run their SPMD functions. -/
theorem hook_leads {n : ℕ} [Nonempty (Fin n)] {β : Type} (task : Fin n → Task)
    (memRange : Fin n → ℕ)
    (device : Fin n → Device n) {outOfMemory : Fin n → Bool} (fits : ∀ p, outOfMemory p = false)
    (spmd : Fin n → Interface n → Comm n (Interface n × Except Exn α))
    (rest : Fin n → Except Exn Err × Option α → Comm n β) :
    ∃ rounds, Leads (fun p => (hook p (task p) (memRange p) (device p) (outOfMemory p)
        (spmd p)).bind (rest p)) rounds
      fun p => (spmd p ⟨.initial (device p), 0⟩).bind fun (runtime, result) =>
        (finish p (task p) runtime result).bind (rest p) := by
  have created : Executes (Interface.createAll memRange device outOfMemory) _ _ :=
    Interface.createAll_constructed fits
  generalize [fun p => Collective.allreduceMax (memRange p),
    fun _ => Collective.allreduceOr false] = createRounds at created
  refine ⟨createRounds ++ [fun _ => .barrier], ?_⟩
  simp only [hook, Program.bind_assoc]
  apply Leads.bind created
  simp only [Program.call_bind, Program.bind_assoc]
  apply Leads.call
  · intro p q
    rfl
  · exact Leads.refl _

/-- While one process misses its table, no execution ends for lack of memory. -/
theorem not_executes_missing {fSize : ℕ} (positive : 0 < fSize)
    {execution : Fin (m + 1) → Execution (m + 1) α} {symbols : Fin (m + 1) → Symbol}
    {auxSymbols : Fin (m + 1) → List Symbol} {fSymbols : Fin (m + 1) → List ℕ}
    {p : Fin (m + 1)} (missing : fSymbols p = [])
    {rounds : List (Fin (m + 1) → Collective (m + 1))} :
    ¬Executes (fun q => launch q (execution q) (symbols q) (auxSymbols q) (fSymbols q) fSize)
      rounds fun _ => (.outOfMemory, none) := by
  intro executes
  rcases broadcastNames_executes symbols with ⟨nameRounds, names⟩
  simp only [launch, broadcastTables, broadcastSymbol, Program.andThen, Program.bind_assoc]
    at executes
  rcases (Executes.bind_iff names).mp executes with ⟨later, _, rest⟩
  have follows := rest.follows p
  rcases Follows.bind_iff.mp follows with ⟨_, _, result, _, agreed, rest⟩
  rcases agreeSymbol_follows agreed with rfl | ⟨symbol, rfl⟩
  · have returned := (Follows.done_iff.mp rest).2
    cases returned
  · simp only [missing, List.length_nil, List.take_zero, broadcastSymbols, Program.done_bind,
      ne_eq, Nat.ne_of_gt positive, not_false_eq_true, if_true] at rest
    exact Follows.not_fault rest

end Process

/-- A call of `exec` by the root, on a group of processes. -/
structure Launch (n : ℕ) (α : Type) where
  spmdFunction : Symbol
  auxSymbols : List Symbol
  execution : Fin n → Process.Execution n α

namespace Launch

variable {n : ℕ} {α : Type}

/-- Only the root knows symbols beforehand. -/
def known (launch : Launch n α) (p : Fin n) : Symbol × List Symbol :=
  if p.val = 0 then (launch.spmdFunction, launch.auxSymbols) else (.null, [])

def exec (launch : Launch n α) (p : Fin n) : Comm n (Err × Option α) :=
  Process.exec p (launch.execution p) (launch.known p).1 (launch.known p).2

/-- A table that has to grow cannot.  The root has its table of symbols already. -/
def Throws (launch : Launch n α) (p : Fin n) : Prop :=
  0 < launch.auxSymbols.length ∧ ((launch.execution p).faults.fSymbols = true ∨
    p.val ≠ 0 ∧ (launch.execution p).faults.auxSymbols = true)

/-- What a process finds under the names of a symbol. -/
def found (launch : Launch n α) (p : Fin n) (symbol : Symbol) : Symbol :=
  (Process.findSymbol p (launch.execution p).dlsym symbol symbol.fileName
    symbol.symbolName).getD .null

/-- All processes find all symbols. -/
def Resolves (launch : Launch n α) : Prop :=
  ∀ p, ∀ symbol ∈ launch.spmdFunction :: launch.auxSymbols, (launch.found p symbol).symbol ≠ 0

/-- A process runs the SPMD function with all symbols in a new context. -/
def run (launch : Launch n α) (p : Fin n) : Comm n (Err × Option α) :=
  let execution := launch.execution p
  (execution.code (launch.found p launch.spmdFunction).symbol
    ⟨launch.auxSymbols.map fun symbol => (launch.found p symbol).symbol,
      launch.auxSymbols.length⟩ ⟨.initial execution.device, 0⟩).bind fun (runtime, result) =>
    (Process.finish p execution.task runtime result).bind fun (status, value) =>
      .done (Process.errorCode status, value)

/-- If a table cannot grow all processes return together, none of them has run the SPMD function,
and all run out of memory.  If no allocation fails all of them run the SPMD function with the same
symbols, provided that they find these. -/
structure Agrees (launch : Launch n α) : Prop where
  outOfMemory : (∃ p, launch.Throws p) →
    ∃ rounds, Executes launch.exec rounds (fun _ => (.outOfMemory, none)) ∧
      ∀ p q, Collective.kinds p rounds = Collective.kinds q rounds
  runs : (∀ p, ¬launch.Throws p) → (∀ p, (launch.execution p).outOfMemory = false) →
    launch.Resolves → ∃ rounds, Leads launch.exec rounds launch.run

section

variable {m : ℕ} {launch : Launch (m + 1) α}

theorem finds_found (resolves : launch.Resolves) (p : Fin (m + 1)) {symbol : Symbol}
    (member : symbol ∈ launch.spmdFunction :: launch.auxSymbols) :
    Process.Finds (launch.execution p).dlsym p symbol (launch.found p symbol) := by
  have nonzero := resolves p symbol member
  refine ⟨?_, nonzero⟩
  unfold found at nonzero ⊢
  cases found : Process.findSymbol p (launch.execution p).dlsym symbol symbol.fileName
    symbol.symbolName with
  | none =>
      rw [found] at nonzero
      exact absurd rfl nonzero
  | some symbol => rfl

theorem known_root (launch : Launch (m + 1) α) :
    launch.known 0 = (launch.spmdFunction, launch.auxSymbols) := rfl

theorem known_other (launch : Launch (m + 1) α) {p : Fin (m + 1)} (other : p.val ≠ 0) :
    launch.known p = (.null, []) := if_neg other

theorem fSymbols_of_throws {p : Fin (m + 1)} (throws : launch.Throws p) :
    (Process.resizeTables (launch.execution p).faults (launch.known p).2
      launch.auxSymbols.length).1.2 = [] := by
  rcases throws with ⟨positive, fSymbols | ⟨other, auxSymbols⟩⟩
  · simp only [Process.resizeTables, fSymbols, positive, and_self, if_true]
    split
    · rfl
    · rfl
  · simp only [Process.resizeTables, known_other launch other, auxSymbols, List.length_nil,
      positive, and_self, if_true]

theorem tables_of_fits {p : Fin (m + 1)} (fits : ¬launch.Throws p) :
    (Process.resizeTables (launch.execution p).faults (launch.known p).2
      launch.auxSymbols.length).1 =
        ((launch.known p).2.takeD launch.auxSymbols.length .null,
          List.replicate launch.auxSymbols.length 0) := by
  simp only [Throws, not_and_or, not_or] at fits
  have grows : ¬((launch.execution p).faults.auxSymbols = true ∧
      (launch.known p).2.length < launch.auxSymbols.length) := by
    rintro ⟨auxSymbols, shorter⟩
    by_cases isRoot : p.val = 0
    · rw [show p = 0 from Fin.ext isRoot, known_root] at shorter
      exact absurd shorter (Nat.lt_irrefl _)
    · rcases fits with empty | ⟨_, root | granted⟩
      · exact empty (Nat.zero_lt_of_lt shorter)
      · exact root isRoot
      · exact granted auxSymbols
  have allocates : ¬((launch.execution p).faults.fSymbols = true ∧
      0 < launch.auxSymbols.length) := by
    rintro ⟨fSymbols, positive⟩
    rcases fits with empty | ⟨granted, _⟩
    · exact empty positive
    · exact granted fSymbols
  simp only [Process.resizeTables, if_neg grows, if_neg allocates]

theorem not_executes_of_throws {p : Fin (m + 1)} (throws : launch.Throws p)
    {rounds : List (Fin (m + 1) → Collective (m + 1))} :
    ¬Executes launch.exec rounds fun _ => (.outOfMemory, none) := by
  intro executes
  unfold exec at executes
  simp only [Process.exec_eq] at executes
  rcases Executes.call_iff.mp executes with ⟨_, _, _, executes⟩
  rcases Executes.call_iff.mp executes with ⟨_, _, _, executes⟩
  exact Process.not_executes_missing throws.1 (fSymbols_of_throws throws) executes

theorem leads_of_fits (fits : ∀ p, ¬launch.Throws p)
    (granted : ∀ p, (launch.execution p).outOfMemory = false) (resolves : launch.Resolves) :
    ∃ rounds, Leads launch.exec rounds launch.run := by
  let tables (p : Fin (m + 1)) : List Symbol :=
    ((launch.known p).2.takeD launch.auxSymbols.length .null).take launch.auxSymbols.length
  have root : tables 0 = launch.auxSymbols := by
    simp only [tables, known_root, List.takeD_eq_take _ (Nat.le_refl _), List.take_length]
  have even : ∀ p, (tables p).length = (tables 0).length := by
    intro p
    simp only [tables, List.length_take, List.takeD_length]
  have spmdFinds : ∀ p, Process.Finds (launch.execution p).dlsym p (launch.known 0).1
      (launch.found p launch.spmdFunction) :=
    fun p => finds_found resolves p List.mem_cons_self
  have auxFinds : ∀ p, ∀ symbol ∈ tables 0,
      Process.Finds (launch.execution p).dlsym p symbol (launch.found p symbol) := by
    intro p symbol member
    rw [root] at member
    exact finds_found resolves p (List.mem_cons_of_mem _ member)
  rcases Process.broadcastSymbol_executes (fun p => (launch.known p).1) spmdFinds with
    ⟨spmdRounds, spmdFunction⟩
  rcases Process.broadcastSymbols_executes even auxFinds with ⟨auxRounds, auxSymbols⟩
  have received : Executes (fun p => Process.broadcastTables p (launch.execution p).dlsym
      (launch.known p).1 ((launch.known p).2.takeD launch.auxSymbols.length .null)
      launch.auxSymbols.length) (spmdRounds ++ (auxRounds ++ []))
      fun p =>
        .ok (launch.found p launch.spmdFunction, launch.auxSymbols.map (launch.found p)) := by
    apply spmdFunction.andThen
    apply auxSymbols.andThen
    rw [root]
    exact .of_done _
  rcases Process.hook_leads (fun p => (launch.execution p).task)
    (fun p => (launch.execution p).memRange) (fun p => (launch.execution p).device) granted
    (fun p => (launch.execution p).code (launch.found p launch.spmdFunction).symbol
      ⟨(launch.auxSymbols.map (launch.found p)).map Symbol.symbol, launch.auxSymbols.length⟩)
    (fun _ (status, value) => .done (Process.errorCode status, value)) with ⟨hookRounds, hooks⟩
  refine ⟨(fun p => .broadcast (launch.known p).2.length) ::
    (fun p => .allreduceMax (Process.resizeTables (launch.execution p).faults (launch.known p).2
      launch.auxSymbols.length).2.code) :: ((spmdRounds ++ (auxRounds ++ [])) ++ hookRounds), ?_⟩
  unfold exec
  simp only [Process.exec_eq]
  apply Leads.call
  · intro p q
    rfl
  apply Leads.call
  · intro p q
    rfl
  change Leads (fun p => Process.launch p (launch.execution p) (launch.known p).1
    (Process.resizeTables (launch.execution p).faults (launch.known p).2
      launch.auxSymbols.length).1.1
    (Process.resizeTables (launch.execution p).faults (launch.known p).2
      launch.auxSymbols.length).1.2 launch.auxSymbols.length) _ _
  simp only [tables_of_fits (fits _), Process.launch, List.length_replicate]
  apply Leads.bind received
  simp only [List.length_map, ne_eq, not_true_eq_false, if_false]
  simp only [List.map_map] at hooks ⊢
  exact hooks

end

/-- The processes agree exactly if no table that has to grow cannot. -/
theorem agrees_iff (launch : Launch n α) : launch.Agrees ↔ ∀ p, ¬launch.Throws p := by
  cases n with
  | zero =>
      refine iff_of_true ⟨?_, fun _ _ _ => ⟨[], ?_⟩⟩ fun p => p.elim0
      · rintro ⟨p, _⟩
        exact p.elim0
      · rw [show launch.exec = launch.run from funext fun p => p.elim0]
        exact .refl _
  | succ m =>
      constructor
      · intro agrees p throws
        rcases agrees.outOfMemory ⟨p, throws⟩ with ⟨rounds, executes, _⟩
        exact not_executes_of_throws throws executes
      · intro fits
        refine ⟨?_, leads_of_fits⟩
        rintro ⟨p, throws⟩
        exact absurd throws (fits p)

/-- One symbol is forwarded to two processes, the second of which has no memory for it. -/
def starved : Launch 2 Unit where
  spmdFunction := ⟨"a.out", "spmd", 1⟩
  auxSymbols := [⟨"a.out", "forwarded", 2⟩]
  execution p :=
    { faults := ⟨false, decide (p.val = 1)⟩
      dlsym := fun _ symbolName => some symbolName.length
      task := 0
      memRange := 0
      device := .generous 2
      outOfMemory := false
      code := fun _ _ runtime => .done (runtime, .ok ()) }

theorem not_agrees_starved : ¬starved.Agrees := by
  intro agrees
  have throws : starved.Throws 1 := ⟨Nat.succ_pos _, Or.inl rfl⟩
  rcases agrees.outOfMemory ⟨1, throws⟩ with ⟨rounds, executes, _⟩
  exact not_executes_of_throws throws executes

end Launch

end Talpf
