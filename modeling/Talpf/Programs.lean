import Talpf.IBVerbs.BulkSynchrony
import Talpf.Imp
import Talpf.Library.Determinism

/-!
# Deterministic programs

Processes whose programs are deterministic and whose copies are exclusive do and
read the same in all runs, on whatever devices and in whatever order the bytes are
moved and the processes proceed.  On one process they do and read what they do and
read on the core for one process.
-/

namespace Talpf

open Bulk Copying

variable {n : ℕ}

namespace IBVerbs

namespace Fabric

variable {maxMsgSize : ℕ} {tables : Fin n → CombinedMemoryRegister (MemorySlot n)}
  {rule : Set (Address n × Address n) → Prop} {devices : Fin n → Device n}
  {memory : Address n → UInt8} {fabric : Fabric n}
  {calls : List (Bulk.Call (Fin n) (Address n) UInt8)}

theorem owned_of_runs
    (run : (Fabric.system maxMsgSize tables rule devices memory).Runs calls fabric) :
    ∀ call ∈ calls, call.Owned Prod.fst := by
  induction run with
  | refl =>
      intro call member
      cases member
  | @tail calls before after action _ _ _ ih =>
      intro call member
      rcases List.mem_append.mp member with old | new
      · exact ih call old
      · cases action with
        | read pid address value => rw [List.mem_singleton.mp new]; rfl
        | write pid address value => rw [List.mem_singleton.mp new]; rfl
        | post pid task op => rw [List.mem_singleton.mp new]; trivial
        | enter pid task attr => rw [List.mem_singleton.mp new]; trivial
        | leave pid flag => rw [List.mem_singleton.mp new]; trivial
        | fetch | store | other => cases new

/-- All runs of deterministic programs agree on what each process does and reads. -/
theorem runs_agree {program : Fin n → List (Bulk.Call (Fin n) (Address n) UInt8) →
      Option (Intent (Address n) UInt8)}
    (positive : 0 < maxMsgSize) (device : maxMsgSize < 2 ^ 32)
    (run : (Fabric.system maxMsgSize tables Exclusive devices memory).Runs calls fabric)
    (follows : Follows program calls)
    {itsSize : ℕ} {itsTables : Fin n → CombinedMemoryRegister (MemorySlot n)}
    {itsDevices : Fin n → Device n} {itsFabric : Fabric n}
    {itsCalls : List (Bulk.Call (Fin n) (Address n) UInt8)}
    (itsPositive : 0 < itsSize) (itsDevice : itsSize < 2 ^ 32)
    (itsRun : (Fabric.system itsSize itsTables Exclusive itsDevices memory).Runs itsCalls
      itsFabric)
    (itsFollows : Follows program itsCalls) (p : Fin n) :
    history calls p <+: history itsCalls p ∨ history itsCalls p <+: history calls p := by
  rcases mirrors_run (fun _ => And.left) positive device run with ⟨_, machineRun, _⟩
  rcases mirrors_run (fun _ => And.left) itsPositive itsDevice itsRun with
    ⟨_, itsMachineRun, _⟩
  exact histories_comparable (fun _ => And.right) (fun _ => And.right) machineRun itsMachineRun
    (owned_of_runs run) (owned_of_runs itsRun) follows itsFollows p

theorem exclusive_putByte (pid peer : Fin n) :
    Exclusive (∅ ∪ (putByte peer).copies pid (tenRegister n)) := by
  refine ⟨apart_putByte pid peer, ?_⟩
  rw [copies_putByte, Set.empty_union]
  rintro first second target one two
  rw [Set.mem_singleton_iff, Prod.mk.injEq] at one two
  exact one.1.trans two.1.symm

/-- Process 1 has entered its sync in one run, and has read the byte of process 0 in the other. -/
theorem runs_agree_byte :
    history ((byteCalls 0 1).take 3) (1 : Fin 2) <+: history (byteCalls 0 1) 1 ∨
      history (byteCalls 0 1) (1 : Fin 2) <+: history ((byteCalls 0 1).take 3) 1 := by
  rcases runs_byteCalls (exclusive_putByte 0 1) with ⟨⟨_, early⟩, _, late⟩
  have follows := follows_script (byteCalls (0 : Fin 2) 1)
  exact runs_agree (by decide) (by decide) early (Follows.init follows) (by decide) (by decide)
    late follows 1

end Fabric

end IBVerbs

namespace Imp

open IBVerbs.Fabric

variable {next : State} {memory : ℕ → UInt8}
  {calls : List (Bulk.Call (Fin 1) (Address 1) UInt8)}

/-- A deterministic program does and reads on the core for one process what it does and reads
elsewhere. -/
theorem core_agrees {program : Fin 1 → List (Bulk.Call (Fin 1) (Address 1) UInt8) →
      Option (Intent (Address 1) UInt8)}
    (run : (core Exclusive memory).Runs calls next) (follows : Follows program calls)
    {maxMsgSize : ℕ} {tables : Fin 1 → CombinedMemoryRegister (MemorySlot 1)}
    {devices : Fin 1 → Device 1} {fabric : IBVerbs.Fabric 1}
    {itsCalls : List (Bulk.Call (Fin 1) (Address 1) UInt8)}
    (positive : 0 < maxMsgSize) (device : maxMsgSize < 2 ^ 32)
    (itsRun : (IBVerbs.Fabric.system maxMsgSize tables Exclusive devices (placed memory)).Runs
      itsCalls fabric)
    (itsFollows : Follows program itsCalls) :
    history calls 0 <+: history itsCalls 0 ∨ history itsCalls 0 <+: history calls 0 := by
  have owned : ∀ calls : List (Bulk.Call (Fin 1) (Address 1) UInt8),
      ∀ call ∈ calls, call.Owned Prod.fst := by
    intro calls call _
    cases call with
    | read | write => exact Subsingleton.elim _ _
    | request | enter | leave => exact trivial
  rcases mirrors_run (fun _ => And.left) run with ⟨_, machineRun, _⟩
  rcases IBVerbs.Fabric.mirrors_run (fun _ => And.left) positive device itsRun with
    ⟨_, itsMachineRun, _⟩
  exact histories_comparable (fun _ => And.right) (fun _ => And.right) machineRun itsMachineRun
    (owned _) (owned _) follows itsFollows 0

theorem area_oneByte :
    area 100 101 1 = (putByte (0 : Fin 1)).copies 0 (tenRegister 1) := by
  rw [copies_putByte]
  ext copy
  constructor
  · rintro ⟨i, small, rfl⟩
    obtain rfl : i = 0 := Nat.lt_one_iff.mp small
    rfl
  · rintro rfl
    exact ⟨0, Nat.one_pos, rfl⟩

/-- The process puts a byte to itself and reads it after its sync. -/
def selfCalls : List (Bulk.Call (Fin 1) (Address 1) UInt8) :=
  let pid : Fin 1 := ⟨0, Nat.one_pos⟩
  [.request pid (area 100 101 1), .enter pid, .leave pid, .read pid (pid, 101) 9]

/-- The process has read the byte on the core, and has not left its sync elsewhere. -/
theorem core_agrees_byte : history selfCalls (0 : Fin 1) <+: history (selfCalls.take 2) 0 ∨
    history (selfCalls.take 2) (0 : Fin 1) <+: history selfCalls 0 := by
  have exclusive := exclusive_putByte (0 : Fin 1) 0
  rcases runs_putByte 0 0 exclusive with ⟨world, posted, started⟩
  rcases runs_entered posted (fun p => (started p).1)
    (fun p q => (started p).2.1.trans (started q).2.1.symm) with ⟨_, entered, _⟩
  rw [← area_oneByte] at exclusive entered
  rcases runs_oneByte exclusive with ⟨_, run⟩
  have follows := follows_script selfCalls
  exact core_agrees run follows (by decide) (by decide) entered (Follows.init follows)

end Imp

end Talpf
