import Talpf.IBVerbs.RemoteMemory

/-!
# The implementation for one process

The core for one process copies at once: a put or a get is a `memcpy`, and a sync
does nothing.  A slot is the address of its memory.  Users who keep to the rules
cannot tell it from a machine that copies everything in the sync.
-/

namespace Talpf

namespace Imp

open Copying Transition

/-- Copy bytes.  `none` is a call with areas that overlap, which is undefined. -/
def memcpy (memory : ℕ → UInt8) (dst src size : ℕ) : Option (ℕ → UInt8) :=
  if size = 0 ∨ dst + size ≤ src ∨ src + size ≤ dst then
    some fun address =>
      if dst ≤ address ∧ address < dst + size then memory (src + (address - dst))
      else memory address
  else none

def put (memory : ℕ → UInt8) (srcSlot srcOffset : ℕ) (_dstPid : ℕ)
    (dstSlot dstOffset size : ℕ) : Option (ℕ → UInt8) :=
  memcpy memory (dstSlot + dstOffset) (srcSlot + srcOffset) size

def get (memory : ℕ → UInt8) (_srcPid : ℕ) (srcSlot srcOffset : ℕ)
    (dstSlot dstOffset size : ℕ) : Option (ℕ → UInt8) :=
  memcpy memory (dstSlot + dstOffset) (srcSlot + srcOffset) size

def sync (memory : ℕ → UInt8) (_attr : ℕ) : ℕ → UInt8 := memory

structure State where
  memory : ℕ → UInt8
  /-- What was asked for since the last sync -/
  requested : Set (Address 1 × Address 1)

inductive Action where
  | read (address : ℕ) (value : UInt8)
  | write (address : ℕ) (value : UInt8)
  | put (srcSlot srcOffset dstPid dstSlot dstOffset size : ℕ)
  | get (srcPid srcSlot srcOffset dstSlot dstOffset size : ℕ)
  | sync (attr : ℕ)

/-- The copies of an area -/
def area (src dst size : ℕ) : Set (Address 1 × Address 1) :=
  {copy | ∃ i < size, copy = ((⟨0, Nat.one_pos⟩, src + i), (⟨0, Nat.one_pos⟩, dst + i))}

def Step (before : State) : Action → State → Prop
  | .read address value, after => before.memory address = value ∧ after = before
  | .write address value, after =>
      after = { before with memory := Function.update before.memory address value }
  | .put srcSlot srcOffset dstPid dstSlot dstOffset size, after =>
      put before.memory srcSlot srcOffset dstPid dstSlot dstOffset size = some after.memory ∧
        after.requested = before.requested ∪ area (srcSlot + srcOffset) (dstSlot + dstOffset) size
  | .get srcPid srcSlot srcOffset dstSlot dstOffset size, after =>
      get before.memory srcPid srcSlot srcOffset dstSlot dstOffset size = some after.memory ∧
        after.requested = before.requested ∪ area (srcSlot + srcOffset) (dstSlot + dstOffset) size
  | .sync attr, after => after = ⟨sync before.memory attr, ∅⟩

section Rules

variable (rule : Set (Address 1 × Address 1) → Prop)

/-- Nobody touches memory that is being copied, and the copies of a superstep follow the rule. -/
def Permitted (state : State) : Action → Prop
  | .read address _ => ¬Target state.requested (⟨0, Nat.one_pos⟩, address)
  | .write address _ => ¬Source state.requested (⟨0, Nat.one_pos⟩, address) ∧
      ¬Target state.requested (⟨0, Nat.one_pos⟩, address)
  | .put srcSlot srcOffset _ dstSlot dstOffset size
  | .get _ srcSlot srcOffset dstSlot dstOffset size =>
      rule (state.requested ∪ area (srcSlot + srcOffset) (dstSlot + dstOffset) size)
  | .sync _ => True

/-- What a user sees -/
def shows : Action → List (Bulk.Call (Fin 1) (Address 1) UInt8)
  | .read address value => [.read ⟨0, Nat.one_pos⟩ (⟨0, Nat.one_pos⟩, address) value]
  | .write address value => [.write ⟨0, Nat.one_pos⟩ (⟨0, Nat.one_pos⟩, address) value]
  | .put srcSlot srcOffset _ dstSlot dstOffset size
  | .get _ srcSlot srcOffset dstSlot dstOffset size =>
      [.request ⟨0, Nat.one_pos⟩ (area (srcSlot + srcOffset) (dstSlot + dstOffset) size)]
  | .sync _ => [.enter ⟨0, Nat.one_pos⟩, .leave ⟨0, Nat.one_pos⟩]

def core (memory : ℕ → UInt8) :
    System State Action (Bulk.Call (Fin 1) (Address 1) UInt8) where
  start := ⟨memory, ∅⟩
  step := Step
  permitted := Permitted rule
  shows := shows

end Rules

variable {rule : Set (Address 1 × Address 1) → Prop} {memory after : ℕ → UInt8}
  {before next : State} {state : Bulk.State (Fin 1) (Address 1) UInt8}

/-- The memory of the only process -/
def placed (memory : ℕ → UInt8) (place : Address 1) : UInt8 := memory place.2

theorem address_eq (place : Address 1) : place = (⟨0, Nat.one_pos⟩, place.2) :=
  Prod.ext (Fin.fin_one_eq_zero place.1) rfl

theorem placed_update (memory : ℕ → UInt8) (address : ℕ) (value : UInt8) :
    placed (Function.update memory address value) =
      Function.update (placed memory) (⟨0, Nat.one_pos⟩, address) value := by
  funext place
  rw [placed, Function.update_apply, Function.update_apply, address_eq place]
  simp only [Prod.mk.injEq, true_and]
  rfl

/-- A `memcpy` carries out the copies of its area. -/
theorem memcpy_copied {dst src size : ℕ} (copied : memcpy memory dst src size = some after) :
    Copied (area src dst size) (placed memory) (placed after) := by
  rcases Option.ite_none_right_eq_some.mp copied with ⟨_, same⟩
  rw [Option.some.injEq] at same
  subst same
  intro place
  by_cases inside : dst ≤ place.2 ∧ place.2 < dst + size
  · refine Or.inl ⟨(⟨0, Nat.one_pos⟩, src + (place.2 - dst)), ⟨place.2 - dst, by omega, ?_⟩, ?_⟩
    · rw [address_eq place]
      simp only [Prod.mk.injEq, true_and]
      omega
    · exact if_pos inside
  · refine Or.inr ⟨?_, if_neg inside⟩
    rintro ⟨source, i, within, same⟩
    have address : place.2 = dst + i := congrArg (fun copy => copy.2.2) same
    omega

/-- What has been copied already will be copied in the sync. -/
structure State.Mirrors (before : State) (state : Bulk.State (Fin 1) (Address 1) UInt8) : Prop where
  status : state.status = fun _ => .computing
  requests : state.requests = before.requested
  apart : Apart state.requests
  underway : Underway state.requests ∅ state.memory (placed before.memory)

namespace State.Mirrors

theorem initial (memory : ℕ → UInt8) :
    State.Mirrors ⟨memory, ∅⟩ (Bulk.machine rule (placed memory)).start where
  status := rfl
  requests := rfl
  apart := apart_empty
  underway := .start _

theorem write (mirrors : before.Mirrors state) {address : ℕ} {value : UInt8}
    (noSource : ¬Source state.requests (⟨0, Nat.one_pos⟩, address))
    (noTarget : ¬Target state.requests (⟨0, Nat.one_pos⟩, address)) :
    State.Mirrors { before with memory := Function.update before.memory address value }
      { state with memory :=
        Function.update state.memory (⟨0, Nat.one_pos⟩, address) value } where
  status := mirrors.status
  requests := mirrors.requests
  apart := mirrors.apart
  underway := by
    rw [placed_update]
    exact mirrors.underway.write noSource noTarget

theorem copy (mirrors : before.Mirrors state) {dst src size : ℕ}
    (copied : memcpy before.memory dst src size = some next.memory)
    (requested : next.requested = before.requested ∪ area src dst size)
    (apart : Apart (before.requested ∪ area src dst size)) :
    next.Mirrors { state with requests := state.requests ∪ area src dst size } where
  status := mirrors.status
  requests := by rw [requested, mirrors.requests]
  apart := mirrors.requests ▸ apart
  underway := mirrors.underway.copyNow (mirrors.requests ▸ apart) (memcpy_copied copied)

/-- A sync is the copies and what surrounds them. -/
theorem sync (mirrors : before.Mirrors state) (attr : ℕ) : ∃ next,
    (Bulk.machine rule (placed memory)).Continues state
      [.enter ⟨0, Nat.one_pos⟩, .leave ⟨0, Nat.one_pos⟩] next ∧
    State.Mirrors ⟨Imp.sync before.memory attr, ∅⟩ next := by
  have computing : ∀ p, state.status p = .computing := fun p => congrFun mirrors.status p
  have enters : (Bulk.machine rule (placed memory)).Continues state [.enter ⟨0, Nat.one_pos⟩]
      (state.set ⟨0, Nat.one_pos⟩ .entered) := Bulk.continues_call trivial ⟨computing _, rfl⟩
  have all : ∀ p, (state.set ⟨0, Nat.one_pos⟩ .entered).status p = .entered := by
    intro p
    have only : p = ⟨0, Nat.one_pos⟩ := Fin.fin_one_eq_zero p
    simp only [only, Bulk.State.set, Function.update_self]
  have leaves : (Bulk.machine rule (placed memory)).Continues _ _ _ :=
    Bulk.continues_first ⟨0, Nat.one_pos⟩ all mirrors.underway.copied
  refine ⟨_, enters.trans leaves, ?_, rfl, apart_empty, .start _⟩
  funext p
  have only : p = ⟨0, Nat.one_pos⟩ := Fin.fin_one_eq_zero p
  simp only [only, Bulk.State.set, Function.update_self]

/-- The machine answers every call. -/
theorem answered (mirrors : before.Mirrors state)
    (separates : ∀ pattern, rule pattern → Apart pattern) {action : Action}
    (permitted : Permitted rule before action) (taken : Step before action next) :
    ∃ after, (Bulk.machine rule (placed memory)).Continues state (shows action) after ∧
      next.Mirrors after := by
  have computing : ∀ p, state.status p = .computing := fun p => congrFun mirrors.status p
  cases action with
  | read address value =>
      rcases taken with ⟨found, rfl⟩
      have free : ¬Target state.requests (⟨0, Nat.one_pos⟩, address) :=
        mirrors.requests ▸ permitted
      refine ⟨state, Bulk.continues_call free ⟨computing _, ?_, rfl⟩, mirrors⟩
      exact (mirrors.underway.of_not_target free).symm.trans found
  | write address value =>
      have isNext : next = { before with
        memory := Function.update before.memory address value } := taken
      rw [Permitted, ← mirrors.requests] at permitted
      refine ⟨_, Bulk.continues_call permitted ⟨computing _, rfl⟩, ?_⟩
      rw [isNext]
      exact mirrors.write permitted.1 permitted.2
  | put srcSlot srcOffset dstPid dstSlot dstOffset size =>
      have allowed : rule (state.requests ∪
          area (srcSlot + srcOffset) (dstSlot + dstOffset) size) := mirrors.requests ▸ permitted
      exact ⟨_, Bulk.continues_call allowed ⟨computing _, rfl⟩,
        mirrors.copy taken.1 taken.2 (separates _ permitted)⟩
  | get srcPid srcSlot srcOffset dstSlot dstOffset size =>
      have allowed : rule (state.requests ∪
          area (srcSlot + srcOffset) (dstSlot + dstOffset) size) := mirrors.requests ▸ permitted
      exact ⟨_, Bulk.continues_call allowed ⟨computing _, rfl⟩,
        mirrors.copy taken.1 taken.2 (separates _ permitted)⟩
  | sync attr =>
      have isNext : next = ⟨Imp.sync before.memory attr, ∅⟩ := taken
      rw [isNext]
      exact mirrors.sync attr

end State.Mirrors

/-- One byte at address 100 -/
def oneByte (address : ℕ) : UInt8 := if address = 100 then 9 else 0

theorem apart_oneByte : Apart (∅ ∪ area 100 101 1) := by
  rw [Set.empty_union]
  rintro first ⟨i, small, rfl⟩ second ⟨j, alsoSmall, rfl⟩ same
  have address : 100 + i = 101 + j := congrArg Prod.snd same
  omega

/-- The byte is copied to the next address and read there after a sync. -/
theorem runs_oneByte (allowed : rule (∅ ∪ area 100 101 1)) : ∃ last,
    (core rule oneByte).Runs
      [.request ⟨0, Nat.one_pos⟩ (area 100 101 1), .enter ⟨0, Nat.one_pos⟩,
        .leave ⟨0, Nat.one_pos⟩, .read ⟨0, Nat.one_pos⟩ (⟨0, Nat.one_pos⟩, 101) 9] last := by
  have started : (core rule oneByte).Runs [] ⟨oneByte, ∅⟩ := .refl
  have put := @System.Continues.tail _ _ _ (core rule oneByte) _ _ _ ⟨_, _⟩ (.put 100 0 0 100 1 1)
    started allowed ⟨rfl, rfl⟩
  have synced := @System.Continues.tail _ _ _ (core rule oneByte) _ _ _ _ (.sync 0) put trivial
    rfl
  exact ⟨_, @System.Continues.tail _ _ _ (core rule oneByte) _ _ _ _ (.read 101 9) synced
    (fun ⟨_, among⟩ => Set.notMem_empty _ among) ⟨rfl, rfl⟩⟩

theorem mirrors_run (separates : ∀ pattern, rule pattern → Apart pattern)
    {labels : List (Bulk.Call (Fin 1) (Address 1) UInt8)}
    (run : (core rule memory).Runs labels next) :
    ∃ state, (Bulk.machine rule (placed memory)).Runs labels state ∧ next.Mirrors state := by
  apply run.simulated _ (.initial memory)
  intro before state action after _ mirrors permitted taken
  exact mirrors.answered separates permitted taken

/-- Users of the core for one process see a run of the bulk-synchronous machine. -/
theorem core_bulkSynchronous (separates : ∀ pattern, rule pattern → Apart pattern)
    {labels : List (Bulk.Call (Fin 1) (Address 1) UInt8)}
    (run : (core rule memory).Runs labels next) :
    ∃ state, (Bulk.machine rule (placed memory)).Runs labels state ∧ next.Mirrors state :=
  mirrors_run separates run

theorem core_bulkSynchronous_one : ∃ state : Bulk.State (Fin 1) (Address 1) UInt8,
    (Bulk.machine Apart (placed oneByte)).Runs
      [.request ⟨0, Nat.one_pos⟩ (area 100 101 1), .enter ⟨0, Nat.one_pos⟩,
        .leave ⟨0, Nat.one_pos⟩, .read ⟨0, Nat.one_pos⟩ (⟨0, Nat.one_pos⟩, 101) 9] state := by
  rcases runs_oneByte apart_oneByte with ⟨_, run⟩
  rcases core_bulkSynchronous (fun _ => id) run with ⟨state, runs, _⟩
  exact ⟨state, runs⟩

end Imp

end Talpf
