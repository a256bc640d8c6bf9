import Mathlib.Data.List.Infix
import Talpf.Library.Bulk

/-!
# Deterministic bulk-synchronous programs

What a process does next is a function of what it has done and read so far.  If
every process reads and writes places of its own and no two copies of a superstep
have the same target, the steps of different processes commute, and all runs of
the machine agree on what each process does and reads.
-/

namespace Bulk

open Copying Transition

universe u v w

variable {Process : Type u} {Place : Type v} {Value : Type w}

/-- What a process is about to do -/
inductive Intent (Place : Type v) (Value : Type w) where
  | read (place : Place)
  | write (place : Place) (value : Value)
  | request (copies : Set (Place × Place))
  | enter
  | leave

/-- No two copies have the same target. -/
def Single (requests : Set (Place × Place)) : Prop :=
  ∀ first second target, (first, target) ∈ requests → (second, target) ∈ requests → first = second

theorem Single.mono {requests more : Set (Place × Place)} (single : Single more)
    (fewer : requests ⊆ more) : Single requests :=
  fun first second target one two => single first second target (fewer one) (fewer two)

theorem single_empty : Single (∅ : Set (Place × Place)) :=
  fun _ _ _ member => absurd member (Set.notMem_empty _)

/-- No place is both a source and a target, and no two copies have the same target. -/
def Exclusive (requests : Set (Place × Place)) : Prop := Apart requests ∧ Single requests

namespace Call

def process : Call Process Place Value → Process
  | .read process _ _ | .write process _ _ | .request process _ | .enter process
  | .leave process => process

def intent : Call Process Place Value → Intent Place Value
  | .read _ place _ => .read place
  | .write _ place value => .write place value
  | .request _ copies => .request copies
  | .enter _ => .enter
  | .leave _ => .leave

/-- Processes access places of their own. -/
def Owned (owner : Place → Process) : Call Process Place Value → Prop
  | .read process place _ | .write process place _ => owner place = process
  | .request _ _ | .enter _ | .leave _ => True

/-- The status in which a process makes a call -/
def requires : Call Process Place Value → Status
  | .read _ _ _ | .write _ _ _ | .request _ _ | .enter _ => .computing
  | .leave _ => .released

/-- The status after a call -/
def becomes : Call Process Place Value → Status
  | .read _ _ _ | .write _ _ _ | .request _ _ | .leave _ => .computing
  | .enter _ => .entered

def copies : Call Process Place Value → Set (Place × Place)
  | .request _ copies => copies
  | .read _ _ _ | .write _ _ _ | .enter _ | .leave _ => ∅

/-- What a read returns is in the memory. -/
def Sees (memory : Place → Value) : Call Process Place Value → Prop
  | .read _ place value => memory place = value
  | .write _ _ _ | .request _ _ | .enter _ | .leave _ => True

def store [DecidableEq Place] (memory : Place → Value) : Call Process Place Value → Place → Value
  | .write _ place value => Function.update memory place value
  | .read _ _ _ | .request _ _ | .enter _ | .leave _ => memory

/-- The state after a call -/
def effect [DecidableEq Process] [DecidableEq Place] (call : Call Process Place Value)
    (state : State Process Place Value) : State Process Place Value where
  memory := call.store state.memory
  requests := state.requests ∪ call.copies
  status := Function.update state.status call.process call.becomes
  superstep := state.superstep

theorem requires_ne_entered (call : Call Process Place Value) : call.requires ≠ .entered := by
  cases call <;> exact Status.noConfusion

/-- The same intent leads to the same call when reads see the same memory. -/
theorem unique {memory : Place → Value} {call other : Call Process Place Value}
    (sees : call.Sees memory)
    (alsoSees : other.Sees memory) (process : call.process = other.process)
    (intent : call.intent = other.intent) : call = other := by
  cases call <;> cases other <;> cases intent <;> cases process
  · cases sees.symm.trans alsoSees
    rfl
  all_goals rfl

end Call

section Accesses

variable [DecidableEq Place] {owner : Place → Process} {call other : Call Process Place Value}
  (distinct : call.process ≠ other.process) (owned : call.Owned owner)
  (alsoOwned : other.Owned owner)

include distinct owned alsoOwned

theorem Call.store_comm (memory : Place → Value) :
    call.store (other.store memory) = other.store (call.store memory) := by
  cases call <;> cases other <;> try rfl
  next process place value itsProcess itsPlace itsValue =>
    have apart : place ≠ itsPlace := by
      rintro rfl
      exact distinct (owned.symm.trans alsoOwned)
    exact Function.update_comm apart.symm ..

theorem Call.sees_store (memory : Place → Value) :
    call.Sees (other.store memory) ↔ call.Sees memory := by
  cases call <;> cases other <;> try rfl
  next process place value itsProcess itsPlace itsValue =>
    have apart : place ≠ itsPlace := by
      rintro rfl
      exact distinct (owned.symm.trans alsoOwned)
    show Function.update memory itsPlace itsValue place = value ↔ memory place = value
    rw [Function.update_of_ne apart]

end Accesses

section Histories

variable [DecidableEq Process]

/-- What one process has done -/
def history (calls : List (Call Process Place Value)) (process : Process) :
    List (Call Process Place Value) :=
  calls.filter fun call => call.process = process

/-- Every call is what the program of its process does next. -/
def Follows (program : Process → List (Call Process Place Value) → Option (Intent Place Value))
    (calls : List (Call Process Place Value)) : Prop :=
  ∀ earlier call later, calls = earlier ++ call :: later →
    program call.process (history earlier call.process) = some call.intent

variable {program : Process → List (Call Process Place Value) → Option (Intent Place Value)}
  {calls : List (Call Process Place Value)} {call : Call Process Place Value}

theorem Follows.init {more : List (Call Process Place Value)}
    (follows : Follows program (calls ++ more)) : Follows program calls := by
  rintro earlier call later rfl
  exact follows earlier call (later ++ more) (by rw [List.append_assoc, List.cons_append])

theorem Follows.last (follows : Follows program (calls ++ [call])) :
    program call.process (history calls call.process) = some call.intent :=
  follows calls call [] rfl

/-- The programs that make the given calls -/
def script (calls : List (Call Process Place Value)) (process : Process)
    (past : List (Call Process Place Value)) : Option (Intent Place Value) :=
  (history calls process)[past.length]?.map Call.intent

theorem follows_script (calls : List (Call Process Place Value)) :
    Follows (script calls) calls := by
  rintro earlier call later rfl
  have own : history (earlier ++ call :: later) call.process =
      history earlier call.process ++ call :: history later call.process := by
    rw [history, List.filter_append, List.filter_cons_of_pos (by simp)]
    rfl
  rw [script, own, List.getElem?_append_right (Nat.le_refl _), Nat.sub_self]
  rfl

theorem history_snoc : history (calls ++ [call]) =
    Function.update (history calls) call.process (history calls call.process ++ [call]) := by
  funext process
  rw [history, List.filter_append, Function.update_apply]
  split
  next same =>
    subst same
    rw [List.filter_singleton, decide_eq_true rfl]
    rfl
  next other =>
    rw [List.filter_singleton, decide_eq_false (Ne.symm other)]
    exact List.append_nil _

end Histories

section Confluence

variable [DecidableEq Process] [DecidableEq Place] {owner : Place → Process}
  {program : Process → List (Call Process Place Value) → Option (Intent Place Value)}
  {before after : State Process Place Value} {call other : Call Process Place Value}

/-- What a call makes of the state when its process may make it -/
theorem Call.effect_eq (call : Call Process Place Value)
    (status : before.status call.process = call.requires) :
    call.effect before = match call with
      | .read _ _ _ => before
      | .write _ place value => { before with memory := Function.update before.memory place value }
      | .request _ copies => { before with requests := before.requests ∪ copies }
      | .enter self => before.set self .entered
      | .leave self => before.set self .computing := by
  have still : ∀ self, before.status self = .computing →
      Function.update before.status self .computing = before.status := by
    intro self computing
    rw [← computing, Function.update_eq_self]
  cases call with
  | read self place value =>
      simp only [effect, store, copies, process, becomes, Set.union_empty, still self status]
  | write self place value =>
      simp only [effect, store, copies, process, becomes, Set.union_empty, still self status]
  | request self requests =>
      simp only [effect, store, copies, process, becomes, still self status]
  | enter self =>
      simp only [effect, State.set, store, copies, process, becomes, Set.union_empty]
  | leave self =>
      simp only [effect, State.set, store, copies, process, becomes, Set.union_empty]

theorem step_call_iff : Step before (.call call) after ↔
    before.status call.process = call.requires ∧ call.Sees before.memory ∧
      after = call.effect before := by
  have effect := @Call.effect_eq _ _ _ _ _ before call
  cases call with
  | read process place value =>
      constructor
      · rintro ⟨status, found, same⟩
        exact ⟨status, found, same.trans (effect status).symm⟩
      · rintro ⟨status, found, same⟩
        exact ⟨status, found, same.trans (effect status)⟩
  | write | request | enter | leave =>
      constructor
      · rintro ⟨status, same⟩
        exact ⟨status, trivial, same.trans (effect status).symm⟩
      · rintro ⟨status, _, same⟩
        exact ⟨status, same.trans (effect status)⟩

theorem Call.effect_comm (distinct : call.process ≠ other.process) (owned : call.Owned owner)
    (alsoOwned : other.Owned owner) (state : State Process Place Value) :
    call.effect (other.effect state) = other.effect (call.effect state) := by
  simp only [Call.effect, Call.store_comm distinct owned alsoOwned]
  rw [Function.update_comm distinct, Set.union_right_comm]

/-- A state with what all processes have done -/
abbrev Past (Process : Type u) (Place : Type v) (Value : Type w) :=
  State Process Place Value × (Process → List (Call Process Place Value))

/-- One process does what its program does next, or everything is copied. -/
inductive Turn (owner : Place → Process)
    (program : Process → List (Call Process Place Value) → Option (Intent Place Value))
    (past : Past Process Place Value) : Past Process Place Value → Prop where
  | call {call : Call Process Place Value} (status : past.1.status call.process = call.requires)
      (sees : call.Sees past.1.memory) (owned : call.Owned owner)
      (next : program call.process (past.2 call.process) = some call.intent) :
      Turn owner program past (call.effect past.1,
        Function.update past.2 call.process (past.2 call.process ++ [call]))
  | communicate {after : State Process Place Value} (single : Single past.1.requests)
      (taken : Step past.1 .communicate after) : Turn owner program past (after, past.2)

variable {past first second : Past Process Place Value}

/-- A process can do later what it can do now. -/
theorem Turn.call_later (distinct : call.process ≠ other.process)
    (status : past.1.status call.process = call.requires) (sees : call.Sees past.1.memory)
    (owned : call.Owned owner)
    (next : program call.process (past.2 call.process) = some call.intent)
    (alsoOwned : other.Owned owner) :
    Turn owner program
      (other.effect past.1,
        Function.update past.2 other.process (past.2 other.process ++ [other]))
      (call.effect (other.effect past.1), Function.update
        (Function.update past.2 other.process (past.2 other.process ++ [other])) call.process
        (past.2 call.process ++ [call])) := by
  have same : Function.update past.2 other.process (past.2 other.process ++ [other])
      call.process = past.2 call.process := Function.update_of_ne distinct _ _
  rw [← same]
  refine .call ?_ ((Call.sees_store distinct owned alsoOwned _).mpr sees) owned ?_
  · exact (Function.update_of_ne distinct _ _).trans status
  · show program call.process (Function.update past.2 other.process _ call.process) = _
    rw [same]
    exact next

/-- The steps of different processes commute. -/
theorem Turn.diamond (one : Turn owner program past first) (two : Turn owner program past second) :
    first = second ∨ ∃ both, Turn owner program first both ∧ Turn owner program second both := by
  cases one with
  | @call call status sees owned next =>
      cases two with
      | @call other itsStatus itsSees itsOwned itsNext =>
          by_cases same : call.process = other.process
          · rw [same, itsNext, Option.some.injEq] at next
            rw [Call.unique sees itsSees same next.symm]
            exact Or.inl rfl
          · right
            have one := Turn.call_later (Ne.symm same) itsStatus itsSees itsOwned itsNext owned
            have two := Turn.call_later same status sees owned next itsOwned
            rw [Call.effect_comm same owned itsOwned, Function.update_comm (Ne.symm same)] at two
            exact ⟨_, one, two⟩
      | communicate single taken =>
          have entered := taken.1 call.process
          exact absurd (status.symm.trans entered) call.requires_ne_entered
  | communicate single taken =>
      cases two with
      | @call call status sees owned next =>
          have entered := taken.1 call.process
          exact absurd (status.symm.trans entered) call.requires_ne_entered
      | communicate _ alsoTaken =>
          rcases taken with ⟨_, memory, copied, rfl⟩
          rcases alsoTaken with ⟨_, other, alsoCopied, rfl⟩
          rw [copied.unique single alsoCopied]
          exact Or.inl rfl

/-- Whatever two runs have done, they can go on to the same state. -/
theorem Turn.confluent (one : Relation.ReflTransGen (Turn owner program) past first)
    (two : Relation.ReflTransGen (Turn owner program) past second) :
    Relation.Join (Relation.ReflTransGen (Turn owner program)) first second := by
  apply Relation.church_rosser _ one two
  intro before left right isLeft isRight
  rcases isLeft.diamond isRight with rfl | ⟨both, toLeft, toRight⟩
  · exact ⟨left, .refl, .refl⟩
  · exact ⟨both, .single toLeft, .single toRight⟩

theorem Turn.extends (turn : Turn owner program first second) (process : Process) :
    first.2 process <+: second.2 process := by
  cases turn with
  | communicate => exact List.prefix_rfl
  | @call call =>
      show _ <+: Function.update first.2 call.process _ process
      rw [Function.update_apply]
      split
      next same =>
        rw [same]
        exact List.prefix_append _ _
      next => exact List.prefix_rfl

theorem Turn.extends_run (run : Relation.ReflTransGen (Turn owner program) first second)
    (process : Process) : first.2 process <+: second.2 process := by
  induction run with
  | refl => exact List.prefix_rfl
  | tail _ turn ih => exact ih.trans (turn.extends process)

/-- A run of the machine in which processes follow their programs -/
theorem turns_of_runs {rule : Set (Place × Place) → Prop} {memory : Place → Value}
    (singles : ∀ pattern, rule pattern → Single pattern)
    {calls : List (Call Process Place Value)} {state : State Process Place Value}
    (run : (machine rule memory).Runs calls state) (owned : ∀ call ∈ calls, call.Owned owner)
    (follows : Follows program calls) :
    Single state.requests ∧ Relation.ReflTransGen (Turn owner program)
      ((machine rule memory).start, fun _ => []) (state, history calls) := by
  induction run with
  | refl => exact ⟨single_empty, .refl⟩
  | @tail calls before after action earlier allowed taken ih =>
      cases action with
      | communicate =>
          rw [show calls ++ (machine rule memory).shows .communicate = calls from
            List.append_nil calls] at owned follows ⊢
          rcases ih owned follows with ⟨single, turns⟩
          refine ⟨?_, turns.tail (.communicate single taken)⟩
          rcases taken with ⟨_, _, _, rfl⟩
          exact single_empty
      | call call =>
          have snoc : calls ++ (machine rule memory).shows (.call call) = calls ++ [call] := rfl
          rw [snoc] at owned follows ⊢
          rcases ih (fun call among => owned call (List.mem_append_left _ among)) follows.init with
            ⟨single, turns⟩
          rcases step_call_iff.mp taken with ⟨status, sees, rfl⟩
          refine ⟨?_, ?_⟩
          · cases call with
            | request process copies => exact singles _ allowed
            | _ => exact single.mono (by simp [Call.effect, Call.copies])
          · rw [history_snoc]
            exact turns.tail (.call status sees
              (owned call (List.mem_append_right _ (List.mem_singleton_self _))) follows.last)

/-- All runs of deterministic programs agree on what each process does and reads. -/
theorem histories_comparable {rule other : Set (Place × Place) → Prop} {memory : Place → Value}
    (singles : ∀ pattern, rule pattern → Single pattern)
    (alsoSingles : ∀ pattern, other pattern → Single pattern)
    {calls others : List (Call Process Place Value)}
    {state itsState : State Process Place Value}
    (run : (machine rule memory).Runs calls state)
    (itsRun : (machine other memory).Runs others itsState)
    (owned : ∀ call ∈ calls, call.Owned owner) (itsOwned : ∀ call ∈ others, call.Owned owner)
    (follows : Follows program calls) (itsFollows : Follows program others) (process : Process) :
    history calls process <+: history others process ∨
      history others process <+: history calls process := by
  have turns := (turns_of_runs singles run owned follows).2
  have itsTurns := (turns_of_runs alsoSingles itsRun itsOwned itsFollows).2
  rcases Turn.confluent turns itsTurns with ⟨both, first, second⟩
  exact List.prefix_or_prefix_of_prefix (Turn.extends_run first process)
    (Turn.extends_run second process)

end Confluence

end Bulk
