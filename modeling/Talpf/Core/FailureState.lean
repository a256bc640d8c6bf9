import Talpf.Core
import Talpf.Library.Transition
import Talpf.MessageQueue.Resizes

/-!
# The failure state

Once a sync has returned `LPF_ERR_FATAL`, a process is to be left alone: its
syncs, `exec`s and rehooks fail and all other primitives do nothing.  The rehook
does not look at the context and starts a reduction, in which the process that
has aborted does not take part.
-/

namespace Talpf

open Spmd Transition

namespace Context

variable {n : ℕ} {α : Type} {pid : Fin n} {ctx before after : Context n}

/-- What the documentation of the failure state promises of a call: it returns at once, without
communication and without a change of the context. -/
def Absorbs (pid : Fin n) (ctx : Context n) (primitive : Primitive n α) : Prop :=
  match primitive with
  | .sync _ _ | .exec _ | .rehook _ => ctx.call pid primitive = .done (ctx, .ok (.of .fatal))
  | .registerGlobal _ _ | .registerLocal _ _ | .deregister _ | .operation _ _ _ | .probe _
  | .resize _ => ctx.call pid primitive = .done (ctx, .ok (.of .success))

/-- A call that looks whether the context has aborted. -/
def Looks : Primitive n α → Prop
  | .rehook _ => False
  | .sync _ _ | .exec _ | .registerGlobal _ _ | .registerLocal _ _ | .deregister _
  | .operation _ _ _ | .probe _ | .resize _ => True

theorem unlessAborted_of_aborted (aborted : ctx.aborted ≠ 0) (code : Err)
    (call : Comm n (Context n × Except Exn Reply)) :
    ctx.unlessAborted code call = .done (ctx, .ok (.of code)) := if_pos aborted

theorem sync_of_aborted (aborted : ctx.aborted ≠ 0) (pid : Fin n) (task : Task)
    (attr : SyncAttr) : ctx.sync pid task attr = .done (ctx, .ok (.of .fatal)) := by
  have runs : ctx.runtime.sync pid task attr = .done (ctx.runtime, .ok .fatal) := if_neg aborted
  rw [sync, runs]
  rfl

/-- A rehook begins with a reduction whatever the state of the context. -/
theorem rehook_calls (pid : Fin n) (ctx : Context n) (call : Rehook n α) :
    ∃ next, ctx.rehook pid call = .call (.allreduceMax call.cloned.code) next := ⟨_, rfl⟩

theorem absorbs_iff (aborted : ctx.aborted ≠ 0) (primitive : Primitive n α) :
    Absorbs pid ctx primitive ↔ Looks primitive := by
  cases primitive with
  | sync task attr => exact iff_of_true (sync_of_aborted aborted pid task attr) trivial
  | exec subprocess => exact iff_of_true (unlessAborted_of_aborted aborted _ _) trivial
  | rehook call =>
      apply iff_of_false
      · intro absorbs
        rcases rehook_calls pid ctx call with ⟨next, calls⟩
        have returns : ctx.rehook pid call = .done (ctx, .ok (.of .fatal)) := absorbs
        rw [calls] at returns
        cases returns
      · exact not_false
  | registerGlobal pointer size =>
      exact iff_of_true (unlessAborted_of_aborted aborted _ _) trivial
  | registerLocal pointer size =>
      exact iff_of_true (unlessAborted_of_aborted aborted _ _) trivial
  | deregister memslot => exact iff_of_true (unlessAborted_of_aborted aborted _ _) trivial
  | operation kind peer posted =>
      exact iff_of_true (unlessAborted_of_aborted aborted _ _) trivial
  | probe params => exact iff_of_true (unlessAborted_of_aborted aborted _ _) trivial
  | resize call => exact iff_of_true (unlessAborted_of_aborted aborted _ _) trivial

/-- A call in a context that has aborted leaves it as it is, a rehook included. -/
theorem step_of_aborted {action : Primitive n α × Except Exn Reply} (aborted : before.aborted ≠ 0)
    (step : Step α pid before action after) : after = before := by
  rcases action with ⟨primitive, reply⟩
  rcases step with ⟨answers, follows⟩
  by_cases looks : Looks primitive
  · have absorbs : Absorbs pid before primitive := (absorbs_iff aborted primitive).mpr looks
    cases primitive with
    | rehook call => exact looks.elim
    | _ =>
        simp only [Absorbs] at absorbs
        rw [absorbs] at follows
        exact congrArg Prod.fst (Follows.done_iff.mp follows).2
  · cases primitive with
    | rehook call =>
        rcases Follows.bind_iff.mp follows with ⟨_, _, result, _, _, rest⟩
        exact congrArg Prod.fst (Follows.done_iff.mp rest).2
    | _ => exact absurd trivial looks

/-- A sync that returns `LPF_ERR_FATAL` leaves a context that has aborted. -/
theorem aborted_of_fatal {task : Task} {attr : SyncAttr}
    (fails : Step α pid before (.sync task attr, .ok (.of .fatal)) after) :
    after.aborted ≠ 0 := by
  rcases fails with ⟨answers, follows⟩
  by_cases running : before.aborted = 0
  · have program : before.runtime.sync pid task attr = _ := if_pos running
    simp only [call, sync, program, Program.bind_assoc] at follows
    rcases Follows.bind_iff.mp follows with ⟨_, _, ⟨mesgQueue, voted⟩, _, _, rest⟩
    cases voted with
    | error exn =>
        have made := (Follows.done_iff.mp rest).2
        simp [Except.map] at made
    | ok aborted =>
        have made := (Follows.done_iff.mp rest).2
        simp only [Except.map, Prod.mk.injEq, Except.ok.injEq, Reply.of, Reply.mk.injEq,
          and_true] at made
        rcases made with ⟨rfl, code⟩
        intro none
        have none : aborted = 0 := none
        rw [if_pos none] at code
        cases code
  · simp only [call, sync_of_aborted running] at follows
    have same : after = before := congrArg Prod.fst (Follows.done_iff.mp follows).2
    rw [same]
    exact running

/-- After a sync on it has returned `LPF_ERR_FATAL`, and whatever has been called since, a context
absorbs every call but those of the rehook. -/
theorem failure_absorbing_iff {task : Task} {attr : SyncAttr}
    (fails : Step α pid before (.sync task attr, .ok (.of .fatal)) after)
    (later : Reachable (Step α pid) (fun _ _ => True) after ctx)
    (primitive : Primitive n α) : Absorbs pid ctx primitive ↔ Looks primitive := by
  have aborted := aborted_of_fatal fails
  have same : ctx = after := by
    induction later with
    | refl => rfl
    | tail _ next ih =>
        rcases next with ⟨action, _, step⟩
        rw [← ih] at aborted ⊢
        exact step_of_aborted aborted step
  apply absorbs_iff
  rw [same]
  exact aborted

/-- A default sync in a running context with nothing to register, in which `count` processes turn
out to have aborted. -/
theorem step_sync_told (quiet : ctx.mesgQueue.queue.Quiet) (running : ctx.aborted = 0) (task : Task)
    {count : Int} (some : count ≠ 0) :
    Step α pid ctx (.sync task .default, .ok (.of .fatal)) { ctx with aborted := count } := by
  have program : ctx.runtime.sync pid task .default = _ := if_pos running
  have queue : ctx.runtime.mesgQueue.sync pid task false .default = _ :=
    quiet.sync_eq pid task false .default
  have told : ((count, 0) : Int × Int).1 ≠ 0 := some
  refine ⟨[⟨.iallreduceSum (ctx.mesgQueue.queue.vote false), ((count, 0) : Int × Int)⟩], ?_⟩
  simp only [call, sync, program, queue, MessageQueue.syncVerbs, IBVerbs.sync,
    SyncAttr.mode_default, if_true, Program.call_bind]
  apply Follows.call
  simp only [if_pos told, if_neg some, Program.done_bind]
  exact .done _

theorem quiet_initial (device : Device n) (msgGrainPower : ℕ) :
    (initial device msgGrainPower).mesgQueue.queue.Quiet := (MessageQueue.initial_spec device).1

/-- The second of two processes has aborted, and the first one registers a memory area. -/
theorem failure_absorbing_two :
    Absorbs 0 { initial (.generous 2) 0 with aborted := 1 }
      (.registerGlobal 64 8 : Primitive 2 Unit) := by
  apply (failure_absorbing_iff (step_sync_told (quiet_initial (.generous 2) 0) rfl 0
    Int.one_ne_zero) .refl _).mpr
  exact trivial

/-- The rehook of the first process, with an SPMD function that returns at once. -/
def idleRehook : Rehook 2 Unit where
  cloned := .success
  task := 0
  memRange := 0
  device := .generous 2
  outOfMemory := false
  spmd runtime := .done (runtime, .ok ())

theorem rehook_not_absorbed :
    Step Unit (0 : Fin 2) (initial (.generous 2) 0) (.sync 0 .default, .ok (.of .fatal))
        { initial (.generous 2) 0 with aborted := 1 } ∧
      ¬Absorbs 0 { initial (.generous 2) 0 with aborted := 1 } (.rehook idleRehook) := by
  refine ⟨step_sync_told (quiet_initial (.generous 2) 0) rfl 0 Int.one_ne_zero, fun absorbs => ?_⟩
  exact (absorbs_iff Int.one_ne_zero _).mp absorbs

end Context

end Talpf
