import Talpf.IBVerbs.Lockstep
import Talpf.MessageQueue

/-!
# Lockstep executions of the message queue

What a sync of all processes does from the vote on, when no process aborts and
when some do, and how its request completes.  In the default mode the processes
look at each other's resizes; in the other modes they do not, and yet every
process forgets its own.
-/

namespace Talpf

open Spmd

namespace MessageQueue

variable {n : ℕ} {queue : Fin n → MessageQueue n} (task : Fin n → Task) {attr : SyncAttr}

theorem sum_vote_abort (queue : Fin n → MessageQueue n) (abort : Fin n → Bool) :
    ∑ q, ((queue q).vote (abort q)).1 = (Finset.univ.filter fun q => abort q = true).card := by
  simp [vote, Finset.sum_boole]

theorem sum_vote_resized (queue : Fin n → MessageQueue n) (abort : Fin n → Bool) :
    ∑ q, ((queue q).vote (abort q)).2 =
      (Finset.univ.filter fun q => (queue q).resized = true).card := by
  simp [vote, Finset.sum_boole]

theorem sum_vote_resized_pos (abort : Fin n → Bool) :
    ∑ q, ((queue q).vote (abort q)).2 > 0 ↔ ∃ q, (queue q).resized = true := by
  rw [sum_vote_resized]
  simp [Finset.card_pos, Finset.filter_nonempty_iff]

/-- The queue after a successful sync. -/
def accepted (queue : MessageQueue n) (ibverbs : IBVerbs n) : MessageQueue n :=
  { queue with ibverbs := ibverbs, resized := false }

/-- The collectives of a sync that does not reconnect. -/
def plainKinds (n : ℕ) (mode : SyncMode) (syncCached : Bool) : List CollectiveKind :=
  (if mode = .default then [.iallreduceSum] else []) ++ IBVerbs.countKinds n mode syncCached

/-- A sync that sees no abort and no resize.  In the modes without a vote it sees none. -/
theorem syncVerbs_executes_plain
    (unseen : attr.mode = .default → ∀ p, (queue p).resized = false)
    (agree : attr.mode ≠ .default →
      ∀ p q, (queue p).ibverbs.syncCached = (queue q).ibverbs.syncCached)
    (idle : ∀ p, (queue p).ibverbs.syncRequest.isActive = false) :
    ∃ (rounds : List (Fin n → Collective n)) (after : Fin n → IBVerbs n),
      (∀ p, Collective.kinds p rounds = plainKinds n attr.mode (queue p).ibverbs.syncCached) ∧
      Executes (fun p => syncVerbs p (task p) (queue p) false attr) rounds
        (fun p => ((queue p).accepted (after p), .ok 0)) ∧
      ∀ p, IBVerbs.Requested attr (queue p).ibverbs (after p) := by
  have aborts : ∑ q, ((queue q).vote false).1 = 0 := by simp [vote]
  by_cases mode : attr.mode = .default
  · have resizes : ¬∑ q, ((queue q).vote false).2 > 0 := by
      rw [sum_vote_resized_pos fun _ => false]
      simp [unseen mode]
    rcases IBVerbs.sync_executes_voted task mode aborts resizes idle with
      ⟨rounds, after, roundKinds, execution, requested⟩
    refine ⟨rounds ++ [], after, fun p => ?_, execution.bind ?_, requested⟩
    · rw [List.append_nil, roundKinds p]
      simp [plainKinds, mode, IBVerbs.countKinds]
    · simp only [vote, Bool.false_eq_true, if_false, ne_eq, not_true_eq_false]
      exact .of_done _
  · rcases IBVerbs.sync_executes_silent task mode (agree mode) idle with
      ⟨rounds, after, roundKinds, execution, requested⟩
    refine ⟨rounds ++ [], after, fun p => ?_, execution.bind ?_, requested⟩
    · rw [List.append_nil, roundKinds p]
      simp [plainKinds, mode]
    · simp only [vote, Bool.false_eq_true, if_false, ne_eq, not_true_eq_false]
      exact .of_done _

/-- A sync that some process has aborted ends with the vote, and all processes are told how many
have aborted. -/
theorem syncVerbs_executes_aborted (queue : Fin n → MessageQueue n) {abort : Fin n → Bool}
    (mode : attr.mode = .default)
    (aborts : ∃ p, abort p = true) :
    ∃ rounds, (∀ p, Collective.kinds p rounds = [.iallreduceSum]) ∧
      Executes (fun p => syncVerbs p (task p) (queue p) (abort p) attr) rounds
        (fun p => (queue p, .ok (Finset.univ.filter fun q => abort q = true).card)) := by
  have some_ : ∑ q, ((queue q).vote (abort q)).1 ≠ 0 := by
    rw [sum_vote_abort]
    simpa [Finset.filter_eq_empty_iff] using aborts
  rcases IBVerbs.sync_executes_aborted task (fun p => (queue p).ibverbs) mode some_ with
    ⟨rounds, roundKinds, execution⟩
  refine ⟨rounds ++ [], fun p => ?_, execution.bind ?_⟩
  · rw [List.append_nil, roundKinds p]
  · simp only [if_pos some_]
    rw [sum_vote_abort]
    exact .of_done _

/-- The collectives of a sync that reconnects. -/
def resizedKinds (n : ℕ) : List CollectiveKind :=
  .iallreduceSum :: (IBVerbs.reconnectKinds ++ List.replicate n .allreduceSum)

/-- A sync that sees a resize and finds queue pairs staged everywhere. -/
theorem syncVerbs_executes_resized (mode : attr.mode = .default)
    (resizes : ∃ q, (queue q).resized = true)
    (idle : ∀ p, (queue p).ibverbs.syncRequest.isActive = false)
    (staged : ∀ p, (queue p).ibverbs.Staged) :
    (∃ (rounds : List (Fin n → Collective n)) (middle after : Fin n → IBVerbs n),
      (∀ p, (queue p).ibverbs.Reconnects) ∧
      (∀ p, Collective.kinds p rounds = resizedKinds n) ∧
      Executes (fun p => syncVerbs p (task p) (queue p) false attr) rounds
        (fun p => ((queue p).accepted (after p), .ok 0)) ∧
      ∀ p, IBVerbs.Reconnected (queue p).ibverbs (middle p) ∧
        IBVerbs.Requested attr (middle p) (after p)) ∨
    ∃ (rounds : List (Fin n → Collective n)) (after : Fin n → IBVerbs n) (thrown : Fin n → Exn),
      (¬∀ p, (queue p).ibverbs.Reconnects) ∧
      Executes (fun p => syncVerbs p (task p) (queue p) false attr) rounds
        (fun p => ({ queue p with ibverbs := after p }, .error (thrown p))) ∧
      ∀ p, IBVerbs.Interrupted (queue p).ibverbs (after p) := by
  have aborts : ∑ q, ((queue q).vote false).1 = 0 := by simp [vote]
  rcases IBVerbs.sync_executes_resized task mode aborts
    ((sum_vote_resized_pos fun _ => false).mpr resizes) idle staged with
    ⟨rounds, middle, after, reconnects, roundKinds, execution, ended⟩ |
    ⟨rounds, after, thrown, refused, execution, interrupted⟩
  · refine Or.inl ⟨rounds ++ [], middle, after, reconnects, fun p => ?_, execution.bind ?_, ended⟩
    · rw [List.append_nil, roundKinds p]
      rfl
    · simp only [vote, Bool.false_eq_true, if_false, ne_eq, not_true_eq_false]
      exact .of_done _
  · exact Or.inr ⟨rounds ++ [], after, thrown, refused, execution.bind (.of_done _), interrupted⟩

/-- A process that has staged nothing faults when others have resized. -/
theorem not_executes_syncVerbs_unstaged {α : Type} (mode : attr.mode = .default)
    (resizes : ∃ q, (queue q).resized = true) {p : Fin n}
    (unstaged : (queue p).ibverbs.stagedQps ⟨0, p.pos⟩ = none)
    {nexts : Fin n → MessageQueue n × Except Exn Int → Comm n α}
    {rounds : List (Fin n → Collective n)} {values : Fin n → α} :
    ¬Executes (fun p => (syncVerbs p (task p) (queue p) false attr).bind (nexts p))
      rounds values := by
  simp only [syncVerbs, Program.bind_assoc]
  exact IBVerbs.not_executes_sync_unstaged task mode (by simp [vote])
    ((sum_vote_resized_pos fun _ => false).mpr resizes) unstaged

/-- The queue once the pending areas are registered. -/
def withMemory (queue : MessageQueue n) (reached : MemoryTable × IBVerbs n) : MessageQueue n :=
  { queue with memreg := reached.1, ibverbs := reached.2 }

theorem sync_executes {abort : Fin n → Bool} {first second : List (Fin n → Collective n)}
    {reached : Fin n → MemoryTable × IBVerbs n} {values : Fin n → MessageQueue n × Except Exn Int}
    (synced : Executes (fun p => (queue p).memreg.sync (queue p).ibverbs) first
      (fun p => (reached p, none)))
    (voted : Executes (fun p => syncVerbs p (task p) ((queue p).withMemory (reached p)) (abort p)
      attr) second values) :
    Executes (fun p => (queue p).sync p (task p) (abort p) attr) (first ++ second) values := by
  simp only [sync]
  exact synced.bind voted

/-- Once the registration of the pending areas is known, a sync does what is left of it. -/
theorem sync_bind_executes_iff [Nonempty (Fin n)] {α : Type} {abort : Fin n → Bool}
    {first rounds : List (Fin n → Collective n)} {reached : Fin n → MemoryTable × IBVerbs n}
    (synced : Executes (fun p => (queue p).memreg.sync (queue p).ibverbs) first
      (fun p => (reached p, none)))
    {nexts : Fin n → MessageQueue n × Except Exn Int → Comm n α} {values : Fin n → α} :
    Executes (fun p => ((queue p).sync p (task p) (abort p) attr).bind (nexts p)) rounds values ↔
      ∃ second, rounds = first ++ second ∧
        Executes (fun p => (syncVerbs p (task p) ((queue p).withMemory (reached p)) (abort p)
          attr).bind (nexts p)) second values := by
  simp only [sync, Program.bind_assoc]
  exact Executes.bind_iff synced

/-- Accepted requests complete together. -/
theorem completeRequest_executes (queue : Fin n → MessageQueue n) {before : Fin n → IBVerbs n}
    (requested : ∀ p, IBVerbs.Requested attr (before p) (queue p).ibverbs) :
    ∃ (rounds : List (Fin n → Collective n)) (after : Fin n → IBVerbs n),
      (∀ p, Collective.kinds p rounds = if attr.barrier then [.ibarrier] else []) ∧
      Executes (fun p => (queue p).completeRequest) rounds
        (fun p => { queue p with ibverbs := after p }) ∧
      ∀ p, (after p).syncRequest.isActive = false ∧
        (after p).syncCached = (queue p).ibverbs.syncCached ∧
        (after p).stagedQps = (queue p).ibverbs.stagedQps ∧
        (after p).connectedQps = (queue p).ibverbs.connectedQps ∧
        (after p).memreg = (queue p).ibverbs.memreg ∧
        (after p).device = (queue p).ibverbs.device := by
  rcases IBVerbs.completeRequest_executes (fun p => (requested p).active)
    (fun p => (requested p).withBarrier) with ⟨rounds, after, roundKinds, execution, same⟩
  refine ⟨rounds ++ [], after, fun p => ?_, execution.bind (.of_done _), same⟩
  rw [List.append_nil, roundKinds p]

end MessageQueue

end Talpf
