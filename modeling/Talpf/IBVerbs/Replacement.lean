import Talpf.IBVerbs.Interleaving
import Talpf.IBVerbs.Reconnection
import Talpf.IBVerbs.Rejections
import Mathlib.Data.Multiset.OrderedMonoid
import Mathlib.Tactic.Abel

/-!
# Replacing the queue pairs

A sync in the default mode votes, reconnects if any process has resized its
message queue, and waits for local completion after that.  A reconnection
destroys the old queue pairs, and an operation that the device has not completed
on them is lost: its completion never comes, and the wait does not end.  The
exchange of the counts and the request, which come after the wait, touch no queue
pair and are left out.
-/

namespace Talpf

namespace IBVerbs

open Spmd

variable {n : ℕ}

/-- How far the sync of a process has come. -/
inductive VoteStage where
  | outside
  /-- The vote is cast; it says whether the process has resized. -/
  | voting (task : Task) (resized : Bool)
  | reconnecting (task : Task)
  /-- In the wait for local completion -/
  | waiting (task : Task)
deriving DecidableEq

/-- A process with the operations that went through its queue pairs. -/
structure Endpoint (n : ℕ) where
  party : Party n
  resized : Bool
  stage : VoteStage
  /-- Operations whose completion was polled -/
  polled : Multiset (Posted n)
  /-- Operations that were not complete when their queue pair was destroyed -/
  dropped : Multiset (Posted n)

namespace Endpoint

def initial (device : Device n) : Endpoint n := ⟨.initial device, false, .outside, 0, 0⟩

/-- Operations whose completion is still to be polled -/
def unpolled (endpoint : Endpoint n) : Multiset (Posted n) :=
  endpoint.party.outstanding + endpoint.party.completed

def numMsgs (endpoint : Endpoint n) : Int := endpoint.party.verbs.numMsgs

/-- Replace the connected queue pairs and go on with the wait for local completion. -/
def replaceQps (endpoint : Endpoint n) (verbs : IBVerbs n) (task : Task) : Endpoint n :=
  { endpoint with
    party := { endpoint.party with verbs := verbs, outstanding := 0 }
    stage := .waiting task
    dropped := endpoint.party.outstanding + endpoint.dropped }

end Endpoint

theorem numMsgs_stagePeers (peers : List (Fin n)) (verbs : IBVerbs n) :
    (stagePeers peers verbs).1.numMsgs = verbs.numMsgs := by
  induction peers generalizing verbs with
  | nil => rfl
  | cons peer peers ih =>
      have same : (verbs.stageQp peer).1.numMsgs = verbs.numMsgs := by
        simp only [stageQp]
        split <;> rfl
      simp only [stagePeers]
      generalize verbs.stageQp peer = outcome at same ⊢
      rcases outcome with ⟨staged, _ | exn⟩
      · exact (ih staged).trans same
      · exact same

theorem numMsgs_resizeMesgq (verbs : IBVerbs n) (size : ℕ) :
    (verbs.resizeMesgq size).1.numMsgs = verbs.numMsgs := by
  have staged := numMsgs_stagePeers (List.finRange n)
    { verbs with cqSize := min size (verbs.device.maxSrs / 4) }
  simp only [resizeMesgq, stageQPs]
  generalize stagePeers (List.finRange n) _ = outcome at staged ⊢
  rcases outcome with ⟨after, thrown⟩
  cases thrown with
  | none => exact staged
  | some exn => exact staged

theorem numMsgs_reconnectQPs {verbs result : Fin n → IBVerbs n}
    {rounds : List (Fin n → Collective n)} (execution : Executes
      (fun p => reconnectQPs p (verbs p)) rounds (fun p => (result p, (none : Option Exn))))
    (p : Fin n) : (result p).numMsgs = (verbs p).numMsgs := by
  rcases (execution.follows p).ensures (reconnectQPs_ensures p (verbs p)) with ⟨_, _, _, repaired⟩
  have same : result p = _ := repaired
  rw [same]

/-- Every operation that was posted is on its way, polled or lost, and `numMsgs` counts those that
are not polled. -/
structure Endpoint.Balanced (endpoint : Endpoint n) : Prop where
  log : endpoint.party.log = endpoint.unpolled + endpoint.polled + endpoint.dropped
  numMsgs : endpoint.numMsgs = endpoint.unpolled.card + endpoint.dropped.card

abbrev Cluster (n : ℕ) := Fin n → Endpoint n

namespace Cluster

def initial (devices : Fin n → Device n) : Cluster n := fun p => .initial (devices p)

inductive Action (n : ℕ) where
  | post (pid : Fin n) (task : Task) (kind : OperationKind) (peer : Fin n)
  /-- The device completes an operation. -/
  | complete (pid : Fin n) (op : Posted n)
  /-- A poll of the local completion queue. -/
  | localProgress (pid : Fin n) (wcs : List (Posted n))
  | resize (pid : Fin n) (size : ℕ)
  /-- A sync in the default mode begins. -/
  | vote (pid : Fin n) (task : Task)
  /-- All processes learn the result of the vote. -/
  | voted
  /-- All processes reconnect. -/
  | reconnect
  /-- The wait for local completion ends. -/
  | proceed (pid : Fin n)

/-- One process moves, or all of them take part in a collective. -/
def Step (before : Cluster n) : Action n → Cluster n → Prop
  | .post pid task kind peer, after =>
      ((before pid).party.verbs.connectedQps peer).isSome ∧
        after = Function.update before pid
          { before pid with party := (before pid).party.post task kind peer }
  | .complete pid op, after => ∃ rest, (before pid).party.outstanding = op ::ₘ rest ∧
      after = Function.update before pid { before pid with
        party := { (before pid).party with
          outstanding := rest
          completed := op ::ₘ (before pid).party.completed } }
  | .localProgress pid wcs, after => ∃ rest, (before pid).party.completed = wcs + rest ∧
      after = Function.update before pid { before pid with
        party := (before pid).party.localProgress wcs rest
        polled := wcs + (before pid).polled }
  | .resize pid size, after => after = Function.update before pid { before pid with
      party := { (before pid).party with
        verbs := ((before pid).party.verbs.resizeMesgq size).1 }
      resized := true }
  | .vote pid task, after => (before pid).stage = .outside ∧
      after = Function.update before pid
        { before pid with stage := .voting task (before pid).resized }
  | .voted, after => ∃ (task : Fin n → Task) (resized : Fin n → Bool),
      (∀ p, (before p).stage = .voting (task p) (resized p)) ∧
        after = fun p => { before p with
          stage := if ∃ q, resized q = true then .reconnecting (task p) else .waiting (task p) }
  | .reconnect, after => ∃ (task : Fin n → Task) (rounds : List (Fin n → Collective n))
      (verbs : Fin n → IBVerbs n), (∀ p, (before p).stage = .reconnecting (task p)) ∧
        Executes (fun p => reconnectQPs p (before p).party.verbs) rounds
          (fun p => (verbs p, none)) ∧
        after = fun p => (before p).replaceQps (verbs p) (task p)
  | .proceed pid, after => ∃ task, (before pid).stage = .waiting task ∧
      ¬(before pid).numMsgs > 0 ∧
        after = Function.update before pid
          { before pid with stage := .outside, resized := false }

/-- Anything may happen at any time. -/
def Free (_ : Cluster n) (_ : Action n) : Prop := True

/-- If a process has resized, all processes have polled their completions when the vote ends, and
nothing is posted until they have reconnected. -/
def Prepared (cluster : Cluster n) : Action n → Prop
  | .voted => (∃ q task, (cluster q).stage = .voting task true) → ∀ p, (cluster p).numMsgs = 0
  | .post pid _ _ _ => ∀ task, (cluster pid).stage ≠ .reconnecting task
  | _ => True

/-- Only the device and the polling task of a process do something. -/
def Polls (p : Fin n) (_ : Cluster n) : Action n → Prop
  | .complete pid _ => pid = p
  | .localProgress pid _ => pid = p
  | _ => False

abbrev Reachable (devices : Fin n → Device n) (permitted : Cluster n → Action n → Prop) :
    Cluster n → Prop :=
  Transition.Reachable Step permitted (initial devices)

variable {cluster after : Cluster n} {action : Action n}

theorem forall_update {Holds : Endpoint n → Prop} (holds : ∀ p, Holds (cluster p)) {pid : Fin n}
    {endpoint : Endpoint n} (moved : Holds endpoint) (p : Fin n) :
    Holds (Function.update cluster pid endpoint p) := by
  rw [Function.update_apply]
  split
  next => exact moved
  next => exact holds p

theorem Step.balanced (taken : Step cluster action after)
    (balanced : ∀ p, (cluster p).Balanced) : ∀ p, (after p).Balanced := by
  cases action with
  | post pid task kind peer =>
      rcases taken with ⟨_, rfl⟩
      refine forall_update balanced ⟨?_, ?_⟩
      · simp only [Endpoint.unpolled, Party.post, (balanced pid).log, Multiset.cons_add]
      · have before := (balanced pid).numMsgs
        simp only [Endpoint.numMsgs, Endpoint.unpolled, Multiset.card_add] at before
        simp only [Endpoint.numMsgs, Endpoint.unpolled, Party.post, OperationKind.post_eq,
          countOperation, Multiset.card_add, Multiset.card_cons, before]
        push_cast
        omega
  | complete pid op =>
      rcases taken with ⟨rest, first, rfl⟩
      have same : rest + op ::ₘ (cluster pid).party.completed = (cluster pid).unpolled := by
        rw [Endpoint.unpolled, first, Multiset.add_cons, Multiset.cons_add]
      refine forall_update balanced ⟨?_, ?_⟩
      · rw [Endpoint.unpolled, same]
        exact (balanced pid).log
      · rw [Endpoint.unpolled, same]
        exact (balanced pid).numMsgs
  | localProgress pid wcs =>
      rcases taken with ⟨rest, polled, rfl⟩
      refine forall_update balanced ⟨?_, ?_⟩
      · simp only [Endpoint.unpolled, Party.localProgress, (balanced pid).log, polled]
        abel
      · have before := (balanced pid).numMsgs
        simp only [Endpoint.numMsgs, Endpoint.unpolled, polled, Multiset.card_add,
          Multiset.coe_card] at before
        simp only [Endpoint.numMsgs, Endpoint.unpolled, Party.localProgress, doLocalProgress,
          Multiset.card_add, before]
        push_cast
        omega
  | resize pid size =>
      subst taken
      refine forall_update balanced ⟨(balanced pid).log, ?_⟩
      rw [Endpoint.numMsgs, numMsgs_resizeMesgq]
      exact (balanced pid).numMsgs
  | vote pid task =>
      rcases taken with ⟨_, rfl⟩
      exact forall_update balanced ⟨(balanced pid).log, (balanced pid).numMsgs⟩
  | voted =>
      rcases taken with ⟨_, _, _, rfl⟩
      exact fun p => ⟨(balanced p).log, (balanced p).numMsgs⟩
  | reconnect =>
      rcases taken with ⟨task, rounds, verbs, _, execution, rfl⟩
      intro p
      have before := (balanced p).numMsgs
      simp only [Endpoint.numMsgs, Endpoint.unpolled, Multiset.card_add] at before
      refine ⟨?_, ?_⟩
      · simp only [Endpoint.replaceQps, Endpoint.unpolled, (balanced p).log]
        abel
      · simp only [Endpoint.replaceQps, Endpoint.numMsgs, Endpoint.unpolled,
          numMsgs_reconnectQPs execution p, Multiset.card_add, Multiset.card_zero, before]
        push_cast
        omega
  | proceed pid =>
      rcases taken with ⟨_, _, _, rfl⟩
      exact forall_update balanced ⟨(balanced pid).log, (balanced pid).numMsgs⟩

theorem Reachable.balanced {devices : Fin n → Device n}
    {permitted : Cluster n → Action n → Prop} (run : Reachable devices permitted cluster) :
    ∀ p, (cluster p).Balanced := by
  apply run.invariant
  · intro p
    exact ⟨rfl, rfl⟩
  · intro before action after balanced _ taken
    exact taken.balanced balanced

/-- Nothing is lost, and nothing is under way at a process that reconnects. -/
structure Clear (endpoint : Endpoint n) : Prop where
  reconnecting : ∀ task, endpoint.stage = .reconnecting task → endpoint.unpolled = 0
  dropped : endpoint.dropped = 0

theorem Step.clear (taken : Step cluster action after) (prepared : cluster.Prepared action)
    (balanced : ∀ p, (cluster p).Balanced) (clear : ∀ p, Clear (cluster p)) :
    ∀ p, Clear (after p) := by
  cases action with
  | post pid task kind peer =>
      rcases taken with ⟨_, rfl⟩
      exact forall_update clear
        ⟨fun task reconnecting => absurd reconnecting (prepared task), (clear pid).dropped⟩
  | complete pid op =>
      rcases taken with ⟨rest, first, rfl⟩
      refine forall_update clear ⟨?_, (clear pid).dropped⟩
      intro task reconnecting
      have nothing := (clear pid).reconnecting task reconnecting
      rw [Endpoint.unpolled, first, Multiset.cons_add] at nothing
      exact absurd nothing (Multiset.cons_ne_zero)
  | localProgress pid wcs =>
      rcases taken with ⟨rest, polled, rfl⟩
      refine forall_update clear ⟨?_, (clear pid).dropped⟩
      intro task reconnecting
      have nothing := (clear pid).reconnecting task reconnecting
      rw [Endpoint.unpolled, polled, add_eq_zero, add_eq_zero] at nothing
      simp only [Endpoint.unpolled, Party.localProgress, nothing.1, nothing.2.2, add_zero]
  | resize pid size =>
      subst taken
      exact forall_update clear ⟨(clear pid).reconnecting, (clear pid).dropped⟩
  | vote pid task =>
      rcases taken with ⟨_, rfl⟩
      exact forall_update clear ⟨nofun, (clear pid).dropped⟩
  | voted =>
      rcases taken with ⟨task, resized, voting, rfl⟩
      intro p
      refine ⟨?_, (clear p).dropped⟩
      intro itsTask reconnecting
      have asked : ∃ q, resized q = true := by
        by_contra none
        have decided : (if ∃ q, resized q = true then VoteStage.reconnecting (task p)
            else VoteStage.waiting (task p)) = .reconnecting itsTask := reconnecting
        rw [if_neg none] at decided
        cases decided
      rcases asked with ⟨q, asks⟩
      have polled := prepared ⟨q, task q, asks ▸ voting q⟩ p
      rw [(balanced p).numMsgs] at polled
      show (cluster p).unpolled = 0
      rw [← Multiset.card_eq_zero]
      omega
  | reconnect =>
      rcases taken with ⟨task, _, verbs, reconnecting, _, rfl⟩
      intro p
      have nothing := (clear p).reconnecting (task p) (reconnecting p)
      rw [Endpoint.unpolled, add_eq_zero] at nothing
      refine ⟨nofun, ?_⟩
      show (cluster p).party.outstanding + (cluster p).dropped = 0
      rw [nothing.1, (clear p).dropped, add_zero]
  | proceed pid =>
      rcases taken with ⟨_, _, _, rfl⟩
      exact forall_update clear ⟨nofun, (clear pid).dropped⟩

theorem Reachable.clear {devices : Fin n → Device n} (run : Reachable devices Prepared cluster) :
    ∀ p, Clear (cluster p) := by
  apply run.invariant_of (fun _ reached => Reachable.balanced reached)
  · intro p
    exact ⟨nofun, rfl⟩
  · intro before action after balanced _ clear prepared taken
    exact taken.clear prepared balanced clear

/-- The device can complete everything that is outstanding. -/
theorem exists_completed (p : Fin n) (outstanding : Multiset (Posted n)) (cluster : Cluster n)
    (all : (cluster p).party.outstanding = outstanding) : ∃ after,
      Transition.Reachable Step (Polls p) cluster after ∧ (after p).party.outstanding = 0 ∧
        (after p).stage = (cluster p).stage ∧ (after p).dropped = (cluster p).dropped := by
  induction outstanding using Multiset.induction generalizing cluster with
  | empty => exact ⟨cluster, Transition.Reachable.refl, all, rfl, rfl⟩
  | cons op rest ih =>
      let next : Cluster n := Function.update cluster p { cluster p with
        party := { (cluster p).party with
          outstanding := rest
          completed := op ::ₘ (cluster p).party.completed } }
      have atP : next p = { cluster p with
        party := { (cluster p).party with
          outstanding := rest
          completed := op ::ₘ (cluster p).party.completed } } := Function.update_self ..
      rcases ih next (by rw [atP]) with ⟨after, run, none, stage, dropped⟩
      rw [atP] at stage dropped
      exact ⟨after, Relation.ReflTransGen.head ⟨.complete p op, rfl, rest, all, rfl⟩ run, none,
        stage, dropped⟩

/-- The polling task can then poll it. -/
theorem exists_polled (cluster : Cluster n) (p : Fin n) : ∃ after,
    Transition.Reachable Step (Polls p) cluster after ∧ (after p).unpolled = 0 ∧
      (after p).stage = (cluster p).stage ∧ (after p).dropped = (cluster p).dropped := by
  rcases exists_completed p _ cluster rfl with ⟨middle, run, none, stage, dropped⟩
  rcases Quotient.exists_rep (middle p).party.completed with ⟨wcs, all⟩
  have polled : (middle p).party.completed = wcs + 0 := by
    rw [← all, add_zero]
    rfl
  refine ⟨_, Relation.ReflTransGen.tail run
    ⟨.localProgress p wcs, rfl, 0, polled, rfl⟩, ?_, ?_, ?_⟩
  · rw [Function.update_self, Endpoint.unpolled]
    exact congrArg (· + (0 : Multiset (Posted n))) none
  · rw [Function.update_self]
    exact stage
  · rw [Function.update_self]
    exact dropped

/-- If every process has polled its completions when a vote for a reconnection ends, and posts
nothing before the reconnection, no queue pair is destroyed with an operation under way.  Then
nothing is ever lost, and every wait for local completion can end. -/
theorem reconnect_loses_nothing (devices : Fin n → Device n)
    (run : Reachable devices Prepared cluster) :
    (∀ after, Step cluster .reconnect after →
      ∀ p, (cluster p).numMsgs = 0 ∧ (cluster p).unpolled = 0) ∧
    (∀ p, (cluster p).party.log = (cluster p).unpolled + (cluster p).polled) ∧
    ∀ p task, (cluster p).stage = .waiting task → ∃ after,
      Transition.Reachable Step (Polls p) cluster after ∧ (after p).stage = .waiting task ∧
        (after p).numMsgs = 0 ∧ (after p).party.log = (after p).polled := by
  have balanced := Reachable.balanced run
  have clear := Reachable.clear run
  refine ⟨?_, ?_, ?_⟩
  · rintro after ⟨task, _, _, reconnecting, _, _⟩ p
    have nothing := (clear p).reconnecting (task p) (reconnecting p)
    refine ⟨?_, nothing⟩
    rw [(balanced p).numMsgs, nothing, (clear p).dropped]
    rfl
  · intro p
    rw [(balanced p).log, (clear p).dropped, add_zero]
  · intro p task waiting
    rcases exists_polled cluster p with ⟨after, polls, nothing, stage, dropped⟩
    have allBalanced : ∀ q, (after q).Balanced := by
      apply polls.invariant balanced
      intro before action after balanced _ taken
      exact taken.balanced balanced
    have balancedAfter := allBalanced p
    have none : (after p).dropped = 0 := dropped.trans (clear p).dropped
    refine ⟨after, polls, stage.trans waiting, ?_, ?_⟩
    · rw [balancedAfter.numMsgs, nothing, none]
      rfl
    · rw [balancedAfter.log, nothing, none, zero_add, add_zero]

theorem Reachable.next {devices : Fin n → Device n} {permitted : Cluster n → Action n → Prop}
    (run : Reachable devices permitted cluster) (action : Action n)
    (allowed : permitted cluster action) (taken : Step cluster action after) :
    Reachable devices permitted after := run.tail allowed taken

/-- A cluster of one process is what that process is. -/
theorem of_one {devices : Fin 1 → Device 1} {permitted : Cluster 1 → Action 1 → Prop}
    {cluster target : Cluster 1} (run : Reachable devices permitted cluster)
    (same : cluster 0 = target 0) : Reachable devices permitted target :=
  (funext (Fin.forall_fin_one.mpr same) : cluster = target) ▸ run

/-- One process that has resized and asks for a reconnection -/
def resizing : Cluster 1 := fun _ =>
  { Endpoint.initial (.generous 1) with
    party := { Party.initial (.generous 1) with
      verbs := ((IBVerbs.initial (.generous 1)).resizeMesgq 1).1 }
    resized := true
    stage := .reconnecting 6 }

theorem resizing_run {permitted : Cluster 1 → Action 1 → Prop}
    (allowed : ∀ cluster action, (∀ p, (cluster p).numMsgs = 0) →
      (∀ pid task kind peer, action ≠ .post pid task kind peer) → permitted cluster action) :
    Reachable (fun _ => .generous 1) permitted resizing := by
  have started : Reachable (fun _ => .generous 1) permitted
      (initial fun _ : Fin 1 => .generous 1) := Transition.Reachable.refl
  have resized := started.next (.resize 0 1) (allowed _ _ (fun _ => rfl) nofun) rfl
  have voting := resized.next (.vote 0 6)
    (allowed _ _ (Fin.forall_fin_one.mpr rfl) nofun) ⟨rfl, rfl⟩
  have voted := voting.next .voted (allowed _ _ (Fin.forall_fin_one.mpr rfl) nofun)
    ⟨fun _ => 6, fun _ => true, Fin.forall_fin_one.mpr rfl, rfl⟩
  exact of_one voted rfl

/-- What the processes of a cluster hold after a reconnection -/
def pairs (cluster : Cluster n) (p : Fin n) : IBVerbs n :=
  paired (fun q => (cluster q).party.verbs) p

/-- Processes with complete staged pairs can reconnect. -/
theorem Reachable.reconnect {devices : Fin n → Device n} {permitted : Cluster n → Action n → Prop}
    (run : Reachable devices permitted cluster) (allowed : permitted cluster .reconnect)
    {task : Task} (reconnecting : ∀ p, (cluster p).stage = .reconnecting task)
    (staged : ∀ p, (cluster p).party.verbs.Staged)
    (reconnects : ∀ p, (cluster p).party.verbs.Reconnects) :
    Step cluster .reconnect (fun p => (cluster p).replaceQps (cluster.pairs p) task) ∧
      Reachable devices permitted fun p => (cluster p).replaceQps (cluster.pairs p) task := by
  rcases reconnectQPs_executes_paired staged reconnects with ⟨rounds, execution⟩
  have taken : Step cluster .reconnect fun p =>
      (cluster p).replaceQps (cluster.pairs p) task :=
    ⟨fun _ => task, rounds, cluster.pairs, reconnecting, execution, rfl⟩
  exact ⟨taken, run.tail allowed taken⟩

/-- The same process after its reconnection -/
def connected : Cluster 1 := fun p =>
  { resizing p with
    party := { (resizing p).party with verbs := resizing.pairs p }
    resized := false
    stage := .outside }

theorem connected_run {permitted : Cluster 1 → Action 1 → Prop}
    (allowed : ∀ cluster action, (∀ p, (cluster p).numMsgs = 0) →
      (∀ pid task kind peer, action ≠ .post pid task kind peer) → permitted cluster action) :
    Reachable (fun _ => .generous 1) permitted connected := by
  have reconnected := ((resizing_run allowed).reconnect
    (allowed _ _ (Fin.forall_fin_one.mpr rfl) nofun) (fun _ => rfl)
    (Fin.forall_fin_one.mpr (Fin.forall_fin_one.mpr rfl)) fun _ => ⟨rfl, rfl, fun _ => rfl⟩).2
  have proceeded := Reachable.next reconnected (.proceed 0)
    (allowed _ _ (Fin.forall_fin_one.mpr rfl) nofun) ⟨6, rfl, Int.lt_irrefl 0, rfl⟩
  exact of_one proceeded rfl

/-- A process polls the completion of its operation before it resizes, and loses nothing. -/
theorem reconnect_loses_nothing_one : ∃ cluster after : Cluster 1, Step cluster .reconnect after ∧
    (cluster 0).party.log.card = 1 ∧ (cluster 0).numMsgs = 0 ∧
      (cluster 0).party.log = (cluster 0).polled := by
  have started : Reachable (fun _ => .generous 1) Prepared connected := by
    apply connected_run
    intro cluster action polled other
    cases action with
    | voted => exact fun _ => polled
    | post pid task kind peer => exact absurd rfl (other pid task kind peer)
    | _ => trivial
  have outside : (connected 0).stage = .outside := rfl
  have posted := started.next (.post 0 5 .put 0) (fun _ same => nomatch outside.symm.trans same)
    ⟨rfl, rfl⟩
  have completed := posted.next (.complete 0 ((connected 0).party.operation 5 0)) trivial
    ⟨0, rfl, rfl⟩
  have polled := completed.next (.localProgress 0 [(connected 0).party.operation 5 0]) trivial
    ⟨0, rfl, rfl⟩
  have resized := polled.next (.resize 0 1) trivial rfl
  have voting := resized.next (.vote 0 6) trivial ⟨rfl, rfl⟩
  have voted := voting.next .voted (fun _ => Fin.forall_fin_one.mpr rfl)
    ⟨fun _ => 6, fun _ => true, Fin.forall_fin_one.mpr rfl, rfl⟩
  have reconnects := (Reachable.reconnect voted trivial (Fin.forall_fin_one.mpr rfl)
    (Fin.forall_fin_one.mpr (Fin.forall_fin_one.mpr rfl))
    (Fin.forall_fin_one.mpr ⟨rfl, rfl, fun _ => rfl⟩)).1
  have nothing := reconnect_loses_nothing _ voted
  have atOnce := nothing.1 _ reconnects 0
  have log := nothing.2.1 0
  rw [atOnce.2, zero_add] at log
  exact ⟨_, _, reconnects, rfl, atOnce.1, log⟩

/-- A process that posts and resizes before its sync reconnects with the operation under way. -/
theorem not_reconnect_loses_nothing : ¬∀ (n : ℕ) (devices : Fin n → Device n)
    (cluster after : Cluster n), Reachable devices Free cluster → Step cluster .reconnect after →
      ∀ p, (cluster p).numMsgs = 0 := by
  intro nothing
  have started : Reachable (fun _ => .generous 1) Free connected :=
    connected_run fun _ _ _ _ => trivial
  have posted := started.next (.post 0 5 .put 0) trivial ⟨rfl, rfl⟩
  have resized := posted.next (.resize 0 1) trivial rfl
  have voting := resized.next (.vote 0 6) trivial ⟨rfl, rfl⟩
  have voted := voting.next .voted trivial
    ⟨fun _ => 6, fun _ => true, Fin.forall_fin_one.mpr rfl, rfl⟩
  have reconnects := (Reachable.reconnect voted trivial (Fin.forall_fin_one.mpr rfl)
    (Fin.forall_fin_one.mpr (Fin.forall_fin_one.mpr rfl))
    (Fin.forall_fin_one.mpr ⟨rfl, rfl, fun _ => rfl⟩)).1
  have zero := nothing 1 _ _ _ voted reconnects 0
  have one : (1 : Int) = 0 := zero
  exact absurd one (by decide)

end Cluster

end IBVerbs

end Talpf
