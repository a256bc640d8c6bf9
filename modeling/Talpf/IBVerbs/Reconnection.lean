import Talpf.IBVerbs.Lockstep

/-!
# Which endpoints a reconnection pairs

A reconnection exchanges the numbers of the staged queue pairs by a total
exchange and the addresses of the processes by two gathers.  Afterwards the pair
of `p` for `q` points at the pair of `q` for `p`.
-/

namespace Talpf

open Spmd

namespace IBVerbs

variable {n : ℕ} {verbs : Fin n → IBVerbs n}

/-- The staged queue pairs, each with its peer. -/
def withRemotes (stagedQps : Fin n → Option Qp) (remoteQpNums lids gids : Fin n → ℕ)
    (peer : Fin n) : Option Qp :=
  (stagedQps peer).map fun qp =>
    { qp with remote := some (remoteQpNums peer, lids peer, gids peer) }

theorem connectPeers_granted {reconnect : ℕ} (remoteQpNums lids gids : Fin n → ℕ)
    (peers : List (Fin n)) (verbs : IBVerbs n)
    (granted : ∀ peer, verbs.device.modifyQp reconnect peer = true) :
    connectPeers reconnect remoteQpNums lids gids peers verbs =
      ({ verbs with stagedQps := fun peer =>
          if peer ∈ peers then withRemotes verbs.stagedQps remoteQpNums lids gids peer
          else verbs.stagedQps peer }, true) := by
  induction peers generalizing verbs with
  | nil => simp [connectPeers]
  | cons peer peers ih =>
      unfold connectPeers
      rw [if_pos (granted peer)]
      have rest := ih { verbs with
        stagedQps := Function.update verbs.stagedQps peer
          (withRemotes verbs.stagedQps remoteQpNums lids gids peer) } granted
      refine rest.trans ?_
      congr 2
      funext other
      by_cases same : other = peer
      · subst same
        by_cases later : other ∈ peers
        · simp [later, withRemotes, Function.comp_def]
        · simp [later, withRemotes]
      · simp [same, withRemotes]

theorem connectQPs_granted {verbs : IBVerbs n} {reconnect : ℕ}
    (remoteQpNums lids gids : Fin n → ℕ)
    (granted : ∀ peer, verbs.device.modifyQp reconnect peer = true) :
    verbs.connectQPs reconnect remoteQpNums lids gids =
      .call (.allreduceOr false) fun (failed : Bool) =>
        if failed then
          .done ({ verbs with
            stagedQps := withRemotes verbs.stagedQps remoteQpNums lids gids }, some .exception)
        else .call .barrier fun _ => .done ({ verbs with
          connectedQps := withRemotes verbs.stagedQps remoteQpNums lids gids
          stagedQps := fun _ => none }, none) := by
  unfold connectQPs
  rw [connectPeers_granted remoteQpNums lids gids (List.finRange n) verbs granted]
  simp [swapQps]

/-- The gid that a process announces when the query succeeds. -/
def localGid (verbs : IBVerbs n) : ℕ := (verbs.device.gid verbs.device.reconnects).getD 0

/-- What a process holds after a reconnection. -/
def paired (verbs : Fin n → IBVerbs n) (p : Fin n) : IBVerbs n :=
  { (verbs p).reconnecting with
    connectedQps := withRemotes (verbs p).stagedQps (fun q => (verbs q).localQpNums p)
      (fun q => (verbs q).device.lid) (fun q => (verbs q).localGid)
    stagedQps := fun _ => none }

theorem reconnectQPs_granted (pid : Fin n) {verbs : IBVerbs n} (staged : verbs.Staged)
    (reconnects : verbs.Reconnects) :
    reconnectQPs pid verbs =
      .call .barrier fun _ =>
        .call (.allreduceOr false) fun (failed : Bool) =>
          if failed then .done (verbs.reconnecting, some .exception)
          else
            .call (.allToAll verbs.localQpNums) fun remoteQpNums =>
            .call (.allgatherLid verbs.device.lid) fun lids =>
            .call (.allgatherGid verbs.localGid) fun gids =>
              verbs.reconnecting.connectQPs verbs.device.reconnects remoteQpNums lids gids := by
  have first : ¬(verbs.stagedQps ⟨0, pid.pos⟩).isNone = true := by
    have isSome := staged ⟨0, pid.pos⟩
    simp [Option.isNone_iff_eq_none, Option.isSome_iff_ne_none.mp isSome]
  rcases reconnects with ⟨found, room, _⟩
  rcases Option.isSome_iff_exists.mp found with ⟨gid, found⟩
  have announced : verbs.localGid = gid := by
    rw [localGid, found]
    rfl
  subst announced
  simp only [reconnectQPs, if_neg first, found, room, if_true]
  refine congrArg _ (funext fun _ => ?_)
  exact (if_pos staged).trans rfl

/-- Without a failure all processes reconnect, and each learns the pairs that are staged for it. -/
theorem reconnectQPs_executes_paired (staged : ∀ p, (verbs p).Staged)
    (reconnects : ∀ p, (verbs p).Reconnects) :
    ∃ rounds, Executes (fun p => reconnectQPs p (verbs p)) rounds
      fun p => (paired verbs p, none) := by
  have granted : ∀ p peer, (verbs p).reconnecting.device.modifyQp (verbs p).device.reconnects peer =
      true := fun p => (reconnects p).2.2
  refine ⟨[fun _ => .barrier, fun _ => .allreduceOr false,
    fun p => .allToAll (verbs p).localQpNums, fun p => .allgatherLid (verbs p).device.lid,
    fun p => .allgatherGid (verbs p).localGid, fun _ => .allreduceOr false,
    fun _ => .barrier], ?_⟩
  simp only [reconnectQPs_granted _ (staged _) (reconnects _)]
  apply Comm.executes_barrier
  apply Comm.executes_allreduceOr
  simp only [Bool.false_eq_true, exists_false, decide_false, if_false]
  apply Comm.executes_allToAll
  apply Comm.executes_allgatherLid
  apply Comm.executes_allgatherGid
  simp only [connectQPs_granted _ _ _ (granted _)]
  apply Comm.executes_allreduceOr
  simp only [Bool.false_eq_true, exists_false, decide_false, if_false]
  apply Comm.executes_barrier
  exact .of_done _

/-- The connected pair for each peer is the one that was staged, and its own peer is the pair that
the other process has staged for this one, at the address of that process. -/
def PairedWith (before after : Fin n → IBVerbs n) (p q : Fin n) : Prop :=
  ∃ own other gid, (before p).stagedQps q = some own ∧ (before q).stagedQps p = some other ∧
    (before q).device.gid (before q).device.reconnects = some gid ∧
    (after p).connectedQps q =
      some ⟨own.qpNum, some (other.qpNum, (before q).device.lid, gid)⟩

theorem pairedWith_paired (staged : ∀ p, (verbs p).Staged)
    (reconnects : ∀ p, (verbs p).Reconnects) (p q : Fin n) :
    PairedWith verbs (paired verbs) p q := by
  rcases Option.isSome_iff_exists.mp (staged p q) with ⟨own, ownStaged⟩
  rcases Option.isSome_iff_exists.mp (staged q p) with ⟨other, otherStaged⟩
  rcases Option.isSome_iff_exists.mp (reconnects q).1 with ⟨gid, found⟩
  refine ⟨own, other, gid, ownStaged, otherStaged, found, ?_⟩
  simp [paired, withRemotes, localQpNums, localGid, ownStaged, otherStaged, found]

/-- Processes with complete staged queue pairs take part in the same collectives when they
reconnect.  If no gid query, allocation or transition fails at any of them, the new pair of each
process for each peer is connected to the pair that the peer has staged for that process, and
nothing is staged any longer.  Otherwise all of them throw and keep their connected pairs. -/
theorem reconnectQPs_together (staged : ∀ p, (verbs p).Staged) :
    ∃ (rounds : List (Fin n → Collective n)) (after : Fin n → IBVerbs n)
      (thrown : Fin n → Option Exn),
      Executes (fun p => reconnectQPs p (verbs p)) rounds (fun p => (after p, thrown p)) ∧
      (∀ p q, Collective.kinds p rounds = Collective.kinds q rounds) ∧
      ((∀ p, (verbs p).Reconnects) → ∀ p, thrown p = none ∧
        (∀ q, PairedWith verbs after p q) ∧ ∀ q, (after p).stagedQps q = none) ∧
      ((¬∀ p, (verbs p).Reconnects) → ∀ p, (thrown p).isSome ∧
        (after p).connectedQps = (verbs p).connectedQps) := by
  by_cases reconnects : ∀ p, (verbs p).Reconnects
  · rcases reconnectQPs_executes_paired staged reconnects with ⟨rounds, execution⟩
    refine ⟨rounds, paired verbs, fun _ => none, execution, Comm.kinds_eq execution, ?_, ?_⟩
    · intro _ p
      exact ⟨rfl, pairedWith_paired staged reconnects p, fun _ => rfl⟩
    · intro failed
      exact absurd reconnects failed
  · rcases reconnectQPs_executes staged with ⟨_, _, all, _⟩ |
      ⟨rounds, after, thrown, _, execution, interrupted⟩
    · exact absurd all reconnects
    · refine ⟨rounds, after, fun p => some (thrown p), execution, Comm.kinds_eq execution, ?_, ?_⟩
      · intro all
        exact absurd all reconnects
      · intro _ p
        exact ⟨rfl, (interrupted p).sameConnected⟩

/-- A process with pairs staged for all peers, numbered from the given number on. -/
def stagedFrom (first : ℕ) (device : Device n) : IBVerbs n :=
  { initial device with stagedQps := fun q => some ⟨first + q.val, none⟩ }

/-- Two processes with all their pairs staged, the second of which cannot query its gid. -/
def withoutGid (p : Fin 2) : IBVerbs 2 :=
  stagedFrom (10 * p.val)
    { Device.generous 2 with gid := fun _ => if p.val = 0 then some 0 else none }

theorem reconnectQPs_together_two :
    ∃ (rounds : List (Fin 2 → Collective 2)) (after : Fin 2 → IBVerbs 2)
      (thrown : Fin 2 → Option Exn),
      Executes (fun p => reconnectQPs p (withoutGid p)) rounds
        (fun p => (after p, thrown p)) ∧
      ∀ p, (thrown p).isSome ∧ (after p).connectedQps = fun _ => none := by
  have staged : ∀ p, (withoutGid p).Staged := fun _ _ => rfl
  have refused : ¬∀ p, (withoutGid p).Reconnects := by
    intro all
    have queried := (all 1).1
    simp [withoutGid, stagedFrom, initial] at queried
  rcases reconnectQPs_together staged with ⟨rounds, after, thrown, execution, _, _, failed⟩
  exact ⟨rounds, after, thrown, execution, failed refused⟩

end IBVerbs

end Talpf
