import Talpf.IBVerbs.Lockstep

/-!
# What a sync leaves alone

Whatever its collectives return, the sync of the verbs layer does not touch the
memory slots.
-/

namespace Talpf

open Spmd

namespace IBVerbs

variable {n : ℕ} {pid : Fin n} {verbs after : IBVerbs n} {answers : List (machine n).Answer}

/-- The same memory slots. -/
structure Framed (before after : IBVerbs n) : Prop where
  sameMemreg : after.memreg = before.memreg

theorem Framed.trans {before middle after : IBVerbs n} (first : Framed before middle)
    (second : Framed middle after) : Framed before after :=
  ⟨second.sameMemreg.trans first.sameMemreg⟩

theorem framed_connectPeers (reconnect : ℕ) (remoteQpNums lids gids : Fin n → ℕ)
    (peers : List (Fin n)) (verbs : IBVerbs n) :
    Framed verbs (connectPeers reconnect remoteQpNums lids gids peers verbs).1 := by
  rcases connectPeers_eq reconnect remoteQpNums lids gids peers verbs with ⟨_, same, _⟩
  exact ⟨by rw [same]⟩

theorem framed_connectQPs {reconnect : ℕ} {remoteQpNums lids gids : Fin n → ℕ}
    {thrown : Option Exn}
    (follows : Follows (verbs.connectQPs reconnect remoteQpNums lids gids) answers
      (after, thrown)) : Framed verbs after := by
  have connecting := framed_connectPeers reconnect remoteQpNums lids gids (List.finRange n) verbs
  simp only [connectQPs] at follows
  split at follows
  next =>
    rcases Follows.call_iff.mp follows with ⟨_, _, _, rest⟩
    split at rest
    next =>
      rcases Follows.done_iff.mp rest with ⟨_, made⟩
      rw [(Prod.mk.inj made).1]
      exact connecting
    next =>
      rcases Follows.call_iff.mp rest with ⟨_, _, _, finished⟩
      rcases Follows.done_iff.mp finished with ⟨_, made⟩
      rw [(Prod.mk.inj made).1]
      exact connecting.trans ⟨rfl⟩
  next =>
    rcases Follows.call_iff.mp follows with ⟨_, _, _, finished⟩
    rcases Follows.done_iff.mp finished with ⟨_, made⟩
    rw [(Prod.mk.inj made).1]
    exact connecting

theorem framed_exchangeQPs {reconnect gid : ℕ} {numbers : Fin n → ℕ} {thrown : Option Exn}
    (follows : Follows (verbs.exchangeQPs reconnect numbers gid) answers (after, thrown)) :
    Framed verbs after := by
  rcases Follows.call_iff.mp follows with ⟨_, _, _, rest⟩
  split at rest
  next =>
    rcases Follows.done_iff.mp rest with ⟨_, made⟩
    rw [(Prod.mk.inj made).1]
    exact ⟨rfl⟩
  next =>
    rcases Follows.call_iff.mp rest with ⟨_, _, _, rest⟩
    rcases Follows.call_iff.mp rest with ⟨_, _, _, rest⟩
    rcases Follows.call_iff.mp rest with ⟨_, _, _, rest⟩
    exact framed_connectQPs rest

theorem framed_reconnectQPs {thrown : Option Exn}
    (follows : Follows (reconnectQPs pid verbs) answers (after, thrown)) :
    Framed verbs after := by
  have counted : Framed verbs { verbs with
      device := { verbs.device with reconnects := verbs.device.reconnects + 1 } } :=
    ⟨rfl⟩
  unfold reconnectQPs at follows
  split at follows
  next => exact absurd follows Follows.not_fault
  next =>
    rcases Follows.call_iff.mp follows with ⟨_, _, _, rest⟩
    simp only at rest
    split at rest
    next =>
      rcases Follows.call_iff.mp rest with ⟨_, _, _, finished⟩
      rcases Follows.done_iff.mp finished with ⟨_, made⟩
      rw [(Prod.mk.inj made).1]
      exact counted
    next =>
      split at rest
      next =>
        split at rest
        next => exact counted.trans (framed_exchangeQPs rest)
        next => exact absurd rest Follows.not_fault
      next =>
        rcases Follows.call_iff.mp rest with ⟨_, _, _, finished⟩
        rcases Follows.done_iff.mp finished with ⟨_, made⟩
        rw [(Prod.mk.inj made).1]
        exact counted

theorem framed_exchange {mode : SyncMode} {counts : Fin n → Int} {remoteMsgs : Int}
    (follows : Follows (exchange pid verbs mode counts) answers (after, remoteMsgs)) :
    Framed verbs after := by
  rcases Follows.bind_iff.mp follows with ⟨_, _, _, _, _, finished⟩
  rcases Follows.done_iff.mp finished with ⟨_, made⟩
  rw [(Prod.mk.inj made).1]
  exact ⟨rfl⟩

theorem framed_expectedMsgs {attr : SyncAttr} {counts : Fin n → Int} {remoteMsgs : Int}
    (follows : Follows (expectedMsgs pid verbs attr counts) answers (after, remoteMsgs)) :
    Framed verbs after := by
  have cached : Framed verbs { verbs with syncCached := true } := ⟨rfl⟩
  unfold expectedMsgs at follows
  split at follows
  next =>
    split at follows
    next =>
      rcases Follows.done_iff.mp follows with ⟨_, made⟩
      rw [(Prod.mk.inj made).1]
      exact ⟨rfl⟩
    next => exact cached.trans (framed_exchange follows)
  next => exact framed_exchange follows
  next =>
    rcases Follows.done_iff.mp follows with ⟨_, made⟩
    rw [(Prod.mk.inj made).1]
    exact ⟨rfl⟩
  next =>
    rcases Follows.done_iff.mp follows with ⟨_, made⟩
    rw [(Prod.mk.inj made).1]
    exact ⟨rfl⟩

theorem framed_requestSync {barrier : Bool} {remoteMsgs : Int} {task : Task}
    (requests : verbs.requestSync barrier remoteMsgs task = some after) : Framed verbs after := by
  unfold requestSync at requests
  split at requests
  next => cases requests
  next =>
    cases requests
    exact ⟨rfl⟩

theorem framed_syncCounts {task : Task} {vote : Int} {attr : SyncAttr} {result : Except Exn Int}
    (follows : Follows (syncCounts pid task verbs vote attr) answers (after, result)) :
    Framed verbs after := by
  rcases Follows.bind_iff.mp follows with ⟨_, _, ⟨counted, remoteMsgs⟩, _, counting, rest⟩
  have drained : Framed verbs { verbs with numMsgs := min verbs.numMsgs 0 }.clearMsgsSync :=
    ⟨rfl⟩
  have counted := drained.trans (framed_expectedMsgs counting)
  simp only at rest
  split at rest
  next requested requests =>
    rcases Follows.done_iff.mp rest with ⟨_, made⟩
    rw [(Prod.mk.inj made).1]
    exact counted.trans (framed_requestSync requests)
  next =>
    rcases Follows.done_iff.mp rest with ⟨_, made⟩
    rw [(Prod.mk.inj made).1]
    exact counted

theorem framed_sync {task : Task} {vote : Int × Int} {attr : SyncAttr} {result : Except Exn Int}
    (follows : Follows (sync pid task verbs vote attr) answers (after, result)) :
    Framed verbs after := by
  unfold sync at follows
  split at follows
  next =>
    rcases Follows.call_iff.mp follows with ⟨_, _, _, rest⟩
    split at rest
    next =>
      rcases Follows.done_iff.mp rest with ⟨_, made⟩
      rw [(Prod.mk.inj made).1]
      exact ⟨rfl⟩
    next =>
      split at rest
      next =>
        rcases Follows.bind_iff.mp rest with ⟨_, _, ⟨middle, thrown⟩, _, reconnecting, rest⟩
        have reconnected := framed_reconnectQPs reconnecting
        cases thrown with
        | none => exact reconnected.trans (framed_syncCounts rest)
        | some exn =>
            rcases Follows.done_iff.mp rest with ⟨_, made⟩
            rw [(Prod.mk.inj made).1]
            exact reconnected
      next => exact framed_syncCounts rest
  next => exact framed_syncCounts follows

end IBVerbs

end Talpf
