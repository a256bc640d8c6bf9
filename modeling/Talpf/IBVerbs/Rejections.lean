import Talpf.IBVerbs.Sync

/-!
# Rejected syncs

A sync looks for an active request only after it has read and cleared the
counts, and after it has exchanged and cached them.  A sync that is then
rejected has already lost what it read.
-/

namespace Talpf

open Spmd

namespace IBVerbs

variable {n : ℕ}

/-- The answers that a process receives from its collectives. -/
abbrev Told (n : ℕ) := List (machine n).Answer

/-- Only queue pairs and the device have changed. -/
def Repaired (before after : IBVerbs n) : Prop :=
  ∃ stagedQps connectedQps device, after = { before with
    stagedQps := stagedQps
    connectedQps := connectedQps
    device := device }

theorem Repaired.refl (verbs : IBVerbs n) : Repaired verbs verbs := ⟨_, _, _, rfl⟩

theorem Repaired.trans {before middle after : IBVerbs n} (first : Repaired before middle)
    (second : Repaired middle after) : Repaired before after := by
  rcases first with ⟨_, _, _, rfl⟩
  rcases second with ⟨_, _, _, rfl⟩
  exact ⟨_, _, _, rfl⟩

theorem repaired_connectPeers (reconnect : ℕ) (remoteQpNums lids gids : Fin n → ℕ)
    (peers : List (Fin n)) (verbs : IBVerbs n) :
    Repaired verbs (connectPeers reconnect remoteQpNums lids gids peers verbs).1 := by
  induction peers generalizing verbs with
  | nil => exact .refl verbs
  | cons peer peers ih =>
      rw [connectPeers]
      split
      next => exact Repaired.trans ⟨_, _, _, rfl⟩ (ih _)
      next => exact .refl verbs

theorem connectQPs_ensures (verbs : IBVerbs n) (reconnect : ℕ)
    (remoteQpNums lids gids : Fin n → ℕ) :
    (verbs.connectQPs reconnect remoteQpNums lids gids).Ensures fun result =>
      Repaired verbs result.1 := by
  have paired := repaired_connectPeers reconnect remoteQpNums lids gids (List.finRange n) verbs
  rw [connectQPs]
  generalize connectPeers reconnect remoteQpNums lids gids (List.finRange n) verbs = outcome
    at paired
  rcases outcome with ⟨verbs, connected⟩
  cases connected with
  | true =>
      intro failed
      cases failed with
      | true => exact paired
      | false => exact fun _ => paired.trans ⟨_, _, _, rfl⟩
  | false => exact fun _ => paired

theorem exchangeQPs_ensures (verbs : IBVerbs n) (reconnect : ℕ) (qpNums : Fin n → ℕ) (gid : ℕ) :
    (verbs.exchangeQPs reconnect qpNums gid).Ensures fun result => Repaired verbs result.1 := by
  intro failed
  cases failed with
  | true => exact .refl verbs
  | false => exact fun remoteQpNums lids gids =>
      connectQPs_ensures verbs reconnect remoteQpNums lids gids

/-- A reconnection changes only queue pairs and the device. -/
theorem reconnectQPs_ensures (pid : Fin n) (verbs : IBVerbs n) :
    (reconnectQPs pid verbs).Ensures fun result => Repaired verbs result.1 := by
  have counted : Repaired verbs { verbs with
      device := { verbs.device with reconnects := verbs.device.reconnects + 1 } } :=
    ⟨_, _, _, rfl⟩
  rw [reconnectQPs]
  split
  next => trivial
  next =>
    intro _
    dsimp only
    split
    next => exact fun _ => counted
    next =>
      split
      next =>
        split
        next => exact (exchangeQPs_ensures _ _ _ _).mono fun _ => counted.trans
        next => trivial
      next => exact fun _ => counted

/-- The answers with which a sync comes to the wait for local completion, and its state there. -/
inductive Arrives (pid : Fin n) (before : IBVerbs n) (vote : Int × Int) (attr : SyncAttr) :
    Told n → IBVerbs n → Prop where
  | silent (mode : attr.mode ≠ .default) : Arrives pid before vote attr [] before
  | voted {voted : Int × Int} (mode : attr.mode = .default) (goesOn : voted.1 = 0)
      (connected : ¬voted.2 > 0) :
      Arrives pid before vote attr [⟨.iallreduceSum vote, voted⟩] before
  | reconnected {voted : Int × Int} {answers : Told n} {after : IBVerbs n}
      (mode : attr.mode = .default) (goesOn : voted.1 = 0) (resized : voted.2 > 0)
      (reconnects : Follows (reconnectQPs pid before) answers (after, none)) :
      Arrives pid before vote attr (⟨.iallreduceSum vote, voted⟩ :: answers) after

section Syncs

variable {pid : Fin n} {task : Task} {before middle after : IBVerbs n} {vote : Int × Int}
  {attr : SyncAttr} {answers first second : Told n} {result : Except Exn Int}

theorem Arrives.repaired (arrives : Arrives pid before vote attr first middle) :
    Repaired before middle := by
  cases arrives with
  | silent => exact .refl before
  | voted => exact .refl before
  | reconnected _ _ _ reconnects => exact reconnects.ensures (reconnectQPs_ensures pid before)

/-- From the wait on, a sync finds its number of messages and makes its request. -/
theorem syncCounts_cases {vote : Int}
    (follows : Follows (syncCounts pid task before vote attr) answers (after, result)) :
    ∃ counted remoteMsgs,
      Follows (expectedMsgs pid { before with
          numMsgs := min before.numMsgs 0
          numMsgsSync := fun _ => 0 } attr before.numMsgsSync) answers (counted, remoteMsgs) ∧
        ((counted.requestSync attr.barrier remoteMsgs task = some after ∧ result = .ok vote) ∨
          (counted.requestSync attr.barrier remoteMsgs task = none ∧ after = counted ∧
            result = .error .exception)) := by
  rcases Follows.bind_iff.mp follows with ⟨first, _, ⟨counted, remoteMsgs⟩, rfl, counting, rest⟩
  dsimp only at rest
  split at rest
  next requested requests =>
    rcases Follows.done_iff.mp rest with ⟨rfl, made⟩
    rw [Prod.mk.injEq] at made
    rw [List.append_nil]
    exact ⟨counted, remoteMsgs, counting, Or.inl ⟨made.1 ▸ requests, made.2⟩⟩
  next refused =>
    rcases Follows.done_iff.mp rest with ⟨rfl, made⟩
    rw [Prod.mk.injEq] at made
    rw [List.append_nil]
    exact ⟨counted, remoteMsgs, counting, Or.inr ⟨refused, made⟩⟩

/-- An exchange of counts stores what it finds. -/
theorem exchange_cases {mode : SyncMode} {counts : Fin n → Int} {remoteMsgs : Int}
    (follows : Follows (exchange pid before mode counts) answers (after, remoteMsgs)) :
    Follows (exchangeCounts pid counts (List.finRange n) 0) answers remoteMsgs ∧
      after = before.storeCount mode remoteMsgs := by
  rcases Follows.bind_iff.mp follows with ⟨first, _, found, rfl, exchanged, rest⟩
  rcases Follows.done_iff.mp rest with ⟨rfl, made⟩
  rw [Prod.mk.injEq] at made
  rw [List.append_nil, made.2]
  exact ⟨exchanged, made.1⟩

end Syncs

/-- A sync is rejected after the given answers to its exchange of counts. -/
def Rejected (pid : Fin n) (task : Task) (before : IBVerbs n) (vote : Int × Int)
    (attr : SyncAttr) (exchanged : Told n) (after : IBVerbs n) : Prop :=
  ∃ first middle, Arrives pid before vote attr first middle ∧
    Follows (syncCounts pid task middle vote.1 attr) exchanged (after, .error .exception)

/-- Everything that a later sync announces or relies on is as it was. -/
structure Kept (before after : IBVerbs n) : Prop where
  numMsgsSync : ∀ peer, after.numMsgsSync peer = before.numMsgsSync peer
  syncCached : after.syncCached = before.syncCached
  syncCachedValue : after.syncCachedValue = before.syncCachedValue
  syncRequest : after.syncRequest = before.syncRequest

/-- What a sync of the given mode stores is what is stored already. -/
def StoresNothing (pid : Fin n) (before : IBVerbs n) (mode : SyncMode) (exchanged : Told n) :
    Prop :=
  match mode with
  | .default => before.syncCached = false ∧
      Follows (exchangeCounts pid before.numMsgsSync (List.finRange n) 0) exchanged
        before.syncCachedValue
  | .cached => before.syncCached = true
  | .msg | .unknown => True

section Rejecting

variable {pid : Fin n} {task : Task} {before after : IBVerbs n} {vote : Int × Int}
  {attr : SyncAttr} {exchanged : Told n}

/-- What is left of the counters after a rejection. -/
theorem Rejected.counted (rejected : Rejected pid task before vote attr exchanged after) :
    ∃ middle remoteMsgs, Repaired before middle ∧
      Follows (expectedMsgs pid { middle with
        numMsgs := min middle.numMsgs 0
        numMsgsSync := fun _ => 0 } attr before.numMsgsSync) exchanged (after, remoteMsgs) := by
  rcases rejected with ⟨first, middle, arrives, follows⟩
  have repaired := arrives.repaired
  have sameCounts : middle.numMsgsSync = before.numMsgsSync := by
    rcases repaired with ⟨_, _, _, rfl⟩
    rfl
  rcases syncCounts_cases follows with ⟨counted, remoteMsgs, counting, ⟨_, accepted⟩ |
    ⟨_, rfl, _⟩⟩
  · cases accepted
  · rw [sameCounts] at counting
    exact ⟨middle, remoteMsgs, repaired, counting⟩

/-- The mode decides what a rejected sync has stored. -/
theorem expectedMsgs_stores {cleared : IBVerbs n} {remoteMsgs : Int}
    (counting : Follows (expectedMsgs pid cleared attr before.numMsgsSync) exchanged
      (after, remoteMsgs))
    (sameCached : cleared.syncCached = before.syncCached)
    (sameValue : cleared.syncCachedValue = before.syncCachedValue) :
    after.numMsgsSync = cleared.numMsgsSync ∧ after.syncRequest = cleared.syncRequest ∧
      ((after.syncCached = before.syncCached ∧ after.syncCachedValue = before.syncCachedValue) ↔
        StoresNothing pid before attr.mode exchanged) := by
  rw [expectedMsgs] at counting
  cases mode : attr.mode with
  | default =>
      simp only [mode] at counting
      rcases exchange_cases counting with ⟨exchange, rfl⟩
      refine ⟨rfl, rfl, and_congr ?_ ?_⟩
      · exact eq_comm
      · constructor
        · intro same
          rw [← same]
          exact exchange
        · intro told
          exact exchange.unique told
  | cached =>
      simp only [mode] at counting
      split at counting
      next cached =>
        rcases Follows.done_iff.mp counting with ⟨_, made⟩
        rw [Prod.mk.injEq] at made
        rw [made.1]
        exact ⟨rfl, rfl, ⟨fun _ => sameCached.symm.trans cached, fun _ => ⟨sameCached, sameValue⟩⟩⟩
      next uncached =>
        rcases exchange_cases counting with ⟨_, rfl⟩
        refine ⟨rfl, rfl, ?_⟩
        constructor
        · rintro ⟨cached, _⟩
          exact cached.symm
        · intro cached
          exact absurd (sameCached.trans cached) uncached
  | msg =>
      simp only [mode] at counting
      rcases Follows.done_iff.mp counting with ⟨_, made⟩
      rw [Prod.mk.injEq] at made
      rw [made.1]
      exact ⟨rfl, rfl, ⟨fun _ => trivial, fun _ => ⟨sameCached, sameValue⟩⟩⟩
  | unknown =>
      simp only [mode] at counting
      rcases Follows.done_iff.mp counting with ⟨_, made⟩
      rw [Prod.mk.injEq] at made
      rw [made.1]
      exact ⟨rfl, rfl, ⟨fun _ => trivial, fun _ => ⟨sameCached, sameValue⟩⟩⟩

/--
A sync that is rejected loses no announcement if and only if there is nothing to
announce and what it stores is what is stored already.
-/
theorem Rejected.kept_iff (rejected : Rejected pid task before vote attr exchanged after) :
    Kept before after ↔
      (∀ peer, before.numMsgsSync peer = 0) ∧ StoresNothing pid before attr.mode exchanged := by
  rcases rejected.counted with ⟨middle, remoteMsgs, ⟨_, _, _, rfl⟩, counting⟩
  rcases expectedMsgs_stores counting rfl rfl with ⟨cleared, sameRequest, stores⟩
  constructor
  · intro kept
    refine ⟨?_, stores.mp ⟨kept.syncCached, kept.syncCachedValue⟩⟩
    intro peer
    rw [← kept.numMsgsSync peer, cleared]
  · rintro ⟨nothing, storesNothing⟩
    rcases stores.mpr storesNothing with ⟨sameCached, sameValue⟩
    refine ⟨?_, sameCached, sameValue, sameRequest⟩
    intro peer
    rw [cleared, nothing peer]

end Rejecting

/-- A process that waits for one message. -/
def waitingForOne : IBVerbs 1 :=
  { initial (.generous 1) with syncRequest := ⟨true, false, 1, some 7, false⟩ }

theorem follows_waitingForOne : Follows (sync 0 7 (initial (.generous 1)) (0, 0) (SyncAttr.msg 1))
    [] (waitingForOne, .ok 0) := by
  have accepts : sync 0 7 (initial (.generous 1)) (0, 0) (SyncAttr.msg 1) =
      .done (waitingForOne, .ok 0) := rfl
  rw [accepts]
  exact .done _

theorem kept_waitingForOne :
    Rejected 0 8 waitingForOne (0, 0) (SyncAttr.msg 1) [] waitingForOne ∧
      Kept waitingForOne waitingForOne := by
  have rejected : Rejected 0 8 waitingForOne (0, 0) (SyncAttr.msg 1) [] waitingForOne :=
    ⟨[], waitingForOne, .silent (by decide), .done _⟩
  exact ⟨rejected, rejected.kept_iff.mpr ⟨fun _ => rfl, trivial⟩⟩

/-- The announcement of a put is lost when the sync after it is rejected. -/
theorem not_kept :
    Follows (sync 0 7 (initial (.generous 1)) (0, 0) (SyncAttr.msg 1)) [] (waitingForOne, .ok 0) ∧
      ∃ after,
        Rejected 0 8 ((waitingForOne.put 0).doLocalProgress 1) (0, 0) (SyncAttr.msg 1) [] after ∧
          ¬Kept ((waitingForOne.put 0).doLocalProgress 1) after := by
  refine ⟨follows_waitingForOne, waitingForOne, ⟨[], _, .silent (by decide), .done _⟩, ?_⟩
  intro kept
  exact absurd (kept.numMsgsSync 0) (by decide)

end IBVerbs

end Talpf
