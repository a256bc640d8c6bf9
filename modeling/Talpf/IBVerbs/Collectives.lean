import Talpf.IBVerbs.Deliveries

/-!
# Collectives of mixed syncs

The sync of a process and its polling task issue collectives on the same
communicator: the vote and the reductions of the counts by the sync, the barrier
later by the polling task.  `Member` is a process with the collectives that it
has issued, one at a time, and `Team` all of them together.  A collective returns
only when every process has issued one at the same place, and what it returns is
known only if these match.  Notifications may arrive at any time.
-/

namespace Talpf

namespace IBVerbs

open Spmd

variable {n : ℕ}

/-- The same mode and the same barrier bit; the MSG counts may differ. -/
def Alike (attr other : SyncAttr) : Prop :=
  attr.mode = other.mode ∧ attr.barrier = other.barrier

/-- What the sync of a process does with collectives. -/
inductive SyncCall (n : ℕ) where
  | none
  /-- In the wait for the vote -/
  | voting (task : Task) (attr : SyncAttr)
  /-- The vote has neither ended the sync nor asked for a reconnection. -/
  | voted (task : Task) (attr : SyncAttr)
  /-- Before the next reduction of the counts -/
  | reducing (rest : Comm n Int)
  /-- In a reduction -/
  | blocked (op : Collective n) (next : op.Result → Comm n Int)

structure Member (n : ℕ) where
  party : Party n
  call : SyncCall n
  /-- All collectives that the process has issued -/
  issued : List (Collective n)

/-- What the tasks, the device and the polling of the completion queues do beside a sync. -/
inductive Party.Background (party : Party n) : Party n → Prop where
  | post (task : Task) (kind : OperationKind) (peer : Fin n) :
      Background party (party.post task kind peer)
  | complete {op : Posted n} {rest : Multiset (Posted n)}
      (first : party.outstanding = op ::ₘ rest) : Background party
        { party with outstanding := rest, completed := op ::ₘ party.completed }
  | localProgress {wcs : List (Posted n)} {rest : Multiset (Posted n)}
      (polled : party.completed = wcs + rest) : Background party (party.localProgress wcs rest)
  | remoteProgress (wcs : List (Posted n)) : Background party
      { party with verbs := party.verbs.doRemoteProgress (wcs.map Posted.immData) }

/-- The last collective that a process has issued returns: every process has issued one at its
place, and if all of these match, it has the result that MPI gives it. -/
def Returns (issued : Fin n → List (Collective n)) (p : Fin n) (op : Collective n)
    (result : op.Result) : Prop :=
  ∃ earlier, issued p = earlier ++ [op] ∧ (∀ q, earlier.length < (issued q).length) ∧
    ∀ ops : Fin n → Collective n, (∀ q, (issued q)[earlier.length]? = some (ops q)) →
      (∀ q r, (ops q).kind = (ops r).kind) → result = Collective.outcome ops p op

namespace Member

def initial (device : Device n) : Member n := ⟨.initial device, .none, []⟩

/-- No sync is under way and no request is active. -/
structure Free (member : Member n) : Prop where
  idle : member.party.phase = .idle
  call : member.call = .none
  inactive : member.party.verbs.syncRequest.isActive = false

/-- The reductions with which a sync goes on after it has read the counts -/
def reductions (p : Fin n) (party : Party n) : SyncCall n :=
  match party.phase with
  | .counted _ _ counts => .reducing (exchangeCounts p counts (List.finRange n) 0)
  | .idle | .drained _ _ | .ready _ _ _ => .none

/-- The barrier that a look at the request starts -/
def barrierOps (before after : Party n) : List (Collective n) :=
  if after.verbs.syncRequest.secondPhase ∧ before.verbs.syncRequest.secondPhase = false then
    [.ibarrier]
  else []

/-- One step of process `p`, whose `k`-th sync has attributes like `attrs k`.  It calls sync only
when its previous request is complete, and casts no vote. -/
inductive Turn (attrs : ℕ → SyncAttr) (issued : Fin n → List (Collective n)) (p : Fin n)
    (member : Member n) : Member n → Prop where
  | background {party : Party n} (moved : member.party.Background party) :
      Turn attrs issued p member { member with party := party }
  | vote (free : member.Free) (task : Task) {attr : SyncAttr}
      (alike : Alike attr (attrs member.party.epoch)) (isDefault : attr.mode = .default) :
      Turn attrs issued p member { member with
        call := .voting task attr
        issued := member.issued ++ [.iallreduceSum (0, 0)] }
  | voted {task : Task} {attr : SyncAttr} (voting : member.call = .voting task attr)
      {votes : Int × Int} (returns : Returns issued p (.iallreduceSum (0, 0)) votes)
      (goesOn : votes.1 = 0 ∧ ¬votes.2 > 0) :
      Turn attrs issued p member { member with call := .voted task attr }
  | drain {task : Task} {attr : SyncAttr} (called : member.call = .voted task attr ∨
        (member.Free ∧ Alike attr (attrs member.party.epoch) ∧ attr.mode ≠ .default))
      (complete : ¬member.party.verbs.numMsgs > 0) :
      Turn attrs issued p member { member with
        party := { member.party with phase := .drained task attr }
        call := .none }
  | readCounts {task : Task} {attr : SyncAttr} (drained : member.party.phase = .drained task attr) :
      Turn attrs issued p member { member with
        party := member.party.readCounts task attr
        call := reductions p (member.party.readCounts task attr) }
  | reduce {op : Collective n} {next : op.Result → Comm n Int}
      (reducing : member.call = .reducing (.call op next)) :
      Turn attrs issued p member { member with
        call := .blocked op next
        issued := member.issued ++ [op] }
  | reduced {op : Collective n} {next : op.Result → Comm n Int}
      (blocked : member.call = .blocked op next) {result : op.Result}
      (returns : Returns issued p op result) :
      Turn attrs issued p member { member with call := .reducing (next result) }
  | exchanged {task : Task} {attr : SyncAttr} {counts : Fin n → Int}
      (counted : member.party.phase = .counted task attr counts) {remoteMsgs : Int}
      (done : member.call = .reducing (.done remoteMsgs)) :
      Turn attrs issued p member { member with
        party := member.party.exchanged task attr remoteMsgs
        call := .none }
  | request {task : Task} {barrier : Bool} {remoteMsgs : Int}
      (ready : member.party.phase = .ready task barrier remoteMsgs) {party : Party n}
      (accepted : member.party.request task barrier remoteMsgs = some party) :
      Turn attrs issued p member { member with party := party }
  | look (active : member.party.verbs.syncRequest.isActive = true) {flag : Bool}
      (test : flag = true → member.party.verbs.syncRequest.secondPhase = true →
        Returns issued p .ibarrier ()) {party : Party n}
      (processed : member.party.processSyncRequest flag = some party) :
      Turn attrs issued p member { member with
        party := party
        issued := member.issued ++ barrierOps member.party party }

end Member

abbrev Team (n : ℕ) := Fin n → Member n

namespace Team

def initial (devices : Fin n → Device n) : Team n := fun p => .initial (devices p)

/-- One process takes a turn. -/
def Step (attrs : ℕ → SyncAttr) (before : Team n) (p : Fin n) (after : Team n) : Prop :=
  ∃ member, (before p).Turn attrs (fun q => (before q).issued) p member ∧
    after = Function.update before p member

abbrev Reachable (attrs : ℕ → SyncAttr) (devices : Fin n → Device n) : Team n → Prop :=
  Transition.Reachable (Step attrs) (fun _ _ => True) (initial devices)

end Team

section Schedule

variable (attrs : ℕ → SyncAttr)

/-- The vote of a sync -/
def voteOps (n k : ℕ) : List (Collective n) :=
  if (attrs k).mode = .default then [.iallreduceSum (0, 0)] else []

/-- Reductions of the counts of a sync -/
def countOps (sent : Fin n → ℕ → ℕ) (k : ℕ) (peers : List (Fin n)) : List (Collective n) :=
  peers.map fun i => .allreduceSum (sent i k)

/-- The collectives of a sync until its request -/
def requestOps (sent : Fin n → ℕ → ℕ) (k : ℕ) : List (Collective n) :=
  voteOps attrs n k ++ if Exchanges attrs k then countOps sent k (List.finRange n) else []

/-- The collectives of a sync and its request -/
def syncOps (sent : Fin n → ℕ → ℕ) (k : ℕ) : List (Collective n) :=
  requestOps attrs sent k ++ if (attrs k).barrier then [.ibarrier] else []

/-- The collectives of the first syncs -/
def opsBefore (sent : Fin n → ℕ → ℕ) : ℕ → List (Collective n)
  | 0 => []
  | k + 1 => opsBefore sent k ++ syncOps attrs sent k

/-- The last sync before the given one that has exchanged the counts -/
def lastExchange : ℕ → ℕ
  | 0 => 0
  | k + 1 => if Exchanges attrs k then k else lastExchange k

end Schedule

end IBVerbs

end Talpf
