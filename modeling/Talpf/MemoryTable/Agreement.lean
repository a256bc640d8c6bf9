import Talpf.MemoryTable.Registrations

/-!
# Agreement on global registrations

All processes make the same global calls in the same order, each with its own
local calls in between.  Up to the next sync every process advances the shared
layout alone and in the same way; at a sync all pending slots are exchanged.
Induction over the global calls shows that the calls of all processes fit
together and that all processes agree on slots, on the order of visits, and on
the memory areas behind every slot.
-/

namespace Talpf

open Spmd

/-- A process right after a sync, and the slots that the sync has visited in this order. -/
structure Visit (n : ℕ) where
  visited : List ℕ
  node : Node n

/-- A process and all of its syncs so far. -/
structure Session (n : ℕ) where
  node : Node n
  visits : List (Visit n)

namespace Session

variable {n : ℕ}

def initial (device : Device n) : Session n := ⟨.initial device, []⟩

/-- The calls of a process, one after the other. -/
def run (pid : Fin n) : List Call → Session n → Comm n (Session n)
  | [], session => .done session
  | .sync :: calls, session =>
      (session.node.table.sync session.node.verbs).bind fun ((table, verbs), thrown) =>
        match thrown with
        | some _ => .fault
        | none =>
            let node := { session.node with table := table, verbs := verbs }
            run pid calls
              ⟨node, session.visits ++ [⟨session.node.table.added.elements, node⟩]⟩
  | call :: calls, session =>
      match session.node.step pid call with
      | none => .fault
      | some node => run pid calls { session with node := node }

theorem run_step (pid : Fin n) {call : Call} (notSync : call ≠ .sync) (calls : List Call)
    (session : Session n) :
    run pid (call :: calls) session =
      match session.node.step pid call with
      | none => .fault
      | some node => run pid calls { session with node := node } := by
  cases call <;> first | rfl | exact absurd rfl notSync

end Session

/-- The global calls among the calls of a process. -/
def skeleton (calls : List Call) : List GlobalCall := calls.filterMap Call.global

/-- The calls that the contract of the caller permits from a state of its ledger. -/
def Admitted (maxMr : ℕ) (calls : List Call) (ledger : Ledger) : Prop :=
  (calls.foldlM (Ledger.accept maxMr) ledger).isSome

instance (maxMr : ℕ) (calls : List Call) (ledger : Ledger) :
    Decidable (Admitted maxMr calls ledger) := inferInstanceAs (Decidable (_ = true))

theorem Admitted.cons {maxMr : ℕ} {call : Call} {calls : List Call} {ledger : Ledger}
    (admitted : Admitted maxMr (call :: calls) ledger) :
    ∃ after, ledger.accept maxMr call = some after ∧ Admitted maxMr calls after := by
  unfold Admitted at admitted
  rw [List.foldlM_cons] at admitted
  cases step : ledger.accept maxMr call with
  | none => simp [step] at admitted
  | some after =>
      rw [step] at admitted
      exact ⟨after, rfl, admitted⟩

namespace Consistent

variable {n : ℕ} {pid : Fin n} {device : Device n} {shared : Shared n} {ledger : Ledger}
  {node : Node n}

/-- Every admitted call other than a sync advances what is shared by its global part alone. -/
theorem step (consistent : Consistent pid device shared ledger node) {call : Call}
    (notSync : call ≠ .sync) {ledgerAfter : Ledger}
    (admitted : ledger.accept device.maxMr call = some ledgerAfter) :
    (node.step pid call = none ∧ ¬node.verbs.Answers) ∨
      ∃ after, node.step pid call = some after ∧
        Consistent pid device (call.global.elim shared shared.advance) ledgerAfter after := by
  cases call with
  | registerLocal mem size =>
      simp only [Ledger.accept, Option.ite_none_right_eq_some, Option.some.injEq] at admitted
      rcases admitted with ⟨room, rfl⟩
      exact consistent.registerLocal mem size room
  | deregisterLocal k =>
      simp only [Ledger.accept, Option.ite_none_right_eq_some, Option.some.injEq] at admitted
      rcases admitted with ⟨live, rfl⟩
      exact Or.inr (consistent.deregisterLocal live)
  | reserve size =>
      simp only [Ledger.accept, Option.ite_none_right_eq_some, Option.some.injEq] at admitted
      rcases admitted with ⟨limits, rfl⟩
      exact Or.inr (consistent.reserve limits)
  | registerGlobal mem size =>
      simp only [Ledger.accept, Option.ite_none_right_eq_some, Option.some.injEq] at admitted
      rcases admitted with ⟨room, rfl⟩
      exact Or.inr (consistent.registerGlobal mem size room)
  | deregisterGlobal k =>
      simp only [Ledger.accept, Option.ite_none_right_eq_some, Option.some.injEq] at admitted
      rcases admitted with ⟨live, rfl⟩
      exact Or.inr (consistent.deregisterGlobal live)
  | sync => exact absurd rfl notSync

/-- After a sync nothing is pending and the areas are attached. -/
theorem sync (consistent : Consistent pid device shared ledger node) {tableAfter : MemoryTable}
    {verbsAfter : IBVerbs n} {boards : List (Fin n → MemoryRegistration)}
    (realises : MemoryTable.Realises pid (shared.layout.attachAll shared.pending boards) []
      tableAfter verbsAfter)
    (exchanged : Exchanged node.table node.verbs tableAfter verbsAfter) :
    Consistent pid device ⟨shared.layout.attachAll shared.pending boards, [], shared.keys⟩ ledger
      { node with table := tableAfter, verbs := verbsAfter } := by
  have synced : Consistent pid device
      ⟨shared.layout.attachAll shared.pending boards, [], shared.keys⟩
      { ledger with globals := node.globals.map Registration.live }
      { node with table := tableAfter, verbs := verbsAfter } := by
    refine consistent.exchange realises exchanged consistent.keys ?_ consistent.even
      fun _ member _ => member
    rw [Layout.dealer_attachAll]
    exact consistent.globals
  rwa [← consistent.ledgerGlobals] at synced

end Consistent

/-- The global calls before the first sync. -/
def segment (calls : List Call) : List GlobalCall := (skeleton calls).takeWhile (· ≠ .sync)

theorem segment_cons {call : Call} (notSync : call ≠ .sync) (calls : List Call) :
    segment (call :: calls) = call.global.toList ++ segment calls ∧
      (skeleton (call :: calls)).dropWhile (· ≠ .sync) =
        (skeleton calls).dropWhile (· ≠ .sync) := by
  cases call with
  | sync => exact absurd rfl notSync
  | registerLocal mem size => exact ⟨rfl, rfl⟩
  | deregisterLocal k => exact ⟨rfl, rfl⟩
  | reserve size => exact ⟨rfl, rfl⟩
  | registerGlobal mem size => exact ⟨rfl, rfl⟩
  | deregisterGlobal k => exact ⟨rfl, rfl⟩

/-- A process on its own gets to its next sync or to its end, unless its device refuses a local
area.  What it then shares depends on its global calls only. -/
theorem run_segment {n : ℕ} {pid : Fin n} {device : Device n} (calls : List Call)
    {shared : Shared n} {ledger : Ledger} {session : Session n}
    (consistent : Consistent pid device shared ledger session.node)
    (admitted : Admitted device.maxMr calls ledger) :
    (session.run pid calls = .fault ∧ ¬∀ k, (device.regMr k).isSome) ∨
      ∃ ledgerAfter node,
        Consistent pid device ((segment calls).foldl Shared.advance shared) ledgerAfter node ∧
        (((skeleton calls).dropWhile (· ≠ .sync) = [] ∧
            session.run pid calls = .done ⟨node, session.visits⟩) ∨
          ∃ rest, (skeleton calls).dropWhile (· ≠ .sync) = .sync :: skeleton rest ∧
            Admitted device.maxMr rest ledgerAfter ∧
            session.run pid calls =
              (⟨node, session.visits⟩ : Session n).run pid (.sync :: rest)) := by
  induction calls generalizing shared ledger session with
  | nil => exact Or.inr ⟨ledger, session.node, consistent, Or.inl ⟨rfl, rfl⟩⟩
  | cons call calls ih =>
      rcases admitted.cons with ⟨ledgerAfter, admits, admittedRest⟩
      by_cases isSync : call = .sync
      · subst isSync
        simp only [Ledger.accept, Option.some.injEq] at admits
        subst admits
        exact Or.inr ⟨ledger, session.node, consistent, Or.inr ⟨calls, rfl, admittedRest, rfl⟩⟩
      · rw [Session.run_step pid isSync]
        rcases consistent.step isSync admits with ⟨stuck, refused⟩ | ⟨after, stepped, advanced⟩
        · rw [stuck]
          exact Or.inl ⟨rfl, fun answers => refused (consistent.answers.mpr answers)⟩
        · rw [stepped]
          have folded : (segment (call :: calls)).foldl Shared.advance shared =
              (segment calls).foldl Shared.advance (call.global.elim shared shared.advance) := by
            rw [(segment_cons isSync calls).1, List.foldl_append]
            cases call.global <;> rfl
          rw [folded, (segment_cons isSync calls).2]
          have advancedSession : Consistent pid device
              (call.global.elim shared shared.advance) ledgerAfter
              (⟨after, session.visits⟩ : Session n).node := advanced
          exact ih advancedSession admittedRest

/-- Behind a global slot of process `p` lies the memory area that process `q` has registered. -/
def Reaches {n : ℕ} (q : Fin n) (nodeP nodeQ : Node n) (regP regQ : Registration) : Prop :=
  ∃ memoryP entryP memoryQ entryQ,
    nodeP.table.memreg.lookup regP.slot = some memoryP ∧
    nodeP.verbs.memreg.lookup memoryP.slot = some entryP ∧
    nodeQ.table.memreg.lookup regQ.slot = some memoryQ ∧
    nodeQ.verbs.memreg.lookup memoryQ.slot = some entryQ ∧
    memoryP.slot = memoryQ.slot ∧
    entryP.glob q = IBVerbs.describe regQ.mem regQ.size entryQ.mr

/-- What two processes `p` and `q` agree on at a sync. -/
structure Agree {n : ℕ} (q : Fin n) (visitP visitQ : Visit n) : Prop where
  visited : visitP.visited = visitQ.visited
  keys : visitP.node.globals.map Registration.key = visitQ.node.globals.map Registration.key
  areas : ∀ (k : ℕ) (regP regQ : Registration), visitP.node.globals[k]? = some regP →
    visitQ.node.globals[k]? = some regQ → regP.live = true →
    Reaches q visitP.node visitQ.node regP regQ

/-- All processes have been dealt the same slots and agree at every sync. -/
structure Agreed {n : ℕ} (sessions : Fin n → Session n) : Prop where
  keys : ∀ p q, (sessions p).node.globals.map Registration.key =
    (sessions q).node.globals.map Registration.key
  visits : ∀ p q, List.Forall₂ (Agree q) (sessions p).visits (sessions q).visits

namespace Consistent

variable {n : ℕ} {p q : Fin n} {deviceP deviceQ : Device n} {shared : Shared n}
  {ledgerP ledgerQ : Ledger} {nodeP nodeQ : Node n}

/-- When nothing is pending, processes that share a layout reach each other's areas. -/
theorem reaches (atP : Consistent p deviceP shared ledgerP nodeP)
    (atQ : Consistent q deviceQ shared ledgerQ nodeQ) (nothing : shared.pending = [])
    {k : ℕ} {regP regQ : Registration} (foundP : nodeP.globals[k]? = some regP)
    (foundQ : nodeQ.globals[k]? = some regQ) (isLive : regP.live = true) :
    Reaches q nodeP nodeQ regP regQ := by
  have keys := atP.keys.trans atQ.keys.symm
  have key : regP.key = regQ.key := by
    have := congrArg (fun keys => keys[k]?) keys
    simpa [List.getElem?_map, foundP, foundQ] using this
  have slots : regP.slot = regQ.slot := congrArg Prod.fst key
  have isLiveQ : regQ.live = true := (congrArg Prod.snd key).symm.trans isLive
  have number : regP.number = regQ.number := congrArg (· / 2) slots
  have memberQ := List.mem_of_getElem? foundQ
  have live := atP.globals.live _
    (Holds.mem_liveNumbers (List.mem_of_getElem? foundP) isLive)
  have notPending : regP.number ∉ shared.pending := by simp [nothing]
  rcases atP.realises.represents.records _ live with ⟨memoryP, memoryFoundP, attachedP⟩
  rcases atQ.realises.represents.records _ live with ⟨memoryQ, memoryFoundQ, attachedQ⟩
  rcases attachedP notPending with ⟨slotP, entryP, entryFoundP, globP, _⟩
  rcases attachedQ notPending with ⟨slotQ, entryQ, entryFoundQ, _, ownQ⟩
  refine ⟨memoryP, entryP, memoryQ, entryQ, ?_, ?_, ?_, ?_, slotP.trans slotQ.symm, ?_⟩
  · rw [atP.even regP (List.mem_of_getElem? foundP), CombinedMemoryRegister.lookup_toGlobal]
    exact memoryFoundP
  · rw [slotP, CombinedMemoryRegister.lookup_toGlobal]
    exact entryFoundP
  · rw [atQ.even regQ memberQ, CombinedMemoryRegister.lookup_toGlobal, ← number]
    exact memoryFoundQ
  · rw [slotQ, CombinedMemoryRegister.lookup_toGlobal]
    exact entryFoundQ
  · have areas := atQ.areas regQ memberQ isLiveQ
    rw [← number, memoryFoundQ] at areas
    simp only [Option.map_some, Option.some.injEq, Prod.mk.injEq] at areas
    rw [globP, ownQ, areas.1, areas.2]

end Consistent

/-- Processes that share a state and have the same global calls ahead of them run to an agreement,
unless some device refuses an area. -/
theorem run_cases {n : ℕ} {device : Fin n → Device n} (size : ℕ) {calls : Fin n → List Call}
    {common : List GlobalCall} {shared : Shared n} {ledger : Fin n → Ledger}
    {session : Fin n → Session n} (bound : common.length < size)
    (same : ∀ p, skeleton (calls p) = common)
    (consistent : ∀ p, Consistent p (device p) shared (ledger p) (session p).node)
    (admitted : ∀ p, Admitted (device p).maxMr (calls p) (ledger p))
    (agreed : ∀ p q, List.Forall₂ (Agree q) (session p).visits (session q).visits) :
    (∃ rounds reached, Executes (fun p => (session p).run p (calls p)) rounds reached ∧
      Agreed reached) ∨
    (¬∀ p k, ((device p).regMr k).isSome) ∧
      ∀ rounds reached, ¬Executes (fun p => (session p).run p (calls p)) rounds reached := by
  induction size generalizing calls common shared ledger session with
  | zero => exact absurd bound (Nat.not_lt_zero _)
  | succ size ih =>
      by_cases faulty : ∃ p, (session p).run p (calls p) = .fault ∧
          ¬∀ k, ((device p).regMr k).isSome
      · rcases faulty with ⟨p, fault, refused⟩
        exact Or.inr ⟨fun answers => refused (answers p),
          fun rounds reached => Executes.not_of_fault p fault⟩
      · choose ledgerAfter node advanced ends using fun p =>
          (run_segment (calls p) (consistent p) (admitted p)).resolve_left
            fun isFault => faulty ⟨p, isFault⟩
        have segments : ∀ p, segment (calls p) = common.takeWhile (· ≠ .sync) := fun p => by
          rw [segment, same p]
        simp only [segments, same] at advanced ends
        cases remaining : common.dropWhile (· ≠ .sync) with
        | nil =>
            have finished : ∀ p, (session p).run p (calls p) =
                .done ⟨node p, (session p).visits⟩ := fun p => by
              rcases ends p with ⟨_, done⟩ | ⟨_, isSync, _⟩
              · exact done
              · exact absurd (remaining.symm.trans isSync) (List.cons_ne_nil _ _).symm
            refine Or.inl ⟨[], _, .done finished, fun p q => ?_, agreed⟩
            exact (advanced p).keys.trans (advanced q).keys.symm
        | cons first post =>
            have atSync : ∀ p, ∃ rest, skeleton rest = post ∧
                Admitted (device p).maxMr rest (ledgerAfter p) ∧
                (session p).run p (calls p) =
                  (⟨node p, (session p).visits⟩ : Session n).run p (.sync :: rest) := fun p => by
              rcases ends p with ⟨isEnd, _⟩ | ⟨rest, isSync, admittedRest, reached⟩
              · exact absurd (remaining.symm.trans isEnd) (List.cons_ne_nil _ _)
              · exact ⟨rest, (List.cons.inj (isSync.symm.trans remaining)).2, admittedRest,
                  reached⟩
            choose rest sameRest admittedRest reached using atSync
            have shorter : post.length < size := by
              have shortened := (common.dropWhile_sublist (· ≠ GlobalCall.sync)).length_le
              rw [remaining, List.length_cons] at shortened
              omega
            simp only [reached, Session.run]
            rcases MemoryTable.sync_cases (fun _ => rfl) (fun p => (advanced p).realises) with
              ⟨first, tableAfter, verbsAfter, boards, _, head, after⟩ | ⟨refused, stuck⟩
            · let nodeAfter : Fin n → Node n := fun p =>
                { node p with table := tableAfter p, verbs := verbsAfter p }
              let sessionAfter : Fin n → Session n := fun p =>
                ⟨nodeAfter p,
                  (session p).visits ++ [⟨(node p).table.added.elements, nodeAfter p⟩]⟩
              have synced : ∀ p, Consistent p (device p) _ (ledgerAfter p) (nodeAfter p) :=
                fun p => (advanced p).sync (after p).1 (after p).2
              have agreedAfter : ∀ p q, List.Forall₂ (Agree q) (sessionAfter p).visits
                  (sessionAfter q).visits := fun p q =>
                List.rel_append (agreed p q) (.cons
                  { visited := (advanced p).realises.elements.trans
                      (advanced q).realises.elements.symm
                    keys := (synced p).keys.trans (synced q).keys.symm
                    areas := fun k regP regQ foundP foundQ isLive =>
                      (synced p).reaches (synced q) rfl foundP foundQ isLive } .nil)
              rcases ih shorter sameRest synced admittedRest agreedAfter with
                ⟨second, last, tail, agreedLast⟩ | ⟨refused, stuck⟩
              · exact Or.inl ⟨first ++ second, last, head.bind tail, agreedLast⟩
              · refine Or.inr ⟨refused, fun rounds values execution => ?_⟩
                rcases not_forall.mp refused with ⟨someone, _⟩
                have : Nonempty (Fin n) := ⟨someone⟩
                rcases (Executes.bind_iff head).mp execution with ⟨later, _, execution⟩
                exact stuck later values execution
            · refine Or.inr ⟨fun answers => refused fun p =>
                (advanced p).answers.mpr (answers p), fun rounds values => ?_⟩
              exact stuck _ _ rounds values fun p state exn => rfl

/-- Processes that make the same global calls, each with its own local calls in between, agree on
the slots of all global registrations, visit them in the same order at every sync, and reach after
every sync through each of them exactly the areas that all processes have registered.  Their calls
fit together unless a device refuses to register an area. -/
theorem globalRegistrations_agree {n : ℕ} (device : Fin n → Device n) (calls : Fin n → List Call)
    (same : ∀ p q, skeleton (calls p) = skeleton (calls q))
    (admitted : ∀ p, Admitted (device p).maxMr (calls p) .initial) :
    ((∀ p k, ((device p).regMr k).isSome) →
      ∃ rounds reached,
        Executes (fun p => (Session.initial (device p)).run p (calls p)) rounds reached) ∧
    ∀ rounds reached,
      Executes (fun p => (Session.initial (device p)).run p (calls p)) rounds reached →
      Agreed reached := by
  have common : ∃ common, ∀ p, skeleton (calls p) = common := by
    cases n with
    | zero => exact ⟨[], fun p => p.elim0⟩
    | succ n => exact ⟨skeleton (calls 0), fun p => same p 0⟩
  rcases common with ⟨common, sameCommon⟩
  have consistent : ∀ p, Consistent p (device p) .initial .initial
      (Session.initial (device p)).node := fun p => .initial p (device p)
  rcases run_cases _ (Nat.lt_succ_self _) sameCommon consistent admitted
    (fun _ _ => .nil) with ⟨rounds, reached, execution, agreed⟩ | ⟨refused, stuck⟩
  · refine ⟨fun _ => ⟨rounds, reached, execution⟩, fun otherRounds other otherExecution => ?_⟩
    cases n with
    | zero => exact ⟨fun p => p.elim0, fun p => p.elim0⟩
    | succ n =>
        rw [(otherExecution.unique execution).2]
        exact agreed
  · exact ⟨fun answers => absurd answers refused,
      fun rounds other execution => absurd execution (stuck rounds other)⟩

/-- Two processes with different local calls and reserves, and a slot that is recycled. -/
def interleavedCalls : Fin 2 → List Call :=
  ![[.reserve 2, .registerLocal 5 8, .registerGlobal 100 16, .registerGlobal 120 0,
      .deregisterGlobal 0, .registerGlobal 140 8, .deregisterLocal 0, .sync],
    [.reserve 1, .reserve 3, .registerGlobal 200 32, .registerGlobal 300 64,
      .deregisterGlobal 0, .registerLocal 7 1, .registerGlobal 400 8, .sync]]

theorem globalRegistrations_agree_interleaved :
    ∃ rounds reached, Executes (fun p => (Session.initial (.generous 2)).run p
      (interleavedCalls p)) rounds reached ∧ Agreed reached := by
  have agree := globalRegistrations_agree (fun _ => .generous 2) interleavedCalls (by decide)
    (by decide)
  rcases agree.1 fun _ _ => rfl with ⟨rounds, reached, execution⟩
  exact ⟨rounds, reached, execution, agree.2 rounds reached execution⟩

end Talpf
