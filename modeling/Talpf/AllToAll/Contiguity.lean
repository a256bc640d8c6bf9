import Talpf.AllToAll.Single

/-!
# Messages that arrive in one piece

A message of more than one chunk is continued when its last chunk has been
received, and until then the receiver may receive other chunks.  It arrives in
one piece in every run exactly if all other messages to the same process are
sent before it by its sender, in one chunk each.
-/

namespace Talpf

namespace AllToAll

universe u

variable {n : ℕ} {Byte : Type u} {plan : Plan n Byte} {state : State n Byte}

open Channels

namespace Plan

/-- The number of bytes of a message of the first call. -/
def count (plan : Plan n Byte) (message : Fin n × ℕ) : ℕ :=
  ((plan.exchange 0 message.1).sends[message.2]?.map Send.count).getD 0

/-- The bytes of a message of the first call. -/
def contents (plan : Plan n Byte) (message : Fin n × ℕ) : List Byte :=
  match (plan.exchange 0 message.1).sends[message.2]? with
  | none => []
  | some send => Entry.slice (plan.exchange 0 message.1).sendData send.offset send.count

/-- The chunks of a message of the first call. -/
def pieces (plan : Plan n Byte) (message : Fin n × ℕ) : List (Chunk n Byte) :=
  plan.message 0 message.1 message.2

end Plan

theorem slice_append (data : ℕ → Byte) (offset first second : ℕ) :
    Entry.slice data offset (first + second) =
      Entry.slice data offset first ++ Entry.slice data (offset + first) second := by
  unfold Entry.slice
  rw [List.range_add, List.map_append, List.map_map]
  congr 1
  apply List.map_congr_left
  intro i _
  simp [Nat.add_assoc]

theorem bytes_chunks {maxMsgSize call : ℕ} {src : Fin n} {data : ℕ → Byte}
    (positive : 0 < maxMsgSize) (entry : Entry n Byte) :
    (chunks maxMsgSize src call data entry).flatMap Chunk.bytes =
      Entry.slice data entry.offset entry.count := by
  induction entry using chunks.induct maxMsgSize src call data with
  | case1 entry some ih =>
      have first : (entry.chunk maxMsgSize src call data).bytes =
          Entry.slice data entry.offset (min maxMsgSize entry.count) := rfl
      have left : (entry.issend maxMsgSize src call data).count =
          entry.count - min maxMsgSize entry.count := rfl
      have moved : (entry.issend maxMsgSize src call data).offset =
          entry.offset + min maxMsgSize entry.count := rfl
      rw [chunks_eq some, List.flatMap_cons, ih, first, left, moved, ← slice_append]
      congr 1
      omega
  | case2 entry none =>
      have empty : entry.count = 0 := by omega
      rw [chunks, if_neg none, empty]
      rfl

theorem chunks_eq_nil {maxMsgSize call : ℕ} {src : Fin n} {data : ℕ → Byte}
    {entry : Entry n Byte} :
    chunks maxMsgSize src call data entry = [] ↔ entry.count = 0 ∨ maxMsgSize = 0 := by
  by_cases some : 0 < min maxMsgSize entry.count
  · rw [chunks_eq some]
    simp
    omega
  · rw [chunks, if_neg some]
    simp
    omega

/-- A message whose size is at most the maximum has one chunk, or none. -/
theorem drop_chunks {maxMsgSize call : ℕ} {src : Fin n} {data : ℕ → Byte} {entry : Entry n Byte} :
    (chunks maxMsgSize src call data entry).drop 1 = [] ↔
      entry.count ≤ maxMsgSize ∨ maxMsgSize = 0 := by
  by_cases some : 0 < min maxMsgSize entry.count
  · have left : (entry.issend maxMsgSize src call data).count =
        entry.count - min maxMsgSize entry.count := rfl
    rw [chunks_eq some, List.drop_one, List.tail_cons, chunks, left]
    split
    · simp
      omega
    · simp
      omega
  · rw [chunks, if_neg some]
    simp
    omega

namespace Plan

variable {message : Fin n × ℕ}

theorem bytes_pieces : (plan.pieces message).flatMap Chunk.bytes = plan.contents message := by
  unfold pieces contents Plan.message
  cases found : (plan.exchange 0 message.1).sends[message.2]? with
  | none => rfl
  | some send => exact bytes_chunks plan.max_pos _

theorem pieces_eq_nil : plan.pieces message = [] ↔ plan.count message = 0 := by
  unfold pieces count Plan.message
  cases found : (plan.exchange 0 message.1).sends[message.2]? with
  | none => simp
  | some send =>
      have positive := plan.max_pos.ne'
      dsimp only
      rw [chunks_eq_nil]
      simp [Local.entry, positive]

theorem drop_pieces : (plan.pieces message).drop 1 = [] ↔ plan.count message ≤ plan.maxMsgSize := by
  unfold pieces count Plan.message
  cases found : (plan.exchange 0 message.1).sends[message.2]? with
  | none => simp
  | some send =>
      have positive := plan.max_pos.ne'
      rw [drop_chunks]
      simp [Local.entry, positive]

/-- A message that is not larger than the maximum is its first chunk. -/
theorem take_pieces (small : plan.count message ≤ plan.maxMsgSize) :
    (plan.pieces message).take 1 = plan.pieces message := by
  conv => rhs; rw [← List.take_append_drop 1 (plan.pieces message), drop_pieces.mpr small]
  rw [List.append_nil]

/-- A chunk of a message that is not larger than the maximum is all of it. -/
theorem pieces_eq_singleton (small : plan.count message ≤ plan.maxMsgSize) {chunk : Chunk n Byte}
    (member : chunk ∈ plan.pieces message) : plan.pieces message = [chunk] := by
  have first := take_pieces small
  cases pieces : plan.pieces message with
  | nil =>
      rw [pieces] at member
      cases member
  | cons head rest =>
      rw [pieces] at first member
      have none : rest = [] := by simpa using first.symm
      subst none
      rw [List.mem_singleton.mp member]

end Plan

/-- The sender of a chunk, and the number of its message. -/
def Chunk.sent (chunk : Chunk n Byte) : Fin n × ℕ := (chunk.src, chunk.mesg)

namespace Plan

theorem sent_of_mem_pieces {message : Fin n × ℕ} {chunk : Chunk n Byte}
    (member : chunk ∈ plan.pieces message) : chunk.sent = message := by
  have key := (message_labelled chunk member).1
  simp only [Chunk.message, Prod.mk.injEq] at key
  exact Prod.ext key.1 key.2.2

/-- Of messages of one chunk each, the chunks are the messages that are not empty. -/
theorem map_sent_pieces {messages : List (Fin n × ℕ)}
    (small : ∀ message ∈ messages, plan.count message ≤ plan.maxMsgSize) :
    (messages.flatMap plan.pieces).map Chunk.sent =
      messages.filter fun message => !decide (plan.count message = 0) := by
  induction messages with
  | nil => rfl
  | cons message messages ih =>
      rw [List.forall_mem_cons] at small
      rw [List.flatMap_cons, List.map_append, ih small.2]
      cases pieces : plan.pieces message with
      | nil => simp [pieces_eq_nil.mp pieces]
      | cons head rest =>
          have nonempty : plan.count message ≠ 0 := by
            intro zero
            rw [pieces_eq_nil.mpr zero] at pieces
            cases pieces
          have member : head ∈ plan.pieces message := by simp [pieces]
          rw [← pieces, pieces_eq_singleton small.1 member]
          simp [nonempty, sent_of_mem_pieces member]

/-- Empty messages have no chunks. -/
theorem flatMap_pieces_eq_nil {messages : List (Fin n × ℕ)}
    (empty : ∀ message ∈ messages, plan.count message = 0) :
    messages.flatMap plan.pieces = [] :=
  List.flatMap_eq_nil_iff.mpr fun message member => pieces_eq_nil.mpr (empty message member)

end Plan

/-- The chunks that a process posts before it looks for anything to receive. -/
def Plan.firsts (plan : Plan n Byte) (src : Fin n) : List (Chunk n Byte) :=
  ((Local.initial).opened plan src).flatMap Prod.snd

/-- The messages from one process to another, in the order of the list. -/
def Plan.between (plan : Plan n Byte) (src dst : Fin n) : List (Fin n × ℕ) :=
  ((plan.exchange 0 src).sends.zipIdx.filter fun send => send.1.pid = dst).map fun send =>
    (src, send.2)

theorem begin_take {maxMsgSize call : ℕ} {src : Fin n} {data : ℕ → Byte} {entry : Entry n Byte} :
    (entry.begin maxMsgSize src call data).2 = (chunks maxMsgSize src call data entry).take 1 := by
  unfold Entry.begin
  split
  · rename_i some
    rw [chunks_eq some]
    rfl
  · rename_i none
    rw [chunks, if_neg none]
    rfl

theorem Plan.firsts_eq (src : Fin n) :
    plan.firsts src = (plan.exchange 0 src).sends.zipIdx.flatMap fun send =>
      (plan.pieces (src, send.2)).take 1 := by
  unfold firsts Local.opened
  rw [List.mapIdx_eq_zipIdx_map, List.flatMap_map]
  apply List.flatMap_congr
  rintro ⟨send, mesg⟩ member
  have found : (plan.exchange 0 src).sends[mesg]? = some send :=
    List.mem_zipIdx_iff_getElem?.mp member
  have call : (Local.initial : Local n Byte).call = 0 := rfl
  simp only [call, begin_take, Plan.pieces, Plan.message, found]

theorem Plan.firsts_between (src dst : Fin n) :
    on Chunk.dst dst (plan.firsts src) =
      (plan.between src dst).flatMap fun message => (plan.pieces message).take 1 := by
  have goal : ∀ item ∈ (plan.exchange 0 src).sends.zipIdx,
      ∀ chunk ∈ (plan.pieces (src, item.2)).take 1, chunk.dst = item.1.pid := by
    rintro ⟨send, mesg⟩ member chunk first
    have found := List.mem_zipIdx_iff_getElem?.mp member
    rcases Plan.message_labelled chunk (List.mem_of_mem_take first) with ⟨_, send', found', goal⟩
    obtain rfl : send = send' := Option.some.inj (found.symm.trans found')
    exact goal
  rw [firsts_eq, between, List.flatMap_map]
  generalize (plan.exchange 0 src).sends.zipIdx = items at goal ⊢
  induction items with
  | nil => rfl
  | cons item items ih =>
      have later := ih fun other member => goal other (List.mem_cons_of_mem _ member)
      have here := goal item List.mem_cons_self
      rw [List.flatMap_cons, on_append, later, List.filter_cons]
      by_cases toDst : item.1.pid = dst
      · rw [on_eq_self fun chunk first => (here chunk first).trans toDst]
        simp [toDst]
      · rw [on_eq_nil fun chunk first same => toDst ((here chunk first).symm.trans same)]
        simp [toDst]

/-- Before its call a process has posted nothing, and it begins the call with its first chunks. -/
structure Begun (plan : Plan n Byte) (posted : List (Chunk n Byte)) (src : Fin n)
    (process : Local n Byte) : Prop where
  before : process.phase = .outside → process.results = [] → on Chunk.src src posted = []
  since : process.phase ≠ .outside ∨ process.results ≠ [] →
    plan.firsts src <+: on Chunk.src src posted

theorem Begun.post {posted new : List (Chunk n Byte)} {src p : Fin n} {process : Local n Byte}
    (begun : Begun plan posted src process) (own : ∀ chunk ∈ new, chunk.src = p)
    (active : src = p → process.phase ≠ .outside) : Begun plan (posted ++ new) src process := by
  constructor
  · intro outside none
    have other : ∀ chunk ∈ new, chunk.src ≠ src := by
      intro chunk member same
      exact active (same.symm.trans (own chunk member)) outside
    rw [on_append, begun.before outside none, on_eq_nil other]
    rfl
  · intro started
    rw [on_append]
    exact (begun.since started).trans (List.prefix_append _ _)

/-- A step within the call, or out of it. -/
theorem Begun.move {posted : List (Chunk n Byte)} {src : Fin n} {process after : Local n Byte}
    (begun : Begun plan posted src process) (inside : process.phase ≠ .outside)
    (called : after.phase ≠ .outside ∨ after.results ≠ []) : Begun plan posted src after := by
  refine ⟨fun outside none => ?_, fun _ => begun.since (Or.inl inside)⟩
  rcases called with now | past
  · exact absurd outside now
  · exact absurd none past

theorem begun_of_reachable (single : plan.calls = 1)
    (run : Reachable plan (fun _ _ => True) state) (src : Fin n) :
    Begun plan state.posted src (state.process src) := by
  revert src
  induction run with
  | refl => exact fun src => ⟨fun _ _ => rfl, fun started => by
      simp [State.initial, Local.initial] at started⟩
  | @tail before after earlier next ih =>
      rcases next with ⟨action, _, step⟩
      have sound := sound_of_reachable earlier
      cases step with
      | @start p between more =>
          have first : (before.process p).results = [] := by
            rw [single] at more
            exact List.length_eq_zero_iff.mp (Nat.lt_one_iff.mp more)
          have advances : Local.Advances plan p (before.process p) _ _ :=
            Local.start_advances between
          have opened : (before.process p).opened plan p =
              (Local.initial : Local n Byte).opened plan p := by
            unfold Local.opened Local.call
            rw [first]
            rfl
          intro src
          by_cases same : src = p
          · subst same
            simp only [State.post, State.set, Function.update_self]
            refine ⟨fun outside => by simp [Local.start] at outside, fun _ => ?_⟩
            rw [on_append, (ih src).before between first, on_eq_self advances.1, opened]
            exact List.prefix_rfl
          · simp only [State.post, State.set, Function.update_of_ne same]
            exact (ih src).post advances.1 fun equal => absurd equal same
      | probe probing =>
          exact Sound.forall_set ih
            ((ih _).move (by simp [probing]) (Or.inl (by simp [Local.probe])))
      | receive probing arrived flying room =>
          exact Sound.forall_set ih
            ((ih _).move (by simp [probing]) (Or.inl (by simp [Local.receive])))
      | overflow probing arrived flying full =>
          exact Sound.forall_set ih ((ih _).move (by simp [probing]) (Or.inl (by simp)))
      | @test p ready testing sending completed =>
          have inside : (before.process p).phase ≠ .outside := by simp [testing]
          have advances : Local.Advances plan p (before.process p) _ _ :=
            Local.test_advances (sound.fine p) inside completed.1
          intro src
          have posts := (ih src).post advances.1 fun same => by rw [same]; exact inside
          by_cases same : src = p
          · subst same
            simp only [State.post, State.set, Function.update_self]
            exact posts.move inside (Or.inl (by simp [Local.test_phase]))
          · simp only [State.post, State.set, Function.update_of_ne same]
            exact posts
      | wait testing active =>
          exact Sound.forall_set ih
            ((ih _).move (by simp [testing]) (Or.inl (by simp [Local.wait])))
      | leave testing active all =>
          exact Sound.forall_set ih
            ((ih _).move (by simp [testing]) (Or.inr (by simp [Local.leave])))

namespace Plan

theorem mem_between {src dst : Fin n} {message : Fin n × ℕ} :
    message ∈ plan.between src dst ↔ message.1 = src ∧ message ∈ plan.addressed 0 dst := by
  obtain ⟨src', mesg⟩ := message
  simp only [between, List.mem_map, List.mem_filter, decide_eq_true_eq, Prod.mk.injEq]
  constructor
  · rintro ⟨⟨send, mesg'⟩, ⟨listed, goal⟩, rfl, rfl⟩
    exact ⟨rfl, mem_addressed.mpr ⟨send, List.mem_zipIdx_iff_getElem?.mp listed, goal⟩⟩
  · rintro ⟨rfl, addressed⟩
    rcases mem_addressed.mp addressed with ⟨send, found, goal⟩
    exact ⟨(send, mesg), ⟨List.mem_zipIdx_iff_getElem?.mpr found, goal⟩, rfl, rfl⟩

theorem between_eq (src dst : Fin n) :
    plan.between src dst = on Prod.fst src (plan.addressed 0 dst) := by
  have labelled : ∀ item ∈ List.finRange n, ∀ message ∈ plan.between item dst,
      message.1 = id item := fun item _ message member => (mem_between.mp member).1
  have distinct : ((List.finRange n).map id).Nodup := by simpa using List.nodup_finRange n
  exact (on_flatMap labelled distinct (List.mem_finRange src)).symm

/-- The messages between two processes are in the order of the list. -/
theorem between_sorted (plan : Plan n Byte) (src dst : Fin n) :
    (plan.between src dst).Pairwise fun a b => a.2 < b.2 := by
  unfold between
  rw [List.pairwise_map]
  apply List.Pairwise.filter
  have indices := List.pairwise_lt_range' (s := 0) (n := (plan.exchange 0 src).sends.length)
  rw [← List.zipIdx_map_snd 0 (plan.exchange 0 src).sends, List.pairwise_map] at indices
  exact indices

end Plan

/-- The bytes received are those of the messages to the process, one message after the other. -/
def Contiguous (plan : Plan n Byte) (dst : Fin n) (result : Result n Byte) : Prop :=
  ∃ order : List (Fin n × ℕ), order.Perm (plan.addressed 0 dst) ∧
    result.log = order.flatMap plan.pieces ∧ result.recvData = order.flatMap plan.contents

/-- A message of several chunks has no message to its receiver beside it, but for small ones
that its sender has sent before. -/
def Plan.Orderly (plan : Plan n Byte) : Prop :=
  ∀ dst, ∀ large ∈ plan.addressed 0 dst, plan.maxMsgSize < plan.count large →
    ∀ other ∈ plan.addressed 0 dst, other ≠ large → 0 < plan.count other →
      other.1 = large.1 ∧ other.2 < large.2 ∧ plan.count other ≤ plan.maxMsgSize

/-- What is known when a process has returned from the one call. -/
structure Returned (plan : Plan n Byte) (state : State n Byte) (dst : Fin n)
    (result : Result n Byte) : Prop where
  log : on Chunk.dst dst state.taken = result.log
  recvData : result.recvData = result.log.flatMap Chunk.bytes
  landed : state.inFlight = []
  posted : ∀ message, on Chunk.message (message.1, 0, message.2) state.posted =
    plan.pieces message
  begun : ∀ src, plan.firsts src <+: on Chunk.src src state.posted

theorem returned_of_mem (single : plan.calls = 1) (run : Reachable plan (fun _ _ => True) state)
    {dst : Fin n} {result : Result n Byte} (member : result ∈ (state.process dst).results) :
    Returned plan state dst result := by
  have sound := sound_of_reachable run
  have bound := call_le_of_reachable run dst
  have some : 0 < (state.process dst).results.length := List.length_pos_of_mem member
  have outside : (state.process dst).phase = .outside := by
    by_contra inside
    rw [if_neg inside, single] at bound
    unfold Local.call at bound
    omega
  have one : (state.process dst).results = [result] := by
    rw [if_pos outside, single] at bound
    unfold Local.call at bound
    have length : (state.process dst).results.length = 1 := by omega
    rcases List.length_eq_one_iff.mp length with ⟨only, equal⟩
    rw [equal] at member ⊢
    rw [List.mem_singleton.mp member]
  have entered : ∀ q, 0 < (state.process q).barriers := fun q =>
    lt_of_lt_of_le some (sound.together dst q)
  have landed : state.inFlight = [] := by
    apply List.eq_nil_iff_forall_not_mem.mpr
    intro chunk flying
    have late := sound.barriers_le flying
    have there : (state.process chunk.src).phase ≠ .outside := by
      intro idle
      exact sound.not_inFlight ((sound.fine chunk.src).outside idle).1 flying
    have now := call_lt_of_reachable run chunk.src there
    have same := sound.call_eq flying
    have early := entered chunk.src
    omega
  have logged := sound.logged dst
  unfold Local.Logged at logged
  rw [one, ((sound.fine dst).outside outside).2.2] at logged
  refine ⟨by simpa using logged, ((sound.stored dst).results result member).1, landed, ?_, ?_⟩
  · intro message
    exact sound.posted_of_entered (entered message.1) message.2
  · intro src
    apply (begun_of_reachable single run src).since
    by_contra idle
    obtain ⟨quiet, none⟩ := not_or.mp idle
    have barriers := (sound.fine src).barriers
    rw [((sound.fine src).outside (not_not.mp quiet)).2.1] at barriers
    have early := entered src
    unfold Local.call at barriers
    rw [not_not.mp none] at barriers
    simp at barriers
    omega

/-- After the first chunks of the messages to a process, those that are left are of the last. -/
theorem Plan.Orderly.flatMap_pieces (orderly : plan.Orderly) {dst : Fin n} {large : Fin n × ℕ}
    (addressed : large ∈ plan.addressed 0 dst) (size : plan.maxMsgSize < plan.count large) :
    ((plan.between large.1 dst).flatMap fun message => (plan.pieces message).take 1) ++
        (plan.pieces large).drop 1 =
      (plan.between large.1 dst).flatMap plan.pieces := by
  have others := orderly dst large addressed size
  have sorted := plan.between_sorted large.1 dst
  obtain ⟨before, after, parts⟩ :=
    List.append_of_mem (Plan.mem_between.mpr ⟨rfl, addressed⟩ : large ∈ plan.between large.1 dst)
  have distinct : (before ++ large :: after).Nodup := by
    rw [← parts, Plan.between_eq]
    exact Plan.addressed_nodup.sublist List.filter_sublist
  have listed : ∀ message ∈ before ++ large :: after, message ∈ plan.addressed 0 dst := by
    intro message inside
    rw [← parts] at inside
    exact (Plan.mem_between.mp inside).2
  have earlier : ∀ message ∈ before, (plan.pieces message).take 1 = plan.pieces message := by
    intro message inside
    apply Plan.take_pieces
    have apart : message ≠ large := by
      rintro rfl
      exact (List.nodup_append.mp distinct).2.2 message inside message (by simp) rfl
    rcases Nat.eq_zero_or_pos (plan.count message) with zero | positive
    · omega
    · exact (others message (listed message (by simp [inside])) apart positive).2.2
  have afterwards : ∀ message ∈ after, plan.pieces message = [] := by
    intro message inside
    apply Plan.pieces_eq_nil.mpr
    by_contra nonempty
    have apart : message ≠ large := by
      rintro rfl
      exact (List.nodup_cons.mp (List.nodup_append.mp distinct).2.1).1 inside
    have order := (others message (listed message (by simp [inside])) apart
      (Nat.pos_of_ne_zero nonempty)).2.1
    rw [parts] at sorted
    have later := (List.pairwise_cons.mp (List.pairwise_append.mp sorted).2.1).1 message inside
    omega
  have nothing : after.flatMap plan.pieces = [] := List.flatMap_eq_nil_iff.mpr afterwards
  have nothing' : (after.flatMap fun message => (plan.pieces message).take 1) = [] := by
    apply List.flatMap_eq_nil_iff.mpr
    intro message inside
    rw [afterwards message inside]
    rfl
  have same : (before.flatMap fun message => (plan.pieces message).take 1) =
      before.flatMap plan.pieces := List.flatMap_congr earlier
  rw [parts, List.flatMap_append, List.flatMap_append, List.flatMap_cons, List.flatMap_cons,
    nothing, nothing', same, List.append_nil, List.append_nil, List.append_assoc,
    List.take_append_drop]

theorem on_route (src dst : Fin n) (messages : List (Chunk n Byte)) :
    on Chunk.route (src, dst) messages = on Chunk.dst dst (on Chunk.src src messages) := by
  unfold on
  rw [List.filter_filter]
  apply List.filter_congr
  intro chunk _
  simp [Chunk.route, Bool.and_comm]

namespace Returned

variable {dst : Fin n} {result : Result n Byte}

theorem contiguous_of_log (returned : Returned plan state dst result)
    (order : List (Fin n × ℕ)) (shuffled : order.Perm (plan.addressed 0 dst))
    (log : result.log = order.flatMap plan.pieces) : Contiguous plan dst result := by
  refine ⟨order, shuffled, log, ?_⟩
  rw [returned.recvData, log, List.flatMap_assoc]
  exact List.flatMap_congr fun message _ => Plan.bytes_pieces

/-- A chunk that was posted is part of a message to its destination. -/
theorem mem_pieces (returned : Returned plan state dst result) {chunk : Chunk n Byte}
    (member : chunk ∈ state.posted) (call : chunk.call = 0) :
    chunk ∈ plan.pieces (chunk.src, chunk.mesg) ∧
      (chunk.src, chunk.mesg) ∈ plan.addressed 0 chunk.dst := by
  have key : chunk.message = (chunk.src, 0, chunk.mesg) := by rw [← call]; rfl
  have listed : chunk ∈ plan.pieces (chunk.src, chunk.mesg) := by
    rw [← returned.posted (chunk.src, chunk.mesg)]
    exact mem_on.mpr ⟨member, key⟩
  rcases Plan.message_labelled chunk listed with ⟨_, send, found, goal⟩
  exact ⟨listed, Plan.mem_addressed.mpr ⟨send, found, goal.symm⟩⟩

/-- Without a message of several chunks, every chunk is a message. -/
theorem contiguous_of_small (returned : Returned plan state dst result)
    (exchanged : Exchanged plan 0 dst result)
    (small : ∀ message ∈ plan.addressed 0 dst, plan.count message ≤ plan.maxMsgSize) :
    Contiguous plan dst result := by
  have one : ∀ chunk ∈ result.log, plan.pieces chunk.sent = [chunk] := by
    intro chunk member
    rcases List.mem_flatMap.mp (exchanged.log.mem_iff.mp member) with ⟨message, addressed, piece⟩
    rw [Plan.sent_of_mem_pieces piece]
    exact Plan.pieces_eq_singleton (small message addressed) piece
  have empty : ((plan.addressed 0 dst).filter fun message => plan.count message = 0).flatMap
      plan.pieces = [] :=
    Plan.flatMap_pieces_eq_nil fun message member => by simpa using (List.mem_filter.mp member).2
  apply returned.contiguous_of_log (((plan.addressed 0 dst).filter
    fun message => plan.count message = 0) ++ result.log.map Chunk.sent)
  · have filled := (exchanged.log.map Chunk.sent).trans (.of_eq (Plan.map_sent_pieces small))
    exact (filled.append_left _).trans (List.filter_append_perm _ _)
  · rw [List.flatMap_append, empty, List.flatMap_map, List.nil_append]
    conv => lhs; rw [← List.flatMap_singleton' result.log]
    exact List.flatMap_congr fun chunk member => (one chunk member).symm

/-- Of a message, what its sender has posted after its first chunks is all but the first one. -/
theorem later_piece (returned : Returned plan state dst result) {src : Fin n}
    {later : List (Chunk n Byte)} (split : plan.firsts src ++ later = on Chunk.src src state.posted)
    {message : Fin n × ℕ} (member : message ∈ plan.between src dst) :
    on Chunk.message (message.1, 0, message.2) (on Chunk.dst dst later) =
      (plan.pieces message).drop 1 := by
  have between := Plan.mem_between.mp member
  have whole : on Chunk.message (message.1, 0, message.2)
      (on Chunk.dst dst (on Chunk.src src state.posted)) = plan.pieces message := by
    rw [on_comm (message.1, 0, message.2) dst, on_comm (message.1, 0, message.2) src,
      returned.posted message]
    have toDst : ∀ chunk ∈ plan.pieces message, chunk.dst = dst := by
      intro chunk piece
      rcases Plan.message_labelled chunk piece with ⟨_, send, found, goal⟩
      rcases Plan.mem_addressed.mp between.2 with ⟨send', found', goal'⟩
      obtain rfl : send = send' := Option.some.inj (found.symm.trans found')
      exact goal.trans goal'
    have fromSrc : ∀ chunk ∈ plan.pieces message, chunk.src = src := by
      intro chunk piece
      have key := congrArg Prod.fst (Plan.message_labelled chunk piece).1
      exact key.trans between.1
    rw [on_eq_self fromSrc, on_eq_self toDst]
  have labelled : ∀ other ∈ plan.between src dst, ∀ chunk ∈ (plan.pieces other).take 1,
      chunk.message = (other.1, 0, other.2) :=
    fun other _ chunk first => (Plan.message_labelled chunk (List.mem_of_mem_take first)).1
  have distinct : ((plan.between src dst).map fun other => (other.1, 0, other.2)).Nodup := by
    rw [Plan.between_eq]
    apply (Plan.addressed_nodup.sublist List.filter_sublist).map
    rintro ⟨a, i⟩ ⟨b, j⟩ equal
    simpa using equal
  rw [← split, on_append, Plan.firsts_between, on_append, on_flatMap labelled distinct member]
    at whole
  conv at whole => rhs; rw [← List.take_append_drop 1 (plan.pieces message)]
  exact List.append_cancel_left whole

/-- A message of several chunks comes last, after small ones of the same sender. -/
theorem contiguous_of_large (returned : Returned plan state dst result)
    (sound : Sound plan state) (single : ∀ chunk ∈ state.posted, chunk.call = 0)
    (orderly : plan.Orderly) {large : Fin n × ℕ} (addressed : large ∈ plan.addressed 0 dst)
    (size : plan.maxMsgSize < plan.count large) : Contiguous plan dst result := by
  have others := orderly dst large addressed size
  have member : large ∈ plan.between large.1 dst := Plan.mem_between.mpr ⟨rfl, addressed⟩
  -- everything comes from the sender of the large message
  have source : ∀ chunk ∈ state.posted, chunk.dst = dst →
      (chunk.src, chunk.mesg) ∈ plan.between large.1 dst ∧
        0 < plan.count (chunk.src, chunk.mesg) := by
    intro chunk posted toDst
    rcases returned.mem_pieces posted (single chunk posted) with ⟨piece, listed⟩
    rw [toDst] at listed
    have nonempty : 0 < plan.count (chunk.src, chunk.mesg) := by
      apply Nat.pos_of_ne_zero
      intro zero
      rw [Plan.pieces_eq_nil.mpr zero] at piece
      cases piece
    refine ⟨Plan.mem_between.mpr ⟨?_, listed⟩, nonempty⟩
    by_cases same : (chunk.src, chunk.mesg) = large
    · rw [← same]
    · exact (others _ listed same nonempty).1
  obtain ⟨later, split⟩ := returned.begun large.1
  have log : result.log = on Chunk.dst dst (on Chunk.src large.1 state.posted) := by
    have conserved := sound.conserved (large.1, dst)
    have alone : ∀ chunk ∈ on Chunk.dst dst state.taken, chunk.src = large.1 := by
      intro chunk member
      rcases mem_on.mp member with ⟨taken, toDst⟩
      have posted := sound.conserved.perm.mem_iff.mpr (List.mem_append_left _ taken)
      exact (Plan.mem_between.mp (source chunk posted toDst).1).1
    rw [on_route, on_route, on_route, returned.landed, on_comm dst large.1 state.taken,
      on_eq_self alone, returned.log] at conserved
    rw [conserved]
    exact (List.append_nil _).symm
  have rest : on Chunk.dst dst later = (plan.pieces large).drop 1 := by
    have large_only : ∀ chunk ∈ on Chunk.dst dst later,
        chunk.message = (large.1, 0, large.2) := by
      intro chunk inside
      rcases mem_on.mp inside with ⟨listed, toDst⟩
      have posted : chunk ∈ state.posted := by
        have ofSource : chunk ∈ on Chunk.src large.1 state.posted := by
          rw [← split]
          exact List.mem_append_right _ listed
        exact (mem_on.mp ofSource).1
      rcases source chunk posted toDst with ⟨between, nonempty⟩
      have key : chunk.message = (chunk.src, 0, chunk.mesg) := by
        rw [← single chunk posted]
        rfl
      have late : chunk ∈ (plan.pieces (chunk.src, chunk.mesg)).drop 1 := by
        rw [← returned.later_piece split between]
        exact mem_on.mpr ⟨inside, key⟩
      have same : (chunk.src, chunk.mesg) = large := by
        by_contra other
        have small := (others _ (Plan.mem_between.mp between).2 other nonempty).2.2
        rw [Plan.drop_pieces.mpr small] at late
        cases late
      rw [key, ← same]
    rw [← returned.later_piece split member, on_eq_self large_only]
  -- hence its other chunks follow on its first one
  have pieces : (plan.between large.1 dst).flatMap plan.pieces = result.log := by
    rw [log, ← split, on_append, rest, Plan.firsts_between]
    exact (orderly.flatMap_pieces addressed size).symm
  have elsewhere : ((plan.addressed 0 dst).filter fun message =>
      !decide (message.1 = large.1)).flatMap plan.pieces = [] := by
    apply Plan.flatMap_pieces_eq_nil
    intro message inside
    rcases List.mem_filter.mp inside with ⟨listed, apart⟩
    have different : message.1 ≠ large.1 := by simpa using apart
    by_contra nonempty
    have distinct : message ≠ large := fun same => different (congrArg Prod.fst same)
    exact different (others message listed distinct (Nat.pos_of_ne_zero nonempty)).1
  apply returned.contiguous_of_log (plan.between large.1 dst ++ (plan.addressed 0 dst).filter
    fun message => !decide (message.1 = large.1))
  · rw [Plan.between_eq]
    exact List.filter_append_perm _ _
  · rw [List.flatMap_append, elsewhere, List.append_nil, pieces]

end Returned

theorem contiguous_of_orderly (single : plan.calls = 1) (orderly : plan.Orderly)
    (run : Reachable plan (fun _ _ => True) state) {dst : Fin n} {result : Result n Byte}
    (member : result ∈ (state.process dst).results) : Contiguous plan dst result := by
  have returned := returned_of_mem single run member
  by_cases some_large : ∃ large ∈ plan.addressed 0 dst, plan.maxMsgSize < plan.count large
  · rcases some_large with ⟨large, addressed, size⟩
    exact returned.contiguous_of_large (sound_of_reachable run)
      (fun chunk posted => posted_call single run posted) orderly addressed size
  · have small : ∀ message ∈ plan.addressed 0 dst, plan.count message ≤ plan.maxMsgSize := by
      intro message addressed
      by_contra large
      exact some_large ⟨message, addressed, Nat.lt_of_not_le large⟩
    exact returned.contiguous_of_small (exchanged_of_single single run member) small

end AllToAll

end Talpf
