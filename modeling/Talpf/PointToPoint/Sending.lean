import Talpf.PointToPoint
import Mathlib.Data.List.Perm.Basic
import Mathlib.Algebra.Order.Floor.Div

/-!
# What a process has sent, and what it still has to send

The chunks that a process has posted for a message, and those that its tables
say it still has to post, are at every moment the chunks of the message.
-/

namespace Talpf

namespace PointToPoint

universe u

variable {n : ℕ} {Byte : Type u} {plan : Plan n Byte}

open Channels

section SwapPop

variable {α β : Type u} {i : ℕ} {items : List α}

theorem swapPop_concat {last : α} (items : List α) :
    swapPop i (items ++ [last]) = ((items ++ [last]).set i last).dropLast := by
  unfold swapPop
  rw [List.getLast?_concat]

theorem length_swapPop : (swapPop i items).length = items.length - 1 := by
  unfold swapPop
  cases last : items.getLast? with
  | none => simp [List.getLast?_eq_none_iff.mp last]
  | some last => simp

/-- Up to the order, the element at the index is removed. -/
theorem swapPop_perm (bound : i < items.length) : (swapPop i items).Perm (items.eraseIdx i) := by
  rcases List.eq_nil_or_concat' items with rfl | ⟨front, last, rfl⟩
  · simp at bound
  · rw [swapPop_concat]
    rw [List.length_append, List.length_singleton] at bound
    rcases Nat.lt_or_ge i front.length with inside | at_end
    · rw [List.set_append_left _ _ inside, List.dropLast_concat,
        List.eraseIdx_append_of_lt_length inside]
      exact (List.set_perm_cons_eraseIdx inside last).trans
        (List.perm_append_singleton last _).symm
    · obtain rfl : i = front.length := by omega
      simp [List.eraseIdx_append]

theorem getElem?_swapPop {j : ℕ} : (swapPop i items)[j]? =
    if j + 1 < items.length then if j = i then items[items.length - 1]? else items[j]?
    else none := by
  rcases List.eq_nil_or_concat' items with rfl | ⟨front, last, rfl⟩
  · simp [swapPop]
  · rw [swapPop_concat, List.getElem?_dropLast, List.getElem?_set]
    simp only [List.length_set, List.length_append, List.length_singleton,
      Nat.add_one_sub_one, List.getElem?_concat_length]
    by_cases bound : j < front.length
    · by_cases same : j = i
      · subst same
        simp [bound, Nat.lt_succ_of_lt bound]
      · simp [bound, same, Ne.symm same]
    · simp [bound]

theorem zip_swapPop {others : List β} (lengths : items.length = others.length) :
    (swapPop i items).zip (swapPop i others) = swapPop i (items.zip others) := by
  apply List.ext_getElem?
  intro j
  simp only [List.zip, List.getElem?_zipWith, getElem?_swapPop, List.length_zipWith, lengths,
    Nat.min_self]
  by_cases bound : j + 1 < others.length
  · by_cases same : j = i
    · subst same
      simp [bound]
    · simp [bound, same]
  · simp [bound]

end SwapPop

namespace Local

/-- The large sends with their requests. -/
def larges (process : Local n Byte) : List (Send n Byte × Request n Byte) :=
  process.largeSends.zip process.largeRequests

theorem dequeue_frame (i : ℕ) (process : Local n Byte) :
    dequeue i process = { process with
      largeSends := (dequeue i process).largeSends
      largeRequests := (dequeue i process).largeRequests } := by
  induction i generalizing process with
  | zero => rfl
  | succ i ih =>
      unfold dequeue
      split
      · rw [ih]
      · rw [ih]

/-- What is left are the sends whose requests are not null. -/
theorem dequeue_larges (i : ℕ) (process : Local n Byte)
    (lengths : process.largeSends.length = process.largeRequests.length)
    (bound : i ≤ process.largeRequests.length)
    (active : ∀ j, i ≤ j → process.largeRequests[j]? ≠ some none) :
    (dequeue i process).largeSends.length = (dequeue i process).largeRequests.length ∧
      (dequeue i process).larges.Perm (process.larges.filter fun large => large.2.isSome) := by
  induction i generalizing process with
  | zero =>
      refine ⟨lengths, .of_eq (List.filter_eq_self.mpr ?_).symm⟩
      rintro ⟨send, req⟩ member
      cases req with
      | some chunk => rfl
      | none =>
          have listed := (List.of_mem_zip member).2
          rcases List.mem_iff_getElem?.mp listed with ⟨j, found⟩
          exact absurd found (active j (Nat.zero_le j))
  | succ i ih =>
      unfold dequeue
      split
      · rename_i null
        have removed := ih { process with
            largeRequests := swapPop i process.largeRequests
            largeSends := swapPop i process.largeSends }
          (by simp only [length_swapPop, lengths]) (by simp only [length_swapPop]; omega) ?_
        · refine ⟨removed.1, removed.2.trans ?_⟩
          unfold larges at *
          dsimp only at removed ⊢
          rw [zip_swapPop lengths]
          have inside : i < (process.largeSends.zip process.largeRequests).length := by
            rw [List.length_zip, lengths, Nat.min_self]
            omega
          have shuffled := swapPop_perm inside
          refine (shuffled.filter _).trans (.of_eq ?_)
          have gone : ((process.largeSends.zip process.largeRequests)[i]).2.isSome = false := by
            rw [List.getElem_zip]
            have same := (List.getElem?_eq_some_iff.mp null).2
            simp [same]
          have parts : process.largeSends.zip process.largeRequests =
              (process.largeSends.zip process.largeRequests).take i ++
                (process.largeSends.zip process.largeRequests)[i] ::
                  (process.largeSends.zip process.largeRequests).drop (i + 1) := by
            rw [List.getElem_cons_drop, List.take_append_drop]
          conv => rhs; rw [parts]
          rw [List.eraseIdx_eq_take_drop_succ, List.filter_append, List.filter_append,
            List.filter_cons_of_neg (by rw [gone]; exact Bool.false_ne_true)]
        · intro j later null'
          dsimp only at null'
          rw [getElem?_swapPop] at null'
          split at null'
          · split at null'
            · exact active _ (by omega) null'
            · exact active j (by omega) null'
          · cases null'
      · rename_i _ other
        refine ih process lengths (by omega) fun j later null => ?_
        rcases Nat.eq_or_lt_of_le later with rfl | beyond
        · exact other null
        · exact active j beyond null

end Local

/-- Bytes in pieces of a maximum size. -/
def split (maxSize : ℕ) (data : List Byte) : List (List Byte) :=
  if 0 < min maxSize data.length then data.take maxSize :: split maxSize (data.drop maxSize)
  else []
termination_by data.length
decreasing_by
  rw [List.length_drop]
  omega

section Split

variable {maxSize : ℕ} {data : List Byte}

theorem split_eq (some : 0 < min maxSize data.length) :
    split maxSize data = data.take maxSize :: split maxSize (data.drop maxSize) := by
  rw [split, if_pos some]

theorem split_nil (none : data.length = 0) : split maxSize data = [] := by
  rw [split, if_neg (by omega)]

theorem flatten_split (positive : 0 < maxSize) (data : List Byte) :
    (split maxSize data).flatten = data := by
  induction data using split.induct maxSize with
  | case1 data some ih => rw [split_eq some, List.flatten_cons, ih, List.take_append_drop]
  | case2 data none =>
      have empty : data = [] := List.eq_nil_of_length_eq_zero (by omega)
      rw [split_nil (by simp [empty]), empty]
      rfl

theorem length_split (positive : 0 < maxSize) (data : List Byte) :
    (split maxSize data).length = data.length ⌈/⌉ maxSize := by
  induction data using split.induct maxSize with
  | case1 data some ih =>
      rw [split_eq some, List.length_cons, ih, List.length_drop, Nat.ceilDiv_eq_add_pred_div,
        Nat.ceilDiv_eq_add_pred_div]
      rcases Nat.lt_or_ge maxSize data.length with more | last
      · have parts : data.length + maxSize - 1 = data.length - maxSize + maxSize - 1 + maxSize := by
          omega
        rw [parts, Nat.add_div_right _ positive]
      · have none : data.length - maxSize = 0 := by omega
        have one : data.length + maxSize - 1 = data.length - 1 + maxSize := by omega
        rw [none, one, Nat.add_div_right _ positive, Nat.div_eq_of_lt (by omega),
          Nat.div_eq_of_lt (by omega)]
  | case2 data none =>
      have empty : data.length = 0 := by omega
      rw [split_nil empty, empty, Nat.ceilDiv_eq_add_pred_div, Nat.div_eq_of_lt (by omega)]
      rfl

/-- The piece that follows on others is the next part of the bytes. -/
theorem split_next (positive : 0 < maxSize) {earlier later : List (List Byte)} {piece : List Byte}
    (parts : split maxSize data = earlier ++ piece :: later) :
    earlier.flatten.length < data.length ∧ earlier.flatten = data.take earlier.flatten.length ∧
      piece = (data.drop earlier.flatten.length).take maxSize := by
  induction earlier generalizing data with
  | nil =>
      by_cases some : 0 < min maxSize data.length
      · rw [split_eq some] at parts
        have head := (List.cons.inj parts).1
        refine ⟨?_, by simp, by simpa using head.symm⟩
        rw [List.flatten_nil, List.length_nil]
        omega
      · rw [split, if_neg some] at parts
        cases parts
  | cons first earlier ih =>
      by_cases some : 0 < min maxSize data.length
      · rw [split_eq some, List.cons_append] at parts
        obtain ⟨rfl, rest⟩ := List.cons.inj parts
        rcases ih rest with ⟨inside, prior, next⟩
        rw [List.length_drop] at inside
        have length : (data.take maxSize).length = maxSize := by
          rw [List.length_take]
          omega
        rw [List.flatten_cons, List.length_append, length]
        refine ⟨by omega, ?_, ?_⟩
        · rw [List.take_add, ← prior]
        · rw [← List.drop_drop]
          exact next
      · rw [split, if_neg some] at parts
        cases parts

end Split

/-- The chunks of bytes of one message. -/
def cut (maxSize : ℕ) (src : Fin n) (mesg : ℕ) (dst : Fin n) (tag : ℕ) (data : List Byte) :
    List (Chunk n Byte) :=
  (split maxSize data).map fun bytes => ⟨src, dst, tag, mesg, bytes⟩

/-- The chunks of a message. -/
def Plan.pieces (plan : Plan n Byte) (message : Fin n × ℕ) : List (Chunk n Byte) :=
  match (plan.isends message.1)[message.2]? with
  | none => []
  | some send => cut plan.maxMpiMsgSize message.1 message.2 send.destPid send.tag send.buf

theorem cut_eq {maxSize : ℕ} {src : Fin n} {mesg : ℕ} {dst : Fin n} {tag : ℕ} {data : List Byte}
    (some : 0 < min maxSize data.length) :
    cut maxSize src mesg dst tag data =
      ⟨src, dst, tag, mesg, data.take maxSize⟩ ::
        cut maxSize src mesg dst tag (data.drop maxSize) := by
  unfold cut
  rw [split_eq some, List.map_cons]

theorem cut_nil {maxSize : ℕ} {src : Fin n} {mesg : ℕ} {dst : Fin n} {tag : ℕ} {data : List Byte}
    (none : data.length = 0) : cut maxSize src mesg dst tag data = [] := by
  unfold cut
  rw [split_nil none]
  rfl

theorem cut_labelled {maxSize : ℕ} {src : Fin n} {mesg : ℕ} {dst : Fin n} {tag : ℕ}
    {data : List Byte} : ∀ chunk ∈ cut maxSize src mesg dst tag data,
      chunk.message = (src, mesg) ∧ chunk.dst = dst ∧ chunk.tag = tag := by
  intro chunk member
  rcases List.mem_map.mp member with ⟨bytes, _, rfl⟩
  exact ⟨rfl, rfl, rfl⟩

theorem take_min (size : ℕ) (data : List Byte) :
    data.take (min size data.length) = data.take size := by
  rw [← List.take_take, List.take_length]

namespace Local

section

variable (plan : Plan n Byte) (p : Fin n) (process : Local n Byte)

/-- The chunks behind the one that a large send has posted last. -/
def left (send : Send n Byte) : List (Chunk n Byte) :=
  cut plan.maxMpiMsgSize p send.mesg send.dstPid send.tag
    (send.buf.drop (send.addr + plan.maxMpiMsgSize))

/-- The chunks of a message that the process still has to post. -/
def unsent (mesg : ℕ) : List (Chunk n Byte) :=
  if process.sent ≤ mesg then plan.pieces (p, mesg)
  else (on Send.mesg mesg process.largeSends).flatMap (left plan p)

/-- The chunks that a step posts are those that are no longer left. -/
def Advances (after : Local n Byte) (new : List (Chunk n Byte)) : Prop :=
  (∀ chunk ∈ new, chunk.src = p) ∧ ∀ mesg,
    on Chunk.message (p, mesg) new ++ after.unsent plan p mesg = process.unsent plan p mesg

/-- The tables of the large sends are in order. -/
structure Sends : Prop where
  sent : (plan.isends p).drop process.sent = process.todo.filterMap Call.isend?
  called : process.phase ≠ .posting → process.todo = []
  room : process.sendIndices = plan.reserved p
  lengths : process.largeSends.length = process.largeRequests.length
  known : ∀ send ∈ process.largeSends, send.mesg < process.sent ∧
    (plan.isends p)[send.mesg]? = some ⟨send.buf, send.dstPid, send.tag⟩ ∧
      send.addr + send.size = send.buf.length
  distinct : (process.largeSends.map Send.mesg).Nodup
  ready : process.ready.Nodup ∧ ∀ j ∈ process.ready, j < process.largeSends.length
  pending : ∀ (j : ℕ) send req, process.largeSends[j]? = some send →
    process.largeRequests[j]? = some req →
      (req = none ↔ j ∈ process.ready ∨ send.size ≤ plan.maxMpiMsgSize) ∧
        (j ∈ process.ready → plan.maxMpiMsgSize < send.size)
  settled : process.phase ≠ .continuing →
    process.ready = [] ∧ ∀ send ∈ process.largeSends, plan.maxMpiMsgSize < send.size
  finished : process.phase = .waiting ∨ process.Entered → process.largeSends = []
  sound : process.phase ≠ .failed

end

variable {p : Fin n} {process : Local n Byte}

theorem unsent_of_mem (sends : process.Sends plan p) {send : Send n Byte}
    (member : send ∈ process.largeSends) :
    process.unsent plan p send.mesg = left plan p send := by
  rw [unsent, if_neg (sends.known send member).1.not_ge, on_of_nodup sends.distinct member,
    List.flatMap_singleton]

theorem unsent_of_not_mem {mesg : ℕ} (before : mesg < process.sent)
    (none : ∀ send ∈ process.largeSends, send.mesg ≠ mesg) :
    process.unsent plan p mesg = [] := by
  rw [unsent, if_neg before.not_ge, on_eq_nil none, List.flatMap_nil]

theorem advances_nil {after : Local n Byte} (same : after.unsent plan p = process.unsent plan p) :
    process.Advances plan p after [] := by
  refine ⟨by simp, fun mesg => ?_⟩
  rw [on_nil, List.nil_append, same]

/-- A step that does not touch the large sends. -/
theorem Sends.proceed {phase : Phase} {imsgs : List (Request n Byte)}
    {irecvs : List (Pointer × ℕ)} {emptyRecvs nMsgs : ℕ} {memory : List (List Byte)}
    (sends : process.Sends plan p) (called : phase ≠ .posting → process.todo = [])
    (settled : phase ≠ .continuing → process.phase ≠ .continuing)
    (finished : phase = .waiting ∨ phase = .barrier ∨ phase = .returned →
      process.largeSends = [])
    (sound : phase ≠ .failed) :
    ({ process with
        phase := phase
        imsgs := imsgs
        irecvs := irecvs
        emptyRecvs := emptyRecvs
        nMsgs := nMsgs
        memory := memory } : Local n Byte).Sends plan p :=
  ⟨sends.sent, called, sends.room, sends.lengths, sends.known, sends.distinct, sends.ready,
    sends.pending, fun other => sends.settled (settled other), finished, sound⟩

theorem head_unsent : process.head.unsent plan p = process.unsent plan p := by
  unfold head
  split <;> rfl

theorem Sends.head (sends : process.Sends plan p) (called : process.todo = [])
    (settled : process.phase ≠ .continuing) : process.head.Sends plan p := by
  unfold Local.head
  split
  · exact sends.proceed (fun _ => called) (fun _ => settled) (by simp) (by simp)
  · rename_i done
    have empty : process.largeSends = [] := by
      by_contra some
      exact done (Or.inr some)
    exact sends.proceed (fun _ => called) (fun _ => settled) (fun _ => empty) (by simp)

section Isend

variable {send : Isend n Byte} {rest : List (Call n Byte)}

theorem Sends.next (sends : process.Sends plan p) (next : process.todo = .isend send :: rest) :
    (plan.isends p)[process.sent]? = some send ∧
      (plan.isends p).drop (process.sent + 1) = rest.filterMap Call.isend? := by
  have sent := sends.sent
  rw [next, List.filterMap_cons_some (show Call.isend? (.isend send) = some send from rfl)] at sent
  constructor
  · have first := congrArg (fun items => items[0]?) sent
    simpa using first
  · have later := congrArg List.tail sent
    simpa using later

theorem isend_sends (sends : process.Sends plan p) (posting : process.phase = .posting)
    (next : process.todo = .isend send :: rest) :
    ({ process with todo := rest }.isend plan.maxMpiMsgSize p send).1.Sends plan p := by
  rcases sends.next next with ⟨found, remaining⟩
  rcases sends.settled (by simp [posting]) with ⟨idle, large⟩
  have none : ¬(process.phase = .waiting ∨ process.Entered) := by simp [Entered, posting]
  unfold isend
  dsimp only
  split
  · rename_i more
    have positive := plan.max_pos
    rw [if_pos (by omega)]
    refine ⟨remaining, fun other => absurd posting other, sends.room, ?_, ?_, ?_, ?_, ?_, ?_,
      fun now => absurd now none, sends.sound⟩
    · simp [sends.lengths]
    · intro item member
      rcases List.mem_append.mp member with earlier | now
      · have known := sends.known item earlier
        exact ⟨known.1.trans (Nat.lt_succ_self _), known.2⟩
      · obtain rfl := List.mem_singleton.mp now
        exact ⟨Nat.lt_succ_self _, found, by simp⟩
    · dsimp only
      rw [List.map_append, List.map_singleton]
      apply List.nodup_append.mpr
      refine ⟨sends.distinct, List.nodup_singleton _, ?_⟩
      rintro mesg inside other single rfl
      obtain rfl := List.mem_singleton.mp single
      rcases List.mem_map.mp inside with ⟨item, member, equal⟩
      exact absurd equal (sends.known item member).1.ne
    · simp [idle]
    · intro j item req foundSend foundReq
      dsimp only at foundSend foundReq ⊢
      rw [idle]
      rcases Nat.lt_or_ge j process.largeSends.length with inside | at_end
      · rw [List.getElem?_append_left inside] at foundSend
        rw [List.getElem?_append_left (sends.lengths ▸ inside)] at foundReq
        have before := sends.pending j item req foundSend foundReq
        rwa [idle] at before
      · rw [List.getElem?_append_right at_end] at foundSend
        rw [List.getElem?_append_right (sends.lengths ▸ at_end), ← sends.lengths] at foundReq
        have first : j - process.largeSends.length = 0 := by
          have bound := (List.getElem?_eq_some_iff.mp foundSend).1
          simpa using bound
        rw [first] at foundSend foundReq
        obtain rfl := Option.some.inj foundSend
        obtain rfl := Option.some.inj foundReq
        simp
        omega
    · intro _
      refine ⟨idle, fun item member => ?_⟩
      rcases List.mem_append.mp member with earlier | now
      · exact large item earlier
      · obtain rfl := List.mem_singleton.mp now
        dsimp only
        omega
  · refine ⟨remaining, fun other => absurd posting other, sends.room, sends.lengths, ?_,
      sends.distinct, sends.ready, sends.pending, fun _ => ⟨idle, large⟩,
      fun now => absurd now none, sends.sound⟩
    intro item member
    have known := sends.known item member
    exact ⟨known.1.trans (Nat.lt_succ_self _), known.2⟩

theorem isend_new : (process.isend plan.maxMpiMsgSize p send).2 =
    if 0 < min plan.maxMpiMsgSize send.buf.length then
      [⟨p, send.destPid, send.tag, process.sent, send.buf.take plan.maxMpiMsgSize⟩]
    else [] := by
  unfold isend
  dsimp only
  rw [take_min]
  split
  · split <;> rfl
  · split <;> rfl

theorem isend_sent : (process.isend plan.maxMpiMsgSize p send).1.sent = process.sent + 1 := by
  unfold isend
  dsimp only
  split <;> rfl

theorem isend_largeSends : (process.isend plan.maxMpiMsgSize p send).1.largeSends =
    if min plan.maxMpiMsgSize send.buf.length < send.buf.length then
      process.largeSends ++
        [⟨send.buf, 0, send.buf.length, send.destPid, send.tag, process.sent⟩]
    else process.largeSends := by
  unfold isend
  dsimp only
  split <;> rfl

theorem isend_advances (sends : process.Sends plan p)
    (next : process.todo = .isend send :: rest) :
    process.Advances plan p ({ process with todo := rest }.isend plan.maxMpiMsgSize p send).1
      ({ process with todo := rest }.isend plan.maxMpiMsgSize p send).2 := by
  have found := (sends.next next).1
  have pieces : plan.pieces (p, process.sent) =
      cut plan.maxMpiMsgSize p process.sent send.destPid send.tag send.buf := by
    unfold Plan.pieces
    rw [found]
  have positive := plan.max_pos
  have older : on Send.mesg process.sent process.largeSends = [] :=
    on_eq_nil fun item member => (sends.known item member).1.ne
  have labelled : ∀ chunk ∈ ({ process with todo := rest }.isend plan.maxMpiMsgSize p send).2,
      chunk.message = (p, process.sent) := by
    intro chunk member
    rw [isend_new] at member
    split at member
    · obtain rfl := List.mem_singleton.mp member
      rfl
    · cases member
  refine ⟨fun chunk member => congrArg Prod.fst (labelled chunk member), fun mesg => ?_⟩
  unfold unsent
  rw [isend_sent, isend_largeSends]
  dsimp only
  rcases lt_trichotomy mesg process.sent with earlier | rfl | later
  · have other : on Chunk.message (p, mesg)
        ({ process with todo := rest }.isend plan.maxMpiMsgSize p send).2 = [] := by
      apply on_eq_nil
      intro chunk member same
      have key := (labelled chunk member).symm.trans same
      simp only [Prod.mk.injEq, true_and] at key
      omega
    rw [other, if_neg (show ¬process.sent + 1 ≤ mesg by omega),
      if_neg (show ¬process.sent ≤ mesg by omega), List.nil_append]
    split
    · rw [on_append, on_cons, if_neg (by dsimp only; omega), on_nil, List.append_nil]
    · rfl
  · rw [if_neg (by omega), if_pos le_rfl, pieces, on_eq_self labelled, isend_new]
    dsimp only
    by_cases some : 0 < min plan.maxMpiMsgSize send.buf.length
    · rw [if_pos some, cut_eq some]
      split
      · rw [on_append, older, on_cons, if_pos rfl, on_nil, List.nil_append,
          List.flatMap_singleton, left, Nat.zero_add]
        rfl
      · rw [older, cut_nil (by rw [List.length_drop]; omega)]
        rfl
    · rw [if_neg some, if_neg (by omega), older, cut_nil (by omega)]
      rfl
  · have other : on Chunk.message (p, mesg)
        ({ process with todo := rest }.isend plan.maxMpiMsgSize p send).2 = [] := by
      apply on_eq_nil
      intro chunk member same
      have key := (labelled chunk member).symm.trans same
      simp only [Prod.mk.injEq, true_and] at key
      omega
    rw [other, if_pos (by omega), if_pos (by omega), List.nil_append]

end Isend

section Test

theorem length_largeSends_le (paired : plan.Paired) (sends : process.Sends plan p) :
    process.largeRequests.length ≤ process.sendIndices := by
  have inside : process.largeSends.map Send.mesg ⊆ List.range (plan.isends p).length := by
    intro mesg member
    rcases List.mem_map.mp member with ⟨send, listed, rfl⟩
    have found := (sends.known send listed).2.1
    exact List.mem_range.mpr (List.getElem?_eq_some_iff.mp found).1
  have bound := (List.subperm_of_subset sends.distinct inside).length_le
  rw [List.length_map, List.length_range] at bound
  rw [← sends.lengths, sends.room]
  exact bound.trans (paired.isends_le p)

theorem testsome_sends (paired : plan.Paired) (sends : process.Sends plan p)
    (testing : process.phase = .testing) {ready : List ℕ} (distinct : ready.Nodup)
    (active : ∀ j ∈ ready, ∃ chunk, process.largeRequests[j]? = some (some chunk)) :
    (process.testsome ready).Sends plan p := by
  rcases sends.settled (by simp [testing]) with ⟨idle, large⟩
  unfold testsome
  rw [if_pos (length_largeSends_le paired sends)]
  refine ⟨sends.sent, fun _ => sends.called (by simp [testing]), sends.room, ?_, sends.known,
    sends.distinct, ⟨distinct, fun j member => ?_⟩, ?_, fun other => absurd rfl other, ?_,
    by simp⟩
  · simp [sends.lengths]
  · rcases active j member with ⟨chunk, found⟩
    rw [sends.lengths]
    exact (List.getElem?_eq_some_iff.mp found).1
  · intro j send req foundSend foundReq
    have more := large send (List.mem_of_getElem? foundSend)
    refine ⟨?_, fun _ => more⟩
    rw [List.getElem?_mapIdx] at foundReq
    rcases Option.map_eq_some_iff.mp foundReq with ⟨before, found, rfl⟩
    by_cases chosen : j ∈ ready
    · simp [chosen]
    · have pending := (sends.pending j send before foundSend found).1
      rw [idle] at pending
      simpa [chosen] using pending
  · intro now
    simp [Entered] at now

theorem probe_larges (sends : process.Sends plan p) :
    process.probe.largeSends.length = process.probe.largeRequests.length ∧
      process.probe.larges.Perm (process.larges.filter fun large => large.2.isSome) := by
  apply dequeue_larges _ _ sends.lengths le_rfl
  intro j beyond null
  have inside := (List.getElem?_eq_some_iff.mp null).1
  omega

theorem isSome_iff (sends : process.Sends plan p) (handled : process.ready = [])
    {send : Send n Byte} {req : Request n Byte} (member : (send, req) ∈ process.larges) :
    req.isSome ↔ plan.maxMpiMsgSize < send.size := by
  rcases List.mem_iff_getElem?.mp member with ⟨j, found⟩
  rcases List.getElem?_zip_eq_some.mp found with ⟨foundSend, foundReq⟩
  have pending := (sends.pending j send req foundSend foundReq).1
  rw [handled] at pending
  cases req with
  | none => simpa using pending
  | some chunk => simpa using pending

/-- Of the large sends, those with a chunk to go are left. -/
theorem mem_probe (sends : process.Sends plan p) (handled : process.ready = [])
    {send : Send n Byte} : send ∈ process.probe.largeSends ↔
      send ∈ process.largeSends ∧ plan.maxMpiMsgSize < send.size := by
  rcases probe_larges sends with ⟨lengths, shuffled⟩
  have after : process.probe.larges.map Prod.fst = process.probe.largeSends :=
    List.map_fst_zip lengths.le
  have before : process.larges.map Prod.fst = process.largeSends :=
    List.map_fst_zip sends.lengths.le
  rw [← after, ← before]
  constructor
  · intro member
    rcases List.mem_map.mp member with ⟨⟨send, req⟩, listed, rfl⟩
    rcases List.mem_filter.mp (shuffled.mem_iff.mp listed) with ⟨inside, some⟩
    exact ⟨List.mem_map_of_mem inside, (isSome_iff sends handled inside).mp some⟩
  · rintro ⟨member, more⟩
    rcases List.mem_map.mp member with ⟨⟨send, req⟩, inside, rfl⟩
    have some := (isSome_iff sends handled inside).mpr more
    exact List.mem_map_of_mem (shuffled.mem_iff.mpr (List.mem_filter.mpr ⟨inside, some⟩))

theorem probe_mesgs (sends : process.Sends plan p) :
    (process.probe.largeSends.map Send.mesg).Nodup := by
  rcases probe_larges sends with ⟨lengths, shuffled⟩
  have after : process.probe.larges.map Prod.fst = process.probe.largeSends :=
    List.map_fst_zip lengths.le
  have before : process.larges.map Prod.fst = process.largeSends :=
    List.map_fst_zip sends.lengths.le
  rw [← after, (shuffled.map Prod.fst |>.map Send.mesg).nodup_iff]
  apply List.Nodup.sublist _ (before ▸ sends.distinct)
  exact (List.filter_sublist.map Prod.fst).map Send.mesg

theorem probe_frame : process.probe = { process with
    phase := .probing
    largeSends := process.probe.largeSends
    largeRequests := process.probe.largeRequests } := by
  unfold probe
  rw [dequeue_frame]

theorem probe_sends (sends : process.Sends plan p) (continuing : process.phase = .continuing)
    (handled : process.ready = []) : process.probe.Sends plan p := by
  rcases probe_larges sends with ⟨lengths, shuffled⟩
  have todo := sends.called (by simp [continuing])
  rw [probe_frame]
  refine ⟨sends.sent, fun _ => todo, sends.room, lengths, ?_, probe_mesgs sends, ?_, ?_, ?_, ?_,
    by simp⟩
  · intro send member
    exact sends.known send ((mem_probe sends handled).mp member).1
  · simp [handled]
  · intro j send req foundSend foundReq
    have member : (send, req) ∈ process.probe.larges :=
      List.mem_of_getElem? (List.getElem?_zip_eq_some.mpr ⟨foundSend, foundReq⟩)
    rcases List.mem_filter.mp (shuffled.mem_iff.mp member) with ⟨inside, some⟩
    have more := (isSome_iff sends handled inside).mp some
    dsimp only
    rw [handled]
    refine ⟨⟨fun none => ?_, fun last => ?_⟩, by simp⟩
    · rw [none] at some
      cases some
    · simp at last
      omega
  · exact fun _ => ⟨handled, fun send member => ((mem_probe sends handled).mp member).2⟩
  · intro now
    simp [Entered] at now

theorem probe_unsent (sends : process.Sends plan p) (continuing : process.phase = .continuing)
    (handled : process.ready = []) : process.probe.unsent plan p = process.unsent plan p := by
  have after := probe_sends sends continuing handled
  have sent : process.probe.sent = process.sent := by rw [probe_frame]
  funext mesg
  rcases Nat.lt_or_ge mesg process.sent with before | later
  · by_cases listed : ∃ send ∈ process.largeSends, send.mesg = mesg
    · rcases listed with ⟨send, member, rfl⟩
      rw [unsent_of_mem sends member]
      by_cases more : plan.maxMpiMsgSize < send.size
      · exact unsent_of_mem after ((mem_probe sends handled).mpr ⟨member, more⟩)
      · have known := sends.known send member
        have gone : ∀ other ∈ process.probe.largeSends, other.mesg ≠ send.mesg := by
          intro other stays same
          rcases (mem_probe sends handled).mp stays with ⟨among, large⟩
          obtain rfl := List.inj_on_of_nodup_map sends.distinct among member same
          exact more large
        rw [unsent_of_not_mem (sent ▸ before) gone, left,
          cut_nil (by rw [List.length_drop]; omega)]
    · have absent : ∀ send ∈ process.largeSends, send.mesg ≠ mesg :=
        fun send member same => listed ⟨send, member, same⟩
      rw [unsent_of_not_mem before absent]
      apply unsent_of_not_mem (sent ▸ before)
      exact fun send member => absent send ((mem_probe sends handled).mp member).1
  · rw [unsent, unsent, sent, if_pos later, if_pos later]

end Test

section Resume

variable {j : ℕ} {ready : List ℕ}

/-- The send after its next chunk has been posted. -/
def advanced (plan : Plan n Byte) (send : Send n Byte) : Send n Byte :=
  { send with
    addr := send.addr + plan.maxMpiMsgSize
    size := send.size - plan.maxMpiMsgSize }

theorem left_eq {send : Send n Byte} (fits : send.addr + send.size = send.buf.length)
    (more : plan.maxMpiMsgSize < send.size) :
    left plan p send = ⟨p, send.dstPid, send.tag, send.mesg,
      (send.buf.drop (send.addr + plan.maxMpiMsgSize)).take
        (min plan.maxMpiMsgSize (send.size - plan.maxMpiMsgSize))⟩ ::
      left plan p (advanced plan send) := by
  have rest : (send.buf.drop (send.addr + plan.maxMpiMsgSize)).length =
      send.size - plan.maxMpiMsgSize := by
    rw [List.length_drop]
    omega
  have positive := plan.max_pos
  rw [← rest, take_min, left, cut_eq (by omega), List.drop_drop]
  rfl

theorem resume_eq (sends : process.Sends plan p) (next : process.ready = j :: ready) :
    ∃ send chunk, process.largeSends[j]? = some send ∧
      left plan p send = chunk :: left plan p (advanced plan send) ∧
      chunk.message = (p, send.mesg) ∧ plan.maxMpiMsgSize < send.size ∧
      (process.resume plan.maxMpiMsgSize p j ready).2 = [chunk] ∧
      ∃ imsgs, (process.resume plan.maxMpiMsgSize p j ready).1 = { process with
        ready := ready
        imsgs := imsgs
        largeSends := process.largeSends.set j (advanced plan send)
        largeRequests := if send.size - plan.maxMpiMsgSize ≤ plan.maxMpiMsgSize then
          process.largeRequests else process.largeRequests.set j (some chunk) } := by
  have chosen : j ∈ process.ready := by rw [next]; exact List.mem_cons_self
  have inside := sends.ready.2 j chosen
  have foundSend := List.getElem?_eq_getElem inside
  have foundReq := List.getElem?_eq_getElem (sends.lengths ▸ inside)
  have more := (sends.pending j _ _ foundSend foundReq).2 chosen
  have known := sends.known _ (List.mem_of_getElem? foundSend)
  refine ⟨_, _, foundSend, left_eq known.2.2 more, rfl, more, ?_⟩
  unfold resume
  rw [foundSend]
  dsimp only
  rw [if_neg more.not_ge]
  split
  · exact ⟨rfl, _, rfl⟩
  · exact ⟨rfl, _, rfl⟩

theorem resume_sends (sends : process.Sends plan p) (continuing : process.phase = .continuing)
    (next : process.ready = j :: ready) :
    (process.resume plan.maxMpiMsgSize p j ready).1.Sends plan p := by
  rcases resume_eq sends next with ⟨send, chunk, found, _, _, more, _, imsgs, equal⟩
  have distinct := sends.ready.1
  rw [next, List.nodup_cons] at distinct
  have known := sends.known send (List.mem_of_getElem? found)
  have mesgs : (process.largeSends.set j (advanced plan send)).map Send.mesg =
      process.largeSends.map Send.mesg := by
    obtain ⟨inside, rfl⟩ := List.getElem?_eq_some_iff.mp found
    have bound : j < (process.largeSends.map Send.mesg).length := by simpa using inside
    have same : (advanced plan process.largeSends[j]).mesg =
        (process.largeSends.map Send.mesg)[j] := by simp [advanced]
    rw [List.map_set]
    rw [same, List.set_getElem_self]
  rw [equal]
  refine ⟨sends.sent, fun _ => sends.called (by simp [continuing]), sends.room, ?_, ?_,
    mesgs ▸ sends.distinct, ⟨distinct.2, ?_⟩, ?_, fun other => absurd continuing other, ?_,
    sends.sound⟩
  · dsimp only
    split <;> simp [sends.lengths]
  · intro item member
    rcases List.mem_or_eq_of_mem_set member with before | rfl
    · exact sends.known item before
    · refine ⟨known.1, known.2.1, ?_⟩
      simp only [advanced]
      omega
  · intro i member
    rw [List.length_set]
    exact sends.ready.2 i (next ▸ List.mem_cons_of_mem _ member)
  · intro i item req foundSend foundReq
    dsimp only at foundSend foundReq ⊢
    rw [List.getElem?_set] at foundSend
    by_cases same : j = i
    · subst same
      have inside := (List.getElem?_eq_some_iff.mp found).1
      rw [if_pos rfl, if_pos inside] at foundSend
      obtain rfl := Option.some.inj foundSend
      refine ⟨?_, fun later => absurd later distinct.1⟩
      simp only [advanced]
      split at foundReq
      · rename_i last
        have null : req = none :=
          (sends.pending j send req found foundReq).1.mpr (Or.inl (by simp [next]))
        simp [null, last]
      · rename_i further
        rw [List.getElem?_set, if_pos rfl, if_pos (sends.lengths ▸ inside)] at foundReq
        obtain rfl := Option.some.inj foundReq
        simp [distinct.1]
        omega
    · rw [if_neg same] at foundSend
      have before : process.largeRequests[i]? = some req := by
        split at foundReq
        · exact foundReq
        · rwa [List.getElem?_set, if_neg same] at foundReq
      have pending := sends.pending i item req foundSend before
      rw [next] at pending
      simpa [Ne.symm same] using pending
  · intro now
    simp [Entered, continuing] at now

theorem resume_advances (sends : process.Sends plan p) (next : process.ready = j :: ready) :
    process.Advances plan p (process.resume plan.maxMpiMsgSize p j ready).1
      (process.resume plan.maxMpiMsgSize p j ready).2 := by
  rcases resume_eq sends next with ⟨send, chunk, found, parts, key, _, new, imsgs, equal⟩
  have member := List.mem_of_getElem? found
  have before := (sends.known send member).1
  obtain ⟨inside, here⟩ := List.getElem?_eq_some_iff.mp found
  have whole : process.largeSends =
      process.largeSends.take j ++ send :: process.largeSends.drop (j + 1) := by
    rw [← here, List.getElem_cons_drop, List.take_append_drop]
  rw [new, equal]
  refine ⟨?_, fun mesg => ?_⟩
  · intro other single
    rw [List.mem_singleton.mp single]
    exact congrArg Prod.fst key
  unfold unsent
  dsimp only
  by_cases same : send.mesg = mesg
  · subst same
    have others := on_of_nodup sends.distinct member
    rw [whole, on_append, on_cons, if_pos rfl] at others
    have around : on Send.mesg send.mesg (process.largeSends.take j) = [] ∧
        on Send.mesg send.mesg (process.largeSends.drop (j + 1)) = [] := by
      have length := congrArg List.length others
      rw [List.length_append, List.length_cons, List.length_singleton] at length
      exact ⟨List.eq_nil_of_length_eq_zero (by omega), List.eq_nil_of_length_eq_zero (by omega)⟩
    rw [if_neg before.not_ge, if_neg before.not_ge, on_of_nodup sends.distinct member,
      List.set_eq_take_append_cons_drop, if_pos inside, on_append, around.1,
      on_cons Send.mesg, if_pos (show (advanced plan send).mesg = send.mesg from rfl), around.2,
      List.nil_append, List.flatMap_singleton, List.flatMap_singleton, parts,
      on_cons Chunk.message, if_pos key, on_nil]
    rfl
  · have unchanged : on Send.mesg mesg (process.largeSends.set j (advanced plan send)) =
        on Send.mesg mesg process.largeSends := by
      conv => rhs; rw [whole]
      rw [List.set_eq_take_append_cons_drop, if_pos inside, on_append, on_append, on_cons,
        on_cons, if_neg (show ¬(advanced plan send).mesg = mesg from same), if_neg same]
    have other : chunk.message ≠ (p, mesg) := by
      rw [key]
      intro wrong
      exact same (congrArg Prod.snd wrong)
    rw [unchanged, on_cons, if_neg other, on_nil, List.nil_append]

end Resume

end Local

end PointToPoint

end Talpf
