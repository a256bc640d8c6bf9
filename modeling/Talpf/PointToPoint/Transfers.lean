import Talpf.PointToPoint.Receiving

/-!
# Chunked transfers lose nothing

What the senders have posted and what the receivers have got is related by the
channels between them.  When all processes have returned from `iwaitall`, every
message has been transferred completely, in as few chunks as possible.
-/

namespace Talpf

namespace PointToPoint

universe u

variable {n : ℕ} {Byte : Type u} {plan : Plan n Byte} {state : State n Byte}

open Channels

/-- What holds at every moment. -/
structure Sound (plan : Plan n Byte) (state : State n Byte) : Prop where
  conserved : Conserved Chunk.route state.posted state.taken state.inFlight
  sends : ∀ p, (state.process p).Sends plan p
  tally : ∀ p mesg, on Chunk.message (p, mesg) state.posted ++
    (state.process p).unsent plan p mesg = plan.pieces (p, mesg)
  receives : ∀ p, (state.process p).Receives plan p state.taken

namespace Sound

theorem initial (paired : plan.Paired) : Sound plan (State.initial plan) := by
  have posting : ∀ p, (Local.initial plan p).phase = .posting := by
    intro p
    exact if_neg (paired.reserved p).not_gt
  refine ⟨Conserved.empty, fun p => ?_, fun p mesg => ?_, fun p => ?_⟩
  · refine ⟨rfl, fun other => absurd (posting p) other, rfl, rfl, ?_, List.nodup_nil,
      ⟨List.nodup_nil, ?_⟩, ?_, fun _ => ⟨rfl, ?_⟩, fun _ => rfl, ?_⟩
    · simp [State.initial, Local.initial]
    · simp [State.initial, Local.initial]
    · simp [State.initial, Local.initial]
    · simp [State.initial, Local.initial]
    · simp [State.initial, posting p]
  · have first : (Local.initial plan p).unsent plan p mesg = plan.pieces (p, mesg) :=
      if_pos (Nat.zero_le mesg)
    exact first
  · refine ⟨⟨rfl, Nat.zero_le _, ?_⟩, fun _ => ⟨rfl, ?_⟩, fun _ => ⟨rfl, rfl⟩, ?_, ?_, ?_⟩
    · simp [State.initial, Local.initial]
    · simp [State.initial, Local.initial]
    · simp [State.initial, Local.Looping, posting p]
    · simp [State.initial, Local.Entered, posting p]
    · simp [State.initial, Local.Entered, posting p]

theorem mem_pieces (sound : Sound plan state) {chunk : Chunk n Byte}
    (member : chunk ∈ state.posted) :
    ∃ send, (plan.isends chunk.src)[chunk.mesg]? = some send ∧ chunk.dst = send.destPid ∧
      chunk.tag = send.tag := by
  have piece : chunk ∈ plan.pieces (chunk.src, chunk.mesg) := by
    rw [← sound.tally]
    exact List.mem_append_left _ (mem_on.mpr ⟨member, rfl⟩)
  unfold Plan.pieces at piece
  dsimp only at piece
  cases found : (plan.isends chunk.src)[chunk.mesg]? with
  | none =>
      rw [found] at piece
      cases piece
  | some send =>
      rw [found] at piece
      have key := cut_labelled chunk piece
      exact ⟨send, rfl, key.2⟩

theorem posted_of_taken (sound : Sound plan state) {chunk : Chunk n Byte}
    (member : chunk ∈ state.taken) : chunk ∈ state.posted :=
  sound.conserved.perm.mem_iff.mpr (List.mem_append_left _ member)

section Message

variable {src : Fin n} {mesg : ℕ} {send : Isend n Byte}

/-- Of a message, the chunks received, in flight and not yet sent follow on each other. -/
theorem progress (sound : Sound plan state) (found : (plan.isends src)[mesg]? = some send) :
    on Chunk.message (src, mesg) state.taken ++
        (on Chunk.message (src, mesg) state.inFlight ++
          (state.process src).unsent plan src mesg) =
      cut plan.maxMpiMsgSize src mesg send.destPid send.tag send.buf := by
  have routed : ∀ chunk ∈ state.posted, chunk.message = (src, mesg) →
      chunk.route = (src, send.destPid, send.tag) := by
    intro chunk member key
    simp only [Chunk.message, Prod.mk.injEq] at key
    rcases sound.mem_pieces member with ⟨send', found', goal, tag⟩
    rw [key.1, key.2] at found'
    obtain rfl := Option.some.inj (found.symm.trans found')
    simp [Chunk.route, key.1, goal, tag]
  have tally := sound.tally src mesg
  rw [sound.conserved.on_label routed, List.append_assoc] at tally
  rw [tally]
  unfold Plan.pieces
  rw [found]

/-- What a process receives with a tag are the chunks of one message. -/
theorem on_target (paired : plan.Paired) (sound : Sound plan state)
    (found : (plan.isends src)[mesg]? = some send) :
    on Chunk.target (send.destPid, send.tag) state.taken =
      on Chunk.message (src, mesg) state.taken := by
  apply List.filter_congr
  intro chunk member
  rcases sound.mem_pieces (sound.posted_of_taken member) with ⟨send', found', goal, tag⟩
  apply decide_eq_decide.mpr
  simp only [Chunk.target, Chunk.message, Prod.mk.injEq]
  constructor
  · rintro ⟨goal', tag'⟩
    exact paired.unique _ _ _ _ _ _ found' found (goal.symm.trans goal') (tag.symm.trans tag')
  · rintro ⟨rfl, rfl⟩
    obtain rfl := Option.some.inj (found.symm.trans found')
    exact ⟨goal, tag⟩

theorem bytes_cut {maxSize tag : ℕ} {dst : Fin n} {data : List Byte} :
    (cut maxSize src mesg dst tag data).map Chunk.bytes = split maxSize data := by
  unfold cut
  rw [List.map_map]
  exact List.map_id _

end Message

/-- A chunk that can be received is the next one of the message with its tag. -/
theorem expected (paired : plan.Paired) (sound : Sound plan state) {chunk : Chunk n Byte}
    {rest : List (Chunk n Byte)} (next : Takes Chunk.route state.inFlight chunk rest) :
    ∃ recv, Local.Expected plan state.taken chunk recv := by
  have posted := sound.conserved.perm.mem_iff.mpr (List.mem_append_right _ next.mem)
  rcases sound.mem_pieces posted with ⟨send, found, goal, tag⟩
  rcases paired.received _ _ _ found with ⟨recv, foundRecv, _, sizes⟩
  have parts := sound.progress found
  have first : on Chunk.message chunk.message state.inFlight =
      chunk :: on Chunk.message chunk.message rest := by
    apply next.on_label
    intro other member same
    have listed := sound.conserved.perm.mem_iff.mpr (List.mem_append_right _ member)
    rcases sound.mem_pieces listed with ⟨send', found', goal', tag'⟩
    simp only [Chunk.message, Prod.mk.injEq] at same
    rw [same.1, same.2] at found'
    obtain rfl := Option.some.inj (found.symm.trans found')
    simp [Chunk.route, same.1, goal, goal', tag, tag']
  rw [show (chunk.src, chunk.mesg) = chunk.message from rfl] at parts
  rw [first, List.cons_append] at parts
  have pieces := congrArg (List.map Chunk.bytes) parts
  rw [bytes_cut, List.map_append, List.map_cons] at pieces
  rcases split_next plan.max_pos pieces.symm with ⟨started, _, bytes⟩
  have here : arrived state.taken chunk.dst chunk.tag =
      ((on Chunk.message chunk.message state.taken).map Chunk.bytes).flatten := by
    unfold arrived
    rw [goal, tag, on_target paired sound found, List.flatMap_def]
    rfl
  rw [← here] at started bytes
  refine ⟨recv, ?_, ?_, ?_⟩
  · rw [goal, tag]
    exact foundRecv
  · rwa [sizes]
  · rw [bytes, List.length_take, List.length_drop, sizes]

theorem forall_set {Holds : Fin n → Local n Byte → Prop} {p : Fin n} {after : Local n Byte}
    (before : ∀ q, Holds q (state.process q)) (moved : Holds p after) (q : Fin n) :
    Holds q (Function.update state.process p after q) := by
  by_cases same : q = p
  · subst same
    rwa [Function.update_self]
  · rw [Function.update_of_ne same]
    exact before q

theorem tally_set (sound : Sound plan state) {p : Fin n} {after : Local n Byte}
    {new : List (Chunk n Byte)} (advances : (state.process p).Advances plan p after new)
    (q : Fin n) (mesg : ℕ) :
    on Chunk.message (q, mesg) (state.posted ++ new) ++
        (Function.update state.process p after q).unsent plan q mesg = plan.pieces (q, mesg) := by
  rw [on_append, List.append_assoc]
  by_cases same : q = p
  · subst same
    rw [Function.update_self, advances.2, sound.tally]
  · have elsewhere : on Chunk.message (q, mesg) new = [] := by
      apply on_eq_nil
      intro chunk member key
      have source := congrArg Prod.fst key
      exact same (source.symm.trans (advances.1 chunk member))
    rw [Function.update_of_ne same, elsewhere, List.nil_append, sound.tally]

/-- A step of a process that posts chunks. -/
theorem post (sound : Sound plan state) {p : Fin n} {after : Local n Byte}
    {new : List (Chunk n Byte)} (sends : after.Sends plan p)
    (advances : (state.process p).Advances plan p after new)
    (receives : after.Receives plan p state.taken) :
    Sound plan ((state.set p after).post new) :=
  ⟨sound.conserved.post new, forall_set sound.sends sends, sound.tally_set advances,
    forall_set sound.receives receives⟩

/-- A step of a process that posts nothing. -/
theorem move (sound : Sound plan state) {p : Fin n} {after : Local n Byte}
    (sends : after.Sends plan p) (unsent : after.unsent plan p = (state.process p).unsent plan p)
    (receives : after.Receives plan p state.taken) : Sound plan (state.set p after) := by
  have tally := sound.tally_set (Local.advances_nil unsent)
  simp only [List.append_nil] at tally
  exact ⟨sound.conserved, forall_set sound.sends sends, tally, forall_set sound.receives receives⟩

/-- A receive that is posted is one of the plan, and its tag is within the bound of MPI. -/
theorem irecv (paired : plan.Paired) (sound : Sound plan state) {p : Fin n} {recv : Irecv n Byte}
    {rest : List (Call n Byte)} (posting : (state.process p).phase = .posting)
    (next : (state.process p).todo = .irecv recv :: rest) :
    Sound plan (state.set p ({ state.process p with todo := rest }.irecv recv)) := by
  have sends := sound.sends p
  have receives := Local.irecv_receives paired (sound.receives p) posting next
  have tag := Local.irecv_tag paired (sound.receives p) posting next
  refine sound.move ?_ ?_ receives
  · unfold Local.irecv
    rw [if_pos tag]
    have sent := sends.sent
    rw [next, List.filterMap_cons_none
      (show Call.isend? (.irecv recv) = none from rfl)] at sent
    exact ⟨sent, fun other => absurd posting other, sends.room, sends.lengths, sends.known,
      sends.distinct, sends.ready, sends.pending, sends.settled, sends.finished, sends.sound⟩
  · unfold Local.irecv
    rw [if_pos tag]
    rfl

theorem testsome (paired : plan.Paired) (sound : Sound plan state) {p : Fin n} {ready : List ℕ}
    (testing : (state.process p).phase = .testing) (distinct : ready.Nodup)
    (active : ∀ j ∈ ready, ∃ chunk, (state.process p).largeRequests[j]? = some (some chunk)) :
    Sound plan (state.set p ((state.process p).testsome ready)) := by
  have sends := Local.testsome_sends paired (sound.sends p) testing distinct active
  have room := Local.length_largeSends_le paired (sound.sends p)
  refine sound.move sends ?_ ?_
  · unfold Local.testsome
    rw [if_pos room]
    rfl
  · refine (sound.receives p).loop (Or.inl testing) ?_ ?_ ?_ ?_ ?_
    all_goals
      unfold Local.testsome
      rw [if_pos room]
    exact Or.inr (Or.inl rfl)

/-- A chunk that arrives belongs to a receive that waits for it. -/
theorem receive (paired : plan.Paired) (sound : Sound plan state) {p : Fin n}
    {chunk : Chunk n Byte} {rest : List (Chunk n Byte)}
    (probing : (state.process p).phase = .probing) (arrived : chunk.dst = p)
    (next : Channels.Takes Chunk.route state.inFlight chunk rest) :
    Sound plan
      ((state.set p ((state.process p).receive plan.maxMpiMsgSize chunk)).take chunk rest) := by
  rcases sound.expected paired next with ⟨recv, expected⟩
  have called := (sound.sends p).called (by simp [probing])
  rcases Local.receive_eq (sound.receives p) probing called arrived expected with
    ⟨memory, irecvs, nMsgs, equal, filled, tabled, counted⟩
  have proceeded : Local.Sends plan p { state.process p with
      memory := memory, irecvs := irecvs, nMsgs := nMsgs } :=
    (sound.sends p).proceed (sound.sends p).called (fun other => other)
      (sound.sends p).finished (sound.sends p).sound
  have sends := proceeded.head called (by simp [probing])
  have unsent : (Local.head { state.process p with
      memory := memory, irecvs := irecvs, nMsgs := nMsgs }).unsent plan p =
    (state.process p).unsent plan p := Local.head_unsent
  rw [equal]
  have moved := sound.tally_set (Local.advances_nil unsent)
  simp only [List.append_nil] at moved
  refine ⟨sound.conserved.take next, forall_set sound.sends sends, moved, fun q => ?_⟩
  by_cases same : q = p
  · subst same
    simp only [State.take, State.set, Function.update_self]
    exact Local.head_receives filled tabled counted
  · simp only [State.take, State.set, Function.update_of_ne same]
    exact (sound.receives q).elsewhere fun equal => same (equal.symm.trans arrived)

theorem step (paired : plan.Paired) (sound : Sound plan state) {after : State n Byte}
    (step : Step plan state after) : Sound plan after := by
  cases step with
  | @isend p send rest posting next =>
      have sends := sound.sends p
      exact sound.post (Local.isend_sends sends posting next) (Local.isend_advances sends next)
        (Local.isend_receives (sound.receives p) posting next)
  | irecv posting next => exact sound.irecv paired posting next
  | @iwaitall p posting done =>
      have sends : Local.Sends plan p { state.process p with
          nMsgs := (state.process p).irecvs.length - (state.process p).emptyRecvs } :=
        (sound.sends p).proceed (sound.sends p).called (fun other => other)
          (sound.sends p).finished (sound.sends p).sound
      exact sound.move (sends.head done (by simp [posting])) (Local.head_unsent)
        (Local.iwaitall_receives (sound.receives p) posting done)
  | testsome testing distinct active => exact sound.testsome paired testing distinct active
  | @resume p j ready continuing next =>
      have sends := sound.sends p
      rcases Local.resume_eq sends next with ⟨_, _, _, _, _, _, _, _, equal⟩
      refine sound.post (Local.resume_sends sends continuing next)
        (Local.resume_advances sends next) ?_
      have looping : (state.process p).Looping := Or.inr (Or.inl continuing)
      rw [equal]
      exact (sound.receives p).loop looping looping rfl rfl rfl rfl
  | @dequeue p continuing handled =>
      have sends := sound.sends p
      refine sound.move (Local.probe_sends sends continuing handled)
        (Local.probe_unsent sends continuing handled) ?_
      rw [Local.probe_frame]
      exact (sound.receives p).loop (Or.inr (Or.inl continuing)) (Or.inr (Or.inr rfl)) rfl rfl rfl
        rfl
  | @idle p probing =>
      have sends := sound.sends p
      have receives := sound.receives p
      have looping : (state.process p).Looping := Or.inr (Or.inr probing)
      exact sound.move (sends.head (sends.called (by simp [probing])) (by simp [probing]))
        Local.head_unsent (Local.head_receives receives.filled (receives.tabled (Or.inr looping))
          (receives.counted looping))
  | receive probing arrived next => exact sound.receive paired probing arrived next
  | @waitall p waiting =>
      have sends := sound.sends p
      have receives := sound.receives p
      have empty := sends.finished (Or.inl waiting)
      refine sound.move (sends.proceed (fun _ => sends.called (by simp [waiting]))
        (by simp [waiting]) (fun _ => empty) (by simp)) rfl ?_
      exact ⟨⟨receives.filled.recvd, receives.filled.bound, receives.filled.memory⟩,
        by simp [Local.Looping, Local.waitall], by simp [Local.waitall],
        by simp [Local.Looping, Local.waitall], fun _ => receives.closed (Or.inl waiting),
        fun _ => rfl⟩
  | @leave p entered all =>
      have sends := sound.sends p
      have receives := sound.receives p
      have inside : (state.process p).Entered := Or.inl entered
      have empty := sends.finished (Or.inr inside)
      refine sound.move (sends.proceed (fun _ => sends.called (by simp [entered]))
        (by simp [entered]) (fun _ => empty) (by simp)) rfl ?_
      exact ⟨⟨receives.filled.recvd, receives.filled.bound, receives.filled.memory⟩,
        by simp [Local.Looping], by simp, by simp [Local.Looping],
        fun _ => receives.closed (Or.inr inside), fun _ => receives.imsgs inside⟩

end Sound

theorem sound_of_reachable (paired : plan.Paired) (run : Reachable plan state) :
    Sound plan state := by
  induction run with
  | refl => exact Sound.initial paired
  | tail _ next ih => exact ih.step paired next

/-- Every message has arrived in as few chunks as possible, and all tables are empty. -/
structure Transferred (plan : Plan n Byte) (state : State n Byte) : Prop where
  delivered : ∀ (src : Fin n) (mesg : ℕ) (send : Isend n Byte),
    (plan.isends src)[mesg]? = some send →
      (state.process send.destPid).memory[send.tag]? = some send.buf
  filled : ∀ (dst : Fin n) (tag : ℕ) (recv : Irecv n Byte), (plan.irecvs dst)[tag]? = some recv →
    ∃ send ∈ plan.isends recv.srcPid, send.destPid = dst ∧ send.tag = tag ∧
      (state.process dst).memory[tag]? = some send.buf
  posted : ∀ (src : Fin n) (mesg : ℕ) (send : Isend n Byte),
    (plan.isends src)[mesg]? = some send →
      (on Chunk.message (src, mesg) state.posted).length =
        send.buf.length ⌈/⌉ plan.maxMpiMsgSize
  taken : ∀ (src : Fin n) (mesg : ℕ) (send : Isend n Byte),
    (plan.isends src)[mesg]? = some send →
      (on Chunk.message (src, mesg) state.taken).length =
        send.buf.length ⌈/⌉ plan.maxMpiMsgSize
  landed : state.inFlight = []
  largeSends : ∀ p, (state.process p).largeSends = []
  largeRequests : ∀ p, (state.process p).largeRequests = []
  irecvs : ∀ p, (state.process p).irecvs = []
  imsgs : ∀ p, (state.process p).imsgs = []
  emptyRecvs : ∀ p, (state.process p).emptyRecvs = 0

namespace Sound

/-- A receive is complete once its process has left the loop. -/
theorem full (sound : Sound plan state) {p : Fin n} (entered : (state.process p).Entered)
    {tag : ℕ} {recv : Irecv n Byte} (found : (plan.irecvs p)[tag]? = some recv) :
    recv.buf.length ≤ (arrived state.taken p tag).length := by
  have none := ((sound.receives p).closed (Or.inr entered)).1
  have counted := List.countP_eq_zero.mp none (recv, tag)
    (List.mem_zipIdx_iff_getElem?.mpr found)
  simpa using counted

section Message

variable {src : Fin n} {mesg : ℕ} {send : Isend n Byte}

theorem complete (paired : plan.Paired) (sound : Sound plan state)
    (found : (plan.isends src)[mesg]? = some send)
    (entered : (state.process send.destPid).Entered) :
    on Chunk.message (src, mesg) state.taken =
        cut plan.maxMpiMsgSize src mesg send.destPid send.tag send.buf ∧
      on Chunk.message (src, mesg) state.inFlight = [] := by
  rcases paired.received _ _ _ found with ⟨recv, foundRecv, _, sizes⟩
  have parts := sound.progress found
  cases rest : on Chunk.message (src, mesg) state.inFlight ++
      (state.process src).unsent plan src mesg with
  | nil =>
      rw [rest, List.append_nil] at parts
      exact ⟨parts, (List.append_eq_nil_iff.mp rest).1⟩
  | cons chunk later =>
      rw [rest] at parts
      have pieces := congrArg (List.map Chunk.bytes) parts
      rw [bytes_cut, List.map_append, List.map_cons] at pieces
      have started := (split_next plan.max_pos pieces.symm).1
      have full := sound.full entered foundRecv
      rw [arrived, on_target paired sound found, List.flatMap_def] at full
      omega

theorem arrived_eq (paired : plan.Paired) (sound : Sound plan state)
    (found : (plan.isends src)[mesg]? = some send)
    (entered : (state.process send.destPid).Entered) :
    arrived state.taken send.destPid send.tag = send.buf := by
  rw [arrived, on_target paired sound found, (complete paired sound found entered).1,
    List.flatMap_def, bytes_cut, flatten_split plan.max_pos]

theorem delivered (paired : plan.Paired) (sound : Sound plan state)
    (found : (plan.isends src)[mesg]? = some send)
    (entered : (state.process send.destPid).Entered) :
    (state.process send.destPid).memory[send.tag]? = some send.buf := by
  rcases paired.received _ _ _ found with ⟨recv, foundRecv, _, sizes⟩
  have filled := (sound.receives send.destPid).filled
  have called : (state.process send.destPid).todo = [] := by
    apply (sound.sends send.destPid).called
    rcases entered with now | now <;> simp [now]
  have recvd := filled.recvd
  rw [called, List.filterMap_nil, List.drop_eq_nil_iff] at recvd
  have inside := (List.getElem?_eq_some_iff.mp foundRecv).1.trans_le recvd
  rw [filled.memory send.tag recv foundRecv inside, arrived_eq paired sound found entered,
    ← sizes, List.drop_length, List.append_nil]

end Message

theorem transferred (paired : plan.Paired) (sound : Sound plan state)
    (returned : ∀ p, (state.process p).phase = .returned) : Transferred plan state := by
  have entered : ∀ p, (state.process p).Entered := fun p => Or.inr (returned p)
  have empty : ∀ p, (state.process p).largeSends = [] :=
    fun p => (sound.sends p).finished (Or.inr (entered p))
  have landed : ∀ chunk, chunk ∉ state.inFlight := by
    intro chunk member
    have posted := sound.conserved.perm.mem_iff.mpr (List.mem_append_right _ member)
    rcases sound.mem_pieces posted with ⟨send, found, _⟩
    have none := (complete paired sound found (entered _)).2
    have listed : chunk ∈ on Chunk.message (chunk.src, chunk.mesg) state.inFlight :=
      mem_on.mpr ⟨member, rfl⟩
    rw [none] at listed
    cases listed
  have nothing : state.inFlight = [] := List.eq_nil_iff_forall_not_mem.mpr landed
  have taken : ∀ (src : Fin n) (mesg : ℕ) (send : Isend n Byte),
      (plan.isends src)[mesg]? = some send →
        (on Chunk.message (src, mesg) state.taken).length =
          send.buf.length ⌈/⌉ plan.maxMpiMsgSize := by
    intro src mesg send found
    rw [(complete paired sound found (entered _)).1, cut, List.length_map,
      length_split plan.max_pos]
  refine ⟨?_, ?_, ?_, taken, nothing, empty, ?_, ?_, ?_, ?_⟩
  · exact fun src mesg send found => delivered paired sound found (entered _)
  · intro dst tag recv found
    rcases paired.sent dst tag recv found with ⟨mesg, send, foundSend, rfl, rfl⟩
    exact ⟨send, List.mem_of_getElem? foundSend, rfl, rfl,
      delivered paired sound foundSend (entered _)⟩
  · intro src mesg send found
    have whole := sound.conserved.perm
    rw [nothing, List.append_nil] at whole
    have shuffled : (on Chunk.message (src, mesg) state.posted).Perm _ := perm_on whole _
    rw [shuffled.length_eq]
    exact taken src mesg send found
  · intro p
    have lengths := (sound.sends p).lengths
    rw [empty p] at lengths
    exact List.eq_nil_of_length_eq_zero lengths.symm
  · exact fun p => ((sound.receives p).closed (Or.inr (entered p))).2.1
  · exact fun p => (sound.receives p).imsgs (entered p)
  · exact fun p => ((sound.receives p).closed (Or.inr (entered p))).2.2

end Sound

/-- No assertion fails and MPI reports no error, and when all have returned, nothing is lost. -/
theorem transferred_of_returned (paired : plan.Paired) (run : Reachable plan state) :
    (∀ p, (state.process p).phase ≠ .failed) ∧
      ((∀ p, (state.process p).phase = .returned) → Transferred plan state) := by
  have sound := sound_of_reachable paired run
  exact ⟨fun p => (sound.sends p).sound, sound.transferred paired⟩

/-- Two bytes from the second process to the first, one a chunk. -/
def pair : Plan 2 ℕ where
  maxMpiMsgSize := 1
  max_pos := Nat.zero_lt_one
  reserved _ := 1
  calls p :=
    if p.val = 0 then [.irecv ⟨[0, 0], ⟨1, Nat.one_lt_two⟩, 0⟩]
    else [.isend ⟨[7, 8], ⟨0, Nat.zero_lt_two⟩, 0⟩]

theorem isends_pair {src : Fin 2} {mesg : ℕ} {send : Isend 2 ℕ}
    (found : (pair.isends src)[mesg]? = some send) :
    src = 1 ∧ mesg = 0 ∧ send = ⟨[7, 8], 0, 0⟩ := by
  have none : pair.isends 0 = [] := rfl
  have one : pair.isends 1 = [⟨[7, 8], 0, 0⟩] := rfl
  obtain rfl | rfl : src = 0 ∨ src = 1 := by omega
  · simp [none] at found
  · rw [one, List.getElem?_singleton] at found
    split at found
    · rename_i first
      exact ⟨rfl, first, (Option.some.inj found).symm⟩
    · cases found

theorem irecvs_pair {dst : Fin 2} {tag : ℕ} {recv : Irecv 2 ℕ}
    (found : (pair.irecvs dst)[tag]? = some recv) :
    dst = 0 ∧ tag = 0 ∧ recv = ⟨[0, 0], 1, 0⟩ := by
  have one : pair.irecvs 0 = [⟨[0, 0], 1, 0⟩] := rfl
  have none : pair.irecvs 1 = [] := rfl
  obtain rfl | rfl : dst = 0 ∨ dst = 1 := by omega
  · rw [one, List.getElem?_singleton] at found
    split at found
    · rename_i first
      exact ⟨rfl, first, (Option.some.inj found).symm⟩
    · cases found
  · simp [none] at found

theorem pair_paired : pair.Paired := by
  refine ⟨by decide, by decide, by decide, by decide, ?_, ?_, ?_⟩
  · intro src mesg send found
    obtain ⟨rfl, rfl, rfl⟩ := isends_pair found
    exact ⟨⟨[0, 0], 1, 0⟩, rfl, rfl, rfl⟩
  · intro dst tag recv found
    obtain ⟨rfl, rfl, rfl⟩ := irecvs_pair found
    exact ⟨0, ⟨[7, 8], 0, 0⟩, rfl, rfl, rfl⟩
  · intro src src' mesg mesg' send send' found found' _ _
    obtain ⟨rfl, rfl, rfl⟩ := isends_pair found
    obtain ⟨rfl, rfl, rfl⟩ := isends_pair found'
    exact ⟨rfl, rfl⟩

def firstChunk : Chunk 2 ℕ := ⟨⟨1, Nat.one_lt_two⟩, ⟨0, Nat.zero_lt_two⟩, 0, 0, [7]⟩

def lastChunk : Chunk 2 ℕ := ⟨⟨1, Nat.one_lt_two⟩, ⟨0, Nat.zero_lt_two⟩, 0, 0, [8]⟩

theorem transferred_of_returned_pair :
    ∃ state, Reachable pair state ∧ Transferred pair state ∧
      (state.process 0).memory = [[7, 8]] := by
  have run : Reachable pair (State.initial pair) := .refl
  have run := run.tail (.irecv (p := 0) rfl rfl)
  have run := run.tail (.isend (p := 1) rfl rfl)
  have run := run.tail (.iwaitall (p := 0) rfl rfl)
  have run := run.tail (.iwaitall (p := 1) rfl rfl)
  -- the second process continues its send
  have active : ∀ j ∈ [0], ∃ chunk, [some firstChunk][j]? = some (some chunk) := by
    intro j member
    obtain rfl := List.mem_singleton.mp member
    exact ⟨firstChunk, rfl⟩
  have run := run.tail (.testsome (p := 1) rfl (List.nodup_singleton 0) active)
  have run := run.tail (.resume (p := 1) rfl rfl)
  have run := run.tail (.dequeue (p := 1) rfl rfl)
  have run := run.tail (.idle (p := 1) rfl)
  -- the first one receives both chunks
  have run := run.tail (.testsome (p := 0) rfl List.nodup_nil (by simp))
  have run := run.tail (.dequeue (p := 0) rfl rfl)
  have run := run.tail (.receive (p := 0) rfl rfl (.intro [] firstChunk [lastChunk] (by simp)))
  have run := run.tail (.testsome (p := 0) rfl List.nodup_nil (by simp))
  have run := run.tail (.dequeue (p := 0) rfl rfl)
  have run := run.tail (.receive (p := 0) rfl rfl (.intro [] lastChunk [] (by simp)))
  have run := run.tail (.waitall (p := 0) rfl)
  have run := run.tail (.waitall (p := 1) rfl)
  have run := run.tail (.leave (p := 0) rfl (Fin.forall_fin_two.mpr ⟨Or.inl rfl, Or.inl rfl⟩))
  have run := run.tail (.leave (p := 1) rfl (Fin.forall_fin_two.mpr ⟨Or.inr rfl, Or.inl rfl⟩))
  have returned := (transferred_of_returned pair_paired run).2
  exact ⟨_, run, returned (Fin.forall_fin_two.mpr ⟨rfl, rfl⟩), rfl⟩

end PointToPoint

end Talpf
