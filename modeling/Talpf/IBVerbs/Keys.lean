import Talpf.IBVerbs.Registry
import Talpf.IBVerbs.Requests

/-!
# Addresses and keys

The device accepts a request whose remote address lies in an area of the peer
and whose remote key is the key of that same area.  All requests of puts and
gets are of this kind, except that a put of no bytes may have the address of the
end of the area.  The first request of an atomic operation is as well, but the
one that notifies the peer combines an address of the destination slot with the
key of the source slot, and it is accepted only if the peer's area of the source
slot contains that address.
-/

namespace Talpf

namespace IBVerbs

variable {n : ℕ}

/-- The area that process `pid` has registered under a slot contains `addr` and `length` bytes from
there on; `mr` is its region. -/
def Covers (verbs : IBVerbs n) (pid : Fin n) (slot addr length : ℕ) (mr : Mr) : Prop :=
  ∃ entry, verbs.memreg.record slot = some entry ∧ entry.mr = some mr ∧
    (entry.glob pid).addr ≤ addr ∧ addr < (entry.glob pid).addr + (entry.glob pid).size ∧
    addr + length ≤ (entry.glob pid).addr + (entry.glob pid).size

/-- The remote address and key of a request belong to one area of the peer, and the local ones, if
there is a local buffer, to one area of the process itself. -/
structure Matched (state : Fin n → IBVerbs n) (pid peer : Fin n) (request : SendWr) : Prop where
  remote : ∃ slot mr, (state peer).Covers peer slot request.remoteAddr request.sge.length mr ∧
    request.rkey = mr.rkey
  buffer : 0 < request.numSge → 0 < request.sge.length →
    ∃ slot mr, (state pid).Covers pid slot request.sge.addr request.sge.length mr ∧
      request.sge.lkey = mr.lkey

/-- Different regions in use have different keys, and none has the key that is announced for an
empty area. -/
structure DistinctKeys (verbs : IBVerbs n) : Prop where
  injective : ∀ slot other left right leftMr rightMr, verbs.memreg.record slot = some left →
    verbs.memreg.record other = some right → left.mr = some leftMr → right.mr = some rightMr →
      leftMr.rkey = rightMr.rkey → slot = other
  nonzero : ∀ slot entry mr, verbs.memreg.record slot = some entry → entry.mr = some mr →
    mr.rkey ≠ 0

/-- The operations. -/
inductive Operation (n : ℕ) where
  | put (srcSlot srcOffset : ℕ) (dstPid : Fin n) (dstSlot dstOffset size : ℕ)
  | get (srcPid : Fin n) (srcSlot srcOffset dstSlot dstOffset size : ℕ)
  | atomicFetchAndAdd (srcSlot srcOffset : ℕ) (dstPid : Fin n) (dstSlot dstOffset value : ℕ)
  | atomicCmpAndSwp (srcSlot srcOffset : ℕ) (dstPid : Fin n) (dstSlot dstOffset cmp swp : ℕ)

namespace Operation

/-- The list that is posted. -/
def requests (pid : Fin n) (verbs : IBVerbs n) (maxMsgSize : ℕ) (task : Task) :
    Operation n → Option (List SendWr)
  | .put srcSlot srcOffset dstPid dstSlot dstOffset size =>
      putRequests pid verbs maxMsgSize task srcSlot srcOffset dstPid dstSlot dstOffset size
  | .get srcPid srcSlot srcOffset dstSlot dstOffset size =>
      getRequests pid verbs maxMsgSize task srcPid srcSlot srcOffset dstSlot dstOffset size
  | .atomicFetchAndAdd srcSlot srcOffset dstPid dstSlot dstOffset value =>
      atomicFetchAndAddRequests pid verbs task srcSlot srcOffset dstPid dstSlot dstOffset value
  | .atomicCmpAndSwp srcSlot srcOffset dstPid dstSlot dstOffset cmp swp =>
      atomicCmpAndSwpRequests pid verbs task srcSlot srcOffset dstPid dstSlot dstOffset cmp swp

def peer : Operation n → Fin n
  | .put _ _ dstPid _ _ _ | .atomicFetchAndAdd _ _ dstPid _ _ _
  | .atomicCmpAndSwp _ _ dstPid _ _ _ _ => dstPid
  | .get srcPid _ _ _ _ _ => srcPid

/-- The slot and the offset on the side of the caller. -/
def near : Operation n → ℕ × ℕ
  | .put srcSlot srcOffset _ _ _ _ | .atomicFetchAndAdd srcSlot srcOffset _ _ _ _
  | .atomicCmpAndSwp srcSlot srcOffset _ _ _ _ _ => (srcSlot, srcOffset)
  | .get _ _ _ dstSlot dstOffset _ => (dstSlot, dstOffset)

/-- The slot and the offset on the side of the peer. -/
def far : Operation n → ℕ × ℕ
  | .put _ _ _ dstSlot dstOffset _ | .atomicFetchAndAdd _ _ _ dstSlot dstOffset _
  | .atomicCmpAndSwp _ _ _ dstSlot dstOffset _ _ => (dstSlot, dstOffset)
  | .get _ srcSlot srcOffset _ _ _ => (srcSlot, srcOffset)

def size : Operation n → ℕ
  | .put _ _ _ _ _ size | .get _ _ _ _ _ size => size
  | .atomicFetchAndAdd _ _ _ _ _ _ | .atomicCmpAndSwp _ _ _ _ _ _ _ => 8

def IsAtomic : Operation n → Prop
  | .put _ _ _ _ _ _ | .get _ _ _ _ _ _ => False
  | .atomicFetchAndAdd _ _ _ _ _ _ | .atomicCmpAndSwp _ _ _ _ _ _ _ => True

/-- A put of no bytes, which posts a request all the same. -/
def IsEmptyPut : Operation n → Prop
  | .put _ _ _ _ _ size => size = 0
  | .get _ _ _ _ _ _ | .atomicFetchAndAdd _ _ _ _ _ _ | .atomicCmpAndSwp _ _ _ _ _ _ _ => False

end Operation

/-- A slot in use has a region at process `pid`, and an access stays inside of it. -/
def Inside (verbs : IBVerbs n) (pid : Fin n) (slot offset size : ℕ) : Prop :=
  ∃ entry, verbs.memreg.record slot = some entry ∧ entry.mr.isSome ∧
    offset + size ≤ (entry.glob pid).size

/-- A slot that is known to two processes: global, or of the one process that both are. -/
def Shared (pid peer : Fin n) (slot : ℕ) : Prop :=
  CombinedMemoryRegister.isLocalSlot slot = false ∨ peer = pid

/-- Both areas are registered and the accesses stay inside of them. -/
structure Operation.Legal (state : Fin n → IBVerbs n) (pid : Fin n) (op : Operation n) :
    Prop where
  near : (state pid).Inside pid op.near.1 op.near.2 op.size
  far : (state op.peer).Inside op.peer op.far.1 op.far.2 op.size
  shared : Shared pid op.peer op.far.1

/-- The peer's area of the source slot contains the address that an atomic operation accesses. -/
def Operation.Overlaid (state : Fin n → IBVerbs n) (pid : Fin n) (op : Operation n) : Prop :=
  Shared pid op.peer op.near.1 ∧ ∃ target mr,
    (state op.peer).memreg.record op.far.1 = some target ∧
      (state op.peer).Covers op.peer op.near.1 ((target.glob op.peer).addr + op.far.2) 0 mr

/-- The address in the peer's area is not the one behind its end. -/
def Operation.BeforeEnd (state : Fin n → IBVerbs n) (op : Operation n) : Prop :=
  ∃ target, (state op.peer).memreg.record op.far.1 = some target ∧
    op.far.2 < (target.glob op.peer).size

namespace Consistent

variable {state : Fin n → IBVerbs n} {pid peer : Fin n} {slot : ℕ}

/-- Global slots are in use at all processes or at none. -/
theorem together (consistent : Consistent state) (peer : Fin n)
    (isGlobal : CombinedMemoryRegister.isLocalSlot slot = false) {entry : MemorySlot n}
    (found : (state pid).memreg.record slot = some entry) :
    ∃ other, (state peer).memreg.record slot = some other := by
  rw [CombinedMemoryRegister.record, isGlobal, if_neg Bool.false_ne_true] at found ⊢
  have live := (MemoryRegister.live_of_record found).1
  rw [consistent.sameDealer pid peer] at live
  have bound := (consistent.wellFormed peer).globalRegister.live_lt live
  rw [MemoryRegister.record, if_pos live, MemoryRegister.lookup, List.getElem?_eq_getElem bound]
  exact ⟨_, rfl⟩

/-- What a process knows of a peer's area under a shared slot is what the peer knows. -/
theorem known (consistent : Consistent state) (shared : Shared pid peer slot)
    {entry : MemorySlot n} (found : (state pid).memreg.record slot = some entry) :
    ∃ itsEntry, (state peer).memreg.record slot = some itsEntry ∧
      entry.glob peer = itsEntry.glob peer ∧ KnowsOwn peer itsEntry := by
  rcases shared with isGlobal | rfl
  · rcases consistent.together peer isGlobal found with ⟨itsEntry, itsFound⟩
    refine ⟨itsEntry, itsFound, ?_, consistent.own peer slot itsEntry itsFound⟩
    rw [consistent.shared pid peer slot entry itsEntry isGlobal found itsFound]
  · exact ⟨entry, found, rfl, consistent.own peer slot entry found⟩

/-- Nothing is known of a peer's area under any other slot. -/
theorem unknown (consistent : Consistent state) (unshared : ¬Shared pid peer slot)
    {entry : MemorySlot n} (found : (state pid).memreg.record slot = some entry) :
    entry.glob peer = .null := by
  rw [Shared, not_or, Bool.not_eq_false] at unshared
  exact consistent.unshared pid slot entry unshared.1 found peer unshared.2

/-- A shared slot that is in use at the peer is in use. -/
theorem backwards (consistent : Consistent state) (shared : Shared pid peer slot)
    {itsEntry : MemorySlot n} (itsFound : (state peer).memreg.record slot = some itsEntry) :
    ∃ entry, (state pid).memreg.record slot = some entry := by
  rcases shared with isGlobal | rfl
  · exact consistent.together pid isGlobal itsFound
  · exact ⟨itsEntry, itsFound⟩

/-- The key that is known for a shared slot belongs to the peer's area. -/
theorem far_covers (consistent : Consistent state) (shared : Shared pid peer slot)
    {offset size : ℕ} (inside : (state peer).Inside peer slot offset size)
    {entry : MemorySlot n} (found : (state pid).memreg.lookup slot = some entry) :
    ∃ mr : Mr, (entry.glob peer).rkey = mr.rkey ∧ 0 < (entry.glob peer).size ∧
      offset + size ≤ (entry.glob peer).size ∧
      ∀ addr length, (entry.glob peer).addr ≤ addr →
        addr < (entry.glob peer).addr + (entry.glob peer).size →
        addr + length ≤ (entry.glob peer).addr + (entry.glob peer).size →
          (state peer).Covers peer slot addr length mr := by
  rcases inside with ⟨itsEntry, itsFound, region, bound⟩
  rcases Option.isSome_iff_exists.mp region with ⟨mr, isMr⟩
  rcases consistent.backwards shared itsFound with ⟨used, inUse⟩
  have same := CombinedMemoryRegister.lookup_of_record inUse
  rw [found, Option.some.injEq] at same
  subst same
  rcases consistent.known shared inUse with ⟨other, otherFound, glob, itsAddr, itsSize, nonempty,
    described⟩
  rw [itsFound, Option.some.injEq] at otherFound
  subst otherFound
  rw [glob]
  refine ⟨mr, ?_, ?_, bound, ?_⟩
  · rw [described, isMr]
    rfl
  · rw [described]
    exact nonempty region
  · intro addr length above before below
    exact ⟨itsEntry, itsFound, isMr, above, before, below⟩

end Consistent

/-- The region of a slot covers what lies inside of its area. -/
theorem Inside.covers {verbs : IBVerbs n} {pid : Fin n} {slot offset size : ℕ}
    (inside : verbs.Inside pid slot offset size) {entry : MemorySlot n}
    (found : verbs.memreg.lookup slot = some entry) {mr : Mr} (isMr : entry.mr = some mr)
    {addr length : ℕ} (positive : 0 < length) (above : (entry.glob pid).addr ≤ addr)
    (below : addr + length ≤ (entry.glob pid).addr + offset + size) :
    verbs.Covers pid slot addr length mr := by
  rcases inside with ⟨used, inUse, _, bound⟩
  have same := CombinedMemoryRegister.lookup_of_record inUse
  rw [found, Option.some.injEq] at same
  subst same
  exact ⟨entry, inUse, isMr, above, by omega, by omega⟩

/-- Every segment lies inside of the areas that the segments cover. -/
theorem Segmentation.within {maxMsgSize localAddr remoteAddr size : ℕ} {requests : List SendWr}
    (covers : Segmentation maxMsgSize localAddr remoteAddr size requests) {request : SendWr}
    (member : request ∈ requests) :
    localAddr ≤ request.sge.addr ∧ request.sge.addr + request.sge.length ≤ localAddr + size ∧
      remoteAddr ≤ request.remoteAddr ∧
      request.remoteAddr + request.sge.length ≤ remoteAddr + size := by
  rcases List.mem_iff_getElem?.mp member with ⟨k, entry⟩
  rcases List.getElem?_eq_some_iff.mp entry with ⟨bound, isRequest⟩
  have parts : totalLength requests = totalLength (requests.take k) +
      (request.sge.length + totalLength (requests.drop (k + 1))) := by
    rw [← totalLength_cons, ← isRequest, List.getElem_cons_drop, totalLength, totalLength,
      totalLength, ← List.sum_append, ← List.map_append, List.take_append_drop]
  rw [covers.total] at parts
  rw [covers.localAddr k request entry, covers.remoteAddr k request entry]
  omega

theorem mem_segments {maxMsgSize : ℕ} {request : Bool → ℕ → ℕ → ℕ → SendWr}
    {left localOffset remoteOffset size : ℕ} {found : SendWr}
    (member : found ∈ segments maxMsgSize request left localOffset remoteOffset size) :
    ∃ last localAt remoteAt length, found = request last localAt remoteAt length := by
  rcases List.mem_iff_getElem?.mp member with ⟨k, entry⟩
  rcases getElem?_segments entry with ⟨localAt, remoteAt, length, same⟩
  exact ⟨_, localAt, remoteAt, length, same⟩

/-- No segment is empty if there are no more of them than needed. -/
theorem length_pos_of_mem_segments {maxMsgSize : ℕ} (positive : 0 < maxMsgSize)
    (device : maxMsgSize < 2 ^ 32) {request : Bool → ℕ → ℕ → ℕ → SendWr}
    (lengths : ∀ last localOffset remoteOffset length,
      (request last localOffset remoteOffset length).sge.length = length)
    {left localOffset remoteOffset size : ℕ} (needed : left * maxMsgSize < size + maxMsgSize)
    {found : SendWr}
    (member : found ∈ segments maxMsgSize request left localOffset remoteOffset size) :
    0 < found.sge.length := by
  induction left generalizing localOffset remoteOffset size with
  | zero => cases member
  | succ left ih =>
      have short : min size maxMsgSize % 2 ^ 32 = min size maxMsgSize :=
        Nat.mod_eq_of_lt (Nat.lt_of_le_of_lt (Nat.min_le_right _ _) device)
      simp only [segments, short] at member
      rw [Nat.add_mul, Nat.one_mul] at needed
      rcases List.mem_cons.mp member with rfl | rest
      · rw [lengths]
        exact Nat.lt_min.mpr ⟨by omega, positive⟩
      · refine ih ?_ rest
        by_cases fits : maxMsgSize ≤ size
        · rw [Nat.min_eq_right fits]
          omega
        · -- the last segment
          have last : left = 0 := by
            by_contra more
            have := Nat.le_mul_of_pos_left maxMsgSize (Nat.pos_of_ne_zero more)
            omega
          rw [last, Nat.zero_mul]
          exact Nat.add_pos_right _ positive

/-- There are no more segments than needed. -/
theorem segmentCount_mul_lt {maxMsgSize : ℕ} (positive : 0 < maxMsgSize) (size : ℕ) :
    segmentCount maxMsgSize size * maxMsgSize < size + maxMsgSize := by
  have division := Nat.div_add_mod size maxMsgSize
  rw [Nat.mul_comm] at division
  rw [segmentCount, Nat.add_mul]
  split
  next => omega
  next => omega

section Matching

variable {state : Fin n → IBVerbs n} {pid peer : Fin n} {maxMsgSize : ℕ} {task : Task}
  {requests : List SendWr}

/-- The peer accepts the key that is known for a slot exactly if its area of that slot contains the
addresses. -/
theorem key_accepted_iff (consistent : Consistent state)
    (distinct : (state peer).DistinctKeys) (addr length : ℕ) {slot : ℕ} {src used : MemorySlot n}
    (found : (state pid).memreg.lookup slot = some src)
    (inUse : (state pid).memreg.record slot = some used) :
    (∃ other mr, (state peer).Covers peer other addr length mr ∧
        (src.glob peer).rkey = mr.rkey) ↔
      Shared pid peer slot ∧ ∃ mr, (state peer).Covers peer slot addr length mr := by
  have same := CombinedMemoryRegister.lookup_of_record inUse
  rw [found, Option.some.injEq] at same
  subst same
  constructor
  · rintro ⟨other, mr, covers, key⟩
    rcases covers with ⟨entry, itsFound, isMr, bounds⟩
    have nonzero := distinct.nonzero other entry mr itsFound isMr
    by_cases shared : Shared pid peer slot
    · refine ⟨shared, mr, ?_⟩
      rcases consistent.known shared inUse with ⟨itsEntry, itsInUse, glob, _, _, _, described⟩
      rw [glob, described] at key
      cases isItsMr : itsEntry.mr with
      | none =>
          rw [isItsMr] at key
          exact absurd key.symm nonzero
      | some itsMr =>
          rw [isItsMr] at key
          have sameSlot := distinct.injective other slot entry itsEntry mr itsMr itsFound itsInUse
            isMr isItsMr key.symm
          subst sameSlot
          exact ⟨entry, itsFound, isMr, bounds⟩
    · rw [consistent.unknown shared inUse] at key
      exact absurd key.symm nonzero
  · rintro ⟨shared, mr, covers⟩
    refine ⟨slot, mr, covers, ?_⟩
    rcases covers with ⟨entry, itsFound, isMr, _⟩
    rcases consistent.known shared inUse with ⟨itsEntry, itsInUse, glob, _, _, _, described⟩
    rw [itsFound, Option.some.injEq] at itsInUse
    rw [glob, described, ← itsInUse, isMr]
    rfl

/-- The address of the shared slot that a process uses is the peer's own. -/
theorem Consistent.target (consistent : Consistent state) {slot : ℕ}
    (shared : Shared pid peer slot) {target entry : MemorySlot n}
    (isTarget : (state peer).memreg.record slot = some target)
    (found : (state pid).memreg.lookup slot = some entry) :
    target.glob peer = entry.glob peer := by
  rcases consistent.backwards shared isTarget with ⟨used, inUse⟩
  have same := CombinedMemoryRegister.lookup_of_record inUse
  rw [found, Option.some.injEq] at same
  rcases consistent.known shared inUse with ⟨itsEntry, itsInUse, glob, _⟩
  rw [isTarget, Option.some.injEq] at itsInUse
  rw [same, itsInUse, glob]

/-- A put of at least one byte. -/
theorem put_matched (consistent : Consistent state) (positive : 0 < maxMsgSize)
    (device : maxMsgSize < 2 ^ 32) {srcSlot srcOffset dstSlot dstOffset size : ℕ}
    (bytes : 0 < size) (near : (state pid).Inside pid srcSlot srcOffset size)
    (far : (state peer).Inside peer dstSlot dstOffset size) (shared : Shared pid peer dstSlot)
    (posted : putRequests pid (state pid) maxMsgSize task srcSlot srcOffset peer dstSlot dstOffset
      size = some requests) : ∀ request ∈ requests, Matched state pid peer request := by
  rcases putRequests_cases posted with ⟨src, dst, mr, foundSrc, foundDst, isMr, rfl⟩
  rcases consistent.far_covers shared far foundDst with ⟨itsMr, itsKey, _, bound, itsCovers⟩
  rcases putSegments pid peer (state pid) src dst mr positive device task srcOffset dstOffset
    size rfl with ⟨covers, _⟩
  rw [if_neg (Nat.ne_of_gt bytes)] at covers ⊢
  intro request member
  have nonempty := length_pos_of_mem_segments positive device (fun _ _ _ _ => rfl)
    (segmentCount_mul_lt positive size) member
  rcases covers.within member with ⟨above, below, itsAbove, itsBelow⟩
  rcases mem_segments member with ⟨_, _, _, _, same⟩
  refine ⟨⟨dstSlot, itsMr, itsCovers _ _ (by omega) (by omega) (by omega), ?_⟩, ?_⟩
  · rw [same]
    exact itsKey
  · intro _ _
    refine ⟨srcSlot, mr, near.covers foundSrc isMr nonempty (by omega) below, ?_⟩
    rw [same]
    rfl

/-- A put of no bytes posts one request, with the address that was asked for. -/
theorem emptyPut_matched_iff (consistent : Consistent state)
    (distinct : (state peer).DistinctKeys) {srcSlot srcOffset dstSlot dstOffset : ℕ}
    (far : (state peer).Inside peer dstSlot dstOffset 0) (shared : Shared pid peer dstSlot)
    (posted : putRequests pid (state pid) maxMsgSize task srcSlot srcOffset peer dstSlot dstOffset
      0 = some requests) :
    (∀ request ∈ requests, Matched state pid peer request) ↔
      ∃ target, (state peer).memreg.record dstSlot = some target ∧
        dstOffset < (target.glob peer).size := by
  rcases putRequests_cases posted with ⟨src, dst, mr, foundSrc, foundDst, isMr, rfl⟩
  rcases far with ⟨target, isTarget, region, bound⟩
  rcases Option.isSome_iff_exists.mp region with ⟨itsMr, isItsMr⟩
  rcases consistent.backwards shared isTarget with ⟨used, inUse⟩
  have accepted := key_accepted_iff consistent distinct ((dst.glob peer).addr + dstOffset) 0
    foundDst inUse
  have sameArea := consistent.target shared isTarget foundDst
  rw [if_pos rfl, segments, segments, List.forall_mem_singleton, Nat.zero_min, Nat.zero_mod]
  constructor
  · intro matched
    rcases accepted.mp matched.remote with ⟨_, _, entry, found, _, _, before, _⟩
    rw [isTarget, Option.some.injEq] at found
    rw [← found, sameArea] at before
    exact ⟨target, isTarget, sameArea ▸ Nat.lt_of_add_lt_add_left before⟩
  · rintro ⟨other, isOther, before⟩
    rw [isTarget, Option.some.injEq] at isOther
    rw [← isOther] at before
    refine ⟨accepted.mpr ⟨shared, itsMr, target, isTarget, isItsMr, ?_⟩, ?_⟩
    · rw [← sameArea]
      omega
    · intro _ hasBytes
      exact absurd hasBytes (Nat.lt_irrefl 0)

theorem get_matched (consistent : Consistent state) (positive : 0 < maxMsgSize)
    (device : maxMsgSize < 2 ^ 32) {srcSlot srcOffset dstSlot dstOffset size : ℕ}
    (near : (state pid).Inside pid dstSlot dstOffset size)
    (far : (state peer).Inside peer srcSlot srcOffset size) (shared : Shared pid peer srcSlot)
    (posted : getRequests pid (state pid) maxMsgSize task peer srcSlot srcOffset dstSlot dstOffset
      size = some requests) : ∀ request ∈ requests, Matched state pid peer request := by
  rcases getRequests_cases posted with ⟨src, dst, mr, foundSrc, foundDst, isMr, rfl⟩
  rcases consistent.far_covers shared far foundSrc with ⟨itsMr, itsKey, nonempty, bound, itsCovers⟩
  rcases getSegments pid peer src dst mr positive device dstOffset srcOffset size with
    ⟨covers, _⟩
  intro request member
  rcases List.mem_append.mp member with read | completion
  · have hasBytes := length_pos_of_mem_segments positive device (fun _ _ _ _ => rfl)
      (segmentCount_mul_lt positive size) read
    rcases covers.within read with ⟨above, below, itsAbove, itsBelow⟩
    rcases mem_segments read with ⟨_, _, _, _, same⟩
    refine ⟨⟨srcSlot, itsMr, itsCovers _ _ (by omega) (by omega) (by omega), ?_⟩, ?_⟩
    · rw [same]
      exact itsKey
    · intro _ _
      refine ⟨dstSlot, mr, near.covers foundDst isMr hasBytes (by omega) below, ?_⟩
      rw [same]
      rfl
  · rw [List.mem_singleton.mp completion]
    refine ⟨⟨srcSlot, itsMr, itsCovers _ _ (Nat.le_refl _) ?_ (Nat.le_add_right _ _), itsKey⟩, ?_⟩
    · exact Nat.lt_add_of_pos_right nonempty
    · intro hasBuffer
      exact absurd hasBuffer (Nat.lt_irrefl 0)

theorem atomic_matched_iff (consistent : Consistent state)
    (distinct : (state peer).DistinctKeys) {opcode : Opcode}
    {compareAdd swap srcSlot srcOffset dstSlot dstOffset : ℕ}
    (near : (state pid).Inside pid srcSlot srcOffset 8)
    (far : (state peer).Inside peer dstSlot dstOffset 8) (shared : Shared pid peer dstSlot)
    (posted : atomicRequests opcode compareAdd swap pid (state pid) task srcSlot srcOffset peer
      dstSlot dstOffset = some requests) :
    (∀ request ∈ requests, Matched state pid peer request) ↔
      Shared pid peer srcSlot ∧ ∃ target mr, (state peer).memreg.record dstSlot = some target ∧
        (state peer).Covers peer srcSlot ((target.glob peer).addr + dstOffset) 0 mr := by
  rw [atomicRequests] at posted
  split at posted
  next src dst foundSrc foundDst =>
    rcases Option.bind_eq_some_iff.mp posted with ⟨dstMr, isDstMr, rest⟩
    rcases Option.map_eq_some_iff.mp rest with ⟨srcMr, isSrcMr, rfl⟩
    rcases consistent.far_covers shared far foundDst with ⟨itsMr, itsKey, _, bound, itsCovers⟩
    rcases far with ⟨target, isTarget, _, _⟩
    have sameAddr : (target.glob peer).addr = (dst.glob peer).addr :=
      congrArg MemoryRegistration.addr (consistent.target shared isTarget foundDst)
    have first : ∀ {request : SendWr},
        request.remoteAddr = (dst.glob peer).addr + dstOffset → request.sge.length = 8 →
        request.rkey = (dst.glob peer).rkey →
        request.sge.addr = (src.glob pid).addr + srcOffset → request.sge.lkey = srcMr.lkey →
        Matched state pid peer request := by
      intro request itsRemote itsLength itsRkey itsAddr itsLkey
      constructor
      · refine ⟨dstSlot, itsMr, itsCovers _ _ ?_ ?_ ?_, itsRkey.trans itsKey⟩
        · omega
        · omega
        · omega
      · intro _ hasBytes
        refine ⟨srcSlot, srcMr, near.covers foundSrc isSrcMr hasBytes ?_ ?_, itsLkey⟩
        · omega
        · omega
    rcases near with ⟨used, inUse, _, _⟩
    rw [List.forall_mem_cons, List.forall_mem_singleton]
    have accepted := key_accepted_iff consistent distinct ((dst.glob peer).addr + dstOffset) 0
      foundSrc inUse
    constructor
    · rintro ⟨_, second⟩
      rcases accepted.mp second.remote with ⟨sharedToo, mr, covers⟩
      exact ⟨sharedToo, target, mr, isTarget, sameAddr ▸ covers⟩
    · rintro ⟨sharedToo, itsTarget, mr, isItsTarget, covers⟩
      rw [isTarget, Option.some.injEq] at isItsTarget
      rw [← isItsTarget, sameAddr] at covers
      refine ⟨first rfl rfl rfl rfl rfl, accepted.mpr ⟨sharedToo, mr, covers⟩, ?_⟩
      intro hasBuffer
      exact absurd hasBuffer (Nat.lt_irrefl 0)
  next => cases posted

end Matching

/-- All requests of gets and of puts of some bytes are matched, those of a put of no bytes exactly
if its address is not the end of the area, and those of an atomic operation exactly if the peer's
area of the source slot contains the address that is accessed. -/
theorem matched_iff {devices : Fin n → Device n} {state : Fin n → IBVerbs n}
    (run : Reachable devices state) {pid : Fin n} {op : Operation n}
    (distinct : (state op.peer).DistinctKeys) (legal : op.Legal state pid) {maxMsgSize : ℕ}
    (positive : 0 < maxMsgSize) (device : maxMsgSize < 2 ^ 32) {task : Task}
    {requests : List SendWr}
    (posted : op.requests pid (state pid) maxMsgSize task = some requests) :
    (∀ request ∈ requests, Matched state pid op.peer request) ↔
      (op.IsAtomic → op.Overlaid state pid) ∧ (op.IsEmptyPut → op.BeforeEnd state) := by
  have consistent := run.consistent
  rcases legal with ⟨near, far, shared⟩
  cases op with
  | put srcSlot srcOffset dstPid dstSlot dstOffset size =>
      by_cases empty : size = 0
      · subst empty
        exact (emptyPut_matched_iff consistent distinct far shared posted).trans
          ⟨fun before => ⟨False.elim, fun _ => before⟩, fun allowed => allowed.2 rfl⟩
      · exact iff_of_true (put_matched consistent positive device (Nat.pos_of_ne_zero empty) near
          far shared posted) ⟨False.elim, fun isEmpty => absurd isEmpty empty⟩
  | get srcPid srcSlot srcOffset dstSlot dstOffset size =>
      exact iff_of_true (get_matched consistent positive device near far shared posted)
        ⟨False.elim, False.elim⟩
  | atomicFetchAndAdd srcSlot srcOffset dstPid dstSlot dstOffset value =>
      exact (atomic_matched_iff consistent distinct near far shared posted).trans
        ⟨fun overlaid => ⟨fun _ => overlaid, False.elim⟩, fun allowed => allowed.1 trivial⟩
  | atomicCmpAndSwp srcSlot srcOffset dstPid dstSlot dstOffset cmp swp =>
      exact (atomic_matched_iff consistent distinct near far shared posted).trans
        ⟨fun overlaid => ⟨fun _ => overlaid, False.elim⟩, fun allowed => allowed.1 trivial⟩

/-- A device that deals the keys 1, 2, and so on. -/
def countingDevice : Device 2 :=
  { Device.generous 2 with regMr := fun k => some ⟨k + 1, k + 1⟩ }

/-- A process with room for one slot of each kind. -/
def roomForOne : IBVerbs 2 := ((initial countingDevice).resizeMemreg .none .none 1).1

/-- The two processes have registered global areas at 100 and at 200. -/
def oneGlobal (_ : Fin 2) : IBVerbs 2 :=
  registered roomForOne 16
    ⟨roomForOne.memreg.localRegister, ⟨[⟨some ⟨1, 1⟩, fun _ => .null⟩], [], 1, 1⟩⟩ 0
    (announced (fun _ => roomForOne) (fun p => 100 + 100 * p.val) fun _ => 16)

theorem reachable_oneGlobal : Reachable (fun _ => countingDevice) oneGlobal := by
  have started : Reachable (fun _ => countingDevice) fun _ => initial countingDevice :=
    Transition.Reachable.refl
  have resized := (started.call (.resizeMemreg 0 .none .none 1) trivial rfl).call
    (.resizeMemreg 1 .none .none 1) trivial rfl
  have both : Function.update (Function.update (fun _ : Fin 2 => initial countingDevice) 0
      roomForOne) 1 roomForOne = fun _ => roomForOne := funext (Fin.forall_fin_two.mpr ⟨rfl, rfl⟩)
  have roomy : Reachable (fun _ => countingDevice) fun _ => roomForOne := both ▸ resized
  apply roomy.call (.regGlobal (fun p => 100 + 100 * p.val) fun _ => 16) trivial
  refine ⟨_, _, regGlobal_executes (fun _ => by decide) (fun _ => rfl), rfl⟩

/-- Only the first global slot is in use. -/
theorem record_oneGlobal {p : Fin 2} {slot : ℕ} {entry : MemorySlot 2}
    (found : (oneGlobal p).memreg.record slot = some entry) :
    slot = 0 ∧ entry.mr = some ⟨1, 1⟩ := by
  rw [CombinedMemoryRegister.record] at found
  cases isLocal : CombinedMemoryRegister.isLocalSlot slot with
  | true =>
      rw [isLocal, if_pos rfl] at found
      exact absurd (MemoryRegister.live_of_record found).1.1 (Nat.not_lt_zero _)
  | false =>
      rw [isLocal, if_neg Bool.false_ne_true] at found
      rcases MemoryRegister.live_of_record found with ⟨live, itsEntry⟩
      have first : CombinedMemoryRegister.fromGlobal slot = 0 := Nat.lt_one_iff.mp live.1
      rw [first] at itsEntry
      rw [← CombinedMemoryRegister.toGlobal_fromGlobal isLocal, first]
      refine ⟨rfl, ?_⟩
      have same : some entry = some ⟨some ⟨1, 1⟩, _⟩ := itsEntry.symm
      rw [Option.some.injEq] at same
      rw [same]

theorem matched_iff_oneGlobal : ∃ requests,
    (Operation.atomicFetchAndAdd 0 0 1 0 8 5).requests 0 (oneGlobal 0) 1024 7 = some requests ∧
      ∀ request ∈ requests, Matched oneGlobal 0 1 request := by
  have distinct : (oneGlobal 1).DistinctKeys := by
    constructor
    · intro slot other left right leftMr rightMr found foundToo _ _ _
      rw [(record_oneGlobal found).1, (record_oneGlobal foundToo).1]
    · intro slot entry mr found isMr
      rw [(record_oneGlobal found).2, Option.some.injEq] at isMr
      rw [← isMr]
      decide
  have legal : (Operation.atomicFetchAndAdd 0 0 1 0 8 5).Legal oneGlobal 0 :=
    ⟨⟨_, rfl, rfl, by decide⟩, ⟨_, rfl, rfl, by decide⟩, Or.inl rfl⟩
  have positive : 0 < 1024 := by decide
  refine ⟨_, rfl, (matched_iff reachable_oneGlobal distinct legal positive (by decide) rfl).mpr ?_⟩
  refine ⟨fun _ => ?_, False.elim⟩
  exact ⟨Or.inl rfl, _, ⟨1, 1⟩, rfl, _, rfl, rfl, by decide, by decide, by decide⟩

/-- The first process has registered a local area of eight bytes as well. -/
def globalAndLocal : Fin 2 → IBVerbs 2 :=
  let caller : Fin 2 := ⟨0, Nat.zero_lt_two⟩
  Function.update oneGlobal caller { oneGlobal caller with
    memreg := ⟨⟨[⟨some ⟨2, 2⟩, Function.update (fun _ => .null) caller ⟨500, 8, 2, 2⟩⟩], [], 1, 1⟩,
      (oneGlobal caller).memreg.globalRegister⟩
    device := { (oneGlobal caller).device with regMrCalls := 2 } }

/-- The local source slot of a fetch-and-add means nothing to the peer. -/
theorem not_matched : ∃ (op : Operation 2) (requests : List SendWr),
    Reachable (fun _ => countingDevice) globalAndLocal ∧ op.Legal globalAndLocal 0 ∧
      op.requests 0 (globalAndLocal 0) 1024 7 = some requests ∧
      ¬∀ request ∈ requests, Matched globalAndLocal 0 op.peer request := by
  have run : Reachable (fun _ => countingDevice) globalAndLocal :=
    reachable_oneGlobal.call (.regLocal 0 500 8) trivial ⟨_, _, rfl, rfl⟩
  refine ⟨.atomicFetchAndAdd 1 0 1 0 8 5, _, run,
    ⟨⟨_, rfl, rfl, by decide⟩, ⟨_, rfl, rfl, by decide⟩, Or.inl rfl⟩, rfl, ?_⟩
  intro matched
  rcases (matched _ (List.mem_cons_of_mem _ (List.mem_singleton_self _))).remote with
    ⟨slot, mr, ⟨entry, found, isMr, _⟩, key⟩
  have itsKey := (@record_oneGlobal 1 slot entry found).2
  rw [isMr, Option.some.injEq] at itsKey
  rw [itsKey] at key
  exact absurd key (by decide)

end IBVerbs

end Talpf
