import Mathlib.Data.List.Count
import Mathlib.Data.List.Perm.Subperm

/-!
# Networks of ordered channels

Messages that travel on one channel arrive in the order in which they were
posted, and messages of different channels overtake each other freely.  The
messages of a network are one list, of which a receiver takes the first message
of some channel.
-/

namespace Channels

universe u v w

variable {Message : Type u} {Channel : Type v} [DecidableEq Channel] (channel : Message → Channel)

/-- The messages of one channel. -/
def on (key : Channel) (messages : List Message) : List Message :=
  messages.filter fun message => channel message = key

@[simp] theorem on_nil (key : Channel) : on channel key [] = [] := rfl

@[simp] theorem on_append (key : Channel) (first second : List Message) :
    on channel key (first ++ second) = on channel key first ++ on channel key second :=
  List.filter_append _ _

theorem on_cons (key : Channel) (message : Message) (messages : List Message) :
    on channel key (message :: messages) =
      if channel message = key then message :: on channel key messages
      else on channel key messages := by
  simp [on, List.filter_cons]

variable {channel}

theorem mem_on {key : Channel} {messages : List Message} {message : Message} :
    message ∈ on channel key messages ↔ message ∈ messages ∧ channel message = key := by
  simp [on]

theorem on_eq_self {key : Channel} {messages : List Message}
    (all : ∀ message ∈ messages, channel message = key) : on channel key messages = messages := by
  apply List.filter_eq_self.mpr
  intro message member
  simpa using all message member

theorem on_eq_nil {key : Channel} {messages : List Message}
    (none : ∀ message ∈ messages, channel message ≠ key) : on channel key messages = [] := by
  apply List.filter_eq_nil_iff.mpr
  intro message member
  simpa using none message member

theorem on_comm {Other : Type w} [DecidableEq Other] {other : Message → Other} (key : Channel)
    (label : Other) (messages : List Message) :
    on channel key (on other label messages) = on other label (on channel key messages) :=
  List.filter_comm _ _ _

/-- What follows on the first message of a channel. -/
theorem tail_eq_of_first {key : Channel} {before before' after after' : List Message}
    {message message' : Message} (none : ∀ other ∈ before, channel other ≠ key)
    (none' : ∀ other ∈ before', channel other ≠ key) (first : channel message = key)
    (first' : channel message' = key)
    (same : before ++ message :: after = before' ++ message' :: after') : after = after' := by
  have dropped := congrArg (List.dropWhile fun other => !decide (channel other = key)) same
  rw [List.dropWhile_append_of_pos fun other member => by simpa using none other member,
    List.dropWhile_append_of_pos fun other member => by simpa using none' other member,
    List.dropWhile_cons_of_neg (by simp [first]), List.dropWhile_cons_of_neg (by simp [first'])]
    at dropped
  exact (List.cons.inj dropped).2

variable (channel) in
/-- What is left of a network when the first message of some channel is taken. -/
inductive Takes : List Message → Message → List Message → Prop
  | intro (before : List Message) (message : Message) (after : List Message)
      (first : ∀ other ∈ before, channel other ≠ channel message) :
      Takes (before ++ message :: after) message (before ++ after)

namespace Takes

variable {network rest : List Message} {message : Message}

omit [DecidableEq Channel] in
theorem perm (takes : Takes channel network message rest) : network.Perm (message :: rest) := by
  cases takes with
  | intro before message after first => exact List.perm_middle

omit [DecidableEq Channel] in
theorem mem (takes : Takes channel network message rest) : message ∈ network :=
  takes.perm.mem_iff.mpr List.mem_cons_self

theorem on_self (takes : Takes channel network message rest) :
    on channel (channel message) network = message :: on channel (channel message) rest := by
  cases takes with
  | intro before message after first =>
      rw [on_append, on_append, on_eq_nil first]
      simp [on]

theorem on_other (takes : Takes channel network message rest) {key : Channel}
    (other : channel message ≠ key) : on channel key network = on channel key rest := by
  cases takes with
  | intro before message after first => simp [on, other]

omit [DecidableEq Channel] in
/-- The message taken is also the first one with its label, if the label decides the channel. -/
theorem on_label {Label : Type w} [DecidableEq Label] {label : Message → Label}
    (takes : Takes channel network message rest)
    (routed : ∀ other ∈ network, label other = label message → channel other = channel message) :
    on label (label message) network = message :: on label (label message) rest := by
  cases takes with
  | intro before message after first =>
      have none : on label (label message) before = [] := by
        apply on_eq_nil
        intro other member same
        exact first other member (routed other (List.mem_append_left _ member) same)
      rw [on_append, on_append, none, on_cons, if_pos rfl]
      rfl

end Takes

/-- Every channel that is not empty has a first message. -/
theorem exists_takes {network : List Message} {message : Message} (member : message ∈ network) :
    ∃ first rest, Takes channel network first rest ∧ channel first = channel message := by
  induction network with
  | nil => cases member
  | cons head network ih =>
      by_cases same : channel head = channel message
      · exact ⟨head, network, .intro [] head network (by simp), same⟩
      · have later : message ∈ network := by
          rcases List.mem_cons.mp member with rfl | later
          · exact absurd rfl same
          · exact later
        rcases ih later with ⟨first, rest, takes, alike⟩
        cases takes with
        | intro before first after earlier =>
            refine ⟨first, head :: (before ++ after), ?_, alike⟩
            apply Takes.intro (head :: before) first after
            intro other inside
            rcases List.mem_cons.mp inside with rfl | inside
            · rwa [alike]
            · exact earlier other inside

variable (channel) in
/-- The posted messages are those received and those in flight, each channel in its order. -/
def Conserved (posted received inFlight : List Message) : Prop :=
  ∀ key, on channel key posted = on channel key received ++ on channel key inFlight

namespace Conserved

variable {posted received inFlight : List Message}

theorem empty : Conserved channel ([] : List Message) [] [] := fun _ => rfl

theorem post (conserved : Conserved channel posted received inFlight) (new : List Message) :
    Conserved channel (posted ++ new) received (inFlight ++ new) := by
  intro key
  simp only [on_append, conserved key, List.append_assoc]

theorem take (conserved : Conserved channel posted received inFlight) {message : Message}
    {rest : List Message} (takes : Takes channel inFlight message rest) :
    Conserved channel posted (received ++ [message]) rest := by
  intro key
  by_cases same : channel message = key
  · subst same
    rw [conserved, takes.on_self, on_append, on_cons, if_pos rfl, List.append_assoc]
    rfl
  · rw [conserved, takes.on_other same, on_append, on_cons, if_neg same, on_nil,
      List.append_nil]

end Conserved

variable (channel) in
theorem count_on [DecidableEq Message] (messages : List Message) (message : Message) :
    (on channel (channel message) messages).count message = messages.count message :=
  List.count_filter (by simp)

theorem perm_on {first second : List Message} (shuffled : first.Perm second) (key : Channel) :
    (on channel key first).Perm (on channel key second) :=
  shuffled.filter _

variable (channel) in
theorem perm_of_on {first second : List Message}
    (alike : ∀ key, (on channel key first).Perm (on channel key second)) :
    first.Perm second := by
  classical
  apply List.perm_iff_count.mpr
  intro message
  rw [← count_on channel first, ← count_on channel second]
  exact (alike _).count_eq message

variable (channel) in
theorem subperm_of_on {first second : List Message}
    (alike : ∀ key, (on channel key first).Subperm (on channel key second)) :
    first.Subperm second := by
  classical
  apply List.subperm_ext_iff.mpr
  intro message _
  rw [← count_on channel first, ← count_on channel second]
  exact (alike _).count_le message

theorem Conserved.perm {posted received inFlight : List Message}
    (conserved : Conserved channel posted received inFlight) :
    posted.Perm (received ++ inFlight) := by
  apply perm_of_on channel
  intro key
  rw [conserved key, on_append]

/-- Messages with one label travel in their order if they all travel on one channel. -/
theorem Conserved.on_label {posted received inFlight : List Message} {Label : Type w}
    [DecidableEq Label] {label : Message → Label} {key : Label} {way : Channel}
    (conserved : Conserved channel posted received inFlight)
    (routed : ∀ message ∈ posted, label message = key → channel message = way) :
    on label key posted = on label key received ++ on label key inFlight := by
  have confined : ∀ messages : List Message, messages ⊆ posted →
      on label key (on channel way messages) = on label key messages := by
    intro messages listed
    rw [on_comm]
    apply on_eq_self
    intro message member
    rcases mem_on.mp member with ⟨inside, same⟩
    exact routed message (listed inside) same
  have shuffled := conserved.perm
  have taken : received ⊆ posted := fun message member =>
    shuffled.mem_iff.mpr (List.mem_append_left _ member)
  have flying : inFlight ⊆ posted := fun message member =>
    shuffled.mem_iff.mpr (List.mem_append_right _ member)
  rw [← confined posted (List.Subset.refl _), conserved way, on_append, confined received taken,
    confined inFlight flying]

section Batches

variable {Item : Type w} {items : List Item} {batch : Item → List Message} {key : Item → Channel}

/-- Of batches with keys of their own, a key finds its batch. -/
theorem on_flatMap (labelled : ∀ item ∈ items, ∀ message ∈ batch item, channel message = key item)
    (distinct : (items.map key).Nodup) {item : Item} (member : item ∈ items) :
    on channel (key item) (items.flatMap batch) = batch item := by
  induction items with
  | nil => cases member
  | cons head items ih =>
      rw [List.flatMap_cons, on_append]
      rw [List.map_cons, List.nodup_cons] at distinct
      rcases List.mem_cons.mp member with rfl | later
      · have nothing : on channel (key item) (items.flatMap batch) = [] := by
          apply on_eq_nil
          intro message inside same
          rcases List.mem_flatMap.mp inside with ⟨other, among, sent⟩
          rw [labelled other (List.mem_cons_of_mem _ among) message sent] at same
          exact distinct.1 (List.mem_map.mpr ⟨other, among, same⟩)
        rw [on_eq_self (labelled item List.mem_cons_self), nothing, List.append_nil]
      · have nothing : on channel (key item) (batch head) = [] := by
          apply on_eq_nil
          intro message sent same
          rw [labelled head List.mem_cons_self message sent] at same
          exact distinct.1 (List.mem_map.mpr ⟨item, later, same.symm⟩)
        rw [nothing, List.nil_append]
        exact ih (fun other among => labelled other (List.mem_cons_of_mem _ among)) distinct.2 later

theorem on_flatMap_of_not_mem
    (labelled : ∀ item ∈ items, ∀ message ∈ batch item, channel message = key item)
    {label : Channel} (absent : ∀ item ∈ items, key item ≠ label) :
    on channel label (items.flatMap batch) = [] := by
  apply on_eq_nil
  intro message inside
  rcases List.mem_flatMap.mp inside with ⟨item, among, sent⟩
  rw [labelled item among message sent]
  exact absent item among

end Batches

/-- Of messages with channels of their own, a channel has one. -/
theorem on_of_nodup {messages : List Message} (distinct : (messages.map channel).Nodup)
    {message : Message} (member : message ∈ messages) :
    on channel (channel message) messages = [message] := by
  have single : ∀ item ∈ messages, ∀ other ∈ [item], channel other = channel item := by
    intro item _ other equal
    rw [List.mem_singleton.mp equal]
  simpa using on_flatMap single distinct member

end Channels
