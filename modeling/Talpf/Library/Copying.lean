import Mathlib.Data.Set.Basic
import Mathlib.Logic.Function.Basic

/-!
# Copying between places

Requests to copy values from places to places may be carried out in any order
and interleaving, each in two moves: a value is fetched from its source and later
stored at its target.  If no place is both a source and a target, the outcome is
that of copying all at once, and nobody who stays away from the targets can tell
how far the copying has come.
-/

namespace Copying

universe u v

variable {Place : Type u} {Value : Type v}

/-- No place is read by one request and written by another. -/
def Apart (requests : Set (Place × Place)) : Prop :=
  ∀ first ∈ requests, ∀ second ∈ requests, first.1 ≠ second.2

def Source (requests : Set (Place × Place)) (place : Place) : Prop :=
  ∃ target, (place, target) ∈ requests

def Target (requests : Set (Place × Place)) (place : Place) : Prop :=
  ∃ source, (source, place) ∈ requests

/-- All requests at once: what a target holds afterwards was held by one of its sources before. -/
def Copied (requests : Set (Place × Place)) (before after : Place → Value) : Prop :=
  ∀ place, (∃ source, (source, place) ∈ requests ∧ after place = before source) ∨
    (¬Target requests place ∧ after place = before place)

/-- One request on its way, with the value that is fetched already -/
structure Transfer (Place : Type u) (Value : Type v) where
  source : Place
  target : Place
  fetched : Option Value

variable {requests more : Set (Place × Place)} {before store after : Place → Value}
  {todo : Set (Transfer Place Value)} {place : Place} {value : Value}

theorem Apart.not_target (apart : Apart requests) {source target : Place}
    (member : (source, target) ∈ requests) : ¬Target requests source := by
  rintro ⟨other, second⟩
  exact apart _ member _ second rfl

theorem apart_empty : Apart (∅ : Set (Place × Place)) := by
  intro first member
  exact absurd member (Set.notMem_empty first)

namespace Copied

theorem of_not_target (copied : Copied requests before after) (free : ¬Target requests place) :
    after place = before place := by
  rcases copied place with ⟨source, member, _⟩ | ⟨_, same⟩
  · exact absurd ⟨source, member⟩ free
  · exact same

/-- If every target has one source, there is one outcome. -/
theorem unique (single : ∀ first second target, (first, target) ∈ requests →
      (second, target) ∈ requests → first = second)
    (copied : Copied requests before after) (other : Copied requests before store) :
    after = store := by
  funext place
  rcases copied place with ⟨source, member, value⟩ | ⟨free, same⟩
  · rcases other place with ⟨second, also, itsValue⟩ | ⟨free, _⟩
    · rw [value, itsValue, single source second place member also]
    · exact absurd ⟨source, member⟩ free
  · rw [same, other.of_not_target free]

end Copied

/-- Some of the requests are carried out, the others are left to do. -/
structure Underway (requests : Set (Place × Place)) (todo : Set (Transfer Place Value))
    (before store : Place → Value) : Prop where
  requested : ∀ transfer ∈ todo, (transfer.source, transfer.target) ∈ requests
  fetched : ∀ transfer ∈ todo, ∀ value, transfer.fetched = some value →
    value = before transfer.source
  values : ∀ place, (∃ source, (source, place) ∈ requests ∧ store place = before source) ∨
    (store place = before place ∧ ∀ source, (source, place) ∈ requests →
      ∃ transfer ∈ todo, transfer.source = source ∧ transfer.target = place)

namespace Underway

theorem start (store : Place → Value) : Underway ∅ ∅ store store where
  requested _ member := absurd member (Set.notMem_empty _)
  fetched _ member := absurd member (Set.notMem_empty _)
  values _ := Or.inr ⟨rfl, fun _ member => absurd member (Set.notMem_empty _)⟩

/-- Nobody who stays away from the targets can tell how far the copying has come. -/
theorem of_not_target (underway : Underway requests todo before store)
    (free : ¬Target requests place) : store place = before place := by
  rcases underway.values place with ⟨source, member, _⟩ | ⟨same, _⟩
  · exact absurd ⟨source, member⟩ free
  · exact same

/-- When nothing is left to do, all is copied. -/
theorem copied (underway : Underway requests ∅ before store) : Copied requests before store := by
  intro place
  rcases underway.values place with copied | ⟨same, left⟩
  · exact Or.inl copied
  · refine Or.inr ⟨?_, same⟩
    rintro ⟨source, member⟩
    rcases left source member with ⟨transfer, none, _⟩
    exact Set.notMem_empty transfer none

/-- Further requests, with a transfer for each of them -/
theorem add (underway : Underway requests todo before store)
    {transfers : Set (Transfer Place Value)}
    (fresh : ∀ transfer ∈ transfers, (transfer.source, transfer.target) ∈ more ∧
      transfer.fetched = none)
    (covers : ∀ request ∈ more, ∃ transfer ∈ transfers,
      transfer.source = request.1 ∧ transfer.target = request.2) :
    Underway (requests ∪ more) (todo ∪ transfers) before store where
  requested := by
    rintro transfer (old | new)
    · exact Or.inl (underway.requested transfer old)
    · exact Or.inr (fresh transfer new).1
  fetched := by
    rintro transfer (old | new) value fetched
    · exact underway.fetched transfer old value fetched
    · rw [(fresh transfer new).2] at fetched
      cases fetched
  values := by
    intro place
    rcases underway.values place with ⟨source, member, value⟩ | ⟨same, left⟩
    · exact Or.inl ⟨source, Or.inl member, value⟩
    · refine Or.inr ⟨same, ?_⟩
      rintro source (old | new)
      · rcases left source old with ⟨transfer, member, places⟩
        exact ⟨transfer, Or.inl member, places⟩
      · rcases covers _ new with ⟨transfer, member, places⟩
        exact ⟨transfer, Or.inr member, places⟩

/-- A value is fetched from its source. -/
theorem fetch (underway : Underway requests todo before store) (apart : Apart requests)
    {transfer : Transfer Place Value} (member : transfer ∈ todo)
    {rest : Set (Transfer Place Value)}
    (fewer : ∀ other ∈ rest, other ∈ todo ∨
      other = { transfer with fetched := some (store transfer.source) })
    (kept : ∀ other ∈ todo, other ≠ transfer → other ∈ rest)
    (now : { transfer with fetched := some (store transfer.source) } ∈ rest) :
    Underway requests rest before store where
  requested := by
    intro other among
    rcases fewer other among with old | rfl
    · exact underway.requested other old
    · exact underway.requested transfer member
  fetched := by
    intro other among value isFetched
    rcases fewer other among with old | rfl
    · exact underway.fetched other old value isFetched
    · have source := underway.of_not_target
        (apart.not_target (underway.requested transfer member))
      exact (Option.some.inj isFetched).symm.trans source
  values := by
    intro place
    rcases underway.values place with copied | ⟨same, left⟩
    · exact Or.inl copied
    · refine Or.inr ⟨same, ?_⟩
      intro source requested
      rcases left source requested with ⟨other, among, places⟩
      by_cases this : other = transfer
      · exact ⟨_, now, this ▸ places⟩
      · exact ⟨other, kept other among this, places⟩

/-- A fetched value is stored at its target. -/
theorem put [DecidableEq Place] (underway : Underway requests todo before store)
    {transfer : Transfer Place Value} (member : transfer ∈ todo)
    (isFetched : transfer.fetched = some value) {rest : Set (Transfer Place Value)}
    (fewer : rest ⊆ todo) (kept : ∀ other ∈ todo, other ≠ transfer → other ∈ rest) :
    Underway requests rest before (Function.update store transfer.target value) where
  requested other among := underway.requested other (fewer among)
  fetched other among := underway.fetched other (fewer among)
  values := by
    intro place
    rw [Function.update_apply]
    split
    next here =>
      subst here
      exact Or.inl ⟨_, underway.requested transfer member,
        underway.fetched transfer member value isFetched⟩
    next elsewhere =>
      rcases underway.values place with copied | ⟨same, left⟩
      · exact Or.inl copied
      · refine Or.inr ⟨same, ?_⟩
        intro source requested
        rcases left source requested with ⟨other, among, isSource, isTarget⟩
        refine ⟨other, kept other among ?_, isSource, isTarget⟩
        rintro rfl
        exact elsewhere isTarget.symm

/-- Somebody else writes to a place that no request touches. -/
theorem write [DecidableEq Place] (underway : Underway requests todo before store)
    (noSource : ¬Source requests place) (noTarget : ¬Target requests place) :
    Underway requests todo (Function.update before place value)
      (Function.update store place value) where
  requested := underway.requested
  fetched := by
    intro transfer member itsValue isFetched
    rw [underway.fetched transfer member itsValue isFetched, Function.update_of_ne]
    rintro rfl
    exact noSource ⟨_, underway.requested transfer member⟩
  values := by
    intro other
    by_cases here : other = place
    · subst here
      rw [Function.update_self, Function.update_self]
      exact Or.inr ⟨rfl, fun source requested => absurd ⟨source, requested⟩ noTarget⟩
    · rw [Function.update_of_ne here, Function.update_of_ne here]
      rcases underway.values other with ⟨source, requested, value⟩ | unchanged
      · refine Or.inl ⟨source, requested, ?_⟩
        rw [Function.update_of_ne]
        · exact value
        · rintro rfl
          exact noSource ⟨_, requested⟩
      · exact Or.inr unchanged

/-- Requests that are carried out at once -/
theorem copyNow (underway : Underway requests todo before store)
    (apart : Apart (requests ∪ more)) (copied : Copied more store after) :
    Underway (requests ∪ more) todo before after where
  requested transfer member := Or.inl (underway.requested transfer member)
  fetched := underway.fetched
  values := by
    intro place
    rcases copied place with ⟨source, member, value⟩ | ⟨free, same⟩
    · have noTarget : ¬Target requests source := by
        rintro ⟨other, requested⟩
        exact apart.not_target (Or.inr member) ⟨other, Or.inl requested⟩
      exact Or.inl ⟨source, Or.inr member, value.trans (underway.of_not_target noTarget)⟩
    · rw [same]
      rcases underway.values place with ⟨source, member, value⟩ | ⟨unchanged, left⟩
      · exact Or.inl ⟨source, Or.inl member, value⟩
      · refine Or.inr ⟨unchanged, ?_⟩
        rintro source (old | new)
        · exact left source old
        · exact absurd ⟨source, new⟩ free

end Underway

end Copying
