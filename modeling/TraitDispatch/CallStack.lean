import TraitDispatch.Failure
import TraitDispatch.Form

/- The chain of entries that lead to the present point of a run. A stack is a value: entering
   gives a new one, and the caller keeps its own.

   Nesting counts every entry; depth counts those that left a frame, which happens only while
   recording is on. Derivations in progress are listed in either case. -/
namespace TraitDispatch

structure Derivation where
  value : Value
  key : Nat
  deriving DecidableEq

structure CallStack where
  frames : List Frame
  depth : Nat
  active : List Derivation
  queued : Option Location
  recording : Bool
  nesting : Nat
  limit : Option Nat

namespace CallStack

def withLimit (limit : Option Nat) : CallStack := ⟨[], 0, [], none, true, 0, limit⟩

def fresh : CallStack := withLimit none

def withoutRecording (s : CallStack) : CallStack := { s with recording := false }

def queue (s : CallStack) (location : Location) : CallStack := { s with queued := some location }

def backtrace (s : CallStack) : Backtrace := ⟨s.frames⟩

def atLimit (s : CallStack) : Bool :=
  match s.limit with
  | some limit => limit ≤ s.nesting
  | none => false

def limitFailure (s : CallStack) : Failure :=
  .withTrace (.of (.depthLimit (s.limit.getD 0))) s.backtrace

/-- One entry deeper, whatever the limit says. The queued location is used up by any frame. -/
def enter (s : CallStack) (label : String) (location : Option Location) : CallStack :=
  if s.recording then
    { s with
      frames := ⟨label, location <|> s.queued⟩ :: s.frames
      depth := s.depth + 1
      queued := none
      nesting := s.nesting + 1 }
  else
    { s with nesting := s.nesting + 1 }

def push (s : CallStack) (label : String) (location : Option Location) : Except Failure CallStack :=
  if s.atLimit then .error s.limitFailure else .ok (s.enter label location)

def isActive (s : CallStack) (value : Value) (key : KeyId) : Bool :=
  s.active.any fun entry => entry.value.id == value.id && entry.key == key.index

/-- A derivation already in progress is a cycle, and is reported before the limit is looked at. -/
def derive (s : CallStack) (value : Value) (key : KeyId) : Except Failure CallStack :=
  if s.isActive value key then
    .error (.withTrace (.of (.cyclicDerivation key.label)) s.backtrace)
  else if s.atLimit then .error s.limitFailure
  else
    .ok { s.enter s!"deriving {key.label}" none with active := ⟨value, key.index⟩ :: s.active }

theorem push_eq_ok_iff {s t : CallStack} {label : String} {location : Option Location} :
    s.push label location = .ok t ↔ s.atLimit = false ∧ s.enter label location = t := by
  cases full : s.atLimit <;> simp [push, full]

theorem nesting_enter (s : CallStack) (label : String) (location : Option Location) :
    (s.enter label location).nesting = s.nesting + 1 := by
  unfold enter
  split <;> rfl

theorem isActive_iff {s : CallStack} {v : Value} {key : KeyId} :
    s.isActive v key = true ↔ ⟨v, key.index⟩ ∈ s.active := by
  simp only [isActive, List.any_eq_true, Bool.and_eq_true, beq_iff_eq]
  constructor
  · rintro ⟨⟨⟨i⟩, k⟩, member, rfl, rfl⟩
    exact member
  · intro member
    exact ⟨_, member, rfl, rfl⟩

theorem derive_eq_ok_iff {s t : CallStack} {v : Value} {key : KeyId} :
    s.derive v key = .ok t ↔
      ⟨v, key.index⟩ ∉ s.active ∧ s.atLimit = false ∧
        { s.enter s!"deriving {key.label}" none with
          active := ⟨v, key.index⟩ :: s.active } = t := by
  by_cases cycle : ⟨v, key.index⟩ ∈ s.active
  · simp [derive, isActive_iff, cycle]
  · cases full : s.atLimit <;> simp [derive, isActive_iff, cycle, full]

end CallStack
end TraitDispatch
