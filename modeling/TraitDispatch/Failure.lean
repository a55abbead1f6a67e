import TraitDispatch.Location

/- Why a request failed, and which entries were in progress when it did. -/
namespace TraitDispatch

structure Frame where
  label : String
  location : Option Location
  deriving BEq

def Frame.text (f : Frame) : String :=
  match f.location with
  | some l => s!"{f.label} ({l.text})"
  | none => f.label

/-- Frames of the entries in progress, most recent first. -/
structure Backtrace where
  frames : List Frame
  deriving BEq

namespace Backtrace

def empty : Backtrace := ⟨[]⟩

def text (b : Backtrace) : String :=
  String.join (b.frames.map fun f => "\n    " ++ f.text)

end Backtrace

inductive Cause where
  | missingTrait (label : String)
  | cyclicDerivation (label : String)
  | depthLimit (limit : Nat)
  | kindMismatch (label : String)
  | unbound (name : String)
  | custom (message : String)
  deriving DecidableEq

def Cause.message : Cause → String
  | .missingTrait label => s!"value does not conform to {label}"
  | .cyclicDerivation label => s!"cyclic derivation of {label}"
  | .depthLimit limit => s!"maximum derivation depth exceeded (limit: {limit})"
  | .kindMismatch label => s!"trait {label} holds a value of an unexpected type"
  | .unbound name => s!"undefined variable: {name}"
  | .custom message => message

structure Failure where
  cause : Cause
  trace : Backtrace

namespace Failure

def of (cause : Cause) : Failure := ⟨cause, .empty⟩

def withTrace (f : Failure) (trace : Backtrace) : Failure := { f with trace }

def message (f : Failure) : String := f.cause.message

def text (f : Failure) : String := f.message ++ f.trace.text

end Failure
end TraitDispatch
