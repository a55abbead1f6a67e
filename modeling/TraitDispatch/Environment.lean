import TraitDispatch.Bindings

/- Rules in order of registration, and the state that programs keep beside them. -/
namespace TraitDispatch

inductive Output where
  | console
  | discard
  | capture (buffer : Nat)
  deriving DecidableEq

/-- The rules every interpreter starts with, named for the form they accept and the key they
    answer. -/
inductive StandardRule where
  | blockText
  | blockEvaluate
  | blockExpand
  | listText
  | listEvaluate
  | listExpand
  | nameEvaluate
  | nameAssign
  | nameExpand
  | nameText
  | numberText
  | quotedEvaluate
  | quotedExpand
  | quotedText
  | definitionFunction
  | definitionText
  | functionText
  deriving DecidableEq

@[reducible]
def StandardRule.kind : StandardRule → Kind
  | .blockText | .listText | .nameText | .numberText | .quotedText | .definitionText
  | .functionText => .text
  | .blockEvaluate | .listEvaluate | .nameEvaluate | .quotedEvaluate => .evaluator
  | .blockExpand | .listExpand | .nameExpand | .quotedExpand => .expander
  | .nameAssign => .assigner
  | .definitionFunction => .function

def StandardRule.key : (rule : StandardRule) → Key rule.kind
  | .blockText | .listText | .nameText | .numberText | .quotedText | .definitionText
  | .functionText => Key.text
  | .blockEvaluate | .listEvaluate | .nameEvaluate | .quotedEvaluate => Key.evaluate
  | .blockExpand | .listExpand | .nameExpand | .quotedExpand => Key.expand
  | .nameAssign => Key.assign
  | .definitionFunction => Key.function

inductive Rule (H : Host) where
  | standard (rule : StandardRule)
  | own (kind : Kind) (key : Key kind) (code : H.Code)

def Rule.key {H : Host} : Rule H → KeyId
  | .standard rule => rule.key.id
  | .own _ key _ => key.id

structure EnvironmentId where
  index : Nat
  deriving DecidableEq

/-- Registrations are counted apart from the rules. Bindings, output and slot are absent until they
    are first written. -/
structure Environment (H : Host) where
  rules : List (Rule H) := []
  registrations : Nat := rules.length
  bindings : Option Bindings := none
  output : Option Output := none
  slot : Option H.Slot := none

namespace Environment
variable {H : Host}

def rulesFor (e : Environment H) (key : KeyId) : List (Rule H) :=
  e.rules.filter fun rule => rule.key == key

def ruleCount (e : Environment H) (key : KeyId) : Nat := (e.rulesFor key).length

def totalRules (e : Environment H) : Nat := e.registrations

def derivedKeys (e : Environment H) : List Nat :=
  (e.rules.map fun rule => rule.key.index).eraseDups

def stateSlots (e : Environment H) : Nat :=
  [e.bindings.isSome, e.output.isSome, e.slot.isSome].count true

def register (e : Environment H) (rule : Rule H) : Environment H :=
  { e with rules := e.rules ++ [rule], registrations := e.registrations + 1 }

def define (e : Environment H) (name : String) (value : Value) : Environment H :=
  { e with bindings := some ((e.bindings.getD .empty).define name value) }

def lookup (e : Environment H) (name : String) : Option Value :=
  e.bindings.bind (·.get? name)

end Environment

theorem lookup_define {H : Host} (found : Environment H) (name other : String) (v : Value) :
    (found.define name v).lookup other =
      if other = name then some v else found.lookup other := by
  rw [Environment.lookup, Environment.define, Option.bind_some, Bindings.get?_define]
  cases known : found.bindings <;> simp [Environment.lookup, known, Bindings.empty, Bindings.get?]

end TraitDispatch
