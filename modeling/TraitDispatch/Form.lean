import TraitDispatch.Key
import TraitDispatch.Location

/- What a value can answer for a key. Values are handles; two handles are the same value
   exactly when they are equal. Callable answers are codes: those of the standard rules are
   spelled out here, and `own` holds one of the embedding program, of type `κ`. -/
namespace TraitDispatch

structure Value where
  id : Nat
  deriving DecidableEq

structure Text where
  text : String
  location : Option Location

structure Name where
  name : String
  deriving DecidableEq

structure Number where
  bits : UInt64
  deriving DecidableEq

structure ListForm where
  items : List Value
  deriving DecidableEq

structure Block where
  statements : List (List Value)
  deriving DecidableEq

structure Quoted where
  inner : Value
  deriving DecidableEq

structure Macro where
  parameter : Value
  body : Value
  deriving DecidableEq

/-- Something that can be applied to an argument as written. -/
inductive Function (κ : Type) where
  | display
  | definer
  | definerOf (parameter : Value)
  | application (definition : Macro)
  | own (code : κ)

inductive Evaluator (κ : Type) where
  | block (block : Block)
  | list (list : ListForm)
  | name (name : Name)
  | quoted (inner : Value)
  | own (code : κ)

/-- Substitution of a parameter in a form that stood at the given place. -/
inductive Expander (κ : Type) where
  | block (block : Block) (location : Option Location)
  | list (list : ListForm) (location : Option Location)
  | name (name : Name) (location : Option Location)
  | quoted (inner : Value) (location : Option Location)
  | own (code : κ)

inductive Assigner (κ : Type) where
  | name (name : Name)
  | own (code : κ)

/-- What the embedding program brings: codes of its functions and rules, payloads of its own
    keys, one slot of state in each environment, and a memory that all its code shares. -/
structure Host where
  Code : Type
  Own : Nat → Type
  Slot : Type
  Memory : Type

@[reducible]
def Kind.Carrier (H : Host) : Kind → Type
  | .text => Text
  | .name => Name
  | .number => Number
  | .list => ListForm
  | .block => Block
  | .quoted => Quoted
  | .definition => Macro
  | .function => Function H.Code
  | .evaluator => Evaluator H.Code
  | .expander => Expander H.Code
  | .assigner => Assigner H.Code
  | .own sort => H.Own sort

/-- An answer together with its kind. -/
structure Payload (H : Host) where
  kind : Kind
  content : kind.Carrier H

def Payload.as? {H : Host} (p : Payload H) (k : Kind) : Option (k.Carrier H) :=
  if same : p.kind = k then some (same ▸ p.content) else none

@[simp]
theorem Payload.as?_self {H : Host} (k : Kind) (x : k.Carrier H) :
    (Payload.mk k x).as? k = some x := by
  simp [Payload.as?]

theorem Payload.as?_eq_some_iff {H : Host} {p : Payload H} {k : Kind} {x : k.Carrier H} :
    p.as? k = some x ↔ p = ⟨k, x⟩ := by
  obtain ⟨j, content⟩ := p
  by_cases same : j = k
  · subst same
    simp
  · simp [as?, same]

end TraitDispatch
