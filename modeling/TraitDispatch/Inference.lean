import TraitDispatch.Resolution

/- What a rule says: a value that passes a validation has an answer, computed from what
   qualified it. Validations ask for answers themselves, so rules build on each other. -/
namespace TraitDispatch

structure Validation (H : Host) (α : Type) where
  check : Value → Context → Program H (Option α)

namespace Validation
variable {H : Host} {k : Kind} {α β : Type}

/-- Accepts the values that answer the key. -/
def conforms (key : Key k) : Validation H (k.Carrier H) := ⟨fun v ctx => v.answer? key ctx⟩

def conformsAt (key : Key k) : Validation H (k.Carrier H × Option Location) :=
  ⟨fun v ctx => do
    match ← v.answer? key ctx with
    | some content => return some (content, ← v.location)
    | none => return none⟩

def map (f : α → β) (a : Validation H α) : Validation H β :=
  ⟨fun v ctx => return (← a.check v ctx).map f⟩

/-- Accepts what the first accepts, and else what the second does. -/
def or (a b : Validation H α) : Validation H α :=
  ⟨fun v ctx => do
    match ← a.check v ctx with
    | some source => return some source
    | none => b.check v ctx⟩

end Validation

structure Inference (H : Host) (k : Kind) where
  Source : Type
  validation : Validation H Source
  derive : Source → Context → Program H (k.Carrier H)

namespace Inference
variable {H : Host} {k : Kind}

/-- From any value that answers `key`, by a computation that asks nothing. -/
def direct {j : Kind} (key : Key j) (f : j.Carrier H → k.Carrier H) : Inference H k :=
  ⟨_, .conforms key, fun source _ => return f source⟩

def directAt {j : Kind} (key : Key j) (f : j.Carrier H → Option Location → k.Carrier H) :
    Inference H k :=
  ⟨_, .conformsAt key, fun source _ => return f source.1 source.2⟩

def apply (i : Inference H k) (v : Value) (ctx : Context) : Program H (Option (Payload H)) := do
  match ← i.validation.check v ctx with
  | some source => return some ⟨k, ← i.derive source ctx⟩
  | none => return none

end Inference
end TraitDispatch
