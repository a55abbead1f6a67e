import TraitDispatch.Program

/- Typed requests, and the rendering of values, which never fails. -/
namespace TraitDispatch

/-- Shown for values that have no rendering, and where rendering fails. -/
def placeholder : String := "<value>"

namespace Value
variable {H : Host} {k : Kind}

def answer? (v : Value) (key : Key k) (ctx : Context) : Program H (Option (k.Carrier H)) := do
  match ← Program.resolve v key.id ctx with
  | none => return none
  | some payload =>
    match payload.as? k with
    | some content => return some content
    | none => throw (.of (.kindMismatch key.label))

def answer (v : Value) (key : Key k) (ctx : Context) : Program H (k.Carrier H) := do
  match ← v.answer? key ctx with
  | some content => return content
  | none => Program.fail (.missingTrait key.label) ctx.stack

def answers (v : Value) (key : Key k) (ctx : Context) : Program H Bool :=
  return (← v.answer? key ctx).isSome

def location (v : Value) : Program H (Option Location) :=
  return (← Program.access (.inspect v)).location

/-- The rendering of a value. It leaves no frames on any stack. -/
def format (v : Value) (ctx : Context) : Act H String := do
  match ← (v.answer? Key.text ctx.withoutRecording).run with
  | .ok (some text) => return text.text
  | .ok none | .error _ => return placeholder

end Value
end TraitDispatch
