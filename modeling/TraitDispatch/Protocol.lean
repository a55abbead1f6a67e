import TraitDispatch.Resolution

/- Evaluation, application and expansion. Each is the answer to a key, applied inside an entry
   whose frame shows the value and carries its location. -/
namespace TraitDispatch.Value
variable {H : Host}

def evaluate (v : Value) (ctx : Context) : Program H Value := do
  let inner ← ctx.enter (return s!"evaluating {← v.format ctx}") (← v.location)
  let evaluator ← v.answer Key.evaluate inner
  Program.evaluate evaluator inner

def expand (v parameter replacement : Value) (ctx : Context) : Program H Value := do
  let inner ← ctx.enter (return s!"expanding {← v.format ctx}") (← v.location)
  let expander ← v.answer Key.expand inner
  Program.expand expander parameter replacement inner

def call (v argument : Value) (ctx : Context) : Program H Value := do
  let inner ← ctx.enter (return s!"calling {← v.format ctx}") (← v.location)
  match ← v.answer? Key.function inner with
  | some function => Program.call function argument inner
  | none =>
    let rendered ← (v.format inner).lift
    Program.fail (.custom s!"cannot call {rendered} because it is not a function") inner.stack

/-- Values without an evaluator stand for themselves. -/
def evaluateOrSelf (v : Value) (ctx : Context) : Program H Value := do
  if ← v.answers Key.evaluate ctx then v.evaluate ctx else return v

/-- Values without an expander are left as they are. -/
def expandOrSelf (v parameter replacement : Value) (ctx : Context) : Program H Value := do
  if ← v.answers Key.expand ctx then v.expand parameter replacement ctx else return v

end TraitDispatch.Value
