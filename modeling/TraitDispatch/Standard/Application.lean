import TraitDispatch.Protocol

/- The functions that are bound from the start, and the application of macros. -/
namespace TraitDispatch
variable {H : Host}

def printLine (line : String) (ctx : Context) : Program H Unit := do
  match (← Program.access (.environment ctx.environment)).output with
  | some output => Program.access (.print output line)
  | none =>
    Program.access (.setOutput ctx.environment .console)
    Program.access (.print .console line)

def display (argument : Value) (ctx : Context) : Program H Value := do
  let value ← argument.evaluateOrSelf ctx
  printLine (← (value.format ctx).lift) ctx
  Program.createEmpty

/-- Takes the parameter of a macro as it is written, and waits for the body. -/
def defineMacro (parameter : Value) : Program H Value :=
  Program.create (.single Key.function (.definerOf parameter) none)

/-- The macro stands where its parameter stands. -/
def defineMacroOf (parameter body : Value) : Program H Value := do
  Program.create (.single Key.definition ⟨parameter, body⟩ (← parameter.location))

/-- Evaluates the argument, puts it in place of the parameter and evaluates what comes of it. -/
def Macro.apply (m : Macro) (argument : Value) (ctx : Context) : Program H Value := do
  let replacement ← argument.evaluateOrSelf ctx
  let expanded ← m.body.expand m.parameter replacement ctx
  expanded.evaluateOrSelf ctx

end TraitDispatch
