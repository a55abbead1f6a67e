import TraitDispatch.Dispatch

/- An environment with the standard rules and bindings, and entry points that each start from
   a stack of their own. -/
namespace TraitDispatch
variable {H : Host}

/-- Limit of nesting where none is chosen. A step of evaluation takes several entries. -/
def defaultLimit : Nat := 8192

structure Config where
  limit : Option Nat := some defaultLimit
  record : Bool := true

structure Interpreter where
  environment : EnvironmentId
  config : Config

namespace Interpreter

def registerAll (e : EnvironmentId) : List StandardRule → Program H Unit
  | [] => return ()
  | rule :: rest => do
    Program.access (.register e (.standard rule))
    registerAll e rest

def defineAll (e : EnvironmentId) : List (String × Value) → Program H Unit
  | [] => return ()
  | (name, value) :: rest => do
    Program.access (.define e name value)
    defineAll e rest

def useOutput (e : EnvironmentId) : Option Output → Program H Unit
  | some output => Program.access (.setOutput e output)
  | none => return ()

def build (config : Config) (output : Option Output) (bindings : List (String × Value)) :
    Program H Interpreter := do
  let e ← Program.access .addEnvironment
  registerAll e StandardRule.inOrder
  let display ← Program.create (.single Key.function .display none)
  let definer ← Program.create (.single Key.function .definer none)
  defineAll e [("show", display), ("macro", definer)]
  useOutput e output
  defineAll e bindings
  return ⟨e, config⟩

def context (i : Interpreter) : Context :=
  let stack := CallStack.withLimit i.config.limit
  ⟨i.environment, if i.config.record then stack else stack.withoutRecording⟩

def run (i : Interpreter) (program : Value) : Program H Value := program.evaluate i.context

def expand (i : Interpreter) (v parameter replacement : Value) : Program H Value :=
  v.expand parameter replacement i.context

def render (i : Interpreter) (v : Value) : Act H String := v.format i.context

def lookup (i : Interpreter) (name : String) : Program H (Option Value) :=
  return (← Program.access (.environment i.environment)).lookup name

end Interpreter

def outputText (e : EnvironmentId) : Program H String := do
  match (← Program.access (.environment e)).output with
  | some output => Program.access (.captured output)
  | none => return ""

end TraitDispatch
