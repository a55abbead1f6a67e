import TraitDispatch.CallStack
import TraitDispatch.World

/- Programs as trees of requests. A program asks, and goes on with the answer it is given; what
   the answers are is decided by whoever runs it. Only the runner writes memo tables: no request
   does so. -/
namespace TraitDispatch

/-- The environment and the stack in which a request is made. -/
structure Context where
  environment : EnvironmentId
  stack : CallStack

/-- Requests that are answered from the world at once. -/
inductive Access (H : Host) where
  | create (node : Node H)
  | inspect (value : Value)
  | isRemembered (value : Value) (key : KeyId)
  | declare (kind : Kind) (label : String)
  | addEnvironment
  /-- What code does that puts another environment in the place of the one it was given. -/
  | exchange (e e' : EnvironmentId)
  | environment (e : EnvironmentId)
  | register (e : EnvironmentId) (rule : Rule H)
  | define (e : EnvironmentId) (name : String) (value : Value)
  | setOutput (e : EnvironmentId) (output : Output)
  | setSlot (e : EnvironmentId) (slot : H.Slot)
  | openBuffer
  | captured (output : Output)
  | print (output : Output) (line : String)
  | memory
  | setMemory (contents : H.Memory)

namespace Access
variable {H : Host}

@[reducible]
def Answer : Access H → Type
  | .create _ => Value
  | .inspect _ => Node H
  | .isRemembered _ _ => Bool
  | .declare kind _ => Key kind
  | .addEnvironment => EnvironmentId
  | .environment _ => Environment H
  | .openBuffer => Output
  | .captured _ => String
  | .memory => H.Memory
  | .exchange _ _ | .register _ _ | .define _ _ _ | .setOutput _ _ | .setSlot _ _ | .print _ _
  | .setMemory _ => Unit

def perform (w : World H) : (a : Access H) → a.Answer × World H
  | .create node => w.create node
  | .inspect value => (w.node value, w)
  | .isRemembered value key => ((w.remembered value key).isSome, w)
  | .declare kind label => w.declare kind label
  | .addEnvironment => w.addEnvironment
  | .exchange e e' => ((), w.exchange e e')
  | .environment e => (w.environment e, w)
  | .register e rule => ((), w.change e (·.register rule))
  | .define e name value => ((), w.change e (·.define name value))
  | .setOutput e output => ((), w.change e ({ · with output := some output }))
  | .setSlot e slot => ((), w.change e ({ · with slot := some slot }))
  | .openBuffer => w.openBuffer
  | .captured output => (w.captured output, w)
  | .print output line => ((), w.print line output)
  | .memory => (w.memory, w)
  | .setMemory contents => ((), { w with memory := contents })

end Access

inductive Request (H : Host) where
  /-- What the value answers for the key, if anything. -/
  | resolve (value : Value) (key : KeyId) (ctx : Context)
  | call (f : Function H.Code) (argument : Value) (ctx : Context)
  | evaluate (f : Evaluator H.Code) (ctx : Context)
  | expand (f : Expander H.Code) (parameter replacement : Value) (ctx : Context)
  | assign (f : Assigner H.Code) (value : Value) (ctx : Context)
  | access (a : Access H)

@[reducible]
def Request.Answer {H : Host} : Request H → Type
  | .resolve _ _ _ => Except Failure (Option (Payload H))
  | .call _ _ _ | .evaluate _ _ | .expand _ _ _ _ => Except Failure Value
  | .assign _ _ _ => Except Failure Unit
  | .access a => a.Answer

/-- A program that cannot fail. -/
inductive Act (H : Host) (α : Type) where
  | done (result : α)
  | ask (request : Request H) (next : request.Answer → Act H α)

namespace Act
variable {H : Host} {α β γ : Type}

def bind : Act H α → (α → Act H β) → Act H β
  | .done a, f => f a
  | .ask request next, f => .ask request fun answer => (next answer).bind f

instance : Monad (Act H) where
  pure := .done
  bind := .bind

theorem bind_done (m : Act H α) : m.bind .done = m := by
  induction m with
  | done a => rfl
  | ask request next ih => simp [bind, ih]

theorem bind_assoc (m : Act H α) (f : α → Act H β) (g : β → Act H γ) :
    (m.bind f).bind g = m.bind fun a => (f a).bind g := by
  induction m with
  | done a => rfl
  | ask request next ih => simp [bind, ih]

instance : LawfulMonad (Act H) :=
  .mk' _ (fun m => bind_done m) (fun _ _ => rfl) (fun m f g => bind_assoc m f g)

def request (r : Request H) : Act H r.Answer := .ask r .done

def access (a : Access H) : Act H a.Answer := request (.access a)

end Act

/-- A program that may fail. -/
abbrev Program (H : Host) (α : Type) := ExceptT Failure (Act H) α

/-- A program that cannot fail, where one is expected that may. -/
def Act.lift {H : Host} {α : Type} (m : Act H α) : Program H α := ExceptT.lift m

namespace Program
variable {H : Host}

def access (a : Access H) : Program H a.Answer := (Act.access a).lift

def resolve (v : Value) (key : KeyId) (ctx : Context) : Program H (Option (Payload H)) :=
  ExceptT.mk (Act.request (.resolve v key ctx))

def call (f : Function H.Code) (argument : Value) (ctx : Context) : Program H Value :=
  ExceptT.mk (Act.request (.call f argument ctx))

def evaluate (f : Evaluator H.Code) (ctx : Context) : Program H Value :=
  ExceptT.mk (Act.request (.evaluate f ctx))

def expand (f : Expander H.Code) (parameter replacement : Value) (ctx : Context) :
    Program H Value :=
  ExceptT.mk (Act.request (.expand f parameter replacement ctx))

def assign (f : Assigner H.Code) (value : Value) (ctx : Context) : Program H Unit :=
  ExceptT.mk (Act.request (.assign f value ctx))

def fail {α : Type} (cause : Cause) (stack : CallStack) : Program H α :=
  throw (.withTrace (.of cause) stack.backtrace)

def create (node : Node H) : Program H Value := access (.create node)

def createEmpty : Program H Value := create (.bare none)

end Program

namespace Context
variable {H : Host}

def withStack (ctx : Context) (stack : CallStack) : Context := { ctx with stack }

def withoutRecording (ctx : Context) : Context := ctx.withStack ctx.stack.withoutRecording

def enter (ctx : Context) (label : Act H String) (location : Option Location) :
    Program H Context :=
  if ctx.stack.atLimit then throw ctx.stack.limitFailure
  else if ctx.stack.recording then
    return ctx.withStack (ctx.stack.enter (← label.lift) location)
  else
    return ctx.withStack (ctx.stack.enter "" location)

end Context
end TraitDispatch
