import TraitDispatch.Protocol

/- Evaluation of the standard forms. A list is an assignment if it holds the name `:`, and
   otherwise applies its head to the other items one after the other. A block evaluates its
   statements as lists and gives the last result. -/
namespace TraitDispatch
variable {H : Host}

def assignmentMark : Name := ⟨":"⟩

def splitAssignment (passed : List Value) :
    List Value → Context → Program H (Option (List Value × List Value))
  | [], _ => return none
  | item :: rest, ctx => do
    let name ← item.answer? Key.name ctx
    if name = some assignmentMark then return some (passed.reverse, rest)
    else splitAssignment (item :: passed) rest ctx

def createList : List Value → Program H Value
  | [] => Program.create (.single Key.list ⟨[]⟩ none)
  | first :: rest => do
    Program.create (.single Key.list ⟨first :: rest⟩ (← first.location))

def bundle : List Value → Program H Value
  | [single] => return single
  | items => createList items

def evaluateAssignment (left right : List Value) (ctx : Context) : Program H Value :=
  if left.isEmpty || right.isEmpty then
    Program.fail (.custom "assignment needs a target on the left and a value on the right")
      ctx.stack
  else do
    let target ← bundle left
    let value ← (← bundle right).evaluateOrSelf ctx
    let assigner ← target.answer Key.assign ctx
    Program.assign assigner value ctx
    Program.createEmpty

def callAll (function : Value) : List Value → Context → Program H Value
  | [], _ => return function
  | argument :: rest, ctx => do callAll (← function.call argument ctx) rest ctx

def ListForm.evaluate (l : ListForm) (ctx : Context) : Program H Value := do
  match ← splitAssignment [] l.items ctx with
  | some (left, right) => evaluateAssignment left right ctx
  | none =>
    match l.items with
    | [] => Program.createEmpty
    | head :: arguments => callAll (← head.evaluateOrSelf ctx) arguments ctx

/-- Evaluates statements in order; without any the result is the one already at hand. -/
def evaluateStatements (result : Value) : List (List Value) → Context → Program H Value
  | [], _ => return result
  | statement :: rest, ctx => do
    evaluateStatements (← (← createList statement).evaluate ctx) rest ctx

def Block.evaluate (b : Block) (ctx : Context) : Program H Value := do
  evaluateStatements (← Program.createEmpty) b.statements ctx

def Name.evaluate (n : Name) (ctx : Context) : Program H Value := do
  let inner ← ctx.enter (return s!"resolving variable '{n.name}'") none
  match (← Program.access (.environment ctx.environment)).lookup n.name with
  | some value => return value
  | none => Program.fail (.unbound n.name) inner.stack

def Name.assign (n : Name) (value : Value) (ctx : Context) : Program H Unit :=
  Program.access (.define ctx.environment n.name value)

end TraitDispatch
