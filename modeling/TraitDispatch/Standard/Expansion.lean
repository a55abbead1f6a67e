import TraitDispatch.Standard.Evaluation

/- Expansion of the standard forms. Composite forms expand their parts and are rebuilt at the
   place where they stood; a name is replaced if it is the name of the parameter. -/
namespace TraitDispatch
variable {H : Host}

def ListForm.expand (l : ListForm) (parameter replacement : Value) (ctx : Context) :
    Program H ListForm :=
  return ⟨← l.items.mapM (·.expandOrSelf parameter replacement ctx)⟩

def expandStatement (parameter replacement : Value) (ctx : Context) (statement : List Value) :
    Program H (List Value) := do
  let expanded ← (← createList statement).expand parameter replacement ctx
  return (← expanded.answer Key.list ctx).items

def Block.expand (b : Block) (parameter replacement : Value) (ctx : Context) : Program H Block :=
  return ⟨← b.statements.mapM (expandStatement parameter replacement ctx)⟩

def Name.expand (n : Name) (location : Option Location) (parameter replacement : Value)
    (ctx : Context) : Program H Value := do
  if (← parameter.answer? Key.name ctx) = some n then return replacement
  else Program.create (.single Key.name n location)

def Quoted.expand (q : Quoted) (parameter replacement : Value) (ctx : Context) :
    Program H Quoted :=
  return ⟨← q.inner.expandOrSelf parameter replacement ctx⟩

end TraitDispatch
