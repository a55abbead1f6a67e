import TraitDispatch.Resolution

/- Renderings of the forms that are made of other values. -/
namespace TraitDispatch
variable {H : Host}

/-- The items in parentheses, parted by blanks. -/
def ListForm.render (l : ListForm) (ctx : Context) : Act H String :=
  return "(" ++ " ".intercalate (← l.items.mapM (·.format ctx)) ++ ")"

def Quoted.render (q : Quoted) (ctx : Context) : Act H String :=
  return "'" ++ (← q.inner.format ctx)

end TraitDispatch
