import TraitDispatch.Dispatch

/- Code that puts requests for answers and computes from them, and does nothing else. How keys are
   named in it is left open; what a name stands for is decided where it is run. -/
namespace TraitDispatch
variable {H : Host} {κ α β : Type}

/-- A program whose only requests are queries. Its result depends on their answers alone, and a
    query that fails ends it. -/
inductive Query (H : Host) (κ α : Type) where
  | done (result : α)
  | fail (failure : Failure)
  | raise (cause : Cause)
  | missing (key : κ)
  | mismatch (key : κ)
  | ask (v : Value) (key : κ) (next : Option (Payload H) → Query H κ α)

namespace Query
variable (name : κ → KeyId) (ctx : Context)

def program : Query H κ α → Program H α
  | .done a => return a
  | .fail failure => throw failure
  | .raise cause => Program.fail cause ctx.stack
  | .missing key => Program.fail (.missingTrait (name key).label) ctx.stack
  | .mismatch key => throw (.of (.kindMismatch (name key).label))
  | .ask v key next => do (next (← Program.resolve v (name key) ctx)).program

def bind : Query H κ α → (α → Query H κ β) → Query H κ β
  | .done a, f => f a
  | .fail failure, _ => .fail failure
  | .raise cause, _ => .raise cause
  | .missing key, _ => .missing key
  | .mismatch key, _ => .mismatch key
  | .ask v key next, f => .ask v key fun answer => (next answer).bind f

def askFor (k : Kind) (v : Value) (key : κ) (next : Option (k.Carrier H) → Query H κ α) :
    Query H κ α :=
  .ask v key fun
    | none => next none
    | some payload =>
      match payload.as? k with
      | some content => next (some content)
      | none => .mismatch key

theorem program_bind (q : Query H κ α) (f : α → Query H κ β) :
    (q.bind f).program name ctx = q.program name ctx >>= fun a => (f a).program name ctx := by
  induction q with
  | done a => exact (pure_bind a fun a => (f a).program name ctx).symm
  | fail failure | raise cause | missing key | mismatch key => rfl
  | ask v key next ih =>
    simp only [bind, program, bind_assoc]
    exact congrArg _ (funext ih)

theorem program_askFor (k : Kind) (v : Value) (key : κ)
    (next : Option (k.Carrier H) → Query H κ α) :
    (askFor k v key next).program name ctx =
      v.answer? (⟨name key⟩ : Key k) ctx >>= fun found => (next found).program name ctx := by
  simp only [askFor, program, Value.answer?, bind_assoc]
  refine congrArg _ (funext fun found => ?_)
  cases found with
  | none => exact (pure_bind ..).symm
  | some payload =>
    dsimp only
    cases payload.as? k with
    | none => rfl
    | some content => exact (pure_bind ..).symm

end Query
end TraitDispatch
