import TraitDispatch.Run
import TraitDispatch.Standard.Application
import TraitDispatch.Standard.Expansion
import TraitDispatch.Standard.Rules

/- How requests are answered. A value answers a key with what it answered before; else with its
   newest instance for the key; else with the first rule for the key that accepts it. An answer
   found is remembered. An absent answer and a failure are not.

   Fuel bounds how deeply programs may be nested in one another. A run without an answer has
   used it up. -/
namespace TraitDispatch
variable {H : Host}

/-- What the codes of the embedding program mean. -/
structure Behaviour (H : Host) where
  realize : (k : Kind) → H.Code → Value → Context → Program H (k.Carrier H)
  infer : (k : Kind) → H.Code → Inference H k
  call : H.Code → Value → Context → Program H Value
  evaluate : H.Code → Context → Program H Value
  expand : H.Code → Value → Value → Context → Program H Value
  assign : H.Code → Value → Context → Program H Unit

def Instance.realize (B : Behaviour H) (i : Instance H) (v : Value) (ctx : Context) :
    Program H (Payload H) :=
  match i.body with
  | .constant content => return ⟨i.kind, content⟩
  | .lazy code => return ⟨i.kind, ← B.realize i.kind code v ctx⟩

def Rule.apply (B : Behaviour H) (v : Value) (ctx : Context) :
    Rule H → Program H (Option (Payload H))
  | .standard rule => rule.inference.apply v ctx
  | .own kind _ code => (B.infer kind code).apply v ctx

/-- The answer of the first rule that accepts the value. A rule that fails ends the search. -/
def applyFirst (B : Behaviour H) (v : Value) (ctx : Context) :
    List (Rule H) → Program H (Option (Payload H))
  | [] => return none
  | rule :: rest => do
    match ← rule.apply B v ctx with
    | some answer => return some answer
    | none => applyFirst B v ctx rest

/-- How a value comes to an answer that it has not given before. Rules are those registered at
    the start. -/
def deriveAnswer (B : Behaviour H) (w : World H) (v : Value) (key : KeyId) (ctx : Context) :
    Program H (Option (Payload H)) :=
  match (w.node v).find? key with
  | some own => return some (← own.realize B v ctx)
  | none => applyFirst B v ctx ((w.environment ctx.environment).rulesFor key)

def Function.apply (B : Behaviour H) (argument : Value) (ctx : Context) :
    Function H.Code → Program H Value
  | .display => TraitDispatch.display argument ctx
  | .definer => defineMacro argument
  | .definerOf parameter => defineMacroOf parameter argument
  | .application definition => definition.apply argument ctx
  | .own code => B.call code argument ctx

def Evaluator.apply (B : Behaviour H) (ctx : Context) : Evaluator H.Code → Program H Value
  | .block b => b.evaluate ctx
  | .list l => l.evaluate ctx
  | .name n => n.evaluate ctx
  | .quoted inner => return inner
  | .own code => B.evaluate code ctx

def Expander.apply (B : Behaviour H) (parameter replacement : Value) (ctx : Context) :
    Expander H.Code → Program H Value
  | .block b location => do
    Program.create (.single Key.block (← b.expand parameter replacement ctx) location)
  | .list l location => do
    Program.create (.single Key.list (← l.expand parameter replacement ctx) location)
  | .name n location => n.expand location parameter replacement ctx
  | .quoted inner location => do
    Program.create (.single Key.quoted (← Quoted.expand ⟨inner⟩ parameter replacement ctx) location)
  | .own code => B.expand code parameter replacement ctx

def Assigner.apply (B : Behaviour H) (value : Value) (ctx : Context) :
    Assigner H.Code → Program H Unit
  | .name n => n.assign value ctx
  | .own code => B.assign code value ctx

/-- Answers for a key, with derivations run by the given responder. -/
def resolve (B : Behaviour H) (respond : Responder H) (v : Value) (key : KeyId) (ctx : Context)
    (w : World H) : Option (Except Failure (Option (Payload H)) × World H) :=
  match w.remembered v key with
  | some answer => some (.ok (some answer), w)
  | none =>
    match ctx.stack.derive v key with
    | .error failure => some (.error failure, w)
    | .ok stack =>
      match (deriveAnswer B w v key (ctx.withStack stack)).perform respond w with
      | some (.ok (some answer), w) => some (.ok (some answer), w.remember v key answer)
      | other => other

def respond (B : Behaviour H) : Nat → Responder H
  | _, .access a, w => some (a.perform w)
  | 0, _, _ => none
  | fuel + 1, .resolve v key ctx, w => resolve B (respond B fuel) v key ctx w
  | fuel + 1, .call f argument ctx, w => (f.apply B argument ctx).perform (respond B fuel) w
  | fuel + 1, .evaluate f ctx, w => (f.apply B ctx).perform (respond B fuel) w
  | fuel + 1, .expand f parameter replacement ctx, w =>
    (f.apply B parameter replacement ctx).perform (respond B fuel) w
  | fuel + 1, .assign f value ctx, w => (f.apply B value ctx).perform (respond B fuel) w

theorem respond_access (B : Behaviour H) (fuel : Nat) (a : Access H) (w : World H) :
    respond B fuel (.access a) w = some (a.perform w) := by
  cases fuel <;> rfl

theorem resolve_mono {B : Behaviour H} {weak strong : Responder H}
    (keeps : ∀ r w p, weak r w = some p → strong r w = some p) (v : Value) (key : KeyId)
    (ctx : Context) (w : World H) (p : Except Failure (Option (Payload H)) × World H)
    (found : resolve B weak v key ctx w = some p) : resolve B strong v key ctx w = some p := by
  unfold resolve at found ⊢
  cases memo : w.remembered v key with
  | some answer => simpa [memo] using found
  | none =>
    simp only [memo] at found ⊢
    cases admitted : ctx.stack.derive v key with
    | error failure => simpa [admitted] using found
    | ok stack =>
      simp only [admitted] at found ⊢
      cases ran : (deriveAnswer B w v key (ctx.withStack stack)).perform weak w with
      | none => simp [ran] at found
      | some q =>
        rw [ran] at found
        rw [Program.perform_mono keeps _ _ _ ran]
        exact found

theorem respond_mono {B : Behaviour H} {fuel more : Nat} (le : fuel ≤ more) (r : Request H)
    (w : World H) (p : r.Answer × World H) (answered : respond B fuel r w = some p) :
    respond B more r w = some p := by
  induction fuel generalizing more r w p with
  | zero =>
    cases r with
    | access a => rw [respond_access] at answered ⊢; exact answered
    | _ => simp [respond] at answered
  | succ fuel ih =>
    obtain ⟨more, rfl⟩ : ∃ m, more = m + 1 := ⟨more - 1, by omega⟩
    have keeps := fun r w p => ih (by omega : fuel ≤ more) r w p
    cases r with
    | access a => rw [respond_access] at answered ⊢; exact answered
    | resolve v key ctx => exact resolve_mono keeps v key ctx w p answered
    | _ => exact Program.perform_mono keeps _ w p answered

end TraitDispatch
