import TraitDispatch.Proofs.Queries

/- Embedding programs whose code names keys by their indices. What keys are called is decided where
   it is run. -/
namespace TraitDispatch
variable {H : Host}

/-- What keys are called, by their indices. -/
abbrev Labels := Nat → String

def Labels.key (ℓ : Labels) (i : Nat) : KeyId := ⟨i, ℓ i⟩

def Labels.frame (ℓ : Labels) (i : Nat) : String := s!"deriving {ℓ i}"

/-- What codes of instances and rules mean. -/
structure Closures (H : Host) where
  realize : (k : Kind) → H.Code → Value → Query H Nat (k.Carrier H)
  Source : Kind → H.Code → Type
  check : (k : Kind) → (code : H.Code) → Value → Query H Nat (Option (Source k code))
  derive : (k : Kind) → (code : H.Code) → Source k code → Query H Nat (k.Carrier H)

/-- The behaviour with these meanings where keys are called so. Other codes keep theirs. -/
def Closures.under (C : Closures H) (ℓ : Labels) (B : Behaviour H) : Behaviour H :=
  { B with
    realize := fun k code v ctx => (C.realize k code v).program ℓ.key ctx
    infer := fun k code => ⟨C.Source k code, ⟨fun v ctx => (C.check k code v).program ℓ.key ctx⟩,
      fun source ctx => (C.derive k code source).program ℓ.key ctx⟩ }

/-- What is done from outside, with keys named by their indices. -/
inductive Command (H : Host) where
  | declare (kind : Kind)
  | place (location : Option Location)
  | add (v : Value) (k : Kind) (key : Nat) (body : Body H k)
  | move (v : Value) (location : Option Location)
  | addEnvironment
  | register (e : EnvironmentId) (k : Kind) (key : Nat) (code : H.Code)
  | request (v : Value) (k : Kind) (key : Nat) (ctx : Context)
  | require (v : Value) (k : Kind) (key : Nat) (ctx : Context)

/-- What is seen of it. -/
inductive Notice (H : Host) where
  | declared (index : Nat)
  | made (v : Value)
  | opened (e : EnvironmentId)
  | registered
  | answered (k : Kind) (answer : Except Failure (Option (k.Carrier H)))
  | required (k : Kind) (answer : Except Failure (k.Carrier H))

namespace Command

def act (ℓ : Labels) (index : Nat) : Command H → Act H (Notice H)
  | .declare kind => do return .declared (← Act.access (.declare kind (ℓ index))).id.index
  | .place location => do return .made (← Act.access (.create (.bare location)))
  | .add v k key body => do
    let node ← Act.access (.inspect v)
    return .made (← Act.access (.create (node.add ⟨k, ⟨ℓ.key key⟩, body⟩)))
  | .move v location => do
    let node ← Act.access (.inspect v)
    return .made (← Act.access (.create (node.moved location)))
  | .addEnvironment => do return .opened (← Act.access .addEnvironment)
  | .register e k key code => do
    Act.access (.register e (.own k ⟨ℓ.key key⟩ code))
    return .registered
  | .request v k key ctx => do
    return .answered k (← (v.answer? (⟨ℓ.key key⟩ : Key k) ctx).run)
  | .require v k key ctx => do
    return .required k (← (v.answer (⟨ℓ.key key⟩ : Key k) ctx).run)

/-- One command after the other. -/
def runAll (respond : Responder H) (ℓ : Labels) :
    List (Command H) → World H → Option (List (Notice H) × World H)
  | [], w => some ([], w)
  | command :: rest, w =>
    match (command.act ℓ w.declared.size).run respond w with
    | some (notice, w) => (runAll respond ℓ rest w).map fun p => (notice :: p.1, p.2)
    | none => none

end Command
end TraitDispatch
