import TraitDispatch.Proofs.Term

/- Evaluation of programs as syntax trees, by recursion on what a form says. There are neither
   rules nor memo tables nor stacks: a name is looked up, a list is an assignment or an application,
   a block is a sequence, and a macro is substitution. -/
namespace TraitDispatch

/-- The current bindings, and the lines written so far. -/
structure Store where
  scope : String → Option Term
  output : String

namespace Store

def define (s : Store) (name : String) (t : Term) : Store :=
  { s with scope := fun other => if other = name then some t else s.scope other }

def print (s : Store) (line : String) : Store := { s with output := s.output ++ line ++ "\n" }

def defineAll (s : Store) : List (String × Term) → Store
  | [] => s
  | (name, t) :: rest => (s.define name t).defineAll rest

def initial (output : String) (bindings : List (String × Term)) : Store :=
  ((⟨fun _ => none, output⟩ : Store).defineAll
    [("show", .display none), ("macro", .definer none)]).defineAll bindings

theorem output_defineAll (s : Store) (bindings : List (String × Term)) :
    (s.defineAll bindings).output = s.output := by
  induction bindings generalizing s with
  | nil => rfl
  | cons entry rest ih => exact ih (s.define entry.1 entry.2)

theorem output_initial (output : String) (bindings : List (String × Term)) :
    (initial output bindings).output = output := by
  rw [initial, output_defineAll, output_defineAll]

end Store

/-- A computation over the store. Without an outcome it goes on forever. A failure keeps what was
    done before it. -/
def Direct (α : Type) := Store → Option (Except Cause α × Store)

namespace Direct
variable {α β : Type}

instance : Monad Direct where
  pure a s := some (.ok a, s)
  bind m f s :=
    match m s with
    | some (.ok a, s) => f a s
    | some (.error cause, s) => some (.error cause, s)
    | none => none

def fail (cause : Cause) : Direct α := fun s => some (.error cause, s)

def diverge : Direct α := fun _ => none

def lookup (name : String) : Direct Term := fun s =>
  match s.scope name with
  | some t => some (.ok t, s)
  | none => some (.error (.unbound name), s)

def define (name : String) (t : Term) : Direct Unit := fun s => some (.ok (), s.define name t)

def print (line : String) : Direct Unit := fun s => some (.ok (), s.print line)

variable {m : Direct α} {f : α → Direct β} {s s' : Store}

theorem bind_ok {a : α} (ran : m s = some (.ok a, s')) : (m >>= f) s = f a s' := by
  simp only [bind, ran]

theorem bind_error {cause : Cause} (ran : m s = some (.error cause, s')) :
    (m >>= f) s = some (.error cause, s') := by
  simp only [bind, ran]

theorem bind_none (ran : m s = none) : (m >>= f) s = none := by
  simp only [bind, ran]

end Direct

namespace Term

def name? : Term → Option Name
  | .name n _ => some n
  | _ => none

def splitMark : List Term → Option (List Term × List Term)
  | [] => none
  | t :: rest =>
    if t.name? = some ⟨":"⟩ then some ([], rest)
    else (splitMark rest).map fun sides => (t :: sides.1, sides.2)

def grouped : List Term → Term
  | [t] => t
  | ts => listed ts

section Evaluation
variable (self : Term → Direct Term)

def operand (t : Term) : Direct Term := if t.isSyntax then self t else pure t

def assign (left right : List Term) : Direct Term :=
  if left.isEmpty || right.isEmpty then
    .fail (.custom "assignment needs a target on the left and a value on the right")
  else do
    let value ← operand self (grouped right)
    match (grouped left).name? with
    | some n =>
      Direct.define n.name value
      return .empty none
    | none => .fail (.missingTrait "Assign")

def call (f argument : Term) : Direct Term :=
  match f with
  | .display _ => do
    let value ← operand self argument
    Direct.print value.render
    return .empty none
  | .definer _ => return .definerOf argument none
  | .definerOf parameter _ => return .definition parameter argument parameter.location
  | .definition parameter body _ => do
    let replacement ← operand self argument
    if body.isSyntax then operand self (body.substitute parameter.name? replacement)
    else .fail (.missingTrait "Macro-Expand")
  | .function _ => .diverge
  | f => .fail (.custom s!"cannot call {f.render} because it is not a function")

def callAll (f : Term) : List Term → Direct Term
  | [] => return f
  | argument :: rest => do callAll (← call self f argument) rest

def apply (items : List Term) : Direct Term :=
  match splitMark items with
  | some (left, right) => assign self left right
  | none =>
    match items with
    | [] => return .empty none
    | head :: arguments => do callAll self (← operand self head) arguments

def runStatements (result : Term) : List (List Term) → Direct Term
  | [] => return result
  | statement :: rest => do runStatements (← self (listed statement)) rest

end Evaluation

/-- Fuel bounds how deeply evaluations may be nested in one another. -/
def evaluate : Nat → Term → Direct Term
  | 0, _ => .diverge
  | fuel + 1, t =>
    match t with
    | .name n _ => .lookup n.name
    | .quoted inner _ => return inner
    | .block statements _ => runStatements (evaluate fuel) (.empty none) statements
    | .list items _ => apply (evaluate fuel) items
    | _ => .fail (.missingTrait "Evaluate")

end Term

namespace Direct
variable {α β : Type}

def Within (d d' : Direct α) : Prop := ∀ s p, d s = some p → d' s = some p

theorem Within.same (d : Direct α) : d.Within d := fun _ _ ran => ran

theorem Within.bind {d d' : Direct α} {f f' : α → Direct β} (first : d.Within d')
    (rest : ∀ a, (f a).Within (f' a)) : (d >>= f).Within (d' >>= f') := by
  intro s p ran
  rcases begun : d s with _ | ⟨_ | a, s₁⟩
  · rw [bind_none begun] at ran
    cases ran
  · rw [bind_error begun] at ran
    rw [bind_error (first s _ begun)]
    exact ran
  · rw [bind_ok begun] at ran
    rw [bind_ok (first s _ begun)]
    exact rest a s₁ p ran

end Direct

namespace Term
section Within
variable {self self' : Term → Direct Term} (within : ∀ t, (self t).Within (self' t))
include within

theorem operand_within (t : Term) : (t.operand self).Within (t.operand self') := by
  unfold operand
  split
  · exact within t
  · exact .same _

theorem assign_within (left right : List Term) :
    (assign self left right).Within (assign self' left right) := by
  unfold assign
  split
  · exact .same _
  · exact (operand_within within _).bind fun value => .same _

theorem call_within (f argument : Term) :
    (call self f argument).Within (call self' f argument) := by
  cases f with
  | display l => exact (operand_within within argument).bind fun value => .same _
  | definition parameter body l =>
    refine (operand_within within argument).bind fun replacement => ?_
    split
    · exact operand_within within _
    · exact .same _
  | _ => exact .same _

theorem callAll_within (f : Term) (arguments : List Term) :
    (callAll self f arguments).Within (callAll self' f arguments) := by
  induction arguments generalizing f with
  | nil => exact .same _
  | cons argument rest ih => exact (call_within within f argument).bind ih

theorem apply_within (items : List Term) : (apply self items).Within (apply self' items) := by
  unfold apply
  split
  · exact assign_within within _ _
  · cases items with
    | nil => exact .same _
    | cons head arguments =>
      exact (operand_within within head).bind fun f => callAll_within within f arguments

theorem runStatements_within (result : Term) (statements : List (List Term)) :
    (runStatements self result statements).Within (runStatements self' result statements) := by
  induction statements generalizing result with
  | nil => exact .same _
  | cons statement rest ih => exact (within (listed statement)).bind ih

end Within

/-- An outcome once found stays the same with more fuel. -/
theorem evaluate_within {fuel more : Nat} (le : fuel ≤ more) (t : Term) :
    (t.evaluate fuel).Within (t.evaluate more) := by
  induction fuel generalizing more t with
  | zero =>
    intro s p ran
    cases ran
  | succ fuel ih =>
    obtain ⟨more, rfl⟩ : ∃ k, more = k + 1 := ⟨more - 1, by omega⟩
    have within := ih (Nat.le_of_succ_le_succ le)
    cases t with
    | list items l => exact apply_within within items
    | block statements l => exact runStatements_within within _ statements
    | _ => exact .same _

end Term
end TraitDispatch
