import TraitDispatch.Form

/- Variables in the order in which they were first defined, each name once. -/
namespace TraitDispatch

structure Bindings where
  entries : List (String × Value)

namespace Bindings

def empty : Bindings := ⟨[]⟩

def get? (b : Bindings) (name : String) : Option Value :=
  (b.entries.find? (·.1 == name)).map (·.2)

def size (b : Bindings) : Nat := b.entries.length

def put (name : String) (value : Value) : List (String × Value) → List (String × Value)
  | [] => [(name, value)]
  | entry :: rest =>
    if entry.1 == name then (name, value) :: rest else entry :: put name value rest

def define (b : Bindings) (name : String) (value : Value) : Bindings :=
  ⟨put name value b.entries⟩

theorem get?_define (b : Bindings) (name other : String) (value : Value) :
    (b.define name value).get? other = if other = name then some value else b.get? other := by
  simp only [get?, define]
  induction b.entries with
  | nil =>
    by_cases same : name = other
    · simp [put, same]
    · simp [put, same, Ne.symm same]
  | cons entry rest ih =>
    by_cases found : entry.1 = name <;> by_cases same : other = name <;>
      by_cases here : entry.1 = other <;> simp_all [put]

end Bindings
end TraitDispatch
