import TraitDispatch.Literal.Escape
import TraitDispatch.World

/- Descriptions of keys, values and environments, for inspection rather than for display. -/
namespace TraitDispatch

def Key.describe {k : Kind} (key : Key k) : String := s!"TraitId({key.id.label}#{key.id.index})"

def describeOption : Option String → String
  | some text => "Some(" ++ text ++ ")"
  | none => "None"

/-- Named fields in braces. -/
def describeFields (name : String) (fields : List (String × String)) : String :=
  let inner := ", ".intercalate (fields.map fun field => field.1 ++ ": " ++ field.2)
  name ++ " \x7b " ++ inner ++ " \x7d"

def Location.describe (l : Location) : String :=
  describeFields "SourceLocation" [
    ("file", describeOption (l.file.map fun path => Literal.quote path.written)),
    ("line", toString l.line),
    ("column", toString l.column)]

/-- Labels of the instances, oldest first, and the location. -/
def Node.describe {H : Host} (n : Node H) : String :=
  describeFields "Value" [
    ("traits", "[" ++ ", ".intercalate (n.keys.map fun key => Literal.quote key.label) ++ "]"),
    ("location", describeOption (n.location.map (·.describe)))]

def Environment.describe {H : Host} (e : Environment H) : String :=
  describeFields "Environment" [
    ("conformances", toString e.totalRules),
    ("derived_traits", toString e.derivedKeys.length),
    ("state_slots", toString e.stateSlots)]

theorem Environment.describe_eq {H : Host} (e : Environment H) :
    e.describe = "Environment \x7b conformances: " ++ toString e.totalRules ++
      ", derived_traits: " ++ toString e.derivedKeys.length ++
      ", state_slots: " ++ toString e.stateSlots ++ " \x7d" := by
  have total : "Environment \x7b conformances: " =
      "Environment" ++ " \x7b " ++ "conformances" ++ ": " := rfl
  have derived : ", derived_traits: " = ", " ++ "derived_traits" ++ ": " := rfl
  have slots : ", state_slots: " = ", " ++ "state_slots" ++ ": " := rfl
  rw [total, derived, slots]
  simp only [describe, describeFields, List.map_cons, List.map_nil, String.intercalate_cons_cons,
    String.intercalate_singleton, String.append_assoc]

end TraitDispatch
