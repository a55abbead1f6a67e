/- Where a value was written. A path keeps the text it was given, and is compared by its
   components, so that a doubled or trailing slash makes no difference. -/
namespace TraitDispatch

structure SourcePath where
  written : String

def SourcePath.components (p : SourcePath) : List String :=
  match p.written.splitOn "/" with
  | [] => []
  | first :: rest =>
    let lead := if first ≠ "" then [first] else if rest = [] then [] else ["/"]
    lead ++ rest.filter fun part => part ≠ "" && part ≠ "."

instance : BEq SourcePath := ⟨fun p q => p.components == q.components⟩

structure Location where
  file : Option SourcePath
  line : Nat
  column : Nat
  deriving BEq

def Location.text (l : Location) : String :=
  match l.file with
  | some path => s!"{path.written}:{l.line}:{l.column}"
  | none => s!"{l.line}:{l.column}"

end TraitDispatch
