/- Keys name traits, the behaviours that values can have. A key is an index, unique among all
   declared keys, with a label that is only shown. Its kind says what a value with the trait
   answers for it. -/
namespace TraitDispatch

inductive Kind where
  | text
  | name
  | number
  | list
  | block
  | quoted
  | definition
  | function
  | evaluator
  | expander
  | assigner
  | own (sort : Nat)
  deriving DecidableEq

structure KeyId where
  index : Nat
  label : String

instance : BEq KeyId := ⟨fun a b => a.index == b.index⟩

theorem KeyId.beq_iff_index_eq {a b : KeyId} : (a == b) = true ↔ a.index = b.index :=
  beq_iff_eq (a := a.index)

/-- A key whose answers have kind `k`. -/
structure Key (k : Kind) where
  id : KeyId

def Key.label {k : Kind} (key : Key k) : String := key.id.label

namespace Key

def text : Key .text := ⟨0, "Text"⟩
def evaluate : Key .evaluator := ⟨1, "Evaluate"⟩
def expand : Key .expander := ⟨2, "Macro-Expand"⟩
def block : Key .block := ⟨3, "Block"⟩
def list : Key .list := ⟨4, "List"⟩
def name : Key .name := ⟨5, "Name"⟩
def number : Key .number := ⟨6, "Number"⟩
def quoted : Key .quoted := ⟨7, "Quoted"⟩
def definition : Key .definition := ⟨8, "Macro"⟩
def function : Key .function := ⟨9, "Function"⟩
def assign : Key .assigner := ⟨10, "Assign"⟩

end Key

def standardKinds : List Kind :=
  [.text, .evaluator, .expander, .block, .list, .name, .number, .quoted, .definition, .function,
    .assigner]

end TraitDispatch
