import TraitDispatch.Form

/- What values consist of: instances for keys, in the order in which they were added, and a
   location. Nodes are never changed; adding to one gives another. -/
namespace TraitDispatch

inductive Body (H : Host) (k : Kind) where
  | constant (content : k.Carrier H)
  | lazy (code : H.Code)

/-- What a value brings along for one key, computed at once or on demand. -/
structure Instance (H : Host) where
  kind : Kind
  key : Key kind
  body : Body H kind

def Instance.constant {H : Host} {k : Kind} (key : Key k) (content : k.Carrier H) : Instance H :=
  ⟨k, key, .constant content⟩

/-- The fixed part of a value: its instances, newest first, and where it was written. -/
structure Node (H : Host) where
  instances : List (Instance H)
  location : Option Location

namespace Node
variable {H : Host}

def bare (location : Option Location) : Node H := ⟨[], location⟩

def add (n : Node H) (i : Instance H) : Node H := { n with instances := i :: n.instances }

def single {k : Kind} (key : Key k) (content : k.Carrier H) (location : Option Location) :
    Node H :=
  (bare location).add (.constant key content)

def moved (n : Node H) (location : Option Location) : Node H := { n with location }

def keys (n : Node H) : List KeyId := n.instances.reverse.map (·.key.id)

def find? (n : Node H) (key : KeyId) : Option (Instance H) :=
  n.instances.find? (·.key.id == key)

end Node

end TraitDispatch
