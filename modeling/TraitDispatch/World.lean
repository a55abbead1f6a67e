import TraitDispatch.Environment
import TraitDispatch.Node

/- Everything that outlives a request: the values made so far with what they have already
   answered, the environments, the captured lines, and the keys declared. -/
namespace TraitDispatch

structure Cell (H : Host) where
  node : Node H
  memo : List (Nat × Payload H)

/-- Values, environments, buffers and declared keys are numbered in the order in which they were
    made. -/
structure World (H : Host) where
  cells : Array (Cell H)
  environments : Array (Environment H)
  buffers : Array String
  console : String
  declared : Array Kind
  memory : H.Memory

namespace World
variable {H : Host}

def initial (memory : H.Memory) : World H := ⟨#[], #[], #[], "", standardKinds.toArray, memory⟩

def node (w : World H) (v : Value) : Node H :=
  match w.cells[v.id]? with
  | some cell => cell.node
  | none => .bare none

def remembered (w : World H) (v : Value) (key : KeyId) : Option (Payload H) :=
  match w.cells[v.id]? with
  | some cell => (cell.memo.find? (·.1 == key.index)).map (·.2)
  | none => none

def remember (w : World H) (v : Value) (key : KeyId) (answer : Payload H) : World H :=
  { w with cells := w.cells.modify v.id fun cell =>
      { cell with memo := (key.index, answer) :: cell.memo } }

def create (w : World H) (node : Node H) : Value × World H :=
  (⟨w.cells.size⟩, { w with cells := w.cells.push ⟨node, []⟩ })

def environment (w : World H) (e : EnvironmentId) : Environment H :=
  match w.environments[e.index]? with
  | some environment => environment
  | none => {}

def change (w : World H) (e : EnvironmentId) (f : Environment H → Environment H) : World H :=
  { w with environments := w.environments.modify e.index f }

def addEnvironment (w : World H) : EnvironmentId × World H :=
  (⟨w.environments.size⟩, { w with environments := w.environments.push {} })

/-- Each of two environments takes the place of the other, if there are both. -/
def exchange (w : World H) (e e' : EnvironmentId) : World H :=
  { w with environments := w.environments.swapIfInBounds e.index e'.index }

def declare (w : World H) (k : Kind) (label : String) : Key k × World H :=
  (⟨⟨w.declared.size, label⟩⟩, { w with declared := w.declared.push k })

def openBuffer (w : World H) : Output × World H :=
  (.capture w.buffers.size, { w with buffers := w.buffers.push "" })

def captured (w : World H) : Output → String
  | .capture buffer => w.buffers.getD buffer ""
  | .console | .discard => ""

def print (w : World H) (line : String) : Output → World H
  | .capture buffer => { w with buffers := w.buffers.modify buffer (· ++ line ++ "\n") }
  | .console => { w with console := w.console ++ line ++ "\n" }
  | .discard => w

def Made (w : World H) (v : Value) : Prop := v.id < w.cells.size

instance (w : World H) (v : Value) : Decidable (w.Made v) := inferInstanceAs (Decidable (_ < _))

theorem node_create (w : World H) (node : Node H) (v : Value) :
    (w.create node).2.node v = if v = (w.create node).1 then node else w.node v := by
  obtain ⟨id⟩ := v
  by_cases new : id = w.cells.size <;> simp [World.node, create, Array.getElem?_push, new]

theorem remembered_create (w : World H) (node : Node H) (v : Value) (key : KeyId) :
    (w.create node).2.remembered v key = w.remembered v key := by
  by_cases new : v.id = w.cells.size <;> simp [remembered, create, Array.getElem?_push, new]

theorem node_remember (w : World H) (v u : Value) (key : KeyId) (answer : Payload H) :
    (w.remember v key answer).node u = w.node u := by
  simp only [World.node, remember, Array.getElem?_modify]
  by_cases same : v.id = u.id
  · simp only [same, if_true]
    cases w.cells[u.id]? <;> rfl
  · simp [same]

theorem remembered_remember (w : World H) (v u : Value) (key other : KeyId) (answer : Payload H)
    (made : v.id < w.cells.size) :
    (w.remember v key answer).remembered u other =
      if u = v ∧ other.index = key.index then some answer else w.remembered u other := by
  obtain ⟨i⟩ := v
  obtain ⟨j⟩ := u
  by_cases same : j = i
  · subst same
    have found : w.cells[j]? = some w.cells[j] := Array.getElem?_eq_getElem made
    by_cases index : key.index = other.index
    · simp [remembered, remember, Array.getElem?_modify, found, index]
    · simp [remembered, remember, Array.getElem?_modify, found, index, Ne.symm index]
  · simp [remembered, remember, Array.getElem?_modify, same, Ne.symm same]

theorem remembered_remember_unmade (w : World H) (v u : Value) (key other : KeyId)
    (answer : Payload H) (unmade : ¬ v.id < w.cells.size) :
    (w.remember v key answer).remembered u other = w.remembered u other := by
  by_cases same : v.id = u.id
  · have missing : w.cells[u.id]? = none := by
      rw [Array.getElem?_eq_none_iff, ← same]
      exact Nat.le_of_not_lt unmade
    simp [remembered, remember, Array.getElem?_modify, missing]
  · simp [remembered, remember, Array.getElem?_modify, same]

theorem remembered_remember_other (w : World H) {v u : Value} {key other : KeyId}
    (answer : Payload H) (apart : ¬ (u = v ∧ other.index = key.index)) :
    (w.remember v key answer).remembered u other = w.remembered u other := by
  by_cases made : v.id < w.cells.size
  · rw [remembered_remember w v u key other answer made, if_neg apart]
  · exact remembered_remember_unmade w v u key other answer made

theorem remembered_of_remember {w : World H} {v u : Value} {key other : KeyId}
    {answer found : Payload H}
    (recalled : (w.remember v key answer).remembered u other = some found) :
    (u = v ∧ other.index = key.index ∧ found = answer) ∨ w.remembered u other = some found := by
  by_cases same : u = v ∧ other.index = key.index
  · by_cases made : v.id < w.cells.size
    · rw [remembered_remember w v u key other answer made, if_pos same] at recalled
      cases recalled
      exact .inl ⟨same.1, same.2, rfl⟩
    · rw [remembered_remember_unmade w v u key other answer made] at recalled
      exact .inr recalled
  · rw [remembered_remember_other w answer same] at recalled
    exact .inr recalled

theorem environment_change (w : World H) (e e' : EnvironmentId)
    (f : Environment H → Environment H) (made : e.index < w.environments.size) :
    (w.change e f).environment e' =
      if e' = e then f (w.environment e) else w.environment e' := by
  obtain ⟨i⟩ := e
  obtain ⟨j⟩ := e'
  by_cases same : j = i
  · subst same
    have found : w.environments[j]? = some w.environments[j] := Array.getElem?_eq_getElem made
    simp [environment, change, Array.getElem?_modify, found]
  · simp [environment, change, Array.getElem?_modify, same, Ne.symm same]

theorem environment_change_elsewhere (w : World H) {e other : EnvironmentId}
    (f : Environment H → Environment H) (apart : other ≠ e) :
    (w.change e f).environment other = w.environment other := by
  have index : e.index ≠ other.index := fun same => apart (congrArg EnvironmentId.mk same.symm)
  simp [environment, change, Array.getElem?_modify, index]

theorem environment_change_cases (w : World H) (e other : EnvironmentId)
    (f : Environment H → Environment H) :
    (w.change e f).environment other = w.environment other ∨
      (w.change e f).environment other = f (w.environment other) := by
  by_cases same : other = e
  · subst same
    by_cases made : other.index < w.environments.size
    · rw [environment_change w _ _ f made, if_pos rfl]
      exact .inr rfl
    · have missing : w.environments[other.index]? = none :=
        Array.getElem?_eq_none_iff.mpr (Nat.le_of_not_lt made)
      simp [environment, change, Array.getElem?_modify, missing]
  · exact .inl (w.environment_change_elsewhere f same)

theorem environment_add (w : World H) (e : EnvironmentId) :
    w.addEnvironment.2.environment e = w.environment e := by
  by_cases new : e.index = w.environments.size <;>
    simp [environment, addEnvironment, Array.getElem?_push, new]

theorem environment_exchange (w : World H) (a b e : EnvironmentId)
    (made : a.index < w.environments.size) (made' : b.index < w.environments.size) :
    (w.exchange a b).environment e =
      w.environment (if e = a then b else if e = b then a else e) := by
  obtain ⟨i⟩ := a
  obtain ⟨j⟩ := b
  obtain ⟨k⟩ := e
  simp only [environment, exchange, Array.swapIfInBounds_def, made, made', dif_pos,
    Array.getElem?_swap, EnvironmentId.mk.injEq]
  have found := Array.getElem?_eq_getElem made
  have found' := Array.getElem?_eq_getElem made'
  by_cases first : k = i
  · subst first
    by_cases second : j = k
    · subst second
      simp [found]
    · simp [second, found']
  · by_cases second : k = j
    · subst second
      simp [first, found]
    · simp [first, Ne.symm first, second, Ne.symm second]

theorem exchange_unmade (w : World H) (a b : EnvironmentId)
    (unmade : ¬ (a.index < w.environments.size ∧ b.index < w.environments.size)) :
    w.exchange a b = w := by
  simp only [exchange, Array.swapIfInBounds_def]
  split
  · split
    · exact absurd ⟨‹_›, ‹_›⟩ unmade
    · rfl
  · rfl

theorem environment_exchange_cases (w : World H) (a b e : EnvironmentId) :
    ∃ other, (w.exchange a b).environment e = w.environment other := by
  by_cases made : a.index < w.environments.size ∧ b.index < w.environments.size
  · exact ⟨_, environment_exchange w a b e made.1 made.2⟩
  · exact ⟨e, by rw [exchange_unmade w a b made]⟩

/-- Values that were made stay what they are. -/
structure KeepsNodes (w after : World H) : Prop where
  made : ∀ v, w.Made v → after.Made v
  node : ∀ v, w.Made v → after.node v = w.node v

namespace KeepsNodes
variable {w mid after : World H}

theorem same (w : World H) : w.KeepsNodes w := ⟨fun _ made => made, fun _ _ => rfl⟩

theorem trans (first : w.KeepsNodes mid) (second : mid.KeepsNodes after) : w.KeepsNodes after where
  made v made := second.made v (first.made v made)
  node v made := (second.node v (first.made v made)).trans (first.node v made)

theorem of_cells_eq (same : after.cells = w.cells) : w.KeepsNodes after := by
  constructor
  · intro v made
    simpa only [Made, same] using made
  · intro v _
    simp only [World.node, same]

theorem create (w : World H) (node : Node H) : w.KeepsNodes (w.create node).2 := by
  constructor
  · intro v made
    simp only [Made, World.create, Array.size_push] at made ⊢
    omega
  · intro v made
    have old : v ≠ (w.create node).1 := by
      intro new
      simp [Made, new, World.create] at made
    rw [node_create, if_neg old]

theorem remember (w : World H) (v : Value) (key : KeyId) (answer : Payload H) :
    w.KeepsNodes (w.remember v key answer) := by
  constructor
  · intro u made
    simpa [Made, World.remember] using made
  · intro u _
    exact w.node_remember v u key answer

end KeepsNodes

/-- Environments and outputs are as they were. -/
structure KeepsSurroundings (w after : World H) : Prop where
  environments : after.environments = w.environments
  buffers : after.buffers = w.buffers
  console : after.console = w.console

namespace KeepsSurroundings
variable {w mid after : World H}

theorem same (w : World H) : w.KeepsSurroundings w := ⟨rfl, rfl, rfl⟩

theorem trans (first : w.KeepsSurroundings mid) (second : mid.KeepsSurroundings after) :
    w.KeepsSurroundings after :=
  ⟨second.environments.trans first.environments, second.buffers.trans first.buffers,
    second.console.trans first.console⟩

theorem environment (keeps : w.KeepsSurroundings after) (e : EnvironmentId) :
    after.environment e = w.environment e := by
  simp only [World.environment, keeps.environments]

end KeepsSurroundings

/-- Nothing differs but values and their memo tables. -/
structure KeepsAllButValues (w after : World H) : Prop extends KeepsSurroundings w after where
  declared : after.declared = w.declared
  memory : after.memory = w.memory

namespace KeepsAllButValues
variable {w mid after : World H}

theorem same (w : World H) : w.KeepsAllButValues w := ⟨.same w, rfl, rfl⟩

theorem trans (first : w.KeepsAllButValues mid) (second : mid.KeepsAllButValues after) :
    w.KeepsAllButValues after where
  toKeepsSurroundings := first.toKeepsSurroundings.trans second.toKeepsSurroundings
  declared := second.declared.trans first.declared
  memory := second.memory.trans first.memory

theorem create (w : World H) (node : Node H) : w.KeepsAllButValues (w.create node).2 :=
  ⟨⟨rfl, rfl, rfl⟩, rfl, rfl⟩

theorem remember (w : World H) (v : Value) (key : KeyId) (answer : Payload H) :
    w.KeepsAllButValues (w.remember v key answer) := ⟨⟨rfl, rfl, rfl⟩, rfl, rfl⟩

end KeepsAllButValues
end World
end TraitDispatch
