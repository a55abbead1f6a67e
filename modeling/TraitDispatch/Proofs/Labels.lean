import TraitDispatch.Proofs.Closures
import TraitDispatch.Proofs.Representation

/- What keys are called has no part in what comes of a session. Two sessions with the same commands
   and other labels go on side by side: whatever is looked up is looked up by indices, and labels
   show in failures and in frames only. -/
namespace TraitDispatch
variable {H : Host} {α β : Type} {ℓ ℓ' : Labels} {w w' : World H}

section Alike
variable (ℓ ℓ' : Labels)

inductive Frame.Alike : Frame → Frame → Prop where
  | same (f : Frame) : Alike f f
  | derives (i : Nat) (location : Option Location) :
      Alike ⟨ℓ.frame i, location⟩ ⟨ℓ'.frame i, location⟩

/-- The same cause, and the same key if it names one. -/
inductive Cause.Alike : Cause → Cause → Prop where
  | same (cause : Cause) : Alike cause cause
  | missing (i : Nat) : Alike (.missingTrait (ℓ i)) (.missingTrait (ℓ' i))
  | cyclic (i : Nat) : Alike (.cyclicDerivation (ℓ i)) (.cyclicDerivation (ℓ' i))
  | mismatch (i : Nat) : Alike (.kindMismatch (ℓ i)) (.kindMismatch (ℓ' i))

structure Failure.Alike (f f' : Failure) : Prop where
  cause : Cause.Alike ℓ ℓ' f.cause f'.cause
  trace : List.Forall₂ (Frame.Alike ℓ ℓ') f.trace.frames f'.trace.frames

/-- Related results, or failures that differ in labels only. -/
inductive Agree (R : α → β → Prop) : Except Failure α → Except Failure β → Prop where
  | ok {a : α} {b : β} (holds : R a b) : Agree R (.ok a) (.ok b)
  | error {f f' : Failure} (alike : f.Alike ℓ ℓ' f') : Agree R (.error f) (.error f')

inductive Notice.Alike : Notice H → Notice H → Prop where
  | declared (index : Nat) : Alike (.declared index) (.declared index)
  | made (v : Value) : Alike (.made v) (.made v)
  | opened (e : EnvironmentId) : Alike (.opened e) (.opened e)
  | registered : Alike .registered .registered
  | answered (k : Kind) {r r' : Except Failure (Option (k.Carrier H))}
      (agree : Agree ℓ ℓ' Eq r r') : Alike (.answered k r) (.answered k r')
  | required (k : Kind) {r r' : Except Failure (k.Carrier H)} (agree : Agree ℓ ℓ' Eq r r') :
      Alike (.required k r) (.required k r')

structure CallStack.Alike (s s' : CallStack) : Prop where
  frames : List.Forall₂ (Frame.Alike ℓ ℓ') s.frames s'.frames
  depth : s.depth = s'.depth
  active : s.active = s'.active
  queued : s.queued = s'.queued
  recording : s.recording = s'.recording
  nesting : s.nesting = s'.nesting
  limit : s.limit = s'.limit

structure Context.Alike (ctx ctx' : Context) : Prop where
  environment : ctx.environment = ctx'.environment
  stack : ctx.stack.Alike ℓ ℓ' ctx'.stack

end Alike

theorem Failure.Alike.refl (f : Failure) : f.Alike ℓ ℓ' f :=
  ⟨.same _, List.forall₂_same.mpr fun frame _ => .same frame⟩

namespace CallStack.Alike
variable {s s' : CallStack}

theorem refl (s : CallStack) : s.Alike ℓ ℓ' s :=
  ⟨List.forall₂_same.mpr fun frame _ => .same frame, rfl, rfl, rfl, rfl, rfl, rfl⟩

variable (alike : s.Alike ℓ ℓ' s')
include alike

theorem raised {cause cause' : Cause} (same : cause.Alike ℓ ℓ' cause') :
    (Failure.withTrace (.of cause) s.backtrace).Alike ℓ ℓ'
      (.withTrace (.of cause') s'.backtrace) := ⟨same, alike.frames⟩

theorem atLimit : s.atLimit = s'.atLimit := by
  rw [CallStack.atLimit, CallStack.atLimit, alike.limit, alike.nesting]

theorem enter (i : Nat) :
    (s.enter (ℓ.frame i) none).Alike ℓ ℓ' (s'.enter (ℓ'.frame i) none) := by
  have frames := alike.frames
  have queued := alike.queued
  unfold CallStack.enter
  rw [alike.recording, alike.depth, alike.nesting]
  split
  · refine ⟨.cons ?_ frames, rfl, alike.active, rfl, rfl, rfl, alike.limit⟩
    rw [queued]
    exact .derives i _
  · exact ⟨frames, rfl, alike.active, queued, rfl, rfl, alike.limit⟩

theorem derive (v : Value) (i : Nat) :
    Agree ℓ ℓ' (CallStack.Alike ℓ ℓ') (s.derive v (ℓ.key i)) (s'.derive v (ℓ'.key i)) := by
  have same : s.isActive v (ℓ.key i) = s'.isActive v (ℓ'.key i) := by
    rw [isActive, isActive, alike.active]
    rfl
  unfold CallStack.derive
  rw [same, alike.atLimit]
  split
  · exact .error (alike.raised (.cyclic i))
  · split
    · refine .error (alike.raised ?_)
      rw [alike.limit]
      exact .same _
    · have entered := alike.enter i
      exact .ok { entered with active := congrArg (⟨v, i⟩ :: ·) alike.active }

end CallStack.Alike

section Unlabelled

theorem map_modify {γ δ : Type} {f : γ → γ} {f' : δ → δ} {g : γ → δ}
    (same : ∀ x, g (f x) = f' (g x)) (xs : Array γ) (i : Nat) :
    (xs.modify i f).map g = (xs.map g).modify i f' := by
  apply Array.ext_getElem?
  intro j
  simp only [Array.getElem?_map, Array.getElem?_modify]
  split
  · cases xs[j]? with
    | none => rfl
    | some x => exact congrArg some (same x)
  · rfl

def KeyId.unlabelled (key : KeyId) : KeyId := ⟨key.index, ""⟩

def Instance.unlabelled (i : Instance H) : Instance H := { i with key := ⟨i.key.id.unlabelled⟩ }

def Node.unlabelled (n : Node H) : Node H := { n with instances := n.instances.map (·.unlabelled) }

def Rule.unlabelled : Rule H → Rule H
  | .standard rule => .standard rule
  | .own k key code => .own k ⟨key.id.unlabelled⟩ code

def Environment.unlabelled (E : Environment H) : Environment H :=
  { E with rules := E.rules.map (·.unlabelled) }

def World.unlabelled (w : World H) : World H :=
  { w with
    cells := w.cells.map fun cell => { cell with node := cell.node.unlabelled }
    environments := w.environments.map (·.unlabelled) }

theorem Instance.of_unlabelled {i i' : Instance H} (same : i.unlabelled = i'.unlabelled) :
    ∃ k key key' body, i = ⟨k, key, body⟩ ∧ i' = ⟨k, key', body⟩ := by
  obtain ⟨k, key, body⟩ := i
  obtain ⟨k', key', body'⟩ := i'
  obtain ⟨rfl, -, bodies⟩ := (Instance.mk.injEq ..).mp same
  obtain rfl : body = body' := eq_of_heq bodies
  exact ⟨k, key, key', body, rfl, rfl⟩

theorem Rule.of_unlabelled {k : Kind} {key : Key k} {code : H.Code} {rule : Rule H}
    (same : (Rule.own k key code).unlabelled = rule.unlabelled) :
    ∃ key', rule = .own k key' code := by
  cases rule with
  | standard rule => cases same
  | own k' key' code' =>
    obtain ⟨rfl, -, rfl⟩ := (Rule.own.injEq ..).mp same
    exact ⟨key', rfl⟩

theorem Node.unlabelled_add (n : Node H) (i : Instance H) :
    (n.add i).unlabelled = n.unlabelled.add i.unlabelled := rfl

theorem Node.find?_unlabelled (n : Node H) {key other : KeyId} (same : key.index = other.index) :
    n.unlabelled.find? other = (n.find? key).map (·.unlabelled) := by
  rw [Node.find?, Node.find?, Node.unlabelled, List.find?_map]
  refine congrArg (fun p => (n.instances.find? p).map (·.unlabelled)) (funext fun i => ?_)
  change (i.key.id.index == other.index) = (i.key.id.index == key.index)
  rw [same]

theorem Rule.index_unlabelled (rule : Rule H) : rule.unlabelled.key.index = rule.key.index := by
  cases rule <;> rfl

theorem Environment.rulesFor_unlabelled (E : Environment H) {key other : KeyId}
    (same : key.index = other.index) :
    E.unlabelled.rulesFor other = (E.rulesFor key).map (·.unlabelled) := by
  rw [rulesFor, rulesFor, unlabelled, List.filter_map]
  refine congrArg _ (List.filter_congr fun rule _ => ?_)
  change (rule.unlabelled.key.index == other.index) = (rule.key.index == key.index)
  rw [rule.index_unlabelled, same]

theorem Environment.register_unlabelled (E : Environment H) (rule : Rule H) :
    (E.register rule).unlabelled = E.unlabelled.register rule.unlabelled := by
  simp [register, unlabelled]

namespace World
variable (w : World H)

theorem node_unlabelled (v : Value) : w.unlabelled.node v = (w.node v).unlabelled := by
  simp only [World.node, unlabelled, Array.getElem?_map]
  cases w.cells[v.id]? <;> rfl

theorem environment_unlabelled (e : EnvironmentId) :
    w.unlabelled.environment e = (w.environment e).unlabelled := by
  simp only [World.environment, unlabelled, Array.getElem?_map]
  cases w.environments[e.index]? <;> rfl

theorem remembered_unlabelled (v : Value) {key other : KeyId} (same : key.index = other.index) :
    w.unlabelled.remembered v other = w.remembered v key := by
  simp only [remembered, unlabelled, Array.getElem?_map, same]
  cases w.cells[v.id]? <;> rfl

theorem create_unlabelled (n : Node H) :
    (w.create n).2.unlabelled = (w.unlabelled.create n.unlabelled).2 := by
  simp [create, unlabelled]

theorem remember_unlabelled (v : Value) {key other : KeyId} (same : key.index = other.index)
    (answer : Payload H) :
    (w.remember v key answer).unlabelled = w.unlabelled.remember v other answer := by
  simp only [remember, unlabelled, same, mk.injEq, and_true]
  exact map_modify (by intro _; rfl) _ _

theorem change_unlabelled (e : EnvironmentId) {f g : Environment H → Environment H}
    (same : ∀ E, (f E).unlabelled = g E.unlabelled) :
    (w.change e f).unlabelled = w.unlabelled.change e g := by
  simp only [change, unlabelled, mk.injEq, true_and, and_true]
  exact map_modify same _ _

theorem register_unlabelled (e : EnvironmentId) (rule : Rule H) :
    (w.change e (·.register rule)).unlabelled =
      w.unlabelled.change e (·.register rule.unlabelled) :=
  w.change_unlabelled e fun E => E.register_unlabelled rule

end World
end Unlabelled

structure World.Relabelled (w w' : World H) : Prop where
  same : w.unlabelled = w'.unlabelled
  own : ∀ e, ∀ rule ∈ (w.environment e).rules, ∃ k key code, rule = .own k key code

theorem forall₂_of_map_eq {γ : Type} {f : α → γ} {xs ys : List α} (same : xs.map f = ys.map f) :
    List.Forall₂ (fun x y => f x = f y) xs ys := by
  rw [← List.forall₂_eq_eq_eq, List.forall₂_map_left_iff, List.forall₂_map_right_iff] at same
  exact same

namespace World.Relabelled
variable (worlds : w.Relabelled w')
include worlds

theorem node (v : Value) : (w.node v).unlabelled = (w'.node v).unlabelled := by
  rw [← node_unlabelled, worlds.same, node_unlabelled]

theorem environment (e : EnvironmentId) :
    (w.environment e).unlabelled = (w'.environment e).unlabelled := by
  rw [← environment_unlabelled, worlds.same, environment_unlabelled]

theorem remembered (v : Value) {key other : KeyId} (index : key.index = other.index) :
    w.remembered v key = w'.remembered v other := by
  rw [← remembered_unlabelled w v rfl, worlds.same, remembered_unlabelled w' v index.symm]

theorem find? (v : Value) (i : Nat) :
    ((w.node v).find? (ℓ.key i)).map (·.unlabelled) =
      ((w'.node v).find? (ℓ'.key i)).map (·.unlabelled) := by
  have here : (w.node v).unlabelled.find? ⟨i, ""⟩ = ((w.node v).find? (ℓ.key i)).map _ :=
    Node.find?_unlabelled _ rfl
  have there : (w'.node v).unlabelled.find? ⟨i, ""⟩ = ((w'.node v).find? (ℓ'.key i)).map _ :=
    Node.find?_unlabelled _ rfl
  rw [← here, ← there, worlds.node]

theorem rulesFor (e : EnvironmentId) {key other : KeyId} (index : key.index = other.index) :
    List.Forall₂ (fun rule rule' => rule.unlabelled = rule'.unlabelled)
      ((w.environment e).rulesFor key) ((w'.environment e).rulesFor other) := by
  apply forall₂_of_map_eq
  rw [← Environment.rulesFor_unlabelled _ rfl, worlds.environment,
    Environment.rulesFor_unlabelled _ index.symm]

theorem size : w.cells.size = w'.cells.size := by
  have sizes := congrArg (·.cells.size) worlds.same
  simpa [unlabelled] using sizes

theorem remember (v : Value) {key other : KeyId} (index : key.index = other.index)
    (answer : Payload H) : (w.remember v key answer).Relabelled (w'.remember v other answer) := by
  refine ⟨?_, worlds.own⟩
  rw [remember_unlabelled w v rfl, worlds.same, remember_unlabelled w' v index.symm]

theorem create {n n' : Node H} (nodes : n.unlabelled = n'.unlabelled) :
    (w.create n).1 = (w'.create n').1 ∧ (w.create n).2.Relabelled (w'.create n').2 := by
  refine ⟨congrArg Value.mk worlds.size, ?_, worlds.own⟩
  rw [create_unlabelled, create_unlabelled, worlds.same, nodes]

theorem declare (k : Kind) (label label' : String) :
    (w.declare k label).1.id.index = (w'.declare k label').1.id.index ∧
      (w.declare k label).2.Relabelled (w'.declare k label').2 := by
  have same := worlds.same
  have declared := congrArg World.declared same
  refine ⟨congrArg Array.size declared, ?_, worlds.own⟩
  exact congrArg (fun w : World H => { w with declared := w.declared.push k }) same

theorem addEnvironment :
    w.addEnvironment.1 = w'.addEnvironment.1 ∧
      w.addEnvironment.2.Relabelled w'.addEnvironment.2 := by
  have sizes := congrArg (·.environments.size) worlds.same
  have sizes : w.environments.size = w'.environments.size := by simpa [unlabelled] using sizes
  have added : ∀ w : World H, w.addEnvironment.2.unlabelled = w.unlabelled.addEnvironment.2 :=
    fun w => by simp [World.addEnvironment, unlabelled, Environment.unlabelled]
  refine ⟨congrArg EnvironmentId.mk sizes, ?_, fun e rule member => ?_⟩
  · rw [added, added, worlds.same]
  · by_cases new : e.index = w.environments.size
    · simp [World.addEnvironment, World.environment, new] at member
    · apply worlds.own e rule
      simpa [World.addEnvironment, World.environment, Array.getElem?_push, new] using member

theorem register (e : EnvironmentId) (k : Kind) (i : Nat) (code : H.Code) :
    (w.change e (·.register (.own k ⟨ℓ.key i⟩ code))).Relabelled
      (w'.change e (·.register (.own k ⟨ℓ'.key i⟩ code))) := by
  refine ⟨?_, fun other rule member => ?_⟩
  · rw [register_unlabelled, register_unlabelled, worlds.same]
    rfl
  · by_cases made : e.index < w.environments.size
    · rw [environment_change _ _ _ _ made] at member
      split at member
      · rcases List.mem_append.mp member with old | new
        · exact worlds.own e rule old
        · exact ⟨k, _, code, List.mem_singleton.mp new⟩
      · exact worlds.own other rule member
    · apply worlds.own other rule
      have idle : w.environments.modify e.index (·.register (.own k ⟨ℓ.key i⟩ code)) =
          w.environments := by
        apply Array.ext_getElem?
        intro j
        rw [Array.getElem?_modify]
        split
        · rename_i here
          rw [← here, Array.getElem?_eq_none (Nat.le_of_not_lt made)]
          rfl
        · rfl
      simpa only [World.change, World.environment, idle] using member

end World.Relabelled
end TraitDispatch
