import TraitDispatch.Proofs.Asking
import TraitDispatch.Proofs.Simulation

/- Two worlds that hold the same values, in which two runs of one program stand at the same point.
   What the runs have rendered may differ, and so may what has been asked of values that have an
   instance for it. But what rules have given is remembered in both or in neither. -/
namespace TraitDispatch
variable {H : Host} {e : EnvironmentId} {w w' mid mid' after after' : World H} {v : Value}

namespace World

/-- The value stands for some term and remembers nothing wrong. -/
def Holds (w : World H) (v : Value) : Prop := ∃ t, w.Bears True v t

/-- The environment has the standard rules, and values that are bound in it remember nothing
    wrong. -/
structure Houses (w : World H) (e : EnvironmentId) : Prop where
  standard : w.Standard e
  made : e.index < w.environments.size
  bound : ∀ name v, (w.environment e).lookup name = some v → w.Holds v

/-- A later world in which values bear what they bore. No other environment was changed. -/
structure KeepsBearings (e : EnvironmentId) (w after : World H) : Prop
    extends KeepsNodes w after where
  bears : ∀ v t, w.Bears True v t → after.Bears True v t
  elsewhere : ∀ other, other ≠ e → after.environment other = w.environment other
  environments : w.environments.size ≤ after.environments.size

/-- A later world where nothing has come about but output and what does not affect control. -/
structure KeepsControl (e : EnvironmentId) (w after : World H) :
    Prop extends KeepsBearings e w after where
  cells : after.cells.size = w.cells.size
  still : ∀ v, after.node v = w.node v
  derived : ∀ v key, key.Regular → after.derived v key = w.derived v key
  rules : (after.environment e).rules = (w.environment e).rules
  lookup : ∀ name, (after.environment e).lookup name = (w.environment e).lookup name

/-- Both worlds hold the same values and bindings, and in both the same answers of rules are
    remembered. -/
structure Abreast (e : EnvironmentId) (w w' : World H) : Prop where
  cells : w'.cells.size = w.cells.size
  node : ∀ v, w'.node v = w.node v
  derived : ∀ v key, key.Regular → w'.derived v key = w.derived v key
  lower : w.Houses e
  upper : w'.Houses e
  lookup : ∀ name, (w'.environment e).lookup name = (w.environment e).lookup name

structure BothKeepBearings (e : EnvironmentId) (w w' after after' : World H) : Prop where
  lower : w.KeepsBearings e after
  upper : w'.KeepsBearings e after'
  abreast : after.Abreast e after'

structure Both (w w' : World H) (v : Value) : Prop where
  lower : w.Holds v
  upper : w'.Holds v

theorem KeepsBearings.same (e : EnvironmentId) (w : World H) : w.KeepsBearings e w :=
  ⟨.same w, fun _ _ bears => bears, fun _ _ => rfl, Nat.le_refl _⟩

theorem KeepsBearings.trans (first : w.KeepsBearings e mid) (second : mid.KeepsBearings e after) :
    w.KeepsBearings e after where
  toKeepsNodes := first.toKeepsNodes.trans second.toKeepsNodes
  bears v t bears := second.bears v t (first.bears v t bears)
  elsewhere other apart := (second.elsewhere other apart).trans (first.elsewhere other apart)
  environments := Nat.le_trans first.environments second.environments

theorem KeepsBearings.holds (moves : w.KeepsBearings e after) (holds : w.Holds v) : after.Holds v :=
  holds.imp fun t bears => moves.bears v t bears

theorem KeepsBearings.houses {other : EnvironmentId} (moves : w.KeepsBearings e after)
    (same : after.environment other = w.environment other) (housed : w.Houses other) :
    after.Houses other where
  standard := by
    rw [Standard, same]
    exact housed.standard
  made := Nat.lt_of_lt_of_le housed.made moves.environments
  bound name v found := by
    rw [same] at found
    exact moves.holds (housed.bound name v found)

theorem KeepsControl.trans (first : w.KeepsControl e mid) (second : mid.KeepsControl e after) :
    w.KeepsControl e after where
  toKeepsBearings := first.toKeepsBearings.trans second.toKeepsBearings
  cells := second.cells.trans first.cells
  still v := (second.still v).trans (first.still v)
  derived v key regular := (second.derived v key regular).trans (first.derived v key regular)
  rules := second.rules.trans first.rules
  lookup name := (second.lookup name).trans (first.lookup name)

theorem KeepsControl.houses (idles : w.KeepsControl e after) (housed : w.Houses e) :
    after.Houses e where
  standard := idles.rules.trans housed.standard
  made := Nat.lt_of_lt_of_le housed.made idles.environments
  bound name v found := by
    rw [idles.lookup] at found
    exact idles.holds (housed.bound name v found)

theorem LearnsAnswers.keepsBearings (learns : w.LearnsAnswers True after) (e : EnvironmentId) :
    w.KeepsBearings e after where
  made v made := by
    rw [Made, learns.cells]
    exact made
  node v _ := learns.node v
  bears := learns.bears
  elsewhere other _ := learns.environment other
  environments := Nat.le_of_eq (congrArg Array.size learns.environments.symm)

theorem LearnsRenderings.keepsControl (recollects : w.LearnsRenderings True after)
    (e : EnvironmentId) :
    w.KeepsControl e after where
  toKeepsBearings := recollects.toLearnsAnswers.keepsBearings e
  cells := recollects.cells
  still := recollects.node
  derived := recollects.derived
  rules := by rw [recollects.environment]
  lookup name := by rw [recollects.environment]

theorem Both.grown (both : w.Both w' v) (advance : w.BothKeepBearings e w' after after') :
    after.Both after' v :=
  ⟨advance.lower.holds both.lower, advance.upper.holds both.upper⟩

theorem Abreast.bound (abreast : w.Abreast e w') {name : String}
    (found : (w.environment e).lookup name = some v) : w.Both w' v :=
  ⟨abreast.lower.bound name v found,
    abreast.upper.bound name v ((abreast.lookup name).trans found)⟩

theorem Abreast.spells {t : Term} (abreast : w.Abreast e w') (spells : w.Spells False v t) :
    w'.Spells False v t := by
  induction spells with
  | @intro v t parts made _ layer _ ih =>
    refine .intro ?_ (fun impossible => impossible.elim) ?_ ih
    · rw [Made, abreast.cells]
      exact made
    · rw [abreast.node]
      exact layer

theorem Abreast.alike (abreast : w.Abreast e w') (holds : w.Holds v) :
    w.Alike False False w' v v := by
  obtain ⟨t, bears⟩ := holds
  exact ⟨t, bears.known, bears.spells, abreast.spells bears.spells⟩

theorem Abreast.same (housed : w.Houses e) : w.Abreast e w :=
  ⟨rfl, fun _ => rfl, fun _ _ _ => rfl, housed, housed, fun _ => rfl⟩

namespace BothKeepBearings

theorem same (abreast : w.Abreast e w') : w.BothKeepBearings e w' w w' :=
    ⟨.same e w, .same e w', abreast⟩

theorem trans (first : w.BothKeepBearings e w' mid mid')
    (second : mid.BothKeepBearings e mid' after after') :
    w.BothKeepBearings e w' after after' :=
  ⟨first.lower.trans second.lower, first.upper.trans second.upper, second.abreast⟩

theorem keepsControl (abreast : w.Abreast e w') (lower : w.KeepsControl e after)
    (upper : w'.KeepsControl e after') :
    w.BothKeepBearings e w' after after' where
  lower := lower.toKeepsBearings
  upper := upper.toKeepsBearings
  abreast :=
    { cells := by rw [upper.cells, lower.cells, abreast.cells]
      node := fun v => by rw [upper.still, lower.still, abreast.node]
      derived := fun v key regular => by
        rw [upper.derived v key regular, lower.derived v key regular, abreast.derived v key regular]
      lower := lower.houses abreast.lower
      upper := upper.houses abreast.upper
      lookup := fun name => by rw [upper.lookup, lower.lookup, abreast.lookup] }

theorem consults {key : KeyId} (abreast : w.Abreast e w') (lower : w.Consults v key after)
    (upper : w'.Consults v key after') : w.BothKeepBearings e w' after after' where
  lower := (lower.learns True).keepsBearings e
  upper := (upper.learns True).keepsBearings e
  abreast := by
    have learnt := lower.learns True
    have learnt' := upper.learns True
    exact
      { cells := by rw [learnt'.cells, learnt.cells, abreast.cells]
        node := fun v => by rw [learnt'.node, learnt.node, abreast.node]
        derived := fun u other regular => by
          rw [upper.derived u other regular, lower.derived u other regular, abreast.node,
            abreast.derived u other regular]
        lower := (learnt.keepsBearings e).houses (learnt.environment e) abreast.lower
        upper := (learnt'.keepsBearings e).houses (learnt'.environment e) abreast.upper
        lookup := fun name => by rw [learnt'.environment, learnt.environment, abreast.lookup] }

end BothKeepBearings

theorem keepsBearings_create (w : World H) (node : Node H) : w.KeepsBearings e (w.create node).2 :=
  ⟨.create w node, fun _ _ bears => bears.kept_by_create node, fun _ _ => rfl, Nat.le_refl _⟩

theorem BothKeepBearings.create (abreast : w.Abreast e w') (node : Node H) :
    w.BothKeepBearings e w' (w.create node).2 (w'.create node).2 := by
  have moves := keepsBearings_create (e := e) w node
  have moves' := keepsBearings_create (e := e) w' node
  have same : (w'.create node).1 = (w.create node).1 := congrArg Value.mk abreast.cells
  refine ⟨moves, moves', ?_, fun v => ?_, fun v key regular => ?_, moves.houses rfl abreast.lower,
    moves'.houses rfl abreast.upper, abreast.lookup⟩
  · simp [World.create, abreast.cells]
  · rw [node_create, node_create, same, abreast.node]
  · rw [derived_create, derived_create, abreast.derived v key regular]

theorem keepsBearings_change (w : World H) (f : Environment H → Environment H)
    (made : e.index < w.environments.size) : w.KeepsBearings e (w.change e f) where
  toKeepsNodes := .of_cells_eq rfl
  bears _ _ bears := bears.of_cells_eq rfl
  elsewhere other apart := by rw [environment_change w e other f made, if_neg apart]
  environments := by simp [World.change]

theorem houses_define (housed : w.Houses e) (holds : w.Holds v) (name : String) :
    (w.change e (·.define name v)).Houses e := by
  have moves := keepsBearings_change w (·.define name v) housed.made
  have here : (w.change e (·.define name v)).environment e = (w.environment e).define name v := by
    rw [environment_change w e e _ housed.made, if_pos rfl]
  refine ⟨?_, ?_, fun other u found => ?_⟩
  · rw [Standard, here]
    exact housed.standard
  · exact Nat.lt_of_lt_of_le housed.made moves.environments
  · rw [here, lookup_define] at found
    split at found
    · cases found
      exact moves.holds holds
    · exact moves.holds (housed.bound other u found)

theorem BothKeepBearings.define (abreast : w.Abreast e w') (both : w.Both w' v) (name : String) :
    w.BothKeepBearings e w' (w.change e (·.define name v)) (w'.change e (·.define name v)) where
  lower := keepsBearings_change w _ abreast.lower.made
  upper := keepsBearings_change w' _ abreast.upper.made
  abreast :=
    { cells := abreast.cells
      node := abreast.node
      derived := abreast.derived
      lower := houses_define abreast.lower both.lower name
      upper := houses_define abreast.upper both.upper name
      lookup := fun other => by
        rw [environment_change w e e _ abreast.lower.made,
          environment_change w' e e _ abreast.upper.made, if_pos rfl, if_pos rfl, lookup_define,
          lookup_define, abreast.lookup] }

theorem keepsControl_print (w : World H) (line : String) (output : Output) :
    w.KeepsControl e (w.print line output) := by
  have same : (w.print line output).cells = w.cells := by cases output <;> rfl
  have environments : (w.print line output).environments = w.environments := by
    cases output <;> rfl
  have environment : ∀ other, (w.print line output).environment other = w.environment other := by
    intro other
    simp only [World.environment, environments]
  have node : ∀ v, (w.print line output).node v = w.node v := by
    intro v
    simp only [World.node, same]
  have moves : w.KeepsBearings e (w.print line output) :=
    ⟨.of_cells_eq same, fun v t bears => bears.of_cells_eq same, fun other _ => environment other,
      Nat.le_of_eq (congrArg Array.size environments.symm)⟩
  refine ⟨moves, by rw [same], node, fun v key _ => ?_, by rw [environment], fun name => by
    rw [environment]⟩
  simp only [World.derived, World.node, World.remembered, same]

theorem keepsControl_output (made : e.index < w.environments.size) (output : Output) :
    w.KeepsControl e (w.change e ({ · with output := some output })) := by
  have here : (w.change e ({ · with output := some output })).environment e =
      { w.environment e with output := some output } := by
    rw [environment_change w e e _ made, if_pos rfl]
  refine ⟨keepsBearings_change w _ made,
    rfl, fun _ => rfl, fun _ _ _ => rfl, by rw [here], fun name => ?_⟩
  rw [here]
  rfl

end World
end TraitDispatch
