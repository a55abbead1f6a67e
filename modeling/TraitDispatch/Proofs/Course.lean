import TraitDispatch.Proofs.Calls
import TraitDispatch.Proofs.Reading

/- Sequences of calls on interpreters that share their values. What values have come to remember on
   the way makes no difference to a later call: it does what it would do with copies that remember
   nothing. -/
namespace TraitDispatch
variable {H : Host} {B : Behaviour H} {w w' : World H}

def gained : Except Failure (Reply Value) → List Value
  | .ok reply => reply.values
  | .error _ => []

/-- A course of calls has led to the world. At hand are values that remembered nothing when it
    began, values made of others at hand, their parts, values found bound and the results of calls.
    Interpreters have the standard rules and no limit of nesting. -/
inductive Course (B : Behaviour H) : World H → List Value → List Interpreter → Prop where
  | start {w : World H} {hand : List Value}
      (fresh : ∀ v ∈ hand, ∃ t : Term, t.known ∧ w.Spells True v t) : Course B w hand []
  | make {w : World H} {hand : List Value} {served : List Interpreter} {n : Node H} {t : Term}
      {parts : List (Value × Term)} (before : Course B w hand served)
      (layer : Term.Layer n t parts) (known : t.known)
      (held : ∀ p ∈ parts, p.1 ∈ hand ∧ w.Spells False p.1 p.2) :
      Course B (w.create n).2 ((w.create n).1 :: hand) served
  | part {w : World H} {hand : List Value} {served : List Interpreter} {v : Value} {t : Term}
      {parts : List (Value × Term)} {p : Value × Term} (before : Course B w hand served)
      (member : v ∈ hand) (known : t.known) (spells : w.Spells False v t)
      (layer : Term.Layer (w.node v) t parts) (within : p ∈ parts) :
      Course B w (p.1 :: hand) served
  | found {w : World H} {hand : List Value} {served : List Interpreter} {i : Interpreter}
      {name : String} {v : Value} (before : Course B w hand served) (member : i ∈ served)
      (bound : (w.environment i.environment).lookup name = some v) :
      Course B w (v :: hand) served
  | buffer {w : World H} {hand : List Value} {served : List Interpreter}
      (before : Course B w hand served) : Course B w.openBuffer.2 hand served
  | interpreter {w after : World H} {hand : List Value} {served : List Interpreter}
      {config : Config} {output : Option Output} {bindings : List (String × Value)}
      {i : Interpreter} (before : Course B w hand served) (unlimited : config.limit = none)
      (opened : w.Opened (output.getD .console)) (held : ∀ b ∈ bindings, b.2 ∈ hand)
      (built : (Interpreter.build config output bindings).Ends B w (.ok i) after) :
      Course B after hand (i :: served)
  | call {w after : World H} {hand : List Value} {served : List Interpreter} {i : Interpreter}
      {c : Call Value} {r : Except Failure (Reply Value)} (before : Course B w hand served)
      (member : i ∈ served) (held : ∀ v ∈ c.values, v ∈ hand)
      (ended : (i.answer c).Ends B w r after) : Course B after (gained r ++ hand) served

structure World.Serves (w : World H) (i : Interpreter) : Prop where
  standard : w.Standard i.environment
  made : i.environment.index < w.environments.size
  opened : w.Opened (w.outputOf i.environment)
  unlimited : i.config.limit = none

structure World.Sound (w : World H) (hand : List Value) (served : List Interpreter) : Prop where
  held : ∀ v ∈ hand, ∃ t : Term, t.known ∧ w.Represents True v t
  modelled : ∀ i ∈ served, i.config.limit = none ∧
    ∃ out s, w.Models i.environment out s ∧ s.Known

namespace World

theorem exists_written (w : World H) (out : Output) : ∃ text, w.Written out text := by
  cases out with
  | capture buffer => exact ⟨_, rfl⟩
  | console => exact ⟨_, rfl⟩
  | discard => exact ⟨"", trivial⟩

theorem Models.outlast {e : EnvironmentId} {out : Output} {s : Store} {after : World H}
    (models : w.Models e out s) (keeps : World.KeepsTerms True w after)
    (same : after.environment e = w.environment e)
    (environments : w.environments.size ≤ after.environments.size)
    (buffers : w.buffers.size ≤ after.buffers.size) :
    ∃ text, after.Models e out ⟨s.scope, text⟩ := by
  obtain ⟨text, written⟩ := after.exists_written out
  refine ⟨text, ⟨?_, Nat.lt_of_lt_of_le models.made environments, fun name => ?_⟩,
    models.opened.grown buffers, ?_, written⟩
  · rw [Standard, same]
    exact models.standard
  · rw [same]
    exact rel_imp keeps.represents (models.scope name)
  · rw [same]
    exact models.output

theorem Serves.models {e : EnvironmentId} {out : Output} {s : Store} {i : Interpreter}
    (serves : w'.Serves i) (models : w.Models e out s) (stored : s.Known)
    (bound : ∀ name, Option.Rel (w.Alike False True w') ((w.environment e).lookup name)
      ((w'.environment i.environment).lookup name)) :
    ∃ text, w'.Models i.environment (w'.outputOf i.environment) ⟨s.scope, text⟩ := by
  obtain ⟨text, written⟩ := w'.exists_written (w'.outputOf i.environment)
  refine ⟨text, ⟨serves.standard, serves.made, fun name => ?_⟩, serves.opened, rfl, written⟩
  have here := models.scope name
  have there := bound name
  have each := stored name
  generalize s.scope name = x at here each ⊢
  generalize (w.environment e).lookup name = y at here there
  generalize (w'.environment i.environment).lookup name = z at there ⊢
  cases here with
  | none =>
    cases there
    exact .none
  | some holds =>
    cases there with
    | some copies =>
      obtain ⟨t, known, spells, spells'⟩ := copies
      obtain rfl := holds.spells.unique spells (each _ rfl) known
      exact .some spells'.represents

end World

namespace World.Sound
variable {hand : List Value} {served : List Interpreter} {after : World H}

theorem grown (sound : w.Sound hand served) (grown : World.AddsValues True w after) :
    after.Sound hand served where
  held v member := by
    obtain ⟨t, known, holds⟩ := sound.held v member
    exact ⟨t, known, grown.represents v t holds⟩
  modelled i member := by
    obtain ⟨unlimited, out, s, models, stored⟩ := sound.modelled i member
    exact ⟨unlimited, out, s, models.grown grown, stored⟩

theorem more (sound : w.Sound hand served) {v : Value} {t : Term} (known : t.known)
    (holds : w.Represents True v t) : w.Sound (v :: hand) served where
  held u member := by
    rcases List.mem_cons.mp member with rfl | there
    · exact ⟨t, known, holds⟩
    · exact sound.held u there
  modelled := sound.modelled

theorem represents (sound : w.Sound hand served) {v : Value} {t : Term} (member : v ∈ hand)
    (known : t.known) (spells : w.Spells False v t) : w.Represents True v t := by
  obtain ⟨u, known', holds⟩ := sound.held v member
  obtain rfl := holds.spells.unique spells known' known
  exact holds

theorem part (sound : w.Sound hand served) {v : Value} {t : Term} {parts : List (Value × Term)}
    {p : Value × Term} (member : v ∈ hand) (known : t.known) (spells : w.Spells False v t)
    (layer : Term.Layer (w.node v) t parts) (within : p ∈ parts) :
    w.Represents True p.1 p.2 := by
  cases sound.represents member known spells with
  | intro _ _ layer' each =>
    obtain rfl := layer.parts_unique layer'
    exact each p within

theorem serve (sound : w.Sound hand served) {i : Interpreter} (unlimited : i.config.limit = none)
    {out : Output} {s : Store} (models : w.Models i.environment out s) (stored : s.Known) :
    w.Sound hand (i :: served) where
  held := sound.held
  modelled j member := by
    rcases List.mem_cons.mp member with rfl | there
    · exact ⟨unlimited, out, s, models, stored⟩
    · exact sound.modelled j there

theorem openBuffer (sound : w.Sound hand served) : w.openBuffer.2.Sound hand served := by
  have keeps : World.KeepsTerms True w w.openBuffer.2 := .of_cells_eq rfl
  refine ⟨fun v member => ?_, fun i member => ?_⟩
  · obtain ⟨t, known, holds⟩ := sound.held v member
    exact ⟨t, known, keeps.represents v t holds⟩
  · obtain ⟨unlimited, out, s, models, stored⟩ := sound.modelled i member
    obtain ⟨text, still⟩ := models.outlast keeps rfl (Nat.le_refl _) (by simp [World.openBuffer])
    exact ⟨unlimited, out, _, still, stored⟩

theorem changesOnly (sound : w.Sound hand served) {e : EnvironmentId}
    (changesOnly : w.ChangesOnly e after) {out : Output} {s : Store} (models : after.Models e out s)
    (stored : s.Known) : after.Sound hand served where
  held v member := by
    obtain ⟨t, known, holds⟩ := sound.held v member
    exact ⟨t, known, changesOnly.represents v t holds⟩
  modelled i member := by
    obtain ⟨unlimited, out', s', models', stored'⟩ := sound.modelled i member
    refine ⟨unlimited, ?_⟩
    by_cases here : i.environment = e
    · rw [here]
      exact ⟨out, s, models, stored⟩
    · obtain ⟨text, still⟩ :=
        models'.outlast changesOnly.toKeepsTerms (changesOnly.elsewhere _ here)
        changesOnly.environments changesOnly.buffers
      exact ⟨out', _, still, stored'⟩

theorem interpreter (sound : w.Sound hand served) {config : Config} {output : Option Output}
    {bindings : List (String × Value)} {i : Interpreter} (unlimited : config.limit = none)
    (opened : w.Opened (output.getD .console)) (held : ∀ b ∈ bindings, b.2 ∈ hand)
    (built : (Interpreter.build config output bindings).Ends B w (.ok i) after) :
    after.Sound hand (i :: served) := by
  obtain ⟨terms, plain, -, known⟩ := exists_terms (R := w.Represents True)
    (S := w.Represents True) (List.forall₂_same.mpr fun b member => by
      obtain ⟨t, known, holds⟩ := sound.held b.2 (held b member)
      exact ⟨rfl, t, known, holds, holds⟩)
  obtain ⟨text, written⟩ := w.exists_written (output.getD .console)
  obtain ⟨after, built', changesOnly, models⟩ :=
    build_models (B := B) config output opened written plain
  obtain ⟨same, rfl⟩ := Program.ends_unique built built'
  cases same
  have stored := Store.known_initial text known
  exact (sound.changesOnly changesOnly models stored).serve unlimited models stored

theorem call (sound : w.Sound hand served) {i : Interpreter} {c : Call Value}
    {r : Except Failure (Reply Value)} (member : i ∈ served) (held : ∀ v ∈ c.values, v ∈ hand)
    (ended : (i.answer c).Ends B w r after) : after.Sound (gained r ++ hand) served := by
  obtain ⟨unlimited, out, s, models, stored⟩ := sound.modelled i member
  obtain ⟨q, holds⟩ := Call.exists_rel fun v within => sound.held v (held v within)
  obtain ⟨_, outcome, s', -, reaches, models', agrees, stored', good⟩ :=
    (answer_realizesExactly unlimited holds models stored).ended stored ended
  have later := sound.changesOnly reaches.toChangesOnly models' stored'
  cases r with
  | error failure => exact later
  | ok reply =>
    cases outcome with
    | error cause => exact absurd agrees id
    | ok answer =>
      cases agrees with
      | value result => exact later.more (good _ rfl _ (List.mem_singleton_self _)) result
      | text shown => exact later

end World.Sound

namespace Course
variable {hand : List Value} {served : List Interpreter}

/-- Every step of a course leaves sound what it found sound. -/
theorem sound (course : Course B w hand served) : w.Sound hand served := by
  induction course with
  | start fresh =>
    refine ⟨fun v member => ?_, fun i none => nomatch none⟩
    obtain ⟨t, known, spells⟩ := fresh v member
    exact ⟨t, known, spells.represents⟩
  | make _ layer known held sound =>
    exact (sound.grown (.create _ _)).more known (.create layer fun p within =>
      sound.represents (held p within).1 (layer.known_parts known p within) (held p within).2)
  | part _ member known spells layer within sound =>
    exact sound.more (layer.known_parts known _ within)
      (sound.part member known spells layer within)
  | @found w _ _ i name v _ member bound sound =>
    obtain ⟨-, out, s, models, stored⟩ := sound.modelled i member
    have here := models.scope name
    rw [bound] at here
    generalize bounded : s.scope name = x at here
    cases here with
    | some holds => exact sound.more (stored name _ bounded) holds
  | buffer _ sound => exact sound.openBuffer
  | interpreter _ unlimited opened held built sound =>
    exact sound.interpreter unlimited opened held built
  | call _ member held ended sound => exact sound.call member held ended

/-- Whatever calls came before, a call is answered as it is on copies that remember nothing, by an
    interpreter whose bindings are such copies: with a reply of the same structure or a failure of
    the same cause, with the same lines written, and leaving bindings of the same structure. Or
    neither answer comes to an end. -/
theorem history_unobservable (course : Course B w hand served) {i : Interpreter}
    (member : i ∈ served) {c : Call Value} (held : ∀ v ∈ c.values, v ∈ hand) {i' : Interpreter}
    (serves : w'.Serves i') {c' : Call Value} (copies : c.Rel (w.Alike False True w') c')
    (bound : ∀ name, Option.Rel (w.Alike False True w')
      ((w.environment i.environment).lookup name)
      ((w'.environment i'.environment).lookup name)) :
    (i.answer c).EndsLike B (fun after after' => Reply.Rel (after.Alike False False after'))
      i.environment w i'.environment (i'.answer c') w' := by
  obtain ⟨unlimited, out, s, models, stored⟩ := course.sound.modelled i member
  obtain ⟨q, holds⟩ := Call.exists_rel fun v within => course.sound.held v (held v within)
  have holds' : c'.Rel (fun v t => t.known ∧ w'.Represents True v t) q := by
    refine holds.transfer copies fun v t v' ⟨known, here⟩ ⟨u, known', spells, spells'⟩ => ?_
    obtain rfl := here.spells.unique spells known known'
    exact ⟨known, spells'.represents⟩
  obtain ⟨text, models'⟩ := serves.models models stored bound
  refine (answer_realizesExactly unlimited holds models stored).endsLike
    (answer_realizesExactly serves.unlimited holds' models' stored) models models' stored rfl ?_
  intro after after' reply reply' answer good first second
  cases first with
  | value result =>
    cases second with
    | value result' =>
      exact .value (World.Matched.alike ⟨_, good _ (List.mem_singleton_self _), result, result'⟩)
  | text shown =>
    cases second with
    | text => exact .text shown

def answeringWorld : World Host.unit :=
  { World.initial () with
    cells := #[⟨.single Key.name ⟨"z"⟩ none, []⟩, ⟨.single Key.quoted ⟨⟨0⟩⟩ none, []⟩,
      ⟨.single Key.name ⟨"show"⟩ none, []⟩, ⟨.single Key.list ⟨[⟨2⟩, ⟨1⟩]⟩ none, []⟩,
      ⟨.single Key.function .display none, []⟩, ⟨.single Key.function .definer none, []⟩]
    environments := #[{
      rules := StandardRule.inOrder.map .standard
      bindings := some ⟨[("show", ⟨4⟩), ("macro", ⟨5⟩)]⟩
      output := some (.capture 0) }]
    buffers := #[""] }

theorem answering_bound (name : String) :
    Option.Rel (answeringWorld.Spells True) ((answeringWorld.environment ⟨0⟩).lookup name)
      ((Store.initial "" []).scope name) := by
  have display : answeringWorld.Spells True ⟨4⟩ (.display none) := .of_read 4 rfl
  have definer : answeringWorld.Spells True ⟨5⟩ (.definer none) := .of_read 4 rfl
  by_cases shows : name = "show"
  · subst name
    exact .some display
  by_cases defines : name = "macro"
  · subst name
    exact .some definer
  have unbound : (answeringWorld.environment ⟨0⟩).lookup name = none := by
    simp [World.environment, answeringWorld, Environment.lookup, Bindings.get?, Ne.symm shows,
      Ne.symm defines]
  have absent : (Store.initial "" []).scope name = none := by
    simp [Store.initial, Store.defineAll, Store.define, shows, defines]
  rw [unbound, absent]
  exact .none

/-- The display is run once by an interpreter of its own, and then again. -/
theorem display_answered_again :
    ∃ (i : Interpreter) (ready w : World Host.unit),
      (Interpreter.build ⟨none, true⟩ (some (.capture 0)) []).Ends inert answeringWorld (.ok i)
        ready ∧
      (∃ r, (i.answer (.run ⟨3⟩)).Ends inert ready (.ok r) w) ∧
      (i.answer (.run ⟨3⟩)).EndsLike inert
        (fun after after' => Reply.Rel (after.Alike False False after')) i.environment w ⟨0⟩
        (Interpreter.answer ⟨⟨0⟩, ⟨none, true⟩⟩ (.run ⟨3⟩)) answeringWorld := by
  have program : answeringWorld.Spells True ⟨3⟩
      (.list [.name ⟨"show"⟩ none, .quoted (.name ⟨"z"⟩ none) none] none) := .of_read 4 rfl
  have start : Course inert answeringWorld [⟨3⟩] [] :=
    .start fun v member => ⟨_, rfl, List.mem_singleton.mp member ▸ program⟩
  have opened : answeringWorld.Opened ((some (.capture 0) : Option Output).getD .console) :=
    (by decide : 0 < answeringWorld.buffers.size)
  obtain ⟨ready, built, changesOnly, models⟩ := build_models (B := inert) ⟨none, true⟩
    (some (.capture 0)) opened rfl (.nil : List.Forall₂ _ [] [])
  have prepared : Course inert ready [⟨3⟩] [⟨⟨1⟩, ⟨none, true⟩⟩] :=
    start.interpreter rfl opened (by simp) built
  -- The first answer, from which the display and its argument remember something.
  have stored := Store.known_initial "" (by simp : ∀ b ∈ ([] : List (String × Term)), b.2.known)
  have holds := changesOnly.represents _ _ program.represents
  obtain ⟨s, ran, same⟩ : ∃ s, (Call.run (.list [.name ⟨"show"⟩ none,
      .quoted (.name ⟨"z"⟩ none) none] none)).direct 3 (.initial "" []) =
        some (.ok (.value (.empty none)), s) ∧ s.scope = (Store.initial "" []).scope :=
    ⟨_, rfl, rfl⟩
  have mirrors := answer_realizesExactly (B := inert) (i := ⟨⟨1⟩, ⟨none, true⟩⟩) rfl
    (.run ⟨rfl, holds⟩) models stored
  obtain ⟨r, w, ends, reaches, models', agrees⟩ := mirrors.realizes 3 _ s ran
  have answered := prepared.call (List.mem_singleton_self _) (by simp [Call.values]) ends
  have bound : ∀ name, Option.Rel (w.Alike False True answeringWorld)
      ((w.environment ⟨1⟩).lookup name) ((answeringWorld.environment ⟨0⟩).lookup name) := by
    intro name
    have here := models'.scope name
    rw [same] at here
    exact rel_join here (answering_bound name) fun v v' t found here there =>
      ⟨t, stored name t found, here.spells, there⟩
  have serves : answeringWorld.Serves ⟨⟨0⟩, ⟨none, true⟩⟩ := ⟨rfl, by decide, opened, rfl⟩
  have copies : (Call.run (⟨3⟩ : Value)).Rel (w.Alike False True answeringWorld) (.run ⟨3⟩) :=
    .run ⟨_, rfl, (reaches.represents _ _ holds).spells, program⟩
  have endsLike := answered.history_unobservable (List.mem_singleton_self _)
    (by simp [Call.values]) serves copies bound
  cases r with
  | error failure => exact absurd agrees id
  | ok reply => exact ⟨_, ready, w, built, ⟨reply, ends⟩, endsLike⟩

end Course
end TraitDispatch
