import TraitDispatch.Proofs.Course
import TraitDispatch.Proofs.ParallelEvaluation

/- Calls in any order on interpreters that share their values, whatever limits these have. A limit
   may leave placeholders in what is remembered to show, but nothing else that is wrong, and so
   every later call is one of built-in programs again. -/
namespace TraitDispatch
variable {H : Host} {B : Behaviour H} {w after : World H} {v : Value} {fuel : Nat} {enough : Prop}

section Building
variable {e : EnvironmentId}

theorem keepsBearings_added (w : World H) :
    w.KeepsBearings w.addEnvironment.1 w.addEnvironment.2 := by
  refine ⟨.of_cells_eq rfl, fun _ _ bears => bears.of_cells_eq rfl,
    fun other _ => w.environment_add other, ?_⟩
  simp [World.addEnvironment]

theorem registerAll_keepsBearings (rules : List StandardRule)
    (made : e.index < w.environments.size) :
    ∃ after, (Interpreter.registerAll e rules).Ends B w (.ok ()) after ∧ w.KeepsBearings e after ∧
      (after.environment e).rules = (w.environment e).rules ++ rules.map .standard ∧
      ∀ name, (after.environment e).lookup name = (w.environment e).lookup name := by
  induction rules generalizing w with
  | nil => exact ⟨w, .done () w, .same e w, by simp, fun _ => rfl⟩
  | cons rule rest ih =>
    have here := w.environment_change e e (·.register (.standard rule)) made
    rw [if_pos rfl] at here
    have first := World.keepsBearings_change w (·.register (.standard rule)) made
    obtain ⟨after, ends, moves, rules, lookup⟩ :=
      ih (w := w.change e (·.register (.standard rule)))
        (Nat.lt_of_lt_of_le made first.environments)
    rw [here] at rules lookup
    refine ⟨after, .bind (.access _ w) ends, first.trans moves, ?_, lookup⟩
    simpa [Environment.register] using rules

theorem defineAll_keepsBearings (bindings : List (String × Value)) (housed : w.Houses e)
    (each : ∀ b ∈ bindings, w.Holds b.2) :
    ∃ after, (Interpreter.defineAll e bindings).Ends B w (.ok ()) after ∧ w.KeepsBearings e after ∧
      after.Houses e := by
  induction bindings generalizing w with
  | nil => exact ⟨w, .done () w, .same e w, housed⟩
  | cons entry rest ih =>
    obtain ⟨here, there⟩ := List.forall_mem_cons.mp each
    have first := World.keepsBearings_change w (·.define entry.1 entry.2) housed.made
    obtain ⟨after, ends, moves, housed'⟩ := ih (World.houses_define housed here entry.1)
      fun b member => first.holds (there b member)
    exact ⟨after, .bind (.access _ w) ends, first.trans moves, housed'⟩

theorem useOutput_keepsBearings (output : Option Output) (housed : w.Houses e) :
    ∃ after, (Interpreter.useOutput e output).Ends B w (.ok ()) after ∧ w.KeepsBearings e after ∧
      after.Houses e := by
  cases output with
  | none => exact ⟨w, .done () w, .same e w, housed⟩
  | some out =>
    have idles := World.keepsControl_output (w := w) housed.made out
    exact ⟨_, .access _ w, idles.toKeepsBearings, idles.houses housed⟩

theorem create_keepsBearings {node : Node H} {t : Term} (housed : w.Houses e) (known : t.known)
    (layer : Term.Layer node t []) :
    ∃ v after, (Program.create node).Ends B w (.ok v) after ∧ w.KeepsBearings e after ∧
      after.Houses e ∧ after.Holds v := by
  have moves := w.keepsBearings_create (e := e) node
  exact ⟨_, _, .access (.create node) w, moves, moves.houses rfl housed, t,
    .create known layer nofun⟩

theorem build_houses (bindings : List (String × Value)) (each : ∀ b ∈ bindings, w.Holds b.2)
    (output : Option Output) :
    ∃ ready, (∀ config, (Interpreter.build config output bindings).Ends B w
        (.ok ⟨w.addEnvironment.1, config⟩) ready) ∧ w.KeepsBearings w.addEnvironment.1 ready ∧
      ready.Houses w.addEnvironment.1 := by
  have made : w.addEnvironment.1.index < w.addEnvironment.2.environments.size := by
    simp [World.addEnvironment]
  obtain ⟨w₁, registered, first, rules, lookup⟩ := registerAll_keepsBearings (B := B)
    StandardRule.inOrder made
  rw [environment_added] at rules lookup
  have housed : w₁.Houses w.addEnvironment.1 := by
    refine ⟨rules, Nat.lt_of_lt_of_le made first.environments, fun name v found => ?_⟩
    rw [lookup] at found
    cases found
  -- The built-in functions are made, and defined before anything else.
  obtain ⟨display, w₂, made₂, second, housed₂, shows⟩ :=
    create_keepsBearings (B := B) housed rfl (.display none)
  obtain ⟨definer, w₃, made₃, third, housed₃, defines⟩ :=
    create_keepsBearings (B := B) housed₂ rfl (.definer none)
  obtain ⟨w₄, defined, fourth, housed₄⟩ := defineAll_keepsBearings (B := B)
    [("show", display), ("macro", definer)] housed₃ (by simpa using ⟨third.holds shows, defines⟩)
  obtain ⟨w₅, directed, fifth, housed₅⟩ := useOutput_keepsBearings (B := B) output housed₄
  have moves := ((keepsBearings_added w).trans first).trans
    (((second.trans third).trans fourth).trans fifth)
  obtain ⟨ready, bound, last, housed₆⟩ := defineAll_keepsBearings (B := B) bindings housed₅
    fun b member => moves.holds (each b member)
  refine ⟨ready, fun config => ?_, moves.trans last, housed₆⟩
  exact .bind (.access .addEnvironment w) (.bind registered (.bind made₂ (.bind made₃
    (.bind defined (.bind directed (.bind bound (.done _ ready)))))))

theorem built_houses {bindings : List (String × Value)} (each : ∀ b ∈ bindings, w.Holds b.2)
    {config : Config} {output : Option Output} {i : Interpreter}
    (built : (Interpreter.build config output bindings).Ends B w (.ok i) after) :
    i = ⟨w.addEnvironment.1, config⟩ ∧ w.KeepsBearings i.environment after ∧
      after.Houses i.environment := by
  obtain ⟨ready, builds, moves, housed⟩ := build_houses (B := B) bindings each output
  obtain ⟨same, rfl⟩ := Program.ends_unique built (builds config)
  cases same
  exact ⟨rfl, moves, housed⟩

end Building

namespace Interpreter
variable {i : Interpreter}

theorem context_stack (i : Interpreter) : i.context.stack.active = [] ∧
    i.context.stack.nesting = 0 ∧ i.context.stack.limit = i.config.limit := by
  rw [context]
  cases i.config.record <;> exact ⟨rfl, rfl, rfl⟩

theorem brief {limit : Nat} (limited : i.config.limit = some limit) :
    i.context.stack.Brief (limit + 1) := by
  obtain ⟨-, nesting, same⟩ := i.context_stack
  exact ⟨limit, same.trans limited, by omega, by omega⟩

theorem beside (i i' : Interpreter) (same : i'.environment = i.environment)
    (roomier : ∀ limit', i'.config.limit = some limit' →
      ∃ limit, i.config.limit = some limit ∧ limit < limit') :
    i.context.Beside i.environment i'.context := by
  obtain ⟨idle, nesting, limit⟩ := i.context_stack
  obtain ⟨idle', nesting', limit'⟩ := i'.context_stack
  refine ⟨rfl, same, idle, idle', nesting'.trans nesting.symm, fun bound chosen => ?_, ?_⟩
  · omega
  · rw [limit, limit']
    exact roomier

theorem beside_unlimited (i : Interpreter) : i.context.Beside i.environment
    (Interpreter.mk i.environment ⟨none, i.config.record⟩).context :=
  beside _ _ rfl nofun

end Interpreter

/-- Whatever is called for, of two runs that stand abreast one follows the other. -/
theorem calls_tandem (fuel : Nat) {e : EnvironmentId} {w' : World H} {i i' : Interpreter}
    {c : Call Value} (abreast : w.Abreast e w') (beside : i.context.Beside e i'.context)
    (each : ∀ v ∈ c.values, w.Both w' v) (fuelled : enough → i.context.stack.Brief fuel) :
    Program.Tandem B fuel enough e (i.answer c) (i'.answer c) w w' fun after after' reply _ =>
      ∀ v ∈ reply.values, after.Both after' v := by
  have earlier : ∀ less < fuel, Abides B e less := fun less _ => abides less
  cases c with
  | run program =>
    have both := each program (by simp [Call.values])
    have ran := evaluate_tandem earlier abreast beside fuelled both
    refine ran.bind fun result result' after after' advance found => .done advance.abreast ?_
    simpa [Reply.values] using found.2
  | expand body parameter replacement =>
    refine (expand_tandem earlier abreast beside fuelled (each body (by simp [Call.values]))
      (each parameter (by simp [Call.values])) (each replacement (by simp [Call.values]))).bind
        fun result result' after after' advance found => .done advance.abreast ?_
    simpa [Reply.values] using found.2
  | render shown =>
    refine (format_tandem abreast beside (each shown (by simp [Call.values])) fuelled).bind
      fun text text' after after' advance _ => .done advance.abreast ?_
    simp [Reply.values]

theorem answer_endsIf {i : Interpreter} {c : Call Value} (housed : w.Houses i.environment)
    (each : ∀ v ∈ c.values, w.Holds v) :
    (i.answer c).EndsIf B fuel (i.context.stack.Brief fuel) w fun r after =>
      w.KeepsBearings i.environment after ∧ after.Houses i.environment ∧ ∀ v ∈ gained r,
        after.Holds v := by
  have tandem := calls_tandem (B := B) fuel (.same housed) i.beside_unlimited
    (fun v member => ⟨each v member, each v member⟩) id
  refine Program.EndsIf.weaken tandem id fun r after meets => ?_
  cases meets with
  | spent _ moves housed' => exact ⟨moves, housed', nofun⟩
  | failed _ advance _ => exact ⟨advance.lower, advance.abreast.lower, nofun⟩
  | ended _ advance holds =>
    exact ⟨advance.lower, advance.abreast.lower, fun v member => (holds v member).lower⟩

theorem answered_keepsBearings {i : Interpreter} {c : Call Value} {r : Except Failure (Reply Value)}
    (housed : w.Houses i.environment) (each : ∀ v ∈ c.values, w.Holds v)
    (ended : (i.answer c).Ends B w r after) :
    w.KeepsBearings i.environment after ∧ after.Houses i.environment ∧ ∀ v ∈ gained r,
      after.Holds v := by
  obtain ⟨fuel, ran⟩ := ended
  exact (answer_endsIf housed each).finds r after ran

/-- A session has led to the world. At hand are values that remembered nothing when it began, values
    made of others at hand, their parts, values found bound and the results of calls. Interpreters
    have the standard rules and any limits. -/
inductive Session (B : Behaviour H) : World H → List Value → List Interpreter → Prop where
  | start {w : World H} {hand : List Value}
      (fresh : ∀ v ∈ hand, ∃ t : Term, t.known ∧ w.Spells True v t) : Session B w hand []
  | make {w : World H} {hand : List Value} {served : List Interpreter} {n : Node H} {t : Term}
      {parts : List (Value × Term)} (before : Session B w hand served)
      (layer : Term.Layer n t parts) (known : t.known)
      (held : ∀ p ∈ parts, p.1 ∈ hand ∧ w.Spells False p.1 p.2) :
      Session B (w.create n).2 ((w.create n).1 :: hand) served
  | part {w : World H} {hand : List Value} {served : List Interpreter} {v : Value} {t : Term}
      {parts : List (Value × Term)} {p : Value × Term} (before : Session B w hand served)
      (member : v ∈ hand) (known : t.known) (layer : Term.Layer (w.node v) t parts)
      (spells : w.Spells False v t) (within : p ∈ parts) : Session B w (p.1 :: hand) served
  | found {w : World H} {hand : List Value} {served : List Interpreter} {i : Interpreter}
      {name : String} {v : Value} (before : Session B w hand served) (member : i ∈ served)
      (bound : (w.environment i.environment).lookup name = some v) :
      Session B w (v :: hand) served
  | buffer {w : World H} {hand : List Value} {served : List Interpreter}
      (before : Session B w hand served) : Session B w.openBuffer.2 hand served
  | interpreter {w after : World H} {hand : List Value} {served : List Interpreter}
      {config : Config} {output : Option Output} {bindings : List (String × Value)}
      {i : Interpreter} (before : Session B w hand served) (held : ∀ b ∈ bindings, b.2 ∈ hand)
      (built : (Interpreter.build config output bindings).Ends B w (.ok i) after) :
      Session B after hand (i :: served)
  | call {w after : World H} {hand : List Value} {served : List Interpreter} {i : Interpreter}
      {c : Call Value} {r : Except Failure (Reply Value)} (before : Session B w hand served)
      (member : i ∈ served) (held : ∀ v ∈ c.values, v ∈ hand)
      (ended : (i.answer c).Ends B w r after) : Session B after (gained r ++ hand) served

structure World.Safe (w : World H) (hand : List Value) (served : List Interpreter) : Prop where
  held : ∀ v ∈ hand, w.Holds v
  housed : ∀ i ∈ served, w.Houses i.environment

theorem World.Holds.bears {t : Term} (holds : w.Holds v) (known : t.known)
    (spells : w.Spells False v t) : w.Bears True v t := by
  obtain ⟨u, bears⟩ := holds
  obtain rfl := bears.spells.unique spells bears.known known
  exact bears

namespace World.Safe
variable {hand : List Value} {served : List Interpreter}

theorem more (safe : w.Safe hand served) (holds : w.Holds v) : w.Safe (v :: hand) served :=
  ⟨List.forall_mem_cons.mpr ⟨holds, safe.held⟩, safe.housed⟩

theorem moved {e : EnvironmentId} (safe : w.Safe hand served) (moves : w.KeepsBearings e after)
    (housed : after.Houses e) : after.Safe hand served where
  held v member := moves.holds (safe.held v member)
  housed i member := by
    by_cases here : i.environment = e
    · rw [here]
      exact housed
    · exact moves.houses (moves.elsewhere _ here) (safe.housed i member)

theorem create (safe : w.Safe hand served) (n : Node H) : (w.create n).2.Safe hand served where
  held v member := (w.keepsBearings_create (e := ⟨0⟩) n).holds (safe.held v member)
  housed i member := (w.keepsBearings_create (e := ⟨0⟩) n).houses rfl (safe.housed i member)

theorem openBuffer (safe : w.Safe hand served) : w.openBuffer.2.Safe hand served := by
  have moves : w.KeepsBearings ⟨0⟩ w.openBuffer.2 :=
    ⟨.of_cells_eq rfl, fun _ _ bears => bears.of_cells_eq rfl, fun _ _ => rfl, Nat.le_refl _⟩
  exact ⟨fun v member => moves.holds (safe.held v member),
    fun i member => moves.houses rfl (safe.housed i member)⟩

theorem interpreter (safe : w.Safe hand served) {config : Config} {output : Option Output}
    {bindings : List (String × Value)} {i : Interpreter} (held : ∀ b ∈ bindings, b.2 ∈ hand)
    (built : (Interpreter.build config output bindings).Ends B w (.ok i) after) :
    after.Safe hand (i :: served) := by
  obtain ⟨-, moves, housed⟩ := built_houses (fun b member => safe.held b.2 (held b member)) built
  have kept := safe.moved moves housed
  exact ⟨kept.held, List.forall_mem_cons.mpr ⟨housed, kept.housed⟩⟩

theorem call (safe : w.Safe hand served) {i : Interpreter} {c : Call Value}
    {r : Except Failure (Reply Value)} (member : i ∈ served) (held : ∀ v ∈ c.values, v ∈ hand)
    (ended : (i.answer c).Ends B w r after) : after.Safe (gained r ++ hand) served := by
  obtain ⟨moves, housed, holds⟩ := answered_keepsBearings (safe.housed i member)
    (fun v within => safe.held v (held v within)) ended
  have kept := safe.moved moves housed
  refine ⟨fun v within => ?_, kept.housed⟩
  rcases List.mem_append.mp within with new | old
  · exact holds v new
  · exact kept.held v old

end World.Safe

namespace Session
variable {hand : List Value} {served : List Interpreter}

/-- Every step of a session leaves safe what it found safe. -/
theorem safe (session : Session B w hand served) : w.Safe hand served := by
  induction session with
  | start fresh =>
    refine ⟨fun v member => ?_, nofun⟩
    obtain ⟨t, known, spells⟩ := fresh v member
    exact ⟨t, .of_fresh spells known⟩
  | make _ layer known held safe =>
    exact (safe.create _).more ⟨_, .create known layer fun p within =>
      (safe.held p.1 (held p within).1).bears (layer.known_parts known p within)
        (held p within).2⟩
  | part _ member known layer spells within safe =>
    refine safe.more ?_
    cases (safe.held _ member).bears known spells with
    | intro _ _ _ layer' each =>
      obtain rfl := layer.parts_unique layer'
      exact ⟨_, each _ within⟩
  | found _ member bound safe => exact safe.more ((safe.housed _ member).bound _ _ bound)
  | buffer _ safe => exact safe.openBuffer
  | interpreter _ held built safe => exact safe.interpreter held built
  | call _ member held ended safe => exact safe.call member held ended

/-- Where nesting is limited every call ends, whatever has been called for before and whatever
    macros apply themselves: programs are never nested more deeply in one another than entries
    are. -/
theorem limited_call_ends (session : Session B w hand served) {i : Interpreter}
    (member : i ∈ served) {limit : Nat} (limited : i.config.limit = some limit) {c : Call Value}
    (held : ∀ v ∈ c.values, v ∈ hand) :
    ∃ r after, (i.answer c).perform (respond B (limit + 1)) w = some (r, after) := by
  have safe := session.safe
  obtain ⟨⟨r, after⟩, ran⟩ := (answer_endsIf (safe.housed i member)
    fun v within => safe.held v (held v within)).ends (Interpreter.brief limited)
  exact ⟨r, after, ran⟩

def loopingWorld : World Host.unit :=
  { World.initial () with
    cells := #[⟨.single Key.name ⟨"f"⟩ none, []⟩, ⟨.single Key.name ⟨":"⟩ none, []⟩,
      ⟨.single Key.name ⟨"macro"⟩ none, []⟩, ⟨.single Key.name ⟨"x"⟩ none, []⟩,
      ⟨.single Key.list ⟨[⟨0⟩, ⟨3⟩]⟩ none, []⟩, ⟨.single Key.list ⟨[⟨2⟩, ⟨3⟩, ⟨4⟩]⟩ none, []⟩,
      ⟨.single Key.number ⟨0⟩ none, []⟩,
      ⟨.single Key.block ⟨[[⟨0⟩, ⟨1⟩, ⟨5⟩], [⟨0⟩, ⟨6⟩]]⟩ none, []⟩] }

theorem looping_macro_ends :
    ∃ (w : World Host.unit) (i : Interpreter), Session inert w [⟨7⟩] [i] ∧
      i.config.limit = some 64 ∧
      ∃ r after, (i.answer (.run ⟨7⟩)).perform (respond inert 65) w = some (r, after) := by
  have program : loopingWorld.Spells True ⟨7⟩ (.block [[.name ⟨"f"⟩ none, .name ⟨":"⟩ none,
      .list [.name ⟨"macro"⟩ none, .name ⟨"x"⟩ none,
        .list [.name ⟨"f"⟩ none, .name ⟨"x"⟩ none] none] none],
      [.name ⟨"f"⟩ none, .number ⟨0⟩ none]] none) := .of_read 4 rfl
  have start : Session inert loopingWorld [⟨7⟩] [] := .start fun v member =>
    ⟨_, rfl, List.mem_singleton.mp member ▸ program⟩
  obtain ⟨w, builds, -⟩ := build_houses (B := inert) (w := loopingWorld) []
    (by simp) none
  have session := start.interpreter (by simp) (builds ⟨some 64, true⟩)
  exact ⟨w, _, session, rfl, session.limited_call_ends (List.mem_singleton_self _) rfl
    (by simp [Call.values])⟩

/-- After any calls on interpreters with any limits, a value for whose parts there is room is shown
    with placeholders for some of them at most. It is shown in full if it has no parts that are
    shown, and also if nothing that it and its parts remember to show has a placeholder. Then
    nothing is left to be remembered that has one. -/
theorem rendered_with_room (session : Session B w hand served) {i : Interpreter}
    (member : i ∈ served) {limit : Nat} (limited : i.config.limit = some limit) (held : v ∈ hand)
    {t : Term} (known : t.known) (spells : w.Spells False v t) (room : t.height + 2 ≤ limit) :
    ∃ shown after, (i.render v).Ends B w shown after ∧ t.Displays True False shown ∧
      (t.height = 0 → shown = t.render) ∧
      (w.Bears False v t → shown = t.render ∧ after.Bears False v t) := by
  have safe := session.safe
  have housed := safe.housed i member
  obtain ⟨idle, nesting, same⟩ := i.context_stack
  have standard : w.Standard i.context.environment := housed.standard
  have calm : i.context.stack.Calm := by
    rw [CallStack.Calm, idle]
    exact nofun
  have roomy : i.context.stack.Room (t.height + 2) := by
    intro bound chosen
    rw [same, limited] at chosen
    cases chosen
    omega
  have admits : i.context.stack.Admits v := ⟨roomy.fewer (by omega), by
    rw [idle]
    exact nofun⟩
  have bears := (safe.held v held).bears known spells
  have placed : False ∨ i.context.stack.Admits v := .inr admits
  have runs := format_endsIf (B := B) (limit + 1) bears standard calm (.inl trivial) placed
  obtain ⟨⟨shown, after⟩, ran⟩ := runs.ends (.inl (Interpreter.brief limited))
  have displays := (runs.finds shown after ran).displays
  refine ⟨shown, after, ⟨_, ran⟩, displays, displays.flat, fun complete => ?_⟩
  have ample : i.context.stack.Ample False w t := ⟨roomy, by
    rw [idle]
    exact nofun⟩
  have exact := (format_endsIf (B := B) (limit + 1) complete standard calm (.inr ample)
    placed).finds shown after ran
  exact ⟨exact.displays.exact id id, exact.recollects.bears v t complete⟩

def nestedWorld : World Host.unit :=
  { World.initial () with
    cells := #[⟨.single Key.name ⟨"a"⟩ none, []⟩, ⟨.single Key.list ⟨[⟨0⟩]⟩ none, []⟩,
      ⟨.single Key.list ⟨[⟨1⟩]⟩ none, []⟩] }

/-- The outer list was rendered without room for the name, which is missing in the inner list since
    then. -/
theorem nested_rendered :
    ∃ (w after : World Host.unit) (i : Interpreter), Session inert w [⟨2⟩, ⟨1⟩, ⟨0⟩] [i] ∧
      i.config.limit = some 3 ∧ w.Spells False ⟨0⟩ (.name ⟨"a"⟩ none) ∧
      w.Spells False ⟨1⟩ (.list [.name ⟨"a"⟩ none] none) ∧
      (i.answer (.render ⟨1⟩)).Ends inert w (.ok (.text "(<value>)")) after := by
  have name : nestedWorld.Spells True ⟨0⟩ (.name ⟨"a"⟩ none) := .of_read 4 rfl
  have inner : nestedWorld.Spells True ⟨1⟩ (.list [.name ⟨"a"⟩ none] none) := .of_read 4 rfl
  have outer : nestedWorld.Spells True ⟨2⟩ (.list [.list [.name ⟨"a"⟩ none] none] none) :=
    .of_read 4 rfl
  have start : Session inert nestedWorld [⟨2⟩, ⟨1⟩, ⟨0⟩] [] := .start fun v member => by
    simp only [List.mem_cons, List.not_mem_nil, or_false] at member
    rcases member with rfl | rfl | rfl
    · exact ⟨_, rfl, outer⟩
    · exact ⟨_, rfl, inner⟩
    · exact ⟨_, rfl, name⟩
  obtain ⟨last, ran⟩ : ∃ last, (do
      let i ← Interpreter.build ⟨some 3, true⟩ none []
      let first ← i.answer (.render ⟨2⟩)
      let second ← i.answer (.render ⟨1⟩)
      return (i, first, second)).Ends inert nestedWorld
        (.ok (⟨⟨0⟩, ⟨some 3, true⟩⟩, .text "((<value>))", .text "(<value>)")) last := ⟨_, 9, rfl⟩
  obtain ⟨i, ready, built, ran⟩ := ran.split
  obtain ⟨first, w, before, ran⟩ := ran.split
  obtain ⟨second, after, shown, fuel, returned⟩ := ran.split
  cases returned
  have prepared := start.interpreter (by simp) built
  have session := prepared.call (List.mem_singleton_self _) (by simp [Call.values]) before
  obtain ⟨-, moves, housed⟩ := built_houses (by simp) built
  have moves' := moves.trans (answered_keepsBearings housed (by
    simpa [Call.values] using prepared.safe.held ⟨2⟩ (by simp)) before).1
  exact ⟨w, _, _, session, rfl, (moves'.bears _ _ (.of_fresh name rfl)).spells,
    (moves'.bears _ _ (.of_fresh inner rfl)).spells, shown⟩

theorem name_rendered_still :
    ∃ (w after : World Host.unit) (i : Interpreter), Session inert w [⟨2⟩, ⟨1⟩, ⟨0⟩] [i] ∧
      (i.render ⟨0⟩).Ends inert w "a" after := by
  obtain ⟨w, -, i, session, limited, spells, -, -⟩ := nested_rendered
  obtain ⟨shown, after, ends, -, flat, -⟩ := session.rendered_with_room
    (List.mem_singleton_self i) limited (v := ⟨0⟩) (by simp) rfl spells (by decide)
  obtain rfl : shown = "a" := flat rfl
  exact ⟨w, after, i, session, ends⟩

/-- A rendering for which there is room shows a placeholder. -/
theorem placeholder_remembered :
    ∃ (w after : World Host.unit) (i : Interpreter), Session inert w [⟨2⟩, ⟨1⟩, ⟨0⟩] [i] ∧
      i.config.limit = some 3 ∧ w.Spells False ⟨1⟩ (.list [.name ⟨"a"⟩ none] none) ∧
      (Term.list [.name ⟨"a"⟩ none] none).height + 2 ≤ 3 ∧
      (i.answer (.render ⟨1⟩)).Ends inert w (.ok (.text "(<value>)")) after ∧
      "(<value>)" ≠ (Term.list [.name ⟨"a"⟩ none] none).render := by
  obtain ⟨w, after, i, session, limited, -, spells, shown⟩ := nested_rendered
  exact ⟨w, after, i, session, limited, spells, by decide, shown, by decide⟩

end Session
end TraitDispatch
