import TraitDispatch.Interpreter
import TraitDispatch.Proofs.Handover
import TraitDispatch.Proofs.Reading
import TraitDispatch.Proofs.Refinement

/- An interpreter with the standard rules, from the building of its environment to the end of a
   run. What it is built with is a store, so that a run refines a direct evaluation from that
   store. -/
namespace TraitDispatch
variable {H : Host} {B : Behaviour H} {w : World H} {e : EnvironmentId}

theorem environment_added (w : World H) :
    w.addEnvironment.2.environment w.addEnvironment.1 = {} := by
  simp [World.environment, World.addEnvironment]

structure World.ChangesQuietly (e : EnvironmentId) (w after : World H) : Prop
    extends World.ChangesOnly e w after where
  unwritten : after.buffers = w.buffers
  console : after.console = w.console

namespace World.ChangesQuietly
variable {mid after : World H}

theorem trans (first : w.ChangesQuietly e mid) (second : mid.ChangesQuietly e after) :
    w.ChangesQuietly e after where
  toChangesOnly := first.toChangesOnly.trans second.toChangesOnly
  unwritten := second.unwritten.trans first.unwritten
  console := second.console.trans first.console

theorem change (made : e.index < w.environments.size) (f : Environment H → Environment H) :
    w.ChangesQuietly e (w.change e f) := ⟨.change made f, rfl, rfl⟩

theorem grown (grown : World.AddsValues True w after) : w.ChangesQuietly e after :=
  ⟨grown.changesOnly, grown.buffers, grown.console⟩

end World.ChangesQuietly

theorem changesQuietly_added (w : World H) :
    w.ChangesQuietly w.addEnvironment.1 w.addEnvironment.2 := by
  refine ⟨⟨.of_cells_eq rfl, fun other _ => w.environment_add other, ?_, Nat.le_refl _⟩, rfl, rfl⟩
  simp [World.addEnvironment]

theorem registerAll_ends (rules : List StandardRule) (made : e.index < w.environments.size) :
    ∃ after, (Interpreter.registerAll e rules).Ends B w (.ok ()) after ∧ w.ChangesQuietly e after ∧
      (after.environment e).rules = (w.environment e).rules ++ rules.map .standard ∧
      (after.environment e).bindings = (w.environment e).bindings ∧
      (after.environment e).output = (w.environment e).output := by
  induction rules generalizing w with
  | nil => exact ⟨w, .done () w, .grown (.same w), by simp, rfl, rfl⟩
  | cons rule rest ih =>
    have here := w.environment_change e e (·.register (.standard rule)) made
    rw [if_pos rfl] at here
    have first : w.ChangesQuietly e (w.change e (·.register (.standard rule))) := .change made _
    obtain ⟨after, ends, others, rules, bindings, output⟩ :=
      ih (w := w.change e (·.register (.standard rule)))
        (Nat.lt_of_lt_of_le made first.environments)
    rw [here] at rules bindings output
    refine ⟨after, .bind (.access _ w) ends, first.trans others, ?_, bindings, output⟩
    simpa [Environment.register] using rules

theorem registered_ends (w : World H) :
    ∃ after, (Interpreter.registerAll w.addEnvironment.1 StandardRule.inOrder).Ends B
        w.addEnvironment.2 (.ok ()) after ∧ w.ChangesQuietly w.addEnvironment.1 after ∧
      after.Binds w.addEnvironment.1 (fun _ => none) ∧
      (after.environment w.addEnvironment.1).output = none := by
  have made : w.addEnvironment.1.index < w.addEnvironment.2.environments.size := by
    simp [World.addEnvironment]
  obtain ⟨after, ends, prepares, rules, bindings, output⟩ :=
    registerAll_ends (B := B) StandardRule.inOrder made
  rw [environment_added w] at rules bindings output
  have fits := Nat.lt_of_lt_of_le made prepares.environments
  refine ⟨after, ends, (changesQuietly_added w).trans prepares,
    ⟨rules, fits, fun name => ?_⟩, output⟩
  rw [Environment.lookup, bindings]
  exact .none

theorem defineAll_ends {bindings : List (String × Value)} {terms : List (String × Term)}
    {s : Store} (binds : w.Binds e s.scope)
    (each : List.Forall₂ (fun b t => b.1 = t.1 ∧ w.Represents True b.2 t.2) bindings terms) :
    ∃ after, (Interpreter.defineAll e bindings).Ends B w (.ok ()) after ∧ w.ChangesQuietly e after ∧
      after.Binds e (s.defineAll terms).scope ∧
      (after.environment e).output = (w.environment e).output := by
  induction bindings generalizing w terms s with
  | nil =>
    cases each
    exact ⟨w, .done () w, .grown (.same w), binds, rfl⟩
  | cons entry bindings ih =>
    obtain ⟨⟨name, t⟩, terms, ⟨rfl, holds⟩, rest, rfl⟩ := List.forall₂_cons_left_iff.mp each
    have first : w.ChangesQuietly e (w.change e (·.define entry.1 entry.2)) := .change binds.made _
    have here := w.environment_change e e (·.define entry.1 entry.2) binds.made
    rw [if_pos rfl] at here
    obtain ⟨after, ends, others, binds', output⟩ := ih (s := s.define entry.1 t)
      (binds_define binds holds entry.1)
      (rest.imp fun _ _ row => ⟨row.1, first.represents _ _ row.2⟩)
    rw [here] at output
    exact ⟨after, .bind (.access _ w) ends, first.trans others, binds', output⟩

theorem useOutput_ends (output : Option Output) {scope : String → Option Term}
    (binds : w.Binds e scope) (unset : (w.environment e).output = none) :
    ∃ after, (Interpreter.useOutput e output).Ends B w (.ok ()) after ∧ w.ChangesQuietly e after ∧
      after.Binds e scope ∧ (after.environment e).output = output := by
  cases output with
  | none => exact ⟨w, .done () w, .grown (.same w), binds, unset⟩
  | some out =>
    have here := w.environment_change e e ({ · with output := some out }) binds.made
    rw [if_pos rfl] at here
    exact ⟨_, .access _ w, .change binds.made _, binds_output binds out,
      congrArg Environment.output here⟩

/-- The environment that is built holds the bindings, and writes to the output chosen. -/
theorem build_models (config : Config) (output : Option Output) {text : String}
    (opened : w.Opened (output.getD .console)) (written : w.Written (output.getD .console) text)
    {bindings : List (String × Value)} {terms : List (String × Term)}
    (each : List.Forall₂ (fun b t => b.1 = t.1 ∧ w.Represents True b.2 t.2) bindings terms) :
    ∃ after, (Interpreter.build config output bindings).Ends B w
        (.ok ⟨w.addEnvironment.1, config⟩) after ∧ w.ChangesOnly w.addEnvironment.1 after ∧
      after.Models w.addEnvironment.1 (output.getD .console) (.initial text terms) := by
  obtain ⟨w₁, registered, first, unbound, unset⟩ := registered_ends (B := B) w
  -- The built-in functions are made, and defined before anything else.
  obtain ⟨display, w₂, made₂, grown₂, displays⟩ : (Program.create (.single Key.function .display
      none)).Succeeds B (World.AddsValues True) w₁ fun v after =>
        after.Represents True v (.display none) :=
    Program.create_represents (.display none) (by simp)
  obtain ⟨definer, w₃, made₃, grown₃, defines⟩ : (Program.create (.single Key.function .definer
      none)).Succeeds B (World.AddsValues True) w₂ fun v after =>
        after.Represents True v (.definer none) :=
    Program.create_represents (.definer none) (by simp)
  have builtins : List.Forall₂ (fun b t => b.1 = t.1 ∧ w₃.Represents True b.2 t.2)
      [("show", display), ("macro", definer)]
      [("show", .display none), ("macro", .definer none)] :=
    .cons ⟨rfl, grown₃.represents _ _ displays⟩ (.cons ⟨rfl, defines⟩ .nil)
  have grown := grown₂.trans grown₃
  obtain ⟨w₄, defined, fourth, binds₄, output₄⟩ :=
    defineAll_ends (B := B) (s := ⟨_, text⟩) (unbound.grown grown) builtins
  rw [grown.environment, unset] at output₄
  obtain ⟨w₅, directed, fifth, binds₅, output₅⟩ := useOutput_ends (B := B) output binds₄ output₄
  have prepares := ((first.trans (.grown grown)).trans fourth).trans fifth
  -- The bindings given may hide them.
  obtain ⟨after, bound, last, binds, output₆⟩ := defineAll_ends (B := B) binds₅
    (each.imp fun _ _ row => ⟨row.1, prepares.represents _ _ row.2⟩)
  have all := prepares.trans last
  refine ⟨after, ?_, all.toChangesOnly, binds, opened.grown all.buffers, ?_, ?_⟩
  · exact .bind (.access .addEnvironment w) (.bind registered (.bind made₂ (.bind made₃
      (.bind defined (.bind directed (.bind bound (.done _ after)))))))
  · rw [output₆, output₅]
  · rw [Store.output_initial]
    exact written.congr all.unwritten all.console

theorem build_ends (config : Config) {buffer : Nat} (opened : buffer < w.buffers.size)
    {bindings : List (String × Value)} {terms : List (String × Term)}
    (each : List.Forall₂ (fun b t => b.1 = t.1 ∧ w.Represents True b.2 t.2) bindings terms) :
    ∃ e after, (Interpreter.build config (some (.capture buffer)) bindings).Ends B w
        (.ok ⟨e, config⟩) after ∧ w.ChangesOnly e after ∧
      after.Models e (.capture buffer) (.initial (w.captured (.capture buffer)) terms) :=
  ⟨_, build_models config (some (.capture buffer)) opened rfl each⟩

theorem context_at (i : Interpreter) (unlimited : i.config.limit = none) :
    i.context.At i.environment where
  environment := rfl
  opened := by
    rw [Interpreter.context, unlimited]
    cases i.config.record <;> exact ⟨rfl, rfl⟩

/-- A run ends as direct evaluation does: with the same result or cause of failure, the same lines
    written and the same bindings. -/
theorem interpretation_refines {config : Config} (unlimited : config.limit = none) {buffer : Nat}
    (opened : buffer < w.buffers.size) {bindings : List (String × Value)}
    {terms : List (String × Term)}
    (plain : List.Forall₂ (fun b t => b.1 = t.1 ∧ w.Represents True b.2 t.2) bindings terms)
    {program : Value} {t : Term} (holds : w.Represents True program t) {fuel : Nat}
    {outcome : Except Cause Term} {s : Store}
    (ran : t.evaluate fuel (.initial (w.captured (.capture buffer)) terms) = some (outcome, s)) :
    ∃ (i : Interpreter) (ready : World H) (r : Except Failure Value) (after : World H),
      (Interpreter.build config (some (.capture buffer)) bindings).Ends B w (.ok i) ready ∧
      (i.run program).Ends B ready r after ∧ Agrees (after.Represents True) r outcome ∧
      after.captured (.capture buffer) = s.output ∧
      ∀ name, Option.Rel (after.Represents True) ((after.environment i.environment).lookup name)
        (s.scope name) := by
  obtain ⟨e, ready, built, kept, models⟩ := build_ends (B := B) config opened plain
  have placed : (Interpreter.context ⟨e, config⟩).At e := context_at ⟨e, config⟩ unlimited
  obtain ⟨r, after, ends, -, models', agrees⟩ :=
    evaluate_simulates fuel (kept.represents _ _ holds) models placed outcome s ran
  exact ⟨⟨e, config⟩, ready, r, after, built, ends, agrees, models'.captured, models'.scope⟩

def showingWorld : World Host.unit :=
  { World.initial () with
    cells := #[⟨.single Key.name ⟨"p"⟩ none, []⟩, ⟨.single Key.name ⟨"show"⟩ none, []⟩,
      ⟨.single Key.block ⟨[[⟨1⟩, ⟨0⟩]]⟩ none, []⟩,
      ⟨.single Key.definition ⟨⟨0⟩, ⟨2⟩⟩ none, []⟩, ⟨.single Key.name ⟨"z"⟩ none, []⟩,
      ⟨.single Key.quoted ⟨⟨4⟩⟩ none, []⟩, ⟨.single Key.name ⟨"f"⟩ none, []⟩,
      ⟨.single Key.name ⟨"x"⟩ none, []⟩, ⟨.single Key.list ⟨[⟨6⟩, ⟨7⟩]⟩ none, []⟩]
    buffers := #[""] }

def showingMacro : Term :=
  .definition (.name ⟨"p"⟩ none) (.block [[.name ⟨"show"⟩ none, .name ⟨"p"⟩ none]] none) none

theorem showing_macro_interpreted :
    ∃ (i : Interpreter) (ready : World Host.unit) (u : Value) (after : World Host.unit),
      (Interpreter.build ⟨none, true⟩ (some (.capture 0)) [("f", ⟨3⟩), ("x", ⟨5⟩)]).Ends inert
        showingWorld (.ok i) ready ∧
      (i.run ⟨8⟩).Ends inert ready (.ok u) after ∧ after.Represents True u (.empty none) ∧
      after.captured (.capture 0) = "z\n" := by
  have unlimited : (⟨none, true⟩ : Config).limit = none := rfl
  have opened : 0 < showingWorld.buffers.size := by decide
  have definition : showingWorld.Represents True ⟨3⟩ showingMacro := .of_read 4 rfl
  have quoted : showingWorld.Represents True ⟨5⟩ (.quoted (.name ⟨"z"⟩ none) none) := .of_read 4 rfl
  have program : showingWorld.Represents True ⟨8⟩
      (.list [.name ⟨"f"⟩ none, .name ⟨"x"⟩ none] none) := .of_read 4 rfl
  have bindings : List.Forall₂ (fun b t => b.1 = t.1 ∧ showingWorld.Represents True b.2 t.2)
      [("f", ⟨3⟩), ("x", ⟨5⟩)]
      [("f", showingMacro), ("x", .quoted (.name ⟨"z"⟩ none) none)] :=
    .cons ⟨rfl, definition⟩ (.cons ⟨rfl, quoted⟩ .nil)
  obtain ⟨s, ran, written⟩ : ∃ s, Term.evaluate 4
      (.list [.name ⟨"f"⟩ none, .name ⟨"x"⟩ none] none)
      (.initial "" [("f", showingMacro), ("x", .quoted (.name ⟨"z"⟩ none) none)]) =
        some (.ok (.empty none), s) ∧ s.output = "z\n" := ⟨_, rfl, rfl⟩
  obtain ⟨i, ready, r, after, built, ends, agrees, captured, -⟩ :=
    interpretation_refines (B := inert) unlimited opened bindings program ran
  cases r with
  | error failure => exact absurd agrees id
  | ok u => exact ⟨i, ready, u, after, built, ends, agrees, captured.trans written⟩

end TraitDispatch
