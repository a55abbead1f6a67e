import TraitDispatch.Proofs.Interpretation
import TraitDispatch.Proofs.Resemblance

/- Recording leaves frames on the stack, and renders a value for each of them. Whether it is on
   makes no difference to a program but for the traces of its failures: those renderings change
   nothing that later answers depend on. -/
namespace TraitDispatch
variable {H : Host} {B : Behaviour H} {w w' : World H}

theorem Store.scope_defineAll {s s' : Store} (same : s.scope = s'.scope)
    (bindings : List (String × Term)) :
    (s.defineAll bindings).scope = (s'.defineAll bindings).scope := by
  induction bindings generalizing s s' with
  | nil => exact same
  | cons entry rest ih =>
    refine ih ?_
    simp only [Store.define, same]

theorem Store.scope_initial (output other : String) (bindings : List (String × Term)) :
    (Store.initial output bindings).scope = (Store.initial other bindings).scope := by
  have bare : (⟨fun _ => none, output⟩ : Store).scope = (⟨fun _ => none, other⟩ : Store).scope :=
    rfl
  exact Store.scope_defineAll (Store.scope_defineAll bare _) bindings

/-- Two interpreters that differ in recording run copies of a program. Either neither run ends, or
    both do: with results of the same structure or failures of the same cause, and with the same
    lines written and bindings of the same structure. Without recording no failure has a trace. -/
theorem recording_unobservable {buffer buffer' : Nat} (opened : buffer < w.buffers.size)
    (opened' : buffer' < w'.buffers.size) {bindings bindings' : List (String × Value)}
    (bound : List.Forall₂ (fun b b' => b.1 = b'.1 ∧ w.Matched w' b.2 b'.2) bindings bindings')
    {program program' : Value} (copies : w.Matched w' program program') :
    ∃ (i i' : Interpreter) (ready ready' : World H),
      (Interpreter.build ⟨none, true⟩ (some (.capture buffer)) bindings).Ends B w (.ok i) ready ∧
      (Interpreter.build ⟨none, false⟩ (some (.capture buffer')) bindings').Ends B w' (.ok i')
        ready' ∧
      ready.captured (.capture buffer) = w.captured (.capture buffer) ∧
      ready'.captured (.capture buffer') = w'.captured (.capture buffer') ∧
      (i.run program).EndsLike B (fun after after' => after.Alike False False after')
        i.environment ready i'.environment (i'.run program') ready' ∧
      ∀ failure after, (i'.run program').Ends B ready' (.error failure) after →
        failure.trace = .empty := by
  obtain ⟨terms, plain, plain', known⟩ := exists_terms bound
  obtain ⟨t, known', holds, holds'⟩ := copies
  obtain ⟨e, ready, built, kept, models⟩ := build_ends (B := B) ⟨none, true⟩ opened plain
  obtain ⟨e', ready', built', kept', models'⟩ := build_ends (B := B) ⟨none, false⟩ opened' plain'
  have stored := Store.known_initial (w.captured (.capture buffer)) known
  have stored' := Store.known_initial (w'.captured (.capture buffer')) known
  have mirrors := evaluate_realizesExactly (B := B) (kept.represents _ _ holds) known' models stored
    (context_at ⟨e, ⟨none, true⟩⟩ rfl)
  have mirrors' := evaluate_realizesExactly (B := B) (kept'.represents _ _ holds') known' models'
    stored' (context_at ⟨e', ⟨none, false⟩⟩ rfl)
  refine ⟨⟨e, _⟩, ⟨e', _⟩, ready, ready', built, built', ?_, ?_, ?_, fun failure after ends => ?_⟩
  · exact models.captured.trans (Store.output_initial _ _)
  · exact models'.captured.trans (Store.output_initial _ _)
  · exact mirrors.endsLike mirrors' models models' stored (Store.scope_initial _ _ _)
      fun after after' u u' t known result result' =>
        World.Matched.alike ⟨t, known, result, result'⟩
  · obtain ⟨_, _, _, -, reaches, -⟩ := mirrors'.ended stored' ends
    exact reaches.untraced ⟨rfl, rfl⟩ failure rfl

def quotingStart : World Host.unit :=
  { World.initial () with
    cells := #[⟨.single Key.name ⟨"z"⟩ none, []⟩, ⟨.single Key.quoted ⟨⟨0⟩⟩ none, []⟩,
      ⟨.single Key.name ⟨"show"⟩ none, []⟩, ⟨.single Key.list ⟨[⟨2⟩, ⟨1⟩]⟩ none, []⟩]
    buffers := #[""] }

theorem quotingStart_spells :
    quotingStart.Spells True ⟨1⟩ (.quoted (.name ⟨"z"⟩ none) none) ∧
      quotingStart.Spells True ⟨3⟩
        (.list [.name ⟨"show"⟩ none, .quoted (.name ⟨"z"⟩ none) none] none) :=
  ⟨.of_read 4 rfl, .of_read 4 rfl⟩

theorem quoting_display_unrecorded :
    ∃ (i i' : Interpreter) (ready ready' : World Host.unit),
      (Interpreter.build ⟨none, true⟩ (some (.capture 0)) [("y", ⟨1⟩)]).Ends inert quotingStart
        (.ok i) ready ∧
      (Interpreter.build ⟨none, false⟩ (some (.capture 0)) [("y", ⟨1⟩)]).Ends inert quotingStart
        (.ok i') ready' ∧
      (i.run ⟨3⟩).EndsLike inert (fun after after' => after.Alike False False after')
        i.environment ready i'.environment (i'.run ⟨3⟩) ready' := by
  obtain ⟨quote, program⟩ := quotingStart_spells
  have bound : List.Forall₂ (fun b b' => b.1 = b'.1 ∧
      quotingStart.Matched quotingStart b.2 b'.2) [("y", ⟨1⟩)] [("y", ⟨1⟩)] :=
    .cons ⟨rfl, World.Alike.matched ⟨_, rfl, quote, quote⟩⟩ .nil
  have opened : 0 < quotingStart.buffers.size := by decide
  obtain ⟨i, i', ready, ready', built, built', -, -, endsLike, -⟩ :=
    recording_unobservable (B := inert) opened opened bound
      (World.Alike.matched ⟨_, rfl, program, program⟩)
  exact ⟨i, i', ready, ready', built, built', endsLike⟩

end TraitDispatch
