import TraitDispatch.Proofs.Refinement

/- Application of macros. The argument is evaluated, put in place of the parameter, and what comes
   of the body is evaluated. Only names, lists, blocks and quotes can be expanded, so that a macro
   with any other body fails after its argument was evaluated, while items of the same kinds are
   left as they are inside a list. -/
namespace TraitDispatch
variable {H : Host} {B : Behaviour H} {w : World H}

section Applying
variable {ctx : Context} {parameter body argument : Value} {p b : Term}

theorem apply_substitutes {replacement : Value} {w₁ : World H}
    (evaluated : (argument.evaluateOrSelf ctx).Ends B w (.ok replacement) w₁)
    (standard : w₁.Standard ctx.environment) (opened : ctx.stack.Open)
    (hasParameter : w₁.Represents False parameter p) (hasBody : w₁.Represents False body b)
    (syntactic : b.isSyntax = true) :
    ∃ u w₂, World.AddsValues False w₁ w₂ ∧ w₂.Substituted p.name? replacement body u ∧
      ∀ r after, (Macro.apply ⟨parameter, body⟩ argument ctx).Ends B w r after ↔
        (u.evaluateOrSelf ctx).Ends B w₂ r after := by
  have expanded := expand_substitutes (B := B) replacement hasParameter hasBody syntactic
    standard opened
  obtain ⟨u, w₂, ⟨substituted, -⟩, comes⟩ := expanded.reducesTo fun u => u.evaluateOrSelf ctx
  exact ⟨u, w₂, comes.grown, substituted, fun r after =>
    (Program.ends_bind_iff evaluated).trans comes.ends_iff⟩

theorem apply_refuses {replacement : Value} {w₁ : World H}
    (evaluated : (argument.evaluateOrSelf ctx).Ends B w (.ok replacement) w₁)
    (standard : w₁.Standard ctx.environment) (opened : ctx.stack.Open)
    (hasBody : w₁.Represents False body b) (other : b.isSyntax = false) :
    ∃ failure after, (Macro.apply ⟨parameter, body⟩ argument ctx).Ends B w (.error failure) after ∧
      failure.cause = .missingTrait "Macro-Expand" := by
  obtain ⟨inner, w₂, inside, comes⟩ :=
    expand_lacks (B := B) hasBody standard opened parameter replacement other
  exact ⟨_, w₂, .bind evaluated (.bind_failed (comes.ends (.failed _ w₂))), rfl⟩

theorem macro_reducesTo {v : Value} {l : Option Location}
    (holds : w.Represents False v (.definition p b l))
    (node : w.node v = .single Key.definition ⟨parameter, body⟩ l)
    (standard : w.Standard ctx.environment) (opened : ctx.stack.Open) (argument : Value) :
    ∃ inner w', ctx.Inside inner ∧ World.AddsValues False w w' ∧
      ∀ r after, (v.call argument ctx).Ends B w r after ↔
        (Macro.apply ⟨parameter, body⟩ argument inner).Ends B w' r after := by
  obtain ⟨inner, w', inside, comes⟩ := call_reducesTo (f := .application ⟨parameter, body⟩) (B := B)
    holds standard opened argument (by rw [node]; rfl)
  exact ⟨inner, w', inside, comes.grown, fun r after => comes.ends_iff.trans Program.ends_call_iff⟩

/-- Applying a macro whose argument evaluates to a replacement is evaluating the body with that in
    place of the parameter, if the body can be expanded. If not, the application fails. -/
theorem macro_application {v : Value} {l : Option Location}
    (holds : w.Represents False v (.definition p b l))
    (node : w.node v = .single Key.definition ⟨parameter, body⟩ l)
    (standard : w.Standard ctx.environment) (opened : ctx.stack.Open) (argument : Value) :
    ∃ inner w', ctx.Inside inner ∧ World.AddsValues False w w' ∧
      (∀ failure w₁, (argument.evaluateOrSelf inner).Ends B w' (.error failure) w₁ →
        (v.call argument ctx).Ends B w (.error failure) w₁) ∧
      ∀ replacement w₁, (argument.evaluateOrSelf inner).Ends B w' (.ok replacement) w₁ →
        w₁.Standard inner.environment → w₁.Represents False parameter p →
        w₁.Represents False body b →
        if b.isSyntax then
          ∃ u w₂, World.AddsValues False w₁ w₂ ∧ w₂.Substituted p.name? replacement body u ∧
            ∀ r after, (v.call argument ctx).Ends B w r after ↔
              (u.evaluateOrSelf inner).Ends B w₂ r after
        else
          ∃ failure after, (v.call argument ctx).Ends B w (.error failure) after ∧
            failure.cause = .missingTrait "Macro-Expand" := by
  obtain ⟨inner, w', inside, grown, applies⟩ :=
    macro_reducesTo (B := B) holds node standard opened argument
  refine ⟨inner, w', inside, grown, fun failure w₁ failed => ?_,
    fun replacement w₁ evaluated standard₁ hasParameter hasBody => ?_⟩
  · exact (applies _ _).mpr (.bind_failed failed)
  · cases syntactic : b.isSyntax with
    | true =>
      obtain ⟨u, w₂, grown₂, substituted, same⟩ :=
        apply_substitutes evaluated standard₁ inside.opened hasParameter hasBody syntactic
      exact ⟨u, w₂, grown₂, substituted, fun r after => (applies r after).trans (same r after)⟩
    | false =>
      obtain ⟨failure, after, ends, missing⟩ :=
        apply_refuses evaluated standard₁ inside.opened hasBody syntactic
      exact ⟨failure, after, (applies _ _).mpr ends, missing⟩

end Applying

def macroWorld : World Host.unit :=
  { World.initial () with
    cells := #[⟨.single Key.name ⟨"n"⟩ none, []⟩, ⟨.single Key.number ⟨0⟩ none, []⟩,
      ⟨.single Key.definition ⟨⟨0⟩, ⟨1⟩⟩ none, []⟩, ⟨.single Key.quoted ⟨⟨0⟩⟩ none, []⟩,
      ⟨.single Key.definition ⟨⟨0⟩, ⟨3⟩⟩ none, []⟩,
      ⟨.single Key.number ⟨4607182418800017408⟩ none, []⟩]
    environments := #[{ rules := StandardRule.inOrder.map .standard }] }

theorem quoting_macro_applied :
    ∃ (inner : Context) (u : Value) (w₂ : World Host.unit),
      (⟨⟨0⟩, .fresh⟩ : Context).Inside inner ∧
      w₂.Substituted (some ⟨"n"⟩) ⟨5⟩ ⟨3⟩ u ∧
      ∀ r after, ((⟨4⟩ : Value).call ⟨5⟩ ⟨⟨0⟩, .fresh⟩).Ends inert macroWorld r after ↔
        (u.evaluateOrSelf inner).Ends inert w₂ r after := by
  have name : macroWorld.Represents False ⟨0⟩ (.name ⟨"n"⟩ none) := .of_read 4 rfl
  have quote : macroWorld.Represents False ⟨3⟩ (.quoted (.name ⟨"n"⟩ none) none) := .of_read 4 rfl
  have definition : macroWorld.Represents False ⟨4⟩
      (.definition (.name ⟨"n"⟩ none) (.quoted (.name ⟨"n"⟩ none) none) none) := .of_read 4 rfl
  have number : macroWorld.Represents False ⟨5⟩ (.number ⟨4607182418800017408⟩ none) :=
    .of_read 4 rfl
  have standard : macroWorld.Standard (⟨⟨0⟩, .fresh⟩ : Context).environment := rfl
  obtain ⟨inner, w', inside, grown, -, applies⟩ :=
    macro_application (B := inert) definition rfl standard ⟨rfl, rfl⟩ ⟨5⟩
  have standard' : w'.Standard inner.environment := by
    rw [inside.environment]
    exact grown.standard standard
  -- The argument is a number, and so stands for itself.
  obtain ⟨w₁, comes⟩ := operand_reducesTo (B := inert) (grown.represents _ _ number) standard'
    inside.opened
  obtain ⟨u, w₂, -, substituted, same⟩ := applies ⟨5⟩ w₁ (comes.ends (.done _ w₁))
    (comes.grown.standard standard') ((grown.trans comes.grown).represents _ _ name)
    ((grown.trans comes.grown).represents _ _ quote)
  exact ⟨inner, u, w₂, inside, substituted, same⟩

/-- A number as the body is not kept as it is, but makes the application fail. -/
theorem constant_macro_refused :
    macroWorld.Standard ⟨0⟩ ∧ macroWorld.node ⟨0⟩ = .single Key.name ⟨"n"⟩ none ∧
    macroWorld.node ⟨1⟩ = .single Key.number ⟨0⟩ none ∧
    macroWorld.node ⟨2⟩ = .single Key.definition ⟨⟨0⟩, ⟨1⟩⟩ none ∧
    (∃ after, ((⟨5⟩ : Value).evaluateOrSelf ⟨⟨0⟩, .fresh⟩).Ends inert macroWorld (.ok ⟨5⟩) after) ∧
    (∃ after, ((⟨1⟩ : Value).evaluateOrSelf ⟨⟨0⟩, .fresh⟩).Ends inert macroWorld (.ok ⟨1⟩) after) ∧
    (∃ failure after, ((⟨2⟩ : Value).call ⟨5⟩ ⟨⟨0⟩, .fresh⟩).Ends inert macroWorld (.error failure)
      after ∧ failure.cause = .missingTrait "Macro-Expand") ∧
    ¬ ∃ u after, ((⟨2⟩ : Value).call ⟨5⟩ ⟨⟨0⟩, .fresh⟩).Ends inert macroWorld (.ok u) after := by
  obtain ⟨failure, after, ends, missing⟩ : ∃ failure after,
      ((⟨2⟩ : Value).call ⟨5⟩ ⟨⟨0⟩, .fresh⟩).Ends inert macroWorld (.error failure) after ∧
        failure.cause = .missingTrait "Macro-Expand" := ⟨_, _, ⟨9, rfl⟩, rfl⟩
  refine ⟨rfl, rfl, rfl, rfl, ⟨_, 9, rfl⟩, ⟨_, 9, rfl⟩, ⟨failure, after, ends, missing⟩, ?_⟩
  rintro ⟨u, other, returned⟩
  cases (Program.ends_unique ends returned).1

end TraitDispatch
