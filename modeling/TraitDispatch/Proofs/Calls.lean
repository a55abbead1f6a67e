import TraitDispatch.Proofs.Interpretation
import TraitDispatch.Proofs.Resemblance

/- What an interpreter can be called for: to run a program, to expand a value or to render one. Each
   call does what a computation on terms says, whatever its values have answered before. -/
namespace TraitDispatch
variable {H : Host} {α β γ : Type} {B : Behaviour H} {w : World H}

inductive Call (α : Type) where
  | run (program : α)
  | expand (body parameter replacement : α)
  | render (shown : α)

inductive Reply (α : Type) where
  | value (result : α)
  | text (shown : String)

namespace Call

def values : Call α → List α
  | .run program => [program]
  | .expand body parameter replacement => [body, parameter, replacement]
  | .render shown => [shown]

/-- Calls for the same, of related values. -/
inductive Rel (R : α → β → Prop) : Call α → Call β → Prop where
  | run {a : α} {b : β} (program : R a b) : Rel R (.run a) (.run b)
  | expand {a p r : α} {b q s : β} (body : R a b) (parameter : R p q) (replacement : R r s) :
      Rel R (.expand a p r) (.expand b q s)
  | render {a : α} {b : β} (shown : R a b) : Rel R (.render a) (.render b)

theorem exists_rel {R : α → β → Prop} {c : Call α} (each : ∀ a ∈ c.values, ∃ b, R a b) :
    ∃ q : Call β, c.Rel R q := by
  cases c with
  | run a =>
    obtain ⟨b, program⟩ := each a (by simp [values])
    exact ⟨_, .run program⟩
  | expand a p r =>
    obtain ⟨b, body⟩ := each a (by simp [values])
    obtain ⟨q, parameter⟩ := each p (by simp [values])
    obtain ⟨s, replacement⟩ := each r (by simp [values])
    exact ⟨_, .expand body parameter replacement⟩
  | render a =>
    obtain ⟨b, shown⟩ := each a (by simp [values])
    exact ⟨_, .render shown⟩

theorem Rel.transfer {R : α → β → Prop} {S : α → γ → Prop} {T : γ → β → Prop} {c : Call α}
    {q : Call β} {c' : Call γ} (first : c.Rel R q) (second : c.Rel S c')
    (both : ∀ a b d, R a b → S a d → T d b) : c'.Rel T q := by
  cases first with
  | run program =>
    cases second with
    | run program' => exact .run (both _ _ _ program program')
  | expand body parameter replacement =>
    cases second with
    | expand body' parameter' replacement' =>
      exact .expand (both _ _ _ body body') (both _ _ _ parameter parameter')
        (both _ _ _ replacement replacement')
  | render shown =>
    cases second with
    | render shown' => exact .render (both _ _ _ shown shown')

end Call

namespace Reply

def values : Reply α → List α
  | .value result => [result]
  | .text _ => []

inductive Rel (R : α → β → Prop) : Reply α → Reply β → Prop where
  | value {a : α} {b : β} (result : R a b) : Rel R (.value a) (.value b)
  | text (shown : String) : Rel R (.text shown) (.text shown)

def Known (r : Reply Term) : Prop := ∀ t ∈ r.values, t.known

end Reply

def Interpreter.answer (i : Interpreter) : Call Value → Program H (Reply Value)
  | .run program => do return .value (← i.run program)
  | .expand body parameter replacement => do
    return .value (← i.expand body parameter replacement)
  | .render shown => do return .text (← (i.render shown).lift)

def Term.expand (body parameter replacement : Term) : Direct Term :=
  if body.isSyntax then return body.substitute parameter.name? replacement
  else .fail (.missingTrait "Macro-Expand")

def Call.direct (fuel : Nat) : Call Term → Direct (Reply Term)
  | .run t => do return .value (← t.evaluate fuel)
  | .expand body parameter replacement => do
    return .value (← body.expand parameter replacement)
  | .render t => do return .text (← (pure t.render : Direct String))

section Answering
variable {e : EnvironmentId} {out : Output} {s : Store} {ctx : Context}

theorem expand_realizesExactly {v parameter replacement : Value} {b p r : Term}
    (body : w.Represents True v b) (hasParameter : w.Represents True parameter p)
    (standsFor : w.Represents True replacement r) (known : b.known) (known' : r.known)
    (models : w.Models e out s) (placed : ctx.At e) :
    (v.expand parameter replacement ctx).RealizesExactly B e out ctx.Silent w
      (fun _ => b.expand p r) s (World.Represents True) (fun u => u.known) where
  realizes fuel := by
    unfold Term.expand
    cases syntactic : b.isSyntax with
    | false => exact expand_missing body models placed syntactic
    | true =>
      have expanded := expand_substitutes (B := B) replacement hasParameter body syntactic
        (placed.standard models) placed.opened
      exact expanded.realizes_pure models fun u w' _ ⟨_, stands⟩ => stands r standsFor
  reflects fuel p ran := by
    unfold Term.expand
    cases b.isSyntax <;> exact ⟨_, rfl⟩
  locally fuel := by
    unfold Term.expand
    split
    · exact Direct.local_pure (Term.known_substitute known' b known)
    · exact Direct.local_fail _

theorem render_realizesExactly {v : Value} {t : Term} (holds : w.Represents True v t)
    (models : w.Models e out s) (placed : ctx.At e) :
    ((v.format ctx).lift : Program H String).RealizesExactly B e out ctx.Silent w
      (fun _ => pure t.render) s (fun _ => Eq) (fun _ => True) where
  realizes fuel := by
    have shown : (v.format ctx).Succeeds B (World.AddsValues True) w fun text _ => True →
      text = t.render :=
      format_renders holds (.same w) (placed.standard models) (placed.opened.above _)
    exact (Program.Succeeds.lift shown).realizes_pure models fun _ _ _ right => right trivial
  reflects fuel _ _ := ⟨_, rfl⟩
  locally fuel := Direct.local_pure trivial

/-- Whatever its values remember, a call does what it does on the terms they stand for. -/
theorem answer_realizesExactly {i : Interpreter} (unlimited : i.config.limit = none)
    {c : Call Value} {q : Call Term} (holds : c.Rel (fun v t => t.known ∧ w.Represents True v t) q)
    (models : w.Models i.environment out s) (stored : s.Known) :
    (i.answer c).RealizesExactly B i.environment out i.context.Silent w (fun fuel => q.direct fuel)
      s (fun w' => Reply.Rel (w'.Represents True)) Reply.Known := by
  have placed := context_at i unlimited
  cases holds with
  | run program =>
    exact (evaluate_realizesExactly program.2 program.1 models stored placed).map
      (fun _ _ _ => .value) fun u known => by simpa [Reply.Known, Reply.values] using known
  | expand body parameter replacement =>
    exact (expand_realizesExactly body.2 parameter.2 replacement.2 body.1 replacement.1 models
      placed).map (fun _ _ _ => .value)
      fun u known => by simpa [Reply.Known, Reply.values] using known
  | render shown =>
    refine (render_realizesExactly shown.2 models placed).map (fun _ a b same => ?_) fun u _ => by
      simp [Reply.Known, Reply.values]
    subst same
    exact .text a

end Answering
end TraitDispatch
