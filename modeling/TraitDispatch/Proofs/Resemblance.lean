import TraitDispatch.Proofs.Adequacy
import TraitDispatch.Proofs.Structure

/- Two runs side by side. Programs that do what one computation does, each in a world of its own,
   cannot be told apart: both end or neither does, their results have the same structure, and they
   write the same lines and leave the same bindings. -/
namespace TraitDispatch
variable {H : Host} {α β : Type} {B : Behaviour H} {w w' : World H}

/-- The program ends just where the computation has an outcome for some fuel, and with that. -/
structure Program.RealizesExactly (B : Behaviour H) (e : EnvironmentId) (out : Output)
    (silent : Prop) (m : Program H α) (w : World H) (d : Nat → Direct β) (s : Store)
    (rel : World H → α → β → Prop) (good : β → Prop) : Prop where
  realizes : ∀ fuel, m.Realizes B e out silent w (d fuel) s rel
  reflects : ∀ fuel, m.Reflects B fuel w (d (fuel + 1)) s
  locally : ∀ fuel, (d fuel).Local good

def World.outputOf (w : World H) (e : EnvironmentId) : Output :=
  (w.environment e).output.getD .console

def World.Adds (w : World H) (out : Output) (added : String) (after : World H) : Prop :=
  ∀ text, w.Written out text → after.Written out (text ++ added)

theorem World.Written.adds {out : Output} {text added : String} {after : World H}
    (before : w.Written out text) (behind : after.Written out (text ++ added)) :
    w.Adds out added after := by
  intro other written
  cases out with
  | capture buffer =>
    obtain rfl : text = other := Eq.trans before.symm written
    exact behind
  | console =>
    obtain rfl : text = other := Eq.trans before.symm written
    exact behind
  | discard => trivial

def Concur (rel : α → β → Prop) : Except Failure α → Except Failure β → Prop
  | .ok a, .ok b => rel a b
  | .error failure, .error other => failure.cause = other.cause
  | _, _ => False

theorem Concur.imp {R S : α → β → Prop} {r : Except Failure α} {r' : Except Failure β}
    (same : Concur R r r') (each : ∀ a b, r = .ok a → R a b → S a b) : Concur S r r' := by
  cases r with
  | error failure =>
    cases r' with
    | error other => exact same
    | ok b => exact same.elim
  | ok a =>
    cases r' with
    | error other => exact same.elim
    | ok b => exact each a b rfl same

theorem concur_of_agrees {γ : Type} {R : α → γ → Prop} {S : β → γ → Prop} {T : α → β → Prop}
    {r : Except Failure α} {r' : Except Failure β} {outcome : Except Cause γ}
    (first : Agrees R r outcome) (second : Agrees S r' outcome)
    (both : ∀ a b c, outcome = .ok c → R a c → S b c → T a b) : Concur T r r' := by
  cases outcome with
  | error cause =>
    cases r with
    | ok a => exact absurd first id
    | error failure =>
      cases r' with
      | ok b => exact absurd second id
      | error other => exact Eq.trans first (Eq.symm second)
  | ok c =>
    cases r with
    | error failure => exact absurd first id
    | ok a =>
      cases r' with
      | error other => exact absurd second id
      | ok b => exact both a b c rfl first second

structure EndAlike (rel : α → α → Prop) (e : EnvironmentId) (w : World H) (r : Except Failure α)
    (after : World H) (e' : EnvironmentId) (w' : World H) (r' : Except Failure α)
    (after' : World H) : Prop where
  results : Concur rel r r'
  output : ∃ added, w.Adds (w.outputOf e) added after ∧ w'.Adds (w'.outputOf e') added after'
  bindings : ∀ name, Option.Rel (after.Alike False False after')
    ((after.environment e).lookup name) ((after'.environment e').lookup name)

/-- Either both programs end, and do so alike, or neither does. -/
structure Program.EndsLike (B : Behaviour H) (rel : World H → World H → α → α → Prop)
    (e : EnvironmentId) (m : Program H α) (w : World H) (e' : EnvironmentId) (m' : Program H α)
    (w' : World H) : Prop where
  ends : (∃ r after, m.Ends B w r after) ↔ ∃ r after, m'.Ends B w' r after
  alike : ∀ r after r' after', m.Ends B w r after → m'.Ends B w' r' after' →
    EndAlike (rel after after') e w r after e' w' r' after'

theorem rel_join {γ : Type} {R : α → γ → Prop} {S : β → γ → Prop} {T : α → β → Prop} {x : Option α}
    {y : Option β} {z : Option γ} (first : Option.Rel R x z) (second : Option.Rel S y z)
    (both : ∀ a b c, z = some c → R a c → S b c → T a b) : Option.Rel T x y := by
  cases first with
  | none =>
    cases second
    exact .none
  | some here =>
    cases second with
    | some there => exact .some (both _ _ _ rfl here there)

theorem exists_terms {R S : Value → Term → Prop} {bindings bindings' : List (String × Value)}
    (each : List.Forall₂ (fun b b' => b.1 = b'.1 ∧ ∃ t : Term, t.known ∧ R b.2 t ∧ S b'.2 t)
      bindings bindings') :
    ∃ terms : List (String × Term),
      List.Forall₂ (fun b t => b.1 = t.1 ∧ R b.2 t.2) bindings terms ∧
      List.Forall₂ (fun b t => b.1 = t.1 ∧ S b.2 t.2) bindings' terms ∧
      ∀ t ∈ terms, t.2.known := by
  induction each with
  | nil => exact ⟨[], .nil, .nil, by simp⟩
  | @cons b b' _ _ first _ ih =>
    obtain ⟨name, t, known, here, there⟩ := first
    obtain ⟨terms, left, right, all⟩ := ih
    refine ⟨(b.1, t) :: terms, .cons ⟨rfl, here⟩ left, .cons ⟨name.symm, there⟩ right, ?_⟩
    rintro entry (_ | ⟨_, member⟩)
    · exact known
    · exact all entry member

section Mirroring
variable {e e' : EnvironmentId} {out out' : Output} {silent silent' : Prop} {s s' : Store}
  {d : Nat → Direct β} {good : β → Prop} {rel rel' : World H → α → β → Prop}
  {m m' : Program H α} {r r' : Except Failure α} {after after' : World H}

theorem World.Models.outputOf (models : w.Models e out s) : w.outputOf e = out := models.output

theorem alike_of_scope {s₁ s₂ : Store} (models : w.Models e out s₁) (models' : w'.Models e' out' s₂)
    (same : s₁.scope = s₂.scope) (known : s₁.Known) (name : String) :
    Option.Rel (w.Alike False False w') ((w.environment e).lookup name)
      ((w'.environment e').lookup name) := by
  have there := models'.scope name
  rw [← same] at there
  exact rel_join (models.scope name) there fun v v' t bound holds holds' =>
    World.Matched.alike ⟨t, known name t bound, holds, holds'⟩

namespace Program.RealizesExactly

theorem map {γ δ : Type} {f : α → γ} {g : β → δ} {next : World H → γ → δ → Prop}
    {fine : δ → Prop} (mirrors : m.RealizesExactly B e out silent w d s rel good)
    (related : ∀ w a b, rel w a b → next w (f a) (g b)) (holds : ∀ b, good b → fine (g b)) :
    (m >>= fun a => pure (f a)).RealizesExactly B e out silent w
      (fun fuel => d fuel >>= fun b => pure (g b))
      s next fine where
  realizes fuel := (mirrors.realizes fuel).bind fun a b w' _ _ models holds =>
    realizes_done models (related w' a b holds)
  reflects fuel := (mirrors.reflects fuel).bind_total fun _ _ => ⟨_, rfl⟩
  locally fuel := (mirrors.locally fuel).bind fun b held => Direct.local_pure (holds b held)

theorem ended (mirrors : m.RealizesExactly B e out silent w d s rel good) (stored : s.Known)
    (ends : m.Ends B w r after) :
    ∃ fuel outcome s₁, d fuel s = some (outcome, s₁) ∧ w.Reaches e silent r after ∧
      after.Models e out s₁ ∧ Agrees (rel after) r outcome ∧ s₁.Known ∧
      ∀ a, outcome = .ok a → good a := by
  obtain ⟨fuel, ran⟩ := ends
  obtain ⟨⟨outcome, s₁⟩, had⟩ := mirrors.reflects fuel _ ran
  obtain ⟨r', after', ends, reaches, models, agrees⟩ := mirrors.realizes _ outcome s₁ had
  obtain ⟨rfl, rfl⟩ := ends_unique ends ⟨fuel, ran⟩
  obtain ⟨holds, stored', -⟩ := mirrors.locally _ s outcome s₁ stored had
  exact ⟨_, outcome, s₁, had, reaches, models, agrees, stored', holds⟩

theorem counterpart (first : m.RealizesExactly B e out silent w d s rel good)
    (second : m'.RealizesExactly B e' out' silent' w' d s' rel' good) (stored : s.Known)
    (same : s.scope = s'.scope) (ends : m.Ends B w r after) :
    ∃ outcome s₁ added r' after', m'.Ends B w' r' after' ∧
      Agrees (rel after) r outcome ∧ Agrees (rel' after') r' outcome ∧
      (∀ a, outcome = .ok a → good a) ∧ s₁.Known ∧
      after.Models e out s₁ ∧ s₁.output = s.output ++ added ∧
      after'.Models e' out' { s₁ with output := s'.output ++ added } := by
  obtain ⟨fuel, outcome, s₁, had, -, models, agrees, stored₁, holds⟩ := first.ended stored ends
  obtain ⟨-, -, added, adds, again⟩ := first.locally fuel s outcome s₁ stored had
  obtain ⟨scope, before⟩ := s'
  obtain rfl : s.scope = scope := same
  obtain ⟨r', after', ends', -, models', agrees'⟩ := second.realizes fuel _ _ (again before)
  exact ⟨outcome, s₁, added, r', after', ends', agrees, agrees', holds, stored₁, models, adds,
    models'⟩

theorem endsLike {R : World H → World H → α → α → Prop}
    (first : m.RealizesExactly B e out silent w d s rel good)
    (second : m'.RealizesExactly B e' out' silent' w' d s' rel' good) (models : w.Models e out s)
    (models' : w'.Models e' out' s') (stored : s.Known) (same : s.scope = s'.scope)
    (related : ∀ after after' a a' b, good b → rel after a b → rel' after' a' b →
      R after after' a a') : m.EndsLike B R e w e' m' w' where
  ends := by
    have stored' : s'.Known := by
      intro name t found
      exact stored name t (by rwa [same])
    constructor
    · rintro ⟨r, after, ends⟩
      obtain ⟨-, -, -, r', after', ends', -⟩ := first.counterpart second stored same ends
      exact ⟨r', after', ends'⟩
    · rintro ⟨r, after, ends⟩
      obtain ⟨-, -, -, r', after', ends', -⟩ := second.counterpart first stored' same.symm ends
      exact ⟨r', after', ends'⟩
  alike := by
    intro r after r' after' ends ends'
    obtain ⟨outcome, s₁, added, r'', after'', ends'', agrees, agrees', holds, stored₁, models₁,
      adds, models₂⟩ := first.counterpart second stored same ends
    obtain ⟨rfl, rfl⟩ := ends_unique ends' ends''
    refine ⟨concur_of_agrees agrees agrees' fun a a' b is => related _ _ a a' b (holds b is),
      ⟨added, ?_, ?_⟩, alike_of_scope models₁ models₂ rfl stored₁⟩
    · rw [models.outputOf]
      have written := models₁.captured
      rw [adds] at written
      exact models.captured.adds written
    · rw [models'.outputOf]
      exact models'.captured.adds models₂.captured

end Program.RealizesExactly

/-- Evaluation by dispatch realizes direct evaluation. -/
theorem evaluate_realizesExactly {v : Value} {t : Term} {ctx : Context}
    (holds : w.Represents True v t)
    (known : t.known) (models : w.Models e out s) (stored : s.Known) (placed : ctx.At e) :
    (v.evaluate ctx).RealizesExactly B e out ctx.Silent w (fun fuel => t.evaluate fuel) s
      (World.Represents True) (fun u => u.known) where
  realizes fuel := evaluate_simulates fuel holds models placed
  reflects fuel := evaluate_adequate fuel holds known models stored placed
  locally fuel := Term.evaluate_local fuel known

end Mirroring
end TraitDispatch
