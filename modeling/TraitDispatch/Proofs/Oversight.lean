import TraitDispatch.Proofs.Compliance
import TraitDispatch.Proofs.Session

/- Calls under the contract. A call in a session starts with nothing entered, and all that it is
   about is named in its values or in those that are bound. So every request on its way is due, and
   it ends as is agreed. -/
namespace TraitDispatch
variable {H : Host} {B : Behaviour H} {w after : World H} {v : Value} {g : Setting H}
  {i : Interpreter} {c : Call Value}

/-- The value that is to be evaluated or expanded is no syntax. -/
inductive Call.Lacks (w : World H) (f : Failure) : Call Value → Prop where
  | evaluator {program : Value} {t : Term} (spells : w.Spells False program t) (known : t.known)
      (other : t.isSyntax = false) (cause : f.cause = .missingTrait Key.evaluate.label) :
      Lacks w f (.run program)
  | expander {body parameter replacement : Value} {t : Term} (spells : w.Spells False body t)
      (known : t.known) (other : t.isSyntax = false)
      (cause : f.cause = .missingTrait Key.expand.label) :
      Lacks w f (.expand body parameter replacement)

namespace World

/-- The name occurs in one of the values, or in one that is bound. -/
def Mentions (w : World H) (e : EnvironmentId) (values : List Value) (n : Name) : Prop :=
  ∃ v t, (v ∈ values ∨ ∃ name, (w.environment e).lookup name = some v) ∧ t.known ∧
    w.Spells False v t ∧ n ∈ t.names

theorem Holds.mentioned {e : EnvironmentId} {values : List Value} (holds : w.Holds v)
    (here : v ∈ values ∨ ∃ name, (w.environment e).lookup name = some v) :
    w.Within (w.Mentions e values) v := by
  obtain ⟨t, bears⟩ := holds
  exact ⟨t, bears, fun n member => ⟨v, t, here, bears.known, bears.spells, member⟩⟩

theorem Houses.fences {e : EnvironmentId} (housed : w.Houses e) (values : List Value) :
    w.Fences (w.Mentions e values) e :=
  ⟨housed.standard, housed.made, fun name v found =>
    (housed.bound name v found).mentioned (.inr ⟨name, found⟩)⟩

theorem Within.no_syntax {N : Name → Prop} (within : w.Within N v)
    (none : (w.node v).answer? Key.evaluate = none ∨ (w.node v).answer? Key.expand = none) :
    ∃ t : Term, w.Spells False v t ∧ t.known ∧ t.isSyntax = false := by
  obtain ⟨t, bears, -⟩ := within
  refine ⟨t, bears.spells, bears.known, ?_⟩
  cases bears with
  | intro _ _ _ layer _ =>
    rcases none with none | none
    · rw [← evaluator_of_layer layer, none]
      rfl
    · rw [← expander_of_layer layer, none]
      rfl

end World

namespace Interpreter

def observed (B : Behaviour H) (i : Interpreter) (c : Call Value) (w : World H) (fuel : Nat) :
    Setting H where
  behaviour := B
  environment := i.environment
  limit := i.config.limit
  named := w.Mentions i.environment c.values
  seen n := n ∈ (i.answer c).run.history B fuel w

theorem context_ready (environment : i.environment = g.environment)
    (limit : i.config.limit = g.limit) : i.context.Ready g := by
  obtain ⟨idle, nesting, same⟩ := i.context_stack
  have empty : i.context.stack.frames = [] ∧ i.context.stack.queued = none := by
    rw [context]
    cases i.config.record <;> exact ⟨rfl, rfl⟩
  refine ⟨⟨environment, same.trans limit, empty.2, fun _ => ?_, fun bound _ => ?_⟩, idle⟩
  · rw [empty.1, nesting, List.length_nil]
  · omega

theorem answer_endsFairly {fair : Failure → Prop} (fences : w.Fences g.named g.environment)
    (ready : i.context.Ready g) (covers : Failure.Covers g fair)
    (missed : ∀ f, c.Lacks w f → fair f) (each : ∀ v ∈ c.values, w.Within g.named v) :
    (i.answer c).EndsFairly g (∀ program, c ≠ .run program) i.context.stack fair
      w fun _ _ => True := by
  cases c with
  | run program =>
    have within := each program (by simp [Call.values])
    have ran := Value.evaluate_endsFairly fences ready covers within fun none f cause => by
      obtain ⟨t, spells, known, other⟩ := within.no_syntax (.inl none)
      exact missed f (.evaluator spells known other cause)
    exact (ran.weaken (fun other => other program rfl) (fun _ => id) fun _ _ _ _ => trivial).bind
      fun _ _ proceeds _ => .done proceeds.fences trivial
  | expand body parameter replacement =>
    have within := each body (by simp [Call.values])
    have expanded := Value.expand_endsFairly fences ready covers within
      (each parameter (by simp [Call.values])) (each replacement (by simp [Call.values]))
      fun none f cause => by
        obtain ⟨t, spells, known, other⟩ := within.no_syntax (.inr none)
        exact missed f (.expander spells known other cause)
    exact (expanded.weaken (fun _ => trivial) (fun _ => id) fun _ _ _ _ => trivial).bind
      fun _ _ proceeds _ => .done proceeds.fences trivial
  | render shown =>
    have rendered : (shown.format i.context).lift.EndsFairly g True i.context.stack fair w _ :=
      format_endsFairly fences ready (each shown (by simp [Call.values]))
    exact (rendered.weaken (fun _ => trivial) (fun _ => id) fun _ _ _ _ => trivial).bind
      fun _ _ proceeds _ => .done proceeds.fences trivial

end Interpreter

theorem Session.observed {hand : List Value} {served : List Interpreter}
    (session : Session B w hand served) (member : i ∈ served) (held : ∀ v ∈ c.values, v ∈ hand)
    (fuel : Nat) :
    (∀ n ∈ (i.answer c).run.history B fuel w, n.request.Due (i.observed B c w fuel) n.world) ∧
      ∀ r after, (i.answer c).perform (respond B fuel) w = some (r, after) →
        Outcome (i.observed B c w fuel) (∀ program, c ≠ .run program) i.context.stack
          (fun f => (i.observed B c w fuel).Fair f ∨ c.Lacks w f) w (fun _ _ => True) r after := by
  have safe := session.safe
  have fares : (i.answer c).EndsFairly (i.observed B c w fuel) (∀ program, c ≠ .run program)
      i.context.stack (fun f => (i.observed B c w fuel).Fair f ∨ c.Lacks w f) w fun _ _ => True :=
    Interpreter.answer_endsFairly ((safe.housed i member).fences c.values)
      (Interpreter.context_ready rfl rfl) (fun _ => .inl) (fun _ => .inr)
      fun v within => (safe.held v (held v within)).mentioned (.inl within)
  exact (Setting.kept _).sound fares fuel fun n put => put

end TraitDispatch
