import TraitDispatch.Proofs.Oversight

/- What built-in programs fail for. Nothing is asked for while it is being derived, not even for a
   label that is shown, and where an answer is lacking that is what the program was written to ask
   for. -/
namespace TraitDispatch
variable {H : Host} {B : Behaviour H} {w : World H} {g : Setting H}

theorem Request.Due.idle {v : Value} {key : KeyId} {ctx : Context}
    (due : (Request.resolve v key ctx).Due g w) : ctx.stack.isActive v key = false := by
  cases due with
  | resolve fences placed bears permits =>
    rw [← Bool.not_eq_true, CallStack.isActive_iff]
    exact permits.idle

theorem Failure.Spent.acyclic {f : Failure} (spent : f.Spent) (label : String) :
    f.cause ≠ .cyclicDerivation label := by
  obtain ⟨limit, cause⟩ := spent
  rw [cause]
  nofun

theorem Moment.Refuses.cause {f : Failure} {n : Moment H} (refuses : n.Refuses B f) :
    ∃ label, f.cause = .missingTrait label := by
  cases refuses with
  | target _ _ _ _ cause _ | body _ _ _ cause _ => exact ⟨_, cause⟩

theorem Call.Lacks.cause {f : Failure} {c : Call Value} (lacks : c.Lacks w f) :
    ∃ label, f.cause = .missingTrait label := by
  cases lacks with
  | evaluator _ _ _ cause | expander _ _ _ cause => exact ⟨_, cause⟩

theorem Failure.Earned.refused_of_missing {f : Failure} {seen : Moment H → Prop} {label : String}
    (earned : f.Earned B seen) (missing : f.cause = .missingTrait label) :
    ∃ n, seen n ∧ n.Refuses B f := by
  cases earned with
  | spent spent =>
    obtain ⟨limit, cause⟩ := spent
    cases missing.symm.trans cause
  | unbound cause | custom cause => cases missing.symm.trans cause
  | refused put refuses => exact ⟨_, put, refuses⟩

theorem Failure.Earned.acyclic {f : Failure} {seen : Moment H → Prop} (earned : f.Earned B seen)
    (label : String) : f.cause ≠ .cyclicDerivation label := by
  intro cyclic
  cases earned with
  | spent spent => exact spent.acyclic label cyclic
  | unbound cause | custom cause => cases cyclic.symm.trans cause
  | refused put refuses =>
    obtain ⟨other, cause⟩ := refuses.cause
    cases cyclic.symm.trans cause

namespace Session
variable {hand : List Value} {served : List Interpreter} {i : Interpreter} {c : Call Value}

/-- No request of a call comes to ask for what is being derived, and none fails for it. An answer is
    lacking only where the value of the call itself is no syntax, where the target of an assignment
    is no name, or where the body of a macro that is called is no syntax. -/
theorem failures_earned (session : Session B w hand served) (member : i ∈ served)
    (held : ∀ v ∈ c.values, v ∈ hand) (fuel : Nat) :
    (∀ v key ctx mid, ⟨.resolve v key ctx, mid⟩ ∈ (i.answer c).run.history B fuel w →
      ctx.stack.isActive v key = false) ∧
    ∀ f after, (i.answer c).perform (respond B fuel) w = some (.error f, after) →
      (∀ label, f.cause ≠ .cyclicDerivation label) ∧
      ∀ label, f.cause = .missingTrait label →
        c.Lacks w f ∨ ∃ n ∈ (i.answer c).run.history B fuel w, n.Refuses B f := by
  obtain ⟨due, ends⟩ := session.observed member held fuel
  refine ⟨fun v key ctx mid put => (due _ put).idle, fun f after ran => ?_⟩
  obtain ⟨-, excused⟩ := (ends _ after ran).fails f rfl
  rcases excused with spent | earned | lacks
  · refine ⟨spent.acyclic, fun label missing => ?_⟩
    obtain ⟨limit, cause⟩ := spent
    cases missing.symm.trans cause
  · exact ⟨earned.acyclic, fun label missing => .inr (earned.refused_of_missing missing)⟩
  · refine ⟨fun label cyclic => ?_, fun _ _ => .inl lacks⟩
    obtain ⟨other, cause⟩ := lacks.cause
    cases cyclic.symm.trans cause

def numberedWorld : World Host.unit :=
  { World.initial () with
    cells := #[⟨.single Key.number ⟨0⟩ none, []⟩, ⟨.single Key.name assignmentMark none, []⟩,
      ⟨.single Key.list ⟨[⟨0⟩, ⟨1⟩, ⟨0⟩]⟩ none, []⟩] }

/-- The target is found to be no name, and no other reason remains. -/
theorem number_refused :
    ∃ (w : World Host.unit) (i : Interpreter) (f : Failure) (after : World Host.unit),
      Session inert w [⟨2⟩] [i] ∧ (i.answer (.run ⟨2⟩)).perform (respond inert 9) w =
        some (.error f, after) ∧ f.cause = .missingTrait "Assign" ∧
      ∃ n ∈ (i.answer (.run ⟨2⟩)).run.history inert 9 w, n.Refuses inert f := by
  have program : numberedWorld.Spells True ⟨2⟩
      (.list [.number ⟨0⟩ none, .name assignmentMark none, .number ⟨0⟩ none] none) := .of_read 4 rfl
  have start : Session inert numberedWorld [⟨2⟩] [] := .start fun v member =>
    ⟨_, rfl, List.mem_singleton.mp member ▸ program⟩
  obtain ⟨ready, f, after, built, ran, missing⟩ : ∃ ready f after,
      (Interpreter.build ⟨some 64, true⟩ none []).Ends inert numberedWorld
        (.ok ⟨⟨0⟩, ⟨some 64, true⟩⟩) ready ∧
      (Interpreter.answer ⟨⟨0⟩, ⟨some 64, true⟩⟩ (.run ⟨2⟩)).perform (respond inert 9) ready =
        some (.error f, after) ∧ f.cause = .missingTrait "Assign" :=
    ⟨_, _, _, ⟨9, rfl⟩, rfl, rfl⟩
  have session := start.interpreter (by simp) built
  have earned := session.failures_earned (c := .run ⟨2⟩) (List.mem_singleton_self _)
    (by simp [Call.values]) 9
  refine ⟨ready, _, f, after, session, ran, missing, ?_⟩
  refine ((earned.2 f after ran).2 _ missing).resolve_left fun lacks => ?_
  cases lacks with
  | evaluator _ _ _ cause =>
    exact absurd (missing.symm.trans cause) (by decide)

end Session
end TraitDispatch
