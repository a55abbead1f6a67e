import TraitDispatch.Proofs.Oversight

/- What calls bind. A run binds no names but those that are written in its program or in values that
   were bound before, and none unless the mark of assignments is written there. Nothing is ever
   unbound. -/
namespace TraitDispatch
variable {H : Host} {B : Behaviour H} {w : World H} {g : Setting H}

theorem Request.Due.binds {e : EnvironmentId} {name : String} {v : Value}
    (due : (Request.access (.define e name v)).Due g w) :
    e = g.environment ∧ g.named ⟨name⟩ ∧ g.named assignmentMark := by
  cases due with
  | access binds => exact binds

/-- A name is bound as before, or it is one of the names at hand and so is the mark. -/
theorem World.Proceeds.bound {N : Name → Prop} {e : EnvironmentId} {still : Prop} {after : World H}
    (proceeds : w.Proceeds N e still after) (other : EnvironmentId) (name : String) :
    (after.environment other).lookup name = (w.environment other).lookup name ∨
      other = e ∧ N ⟨name⟩ ∧ N assignmentMark ∧
        ((after.environment other).lookup name).isSome := by
  by_cases here : other = e
  · subst here
    exact (proceeds.bindings name).imp_right fun new => ⟨rfl, new⟩
  · rw [proceeds.elsewhere other here]
    exact .inl rfl

namespace Session
variable {hand : List Value} {served : List Interpreter} {i : Interpreter} {c : Call Value}

/-- Whether a call ends or not, only names are bound in its course that are written in its values or
    in values that were bound before it, and only if the mark is written there as well. However it
    ends, what was bound still is. Expanding and rendering leave environments and output as they
    are. -/
theorem bindings_scoped (session : Session B w hand served) (member : i ∈ served)
    (held : ∀ v ∈ c.values, v ∈ hand) (fuel : Nat) :
    (∀ e name v mid, ⟨.access (.define e name v), mid⟩ ∈ (i.answer c).run.history B fuel w →
      e = i.environment ∧ w.Mentions e c.values ⟨name⟩ ∧ w.Mentions e c.values assignmentMark) ∧
    ∀ r after, (i.answer c).perform (respond B fuel) w = some (r, after) →
      (∀ e name, ((w.environment e).lookup name).isSome →
        ((after.environment e).lookup name).isSome) ∧
      (∀ e name, (after.environment e).lookup name ≠ (w.environment e).lookup name →
        e = i.environment ∧ w.Mentions e c.values ⟨name⟩ ∧
          w.Mentions e c.values assignmentMark) ∧
      ((∀ program, c ≠ .run program) → w.KeepsSurroundings after) := by
  obtain ⟨due, ends⟩ := session.observed member held fuel
  refine ⟨fun e name v mid put => ?_, fun r after ran => ?_⟩
  · obtain ⟨rfl, named, marked⟩ := (due _ put).binds
    exact ⟨rfl, named, marked⟩
  · have proceeds := (ends r after ran).proceeds
    refine ⟨fun e name bound => ?_, fun e name changed => ?_, proceeds.rests⟩
    · rcases proceeds.bound e name with same | ⟨-, -, -, new⟩
      · rwa [same]
      · exact new
    · obtain ⟨rfl, named, marked, -⟩ := (proceeds.bound e name).resolve_left changed
      exact ⟨rfl, named, marked⟩

def assigningWorld : World Host.unit :=
  { World.initial () with
    cells := #[⟨.single Key.name ⟨"x"⟩ none, []⟩, ⟨.single Key.name assignmentMark none, []⟩,
      ⟨.single Key.number ⟨0⟩ none, []⟩, ⟨.single Key.list ⟨[⟨0⟩, ⟨1⟩, ⟨2⟩]⟩ none, []⟩] }

/-- The name that is bound is written in the list. -/
theorem assigned_mentioned :
    ∃ (w after : World Host.unit) (i : Interpreter) (r : Except Failure (Reply Value)),
      Session inert w [⟨3⟩] [i] ∧
      (i.answer (.run ⟨3⟩)).perform (respond inert 9) w = some (r, after) ∧
      (w.environment i.environment).lookup "x" = none ∧
      (after.environment i.environment).lookup "x" = some ⟨2⟩ ∧
      w.Mentions i.environment [⟨3⟩] ⟨"x"⟩ := by
  have program : assigningWorld.Spells True ⟨3⟩
      (.list [.name ⟨"x"⟩ none, .name assignmentMark none, .number ⟨0⟩ none] none) := .of_read 4 rfl
  have start : Session inert assigningWorld [⟨3⟩] [] := .start fun v member =>
    ⟨_, rfl, List.mem_singleton.mp member ▸ program⟩
  obtain ⟨w, after, r, built, ran, free, bound⟩ : ∃ w after r,
      (Interpreter.build ⟨some 64, true⟩ none []).Ends inert assigningWorld
        (.ok ⟨⟨0⟩, ⟨some 64, true⟩⟩) w ∧
      (Interpreter.answer ⟨⟨0⟩, ⟨some 64, true⟩⟩ (.run ⟨3⟩)).perform (respond inert 9) w =
        some (r, after) ∧ (w.environment ⟨0⟩).lookup "x" = none ∧
      (after.environment ⟨0⟩).lookup "x" = some ⟨2⟩ := ⟨_, _, _, ⟨9, rfl⟩, rfl, rfl, rfl⟩
  have session := start.interpreter (by simp) built
  have among := session.bindings_scoped (c := .run ⟨3⟩) (List.mem_singleton_self _)
    (by simp [Call.values]) 9
  have changed : (after.environment ⟨0⟩).lookup "x" ≠ (w.environment ⟨0⟩).lookup "x" := by
    rw [free, bound]
    exact Option.some_ne_none _
  exact ⟨w, after, _, r, session, ran, free, bound, ((among.2 r after ran).2.1 _ _ changed).2.1⟩

end Session
end TraitDispatch
