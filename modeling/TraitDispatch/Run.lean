import TraitDispatch.Program

/- Running a program: its requests are put to a responder one after the other, and the world
   goes from each to the next. A run that the responder gives up has no result. -/
namespace TraitDispatch
variable {H : Host} {α β : Type}

/-- Answers requests from a world and gives the world afterwards, or gives up. -/
abbrev Responder (H : Host) := (r : Request H) → World H → Option (r.Answer × World H)

def Act.run (respond : Responder H) : Act H α → World H → Option (α × World H)
  | .done result, w => some (result, w)
  | .ask request next, w =>
    match respond request w with
    | some (answer, w) => (next answer).run respond w
    | none => none

def Program.perform (respond : Responder H) (m : Program H α) (w : World H) :
    Option (Except Failure α × World H) :=
  Act.run respond m.run w

namespace Act

@[simp]
theorem run_pure (respond : Responder H) (a : α) (w : World H) :
    (pure a : Act H α).run respond w = some (a, w) := rfl

@[simp]
theorem run_request (respond : Responder H) (r : Request H) (w : World H) :
    (request r).run respond w = respond r w := by
  simp only [request, run]
  cases respond r w <;> rfl

@[simp]
theorem run_bind (respond : Responder H) (m : Act H α) (f : α → Act H β) (w : World H) :
    (m >>= f).run respond w = (m.run respond w).bind fun p => (f p.1).run respond p.2 := by
  change (m.bind f).run respond w = _
  induction m generalizing w with
  | done a => rfl
  | ask r next ih =>
    simp only [bind, run]
    cases respond r w with
    | none => rfl
    | some p => exact ih p.1 p.2

theorem run_ask_eq_some_iff {respond : Responder H} {r : Request H} {next : r.Answer → Act H α}
    {w : World H} {p : α × World H} :
    (ask r next).run respond w = some p ↔
      ∃ q, respond r w = some q ∧ (next q.1).run respond q.2 = some p := by
  rw [run]
  cases respond r w <;> simp

theorem run_mono {weak strong : Responder H}
    (keeps : ∀ r w p, weak r w = some p → strong r w = some p) (m : Act H α) (w : World H)
    (p : α × World H) (ran : m.run weak w = some p) : m.run strong w = some p := by
  induction m generalizing w with
  | done a => exact ran
  | ask r next ih =>
    obtain ⟨q, first, rest⟩ := run_ask_eq_some_iff.mp ran
    exact run_ask_eq_some_iff.mpr ⟨q, keeps r w q first, ih q.1 q.2 rest⟩

end Act

namespace Program

@[simp]
theorem perform_pure (respond : Responder H) (a : α) (w : World H) :
    (pure a : Program H α).perform respond w = some (.ok a, w) := rfl

@[simp]
theorem perform_bind (respond : Responder H) (m : Program H α) (f : α → Program H β)
    (w : World H) :
    (m >>= f).perform respond w =
      (m.perform respond w).bind fun p =>
        match p.1 with
        | .ok a => (f a).perform respond p.2
        | .error failure => some (.error failure, p.2) := by
  simp only [perform, ExceptT.run_bind, Act.run_bind]
  congr
  funext p
  cases p.1 <;> rfl

@[simp]
theorem perform_lift (respond : Responder H) (m : Act H α) (w : World H) :
    m.lift.perform respond w = (m.run respond w).map fun p => (.ok p.1, p.2) := by
  simp only [perform, Act.lift, ExceptT.run_lift, map_eq_pure_bind, Act.run_bind, Act.run_pure]
  cases m.run respond w <;> rfl

@[simp]
theorem perform_access (respond : Responder H) (a : Access H) (w : World H) :
    (access a).perform respond w = (respond (.access a) w).map fun p => (.ok p.1, p.2) := by
  rw [access, perform_lift]
  exact congrArg _ (Act.run_request respond (.access a) w)

theorem perform_mono {weak strong : Responder H}
    (keeps : ∀ r w p, weak r w = some p → strong r w = some p) (m : Program H α) (w : World H)
    (p : Except Failure α × World H) (ran : m.perform weak w = some p) :
    m.perform strong w = some p :=
  Act.run_mono keeps m.run w p ran

end Program
end TraitDispatch
