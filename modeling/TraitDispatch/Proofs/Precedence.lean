import TraitDispatch.Proofs.History

/- The order of dispatch. A value that has an instance for a key answers with the newest one; only
   without any are rules asked, and these are the rules that the environment had for the key when
   the request was put, in the order of their registration. What the programs of instances and
   rules do meanwhile, whether they fail, write state, register rules or put requests of their own,
   changes neither the order nor the rules that are asked. -/
namespace TraitDispatch
variable {H : Host} {α β : Type} {B : Behaviour H} {fuel : Nat} {v : Value} {ctx : Context}
  {w mid : World H}

theorem history_request (r : Request H) :
    (Act.request r).history B fuel w = ⟨r, w⟩ :: nested B fuel r w := by
  change (Act.ask r .done).history B fuel w = _
  rw [history_ask]
  cases respond B fuel r w with
  | none => exact List.append_nil _
  | some p => exact List.append_nil _

theorem history_bind_unfinished {m : Act H α} {f : α → Act H β}
    (given_up : m.run (respond B fuel) w = none) :
    (m >>= f).history B fuel w = m.history B fuel w := by
  change (m.bind f).history B fuel w = _
  induction m generalizing w with
  | done a => cases given_up
  | ask r next ih =>
    simp only [Act.run] at given_up
    rw [Act.bind, history_ask, history_ask]
    cases answered : respond B fuel r w with
    | none => rfl
    | some p =>
      rw [answered] at given_up
      simp only [ih p.1 given_up]

namespace Program

theorem history_bind_ok {m : Program H α} {f : α → Program H β} {a : α}
    (ran : m.perform (respond B fuel) w = some (.ok a, mid)) :
    (m >>= f).run.history B fuel w = m.run.history B fuel w ++ (f a).run.history B fuel mid := by
  rw [ExceptT.run_bind]
  exact history_bind ran

theorem history_bind_error {m : Program H α} {f : α → Program H β} {failure : Failure}
    (ran : m.perform (respond B fuel) w = some (.error failure, mid)) :
    (m >>= f).run.history B fuel w = m.run.history B fuel w := by
  rw [ExceptT.run_bind, history_bind ran]
  exact List.append_nil _

theorem history_bind_none {m : Program H α} {f : α → Program H β}
    (given_up : m.perform (respond B fuel) w = none) :
    (m >>= f).run.history B fuel w = m.run.history B fuel w := by
  rw [ExceptT.run_bind]
  exact history_bind_unfinished given_up

theorem mem_history_bind {m : Program H α} {f : α → Program H β} {n : Moment H}
    (member : n ∈ m.run.history B fuel w) : n ∈ (m >>= f).run.history B fuel w := by
  cases ran : m.perform (respond B fuel) w with
  | none => exact (history_bind_none ran).symm ▸ member
  | some p =>
    obtain ⟨r, mid⟩ := p
    cases r with
    | error failure => exact (history_bind_error ran).symm ▸ member
    | ok a => exact (history_bind_ok ran).symm ▸ List.mem_append_left _ member

theorem history_map (m : Program H α) (f : α → β) :
    (f <$> m).run.history B fuel w = m.run.history B fuel w := by
  rw [map_eq_pure_bind]
  cases ran : m.perform (respond B fuel) w with
  | none => exact history_bind_none ran
  | some p =>
    obtain ⟨r, mid⟩ := p
    cases r with
    | error failure => exact history_bind_error ran
    | ok a =>
      rw [history_bind_ok ran]
      exact List.append_nil _

theorem perform_map (respond : Responder H) (m : Program H α) (f : α → β) (w : World H) :
    (f <$> m).perform respond w = (m.perform respond w).map fun p => (p.1.map f, p.2) := by
  rw [map_eq_pure_bind, perform_bind]
  rcases m.perform respond w with _ | ⟨_ | _, _⟩ <;> rfl

end Program

@[reducible]
def Rule.kind : Rule H → Kind
  | .standard rule => rule.kind
  | .own kind _ _ => kind

def Rule.inference (B : Behaviour H) : (rule : Rule H) → Inference H rule.kind
  | .standard rule => rule.inference
  | .own kind _ code => B.infer kind code

def Rule.check (B : Behaviour H) (rule : Rule H) (v : Value) (ctx : Context) :
    Program H (Option (rule.inference B).Source) :=
  (rule.inference B).validation.check v ctx

def Rule.derive (B : Behaviour H) (rule : Rule H) (source : (rule.inference B).Source)
    (ctx : Context) : Program H (Option (Payload H)) :=
  (some ⟨rule.kind, ·⟩) <$> (rule.inference B).derive source ctx

/-- How a scan of rules goes: its outcome, if it comes to one, and the requests put in its course.
    Each validation runs once, in the world that the one before it left. The first rule that does
    not reject the value ends the scan, and the rules behind it are not run. -/
inductive Scan (B : Behaviour H) (fuel : Nat) (v : Value) (ctx : Context) :
    List (Rule H) → World H → Option (Except Failure (Option (Payload H)) × World H) →
      List (Moment H) → Prop
  | exhausted (w : World H) : Scan B fuel v ctx [] w (some (.ok none, w)) []
  | rejected {rule : Rule H} {rest : List (Rule H)} {w mid : World H}
      {outcome : Option (Except Failure (Option (Payload H)) × World H)}
      {moments : List (Moment H)}
      (rejects : (rule.check B v ctx).perform (respond B fuel) w = some (.ok none, mid))
      (scan : Scan B fuel v ctx rest mid outcome moments) :
      Scan B fuel v ctx (rule :: rest) w outcome
        ((rule.check B v ctx).run.history B fuel w ++ moments)
  | accepted {rule : Rule H} {untried : List (Rule H)} {w mid : World H}
      {source : (rule.inference B).Source}
      (accepts : (rule.check B v ctx).perform (respond B fuel) w = some (.ok (some source), mid)) :
      Scan B fuel v ctx (rule :: untried) w
        ((rule.derive B source ctx).perform (respond B fuel) mid)
        ((rule.check B v ctx).run.history B fuel w ++
          ((rule.inference B).derive source ctx).run.history B fuel mid)
  | failed {rule : Rule H} {untried : List (Rule H)} {w mid : World H} {failure : Failure}
      (fails : (rule.check B v ctx).perform (respond B fuel) w = some (.error failure, mid)) :
      Scan B fuel v ctx (rule :: untried) w (some (.error failure, mid))
        ((rule.check B v ctx).run.history B fuel w)
  | unfinished {rule : Rule H} {untried : List (Rule H)} {w : World H}
      (given_up : (rule.check B v ctx).perform (respond B fuel) w = none) :
      Scan B fuel v ctx (rule :: untried) w none ((rule.check B v ctx).run.history B fuel w)

/-- How a value comes to an answer that it has not given before: its outcome, if it comes to one,
    and the requests put meanwhile. -/
inductive Dispatch (B : Behaviour H) (fuel : Nat) (v : Value) (key : KeyId) (ctx : Context)
    (w : World H) : Option (Except Failure (Option (Payload H)) × World H) →
      List (Moment H) → Prop
  /-- The newest instance for the key is all that is run. -/
  | own {newer older : List (Instance H)} {i : Instance H}
      (instances : (w.node v).instances = newer ++ i :: older)
      (hidden : ∀ j ∈ newer, j.key.id.index ≠ key.index) (same : i.key.id.index = key.index) :
      Dispatch B fuel v key ctx w ((some <$> i.realize B v ctx).perform (respond B fuel) w)
        ((i.realize B v ctx).run.history B fuel w)
  /-- Without one, the rules that the environment has for the key at this moment are scanned. -/
  | rules {outcome : Option (Except Failure (Option (Payload H)) × World H)}
      {moments : List (Moment H)}
      (lacking : ∀ i ∈ (w.node v).instances, i.key.id.index ≠ key.index)
      (scan : Scan B fuel v ctx
        ((w.environment ctx.environment).rules.filter (·.key.index = key.index)) w
          outcome moments) :
      Dispatch B fuel v key ctx w outcome moments

theorem Rule.apply_eq (rule : Rule H) (v : Value) (ctx : Context) :
    rule.apply B v ctx = (rule.inference B).apply v ctx := by
  cases rule <;> rfl

theorem applyFirst_cons (rule : Rule H) (rest : List (Rule H)) (v : Value) (ctx : Context) :
    applyFirst B v ctx (rule :: rest) =
      rule.check B v ctx >>= fun
        | some source => rule.derive B source ctx
        | none => applyFirst B v ctx rest := by
  rw [applyFirst, Rule.apply_eq, Inference.apply, bind_assoc]
  change (rule.check B v ctx >>= _) = _
  congr
  funext source
  cases source with
  | none => rw [pure_bind]
  | some source =>
    simp only [Rule.derive, map_eq_pure_bind, bind_assoc, pure_bind]

namespace Scan
variable {rules : List (Rule H)} {outcome : Option (Except Failure (Option (Payload H)) × World H)}
  {moments : List (Moment H)}

theorem total (fuel : Nat) (v : Value) (ctx : Context) (rules : List (Rule H)) (w : World H) :
    ∃ outcome moments, Scan B fuel v ctx rules w outcome moments := by
  induction rules generalizing w with
  | nil => exact ⟨_, _, .exhausted w⟩
  | cons rule rest ih =>
    cases checked : (rule.check B v ctx).perform (respond B fuel) w with
    | none => exact ⟨_, _, .unfinished checked⟩
    | some p =>
      obtain ⟨r, mid⟩ := p
      match r with
      | .error failure => exact ⟨_, _, .failed checked⟩
      | .ok (some source) => exact ⟨_, _, .accepted checked⟩
      | .ok none =>
        obtain ⟨outcome, moments, scan⟩ := ih mid
        exact ⟨_, _, .rejected checked scan⟩

theorem perform_eq (scan : Scan B fuel v ctx rules w outcome moments) :
    (applyFirst B v ctx rules).perform (respond B fuel) w = outcome := by
  induction scan with
  | exhausted w => rfl
  | rejected rejects _ ih =>
    rw [applyFirst_cons, Program.perform_bind, rejects]
    exact ih
  | accepted accepts =>
    rw [applyFirst_cons, Program.perform_bind, accepts]
    rfl
  | failed fails =>
    rw [applyFirst_cons, Program.perform_bind, fails]
    rfl
  | unfinished given_up =>
    rw [applyFirst_cons, Program.perform_bind, given_up]
    rfl

theorem history_eq (scan : Scan B fuel v ctx rules w outcome moments) :
    (applyFirst B v ctx rules).run.history B fuel w = moments := by
  induction scan with
  | exhausted w => rfl
  | rejected rejects _ ih =>
    rw [applyFirst_cons, Program.history_bind_ok rejects]
    exact congrArg _ ih
  | accepted accepts =>
    rw [applyFirst_cons, Program.history_bind_ok accepts]
    exact congrArg _ (Program.history_map _ _)
  | failed fails => rw [applyFirst_cons, Program.history_bind_error fails]
  | unfinished given_up => rw [applyFirst_cons, Program.history_bind_none given_up]

end Scan

theorem Environment.rulesFor_eq (e : Environment H) (key : KeyId) :
    e.rulesFor key = e.rules.filter (·.key.index = key.index) := by
  unfold rulesFor
  congr

theorem Node.find?_eq_some_iff {n : Node H} {key : KeyId} {i : Instance H} :
    n.find? key = some i ↔ ∃ newer older, n.instances = newer ++ i :: older ∧
      (∀ j ∈ newer, j.key.id.index ≠ key.index) ∧ i.key.id.index = key.index := by
  have other : ∀ j : Instance H, (!(j.key.id == key)) = true ↔ j.key.id.index ≠ key.index := by
    intro j
    rw [Bool.not_eq_true', ← Bool.not_eq_true, KeyId.beq_iff_index_eq]
  simp only [find?, List.find?_eq_some_iff_append, other, KeyId.beq_iff_index_eq]
  constructor
  · rintro ⟨same, newer, older, split, hidden⟩
    exact ⟨newer, older, split, hidden, same⟩
  · rintro ⟨newer, older, split, hidden, same⟩
    exact ⟨same, newer, older, split, hidden⟩

theorem Node.find?_eq_none_iff {n : Node H} {key : KeyId} :
    n.find? key = none ↔ ∀ i ∈ n.instances, i.key.id.index ≠ key.index := by
  simp only [find?, List.find?_eq_none, KeyId.beq_iff_index_eq, ne_eq]

namespace Dispatch
variable {key : KeyId} {outcome : Option (Except Failure (Option (Payload H)) × World H)}
  {moments : List (Moment H)}

theorem total (fuel : Nat) (v : Value) (key : KeyId) (ctx : Context) (w : World H) :
    ∃ outcome moments, Dispatch B fuel v key ctx w outcome moments := by
  cases found : (w.node v).find? key with
  | some i =>
    obtain ⟨newer, older, instances, hidden, same⟩ := Node.find?_eq_some_iff.mp found
    exact ⟨_, _, .own instances hidden same⟩
  | none =>
    obtain ⟨outcome, moments, scan⟩ := Scan.total (B := B) fuel v ctx
      ((w.environment ctx.environment).rules.filter (·.key.index = key.index)) w
    exact ⟨_, _, .rules (Node.find?_eq_none_iff.mp found) scan⟩

/-- What is run for an answer takes the order of dispatch. -/
theorem deriveAnswer_eq (dispatch : Dispatch B fuel v key ctx w outcome moments) :
    (deriveAnswer B w v key ctx).perform (respond B fuel) w = outcome ∧
      (deriveAnswer B w v key ctx).run.history B fuel w = moments := by
  cases dispatch with
  | own instances hidden same =>
    have found := Node.find?_eq_some_iff.mpr ⟨_, _, instances, hidden, same⟩
    simp only [deriveAnswer, found, ← map_eq_pure_bind, Program.history_map, and_self]
  | rules lacking scan =>
    rw [← Environment.rulesFor_eq] at scan
    have absent := Node.find?_eq_none_iff.mpr lacking
    simp only [deriveAnswer, absent]
    exact ⟨scan.perform_eq, scan.history_eq⟩

end Dispatch

/-- A request for a key that is neither remembered nor refused is dispatched, and in one way: no
    other request is put than by the newest instance or in the scan, and the outcome is the
    outcome. An answer is remembered in the world that the dispatch has left. -/
theorem resolve_dispatches {key : KeyId} {stack : CallStack} (memo : w.remembered v key = none)
    (admitted : ctx.stack.derive v key = .ok stack) (fuel : Nat) :
    (∃ outcome moments, Dispatch B fuel v key (ctx.withStack stack) w outcome moments) ∧
    ∀ outcome moments, Dispatch B fuel v key (ctx.withStack stack) w outcome moments →
      nested B (fuel + 1) (.resolve v key ctx) w = moments ∧
      respond B (fuel + 1) (.resolve v key ctx) w =
        outcome.map fun p => (p.1, (Request.resolve v key ctx).settle p.1 p.2) := by
  constructor
  · exact Dispatch.total fuel v key _ w
  · intro outcome moments dispatch
    obtain ⟨performed, put⟩ := dispatch.deriveAnswer_eq
    have runs : (Request.resolve v key ctx).body? B w =
        some (deriveAnswer B w v key (ctx.withStack stack)).run := by
      simp only [Request.body?, memo, admitted]
    rw [nested_body runs, respond_body runs, ← performed]
    exact ⟨put, rfl⟩

/-- What a validation does. -/
inductive Conduct where
  | registers
  | accepts
  | fails
  deriving DecidableEq

def Host.logging : Host := ⟨Conduct, fun _ => Unit, Unit, List Conduct⟩

def Conduct.validate (c : Conduct) (ctx : Context) : Program Host.logging (Option Unit) := do
  let (passed : List Conduct) ← Program.access (H := Host.logging) .memory
  Program.access (H := Host.logging) (.setMemory (passed ++ [c]))
  match c with
  | registers =>
    Program.access (.register ctx.environment (.own .text Key.text fails))
    return none
  | accepts => return some ()
  | fails => throw (.of (.custom "rejected"))

/-- Validations note that they were run. One rejects a value after it has registered another rule,
    one accepts it, and nothing else succeeds. -/
def logging : Behaviour Host.logging where
  realize _ _ _ _ := throw (.of (.custom "realized"))
  infer _ c := ⟨Unit, ⟨fun _ ctx => Conduct.validate c ctx⟩, fun _ _ =>
    throw (.of (.custom "derived"))⟩
  call _ v _ := return v
  evaluate _ _ := throw (.of (.custom "evaluated"))
  expand _ _ replacement _ := return replacement
  assign _ _ _ := return ()

def loggingWorld : World Host.logging :=
  { World.initial [] with
    cells := #[⟨.bare none, []⟩,
      ⟨(Node.single Key.text ⟨"older", none⟩ none).add ⟨.text, Key.text, .lazy Conduct.fails⟩, []⟩]
    environments := #[{ rules := [.own .text Key.text Conduct.registers,
      .own .text Key.text Conduct.accepts, .own .text Key.text Conduct.fails] }] }

/-- Where there are no instances, the second rule accepts the value and fails. Neither the third one
    nor the one registered meanwhile is asked. Where there are, the newer one fails, and neither the
    older one nor any rule is asked. -/
theorem second_rule_ends_scan :
    (∀ v, loggingWorld.remembered v Key.text.id = none) ∧
    ∃ bare instanced : CallStack, CallStack.fresh.derive ⟨0⟩ Key.text.id = .ok bare ∧
      CallStack.fresh.derive ⟨1⟩ Key.text.id = .ok instanced ∧
      (∃ failure after,
        Dispatch logging 2 ⟨0⟩ Key.text.id ⟨⟨0⟩, bare⟩ loggingWorld (some (.error failure, after))
          (nested logging 3 (.resolve ⟨0⟩ Key.text.id ⟨⟨0⟩, .fresh⟩) loggingWorld) ∧
        after.memory = [Conduct.registers, Conduct.accepts] ∧
        (after.environment ⟨0⟩).rules.length = 4) ∧
      ∃ failure after,
        Dispatch logging 2 ⟨1⟩ Key.text.id ⟨⟨0⟩, instanced⟩ loggingWorld
          (some (.error failure, after))
          (nested logging 3 (.resolve ⟨1⟩ Key.text.id ⟨⟨0⟩, .fresh⟩) loggingWorld) ∧
        failure.cause = .custom "realized" ∧ after.memory = [] := by
  have memo : ∀ v, loggingWorld.remembered v Key.text.id = none := by
    rintro ⟨_ | _ | id⟩ <;> rfl
  have dispatched : ∀ {v stack failure} {after : World Host.logging},
      CallStack.fresh.derive v Key.text.id = .ok stack →
      respond logging 3 (.resolve v Key.text.id ⟨⟨0⟩, .fresh⟩) loggingWorld =
        some (.error failure, after) →
      Dispatch logging 2 v Key.text.id ⟨⟨0⟩, stack⟩ loggingWorld (some (.error failure, after))
        (nested logging 3 (.resolve v Key.text.id ⟨⟨0⟩, .fresh⟩) loggingWorld) := by
    intro v stack failure after admitted responded
    have placed : (Context.mk ⟨0⟩ .fresh).stack.derive v Key.text.id = .ok stack := admitted
    obtain ⟨⟨outcome, moments, dispatch⟩, only⟩ :=
      resolve_dispatches (B := logging) (memo v) placed 2
    obtain ⟨put, answered⟩ := only outcome moments dispatch
    rw [responded] at answered
    obtain ⟨⟨r, mid⟩, rfl, same⟩ := Option.map_eq_some_iff.mp answered.symm
    obtain ⟨rfl, rfl⟩ := Prod.mk.inj same
    rw [← put] at dispatch
    exact dispatch
  exact ⟨memo, _, _, rfl, rfl, ⟨_, _, dispatched rfl rfl, rfl, rfl⟩,
    ⟨_, _, dispatched rfl rfl, rfl, rfl⟩⟩

end TraitDispatch
