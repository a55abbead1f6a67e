import TraitDispatch.Proofs.Outcome

/- The course of a run: which requests are put, in which worlds, in the order in which they are
   put. A request that is not answered at once is answered by running a body, and the requests of
   the body are nested in it. A run that uses up its fuel has a history as well, up to that
   point. -/
namespace TraitDispatch
variable {H : Host} {α : Type} {B : Behaviour H}

/-- A request at the time when it is put. -/
structure Moment (H : Host) where
  request : Request H
  world : World H

def Request.body? (B : Behaviour H) (w : World H) : (r : Request H) → Option (Act H r.Answer)
  | .resolve v key ctx =>
    match w.remembered v key, ctx.stack.derive v key with
    | none, .ok stack => some (deriveAnswer B w v key (ctx.withStack stack)).run
    | _, _ => none
  | .call f argument ctx => some (f.apply B argument ctx).run
  | .evaluate f ctx => some (f.apply B ctx).run
  | .expand f parameter replacement ctx => some (f.apply B parameter replacement ctx).run
  | .assign f value ctx => some (f.apply B value ctx).run
  | .access _ => none

theorem Request.body?_resolve_iff {w : World H} {v : Value} {key : KeyId} {ctx : Context}
    {body : Act H (Request.resolve v key ctx : Request H).Answer} :
    (Request.resolve v key ctx).body? B w = some body ↔
      w.remembered v key = none ∧ ∃ stack, ctx.stack.derive v key = .ok stack ∧
        (deriveAnswer B w v key (ctx.withStack stack)).run = body := by
  cases memo : w.remembered v key <;> cases admitted : ctx.stack.derive v key <;>
    simp [body?, memo, admitted]

theorem Request.body?_derived {w : World H} {v : Value} {key : KeyId} {ctx : Context}
    {stack : CallStack} (memo : w.remembered v key = none)
    (admitted : ctx.stack.derive v key = .ok stack) :
    (Request.resolve v key ctx).body? B w =
      some (deriveAnswer B w v key (ctx.withStack stack)).run :=
  body?_resolve_iff.mpr ⟨memo, stack, admitted, rfl⟩

inductive Request.AtOnce (w : World H) : (r : Request H) → r.Answer → World H → Prop where
  | access (a : Access H) : AtOnce w (.access a) (a.perform w).1 (a.perform w).2
  | remembered {v : Value} {key : KeyId} {p : Payload H} (memo : w.remembered v key = some p)
      (ctx : Context) : AtOnce w (.resolve v key ctx) (.ok (some p)) w
  | refused {v : Value} {key : KeyId} {ctx : Context} {f : Failure}
      (refused : ctx.stack.derive v key = .error f) : AtOnce w (.resolve v key ctx) (.error f) w

theorem Request.Ends.at_once {r : Request H} {a : r.Answer} {w after : World H}
    (ends : r.Ends B w a after) (quick : r.body? B w = none) : r.AtOnce w a after := by
  obtain ⟨fuel, answered⟩ := ends
  cases r with
  | access access =>
    rw [respond_access, Option.some.injEq] at answered
    obtain ⟨rfl, rfl⟩ : (access.perform w).1 = a ∧ (access.perform w).2 = after :=
      ⟨congrArg Prod.fst answered, congrArg Prod.snd answered⟩
    exact .access access
  | resolve v key ctx =>
    cases fuel with
    | zero => cases answered
    | succ fuel =>
      cases memo : w.remembered v key with
      | some p =>
        simp only [respond, TraitDispatch.resolve, memo, Option.some.injEq] at answered
        cases answered
        exact .remembered memo ctx
      | none =>
        cases admitted : ctx.stack.derive v key with
        | error f =>
          simp only [respond, TraitDispatch.resolve, memo, admitted, Option.some.injEq] at answered
          cases answered
          exact .refused admitted
        | ok stack =>
          rw [body?_derived memo admitted] at quick
          cases quick
  | _ => cases quick

def Act.moments (respond : Responder H) (nested : Request H → World H → List (Moment H)) :
    Act H α → World H → List (Moment H)
  | .done _, _ => []
  | .ask r next, w =>
    ⟨r, w⟩ :: nested r w ++
      match respond r w with
      | some (answer, w) => (next answer).moments respond nested w
      | none => []

/-- Requests put while a request is being answered. -/
def nested (B : Behaviour H) : Nat → Request H → World H → List (Moment H)
  | 0, _, _ => []
  | fuel + 1, r, w =>
    match r.body? B w with
    | some body => body.moments (respond B fuel) (nested B fuel) w
    | none => []

def Act.history (B : Behaviour H) (fuel : Nat) (m : Act H α) (w : World H) : List (Moment H) :=
  m.moments (respond B fuel) (nested B fuel) w

/-- The second is put while the first is being answered. -/
def Moment.Contains (B : Behaviour H) (m n : Moment H) : Prop :=
  ∃ fuel, n ∈ nested B fuel m.request m.world

theorem respond_body {r : Request H} {w : World H} {body : Act H r.Answer}
    (runs : r.body? B w = some body) (fuel : Nat) :
    respond B (fuel + 1) r w =
      (body.run (respond B fuel) w).map fun p => (p.1, r.settle p.1 p.2) := by
  cases r with
  | resolve v key ctx =>
    obtain ⟨memo, stack, admitted, rfl⟩ := Request.body?_resolve_iff.mp runs
    simp only [respond, resolve, memo, admitted]
    simp only [Program.perform]
    rcases Act.run _ _ _ with _ | ⟨_ | _ | _, _⟩ <;> rfl
  | access a => simp [Request.body?] at runs
  | call f argument ctx =>
    cases runs
    simp only [respond, Program.perform]
    cases Act.run _ _ _ <;> rfl
  | evaluate f ctx =>
    cases runs
    simp only [respond, Program.perform]
    cases Act.run _ _ _ <;> rfl
  | expand f parameter replacement ctx =>
    cases runs
    simp only [respond, Program.perform]
    cases Act.run _ _ _ <;> rfl
  | assign f value ctx =>
    cases runs
    simp only [respond, Program.perform]
    cases Act.run _ _ _ <;> rfl

theorem nested_body {r : Request H} {w : World H} {body : Act H r.Answer}
    (runs : r.body? B w = some body) (fuel : Nat) :
    nested B (fuel + 1) r w = body.history B fuel w := by
  simp only [nested, runs, Act.history]

theorem nested_at_once {r : Request H} {w : World H} (at_once : r.body? B w = none) (fuel : Nat) :
    nested B fuel r w = [] := by
  cases fuel with
  | zero => rfl
  | succ fuel => simp only [nested, at_once]

theorem history_ask (fuel : Nat) (r : Request H) (next : r.Answer → Act H α) (w : World H) :
    (Act.ask r next).history B fuel w =
      ⟨r, w⟩ :: nested B fuel r w ++
        match respond B fuel r w with
        | some (answer, w) => (next answer).history B fuel w
        | none => [] := by
  rw [Act.history, Act.moments]
  rfl

theorem history_ask_some {fuel : Nat} {r : Request H} {next : r.Answer → Act H α} {w : World H}
    {q : r.Answer × World H} (answered : respond B fuel r w = some q) :
    (Act.ask r next).history B fuel w =
      ⟨r, w⟩ :: (nested B fuel r w ++ (next q.1).history B fuel q.2) := by
  rw [history_ask, answered, List.cons_append]

theorem mem_history_ask {fuel : Nat} {r : Request H} {next : r.Answer → Act H α} {w : World H}
    {n : Moment H} :
    n ∈ (Act.ask r next).history B fuel w ↔ n = ⟨r, w⟩ ∨ n ∈ nested B fuel r w ∨
      ∃ q, respond B fuel r w = some q ∧ n ∈ (next q.1).history B fuel q.2 := by
  rw [history_ask, List.cons_append, List.mem_cons, List.mem_append]
  cases respond B fuel r w <;> simp

theorem history_bind {β : Type} {m : Act H α} {f : α → Act H β} {fuel : Nat} {w mid : World H}
    {a : α} (ran : m.run (respond B fuel) w = some (a, mid)) :
    (m >>= f).history B fuel w = m.history B fuel w ++ (f a).history B fuel mid := by
  change (m.bind f).history B fuel w = _
  induction m generalizing w with
  | done b =>
    cases ran
    rfl
  | ask r next ih =>
    obtain ⟨q, answered, rest⟩ := Act.run_ask_eq_some_iff.mp ran
    rw [Act.bind, history_ask_some answered, history_ask_some answered, ih q.1 rest]
    simp only [List.cons_append, List.append_assoc]

end TraitDispatch
