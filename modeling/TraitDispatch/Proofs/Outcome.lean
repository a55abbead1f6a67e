import TraitDispatch.Dispatch

/- Runs without a bound on how deeply programs are nested. A run ends in a world if some amount of
   fuel suffices for it; more fuel never changes how it ends. -/
namespace TraitDispatch
variable {H : Host} {α β : Type} {B : Behaviour H}

def Request.Ends (B : Behaviour H) (r : Request H) (w : World H) (a : r.Answer)
    (after : World H) : Prop :=
  ∃ fuel, respond B fuel r w = some (a, after)

def Act.Ends (B : Behaviour H) (m : Act H α) (w : World H) (a : α) (after : World H) : Prop :=
  ∃ fuel, m.run (respond B fuel) w = some (a, after)

def Program.Ends (B : Behaviour H) (m : Program H α) (w : World H) (r : Except Failure α)
    (after : World H) : Prop :=
  ∃ fuel, m.perform (respond B fuel) w = some (r, after)

/-- The world once the body has given an answer. -/
def Request.settle : (r : Request H) → r.Answer → World H → World H
  | .resolve v key _, .ok (some answer), w => w.remember v key answer
  | .resolve _ _ _, _, w => w
  | .call _ _ _, _, w | .evaluate _ _, _, w | .expand _ _ _ _, _, w | .assign _ _ _, _, w
  | .access _, _, w => w

theorem eq_of_more {f : Nat → Option α} (more : ∀ n k a, f n = some a → n ≤ k → f k = some a)
    {n k : Nat} {a b : α} (first : f n = some a) (second : f k = some b) : a = b := by
  have hn := more n (max n k) a first (Nat.le_max_left n k)
  have hk := more k (max n k) b second (Nat.le_max_right n k)
  exact Option.some.inj (hn.symm.trans hk)

theorem Request.ends_unique {r : Request H} {w after other : World H} {a b : r.Answer}
    (first : r.Ends B w a after) (second : r.Ends B w b other) : a = b ∧ after = other := by
  obtain ⟨n, first⟩ := first
  obtain ⟨k, second⟩ := second
  have same := eq_of_more (fun n k p ran le => respond_mono le r w p ran) first second
  exact Prod.mk.inj same

theorem run_more {m : Act H α} {w : World H} {p : α × World H} {fuel more : Nat}
    (ran : m.run (respond B fuel) w = some p) (le : fuel ≤ more) :
    m.run (respond B more) w = some p :=
  Act.run_mono (fun r w p => respond_mono le r w p) m w p ran

theorem perform_more {m : Program H α} {w : World H} {p : Except Failure α × World H}
    {fuel more : Nat} (ran : m.perform (respond B fuel) w = some p) (le : fuel ≤ more) :
    m.perform (respond B more) w = some p :=
  run_more ran le

theorem Program.ends_unique {m : Program H α} {w after other : World H} {r r' : Except Failure α}
    (first : m.Ends B w r after) (second : m.Ends B w r' other) : r = r' ∧ after = other := by
  obtain ⟨n, first⟩ := first
  obtain ⟨k, second⟩ := second
  have same := eq_of_more (fun n k p ran le => perform_more ran le) first second
  exact Prod.mk.inj same

theorem Program.perform_ok_of_any {m : Program H α} {w : World H} {p : α → World H → Bool}
    (fuel : Nat) (good : (m.perform (respond B fuel) w).any fun q => q.1.toOption.any (p · q.2)) :
    ∃ a after, m.perform (respond B fuel) w = some (.ok a, after) ∧ p a after := by
  obtain ⟨⟨r, after⟩, ran, holds⟩ := (Option.any_eq_true _ _).mp good
  cases r with
  | ok a => exact ⟨a, after, ran, holds⟩
  | error failure => cases holds

def failure? : Except Failure α → Option Failure
  | .ok _ => none
  | .error failure => some failure

theorem Program.perform_error_of_any {m : Program H α} {w : World H} {p : Failure → World H → Bool}
    (fuel : Nat) (bad : (m.perform (respond B fuel) w).any fun q => (failure? q.1).any (p · q.2)) :
    ∃ failure after, m.perform (respond B fuel) w = some (.error failure, after) ∧
      p failure after := by
  obtain ⟨⟨r, after⟩, ran, holds⟩ := (Option.any_eq_true _ _).mp bad
  cases r with
  | ok a => cases holds
  | error failure => exact ⟨failure, after, ran, holds⟩

namespace Act

theorem Ends.done (a : α) (w : World H) : Ends B (pure a) w a w := ⟨0, rfl⟩

theorem Ends.bind {m : Act H α} {f : α → Act H β} {w mid after : World H} {a : α} {b : β}
    (first : m.Ends B w a mid) (rest : (f a).Ends B mid b after) : (m >>= f).Ends B w b after := by
  obtain ⟨n, first⟩ := first
  obtain ⟨k, rest⟩ := rest
  refine ⟨max n k, ?_⟩
  rw [run_bind, run_more first (Nat.le_max_left n k)]
  exact run_more rest (Nat.le_max_right n k)

end Act

namespace Program

theorem Ends.done (a : α) (w : World H) : Ends B (pure a) w (.ok a) w := ⟨0, rfl⟩

theorem Ends.failed (f : Failure) (w : World H) :
    Ends B (throw f : Program H α) w (.error f) w := ⟨0, rfl⟩

theorem Ends.bind {m : Program H α} {f : α → Program H β} {w mid after : World H} {a : α}
    {r : Except Failure β} (first : m.Ends B w (.ok a) mid) (rest : (f a).Ends B mid r after) :
    (m >>= f).Ends B w r after := by
  obtain ⟨n, first⟩ := first
  obtain ⟨k, rest⟩ := rest
  refine ⟨max n k, ?_⟩
  rw [perform_bind, perform_more first (Nat.le_max_left n k)]
  exact perform_more rest (Nat.le_max_right n k)

theorem Ends.bind_failed {m : Program H α} {f : α → Program H β} {w after : World H}
    {failure : Failure} (first : m.Ends B w (.error failure) after) :
    (m >>= f).Ends B w (.error failure) after := by
  obtain ⟨n, first⟩ := first
  refine ⟨n, ?_⟩
  rw [perform_bind, first]
  rfl

theorem Ends.rest {m : Program H α} {f : α → Program H β} {w mid : World H} {a : α} {fuel : Nat}
    {p : Except Failure β × World H} (first : m.Ends B w (.ok a) mid)
    (ran : (m >>= f).perform (respond B fuel) w = some p) :
    (f a).perform (respond B fuel) mid = some p := by
  rw [perform_bind] at ran
  obtain ⟨⟨r, mid'⟩, begun, rest⟩ := Option.bind_eq_some_iff.mp ran
  obtain ⟨rfl, rfl⟩ := ends_unique first ⟨fuel, begun⟩
  exact rest

theorem ends_bind_iff {m : Program H α} {f : α → Program H β} {w mid after : World H} {a : α}
    {r : Except Failure β} (first : m.Ends B w (.ok a) mid) :
    (m >>= f).Ends B w r after ↔ (f a).Ends B mid r after :=
  ⟨fun ⟨fuel, ran⟩ => ⟨fuel, first.rest ran⟩, .bind first⟩

theorem Ends.through {m : Program H α} {f : α → Program H β} {w after : World H}
    {r : Except Failure β} (ends : (m >>= f).Ends B w r after) :
    (∃ failure, r = .error failure ∧ m.Ends B w (.error failure) after) ∨
      ∃ a mid, m.Ends B w (.ok a) mid ∧ (f a).Ends B mid r after := by
  obtain ⟨fuel, ran⟩ := ends
  rw [perform_bind] at ran
  obtain ⟨⟨first, mid⟩, begun, rest⟩ := Option.bind_eq_some_iff.mp ran
  cases first with
  | error failure =>
    cases rest
    exact .inl ⟨failure, rfl, fuel, begun⟩
  | ok a => exact .inr ⟨a, mid, ⟨fuel, begun⟩, fuel, rest⟩

theorem Ends.split {m : Program H α} {f : α → Program H β} {w after : World H} {b : β}
    (ends : (m >>= f).Ends B w (.ok b) after) :
    ∃ a mid, m.Ends B w (.ok a) mid ∧ (f a).Ends B mid (.ok b) after :=
  ends.through.resolve_left nofun

theorem Ends.lift {m : Act H α} {w after : World H} {a : α} (ran : m.Ends B w a after) :
    m.lift.Ends B w (.ok a) after := by
  obtain ⟨n, ran⟩ := ran
  exact ⟨n, by rw [perform_lift, ran]; rfl⟩

theorem Ends.access (a : Access H) (w : World H) :
    (Program.access a).Ends B w (.ok (a.perform w).1) (a.perform w).2 :=
  ⟨0, by rw [perform_access, respond_access]; rfl⟩

theorem Ends.resolve {v : Value} {key : KeyId} {ctx : Context} {w after : World H}
    {r : Except Failure (Option (Payload H))}
    (ends : (Request.resolve v key ctx).Ends B w r after) :
    (Program.resolve v key ctx).Ends B w r after := by
  obtain ⟨n, ends⟩ := ends
  exact ⟨n, (Act.run_request _ _ _).trans ends⟩

theorem Ends.call {f : Function H.Code} {argument : Value} {ctx : Context} {w after : World H}
    {r : Except Failure Value} (ran : (f.apply B argument ctx).Ends B w r after) :
    (Program.call f argument ctx).Ends B w r after := by
  obtain ⟨n, ran⟩ := ran
  exact ⟨n + 1, (Act.run_request _ _ _).trans ran⟩

theorem Ends.evaluate {f : Evaluator H.Code} {ctx : Context} {w after : World H}
    {r : Except Failure Value} (ran : (f.apply B ctx).Ends B w r after) :
    (Program.evaluate f ctx).Ends B w r after := by
  obtain ⟨n, ran⟩ := ran
  exact ⟨n + 1, (Act.run_request _ _ _).trans ran⟩

theorem Ends.expand {f : Expander H.Code} {parameter replacement : Value} {ctx : Context}
    {w after : World H} {r : Except Failure Value}
    (ran : (f.apply B parameter replacement ctx).Ends B w r after) :
    (Program.expand f parameter replacement ctx).Ends B w r after := by
  obtain ⟨n, ran⟩ := ran
  exact ⟨n + 1, (Act.run_request _ _ _).trans ran⟩

theorem Ends.assign {f : Assigner H.Code} {value : Value} {ctx : Context} {w after : World H}
    {r : Except Failure Unit} (ran : (f.apply B value ctx).Ends B w r after) :
    (Program.assign f value ctx).Ends B w r after := by
  obtain ⟨n, ran⟩ := ran
  exact ⟨n + 1, (Act.run_request _ _ _).trans ran⟩

theorem spend_call {f : Function H.Code} {argument : Value} {ctx : Context} {w : World H}
    {fuel : Nat} {p : Except Failure Value × World H}
    (ran : (Program.call f argument ctx).perform (respond B fuel) w = some p) :
    ∃ less, fuel = less + 1 ∧ (f.apply B argument ctx).perform (respond B less) w = some p := by
  have responded : respond B fuel (.call f argument ctx) w = some p :=
    (Act.run_request _ _ _).symm.trans ran
  cases fuel with
  | zero => cases responded
  | succ less => exact ⟨less, rfl, responded⟩

theorem spend_evaluate {f : Evaluator H.Code} {ctx : Context} {w : World H} {fuel : Nat}
    {p : Except Failure Value × World H}
    (ran : (Program.evaluate f ctx).perform (respond B fuel) w = some p) :
    ∃ less, fuel = less + 1 ∧ (f.apply B ctx).perform (respond B less) w = some p := by
  have responded : respond B fuel (.evaluate f ctx) w = some p :=
    (Act.run_request _ _ _).symm.trans ran
  cases fuel with
  | zero => cases responded
  | succ less => exact ⟨less, rfl, responded⟩

theorem ends_call_iff {f : Function H.Code} {argument : Value} {ctx : Context} {w after : World H}
    {r : Except Failure Value} :
    (Program.call f argument ctx).Ends B w r after ↔ (f.apply B argument ctx).Ends B w r after := by
  refine ⟨fun ⟨fuel, ran⟩ => ?_, .call⟩
  obtain ⟨less, -, ran⟩ := spend_call ran
  exact ⟨less, ran⟩

theorem ends_evaluate_iff {f : Evaluator H.Code} {ctx : Context} {w after : World H}
    {r : Except Failure Value} :
    (Program.evaluate f ctx).Ends B w r after ↔ (f.apply B ctx).Ends B w r after := by
  refine ⟨fun ⟨fuel, ran⟩ => ?_, .evaluate⟩
  obtain ⟨less, -, ran⟩ := spend_evaluate ran
  exact ⟨less, ran⟩

end Program

namespace Request

theorem Ends.remembered {v : Value} {key : KeyId} {w : World H} {answer : Payload H}
    (memo : w.remembered v key = some answer) (ctx : Context) :
    (Request.resolve v key ctx).Ends B w (.ok (some answer)) w :=
  ⟨1, by simp only [respond, TraitDispatch.resolve, memo]⟩

theorem Ends.refused {v : Value} {key : KeyId} {ctx : Context} {w : World H} {failure : Failure}
    (memo : w.remembered v key = none) (refused : ctx.stack.derive v key = .error failure) :
    (Request.resolve v key ctx).Ends B w (.error failure) w :=
  ⟨1, by simp only [respond, TraitDispatch.resolve, memo, refused]⟩

theorem Ends.derived {v : Value} {key : KeyId} {ctx : Context} {stack : CallStack}
    {w after : World H} {r : Except Failure (Option (Payload H))}
    (memo : w.remembered v key = none) (admitted : ctx.stack.derive v key = .ok stack)
    (ran : (deriveAnswer B w v key (ctx.withStack stack)).Ends B w r after) :
    (Request.resolve v key ctx).Ends B w r ((Request.resolve v key ctx).settle r after) := by
  obtain ⟨n, ran⟩ := ran
  refine ⟨n + 1, ?_⟩
  simp only [respond, TraitDispatch.resolve, memo, admitted, ran]
  rcases r with _ | _ | _ <;> rfl

end Request

def Host.unit : Host := ⟨Unit, fun _ => Unit, Unit, Unit⟩

def inert : Behaviour Host.unit where
  realize _ _ _ _ := throw (.of (.custom ""))
  infer _ _ := ⟨Unit, ⟨fun _ _ => return none⟩, fun _ _ => throw (.of (.custom ""))⟩
  call _ v _ := return v
  evaluate _ _ := throw (.of (.custom ""))
  expand _ _ replacement _ := return replacement
  assign _ _ _ := return ()

end TraitDispatch
