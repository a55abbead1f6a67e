import TraitDispatch.Proofs.Memory
import TraitDispatch.Proofs.Queries

/- Resolution without memo tables, and programs that only ask values for answers. For these,
   resolving is a search that can be stated without a world. -/
namespace TraitDispatch
variable {H : Host} {α β : Type} {B : Behaviour H}

/-- The world with nothing remembered. -/
def World.forget (w : World H) : World H :=
  { w with cells := w.cells.map fun cell => { cell with memo := [] } }

/-- Answers requests as `respond` does, without looking at memo tables and without writing them. -/
def recompute (B : Behaviour H) : Nat → Responder H
  | _, .access a, w => some (a.perform w)
  | 0, _, _ => none
  | fuel + 1, .resolve v key ctx, w =>
    match ctx.stack.derive v key with
    | .error failure => some (.error failure, w)
    | .ok stack => (deriveAnswer B w v key (ctx.withStack stack)).perform (recompute B fuel) w
  | fuel + 1, .call f argument ctx, w => (f.apply B argument ctx).perform (recompute B fuel) w
  | fuel + 1, .evaluate f ctx, w => (f.apply B ctx).perform (recompute B fuel) w
  | fuel + 1, .expand f parameter replacement ctx, w =>
    (f.apply B parameter replacement ctx).perform (recompute B fuel) w
  | fuel + 1, .assign f value ctx, w => (f.apply B value ctx).perform (recompute B fuel) w

namespace Query

def Over (w : World H) (G : Payload H → Prop) (good : α → Prop) : Query H KeyId α → Prop
  | .done a => good a
  | .fail _ | .raise _ | .missing _ | .mismatch _ => True
  | .ask v _ next => w.Made v ∧ ∀ answer, (∀ p ∈ answer, G p) → (next answer).Over w G good

def eval (answer : Value → KeyId → Option (Except Failure (Option (Payload H))))
    (s : CallStack) : Query H KeyId α → Option (Except Failure α)
  | .done a => some (.ok a)
  | .fail failure => some (.error failure)
  | .raise cause => some (.error (.withTrace (.of cause) s.backtrace))
  | .missing key => some (.error (.withTrace (.of (.missingTrait key.label)) s.backtrace))
  | .mismatch key => some (.error (.of (.kindMismatch key.label)))
  | .ask v key next =>
    match answer v key with
    | some (.ok found) => (next found).eval answer s
    | some (.error failure) => some (.error failure)
    | none => none

variable {w : World H} {G : Payload H → Prop} {good : α → Prop} {fine : β → Prop}

theorem over_bind {q : Query H KeyId α} {f : α → Query H KeyId β} (first : q.Over w G good)
    (rest : ∀ a, good a → (f a).Over w G fine) : (q.bind f).Over w G fine := by
  induction q with
  | done a => exact rest a first
  | fail failure | raise cause | missing key | mismatch key => trivial
  | ask v key next ih => exact ⟨first.1, fun answer held => ih answer (first.2 answer held)⟩

theorem over_askFor {k : Kind} {v : Value} {key : KeyId}
    {next : Option (k.Carrier H) → Query H KeyId α} (made : w.Made v)
    (rest : ∀ found, (∀ x ∈ found, G ⟨k, x⟩) → (next found).Over w G good) :
    (askFor k v key next).Over w G good := by
  refine ⟨made, fun answer held => ?_⟩
  cases answer with
  | none => exact rest none nofun
  | some payload =>
    dsimp only
    cases content : payload.as? k with
    | none => trivial
    | some x =>
      obtain rfl := Payload.as?_eq_some_iff.mp content
      refine rest (some x) fun y same => ?_
      cases same
      exact held _ rfl

variable {answer other : Value → KeyId → Option (Except Failure (Option (Payload H)))}
  {s t : CallStack} {q : Query H KeyId α}

theorem eval_ok {a : α}
    (keeps : ∀ v key found, answer v key = some (.ok found) → other v key = some (.ok found))
    (ok : q.eval answer s = some (.ok a)) : q.eval other t = some (.ok a) := by
  induction q with
  | done b => exact ok
  | fail failure | raise cause | missing key | mismatch key => simp [eval] at ok
  | ask v key next ih =>
    simp only [eval] at ok ⊢
    rcases first : answer v key with _ | failure | found
    · simp [first] at ok
    · simp [first] at ok
    · rw [first] at ok
      rw [keeps v key found first]
      exact ih found ok

theorem eval_mono {r : Except Failure α}
    (keeps : ∀ v key found, answer v key = some found → other v key = some found)
    (ran : q.eval answer s = some r) : q.eval other s = some r := by
  induction q with
  | done b => exact ran
  | fail failure | raise cause | missing key | mismatch key => exact ran
  | ask v key next ih =>
    simp only [eval] at ran ⊢
    rcases first : answer v key with _ | failure | found
    · simp [first] at ran
    · rw [first] at ran
      rw [keeps v key _ first]
      exact ran
    · rw [first] at ran
      rw [keeps v key _ first]
      exact ih found ran

theorem eval_good {a : α} (covered : q.Over w G good)
    (held : ∀ v key found, w.Made v → answer v key = some (.ok found) → ∀ p ∈ found, G p)
    (ok : q.eval answer s = some (.ok a)) : good a := by
  induction q with
  | done b =>
    cases ok
    exact covered
  | fail failure | raise cause | missing key | mismatch key => simp [eval] at ok
  | ask v key next ih =>
    simp only [eval] at ok
    rcases first : answer v key with _ | failure | found
    · simp [first] at ok
    · simp [first] at ok
    · rw [first] at ok
      exact ih found (covered.2 found (held v key found covered.1 first)) ok

end Query

section Inquiries
variable {w : World H} {G : Payload H → Prop} {good : α → Prop} {fine : β → Prop}

def Inquires (w : World H) (G : Payload H → Prop) (good : α → Prop) (m : Context → Program H α) :
    Prop :=
  ∃ q : Query H KeyId α, q.Over w G good ∧ ∀ ctx, m ctx = q.program id ctx

theorem inquires_pure {a : α} (holds : good a) :
    Inquires w G good fun _ => (pure a : Program H α) :=
  ⟨.done a, holds, fun _ => rfl⟩

theorem Inquires.bind {m : Context → Program H α} {f : α → Context → Program H β}
    (first : Inquires w G good m)
    (rest : ∀ a, ∃ q : Query H KeyId β, (good a → q.Over w G fine) ∧
      ∀ ctx, f a ctx = q.program id ctx) :
    Inquires w G fine fun ctx => m ctx >>= fun a => f a ctx := by
  obtain ⟨q, covered, asks⟩ := first
  obtain ⟨next, described⟩ := Classical.skolem.mp rest
  refine ⟨q.bind next, Query.over_bind covered fun a => (described a).1, fun ctx => ?_⟩
  rw [Query.program_bind, ← asks ctx]
  exact congrArg _ (funext fun a => (described a).2 ctx)

theorem Inquires.map {m : Context → Program H α} (first : Inquires w G good m) {f : α → β}
    (kept : ∀ a, good a → fine (f a)) : Inquires w G fine fun ctx => f <$> m ctx := by
  simp only [map_eq_pure_bind]
  exact first.bind fun a => ⟨.done (f a), kept a, fun _ => rfl⟩

theorem inquires_answer? {k : Kind} {v : Value} (made : w.Made v) (key : Key k) :
    Inquires w G (fun found => ∀ x ∈ found, G ⟨k, x⟩) (v.answer? key) := by
  refine ⟨.askFor k v key.id .done, Query.over_askFor made fun found held => held, fun ctx => ?_⟩
  rw [Query.program_askFor]
  exact (bind_pure _).symm

theorem inquires_direct {j k : Kind} {v : Value} (made : w.Made v) (key : Key j)
    {f : j.Carrier H → k.Carrier H} (kept : ∀ x, G ⟨j, x⟩ → G ⟨k, f x⟩) :
    Inquires w G (fun found => ∀ p ∈ found, G p) ((Inference.direct key f).apply v) := by
  refine (inquires_answer? made key).bind fun found => ?_
  cases found with
  | none => exact ⟨.done none, fun _ => nofun, fun _ => rfl⟩
  | some x =>
    refine ⟨.done (some ⟨k, f x⟩), fun held p same => ?_, fun _ => rfl⟩
    cases same
    exact kept x (held x rfl)

/-- Nothing that values bring along and nothing that rules do has an effect, or looks at the
    environment or the stack. All answers are of the class, as long as those are that they are
    computed from; and what is asked then has been made. -/
structure Effectless (B : Behaviour H) (w : World H) (e : EnvironmentId) (G : Payload H → Prop) :
    Prop where
  instances : ∀ v, w.Made v → ∀ i ∈ (w.node v).instances, Inquires w G G (i.realize B v)
  rules : ∀ rule ∈ (w.environment e).rules, ∀ v, w.Made v →
    Inquires w G (fun found => ∀ p ∈ found, G p) fun ctx => rule.apply B v ctx

end Inquiries

section Search

def solve (d : Derivation → Query H KeyId (Option (Payload H))) :
    Nat → CallStack → Value → KeyId → Option (Except Failure (Option (Payload H)))
  | 0, _, _, _ => none
  | fuel + 1, s, v, key =>
    match s.derive v key with
    | .error failure => some (.error failure)
    | .ok inner => (d ⟨v, key.index⟩).eval (solve d fuel inner) inner

variable {d : Derivation → Query H KeyId (Option (Payload H))}

theorem solve_mono {fuel more : Nat} (le : fuel ≤ more) (s : CallStack) (v : Value) (key : KeyId)
    (r : Except Failure (Option (Payload H))) (found : solve d fuel s v key = some r) :
    solve d more s v key = some r := by
  induction fuel generalizing more s v key r with
  | zero => simp [solve] at found
  | succ fuel ih =>
    obtain ⟨more, rfl⟩ : ∃ m, more = m + 1 := ⟨more - 1, by omega⟩
    simp only [solve] at found ⊢
    cases admitted : s.derive v key with
    | error failure => simpa [admitted] using found
    | ok inner =>
      rw [admitted] at found
      exact Query.eval_mono (fun v key r => ih (by omega) inner v key r) found

theorem solve_good {w : World H} {G : Payload H → Prop} {fuel : Nat} {s : CallStack} {v : Value}
    {key : KeyId} {a : Option (Payload H)}
    (covered : ∀ p : Derivation, w.Made p.value → (d p).Over w G fun found => ∀ x ∈ found, G x)
    (made : w.Made v) (found : solve d fuel s v key = some (.ok a)) : ∀ x ∈ a, G x := by
  induction fuel generalizing s v key a with
  | zero => simp [solve] at found
  | succ fuel ih =>
    simp only [solve] at found
    cases admitted : s.derive v key with
    | error failure => simp [admitted] at found
    | ok inner =>
      rw [admitted] at found
      exact Query.eval_good (covered ⟨v, key.index⟩ made) (fun _ _ _ => ih) found

theorem solve_fewer {fuel : Nat} {s t : CallStack} {v : Value} {key other : KeyId}
    {a : Option (Payload H)} (found : solve d fuel s v key = some (.ok a))
    (same : other.index = key.index) (fewer : t.active ⊆ s.active) (unlimited : t.limit = none) :
    solve d fuel t v other = some (.ok a) := by
  induction fuel generalizing s t v key other a with
  | zero => simp [solve] at found
  | succ fuel ih =>
    simp only [solve] at found ⊢
    cases admitted : s.derive v key with
    | error failure => simp [admitted] at found
    | ok inner =>
      rw [admitted] at found
      obtain ⟨idle, -, rfl⟩ := CallStack.derive_eq_ok_iff.mp admitted
      have idle' : ⟨v, other.index⟩ ∉ t.active := fun member => idle (same ▸ fewer member)
      obtain ⟨inner', admitted', unlimited', listed⟩ := derive_unlimited unlimited idle'
      rw [admitted', same]
      refine Query.eval_ok (fun u k b sub => ih sub rfl ?_ unlimited') found
      rw [listed, same]
      exact List.cons_subset_cons _ fewer

def Settles (d : Derivation → Query H KeyId (Option (Payload H))) (fuel : Nat) (p : Derivation)
    (a : Option (Payload H)) : Prop :=
  solve d fuel .fresh p.value ⟨p.key, ""⟩ = some (.ok a)

theorem settles_of_solve {fuel : Nat} {s : CallStack} {v : Value} {key : KeyId}
    {a : Option (Payload H)} (found : solve d fuel s v key = some (.ok a)) :
    Settles d fuel ⟨v, key.index⟩ a :=
  solve_fewer found rfl (List.nil_subset _) rfl

theorem Settles.more {fuel more : Nat} {p : Derivation} {a : Option (Payload H)}
    (settles : Settles d fuel p a) (le : fuel ≤ more) : Settles d more p a :=
  solve_mono le _ _ _ _ settles

theorem Settles.unique {fuel other : Nat} {p : Derivation} {a b : Option (Payload H)}
    (first : Settles d fuel p a) (second : Settles d other p b) : a = b := by
  have ha := first.more (Nat.le_max_left fuel other)
  have hb := second.more (Nat.le_max_right fuel other)
  exact Except.ok.inj (Option.some.inj (ha.symm.trans hb))

/-- What settles within some fuel also settles below derivations that do not. -/
theorem solve_of_settles {fuel : Nat} {s : CallStack} {v : Value} {key : KeyId}
    {a : Option (Payload H)} (settles : Settles d fuel ⟨v, key.index⟩ a)
    (unsettled : ∀ p ∈ s.active, ∀ b, ¬ Settles d fuel p b) (unlimited : s.limit = none) :
    solve d fuel s v key = some (.ok a) := by
  induction fuel generalizing s v key a with
  | zero => simp [Settles, solve] at settles
  | succ fuel ih =>
    have before : ∀ p ∈ s.active, ∀ b, ¬ Settles d fuel p b := fun p member b sub =>
      unsettled p member b (sub.more (Nat.le_succ fuel))
    by_cases early : ∃ b, Settles d fuel ⟨v, key.index⟩ b
    · obtain ⟨b, early⟩ := early
      have same : a = b := settles.unique early
      subst same
      exact solve_mono (Nat.le_succ fuel) _ _ _ _ (ih early before unlimited)
    · have idle : ⟨v, key.index⟩ ∉ s.active := fun member => unsettled _ member a settles
      obtain ⟨inner, admitted, unlimited', listed⟩ := derive_unlimited unlimited idle
      simp only [Settles, solve] at settles
      cases alone : CallStack.fresh.derive v ⟨key.index, ""⟩ with
      | error failure => simp [alone] at settles
      | ok single =>
        rw [alone] at settles
        simp only [solve, admitted]
        refine Query.eval_ok (fun u k b sub => ?_) settles
        refine ih (settles_of_solve sub) (fun p member c settled => ?_) unlimited'
        rw [listed] at member
        rcases List.mem_cons.mp member with here | above
        · subst p
          exact early ⟨c, settled⟩
        · exact before p above c settled

end Search
end TraitDispatch
