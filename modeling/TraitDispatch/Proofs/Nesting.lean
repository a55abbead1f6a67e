import TraitDispatch.Proofs.Pruning
import TraitDispatch.Proofs.Rendering

/- Asking for answers where nesting is limited. An answer that is remembered takes no entry, one
   that the value has an instance for takes one, and one that a rule gives takes a second for the
   form that the rule asks for. If there is no room for the entries it takes, asking fails and
   nothing that a rule would give is remembered. -/
namespace TraitDispatch
variable {H : Host} {α β : Type} {B : Behaviour H} {w : World H} {k : Kind}

namespace CallStack
variable {s inner : CallStack}

def Room (s : CallStack) (entries : Nat) : Prop :=
  ∀ limit, s.limit = some limit → s.nesting + entries ≤ limit

def Calm (s : CallStack) : Prop := ∀ p ∈ s.active, p.key = Key.text.id.index

def Brief (s : CallStack) (fuel : Nat) : Prop :=
  ∃ limit, s.limit = some limit ∧ s.nesting ≤ limit ∧ limit < s.nesting + fuel

structure Below (s inner : CallStack) : Prop where
  nesting : inner.nesting = s.nesting + 1
  limit : inner.limit = s.limit

theorem below_enter (s : CallStack) (label : String) (location : Option Location) :
    s.Below (s.enter label location) :=
  ⟨nesting_enter s label location, limit_enter s label location⟩

theorem atLimit_iff : s.atLimit = false ↔ s.Room 1 := by
  unfold atLimit Room
  cases s.limit with
  | none => simp
  | some limit =>
    constructor
    · intro free bound chosen
      cases chosen
      exact Nat.lt_of_not_le (of_decide_eq_false free)
    · intro room
      exact decide_eq_false (Nat.not_le_of_lt (room limit rfl))

theorem Room.fewer {entries more : Nat} (room : s.Room more) (le : entries ≤ more) :
    s.Room entries := by
  intro limit chosen
  have fits := room limit chosen
  omega

theorem Below.room_iff (below : s.Below inner) {entries : Nat} :
    inner.Room entries ↔ s.Room (entries + 1) := by
  unfold Room
  rw [below.limit, below.nesting]
  constructor <;> intro room limit chosen <;> have fits := room limit chosen <;> omega

theorem Brief.pos {fuel : Nat} (brief : s.Brief fuel) : 0 < fuel := by
  obtain ⟨limit, -, inside, before⟩ := brief
  omega

theorem fuel_pos {fuel : Nat} (fuelled : s.Brief fuel ∨ 2 ≤ fuel) : 0 < fuel := by
  rcases fuelled with brief | two
  · exact brief.pos
  · omega

theorem Brief.below {fuel : Nat} (brief : s.Brief (fuel + 1)) (below : s.Below inner)
    (room : s.Room 1) : inner.Brief fuel := by
  obtain ⟨limit, chosen, -, before⟩ := brief
  have fits := room limit chosen
  refine ⟨limit, below.limit.trans chosen, ?_, ?_⟩
  · rw [below.nesting]
    exact fits
  · rw [below.nesting]
    omega

theorem Brief.more {fuel more : Nat} (brief : s.Brief fuel) (le : fuel ≤ more) : s.Brief more := by
  obtain ⟨limit, chosen, inside, before⟩ := brief
  exact ⟨limit, chosen, inside, by omega⟩

theorem Calm.idle {v : Value} {key : KeyId} (calm : s.Calm) (regular : key.Regular) :
    ⟨v, key.index⟩ ∉ s.active := fun busy => regular.1 (calm _ busy)

theorem admitted {v : Value} {key : KeyId} (entered : s.derive v key = .ok inner) :
    s.Room 1 ∧ s.Below inner ∧ inner.active = ⟨v, key.index⟩ :: s.active := by
  obtain ⟨-, free, rfl⟩ := derive_eq_ok_iff.mp entered
  exact ⟨atLimit_iff.mp free,
    ⟨(below_enter s _ _).nesting, (below_enter s _ _).limit⟩, rfl⟩

theorem refused {v : Value} {key : KeyId} {failure : Failure} (idle : ⟨v, key.index⟩ ∉ s.active)
    (refused : s.derive v key = .error failure) :
    ¬ s.Room 1 ∧ ∃ limit, failure.cause = .depthLimit limit := by
  have absent : s.isActive v key = false := by
    rw [← Bool.not_eq_true, isActive_iff]
    exact idle
  cases full : s.atLimit with
  | false => simp [derive, absent, full] at refused
  | true =>
    simp only [derive, absent, full, if_true, Bool.false_eq_true, if_false] at refused
    cases refused
    refine ⟨fun room => ?_, _, rfl⟩
    rw [atLimit_iff.mpr room] at full
    cases full

end CallStack

/-- With the fuel, the program ends as is said, if it ends at all, and it does end if there is
    enough. -/
structure Act.EndsIf (B : Behaviour H) (fuel : Nat) (enough : Prop) (m : Act H α) (w : World H)
    (post : α → World H → Prop) : Prop where
  ends : enough → ∃ p, m.run (respond B fuel) w = some p
  finds : ∀ a after, m.run (respond B fuel) w = some (a, after) → post a after

structure Program.EndsIf (B : Behaviour H) (fuel : Nat) (enough : Prop) (m : Program H α)
    (w : World H) (post : Except Failure α → World H → Prop) : Prop where
  ends : enough → ∃ p, m.perform (respond B fuel) w = some p
  finds : ∀ r after, m.perform (respond B fuel) w = some (r, after) → post r after

section Running
variable {fuel : Nat} {enough : Prop}

theorem Act.EndsIf.done {a : α} {post : α → World H → Prop} (holds : post a w) :
    (pure a : Act H α).EndsIf B fuel enough w post := by
  refine ⟨fun _ => ⟨_, rfl⟩, fun b after ran => ?_⟩
  cases ran
  exact holds

theorem Act.EndsIf.bind {m : Act H α} {f : α → Act H β} {p : α → World H → Prop}
    {q : β → World H → Prop} (first : m.EndsIf B fuel enough w p)
    (rest : ∀ a after, p a after → (f a).EndsIf B fuel enough after q) :
    (m >>= f).EndsIf B fuel enough w q := by
  constructor
  · intro plenty
    obtain ⟨⟨a, mid⟩, begun⟩ := first.ends plenty
    rw [run_bind, begun]
    exact (rest a mid (first.finds a mid begun)).ends plenty
  · intro b after ran
    rw [run_bind] at ran
    obtain ⟨⟨a, mid⟩, begun, ended⟩ := Option.bind_eq_some_iff.mp ran
    exact (rest a mid (first.finds a mid begun)).finds b after ended

theorem Act.EndsIf.weaken {m : Act H α} {p q : α → World H → Prop}
    (runs : m.EndsIf B fuel enough w p) (weaker : ∀ a after, p a after → q a after) :
    m.EndsIf B fuel enough w q :=
  ⟨runs.ends, fun a after ran => weaker a after (runs.finds a after ran)⟩

theorem Act.EndsIf.fewer {m : Act H α} {p : α → World H → Prop} {less : Prop}
    (runs : m.EndsIf B fuel enough w p) (fewer : less → enough) : m.EndsIf B fuel less w p :=
  ⟨fun holds => runs.ends (fewer holds), runs.finds⟩

namespace Program
variable {m : Program H α} {p : Except Failure α → World H → Prop}

theorem EndsIf.of_perform {r : Except Failure α}
    (ran : m.perform (respond B fuel) w = some (r, after)) (holds : p r after) :
    m.EndsIf B fuel enough w p := by
  refine ⟨fun _ => ⟨_, ran⟩, fun r' after' again => ?_⟩
  rw [ran] at again
  cases again
  exact holds

theorem EndsIf.done {a : α} (holds : p (.ok a) w) :
    (pure a : Program H α).EndsIf B fuel enough w p := .of_perform rfl holds

theorem EndsIf.failed {failure : Failure} (holds : p (.error failure) w) :
    (throw failure : Program H α).EndsIf B fuel enough w p := .of_perform rfl holds

theorem EndsIf.bind {f : α → Program H β} {q : Except Failure β → World H → Prop}
    (first : m.EndsIf B fuel enough w p)
    (rest : ∀ a after, p (.ok a) after → (f a).EndsIf B fuel enough after q)
    (failed : ∀ failure after, p (.error failure) after → q (.error failure) after) :
    (m >>= f).EndsIf B fuel enough w q := by
  constructor
  · intro plenty
    obtain ⟨⟨r, mid⟩, begun⟩ := first.ends plenty
    rw [perform_bind, begun]
    cases r with
    | error failure => exact ⟨_, rfl⟩
    | ok a => exact (rest a mid (first.finds _ mid begun)).ends plenty
  · intro r after ran
    rw [perform_bind] at ran
    obtain ⟨⟨r', mid⟩, begun, ended⟩ := Option.bind_eq_some_iff.mp ran
    cases r' with
    | error failure =>
      cases ended
      exact failed failure mid (first.finds _ mid begun)
    | ok a => exact (rest a mid (first.finds _ mid begun)).finds r after ended

theorem EndsIf.weaken {q : Except Failure α → World H → Prop} {less : Prop}
    (runs : m.EndsIf B fuel enough w p) (fewer : less → enough)
    (weaker : ∀ r after, p r after → q r after) : m.EndsIf B fuel less w q :=
  ⟨fun holds => runs.ends (fewer holds), fun r after ran => weaker r after (runs.finds r after ran)⟩

theorem EndsIf.lift {m : Act H α} {q : α → World H → Prop} (runs : m.EndsIf B fuel enough w q) :
    m.lift.EndsIf B fuel enough w fun r after => ∃ a, r = .ok a ∧ q a after := by
  constructor
  · intro plenty
    obtain ⟨a, ran⟩ := runs.ends plenty
    rw [perform_lift, ran]
    exact ⟨_, rfl⟩
  · intro r after ran
    rw [perform_lift] at ran
    obtain ⟨⟨a, after⟩, ended, same⟩ := Option.map_eq_some_iff.mp ran
    cases same
    exact ⟨a, rfl, runs.finds a after ended⟩

theorem EndsIf.access (a : Access H) :
    (Program.access a).EndsIf B fuel enough w fun r after =>
      r = .ok (a.perform w).1 ∧ after = (a.perform w).2 := by
  refine .of_perform ?_ ⟨rfl, rfl⟩
  rw [perform_access, respond_access]
  rfl

theorem EndsIf.location (v : Value) :
    v.location.EndsIf B fuel enough w fun r after =>
      r = .ok (w.node v).location ∧ after = w := by
  refine (EndsIf.access (.inspect v)).bind (fun n after found => ?_) fun failure after found => ?_
  · obtain ⟨same, rfl⟩ := found
    cases same
    exact .done ⟨rfl, rfl⟩
  · cases found.1

theorem EndsIf.ends_with (runs : m.EndsIf B fuel enough w p) (plenty : enough) :
    ∃ r after, m.Ends B w r after ∧ p r after := by
  obtain ⟨⟨r, after⟩, ran⟩ := runs.ends plenty
  exact ⟨r, after, ⟨fuel, ran⟩, runs.finds r after ran⟩

end Program

theorem resolve_endsIf {v : Value} {key : KeyId} {ctx : Context}
    {p : Except Failure (Option (Payload H)) → World H → Prop} (fuelled : enough → 0 < fuel)
    (memo : ∀ answer, w.remembered v key = some answer → p (.ok (some answer)) w)
    (refused : ∀ failure, w.remembered v key = none → ctx.stack.derive v key = .error failure →
      p (.error failure) w)
    (derives : ∀ stack less, w.remembered v key = none → ctx.stack.derive v key = .ok stack →
      fuel = less + 1 → (deriveAnswer B w v key (ctx.withStack stack)).EndsIf B less enough w
        fun r mid => p r ((Request.resolve v key ctx).settle r mid)) :
    (Program.resolve v key ctx).EndsIf B fuel enough w p := by
  have responds : ∀ f, (Program.resolve v key ctx).perform (respond B f) w =
      respond B f (.resolve v key ctx) w := fun f => Act.run_request _ _ _
  cases fuel with
  | zero =>
    refine ⟨fun plenty => absurd (fuelled plenty) (Nat.lt_irrefl 0), fun r after ran => ?_⟩
    rw [responds] at ran
    cases ran
  | succ less =>
    have settles : ∀ stack, w.remembered v key = none → ctx.stack.derive v key = .ok stack →
        respond B (less + 1) (.resolve v key ctx) w =
          ((deriveAnswer B w v key (ctx.withStack stack)).perform (respond B less) w).map
            fun q => (q.1, (Request.resolve v key ctx).settle q.1 q.2) := by
      intro stack absent admitted
      exact respond_body (Request.body?_derived absent admitted) less
    cases found : w.remembered v key with
    | some answer =>
      have at_once : respond B (less + 1) (.resolve v key ctx) w = some (.ok (some answer), w) := by
        simp only [respond, resolve, found]
      exact .of_perform ((responds _).trans at_once) (memo answer found)
    | none =>
      cases admitted : ctx.stack.derive v key with
      | error failure =>
        have at_once : respond B (less + 1) (.resolve v key ctx) w = some (.error failure, w) := by
          simp only [respond, resolve, found, admitted]
        exact .of_perform ((responds _).trans at_once) (refused failure found admitted)
      | ok stack =>
        have runs := derives stack less found admitted rfl
        constructor
        · intro plenty
          obtain ⟨q, ran⟩ := runs.ends plenty
          rw [responds, settles stack found admitted, ran]
          exact ⟨_, rfl⟩
        · intro r after ran
          rw [responds, settles stack found admitted] at ran
          obtain ⟨⟨r', mid⟩, ended, same⟩ := Option.map_eq_some_iff.mp ran
          cases same
          exact runs.finds r' mid ended

end Running
end TraitDispatch
