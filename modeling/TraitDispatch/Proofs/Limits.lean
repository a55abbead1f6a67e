import TraitDispatch.Proofs.Recording
import TraitDispatch.Proofs.Session

/- The same program under different limits of nesting. A higher limit changes nothing but that runs
   go on which met the lower one. Recording takes no entries, but what is rendered for it is
   remembered, and what is remembered takes none: so a program can meet its limit in one mode only,
   and a limit higher by one makes up for that. -/
namespace TraitDispatch
variable {H : Host} {B : Behaviour H} {e : EnvironmentId} {w after : World H}

/-- One limit is no higher than the other. To have none is the highest. -/
def NoHigher : Option Nat → Option Nat → Prop
  | _, none => True
  | none, some _ => False
  | some limit, some limit' => limit ≤ limit'

/-- The run failed since it met its limit. -/
def Exhausted (r : Except Failure Value) : Prop :=
  ∃ failure limit, r = .error failure ∧ failure.cause = .depthLimit limit

/-- Both runs returned values of the same structure, and leave bindings of the same structure; or
    they failed alike, renderings in the message apart. -/
inductive Concurs (e : EnvironmentId) (after after' : World H) :
    Except Failure Value → Except Failure Value → Prop where
  | returned {v v' : Value} (result : after.Alike False False after' v v')
      (bindings : ∀ name, Option.Rel (after.Alike False False after')
        ((after.environment e).lookup name) ((after'.environment e).lookup name)) :
      Concurs e after after' (.ok v) (.ok v')
  | failed {failure failure' : Failure} (kin : failure.cause.Kin failure'.cause) :
      Concurs e after after' (.error failure) (.error failure')

theorem Concurs.returns {after' : World H} {v : Value} (abreast : after.Abreast e after')
    (holds : after.Holds v) : Concurs e after after' (.ok v) (.ok v) := by
  refine .returned (abreast.alike holds) fun name => ?_
  rw [abreast.lookup]
  cases bound : (after.environment e).lookup name with
  | none => exact .none
  | some u => exact .some (abreast.alike (abreast.lower.bound name u bound))

theorem Concurs.exhausted {after' : World H} {r r' : Except Failure Value}
    (concurs : Concurs e after after' r r') (exhausted : Exhausted r') : Exhausted r := by
  obtain ⟨failure', limit, rfl, cause⟩ := exhausted
  cases concurs with
  | failed kin =>
    generalize other : Failure.cause _ = c at kin
    rw [cause] at kin
    cases kin
    exact ⟨_, limit, rfl, other⟩

/-- A run that keeps to its limit does so under every higher one, in either mode of recording. -/
theorem run_concurs {i i' : Interpreter} (housed : w.Houses i.environment)
    (beside : i.context.Beside i.environment i'.context) {program : Value} (holds : w.Holds program)
    {r : Except Failure Value} (ended : (i.run program).Ends B w r after) :
    Exhausted r ∨ ∃ r' after', (i'.run program).Ends B w r' after' ∧
      Concurs i.environment after after' r r' := by
  obtain ⟨fuel, ran⟩ := ended
  have earlier : ∀ less < fuel, Abides B i.environment less := fun less _ => abides less
  have tandem := evaluate_tandem earlier (.same housed) beside id ⟨holds, holds⟩
  cases tandem.finds r after ran with
  | spent cause _ _ => exact .inl ⟨_, _, rfl, cause⟩
  | failed ends _ kin => exact .inr ⟨_, _, ends, .failed kin⟩
  | ended ends advance same =>
    obtain ⟨rfl, both⟩ := same
    exact .inr ⟨_, _, ends, .returns advance.abreast both.lower⟩

theorem run_concurs_same {i : Interpreter} (housed : w.Houses i.environment) {program : Value}
    (holds : w.Holds program) {r : Except Failure Value}
    (ended : (i.run program).Ends B w r after) : Concurs i.environment after after r r := by
  cases r with
  | error failure => exact .failed (.same failure.cause)
  | ok v =>
    have answered : (i.answer (.run program)).Ends B w (.ok (.value v)) after :=
      .bind ended (.done _ after)
    obtain ⟨-, housed', gains⟩ := answered_keepsBearings housed (by simpa [Call.values] using holds)
      answered
    exact .returns (.same housed') (gains v (List.mem_singleton_self v))

theorem run_ends {i : Interpreter} {limit : Nat} (limited : i.config.limit = some limit)
    (housed : w.Houses i.environment) {program : Value} (holds : w.Holds program) :
    ∃ r after, (i.run program).Ends B w r after := by
  have earlier : ∀ less < limit + 1, Abides B i.environment less := fun less _ => abides less
  have tandem := evaluate_tandem earlier (.same housed) i.beside_unlimited id ⟨holds, holds⟩
  obtain ⟨⟨r, after⟩, ran⟩ := tandem.ends (Interpreter.brief limited)
  exact ⟨r, after, limit + 1, ran⟩

section Raising
variable {bindings : List (String × Value)} {program : Value} {t : Term}
  (bound : ∀ b ∈ bindings, ∃ t : Term, t.known ∧ w.Spells True b.2 t) (known : t.known)
  (fresh : w.Spells True program t)
include bound known fresh

theorem built_for (output : Option Output) :
    ∃ e ready, (∀ config, (Interpreter.build config output bindings).Ends B w
      (.ok ⟨e, config⟩) ready) ∧ ready.Houses e ∧ ready.Holds program := by
  have each : ∀ b ∈ bindings, w.Holds b.2 := fun b member => by
    obtain ⟨t, known, spells⟩ := bound b member
    exact ⟨t, .of_fresh spells known⟩
  obtain ⟨ready, builds, moves, housed⟩ := build_houses (B := B) bindings each output
  exact ⟨_, ready, builds, housed, t, moves.bears _ _ (.of_fresh fresh known)⟩

/-- Raising the limit is safe: a run that does not meet the lower one ends the same way under the
    higher one. -/
theorem raised_limit_concurs {limit limit' : Option Nat} (raised : NoHigher limit limit')
    (record : Bool) (output : Option Output) :
    ∃ (i i' : Interpreter) (ready : World H),
      (Interpreter.build ⟨limit, record⟩ output bindings).Ends B w (.ok i) ready ∧
      (Interpreter.build ⟨limit', record⟩ output bindings).Ends B w (.ok i') ready ∧
      ∀ r after, (i.run program).Ends B ready r after → ¬ Exhausted r →
        ∃ r' after', (i'.run program).Ends B ready r' after' ∧
          Concurs i.environment after after' r r' := by
  obtain ⟨e, ready, builds, housed, holds⟩ := built_for (B := B) bound known fresh output
  refine ⟨_, _, ready, builds _, builds _, fun r after ended kept => ?_⟩
  by_cases same : limit = limit'
  · subst same
    exact ⟨r, after, ended, run_concurs_same housed holds ended⟩
  · have roomier : ∀ most', limit' = some most' → ∃ most, limit = some most ∧ most < most' := by
      rintro most' rfl
      cases limit with
      | none => exact raised.elim
      | some most =>
        exact ⟨most, rfl, Nat.lt_of_le_of_ne raised fun eq => same (congrArg some eq)⟩
    have beside := Interpreter.beside ⟨e, ⟨limit, record⟩⟩ ⟨e, ⟨limit', record⟩⟩ rfl roomier
    exact (run_concurs housed beside holds ended).resolve_left kept

end Raising

/-- The display of a quoted name returns under a limit, and so it does without one. -/
theorem quoting_display_raised :
    ∃ (i i' : Interpreter) (ready after after' : World Host.unit) (v : Value)
      (r' : Except Failure Value),
      (Interpreter.build ⟨some 12, true⟩ (some (.capture 0)) [("y", ⟨1⟩)]).Ends inert quotingStart
        (.ok i) ready ∧
      (Interpreter.build ⟨none, true⟩ (some (.capture 0)) [("y", ⟨1⟩)]).Ends inert quotingStart
        (.ok i') ready ∧
      (i.run ⟨3⟩).Ends inert ready (.ok v) after ∧ (i'.run ⟨3⟩).Ends inert ready r' after' ∧
      Concurs i.environment after after' (.ok v) r' := by
  obtain ⟨quote, program⟩ := quotingStart_spells
  have bound : ∀ b ∈ [("y", (⟨1⟩ : Value))], ∃ t : Term, t.known ∧
      quotingStart.Spells True b.2 t := by
    simpa using ⟨_, rfl, quote⟩
  have raised : NoHigher (some 12) none := trivial
  obtain ⟨i, i', ready, built, built', concurs⟩ := raised_limit_concurs (B := inert) bound rfl
    program raised true (some (.capture 0))
  obtain ⟨v, last, ran⟩ : ∃ v last, (do
      let i ← Interpreter.build ⟨some 12, true⟩ (some (.capture 0)) [("y", ⟨1⟩)]
      i.run ⟨3⟩).Ends inert quotingStart (.ok v) last := ⟨_, _, 13, rfl⟩
  obtain ⟨_, _, begun, returned⟩ := ran.split
  obtain ⟨same, rfl⟩ := Program.ends_unique begun built
  cases same
  obtain ⟨r', after', ends, holds⟩ := concurs _ _ returned fun ⟨_, _, failed, _⟩ => nomatch failed
  exact ⟨_, i', _, _, after', v, r', built, built', returned, ends, holds⟩

section Recording
variable {bindings : List (String × Value)} {program : Value} {t : Term}
  (bound : ∀ b ∈ bindings, ∃ t : Term, t.known ∧ w.Spells True b.2 t) (known : t.known)
  (fresh : w.Spells True program t)
include bound known fresh

/-- The modes of recording differ by one entry at most: where a run meets a limit in one mode, it
    meets every lower one in the other. And if it does not meet the lower one it ends the same
    way. -/
theorem recording_costs_an_entry {limit limit' : Nat} (lower : limit < limit')
    (record record' : Bool) (output : Option Output) :
    ∃ (i i' : Interpreter) (ready after after' : World H) (r r' : Except Failure Value),
      (Interpreter.build ⟨some limit, record⟩ output bindings).Ends B w (.ok i) ready ∧
      (Interpreter.build ⟨some limit', record'⟩ output bindings).Ends B w (.ok i') ready ∧
      (i.run program).Ends B ready r after ∧ (i'.run program).Ends B ready r' after' ∧
      (Exhausted r' → Exhausted r) ∧
      (¬ Exhausted r → Concurs i.environment after after' r r') := by
  obtain ⟨e, ready, builds, housed, holds⟩ := built_for (B := B) bound known fresh output
  obtain ⟨r, after, ended⟩ := run_ends (B := B) (i := ⟨e, ⟨some limit, record⟩⟩) rfl housed holds
  obtain ⟨r', after', ended'⟩ :=
    run_ends (B := B) (i := ⟨e, ⟨some limit', record'⟩⟩) rfl housed holds
  have roomier : ∀ most', some limit' = some most' →
      ∃ most, some limit = some most ∧ most < most' := by
    rintro most' ⟨⟩
    exact ⟨limit, rfl, lower⟩
  have beside := Interpreter.beside ⟨e, ⟨some limit, record⟩⟩ ⟨e, ⟨some limit', record'⟩⟩ rfl
    roomier
  refine ⟨_, _, ready, after, after', r, r', builds _, builds _, ended, ended', ?_⟩
  rcases run_concurs housed beside holds ended with exhausted | ⟨other, last, ends, concurs⟩
  · exact ⟨fun _ => exhausted, fun kept => absurd exhausted kept⟩
  · obtain ⟨rfl, rfl⟩ := Program.ends_unique ends ended'
    exact ⟨concurs.exhausted, fun _ => concurs⟩

end Recording

def blockWorld : World Host.unit :=
  { World.initial () with cells := #[⟨.single Key.block ⟨[]⟩ none, []⟩] }

theorem block_spells : blockWorld.Spells True ⟨0⟩ (.block [] none) :=
  .of_read 4 rfl

/-- With an entry more the block is evaluated in either mode. -/
theorem block_unrecorded_higher :
    ∃ (i i' : Interpreter) (ready after after' : World Host.unit) (r r' : Except Failure Value),
      (Interpreter.build ⟨some 2, true⟩ none []).Ends inert blockWorld (.ok i) ready ∧
      (Interpreter.build ⟨some 3, false⟩ none []).Ends inert blockWorld (.ok i') ready ∧
      (i.run ⟨0⟩).Ends inert ready r after ∧ (i'.run ⟨0⟩).Ends inert ready r' after' ∧
      (Exhausted r' → Exhausted r) ∧
      (¬ Exhausted r → Concurs i.environment after after' r r') :=
  recording_costs_an_entry (by simp) rfl block_spells (Nat.lt_succ_self 2) true false none

/-- With recording the block is rendered before it is asked for its evaluator, and remembers by then
    that it is one. Without it there is an entry too few. -/
theorem unrecorded_block_exhausted :
    ∃ (i i' : Interpreter) (ready after after' : World Host.unit) (v : Value) (failure : Failure),
      blockWorld.Spells True ⟨0⟩ (.block [] none) ∧
      (Interpreter.build ⟨some 2, true⟩ none []).Ends inert blockWorld (.ok i) ready ∧
      (Interpreter.build ⟨some 2, false⟩ none []).Ends inert blockWorld (.ok i') ready ∧
      (i.run ⟨0⟩).Ends inert ready (.ok v) after ∧
      (i'.run ⟨0⟩).Ends inert ready (.error failure) after' ∧ failure.cause = .depthLimit 2 :=
  ⟨_, _, _, _, _, _, _, block_spells, ⟨9, rfl⟩, ⟨9, rfl⟩, ⟨9, rfl⟩, ⟨9, rfl⟩, rfl⟩

end TraitDispatch
