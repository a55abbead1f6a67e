import TraitDispatch.Proofs.Counterparts

/- Two runs that come to the same. Either both end or neither does, and if they do their results,
   the bindings they leave and what they wrote are the same, whatever handles stand for values. -/
namespace TraitDispatch
variable {H : Host} {α α' β β' : Type} {B : Behaviour H} {P : Value → Value → Prop}
  {e : EnvironmentId} {w w' mid after after' last : World H}

/-- Either program ends if the other does. Their results correspond, and so do the worlds. -/
structure Program.Bisimilar (B : Behaviour H) (m : Program H α) (w : World H) (m' : Program H β)
    (w' : World H) (rel : World H → World H → α → β → Prop) (worlds : World H → World H → Prop) :
    Prop where
  follows : ∀ r after, m.Ends B w r after →
    ∃ r' after', m'.Ends B w' r' after' ∧ Concur (rel after after') r r' ∧ worlds after after'
  leads : ∀ r' after', m'.Ends B w' r' after' →
    ∃ r after, m.Ends B w r after ∧ Concur (rel after after') r r' ∧ worlds after after'

namespace Program
variable {m : Program H α} {m' : Program H β} {rel : World H → World H → α → β → Prop}
  {worlds : World H → World H → Prop}

theorem Along.bisimilar {R : α → β → Prop} (programs : Program.Along P e R m m')
    (same : w.Along P e w') :
    m.Bisimilar B w m' w' (fun _ _ => R) fun after after' => after.Along P e after' := by
  have twins : ∀ fuel, Twins P e (Concur R) (m.perform (respond B fuel) w)
      (m'.perform (respond B fuel) w') := fun fuel =>
    run_twins (fun request worlds => respond_twins request worlds) programs same
  constructor
  · rintro r after ⟨fuel, ran⟩
    have here := twins fuel
    rw [ran] at here
    generalize ended : m'.perform (respond B fuel) w' = x at here
    cases here with
    | some both => exact ⟨_, _, ⟨fuel, ended⟩, both⟩
  · rintro r' after' ⟨fuel, ran⟩
    have here := twins fuel
    rw [ran] at here
    generalize ended : m.perform (respond B fuel) w = x at here
    cases here with
    | some both => exact ⟨_, _, ⟨fuel, ended⟩, both⟩

namespace Bisimilar

theorem failed {f f' : Failure} (first : m.Ends B w (.error f) after)
    (second : m'.Ends B w' (.error f') after') (cause : f.cause = f'.cause)
    (tally : worlds after after') : m.Bisimilar B w m' w' rel worlds := by
  constructor
  · intro s last ends
    obtain ⟨rfl, rfl⟩ := ends_unique first ends
    exact ⟨_, _, second, cause, tally⟩
  · intro s last ends
    obtain ⟨rfl, rfl⟩ := ends_unique second ends
    exact ⟨_, _, first, cause, tally⟩

theorem congr {n : Program H α} {n' : Program H β} {v v' : World H}
    (accords : m.Bisimilar B w m' w' rel worlds)
    (same : ∀ r after, n.Ends B v r after ↔ m.Ends B w r after)
    (same' : ∀ r after, n'.Ends B v' r after ↔ m'.Ends B w' r after) :
    n.Bisimilar B v n' v' rel worlds := by
  constructor
  · intro r after ends
    obtain ⟨r', after', ends', related⟩ := accords.follows r after ((same r after).mp ends)
    exact ⟨r', after', (same' r' after').mpr ends', related⟩
  · intro r' after' ends'
    obtain ⟨r, after, ends, related⟩ := accords.leads r' after' ((same' r' after').mp ends')
    exact ⟨r, after, (same r after).mpr ends, related⟩

theorem weaken {rel' : World H → World H → α → β → Prop} {worlds' : World H → World H → Prop}
    (accords : m.Bisimilar B w m' w' rel worlds)
    (weaker : ∀ r after r' after', m.Ends B w r after → Concur (rel after after') r r' →
      worlds after after' → Concur (rel' after after') r r' ∧ worlds' after after') :
    m.Bisimilar B w m' w' rel' worlds' := by
  constructor
  · intro r after ends
    obtain ⟨r', after', ends', same, tally⟩ := accords.follows r after ends
    exact ⟨r', after', ends', weaker r after r' after' ends same tally⟩
  · intro r' after' ends'
    obtain ⟨r, after, ends, same, tally⟩ := accords.leads r' after' ends'
    exact ⟨r, after, ends, weaker r after r' after' ends same tally⟩

theorem bind {f : α → Program H α'} {f' : β → Program H β'}
    {rel' : World H → World H → α' → β' → Prop} {worlds' : World H → World H → Prop}
    (first : m.Bisimilar B w m' w' rel worlds)
    (rest : ∀ a b mid mid', rel mid mid' a b → worlds mid mid' →
      (f a).Bisimilar B mid (f' b) mid' rel' worlds')
    (failed : ∀ mid mid', worlds mid mid' → worlds' mid mid') :
    (m >>= f).Bisimilar B w (m' >>= f') w' rel' worlds' := by
  constructor
  · intro r after ends
    rcases ends.through with ⟨failure, rfl, broken⟩ | ⟨a, mid, begun, ends⟩
    · obtain ⟨r', after', broken', same, tally⟩ := first.follows _ after broken
      cases r' with
      | ok b => exact same.elim
      | error other => exact ⟨_, after', .bind_failed broken', same, failed _ _ tally⟩
    · obtain ⟨r', mid', begun', same, tally⟩ := first.follows _ mid begun
      cases r' with
      | error other => exact same.elim
      | ok b =>
        obtain ⟨s, after', ends', related⟩ := (rest a b mid mid' same tally).follows r after ends
        exact ⟨s, after', .bind begun' ends', related⟩
  · intro r' after' ends'
    rcases ends'.through with ⟨failure, rfl, broken'⟩ | ⟨b, mid', begun', ends'⟩
    · obtain ⟨r, after, broken, same, tally⟩ := first.leads _ after' broken'
      cases r with
      | ok a => exact same.elim
      | error other => exact ⟨_, after, .bind_failed broken, same, failed _ _ tally⟩
    · obtain ⟨r, mid, begun, same, tally⟩ := first.leads _ mid' begun'
      cases r with
      | error other => exact same.elim
      | ok a =>
        obtain ⟨s, after, ends, related⟩ := (rest a b mid mid' same tally).leads r' after' ends'
        exact ⟨s, after, .bind begun ends, related⟩

end Bisimilar
end Program

namespace World

structure Tallies (e : EnvironmentId) (w w' : World H) : Prop where
  bindings : ∀ name, Option.Rel (w.Alike False False w')
    ((w.environment e).lookup name) ((w'.environment e).lookup name)
  output : (w'.environment e).output = (w.environment e).output
  buffers : w'.buffers = w.buffers
  console : w'.console = w.console

theorem Tallies.trans (first : w.Tallies e mid) (second : mid.Tallies e after) :
    w.Tallies e after where
  bindings name := by
    have here := first.bindings name
    have there := second.bindings name
    generalize (w.environment e).lookup name = x at here
    generalize (mid.environment e).lookup name = y at here there
    generalize (after.environment e).lookup name = z at there
    cases here with
    | none =>
      cases there
      exact .none
    | some same =>
      cases there with
      | some same' => exact .some (same.trans same')
  output := second.output.trans first.output
  buffers := second.buffers.trans first.buffers
  console := second.console.trans first.console

theorem Along.tallies (along : w.Along P e w') (housed : w.Houses e) : w.Tallies e w' where
  bindings name := rel_found (along.environment.lookup name) fun v _ found pair =>
    along.alike pair (housed.bound name v found)
  output := along.environment.output
  buffers := along.buffers
  console := along.console

end World
end TraitDispatch
