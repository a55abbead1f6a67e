import TraitDispatch.Proofs.History

/- What is agreed on for requests: in which worlds they may be put, and what holds of their answers.
   A program keeps to a contract if it puts no requests but those that may be put, whatever it is
   answered. If the bodies that answer requests keep to it as well, then so does every run, down to
   the last request that is put on its way. -/
namespace TraitDispatch
variable {H : Host} {α β : Type} {B : Behaviour H}

structure Contract (H : Host) where
  pre : Request H → World H → Prop
  post : (r : Request H) → World H → r.Answer → World H → Prop

def Act.Satisfies (C : Contract H) : Act H α → World H → (α → World H → Prop) → Prop
  | .done a, w, p => p a w
  | .ask request next, w, p =>
    C.pre request w ∧ ∀ answer after, C.post request w answer after →
      (next answer).Satisfies C after p

def Program.Satisfies (C : Contract H) (m : Program H α) (w : World H)
    (p : Except Failure α → World H → Prop) : Prop := Act.Satisfies C m.run w p

/-- Answers are as agreed, whether they are given at once or by a body. Bodies are only run for
    moments that are seen, and for a body it is enough to consider answers that the request comes
    to. -/
structure Contract.Kept (C : Contract H) (B : Behaviour H) (seen : Moment H → Prop) : Prop where
  at_once : ∀ r w a after, C.pre r w → r.body? B w = none → r.Ends B w a after →
    C.post r w a after
  runs : ∀ r w body, C.pre r w → seen ⟨r, w⟩ → r.body? B w = some body →
    body.Satisfies C w fun a mid => r.Ends B w a (r.settle a mid) → C.post r w a (r.settle a mid)

variable {C : Contract H} {w : World H}

namespace Act
variable {m : Act H α} {p q : α → World H → Prop}

theorem Satisfies.done {a : α} (holds : p a w) : (pure a : Act H α).Satisfies C w p := holds

theorem Satisfies.request {r : Request H} {p : r.Answer → World H → Prop} (due : C.pre r w)
    (answers : ∀ a after, C.post r w a after → p a after) : (request r).Satisfies C w p :=
  ⟨due, answers⟩

theorem Satisfies.weaken (heeds : m.Satisfies C w p) (weaker : ∀ a after, p a after → q a after) :
    m.Satisfies C w q := by
  induction m generalizing w with
  | done a => exact weaker a w heeds
  | ask request next ih =>
    exact ⟨heeds.1, fun answer after agreed => ih answer (heeds.2 answer after agreed)⟩

theorem Satisfies.bind {f : α → Act H β} {q : β → World H → Prop} (first : m.Satisfies C w p)
    (rest : ∀ a after, p a after → (f a).Satisfies C after q) : (m >>= f).Satisfies C w q := by
  change (m.bind f).Satisfies C w q
  induction m generalizing w with
  | done a => exact rest a w first
  | ask request next ih =>
    exact ⟨first.1, fun answer after agreed => ih answer (first.2 answer after agreed)⟩

end Act

namespace Program
variable {m : Program H α} {p q : Except Failure α → World H → Prop}

theorem Satisfies.done {a : α} (holds : p (.ok a) w) :
    (pure a : Program H α).Satisfies C w p := holds

theorem Satisfies.failed {f : Failure} (holds : p (.error f) w) :
    (throw f : Program H α).Satisfies C w p := holds

theorem Satisfies.weaken (heeds : m.Satisfies C w p) (weaker : ∀ r after, p r after → q r after) :
    m.Satisfies C w q := Act.Satisfies.weaken heeds weaker

theorem Satisfies.bind {f : α → Program H β} {q : Except Failure β → World H → Prop}
    (first : m.Satisfies C w p) (rest : ∀ a after, p (.ok a) after → (f a).Satisfies C after q)
    (failed : ∀ failure after, p (.error failure) after → q (.error failure) after) :
    (m >>= f).Satisfies C w q := by
  unfold Satisfies at *
  rw [ExceptT.run_bind]
  refine first.bind fun r after holds => ?_
  cases r with
  | ok a => exact rest a after holds
  | error failure => exact Act.Satisfies.done (failed failure after holds)

theorem Satisfies.lift {m : Act H α} {q : α → World H → Prop} (heeds : m.Satisfies C w q) :
    m.lift.Satisfies C w fun r after => ∃ a, r = .ok a ∧ q a after := by
  unfold Satisfies Act.lift
  rw [ExceptT.run_lift, map_eq_pure_bind]
  exact heeds.bind fun a after holds => Act.Satisfies.done ⟨a, rfl, holds⟩

end Program

/-- What a run comes to with so much fuel is as agreed, and so is every request on its way, if this
    is so of single requests. -/
theorem satisfies_run {seen : Moment H → Prop} {fuel : Nat}
    (each : ∀ (r : Request H) (w : World H), C.pre r w → seen ⟨r, w⟩ →
      (∀ n ∈ nested B fuel r w, seen n) → (∀ n ∈ nested B fuel r w, C.pre n.request n.world) ∧
        ∀ a after, respond B fuel r w = some (a, after) → C.post r w a after)
    {m : Act H α} {p : α → World H → Prop} (heeds : m.Satisfies C w p)
    (watched : ∀ n ∈ m.history B fuel w, seen n) :
    (∀ n ∈ m.history B fuel w, C.pre n.request n.world) ∧
      ∀ a after, m.run (respond B fuel) w = some (a, after) → p a after := by
  induction m generalizing w with
  | done a =>
    refine ⟨List.forall_mem_nil _, fun b after ran => ?_⟩
    cases ran
    exact heeds
  | ask r next ih =>
    obtain ⟨due, rest⟩ := heeds
    rw [history_ask] at watched ⊢
    simp only [List.cons_append, List.forall_mem_cons, List.forall_mem_append] at watched ⊢
    obtain ⟨here, within, later⟩ := watched
    obtain ⟨inner, answers⟩ := each r w due here within
    simp only [Act.run]
    cases answered : respond B fuel r w with
    | none =>
      refine ⟨⟨due, inner, List.forall_mem_nil _⟩, fun a after ran => ?_⟩
      cases ran
    | some q =>
      obtain ⟨a, mid⟩ := q
      rw [answered] at later
      obtain ⟨following, ends⟩ := ih a (rest a mid (answers a mid answered)) later
      exact ⟨⟨due, inner, following⟩, ends⟩

namespace Contract.Kept
variable {seen : Moment H → Prop} (kept : C.Kept B seen)
include kept

theorem request (fuel : Nat) (r : Request H) (w : World H) (due : C.pre r w) (here : seen ⟨r, w⟩)
    (within : ∀ n ∈ nested B fuel r w, seen n) :
    (∀ n ∈ nested B fuel r w, C.pre n.request n.world) ∧
      ∀ a after, respond B fuel r w = some (a, after) → C.post r w a after := by
  induction fuel generalizing r w with
  | zero =>
    refine ⟨List.forall_mem_nil _, fun a after answered => ?_⟩
    cases r with
    | access access => exact kept.at_once _ w a after due rfl ⟨0, answered⟩
    | _ => cases answered
  | succ fuel ih =>
    cases runs : r.body? B w with
    | none =>
      rw [nested_at_once runs]
      exact ⟨List.forall_mem_nil _, fun a after answered =>
        kept.at_once r w a after due runs ⟨_, answered⟩⟩
    | some body =>
      rw [nested_body runs] at within ⊢
      obtain ⟨inner, ends⟩ := satisfies_run ih (kept.runs r w body due here runs) within
      refine ⟨inner, fun a after answered => ?_⟩
      have settled := answered
      rw [respond_body runs] at settled
      obtain ⟨⟨a', mid⟩, ran, same⟩ := Option.map_eq_some_iff.mp settled
      cases same
      exact ends a' mid ran ⟨_, answered⟩

/-- Whatever comes of a program that keeps to the contract is as agreed. So is every request on its
    way, whether it comes to an end or not. -/
theorem sound {m : Act H α} {p : α → World H → Prop} (heeds : m.Satisfies C w p) (fuel : Nat)
    (watched : ∀ n ∈ m.history B fuel w, seen n) :
    (∀ n ∈ m.history B fuel w, C.pre n.request n.world) ∧
      ∀ a after, m.run (respond B fuel) w = some (a, after) → p a after :=
  satisfies_run (kept.request fuel) heeds watched

end Contract.Kept

theorem Request.Ends.body {r : Request H} {a : r.Answer} {after : World H} {body : Act H r.Answer}
    (ends : r.Ends B w a after) (runs : r.body? B w = some body) :
    ∃ mid, body.Ends B w a mid ∧ after = r.settle a mid := by
  obtain ⟨fuel, answered⟩ := ends
  cases fuel with
  | zero =>
    cases r with
    | access access => cases runs
    | _ => cases answered
  | succ fuel =>
    rw [respond_body runs] at answered
    obtain ⟨⟨b, mid⟩, ran, same⟩ := Option.map_eq_some_iff.mp answered
    cases same
    exact ⟨mid, ⟨fuel, ran⟩, rfl⟩

/-- No run leads out of the relation: accesses keep to it, and so does remembering an answer at the
    end of a derivation. -/
structure World.Enduring (B : Behaviour H) (R : World H → World H → Prop) : Prop where
  same : ∀ w, R w w
  trans : ∀ {w mid after}, R w mid → R mid after → R w after
  perform : ∀ (a : Access H) w, R w (a.perform w).2
  remember : ∀ {v key ctx answer w mid after}, (Request.resolve v key ctx).body? B w ≠ none →
    (Request.resolve v key ctx).Ends B w (.ok (some answer)) after → R w mid →
    R w (mid.remember v key answer)

namespace World.Enduring
variable {R : World H → World H → Prop} (enduring : World.Enduring B R)
include enduring

theorem satisfies {start : World H} (begun : R start w) (m : Act H α) :
    m.Satisfies ⟨fun _ w => R start w, fun _ w _ after => R w after⟩ w
      fun _ after => R w after := by
  induction m generalizing w with
  | done a => exact enduring.same w
  | ask request next ih =>
    refine ⟨begun, fun answer mid goes => ?_⟩
    exact (ih answer (enduring.trans begun goes)).weaken fun _ _ later => enduring.trans goes later

theorem kept (start : World H) :
    Contract.Kept ⟨fun _ w => R start w, fun _ w _ after => R w after⟩ B fun _ => True where
  at_once r w a after _ quick ends := by
    cases ends.at_once quick with
    | access a => exact enduring.perform a w
    | remembered | refused => exact enduring.same w
  runs r w body begun _ runs := by
    refine (enduring.satisfies begun body).weaken fun a mid goes ends => ?_
    cases r with
    | resolve v key ctx =>
      match a with
      | .error failure => exact goes
      | .ok none => exact goes
      | .ok (some answer) => exact enduring.remember (by simp [runs]) ends goes
    | _ => exact goes

theorem request {fuel : Nat} {r : Request H} {a : r.Answer} {after : World H}
    (answered : respond B fuel r w = some (a, after)) : R w after :=
  ((enduring.kept w).request fuel r w (enduring.same w) trivial fun _ _ => trivial).2
    a after answered

theorem run {fuel : Nat} {m : Act H α} {a : α} {after : World H}
    (ran : m.run (respond B fuel) w = some (a, after)) : R w after :=
  ((enduring.kept w).sound (enduring.satisfies (enduring.same w) m) fuel fun _ _ =>
    trivial).2 a after ran

/-- So it is at every moment of a run, be it one that does not end. -/
theorem history {fuel : Nat} {m : Act H α} {n : Moment H} (put : n ∈ m.history B fuel w) :
    R w n.world :=
  ((enduring.kept w).sound (enduring.satisfies (enduring.same w) m) fuel fun _ _ => trivial).1 n put

end World.Enduring
end TraitDispatch
