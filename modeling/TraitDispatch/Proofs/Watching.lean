import TraitDispatch.Proofs.Permanence

/- Runs that are watched. What a program comes to is described for the case that every request put
   in its course, however deeply nested, is one of those that are allowed. -/
namespace TraitDispatch
variable {H : Host} {α β : Type} {B : Behaviour H} {fuel : Nat} {w : World H} {v : Value} {k : Kind}
  {ctx : Context} {allowed : Moment H → Prop}

/-- If all requests that are put in its course are allowed, the program ends in the way described,
    unless it is given up. -/
def Act.EndsIfAllowed (B : Behaviour H) (fuel : Nat) (allowed : Moment H → Prop) (m : Act H α)
    (w : World H) (ends : α → World H → Prop) : Prop :=
  (∀ n ∈ m.history B fuel w, allowed n) →
    ∀ a after, m.run (respond B fuel) w = some (a, after) → ends a after

def Program.EndsIfAllowed (B : Behaviour H) (fuel : Nat) (allowed : Moment H → Prop)
    (m : Program H α) (w : World H) (ends : Except Failure α → World H → Prop) : Prop :=
  m.run.EndsIfAllowed B fuel allowed w ends

namespace Act.EndsIfAllowed
variable {m : Act H α} {ends narrow : α → World H → Prop}

theorem done {a : α} (ended : ends a w) :
    (pure a : Act H α).EndsIfAllowed B fuel allowed w ends := by
  intro _ b after ran
  cases ran
  exact ended

theorem weaken (leads : m.EndsIfAllowed B fuel allowed w narrow)
    (wide : ∀ a after, narrow a after → ends a after) : m.EndsIfAllowed B fuel allowed w ends :=
  fun watched a after ran => wide a after (leads watched a after ran)

theorem bind {f : α → Act H β} {rest : β → World H → Prop}
    (first : m.EndsIfAllowed B fuel allowed w ends)
    (next : ∀ a mid, ends a mid → (f a).EndsIfAllowed B fuel allowed mid rest) :
    (m >>= f).EndsIfAllowed B fuel allowed w rest := by
  intro watched b after ran
  rw [Act.run_bind] at ran
  obtain ⟨⟨a, mid⟩, begun, ended⟩ := Option.bind_eq_some_iff.mp ran
  rw [history_bind begun, List.forall_mem_append] at watched
  exact next a mid (first watched.1 a mid begun) watched.2 b after ended

end Act.EndsIfAllowed

namespace Program.EndsIfAllowed
variable {m : Program H α} {ends narrow : Except Failure α → World H → Prop}

theorem done {a : α} (ended : ends (.ok a) w) :
    (pure a : Program H α).EndsIfAllowed B fuel allowed w ends := Act.EndsIfAllowed.done ended

theorem failed {f : Failure} (ended : ends (.error f) w) :
    (throw f : Program H α).EndsIfAllowed B fuel allowed w ends := Act.EndsIfAllowed.done ended

theorem weaken (leads : m.EndsIfAllowed B fuel allowed w narrow)
    (wide : ∀ r after, narrow r after → ends r after) : m.EndsIfAllowed B fuel allowed w ends :=
  Act.EndsIfAllowed.weaken leads wide

theorem and_ends (leads : m.EndsIfAllowed B fuel allowed w ends) :
    m.EndsIfAllowed B fuel allowed w fun r after => ends r after ∧ m.Ends B w r after :=
  fun watched r after ran => ⟨leads watched r after ran, fuel, ran⟩

theorem bind {f : α → Program H β} {rest : Except Failure β → World H → Prop}
    (first : m.EndsIfAllowed B fuel allowed w ends)
    (next : ∀ a mid, ends (.ok a) mid → (f a).EndsIfAllowed B fuel allowed mid rest)
    (failed : ∀ failure mid, ends (.error failure) mid → rest (.error failure) mid) :
    (m >>= f).EndsIfAllowed B fuel allowed w rest := by
  unfold EndsIfAllowed at *
  rw [ExceptT.run_bind]
  refine Act.EndsIfAllowed.bind first fun r mid ended => ?_
  cases r with
  | ok a => exact next a mid ended
  | error failure => exact Act.EndsIfAllowed.done (failed failure mid ended)

theorem lift {m : Act H α} {ends : α → World H → Prop}
    (leads : m.EndsIfAllowed B fuel allowed w ends) :
    m.lift.EndsIfAllowed B fuel allowed w fun r after => ∃ a, r = .ok a ∧ ends a after := by
  unfold EndsIfAllowed Act.lift
  rw [ExceptT.run_lift, map_eq_pure_bind]
  exact Act.EndsIfAllowed.bind leads fun a after ended => .done ⟨a, rfl, ended⟩

theorem access (a : Access H) :
    (Program.access a).EndsIfAllowed B fuel allowed w fun r after =>
      r = .ok (a.perform w).1 ∧ after = (a.perform w).2 := by
  intro _ r after ran
  change (Program.access a).perform _ _ = _ at ran
  rw [Program.perform_access, respond_access] at ran
  cases ran
  exact ⟨rfl, rfl⟩

theorem location (v : Value) :
    v.location.EndsIfAllowed B fuel allowed w fun r after =>
      r = .ok (w.node v).location ∧ after = w := by
  refine (access (.inspect v)).bind (fun n after found => ?_) fun failure after found => ?_
  · obtain ⟨same, rfl⟩ := found
    cases same
    exact .done ⟨rfl, rfl⟩
  · cases found.1

theorem resolve {key : KeyId} {ends : Except Failure (Option (Payload H)) → World H → Prop}
    (memo : ∀ answer, w.remembered v key = some answer → ends (.ok (some answer)) w)
    (refused : ∀ failure, w.remembered v key = none → ctx.stack.derive v key = .error failure →
      ends (.error failure) w)
    (derives : ∀ stack less, allowed ⟨.resolve v key ctx, w⟩ → w.remembered v key = none →
      ctx.stack.derive v key = .ok stack →
      (deriveAnswer B w v key (ctx.withStack stack)).EndsIfAllowed B less allowed w fun r mid =>
        ends r ((Request.resolve v key ctx).settle r mid)) :
    (Program.resolve v key ctx).EndsIfAllowed B fuel allowed w ends := by
  intro watched r after ran
  change ∀ n ∈ (Act.request (.resolve v key ctx)).history B fuel w, allowed n at watched
  change (Act.request (.resolve v key ctx)).run _ _ = _ at ran
  rw [history_request] at watched
  rw [Act.run_request] at ran
  cases found : w.remembered v key with
  | some answer =>
    obtain ⟨rfl, rfl⟩ := Request.ends_unique ⟨fuel, ran⟩ (.remembered found ctx)
    exact memo answer found
  | none =>
    cases admitted : ctx.stack.derive v key with
    | error failure =>
      obtain ⟨rfl, rfl⟩ := Request.ends_unique ⟨fuel, ran⟩ (.refused found admitted)
      exact refused failure found admitted
    | ok stack =>
      have runs := Request.body?_derived (B := B) found admitted
      cases fuel with
      | zero => cases ran
      | succ less =>
        rw [nested_body runs] at watched
        rw [respond_body runs] at ran
        obtain ⟨⟨r', mid⟩, ended, same⟩ := Option.map_eq_some_iff.mp ran
        cases same
        obtain ⟨here, within⟩ := List.forall_mem_cons.mp watched
        exact derives stack less here found admitted within r' mid ended

end Program.EndsIfAllowed

def CallStack.Grants (s : CallStack) (v : Value) (key : KeyId) (expected : α) :
    Except Failure α → Prop
  | .ok found => found = expected
  | .error failure => s.derive v key = .error failure

theorem resolve_own {key : KeyId} {p : Payload H} (own : (w.node v).own? key = some p)
    (recalls : w.Recalls v key) :
    (Program.resolve v key ctx : Program H _).EndsIfAllowed B fuel allowed w fun r after =>
      (after = w ∨ after = w.remember v key p) ∧
        ctx.stack.Grants v key (some p) r := by
  have standard : (w.node v).standard? key = some p := by rw [Node.standard?, own, Option.some_or]
  refine .resolve (fun answer memo => ?_) (fun failure _ refused => ⟨.inl rfl, refused⟩)
    fun stack less _ _ _ _ r mid ran => ?_
  · exact ⟨.inl rfl, (recalls answer memo).symm.trans standard⟩
  · rw [deriveAnswer_own own] at ran
    cases ran
    exact ⟨.inr rfl, rfl⟩

theorem answer?_own {key : Key k} {x : k.Carrier H} (own : (w.node v).own? key.id = some ⟨k, x⟩)
    (recalls : w.Recalls v key.id) :
    (v.answer? key ctx : Program H _).EndsIfAllowed B fuel allowed w fun r after =>
      (after = w ∨ after = w.remember v key.id ⟨k, x⟩) ∧
        ctx.stack.Grants v key.id (some x) r := by
  refine (resolve_own own recalls).bind (fun found mid ended => ?_) fun failure mid ended => ended
  obtain ⟨later, rfl⟩ := ended
  simp only [Payload.as?_self]
  exact .done ⟨later, rfl⟩

theorem conformsAt_own {key : Key k} {x : k.Carrier H}
    (own : (w.node v).own? key.id = some ⟨k, x⟩) (recalls : w.Recalls v key.id) :
    ((Validation.conformsAt key).check v ctx : Program H _).EndsIfAllowed B fuel allowed w
      fun r _ => ctx.stack.Grants v key.id (some (x, (w.node v).location)) r := by
  have asked : (v.answer? key ctx : Program H _).EndsIfAllowed B fuel allowed w _ :=
    answer?_own own recalls
  refine asked.bind (fun found mid ended => ?_) fun failure mid ended => ended.2
  obtain ⟨later, rfl⟩ := ended
  have located : (v.location : Program H _).EndsIfAllowed B fuel allowed mid _ := .location v
  refine located.bind (fun l mid found => ?_) fun failure mid found => by cases found.1
  obtain ⟨same, rfl⟩ := found
  cases same
  have node : mid.node v = w.node v := by
    rcases later with rfl | rfl
    · rfl
    · exact World.node_remember ..
  rw [node]
  exact .done rfl

theorem answer_admitted {key : Key k} {x : k.Carrier H} {stack : CallStack}
    (own : (w.node v).own? key.id = some ⟨k, x⟩) (blank : w.remembered v key.id = none)
    (admitted : ctx.stack.derive v key.id = .ok stack) (fuel : Nat) :
    (v.answer key ctx).perform (respond B (fuel + 1)) w =
      some (.ok x, w.remember v key.id ⟨k, x⟩) := by
  have derived : (deriveAnswer B w v key.id (ctx.withStack stack)).perform (respond B fuel) w =
      some (.ok (some ⟨k, x⟩), w) := by
    rw [deriveAnswer_own own]
    rfl
  have resolved : (Program.resolve v key.id ctx).perform (respond B (fuel + 1)) w =
      some (.ok (some ⟨k, x⟩), w.remember v key.id ⟨k, x⟩) := by
    refine (Act.run_request _ (.resolve v key.id ctx) w).trans ?_
    simp only [respond, TraitDispatch.resolve, blank, admitted, derived]
  simp only [Value.answer, Value.answer?, Program.perform_bind, resolved, Option.bind_some,
    Payload.as?_self, Program.perform_pure]

end TraitDispatch
