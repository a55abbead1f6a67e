import TraitDispatch.Proofs.Abreast
import TraitDispatch.Proofs.Placeholders

/- Two runs of one program under different limits. As long as the lower limit is not met, the run
   under the higher one does the same: an answer that was found below is found above, since there is
   room for an entry more, and what rules gave earlier was given in both runs. -/
namespace TraitDispatch
variable {H : Host} {α β α' β' : Type} {B : Behaviour H} {e : EnvironmentId}
  {w w' : World H} {v : Value} {k : Kind} {fuel : Nat} {enough : Prop}

/-- Causes that may differ in a rendering within the message. -/
inductive Cause.Kin : Cause → Cause → Prop where
  | same (cause : Cause) : Kin cause cause
  | uncallable (shown other : String) :
      Kin (.custom s!"cannot call {shown} because it is not a function")
        (.custom s!"cannot call {other} because it is not a function")

structure Context.Beside (e : EnvironmentId) (ctx ctx' : Context) : Prop where
  environment : ctx.environment = e
  environment' : ctx'.environment = e
  idle : ctx.stack.active = []
  idle' : ctx'.stack.active = []
  nesting : ctx'.stack.nesting = ctx.stack.nesting
  inside : ctx.stack.Room 0
  roomier : ∀ limit', ctx'.stack.limit = some limit' →
    ∃ limit, ctx.stack.limit = some limit ∧ limit < limit'

namespace Context.Beside
variable {ctx ctx' inner inner' : Context}

theorem room (beside : ctx.Beside e ctx') {entries : Nat} (room : ctx.stack.Room entries) :
    ctx'.stack.Room (entries + 1) := by
  intro limit' chosen'
  obtain ⟨limit, chosen, less⟩ := beside.roomier limit' chosen'
  have fits := room limit chosen
  rw [beside.nesting]
  omega

theorem calm (beside : ctx.Beside e ctx') : ctx.stack.Calm := by
  intro p member
  rw [beside.idle] at member
  cases member

theorem calm' (beside : ctx.Beside e ctx') : ctx'.stack.Calm := by
  intro p member
  rw [beside.idle'] at member
  cases member

theorem standard (beside : ctx.Beside e ctx') (abreast : w.Abreast e w') :
    w.Standard ctx.environment := by
  rw [beside.environment]
  exact abreast.lower.standard

theorem standard' (beside : ctx.Beside e ctx') (abreast : w.Abreast e w') :
    w'.Standard ctx'.environment := by
  rw [beside.environment']
  exact abreast.upper.standard

end Context.Beside

/-- How the lower run ends. If its limit is not met, the upper run ends likewise. -/
inductive Meets (B : Behaviour H) (e : EnvironmentId) (w w' : World H) (m' : Program H α')
    (good : World H → World H → α → α' → Prop) : Except Failure α → World H → Prop where
  | spent {failure : Failure} {after : World H} {limit : Nat}
      (cause : failure.cause = .depthLimit limit) (moves : w.KeepsBearings e after)
      (housed : after.Houses e) : Meets B e w w' m' good (.error failure) after
  | failed {failure failure' : Failure} {after after' : World H}
      (ends : m'.Ends B w' (.error failure') after')
        (advance : w.BothKeepBearings e w' after after')
      (kin : failure.cause.Kin failure'.cause) : Meets B e w w' m' good (.error failure) after
  | ended {a : α} {a' : α'} {after after' : World H} (ends : m'.Ends B w' (.ok a') after')
      (advance : w.BothKeepBearings e w' after after') (holds : good after after' a a') :
      Meets B e w w' m' good (.ok a) after

namespace Program

/-- With the fuel the first program does not go on for ever, if there is enough. While it keeps to
    its limit, so does the second one, and both do the same. -/
def Tandem (B : Behaviour H) (fuel : Nat) (enough : Prop) (e : EnvironmentId) (m : Program H α)
    (m' : Program H α') (w w' : World H) (good : World H → World H → α → α' → Prop) : Prop :=
  m.EndsIf B fuel enough w (Meets B e w w' m' good)

variable {m : Program H α} {m' : Program H α'} {good : World H → World H → α → α' → Prop}

theorem Tandem.done {a : α} {a' : α'} (abreast : w.Abreast e w') (holds : good w w' a a') :
    Tandem B fuel enough e (pure a) (pure a') w w' good :=
  EndsIf.done (.ended (.done a' w') (.same abreast) holds)

theorem Tandem.fail {cause cause' : Cause} {s s' : CallStack} (abreast : w.Abreast e w')
    (kin : cause.Kin cause') :
    Tandem B fuel enough e (fail cause s : Program H α) (fail cause' s' : Program H α') w w'
      good :=
  EndsIf.failed (.failed (.failed _ w') (.same abreast) kin)

theorem Tandem.weaken {better : World H → World H → α → α' → Prop} {less : Prop}
    (tandem : Tandem B fuel enough e m m' w w' better) (fewer : less → enough)
    (weaker : ∀ after after' a a', w.BothKeepBearings e w' after after' → better after after' a a' →
      good after after' a a') : Tandem B fuel less e m m' w w' good := by
  refine EndsIf.weaken tandem fewer fun r after meets => ?_
  cases meets with
  | spent cause moves housed => exact .spent cause moves housed
  | failed ends advance kin => exact .failed ends advance kin
  | ended ends advance holds => exact .ended ends advance (weaker _ _ _ _ advance holds)

theorem Tandem.fewer {less : Prop} (tandem : Tandem B fuel enough e m m' w w' good)
    (fewer : less → enough) : Tandem B fuel less e m m' w w' good :=
  EndsIf.weaken tandem fewer fun _ _ meets => meets

theorem Tandem.bind {f : α → Program H β} {f' : α' → Program H β'}
    {next : World H → World H → β → β' → Prop}
    (first : Tandem B fuel enough e m m' w w' good)
    (rest : ∀ a a' after after', w.BothKeepBearings e w' after after' → good after after' a a' →
      Tandem B fuel enough e (f a) (f' a') after after' next) :
    Tandem B fuel enough e (m >>= f) (m' >>= f') w w' next := by
  refine EndsIf.bind first (fun a mid meets => ?_) fun failure mid meets => ?_
  · cases meets with
    | ended ends advance holds =>
      refine EndsIf.weaken (rest a _ mid _ advance holds) id fun r after later => ?_
      cases later with
      | spent cause moves housed => exact .spent cause (advance.lower.trans moves) housed
      | failed ends' advance' kin => exact .failed (.bind ends ends') (advance.trans advance') kin
      | ended ends' advance' holds' =>
        exact .ended (.bind ends ends') (advance.trans advance') holds'
  · cases meets with
    | spent cause moves housed => exact .spent cause moves housed
    | failed ends advance kin => exact .failed (.bind_failed ends) advance kin

theorem Tandem.keepsControl {p : α → Prop} {p' : α' → Prop} (abreast : w.Abreast e w')
    (lower : m.EndsIf B fuel enough w fun r after => ∃ a, r = .ok a ∧ p a ∧ w.KeepsControl e after)
    (upper : ∃ a' after', m'.Ends B w' (.ok a') after' ∧ p' a' ∧ w'.KeepsControl e after') :
    Tandem B fuel enough e m m' w w' fun _ _ a a' => p a ∧ p' a' := by
  obtain ⟨a', after', ends, holds', idles'⟩ := upper
  refine lower.weaken id fun r after found => ?_
  obtain ⟨a, rfl, holds, idles⟩ := found
  exact .ended ends (.keepsControl abreast idles idles') ⟨holds, holds'⟩

theorem Tandem.create (abreast : w.Abreast e w') {node : Node H}
    (good : (w.create node).2.Both (w'.create node).2 (w.create node).1) :
    Tandem B fuel enough e (create node) (create node) w w' fun after after' v v' =>
      v' = v ∧ after.Both after' v := by
  refine (EndsIf.access (.create node)).weaken id fun r after found => ?_
  obtain ⟨rfl, rfl⟩ := found
  exact .ended (.access (.create node) w') (.create abreast node)
    ⟨congrArg Value.mk abreast.cells, good⟩

theorem Tandem.location (abreast : w.Abreast e w') (v : Value) :
    Tandem B fuel enough e v.location v.location w w' fun _ _ l l' =>
      l = (w.node v).location ∧ l' = (w.node v).location := by
  have lower : v.location.EndsIf B fuel enough w fun r after =>
      ∃ l, r = .ok l ∧ l = (w.node v).location ∧ w.KeepsControl e after := by
    refine (EndsIf.location v).weaken id fun r after found => ?_
    obtain ⟨rfl, rfl⟩ := found
    exact ⟨_, rfl, rfl, (World.LearnsRenderings.same _).keepsControl e⟩
  have ends : v.location.Ends B w' (.ok (w'.node v).location) w' :=
    .bind (.access (.inspect v) w') (.done _ w')
  have upper : ∃ l after', v.location.Ends B w' (.ok l) after' ∧ l = (w.node v).location ∧
      w'.KeepsControl e after' :=
    ⟨_, w', ends, by rw [abreast.node], (World.LearnsRenderings.same w').keepsControl e⟩
  exact .keepsControl abreast lower upper

end Program

section Asking
variable {ctx ctx' : Context} {key : Key k}

theorem answer?_tandem (abreast : w.Abreast e w') (beside : ctx.Beside e ctx')
    (both : w.Both w' v) (regular : key.Regular) (fuelled : enough → ctx.stack.Brief fuel) :
    Program.Tandem B fuel enough e (v.answer? key ctx) (v.answer? key ctx') w w' fun _ _ a a' =>
      a = (w.node v).answer? key ∧ a' = a := by
  obtain ⟨⟨t, bears⟩, ⟨t', bears'⟩⟩ := both
  have lower := asked_answer? bears regular (regular_endsIf (B := B) bears (beside.standard abreast)
    regular.id beside.calm fun plenty => .inl (fuelled plenty))
  have ample : True → ctx'.stack.Brief 2 ∨ 2 ≤ 2 := fun _ => .inr (Nat.le_refl 2)
  have upper := asked_answer? bears' regular (regular_endsIf (B := B) bears'
    (beside.standard' abreast) regular.id beside.calm' ample)
  obtain ⟨r', after', ends, asked'⟩ := upper.ends_with trivial
  refine lower.weaken id fun r after asked => ?_
  cases asked with
  | exhausted recollects spent _ _ _ =>
    have idles := (recollects True).keepsControl e
    exact .spent spent idles.toKeepsBearings (idles.houses abreast.lower)
  | answered consults free =>
    rw [abreast.node] at asked'
    cases asked' with
    | answered consults' _ => exact .ended ends (.consults abreast consults consults') ⟨rfl, rfl⟩
    | exhausted _ _ unknown cramped simple =>
      -- What was found below cannot be out of reach above.
      exfalso
      rw [abreast.node] at simple
      by_cases own : (w.node v).Simple key.id
      · exact simple own (beside.room beside.inside)
      · have bare : (w.node v).find? key.id = none := by
          by_contra found
          exact own (.inl found)
        have bare' : (w'.node v).find? key.id = none := by rw [abreast.node, bare]
        have same := abreast.derived v key.id regular.id
        rw [w.derived_of_find? rfl bare, w'.derived_of_find? rfl bare', unknown] at same
        exact cramped (beside.room (free same.symm))

theorem answer_tandem (abreast : w.Abreast e w') (beside : ctx.Beside e ctx')
    (both : w.Both w' v) (regular : key.Regular) (fuelled : enough → ctx.stack.Brief fuel) :
    Program.Tandem B fuel enough e (v.answer key ctx) (v.answer key ctx') w w' fun _ _ a a' =>
      (w.node v).answer? key = some a ∧ a' = a := by
  refine (answer?_tandem abreast beside both regular fuelled).bind
    fun a a' after after' advance same => ?_
  obtain ⟨found, rfl⟩ := same
  cases a' with
  | some x => exact .done advance.abreast ⟨found.symm, rfl⟩
  | none => exact .fail advance.abreast (.same _)

theorem answers_tandem (abreast : w.Abreast e w') (beside : ctx.Beside e ctx')
    (both : w.Both w' v) (regular : key.Regular) (fuelled : enough → ctx.stack.Brief fuel) :
    Program.Tandem B fuel enough e (v.answers key ctx) (v.answers key ctx') w w' fun _ _ a a' =>
      a' = a := by
  refine (answer?_tandem abreast beside both regular fuelled).bind
    fun a a' after after' advance same => ?_
  obtain ⟨-, rfl⟩ := same
  exact .done advance.abreast rfl

theorem format_learnsRenderings {t : Term} (fuel : Nat) (bears : w.Bears True v t)
    (standard : w.Standard ctx.environment) (calm : ctx.stack.Calm) :
    (v.format ctx).EndsIf B fuel (ctx.stack.Brief fuel ∨ t.depth + 3 ≤ fuel) w
      fun _ after => w.LearnsRenderings True after :=
  (format_endsIf fuel bears standard calm (.inl trivial) (.inl trivial)).weaken
    fun _ _ shown => shown.recollects

theorem format_tandem (abreast : w.Abreast e w') (beside : ctx.Beside e ctx')
    (both : w.Both w' v) (fuelled : enough → ctx.stack.Brief fuel) :
    Program.Tandem B fuel enough e (v.format ctx).lift (v.format ctx').lift w w'
      fun _ _ _ _ => True ∧ True := by
  obtain ⟨⟨t, bears⟩, ⟨t', bears'⟩⟩ := both
  have lower : (v.format ctx).lift.EndsIf B fuel enough w fun r after =>
      ∃ text, r = .ok text ∧ True ∧ w.KeepsControl e after := by
    refine (Program.EndsIf.lift (format_learnsRenderings fuel bears (beside.standard abreast)
      beside.calm)).weaken (fun plenty => .inl (fuelled plenty)) fun r after found => ?_
    obtain ⟨text, rfl, recollects⟩ := found
    exact ⟨text, rfl, trivial, recollects.keepsControl e⟩
  obtain ⟨r', after', ends, text, rfl, recollects⟩ :=
    (Program.EndsIf.lift (format_learnsRenderings (B := B) (t'.depth + 3) bears'
      (beside.standard' abreast) beside.calm')).ends_with (.inr (Nat.le_refl _))
  exact .keepsControl abreast lower ⟨text, after', ends, trivial, recollects.keepsControl e⟩

theorem enter_endsIf {label : Act H String} (location : Option Location) (room : ctx.stack.Room 1)
    (labelled : label.EndsIf B fuel enough w fun _ after => w.LearnsRenderings True after) :
    (ctx.enter label location).EndsIf B fuel enough w fun r after => ∃ inner : Context,
      r = .ok inner ∧ (inner.environment = ctx.environment ∧ ctx.stack.Below inner.stack ∧
        inner.stack.active = ctx.stack.active) ∧ w.KeepsControl e after := by
  have free := CallStack.atLimit_iff.mpr room
  have listed : ∀ text : String,
      (ctx.stack.enter text location).active = ctx.stack.active := by
    intro text
    unfold CallStack.enter
    split <;> rfl
  rw [Context.enter, free, if_neg Bool.false_ne_true]
  split
  · refine (Program.EndsIf.lift labelled).bind
      (fun text mid found => ?_) fun failure mid found => ?_
    · obtain ⟨_, -, recollects⟩ := found
      exact .done ⟨_, rfl, ⟨rfl, CallStack.below_enter _ _ _, listed _⟩, recollects.keepsControl e⟩
    · cases found.choose_spec.1
  · exact .done ⟨_, rfl, ⟨rfl, CallStack.below_enter _ _ _, listed _⟩,
      (World.LearnsRenderings.same w).keepsControl e⟩

theorem enter_tandem {label label' : Act H String} {location location' : Option Location}
    (abreast : w.Abreast e w') (beside : ctx.Beside e ctx')
    (lower : label.EndsIf B fuel enough w fun _ after => w.LearnsRenderings True after)
    (upper : ∃ more, label'.EndsIf B more True w' fun _ after => w'.LearnsRenderings True after) :
    Program.Tandem B fuel enough e (ctx.enter label location) (ctx'.enter label' location') w w'
      fun _ _ inner inner' => inner.Beside e inner' ∧ ctx.stack.Below inner.stack ∧
        ctx.stack.Room 1 := by
  by_cases room : ctx.stack.Room 1
  · obtain ⟨more, labelled'⟩ := upper
    have room' : ctx'.stack.Room 1 := (beside.room room).fewer (by omega)
    obtain ⟨r', after', ends, inner', rfl, entered, idles⟩ :=
      (enter_endsIf (e := e) location' room' labelled').ends_with trivial
    have second : ∃ inner' after', (ctx'.enter label' location').Ends B w' (.ok inner') after' ∧
        (inner'.environment = ctx'.environment ∧ ctx'.stack.Below inner'.stack ∧
          inner'.stack.active = ctx'.stack.active) ∧ w'.KeepsControl e after' :=
      ⟨inner', after', ends, entered, idles⟩
    refine (Program.Tandem.keepsControl abreast (enter_endsIf location room lower) second).weaken id
      fun _ _ inner inner' _ found => ?_
    obtain ⟨⟨environment, below, active⟩, environment', below', active'⟩ := found
    refine ⟨⟨?_, ?_, ?_, ?_, ?_, below.room_iff.mpr room, fun limit' chosen' => ?_⟩, below, room⟩
    · rw [environment, beside.environment]
    · rw [environment', beside.environment']
    · rw [active, beside.idle]
    · rw [active', beside.idle']
    · rw [below.nesting, below'.nesting, beside.nesting]
    · rw [below.limit]
      exact beside.roomier limit' (below'.limit ▸ chosen')
  · have full : ctx.stack.atLimit = true := by
      rw [← Bool.not_eq_false]
      exact fun free => room (CallStack.atLimit_iff.mp free)
    rw [Context.enter, full, if_pos rfl]
    exact Program.EndsIf.failed (.spent rfl (.same e w) abreast.lower)

end Asking
end TraitDispatch
