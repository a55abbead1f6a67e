import TraitDispatch.Dispatch

/- Which stacks a program hands on. A stack descends from another by entering, by queueing a
   location and by ceasing to record; only the dispatch itself lists a derivation. Programs of the
   standard rules hand on no other stacks than those that descend from the one they are given. -/
namespace TraitDispatch
variable {H : Host} {α β : Type}

inductive CallStack.Descends (s : CallStack) : CallStack → Prop where
  | same : Descends s s
  | quiet {t : CallStack} (from_s : Descends s t) : Descends s t.withoutRecording
  | queued {t : CallStack} (from_s : Descends s t) (location : Location) :
      Descends s (t.queue location)
  | entered {t : CallStack} (from_s : Descends s t) (label : String) (location : Option Location) :
      Descends s (t.enter label location)

theorem active_enter (s : CallStack) (label : String) (location : Option Location) :
    (s.enter label location).active = s.active := by
  unfold CallStack.enter
  split <;> rfl

theorem limit_enter (s : CallStack) (label : String) (location : Option Location) :
    (s.enter label location).limit = s.limit := by
  unfold CallStack.enter
  split <;> rfl

theorem derived_unlimited {s inner : CallStack} (unlimited : s.limit = none) {v : Value}
    {key : KeyId} (admitted : s.derive v key = .ok inner) :
    ⟨v, key.index⟩ ∉ s.active ∧ inner.limit = none ∧
      inner.active = ⟨v, key.index⟩ :: s.active := by
  obtain ⟨idle, -, rfl⟩ := CallStack.derive_eq_ok_iff.mp admitted
  exact ⟨idle, (limit_enter s _ _).trans unlimited, rfl⟩

theorem derive_unlimited {s : CallStack} (unlimited : s.limit = none) {v : Value} {key : KeyId}
    (idle : ⟨v, key.index⟩ ∉ s.active) :
    ∃ inner, s.derive v key = .ok inner ∧ inner.limit = none ∧
      inner.active = ⟨v, key.index⟩ :: s.active := by
  have admitted := CallStack.derive_eq_ok_iff.mpr
    ⟨idle, by simp [CallStack.atLimit, unlimited], rfl⟩
  exact ⟨_, admitted, (derived_unlimited unlimited admitted).2⟩

/-- A stack with nothing in progress and no limit. -/
structure CallStack.Open (s : CallStack) : Prop where
  idle : s.active = []
  unlimited : s.limit = none

theorem active_of_descends {s t : CallStack} (from_s : s.Descends t) : t.active = s.active := by
  induction from_s with
  | same => rfl
  | quiet _ ih => exact ih
  | queued _ _ ih => exact ih
  | entered _ label location ih => rw [active_enter, ih]

/-- The stack that a request is made with. Accesses to the world have none. -/
def Request.stack? : Request H → Option CallStack
  | .resolve _ _ ctx | .call _ _ ctx | .evaluate _ ctx | .expand _ _ _ ctx | .assign _ _ ctx =>
    some ctx.stack
  | .access _ => none

/-- Whatever the answers are, each stack handed on satisfies `given`. -/
def Act.HandsOn (given : CallStack → Prop) : Act H α → Prop
  | .done _ => True
  | .ask request next =>
    (∀ s, request.stack? = some s → given s) ∧ ∀ answer, (next answer).HandsOn given

def Program.HandsOn (given : CallStack → Prop) (m : Program H α) : Prop := Act.HandsOn given m.run

/-- Every code of the embedding program hands on only stacks that descend from its own. -/
structure Behaviour.HandsOn (B : Behaviour H) : Prop where
  realize : ∀ k code v ctx, (B.realize k code v ctx).HandsOn ctx.stack.Descends
  check : ∀ k code v ctx, ((B.infer k code).validation.check v ctx).HandsOn ctx.stack.Descends
  derive : ∀ k code source ctx, ((B.infer k code).derive source ctx).HandsOn ctx.stack.Descends
  call : ∀ code v ctx, (B.call code v ctx).HandsOn ctx.stack.Descends
  evaluate : ∀ code ctx, (B.evaluate code ctx).HandsOn ctx.stack.Descends
  expand : ∀ code parameter replacement ctx,
    (B.expand code parameter replacement ctx).HandsOn ctx.stack.Descends
  assign : ∀ code v ctx, (B.assign code v ctx).HandsOn ctx.stack.Descends

variable {given wider : CallStack → Prop}

theorem Act.HandsOn.weaken {m : Act H α} (hands : m.HandsOn given)
    (wide : ∀ s, given s → wider s) : m.HandsOn wider := by
  induction m with
  | done a => trivial
  | ask request next ih =>
    exact ⟨fun s made => wide s (hands.1 s made), fun answer => ih answer (hands.2 answer)⟩

theorem Act.HandsOn.bind {m : Act H α} {f : α → Act H β} (first : m.HandsOn given)
    (rest : ∀ a, (f a).HandsOn given) : (m >>= f).HandsOn given := by
  change (m.bind f).HandsOn given
  induction m with
  | done a => exact rest a
  | ask request next ih => exact ⟨first.1, fun answer => ih answer (first.2 answer)⟩

theorem Act.handsOn_pure (a : α) : (pure a : Act H α).HandsOn given := trivial

theorem Act.handsOn_mapM {f : β → Act H α} (each : ∀ b, (f b).HandsOn given) (bs : List β) :
    (bs.mapM f).HandsOn given := by
  induction bs with
  | nil => exact handsOn_pure []
  | cons b bs ih =>
    rw [List.mapM_cons]
    exact (each b).bind fun c => ih.bind fun cs => handsOn_pure (c :: cs)

namespace Program

theorem handsOn_pure (a : α) : (pure a : Program H α).HandsOn given := trivial

theorem handsOn_throw (f : Failure) : (throw f : Program H α).HandsOn given := trivial

theorem handsOn_fail (cause : Cause) (s : CallStack) :
    (fail cause s : Program H α).HandsOn given := trivial

theorem HandsOn.bind {m : Program H α} {f : α → Program H β} (first : m.HandsOn given)
    (rest : ∀ a, (f a).HandsOn given) : (m >>= f).HandsOn given := by
  unfold HandsOn at *
  rw [ExceptT.run_bind]
  refine first.bind fun r => ?_
  cases r with
  | ok a => exact rest a
  | error failure => exact Act.handsOn_pure _

theorem handsOn_lift {m : Act H α} (hands : m.HandsOn given) : m.lift.HandsOn given := by
  unfold HandsOn Act.lift
  rw [ExceptT.run_lift, map_eq_pure_bind]
  exact hands.bind fun a => Act.handsOn_pure _

theorem handsOn_run {m : Program H α} (hands : m.HandsOn given) : m.run.HandsOn given := hands

theorem handsOn_access (a : Access H) : (access a).HandsOn given :=
  handsOn_lift ⟨by simp [Request.stack?], fun _ => trivial⟩

theorem handsOn_resolve {v : Value} {key : KeyId} {ctx : Context} (own : given ctx.stack) :
    (resolve v key ctx : Program H _).HandsOn given :=
  ⟨by rintro s ⟨⟩; exact own, fun _ => trivial⟩

theorem handsOn_call {f : Function H.Code} {argument : Value} {ctx : Context}
    (own : given ctx.stack) : (call f argument ctx).HandsOn given :=
  ⟨by rintro s ⟨⟩; exact own, fun _ => trivial⟩

theorem handsOn_evaluate {f : Evaluator H.Code} {ctx : Context} (own : given ctx.stack) :
    (evaluate f ctx).HandsOn given :=
  ⟨by rintro s ⟨⟩; exact own, fun _ => trivial⟩

theorem handsOn_expand {f : Expander H.Code} {parameter replacement : Value} {ctx : Context}
    (own : given ctx.stack) : (expand f parameter replacement ctx).HandsOn given :=
  ⟨by rintro s ⟨⟩; exact own, fun _ => trivial⟩

theorem handsOn_assign {f : Assigner H.Code} {value : Value} {ctx : Context}
    (own : given ctx.stack) : (assign f value ctx).HandsOn given :=
  ⟨by rintro s ⟨⟩; exact own, fun _ => trivial⟩

theorem handsOn_mapM {f : β → Program H α} (each : ∀ b, (f b).HandsOn given) (bs : List β) :
    (bs.mapM f).HandsOn given := by
  induction bs with
  | nil => exact handsOn_pure []
  | cons b bs ih =>
    rw [List.mapM_cons]
    exact (each b).bind fun c => ih.bind fun cs => handsOn_pure (c :: cs)

end Program

section Standard
variable {s : CallStack} {ctx : Context} {k : Kind}

theorem Value.handsOn_answer? (v : Value) (key : Key k) (own : s.Descends ctx.stack) :
    (v.answer? key ctx : Program H _).HandsOn s.Descends := by
  refine (Program.handsOn_resolve own).bind fun found => ?_
  cases found with
  | none => exact Program.handsOn_pure _
  | some payload =>
    dsimp only
    cases payload.as? k with
    | none => exact Program.handsOn_throw _
    | some content => exact Program.handsOn_pure _

theorem Value.handsOn_answer (v : Value) (key : Key k) (own : s.Descends ctx.stack) :
    (v.answer key ctx : Program H _).HandsOn s.Descends := by
  refine (v.handsOn_answer? key own).bind fun found => ?_
  cases found with
  | none => exact Program.handsOn_fail _ _
  | some content => exact Program.handsOn_pure _

theorem Value.handsOn_answers (v : Value) (key : Key k) (own : s.Descends ctx.stack) :
    (v.answers key ctx : Program H _).HandsOn s.Descends :=
  (v.handsOn_answer? key own).bind fun _ => Program.handsOn_pure _

theorem Value.handsOn_location (v : Value) : (v.location : Program H _).HandsOn s.Descends :=
  (Program.handsOn_access _).bind fun _ => Program.handsOn_pure _

theorem Value.handsOn_format (v : Value) (own : s.Descends ctx.stack) :
    (v.format ctx : Act H _).HandsOn s.Descends := by
  refine (Program.handsOn_run (v.handsOn_answer? Key.text (.quiet own))).bind fun r => ?_
  rcases r with _ | _ | _ <;> exact Act.handsOn_pure _

theorem Context.handsOn_enter {α : Type} {label : Act H String} {location : Option Location}
    {f : Context → Program H α} (own : s.Descends ctx.stack) (labelled : label.HandsOn s.Descends)
    (rest : ∀ inner : Context, s.Descends inner.stack → (f inner).HandsOn s.Descends) :
    (ctx.enter label location >>= f).HandsOn s.Descends := by
  unfold Context.enter
  split
  · exact Program.handsOn_throw (α := α) ctx.stack.limitFailure
  · split
    · rw [bind_assoc]
      exact (Program.handsOn_lift labelled).bind fun text => rest _ (.entered own text location)
    · exact rest _ (.entered own "" location)

theorem Value.handsOn_label (v : Value) (verb : String) (own : s.Descends ctx.stack) :
    (do return s!"{verb} {← v.format ctx}" : Act H String).HandsOn s.Descends :=
  (v.handsOn_format own).bind fun _ => Act.handsOn_pure _

theorem Value.handsOn_evaluate (v : Value) (own : s.Descends ctx.stack) :
    (v.evaluate ctx : Program H _).HandsOn s.Descends := by
  refine v.handsOn_location.bind fun location => ?_
  refine Context.handsOn_enter own (v.handsOn_label "evaluating" own) fun inner below => ?_
  exact (v.handsOn_answer Key.evaluate below).bind fun _ => Program.handsOn_evaluate below

theorem Value.handsOn_expand (v parameter replacement : Value) (own : s.Descends ctx.stack) :
    (v.expand parameter replacement ctx : Program H _).HandsOn s.Descends := by
  refine v.handsOn_location.bind fun location => ?_
  refine Context.handsOn_enter own (v.handsOn_label "expanding" own) fun inner below => ?_
  exact (v.handsOn_answer Key.expand below).bind fun _ => Program.handsOn_expand below

theorem Value.handsOn_call (v argument : Value) (own : s.Descends ctx.stack) :
    (v.call argument ctx : Program H _).HandsOn s.Descends := by
  refine v.handsOn_location.bind fun location => ?_
  refine Context.handsOn_enter own (v.handsOn_label "calling" own) fun inner below => ?_
  refine (v.handsOn_answer? Key.function below).bind fun found => ?_
  cases found with
  | some function => exact Program.handsOn_call below
  | none =>
    exact (Program.handsOn_lift (v.handsOn_format below)).bind fun _ => Program.handsOn_fail _ _

theorem Value.handsOn_evaluateOrSelf (v : Value) (own : s.Descends ctx.stack) :
    (v.evaluateOrSelf ctx : Program H _).HandsOn s.Descends := by
  refine (v.handsOn_answers Key.evaluate own).bind fun able => ?_
  cases able with
  | true => exact v.handsOn_evaluate own
  | false => exact Program.handsOn_pure _

theorem Value.handsOn_expandOrSelf (v parameter replacement : Value)
    (own : s.Descends ctx.stack) :
    (v.expandOrSelf parameter replacement ctx : Program H _).HandsOn s.Descends := by
  refine (v.handsOn_answers Key.expand own).bind fun able => ?_
  cases able with
  | true => exact v.handsOn_expand parameter replacement own
  | false => exact Program.handsOn_pure _

theorem handsOn_createList (items : List Value) :
    (createList items : Program H _).HandsOn s.Descends := by
  cases items with
  | nil => exact Program.handsOn_access _
  | cons first rest => exact first.handsOn_location.bind fun _ => Program.handsOn_access _

theorem handsOn_bundle (items : List Value) :
    (bundle items : Program H _).HandsOn s.Descends := by
  unfold bundle
  split
  · exact Program.handsOn_pure _
  · exact handsOn_createList _

theorem handsOn_splitAssignment (passed items : List Value) (own : s.Descends ctx.stack) :
    (splitAssignment passed items ctx : Program H _).HandsOn s.Descends := by
  induction items generalizing passed with
  | nil => exact Program.handsOn_pure _
  | cons item rest ih =>
    refine (item.handsOn_answer? Key.name own).bind fun name => ?_
    split
    · exact Program.handsOn_pure _
    · exact ih _

theorem handsOn_evaluateAssignment (left right : List Value) (own : s.Descends ctx.stack) :
    (evaluateAssignment left right ctx : Program H _).HandsOn s.Descends := by
  unfold evaluateAssignment
  split
  · exact Program.handsOn_fail _ _
  · refine (handsOn_bundle left).bind fun target => ?_
    refine (handsOn_bundle right).bind fun operand => ?_
    refine (operand.handsOn_evaluateOrSelf own).bind fun value => ?_
    refine (target.handsOn_answer Key.assign own).bind fun assigner => ?_
    exact (Program.handsOn_assign own).bind fun _ => Program.handsOn_access _

theorem handsOn_callAll (function : Value) (arguments : List Value)
    (own : s.Descends ctx.stack) :
    (callAll function arguments ctx : Program H _).HandsOn s.Descends := by
  induction arguments generalizing function with
  | nil => exact Program.handsOn_pure _
  | cons argument rest ih => exact (function.handsOn_call argument own).bind fun result => ih result

theorem ListForm.handsOn_evaluate (l : ListForm) (own : s.Descends ctx.stack) :
    (l.evaluate ctx : Program H _).HandsOn s.Descends := by
  refine (handsOn_splitAssignment [] l.items own).bind fun split => ?_
  rcases split with _ | ⟨left, right⟩
  · dsimp only
    split
    · exact Program.handsOn_access _
    · exact (Value.handsOn_evaluateOrSelf _ own).bind fun f => handsOn_callAll f _ own
  · exact handsOn_evaluateAssignment left right own

theorem handsOn_evaluateStatements (result : Value) (statements : List (List Value))
    (own : s.Descends ctx.stack) :
    (evaluateStatements result statements ctx : Program H _).HandsOn s.Descends := by
  induction statements generalizing result with
  | nil => exact Program.handsOn_pure _
  | cons statement rest ih =>
    refine (handsOn_createList statement).bind fun list => ?_
    exact (list.handsOn_evaluate own).bind fun result => ih result

theorem Name.handsOn_evaluate (n : Name) (own : s.Descends ctx.stack) :
    (n.evaluate ctx : Program H _).HandsOn s.Descends := by
  refine Context.handsOn_enter own (Act.handsOn_pure _) fun inner below => ?_
  refine (Program.handsOn_access _).bind fun environment => ?_
  split
  · exact Program.handsOn_pure _
  · exact Program.handsOn_fail _ _

theorem ListForm.handsOn_expand (l : ListForm) (parameter replacement : Value)
    (own : s.Descends ctx.stack) :
    (l.expand parameter replacement ctx : Program H _).HandsOn s.Descends :=
  (Program.handsOn_mapM (fun item => item.handsOn_expandOrSelf parameter replacement own) _).bind
    fun _ => Program.handsOn_pure _

theorem handsOn_expandStatement (parameter replacement : Value) (statement : List Value)
    (own : s.Descends ctx.stack) :
    (expandStatement parameter replacement ctx statement : Program H _).HandsOn s.Descends := by
  refine (handsOn_createList statement).bind fun list => ?_
  refine (list.handsOn_expand parameter replacement own).bind fun expanded => ?_
  exact (expanded.handsOn_answer Key.list own).bind fun _ => Program.handsOn_pure _

theorem Block.handsOn_expand (b : Block) (parameter replacement : Value)
    (own : s.Descends ctx.stack) :
    (b.expand parameter replacement ctx : Program H _).HandsOn s.Descends :=
  (Program.handsOn_mapM (fun statement =>
    handsOn_expandStatement parameter replacement statement own) _).bind
    fun _ => Program.handsOn_pure _

theorem Name.handsOn_expand (n : Name) (location : Option Location)
    (parameter replacement : Value) (own : s.Descends ctx.stack) :
    (n.expand location parameter replacement ctx : Program H _).HandsOn s.Descends := by
  refine (parameter.handsOn_answer? Key.name own).bind fun found => ?_
  split
  · exact Program.handsOn_pure _
  · exact Program.handsOn_access _

theorem handsOn_printLine (line : String) :
    (printLine line ctx : Program H _).HandsOn s.Descends := by
  refine (Program.handsOn_access _).bind fun environment => ?_
  split
  · exact Program.handsOn_access _
  · exact (Program.handsOn_access _).bind fun _ => Program.handsOn_access _

theorem handsOn_display (argument : Value) (own : s.Descends ctx.stack) :
    (display argument ctx : Program H _).HandsOn s.Descends := by
  refine (argument.handsOn_evaluateOrSelf own).bind fun value => ?_
  refine (Program.handsOn_lift (value.handsOn_format own)).bind fun line => ?_
  exact (handsOn_printLine line).bind fun _ => Program.handsOn_access _

theorem Macro.handsOn_apply (m : Macro) (argument : Value) (own : s.Descends ctx.stack) :
    (m.apply argument ctx : Program H _).HandsOn s.Descends := by
  refine (argument.handsOn_evaluateOrSelf own).bind fun replacement => ?_
  refine (m.body.handsOn_expand m.parameter replacement own).bind fun expanded => ?_
  exact expanded.handsOn_evaluateOrSelf own

theorem Inference.handsOn_apply {i : Inference H k} {v : Value}
    (checks : (i.validation.check v ctx).HandsOn s.Descends)
    (derives : ∀ source, (i.derive source ctx).HandsOn s.Descends) :
    (i.apply v ctx).HandsOn s.Descends := by
  refine checks.bind fun found => ?_
  cases found with
  | none => exact Program.handsOn_pure _
  | some source => exact (derives source).bind fun _ => Program.handsOn_pure _

theorem Validation.handsOn_conformsAt (key : Key k) (v : Value) (own : s.Descends ctx.stack) :
    ((Validation.conformsAt key : Validation H _).check v ctx).HandsOn s.Descends := by
  refine (v.handsOn_answer? key own).bind fun found => ?_
  cases found with
  | none => exact Program.handsOn_pure _
  | some content => exact v.handsOn_location.bind fun _ => Program.handsOn_pure _

theorem StandardRule.handsOn_apply (r : StandardRule) (v : Value) (own : s.Descends ctx.stack) :
    ((r.inference : Inference H _).apply v ctx).HandsOn s.Descends := by
  cases r with
  | blockExpand | listExpand | nameExpand | nameText | quotedExpand =>
    exact Inference.handsOn_apply (Validation.handsOn_conformsAt _ v own)
      fun _ => Program.handsOn_pure _
  | listText =>
    refine Inference.handsOn_apply (v.handsOn_answer? Key.list own) fun l => ?_
    exact (Program.handsOn_lift ((Act.handsOn_mapM (fun item => item.handsOn_format own) _).bind
      fun _ => Act.handsOn_pure _)).bind fun _ => Program.handsOn_pure _
  | quotedText =>
    refine Inference.handsOn_apply (v.handsOn_answer? Key.quoted own) fun q => ?_
    exact (Program.handsOn_lift ((q.inner.handsOn_format own).bind
      fun _ => Act.handsOn_pure _)).bind fun _ => Program.handsOn_pure _
  | _ => exact Inference.handsOn_apply (v.handsOn_answer? _ own) fun _ => Program.handsOn_pure _

end Standard

section Dispatch
variable {B : Behaviour H} {s : CallStack} {ctx : Context}

theorem Rule.handsOn_apply (hands : B.HandsOn) (rule : Rule H) (v : Value) :
    (rule.apply B v ctx).HandsOn ctx.stack.Descends := by
  cases rule with
  | standard r => exact r.handsOn_apply v .same
  | own k key code =>
    exact Inference.handsOn_apply (hands.check k code v ctx)
      fun source => hands.derive k code source ctx

theorem handsOn_applyFirst (hands : B.HandsOn) (v : Value) (rules : List (Rule H)) :
    (applyFirst B v ctx rules).HandsOn ctx.stack.Descends := by
  induction rules with
  | nil => exact Program.handsOn_pure _
  | cons rule rest ih =>
    refine (rule.handsOn_apply hands v).bind fun found => ?_
    cases found with
    | none => exact ih
    | some answer => exact Program.handsOn_pure _

theorem handsOn_deriveAnswer (hands : B.HandsOn) (w : World H) (v : Value) (key : KeyId) :
    (deriveAnswer B w v key ctx).HandsOn ctx.stack.Descends := by
  unfold deriveAnswer
  split
  · rename_i own _
    refine Program.HandsOn.bind ?_ fun _ => Program.handsOn_pure _
    unfold Instance.realize
    split
    · exact Program.handsOn_pure _
    · exact (hands.realize _ _ v ctx).bind fun _ => Program.handsOn_pure _
  · exact handsOn_applyFirst hands v _

section Answering
variable {given : CallStack → Prop} (wide : ∀ t, ctx.stack.Descends t → given t)
include wide

theorem Function.handsOn_of_codes (f : Function H.Code) (argument : Value)
    (own : ∀ code, (B.call code argument ctx).HandsOn given) :
    (f.apply B argument ctx).HandsOn given := by
  cases f with
  | display => exact (handsOn_display argument .same).weaken wide
  | definer => exact Program.handsOn_access _
  | definerOf parameter =>
    have located : (parameter.location : Program H _).HandsOn given :=
      parameter.handsOn_location.weaken wide
    exact located.bind fun _ => Program.handsOn_access _
  | application definition => exact (definition.handsOn_apply argument .same).weaken wide
  | own code => exact own code

theorem Evaluator.handsOn_of_codes (f : Evaluator H.Code)
    (own : ∀ code, (B.evaluate code ctx).HandsOn given) : (f.apply B ctx).HandsOn given := by
  cases f with
  | block b =>
    exact (Program.handsOn_access _).bind fun result =>
      (handsOn_evaluateStatements result b.statements .same).weaken wide
  | list l => exact (l.handsOn_evaluate .same).weaken wide
  | name n => exact (n.handsOn_evaluate .same).weaken wide
  | quoted inner => exact Program.handsOn_pure _
  | own code => exact own code

theorem Expander.handsOn_of_codes (f : Expander H.Code) (parameter replacement : Value)
    (own : ∀ code, (B.expand code parameter replacement ctx).HandsOn given) :
    (f.apply B parameter replacement ctx).HandsOn given := by
  cases f with
  | block b location =>
    have expanded : (b.expand parameter replacement ctx : Program H _).HandsOn given :=
      (b.handsOn_expand parameter replacement .same).weaken wide
    exact expanded.bind fun _ => Program.handsOn_access _
  | list l location =>
    have expanded : (l.expand parameter replacement ctx : Program H _).HandsOn given :=
      (l.handsOn_expand parameter replacement .same).weaken wide
    exact expanded.bind fun _ => Program.handsOn_access _
  | name n location => exact (n.handsOn_expand location parameter replacement .same).weaken wide
  | quoted inner location =>
    refine Program.HandsOn.bind ?_ fun _ => Program.handsOn_access _
    exact ((inner.handsOn_expandOrSelf parameter replacement .same).bind
      fun _ => Program.handsOn_pure _).weaken wide
  | own code => exact own code

end Answering

theorem Assigner.handsOn_of_codes {given : CallStack → Prop} (f : Assigner H.Code)
    (value : Value) (own : ∀ code, (B.assign code value ctx).HandsOn given) :
    (f.apply B value ctx).HandsOn given := by
  cases f with
  | name n => exact Program.handsOn_access _
  | own code => exact own code

theorem Function.handsOn_apply (hands : B.HandsOn) (f : Function H.Code) (argument : Value) :
    (f.apply B argument ctx).HandsOn ctx.stack.Descends :=
  f.handsOn_of_codes (fun _ => id) argument fun code => hands.call code argument ctx

theorem Evaluator.handsOn_apply (hands : B.HandsOn) (f : Evaluator H.Code) :
    (f.apply B ctx).HandsOn ctx.stack.Descends :=
  f.handsOn_of_codes (fun _ => id) fun code => hands.evaluate code ctx

theorem Expander.handsOn_apply (hands : B.HandsOn) (f : Expander H.Code)
    (parameter replacement : Value) :
    (f.apply B parameter replacement ctx).HandsOn ctx.stack.Descends :=
  f.handsOn_of_codes (fun _ => id) parameter replacement
    fun code => hands.expand code parameter replacement ctx

theorem Assigner.handsOn_apply (hands : B.HandsOn) (f : Assigner H.Code) (value : Value) :
    (f.apply B value ctx).HandsOn ctx.stack.Descends :=
  f.handsOn_of_codes value fun code => hands.assign code value ctx

end Dispatch
end TraitDispatch
