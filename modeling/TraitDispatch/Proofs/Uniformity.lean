import TraitDispatch.Proofs.Conduct
import TraitDispatch.Proofs.Renaming

/- Built-in programs do the same along a pairing, since they never look at handles but to see
   whether two are the same. -/
namespace TraitDispatch
variable {H : Host} {α β : Type} {B : Behaviour H} {P : Value → Value → Prop} {e : EnvironmentId}
  {w w' : World H} {v v' : Value} {k : Kind} {ctx ctx' : Context}

namespace CallStack.Along
variable {s s' : CallStack} (along : s.Along P s')
include along

theorem withoutRecording : s.withoutRecording.Along P s'.withoutRecording :=
  { along with recording := rfl }

theorem atLimit : s'.atLimit = s.atLimit := by
  rw [CallStack.atLimit, CallStack.atLimit, along.limit, along.nesting]

theorem enter (label label' : String) (l l' : Option Location) :
    (s.enter label l).Along P (s'.enter label' l') where
  active := by
    rw [active_enter, active_enter]
    exact along.active
  recording := by rw [(leads_enter ..).recording, (leads_enter ..).recording, along.recording]
  nesting := by rw [nesting_enter, nesting_enter, along.nesting]
  limit := by rw [limit_enter, limit_enter, along.limit]

theorem limitFailure : s.limitFailure.cause = s'.limitFailure.cause := by
  simp only [CallStack.limitFailure, Failure.withTrace, Failure.of, along.limit]

theorem isActive (one : OneToOne P) (pair : P v v') (key : KeyId) :
    s'.isActive v' key = s.isActive v key := by
  rw [Bool.eq_iff_iff, CallStack.isActive_iff, CallStack.isActive_iff]
  have active := along.active
  generalize s.active = ds at active
  generalize s'.active = ds' at active
  induction active with
  | nil => simp
  | @cons d d' _ _ here _ ih =>
    obtain ⟨pair', same⟩ := here
    have first : (⟨v', key.index⟩ : Derivation) = d' ↔ (⟨v, key.index⟩ : Derivation) = d := by
      obtain ⟨u, j⟩ := d
      obtain ⟨u', j'⟩ := d'
      rw [Derivation.mk.injEq, Derivation.mk.injEq, show j' = j from same, one pair' pair]
    rw [List.mem_cons, List.mem_cons]
    exact or_congr first ih

theorem derive (one : OneToOne P) (pair : P v v') (key : KeyId) :
    Concur (CallStack.Along P) (s.derive v key) (s'.derive v' key) := by
  unfold CallStack.derive
  rw [along.isActive one pair, along.atLimit]
  split
  · rfl
  · split
    · exact along.limitFailure
    · have entered := along.enter s!"deriving {key.label}" s!"deriving {key.label}" none none
      have active : (s.enter s!"deriving {key.label}" none).active = s.active := active_enter ..
      exact { entered with active := .cons ⟨pair, rfl⟩ along.active }

end CallStack.Along

namespace Context.Along
variable (along : ctx.Along P e ctx')
include along

theorem withStack {s s' : CallStack} (stack : s.Along P s') :
    (ctx.withStack s).Along P e (ctx'.withStack s') :=
  ⟨along.here, along.there, stack⟩

theorem withoutRecording : ctx.withoutRecording.Along P e ctx'.withoutRecording :=
  along.withStack along.stack.withoutRecording

theorem enter {label label' : Act H String} (shown : Act.Along P e Eq label label')
    (l l' : Option Location) :
    Program.Along P e (Context.Along P e) (ctx.enter label l) (ctx'.enter label' l') := by
  unfold Context.enter
  rw [along.stack.atLimit, along.stack.recording]
  split
  · exact .failed along.stack.limitFailure
  · split
    · exact (Program.Along.lift shown).bind fun _ _ _ =>
        .done (along.withStack (along.stack.enter ..))
    · exact .done (along.withStack (along.stack.enter ..))

end Context.Along

section Asking

theorem location_along (pair : P v v') :
    Program.Along P e Eq (v.location : Program H _) v'.location :=
  (Program.Along.access (.inspect pair)).bind fun _ _ node => .done node.location.symm

variable (along : ctx.Along P e ctx') (pair : P v v')
include along pair

theorem answer?_along {key : Key k} (standard : key.id.index < standardKinds.length) :
    Program.Along P e (Option.Rel (k.Along P)) (v.answer? key ctx : Program H _)
      (v'.answer? key ctx') := by
  have resolved : Program.Along P e (Option.Rel (Payload.Along P))
      (Program.resolve v key.id ctx : Program H _) (Program.resolve v' key.id ctx') :=
    Act.Along.request (.resolve standard pair along)
  refine resolved.bind fun a a' same => ?_
  cases same with
  | none => exact .done .none
  | some answer =>
    cases answer with
    | @intro j x y content =>
      by_cases kind : j = k
      · subst kind
        simp only [Payload.as?_self]
        exact .done (.some content)
      · simp only [Payload.as?, kind, dite_false]
        exact .failed rfl

theorem answer_along {key : Key k} (standard : key.id.index < standardKinds.length) :
    Program.Along P e (k.Along P) (v.answer key ctx : Program H _) (v'.answer key ctx') := by
  refine (answer?_along along pair standard).bind fun a a' same => ?_
  cases same with
  | none => exact .fail ..
  | some content => exact .done content

theorem answers_along {key : Key k} (standard : key.id.index < standardKinds.length) :
    Program.Along P e Eq (v.answers key ctx : Program H _) (v'.answers key ctx') := by
  refine (answer?_along along pair standard).bind fun a a' same => ?_
  cases same with
  | none => exact .done rfl
  | some content => exact .done rfl

theorem format_along : Act.Along P e Eq (v.format ctx : Act H _) (v'.format ctx') := by
  have asked := answer?_along (H := H) along.withoutRecording pair
    (show Key.text.id.index < standardKinds.length by decide)
  refine Act.Along.bind asked fun r r' same => ?_
  cases r with
  | error failure =>
    cases r' with
    | error other => exact .done rfl
    | ok a => exact same.elim
  | ok a =>
    cases r' with
    | error other => exact same.elim
    | ok a' =>
      cases same with
      | none => exact .done rfl
      | some content => exact .done (congrArg Text.text content)

end Asking

namespace Value
variable (along : ctx.Along P e ctx') (pair : P v v')
include along pair

theorem entry_along (label : String → String) :
    Program.Along P e (Context.Along P e)
      (do ctx.enter (return label (← v.format ctx)) (← v.location) : Program H Context)
      (do ctx'.enter (return label (← v'.format ctx')) (← v'.location)) :=
  (location_along pair).bind fun l l' _ => along.enter
    ((format_along along pair).bind fun _ _ same => .done (congrArg label same)) l l'

theorem evaluate_along : Program.Along P e P (v.evaluate ctx : Program H _) (v'.evaluate ctx') := by
  refine (entry_along along pair _).bind fun inner inner' here => ?_
  refine (answer_along here pair (by decide)).bind fun f f' code => ?_
  exact Act.Along.request (.evaluate code here)

theorem expand_along {p p' r r' : Value} (parameter : P p p') (replacement : P r r') :
    Program.Along P e P (v.expand p r ctx : Program H _) (v'.expand p' r' ctx') := by
  refine (entry_along along pair _).bind fun inner inner' here => ?_
  refine (answer_along here pair (by decide)).bind fun f f' code => ?_
  exact Act.Along.request (.expand code parameter replacement here)

theorem call_along {a a' : Value} (argument : P a a') :
    Program.Along P e P (v.call a ctx : Program H _) (v'.call a' ctx') := by
  refine (entry_along along pair _).bind fun inner inner' here => ?_
  refine (answer?_along here pair (by decide)).bind fun f f' code => ?_
  cases code with
  | some code => exact Act.Along.request (.call code argument here)
  | none =>
    refine (Program.Along.lift (format_along here pair)).bind fun text text' same => ?_
    subst same
    exact .fail ..

theorem evaluateOrSelf_along :
    Program.Along P e P (v.evaluateOrSelf ctx : Program H _) (v'.evaluateOrSelf ctx') := by
  refine (answers_along along pair (by decide)).bind fun able able' same => ?_
  subst same
  cases able with
  | true => exact evaluate_along along pair
  | false => exact .done pair

theorem expandOrSelf_along {p p' r r' : Value} (parameter : P p p') (replacement : P r r') :
    Program.Along P e P (v.expandOrSelf p r ctx : Program H _) (v'.expandOrSelf p' r' ctx') := by
  refine (answers_along along pair (by decide)).bind fun able able' same => ?_
  subst same
  cases able with
  | true => exact expand_along along pair parameter replacement
  | false => exact .done pair

end Value

section Making
variable {items items' : List Value}

theorem create_along {n n' : Node H} (node : n.Along P n') :
    Program.Along P e P (Program.create n) (Program.create n') := .access (.create node)

theorem single_along (key : Key k) {x x' : k.Carrier H} (content : k.Along P x x')
    (l : Option Location) : (Node.single key x l).Along P (.single key x' l) :=
  ⟨.cons (.constant key content) .nil, rfl⟩

theorem createEmpty_along :
    Program.Along P e P (Program.createEmpty : Program H _) Program.createEmpty :=
  create_along ⟨.nil, rfl⟩

theorem createList_along (same : List.Forall₂ P items items') :
    Program.Along P e P (createList items : Program H _) (createList items') := by
  cases same with
  | nil => exact create_along (single_along Key.list .nil none)
  | cons first rest =>
    refine (location_along first).bind fun l l' same => ?_
    subst same
    exact create_along (single_along Key.list (.cons first rest) l)

theorem bundle_along (same : List.Forall₂ P items items') :
    Program.Along P e P (bundle items : Program H _) (bundle items') := by
  cases same with
  | nil => exact createList_along .nil
  | cons first rest =>
    cases rest with
    | nil => exact .done first
    | cons second rest => exact createList_along (.cons first (.cons second rest))

end Making

section Evaluating
variable (along : ctx.Along P e ctx')
include along

theorem splitAssignment_along {passed passed' items items' : List Value}
    (before : List.Forall₂ P passed passed') (same : List.Forall₂ P items items') :
    Program.Along P e
      (Option.Rel fun p p' => List.Forall₂ P p.1 p'.1 ∧ List.Forall₂ P p.2 p'.2)
      (splitAssignment passed items ctx : Program H _) (splitAssignment passed' items' ctx') := by
  induction same generalizing passed passed' with
  | nil => exact .done .none
  | cons first rest ih =>
    refine (answer?_along along first (by decide)).bind fun name name' named => ?_
    obtain rfl : name = name' := by
      cases named with
      | none => rfl
      | some content => exact congrArg some content
    split
    · exact .done (.some ⟨List.rel_reverse before, rest⟩)
    · exact ih (.cons first before)

theorem evaluateAssignment_along {left left' right right' : List Value}
    (targets : List.Forall₂ P left left') (sources : List.Forall₂ P right right') :
    Program.Along P e P (evaluateAssignment left right ctx : Program H _)
      (evaluateAssignment left' right' ctx') := by
  have lacking : (left'.isEmpty || right'.isEmpty) = (left.isEmpty || right.isEmpty) := by
    cases targets <;> cases sources <;> rfl
  unfold evaluateAssignment
  rw [lacking]
  split
  · exact .fail ..
  refine (bundle_along targets).bind fun target target' pair => ?_
  refine (bundle_along sources).bind fun source source' other => ?_
  refine (Value.evaluateOrSelf_along along other).bind fun value value' given => ?_
  refine (answer_along along pair (by decide)).bind fun f f' code => ?_
  have assigned : Program.Along P e (fun _ _ => True) (Program.assign f value ctx)
      (Program.assign f' value' ctx') := Act.Along.request (.assign code given along)
  exact assigned.bind fun _ _ _ => createEmpty_along

theorem callAll_along {f f' : Value} {items items' : List Value} (pair : P f f')
    (same : List.Forall₂ P items items') :
    Program.Along P e P (callAll f items ctx : Program H _) (callAll f' items' ctx') := by
  induction same generalizing f f' with
  | nil => exact .done pair
  | cons first _ ih =>
    exact (Value.call_along along pair first).bind fun result result' next => ih next

theorem ListForm.evaluate_along {l l' : ListForm} (same : List.Forall₂ P l.items l'.items) :
    Program.Along P e P (l.evaluate ctx : Program H _) (l'.evaluate ctx') := by
  obtain ⟨items⟩ := l
  obtain ⟨items'⟩ := l'
  refine (splitAssignment_along along .nil same).bind fun split split' parted => ?_
  cases parted with
  | some both => exact evaluateAssignment_along along both.1 both.2
  | none =>
    cases same with
    | nil => exact createEmpty_along
    | cons first rest =>
      exact (Value.evaluateOrSelf_along along first).bind fun f f' pair =>
        callAll_along along pair rest

theorem evaluateStatements_along {v v' : Value} {rows rows' : List (List Value)} (pair : P v v')
    (same : List.Forall₂ (List.Forall₂ P) rows rows') :
    Program.Along P e P (evaluateStatements v rows ctx : Program H _)
      (evaluateStatements v' rows' ctx') := by
  induction same generalizing v v' with
  | nil => exact .done pair
  | cons first _ ih =>
    refine (createList_along first).bind fun list list' listed => ?_
    exact (Value.evaluate_along along listed).bind fun result result' next => ih next

theorem Block.evaluate_along {b b' : Block}
    (same : List.Forall₂ (List.Forall₂ P) b.statements b'.statements) :
    Program.Along P e P (b.evaluate ctx : Program H _) (b'.evaluate ctx') :=
  createEmpty_along.bind fun _ _ pair => evaluateStatements_along along pair same

theorem Name.evaluate_along (n : Name) :
    Program.Along P e P (n.evaluate ctx : Program H _) (n.evaluate ctx') := by
  refine (along.enter (.done rfl) none none).bind fun inner inner' here => ?_
  rw [along.here, along.there]
  refine (Program.Along.access .environment).bind fun E E' environments => ?_
  have bound := environments.lookup n.name
  generalize E.lookup n.name = x at bound ⊢
  generalize E'.lookup n.name = y at bound ⊢
  cases bound with
  | none => exact .fail ..
  | some pair => exact .done pair

theorem Name.assign_along (n : Name) (pair : P v v') :
    Program.Along P e (fun _ _ => True) (n.assign v ctx : Program H _) (n.assign v' ctx') := by
  rw [Name.assign, Name.assign, along.here, along.there]
  exact .access (.define n.name pair)

theorem printLine_along (line : String) :
    Program.Along P e (fun _ _ => True) (printLine line ctx : Program H _)
      (printLine line ctx') := by
  unfold printLine
  rw [along.here, along.there]
  refine (Program.Along.access .environment).bind fun E E' environments => ?_
  rw [environments.output]
  cases E.output with
  | some output => exact .access (.print output line)
  | none =>
    exact (Program.Along.access (.setOutput .console)).bind fun _ _ _ =>
      .access (.print .console line)

theorem display_along (pair : P v v') :
    Program.Along P e P (display v ctx : Program H _) (display v' ctx') := by
  refine (Value.evaluateOrSelf_along along pair).bind fun value value' shown => ?_
  refine (Program.Along.lift (format_along along shown)).bind fun line line' same => ?_
  subst same
  exact (printLine_along along line).bind fun _ _ _ => createEmpty_along

theorem Macro.apply_along {m m' : Macro} (parameter : P m.parameter m'.parameter)
    (body : P m.body m'.body) (pair : P v v') :
    Program.Along P e P (m.apply v ctx : Program H _) (m'.apply v' ctx') := by
  refine (Value.evaluateOrSelf_along along pair).bind fun argument argument' given => ?_
  refine (Value.expand_along along body parameter given).bind fun expanded expanded' here => ?_
  exact Value.evaluateOrSelf_along along here

end Evaluating

theorem defineMacroOf_along {p p' b b' : Value} (parameter : P p p') (body : P b b') :
    Program.Along P e P (defineMacroOf p b : Program H _) (defineMacroOf p' b') := by
  refine (location_along parameter).bind fun l l' same => ?_
  subst same
  exact create_along (single_along Key.definition ⟨parameter, body⟩ l)

section Expanding
variable (along : ctx.Along P e ctx') {p p' r r' : Value} (parameter : P p p')
  (replacement : P r r')
include along parameter replacement

theorem ListForm.expand_along {l l' : ListForm} (same : List.Forall₂ P l.items l'.items) :
    Program.Along P e (fun m m' => List.Forall₂ P m.items m'.items)
      (l.expand p r ctx : Program H _) (l'.expand p' r' ctx') :=
  (Program.Along.mapM same fun _ _ pair =>
    Value.expandOrSelf_along along pair parameter replacement).bind fun _ _ others => .done others

theorem expandStatement_along {row row' : List Value} (same : List.Forall₂ P row row') :
    Program.Along P e (List.Forall₂ P) (expandStatement p r ctx row : Program H _)
      (expandStatement p' r' ctx' row') := by
  refine (createList_along same).bind fun list list' pair => ?_
  refine (Value.expand_along along pair parameter replacement).bind fun other other' here => ?_
  exact (answer_along along here (by decide)).bind fun _ _ items => .done items

theorem Block.expand_along {b b' : Block}
    (same : List.Forall₂ (List.Forall₂ P) b.statements b'.statements) :
    Program.Along P e (fun c c' => List.Forall₂ (List.Forall₂ P) c.statements c'.statements)
      (b.expand p r ctx : Program H _) (b'.expand p' r' ctx') :=
  (Program.Along.mapM same fun _ _ row =>
    expandStatement_along along parameter replacement row).bind fun _ _ others => .done others

theorem Name.expand_along (n : Name) (l : Option Location) :
    Program.Along P e P (n.expand l p r ctx : Program H _) (n.expand l p' r' ctx') := by
  refine (answer?_along along parameter (by decide)).bind fun name name' named => ?_
  obtain rfl : name = name' := by
    cases named with
    | none => rfl
    | some content => exact congrArg some content
  split
  · exact .done replacement
  · exact create_along (single_along Key.name rfl l)

end Expanding

section Applying

theorem Function.apply_along (along : ctx.Along P e ctx') {f f' : Function H.Code}
    (code : f.Along P f') (pair : P v v') :
    Program.Along P e P (f.apply B v ctx) (f'.apply B v' ctx') := by
  cases code with
  | display => exact display_along along pair
  | definer => exact create_along (single_along Key.function (.definerOf pair) none)
  | definerOf parameter => exact defineMacroOf_along parameter pair
  | application parameter body => exact Macro.apply_along along parameter body pair

theorem Evaluator.apply_along (along : ctx.Along P e ctx') {f f' : Evaluator H.Code}
    (code : f.Along P f') : Program.Along P e P (f.apply B ctx) (f'.apply B ctx') := by
  cases code with
  | block statements => exact Block.evaluate_along along statements
  | list items => exact ListForm.evaluate_along along items
  | name n => exact Name.evaluate_along along n
  | quoted inner => exact .done inner

theorem Expander.apply_along (along : ctx.Along P e ctx') {f f' : Expander H.Code}
    (code : f.Along P f') {p p' r r' : Value} (parameter : P p p') (replacement : P r r') :
    Program.Along P e P (f.apply B p r ctx) (f'.apply B p' r' ctx') := by
  cases code with
  | block l statements =>
    exact (Block.expand_along along parameter replacement statements).bind fun _ _ same =>
      create_along (single_along Key.block same l)
  | list l items =>
    exact (ListForm.expand_along along parameter replacement items).bind fun _ _ same =>
      create_along (single_along Key.list same l)
  | name n l => exact Name.expand_along along parameter replacement n l
  | quoted l inner =>
    refine Program.Along.bind (S := P) (Program.Along.bind
      (Value.expandOrSelf_along along inner parameter replacement) fun _ _ pair =>
        .done (R := fun q q' : Quoted => P q.inner q'.inner) pair) fun _ _ same => ?_
    exact create_along (single_along Key.quoted same l)

theorem Assigner.apply_along (along : ctx.Along P e ctx') {f f' : Assigner H.Code}
    (code : f.Along f') (pair : P v v') :
    Program.Along P e (fun _ _ => True) (f.apply B v ctx) (f'.apply B v' ctx') := by
  cases code with
  | name n => exact Name.assign_along along n pair

end Applying

section Deriving
variable (along : ctx.Along P e ctx') (pair : P v v')
include along pair

theorem direct_along {j : Kind} {key : Key j} (standard : key.id.index < standardKinds.length)
    {f : j.Carrier H → k.Carrier H} (same : ∀ x y, j.Along P x y → k.Along P (f x) (f y)) :
    Program.Along P e (Option.Rel (Payload.Along P)) ((Inference.direct key f).apply v ctx)
      ((Inference.direct key f).apply v' ctx') := by
  refine (answer?_along along pair standard).bind fun x y content => ?_
  cases content with
  | none => exact .done .none
  | some content => exact .done (.some (.intro (same _ _ content)))

theorem directAt_along {j : Kind} {key : Key j} (standard : key.id.index < standardKinds.length)
    {f : j.Carrier H → Option Location → k.Carrier H}
    (same : ∀ x y l, j.Along P x y → k.Along P (f x l) (f y l)) :
    Program.Along P e (Option.Rel (Payload.Along P)) ((Inference.directAt key f).apply v ctx)
      ((Inference.directAt key f).apply v' ctx') := by
  have checked : Program.Along P e
      (Option.Rel fun x y : j.Carrier H × Option Location => j.Along P x.1 y.1 ∧ x.2 = y.2)
      ((Validation.conformsAt key).check v ctx) ((Validation.conformsAt key).check v' ctx') := by
    refine (answer?_along along pair standard).bind fun x y content => ?_
    cases content with
    | none => exact .done .none
    | some content =>
      exact (location_along pair).bind fun l l' same => .done (.some ⟨content, same⟩)
  refine checked.bind fun x y content => ?_
  cases content with
  | none => exact .done .none
  | @some x y content =>
    obtain ⟨x, l⟩ := x
    obtain ⟨y, l'⟩ := y
    obtain ⟨content, rfl⟩ := content
    exact .done (.some (.intro (same x y l content)))

theorem composed_along {key : Key k} (standard : key.id.index < standardKinds.length)
    {m : k.Carrier H → Context → Act H String}
    (same : ∀ x y, k.Along P x y → Act.Along P e Eq (m x ctx) (m y ctx')) :
    Program.Along P e (Option.Rel (Payload.Along P))
      ((⟨_, .conforms key, fun x ctx => do return ⟨← (m x ctx).lift, none⟩⟩ :
        Inference H .text).apply v ctx)
      ((⟨_, .conforms key, fun x ctx => do return ⟨← (m x ctx).lift, none⟩⟩ :
        Inference H .text).apply v' ctx') := by
  refine (answer?_along along pair standard).bind fun x y content => ?_
  cases content with
  | none => exact .done .none
  | @some x y content =>
    have rendered : Program.Along P e Eq (do return ⟨← (m x ctx).lift, none⟩ : Program H Text)
        (do return ⟨← (m y ctx').lift, none⟩) :=
      (Program.Along.lift (same x y content)).bind fun _ _ shown =>
        .done (congrArg (Text.mk · none) shown)
    exact rendered.bind fun _ _ shown => .done (.some (.intro shown))

theorem rule_along (rule : StandardRule) :
    Program.Along P e (Option.Rel (Payload.Along P)) (rule.inference.apply v ctx : Program H _)
      (rule.inference.apply v' ctx') := by
  cases rule with
  | blockText | definitionText | functionText =>
    exact direct_along along pair (by decide) fun _ _ _ => rfl
  | numberText =>
    exact direct_along along pair (by decide) fun x y same => by
      obtain rfl : x = y := same
      rfl
  | nameText =>
    exact directAt_along along pair (by decide) fun x y l same => by
      obtain rfl : x = y := same
      rfl
  | blockEvaluate => exact direct_along along pair (by decide) fun _ _ => .block
  | listEvaluate => exact direct_along along pair (by decide) fun _ _ => .list
  | nameEvaluate =>
    exact direct_along along pair (by decide) fun x y same => by
      obtain rfl : x = y := same
      exact .name x
  | quotedEvaluate => exact direct_along along pair (by decide) fun _ _ => .quoted
  | blockExpand => exact directAt_along along pair (by decide) fun _ _ l => .block l
  | listExpand => exact directAt_along along pair (by decide) fun _ _ l => .list l
  | nameExpand =>
    exact directAt_along along pair (by decide) fun x y l same => by
      obtain rfl : x = y := same
      exact .name x l
  | quotedExpand => exact directAt_along along pair (by decide) fun _ _ l => .quoted l
  | nameAssign =>
    exact direct_along along pair (by decide) fun x y same => by
      obtain rfl : x = y := same
      exact .name x
  | definitionFunction =>
    exact direct_along along pair (by decide) fun _ _ same => .application same.1 same.2
  | listText =>
    refine composed_along along pair (by decide) fun x y same => ?_
    exact (Act.Along.mapM same fun _ _ other => format_along along other).bind
      fun texts texts' shown => .done (by
        rw [List.forall₂_eq_eq_eq] at shown
        rw [shown])
  | quotedText =>
    refine composed_along along pair (by decide) fun x y same => ?_
    exact (format_along along same).bind fun _ _ shown => .done (by rw [shown])

theorem rules_along (rules : List StandardRule) :
    Program.Along P e (Option.Rel (Payload.Along P))
      (applyFirst B v ctx (rules.map .standard)) (applyFirst B v' ctx' (rules.map .standard)) := by
  induction rules with
  | nil => exact .done .none
  | cons rule rest ih =>
    refine (rule_along along pair rule).bind fun a a' same => ?_
    cases same with
    | none => exact ih
    | some answer => exact .done (.some answer)

theorem derive_along (worlds : w.Along P e w') (key : KeyId) :
    Program.Along P e (Option.Rel (Payload.Along P)) (deriveAnswer B w v key ctx)
      (deriveAnswer B w' v' key ctx') := by
  have own := (worlds.node pair).find? key
  unfold deriveAnswer
  generalize (w.node v).find? key = x at own
  generalize (w'.node v').find? key = y at own
  cases own with
  | some found =>
    cases found with
    | constant other content => exact .done (.some (.intro content))
  | none =>
    rw [along.here, along.there]
    simp only [rulesFor_standard worlds.standard, rulesFor_standard worlds.standard']
    exact rules_along along pair _

end Deriving

def Twins (P : Value → Value → Prop) (e : EnvironmentId) (R : α → β → Prop) :
    Option (α × World H) → Option (β × World H) → Prop :=
  Option.Rel fun p q => R p.1 q.1 ∧ p.2.Along P e q.2

theorem run_twins {fuel : Nat} {R : α → β → Prop} {m : Act H α} {m' : Act H β}
    (answers : ∀ {r r' : Request H} {S} {w w' : World H}, r.Along P e r' S → w.Along P e w' →
      Twins P e S (respond B fuel r w) (respond B fuel r' w'))
    (programs : Act.Along P e R m m') (worlds : w.Along P e w') :
    Twins P e R (m.run (respond B fuel) w) (m'.run (respond B fuel) w') := by
  induction programs generalizing w w' with
  | done same => exact .some ⟨same, worlds⟩
  | ask request _ ih =>
    have answered := answers request worlds
    simp only [Act.run]
    generalize respond B fuel _ w = x at answered ⊢
    generalize respond B fuel _ w' = y at answered ⊢
    cases answered with
    | none => exact .none
    | some both => exact ih _ _ both.1 both.2

theorem access_twins {fuel : Nat} {a a' : Access H} {S : a.Answer → a'.Answer → Prop}
    (worlds : w.Along P e w') (request : Request.Along P e (.access a) (.access a') S) :
    Twins P e S (respond B fuel (.access a) w) (respond B fuel (.access a') w') := by
  rw [respond_access, respond_access]
  exact .some (worlds.perform request)

theorem resolve_twins {fuel : Nat} {key : KeyId}
    (answers : ∀ {r r' : Request H} {S} {w w' : World H}, r.Along P e r' S → w.Along P e w' →
      Twins P e S (respond B fuel r w) (respond B fuel r' w'))
    (standard : key.index < standardKinds.length) (pair : P v v') (placed : ctx.Along P e ctx')
    (worlds : w.Along P e w') :
    Twins P e (Concur (Option.Rel (Payload.Along P))) (resolve B (respond B fuel) v key ctx w)
      (resolve B (respond B fuel) v' key ctx' w') := by
  have memo := worlds.remembered key pair standard
  unfold resolve
  generalize w.remembered v key = x at memo ⊢
  generalize w'.remembered v' key = x' at memo ⊢
  cases memo with
  | some answer => exact .some ⟨.some answer, worlds⟩
  | none =>
    have entered := placed.stack.derive worlds.paired pair key
    generalize ctx.stack.derive v key = y at entered ⊢
    generalize ctx'.stack.derive v' key = y' at entered ⊢
    match y, y', entered with
    | .error failure, .error other, same => exact .some ⟨same, worlds⟩
    | .ok inner, .ok inner', below =>
      have derived := run_twins answers
        (derive_along (B := B) (placed.withStack below) pair worlds key) worlds
      change Twins P e (Concur (Option.Rel (Payload.Along P))) (Program.perform _ _ _)
        (Program.perform _ _ _) at derived
      dsimp only
      generalize Program.perform _ _ w = z at derived ⊢
      generalize Program.perform _ _ w' = z' at derived ⊢
      cases derived with
      | none => exact .none
      | @some p p' both =>
        obtain ⟨r, after⟩ := p
        obtain ⟨r', after'⟩ := p'
        obtain ⟨same, later⟩ := both
        match r, r', same with
        | .error failure, .error other, same => exact .some ⟨same, later⟩
        | .ok none, .ok none, same => exact .some ⟨same, later⟩
        | .ok (some answer), .ok (some answer'), .some same =>
          exact .some ⟨.some same, later.remember pair same⟩

theorem respond_twins {fuel : Nat} {r r' : Request H} {S : r.Answer → r'.Answer → Prop}
    (request : r.Along P e r' S) (worlds : w.Along P e w') :
    Twins P e S (respond B fuel r w) (respond B fuel r' w') := by
  -- Bodies have less fuel than the requests that they answer.
  induction fuel using Nat.strongRecOn generalizing w w' r r' S with
  | ind fuel ih =>
    cases request with
    | create node => exact access_twins worlds (.create node)
    | inspect value => exact access_twins worlds (.inspect value)
    | environment => exact access_twins worlds .environment
    | define name value => exact access_twins worlds (.define name value)
    | setOutput output => exact access_twins worlds (.setOutput output)
    | print output line => exact access_twins worlds (.print output line)
    | resolve standard value placed =>
      cases fuel with
      | zero => exact .none
      | succ fuel =>
        exact resolve_twins (fun request => ih fuel (Nat.lt_succ_self fuel) request) standard value
          placed worlds
    | call code argument placed =>
      cases fuel with
      | zero => exact .none
      | succ fuel =>
        exact run_twins (ih fuel (Nat.lt_succ_self fuel))
          (Function.apply_along placed code argument) worlds
    | evaluate code placed =>
      cases fuel with
      | zero => exact .none
      | succ fuel =>
        exact run_twins (ih fuel (Nat.lt_succ_self fuel)) (Evaluator.apply_along placed code) worlds
    | expand code parameter replacement placed =>
      cases fuel with
      | zero => exact .none
      | succ fuel =>
        exact run_twins (ih fuel (Nat.lt_succ_self fuel))
          (Expander.apply_along placed code parameter replacement) worlds
    | assign code value placed =>
      cases fuel with
      | zero => exact .none
      | succ fuel =>
        exact run_twins (ih fuel (Nat.lt_succ_self fuel)) (Assigner.apply_along placed code value)
          worlds

end TraitDispatch
