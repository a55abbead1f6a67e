import TraitDispatch.Proofs.Outcome
import TraitDispatch.Proofs.Representation

/- What values that are made of constants answer under the standard rules. Every answer but a
   rendering can be read off the node of the value. Finding it changes nothing but memo tables, so
   programs that only ask and create are described by one relation, in which they compose. What else
   is known of the memo tables is left open: it is enough that right answers may be added. -/
namespace TraitDispatch
variable {H : Host} {α β : Type} {B : Behaviour H} {exact : Prop} {w : World H} {k : Kind}
  {R : World H → World H → Prop}

/-- Ways for a world to go on in which values stay what they are and right answers are
    remembered. -/
class World.Growth (R : World H → World H → Prop) : Prop where
  same : ∀ w, R w w
  trans : ∀ {w mid after}, R w mid → R mid after → R w after
  made : ∀ {w after v}, R w after → w.Made v → after.Made v
  node : ∀ {w after v}, R w after → w.Made v → after.node v = w.node v
  recalls : ∀ {w after v key}, R w after → w.Made v → key.Regular → w.Recalls v key →
    after.Recalls v key
  environments : ∀ {w after}, R w after → after.environments = w.environments
  create : ∀ w node, R w (w.create node).2
  remember : ∀ {w v key answer}, w.Made v → key.Regular →
    (w.node v).standard? key = some answer → R w (w.remember v key answer)

instance : World.Growth (World.AddsValues (H := H) exact) where
  same := .same
  trans first second := first.trans second
  made grown made := grown.made _ made
  node grown made := grown.node _ made
  recalls grown made regular recalls := grown.recalls _ _ made regular recalls
  environments grown := grown.environments
  create w node := .create w node
  remember _ regular right := .remember (fun _ => right) fun text => absurd text regular.1

def Act.Succeeds (B : Behaviour H) (R : World H → World H → Prop) (m : Act H α) (w : World H)
    (p : α → World H → Prop) : Prop :=
  ∃ a after, m.Ends B w a after ∧ R w after ∧ p a after

def Program.Succeeds (B : Behaviour H) (R : World H → World H → Prop) (m : Program H α)
    (w : World H) (p : α → World H → Prop) : Prop :=
  ∃ a after, m.Ends B w (.ok a) after ∧ R w after ∧ p a after

section Composition
variable [World.Growth R]

theorem Act.Succeeds.done {p : α → World H → Prop} {a : α} (holds : p a w) :
    (pure a : Act H α).Succeeds B R w p := ⟨a, w, .done a w, World.Growth.same w, holds⟩

theorem Act.Succeeds.bind {m : Act H α} {f : α → Act H β} {p : α → World H → Prop}
    {q : β → World H → Prop} (first : m.Succeeds B R w p)
    (rest : ∀ a w', R w w' → p a w' → (f a).Succeeds B R w' q) : (m >>= f).Succeeds B R w q := by
  obtain ⟨a, mid, ends, grown, holds⟩ := first
  obtain ⟨b, after, ends', grown', holds'⟩ := rest a mid grown holds
  exact ⟨b, after, .bind ends ends', World.Growth.trans grown grown', holds'⟩

namespace Program

theorem Succeeds.done {p : α → World H → Prop} {a : α} (holds : p a w) :
    (pure a : Program H α).Succeeds B R w p := ⟨a, w, .done a w, World.Growth.same w, holds⟩

theorem Succeeds.bind {m : Program H α} {f : α → Program H β} {p : α → World H → Prop}
    {q : β → World H → Prop} (first : m.Succeeds B R w p)
    (rest : ∀ a w', R w w' → p a w' → (f a).Succeeds B R w' q) : (m >>= f).Succeeds B R w q := by
  obtain ⟨a, mid, ends, grown, holds⟩ := first
  obtain ⟨b, after, ends', grown', holds'⟩ := rest a mid grown holds
  exact ⟨b, after, .bind ends ends', World.Growth.trans grown grown', holds'⟩

theorem succeeds_create (node : Node H) :
    (Program.create node).Succeeds B R w fun v after =>
      v = (w.create node).1 ∧ after = (w.create node).2 :=
  ⟨_, _, .access (.create node) w, World.Growth.create w node, rfl, rfl⟩

theorem Succeeds.create {m : Program H α} {node : α → Node H} {p : α → World H → Prop}
    {q : Value → World H → Prop} (first : m.Succeeds B R w p)
    (ends : ∀ a mid, R w mid → p a mid → R mid (mid.create (node a)).2 →
      q (mid.create (node a)).1 (mid.create (node a)).2) :
    (m >>= fun a => Program.create (node a)).Succeeds B R w q :=
  first.bind fun a mid grown here =>
    ⟨_, _, .access (.create (node a)) mid, World.Growth.create mid _,
      ends a mid grown here (World.Growth.create mid _)⟩

theorem succeeds_location (v : Value) :
    v.location.Succeeds B R w fun l _ => l = (w.node v).location :=
  ⟨_, _, .bind (.access (.inspect v) w) (.done _ _), World.Growth.same w, rfl⟩

theorem mapM_succeeds {γ : Type} {start : World H} {f : α → Program H β}
    (S : World H → α → β → Prop) (T : World H → γ → β → Prop)
    (keepS : ∀ w' w'' a b, R w' w'' → S w' a b → S w'' a b)
    (keepT : ∀ w' w'' c b, R w' w'' → T w' c b → T w'' c b) {as : List α} {cs : List γ}
    (each : List.Forall₂ (fun a c => ∀ w', R start w' →
      (f a).Succeeds B R w' fun b after => S after a b ∧ T after c b) as cs)
    (grown : R start w) :
    (as.mapM f).Succeeds B R w fun bs after =>
      List.Forall₂ (S after) as bs ∧ List.Forall₂ (T after) cs bs := by
  induction each generalizing w with
  | nil => exact .done ⟨.nil, .nil⟩
  | cons first _ ih =>
    rw [List.mapM_cons]
    refine (first w grown).bind fun b w' grown' here => ?_
    refine (ih (World.Growth.trans grown grown')).bind fun bs w'' grown'' there => ?_
    exact .done ⟨.cons (keepS _ _ _ _ grown'' here.1) there.1,
      .cons (keepT _ _ _ _ grown'' here.2) there.2⟩

end Program
end Composition

theorem Act.Succeeds.weaken {m : Act H α} {p q : α → World H → Prop} (succeeds : m.Succeeds B R w p)
    (weaker : ∀ a w', R w w' → p a w' → q a w') : m.Succeeds B R w q := by
  obtain ⟨a, after, ends, grown, holds⟩ := succeeds
  exact ⟨a, after, ends, grown, weaker a after grown holds⟩

namespace Program

theorem Succeeds.weaken {m : Program H α} {p q : α → World H → Prop} (succeeds : m.Succeeds B R w p)
    (weaker : ∀ a w', R w w' → p a w' → q a w') : m.Succeeds B R w q := by
  obtain ⟨a, after, ends, grown, holds⟩ := succeeds
  exact ⟨a, after, ends, grown, weaker a after grown holds⟩

theorem each_succeeds [World.Growth R] {f : α → Program H β} {as : List α}
    (S : World H → α → β → Prop)
    (keep : ∀ w' w'' a b, R w' w'' → S w' a b → S w'' a b)
    (each : ∀ a ∈ as, ∀ w', R w w' → (f a).Succeeds B R w' fun b after => S after a b) :
    (as.mapM f).Succeeds B R w fun bs after => List.Forall₂ (S after) as bs := by
  have both := mapM_succeeds S (fun _ _ _ => True) keep (fun _ _ _ _ _ _ => trivial)
    (List.forall₂_same.mpr fun a member w' grown => (each a member w' grown).weaken
      fun _ _ _ holds => ⟨holds, trivial⟩) (World.Growth.same w)
  exact both.weaken fun _ _ _ holds => holds.1

theorem Succeeds.lift {m : Act H α} {p : α → World H → Prop} (succeeds : m.Succeeds B R w p) :
    m.lift.Succeeds B R w p := by
  obtain ⟨a, after, ends, grown, holds⟩ := succeeds
  exact ⟨a, after, .lift ends, grown, holds⟩

theorem Succeeds.after_pure {f : α → Program H β} {a : α} {p : β → World H → Prop}
    (rest : (f a).Succeeds B R w p) : (pure a >>= f).Succeeds B R w p := by
  rw [pure_bind]
  exact rest

theorem succeeds_expand {f : Expander H.Code} {parameter replacement : Value} {ctx : Context}
    {p : Value → World H → Prop}
    (applied : (f.apply B parameter replacement ctx).Succeeds B R w p) :
    (Program.expand f parameter replacement ctx).Succeeds B R w p := by
  obtain ⟨a, after, ends, grown, holds⟩ := applied
  exact ⟨a, after, .expand ends, grown, holds⟩

theorem create_represents {node : Node H} {t : Term} {parts : List (Value × Term)}
    (layer : Term.Layer node t parts) (each : ∀ p ∈ parts, w.Represents exact p.1 p.2) :
    (Program.create node).Succeeds B (World.AddsValues exact) w fun v after =>
      after.Represents exact v t := by
  refine (succeeds_create node).weaken fun v after _ ⟨new, made⟩ => ?_
  subst new made
  exact .create layer each

theorem succeeds_environment (e : EnvironmentId) :
    (Program.access (.environment e)).Succeeds B (World.AddsValues exact) w fun found _ =>
      found = w.environment e :=
  ⟨_, _, .access (.environment e) w, .same w, rfl⟩

end Program

def World.Standard (w : World H) (e : EnvironmentId) : Prop :=
  (w.environment e).rules = StandardRule.inOrder.map .standard

theorem World.Growth.standard {after : World H} {e : EnvironmentId} [World.Growth R]
    (grown : R w after) (standard : w.Standard e) : after.Standard e := by
  rw [World.Standard, World.environment, World.Growth.environments grown]
  exact standard

theorem World.AddsValues.standard {after : World H} {e : EnvironmentId}
    (grown : World.AddsValues exact w after) (standard : w.Standard e) : after.Standard e :=
  World.Growth.standard grown standard

theorem World.Growth.settled {after : World H} {v : Value} [World.Growth R]
    (grown : R w after) (settled : w.Settled v) : after.Settled v where
  made := World.Growth.made grown settled.made
  fixed := by
    rw [World.Growth.node grown settled.made]
    exact settled.fixed
  recalls key regular := World.Growth.recalls grown settled.made regular
    (settled.recalls key regular)

theorem World.Growth.certain {after : World H} {v : Value} {key : KeyId}
    [World.Growth R] (grown : R w after) (certain : w.Certain v key)
    (regular : key.Regular) : after.Certain v key where
  made := World.Growth.made grown certain.made
  fixed := by
    rw [World.Growth.node grown certain.made]
    exact certain.fixed
  recalls := World.Growth.recalls grown certain.made regular certain.recalls

theorem rulesFor_standard {e : EnvironmentId} (standard : w.Standard e) (key : KeyId) :
    (w.environment e).rulesFor key = (StandardRule.forKey key).map .standard := by
  rw [Environment.rulesFor, standard, List.filter_map]
  rfl

theorem deriveAnswer_ruled {v : Value} {key : KeyId} (lacks : (w.node v).find? key = none)
    (ctx : Context) (standard : w.Standard ctx.environment) :
    deriveAnswer B w v key ctx =
      applyFirst B v ctx ((StandardRule.forKey key).map .standard) := by
  rw [deriveAnswer, lacks]
  dsimp only
  rw [rulesFor_standard standard]

section Searching
variable [World.Growth R]

theorem applyFirst_passes {v : Value} {ctx : Context} {rule : StandardRule} {rest : List (Rule H)}
    {p : Option (Payload H) → World H → Prop}
    (rejects : (rule.inference.apply v ctx).Succeeds B R w fun a _ => a = none)
    (later : ∀ w', R w w' → (applyFirst B v ctx rest).Succeeds B R w' p) :
    (applyFirst B v ctx (.standard rule :: rest)).Succeeds B R w p := by
  refine rejects.bind fun a w' grown none => ?_
  subst none
  exact later w' grown

theorem applyFirst_accepts {v : Value} {ctx : Context} {rule : StandardRule}
    {rest : List (Rule H)} {p : Option (Payload H) → World H → Prop}
    (accepts : (rule.inference.apply v ctx).Succeeds B R w fun a w' => a.isSome ∧ p a w') :
    (applyFirst B v ctx (.standard rule :: rest)).Succeeds B R w p := by
  refine accepts.bind fun a w' _ found => ?_
  cases a with
  | none => simp at found
  | some answer => exact .done found.2

theorem applyFirst_reads {v : Value} {ctx : Context}
    {reads : StandardRule → Option (Payload H)} (rules : List StandardRule)
    (each : ∀ r ∈ rules, ∀ w', R w w' →
      (r.inference.apply v ctx).Succeeds B R w' fun a _ => a = reads r) :
    (applyFirst B v ctx (rules.map .standard)).Succeeds B R w fun a _ =>
      a = rules.findSome? reads := by
  induction rules generalizing w with
  | nil => exact .done rfl
  | cons rule rest ih =>
    have here := each rule (List.mem_cons_self ..) w (World.Growth.same w)
    have there : ∀ w', R w w' →
        (applyFirst B v ctx (rest.map .standard)).Succeeds B R w' fun a _ =>
          a = rest.findSome? reads := fun w' grown =>
      ih fun r member w'' grown' =>
        each r (List.mem_cons_of_mem _ member) w'' (World.Growth.trans grown grown')
    cases found : reads rule with
    | none =>
      rw [found] at here
      rw [List.findSome?_cons_of_isNone (by simp [found])]
      exact applyFirst_passes here there
    | some answer =>
      rw [List.findSome?_cons, found]
      refine applyFirst_accepts (here.weaken fun a w' _ same => ?_)
      rw [same, found]
      exact ⟨rfl, rfl⟩

end Searching

structure CallStack.Clear (s : CallStack) (v : Value) : Prop where
  unlimited : s.limit = none
  only : ∀ p ∈ s.active, p.value = v → p.key = Key.text.id.index

theorem CallStack.Open.clear {s : CallStack} (opened : s.Open) (v : Value) : s.Clear v := by
  refine ⟨opened.unlimited, fun p member => ?_⟩
  rw [opened.idle] at member
  cases member

theorem CallStack.Clear.idle {s : CallStack} {v : Value} {key : KeyId} (clear : s.Clear v)
    (other : key.index ≠ Key.text.id.index) : ⟨v, key.index⟩ ∉ s.active := fun member =>
  other (clear.only _ member rfl)

structure Key.Regular (key : Key k) : Prop where
  declared : standardKinds[key.id.index]? = some k
  other : key.id.index ≠ Key.text.id.index

theorem Key.Regular.id {key : Key k} (regular : key.Regular) : key.id.Regular :=
  ⟨regular.other, (List.getElem?_eq_some_iff.mp regular.declared).1⟩

theorem deriveAnswer_succeeds [World.Growth R] {v : Value} {key : KeyId} {ctx : Context}
    {p : Option (Payload H) → Prop} (fixed : ∀ i ∈ (w.node v).instances, i.Fixed)
    (standard : w.Standard ctx.environment)
    (own : ∀ answer, (w.node v).own? key = some answer → p (some answer))
    (search : (w.node v).own? key = none →
      (applyFirst B v ctx ((StandardRule.forKey key).map .standard)).Succeeds B R
        w fun a _ => p a) :
    (deriveAnswer B w v key ctx).Succeeds B R w fun a _ => p a := by
  cases found : (w.node v).own? key with
  | some answer =>
    rw [deriveAnswer_own found]
    exact .done (own answer found)
  | none =>
    rw [deriveAnswer_ruled (Node.lacks_of_own fixed found) ctx standard]
    exact search found

/-- The derivation of an answer that can be read off the node. -/
theorem resolve_succeeds [World.Growth R] {v : Value} {key : KeyId} {ctx : Context}
    (certain : w.Certain v key) (standard : w.Standard ctx.environment) (regular : key.Regular)
    (unlimited : ctx.stack.limit = none) (idle : ⟨v, key.index⟩ ∉ ctx.stack.active)
    (search : ∀ inner : CallStack, inner.limit = none →
      inner.active = ⟨v, key.index⟩ :: ctx.stack.active →
      (applyFirst B v (ctx.withStack inner) ((StandardRule.forKey key).map .standard)).Succeeds B
        R w fun a _ => a = (StandardRule.forKey key).findSome? (·.reads (w.node v))) :
    (Program.resolve v key ctx).Succeeds B R w fun a _ => a = (w.node v).standard? key := by
  cases memo : w.remembered v key with
  | some answer =>
    have right := certain.recalls answer memo
    exact ⟨_, w, .resolve (.remembered memo ctx), World.Growth.same w, right.symm⟩
  | none =>
    obtain ⟨inner, admitted, unlimited', listed⟩ := derive_unlimited unlimited idle
    have derived : (deriveAnswer B w v key (ctx.withStack inner)).Succeeds B R w fun a _ =>
        a = (w.node v).standard? key := by
      refine deriveAnswer_succeeds certain.fixed standard (fun answer own => ?_) fun none => ?_
      · rw [Node.standard?, own, Option.some_or]
      · rw [Node.standard?, none, Option.none_or]
        exact search inner unlimited' listed
    obtain ⟨a, after, ends, grown, same⟩ := derived
    have settles := Program.Ends.resolve (.derived memo admitted ends)
    subst same
    cases found : (w.node v).standard? key with
    | none =>
      rw [found] at settles
      exact ⟨_, _, settles, grown, rfl⟩
    | some answer =>
      rw [found] at settles
      have here : (after.node v).standard? key = some answer := by
        rw [World.Growth.node grown certain.made, found]
      exact ⟨_, _, settles, World.Growth.trans grown
        (World.Growth.remember (World.Growth.made grown certain.made) regular here), rfl⟩

theorem StandardRule.kind_of_reads {n : Node H} {p : Payload H} {rule : StandardRule}
    (reads : rule.reads n = some p) : p.kind = rule.kind := by
  cases rule <;> first
    | cases reads
    | obtain ⟨x, -, rfl⟩ := Option.map_eq_some_iff.mp reads
      rfl

theorem StandardRule.kind_of_key (rule : StandardRule) :
    standardKinds[rule.key.id.index]? = some rule.kind := by
  cases rule <;> rfl

theorem StandardRule.text_of_kind {rule : StandardRule} (text : rule.kind = .text) :
    rule.key.id.index = Key.text.id.index := by
  cases rule <;> first
    | rfl
    | cases text

def formKeys : List Nat :=
  [Key.block.id.index, Key.list.id.index, Key.name.id.index, Key.number.id.index,
    Key.quoted.id.index, Key.definition.id.index]

theorem StandardRule.apart_of_form {j : Nat} (rule : StandardRule) (form : j ∈ formKeys) :
    rule.key.id.index ≠ j := by
  rintro rfl
  revert form
  cases rule <;> decide

theorem own?_typed {n : Node H} {key : KeyId} {p : Payload H} (fixed : ∀ i ∈ n.instances, i.Fixed)
    (declared : standardKinds[key.index]? = some k) (own : n.own? key = some p) : p.kind = k := by
  obtain ⟨i, newest, content⟩ := Option.bind_eq_some_iff.mp own
  have hit : (i.key.id == key) = true :=
    List.find?_some (p := fun i : Instance H => i.key.id == key) newest
  have same : i.key.id.index = key.index := KeyId.beq_iff_index_eq.mp hit
  rw [← same] at declared
  have typed := (fixed i (List.mem_of_find?_eq_some newest)).typed k declared
  obtain ⟨j, key, body⟩ := i
  cases body with
  | constant x =>
    cases content
    exact typed
  | «lazy» code => cases content

theorem standard?_typed {n : Node H} {key : Key k} {p : Payload H}
    (fixed : ∀ i ∈ n.instances, i.Fixed) (regular : key.Regular)
    (found : n.standard? key.id = some p) : p.kind = k := by
  have standard := regular.declared
  rcases Option.or_eq_some_iff.mp found with own | ⟨-, derived⟩
  · exact own?_typed fixed standard own
  · obtain ⟨rule, member, reads⟩ := List.exists_of_findSome?_eq_some derived
    have same : rule.key.id.index = key.id.index :=
      KeyId.beq_iff_index_eq.mp (List.mem_filter.mp member).2
    rw [← same, rule.kind_of_key] at standard
    rw [StandardRule.kind_of_reads reads]
    exact Option.some.inj standard

def Node.answer? (n : Node H) (key : Key k) : Option (k.Carrier H) :=
  (n.standard? key.id).bind (·.as? k)

section Reading
variable [World.Growth R]

theorem answer?_succeeds {v : Value} {key : Key k} {ctx : Context} (certain : w.Certain v key.id)
    (regular : key.Regular)
    (resolved : (Program.resolve v key.id ctx).Succeeds B R w fun a _ =>
      a = (w.node v).standard? key.id) :
    (v.answer? key ctx).Succeeds B R w fun a _ => a = (w.node v).answer? key := by
  refine resolved.bind fun a w' _ same => ?_
  rw [Node.answer?, ← same]
  cases a with
  | none => exact .done rfl
  | some p =>
    obtain ⟨j, content⟩ := p
    have typed := standard?_typed certain.fixed regular same.symm
    cases typed
    simp only [Payload.as?_self, Option.bind_some]
    exact .done rfl

theorem base_succeeds {v : Value} {key : Key k} {ctx : Context} (certain : w.Certain v key.id)
    (standard : w.Standard ctx.environment) (regular : key.Regular)
    (base : StandardRule.forKey key.id = []) (unlimited : ctx.stack.limit = none)
    (idle : ⟨v, key.id.index⟩ ∉ ctx.stack.active) :
    (v.answer? key ctx).Succeeds B R w fun a _ => a = (w.node v).form? key := by
  have search : (Program.resolve v key.id ctx).Succeeds B R w fun a _ =>
      a = (w.node v).standard? key.id :=
    resolve_succeeds certain standard regular.id unlimited idle fun inner _ _ => by
      rw [base]
      exact .done rfl
  have answered := answer?_succeeds certain regular search
  rw [Node.answer?, Node.standard?, base, List.findSome?_nil, Option.or_none] at answered
  exact answered

theorem direct_succeeds {j : Kind} {key : Key j} {f : j.Carrier H → k.Carrier H} {v : Value}
    {ctx : Context} {source : Option (j.Carrier H)}
    (asked : (v.answer? key ctx).Succeeds B R w fun a _ => a = source) :
    ((Inference.direct key f).apply v ctx).Succeeds B R w fun a _ =>
      a = source.map fun x => ⟨k, f x⟩ := by
  refine asked.bind fun a w' _ same => ?_
  subst same
  cases a with
  | none => exact .done rfl
  | some x => exact .after_pure (.done rfl)

theorem directAt_succeeds {j : Kind} {key : Key j}
    {f : j.Carrier H → Option Location → k.Carrier H} {v : Value} {ctx : Context}
    {source : Option (j.Carrier H)} (made : w.Made v)
    (asked : (v.answer? key ctx).Succeeds B R w fun a _ => a = source) :
    ((Inference.directAt key f).apply v ctx).Succeeds B R w fun a _ =>
      a = source.map fun x => ⟨k, f x (w.node v).location⟩ := by
  have checked : ((Validation.conformsAt key).check v ctx).Succeeds B R w fun a _ =>
      a = source.map fun x => (x, (w.node v).location) := by
    refine asked.bind fun a w' grown same => ?_
    subst same
    cases a with
    | none => exact .done rfl
    | some x =>
      refine (Program.succeeds_location v).bind fun l _ _ here => .done ?_
      rw [here, World.Growth.node grown made]
      rfl
  refine checked.bind fun a w' _ same => ?_
  subst same
  cases source with
  | none => exact .done rfl
  | some x => exact .after_pure (.done rfl)

/-- A standard rule that does not render reads its answer off the node. What it asks for is given by
    no rule. -/
theorem rule_succeeds {v : Value} {rule : StandardRule} {ctx : Context} (settled : w.Settled v)
    (standard : w.Standard ctx.environment) (other : rule.kind ≠ .text)
    (unlimited : ctx.stack.limit = none)
    (idle : ∀ j ∈ formKeys, ⟨v, j⟩ ∉ ctx.stack.active) :
    (rule.inference.apply v ctx).Succeeds B R w fun a _ => a = rule.reads (w.node v) := by
  have based : ∀ {j : Kind} {key : Key j}, key.Regular → StandardRule.forKey key.id = [] →
      key.id.index ∈ formKeys →
      (v.answer? key ctx).Succeeds B R w fun a _ => a = (w.node v).form? key :=
    fun regular base form => base_succeeds (settled.certain regular.id) standard regular base
      unlimited (idle _ form)
  have made := settled.made
  cases rule with
  | blockEvaluate | listEvaluate | nameEvaluate | nameAssign | quotedEvaluate
  | definitionFunction => exact direct_succeeds (based ⟨rfl, by decide⟩ rfl (by decide))
  | blockExpand | listExpand | nameExpand | quotedExpand =>
    exact directAt_succeeds made (based ⟨rfl, by decide⟩ rfl (by decide))
  | _ => exact absurd rfl other

end Reading

structure Value.Ready (w : World H) (v : Value) (n : Node H) (ctx : Context) : Prop where
  settled : w.Settled v
  node : w.node v = n
  standard : w.Standard ctx.environment
  clear : ctx.stack.Clear v

namespace Value.Ready
variable {v : Value} {n : Node H} {ctx : Context}

theorem grown {after : World H} [World.Growth R] (ready : v.Ready w n ctx)
    (grown : R w after) : v.Ready after n ctx where
  settled := World.Growth.settled grown ready.settled
  node := by rw [World.Growth.node grown ready.settled.made, ready.node]
  standard := World.Growth.standard grown ready.standard
  clear := ready.clear

theorem answer?_succeeds [World.Growth R] (ready : v.Ready w n ctx) {key : Key k}
    (regular : key.Regular) :
    (v.answer? key ctx).Succeeds B R w fun a _ => a = n.answer? key := by
  obtain ⟨settled, rfl, standard, clear⟩ := ready
  have certain := settled.certain regular.id
  refine TraitDispatch.answer?_succeeds certain regular (resolve_succeeds certain standard
    regular.id clear.unlimited (clear.idle regular.other) fun inner unlimited listed => ?_)
  refine applyFirst_reads _ fun rule member w' grown => ?_
  have same : rule.key.id.index = key.id.index :=
    KeyId.beq_iff_index_eq.mp (List.mem_filter.mp member).2
  have text : rule.kind ≠ .text := by
    intro text
    apply regular.other
    rw [← same]
    exact rule.text_of_kind text
  have idle : ∀ j ∈ formKeys, ⟨v, j⟩ ∉ inner.active := by
    intro j form busy
    rw [listed] at busy
    rcases List.mem_cons.mp busy with here | above
    · injection here with _ index
      exact rule.apart_of_form form (same.trans index.symm)
    · exact StandardRule.blockText.apart_of_form form (clear.only _ above rfl).symm
  have succeeds : (rule.inference.apply v (ctx.withStack inner)).Succeeds B R w' fun a _ =>
      a = rule.reads (w'.node v) :=
    rule_succeeds (World.Growth.settled grown settled) (World.Growth.standard grown standard) text
      unlimited idle
  rw [World.Growth.node grown settled.made] at succeeds
  exact succeeds

theorem answer_succeeds [World.Growth R] (ready : v.Ready w n ctx) {key : Key k}
    (regular : key.Regular) {x : k.Carrier H} (found : n.answer? key = some x) :
    (v.answer key ctx).Succeeds B R w fun a _ => a = x := by
  refine (ready.answer?_succeeds regular).bind fun a _ _ same => ?_
  subst same
  rw [found]
  exact .done rfl

theorem answers_succeeds [World.Growth R] (ready : v.Ready w n ctx) {key : Key k}
    (regular : key.Regular) :
    (v.answers key ctx).Succeeds B R w fun a _ => a = (n.answer? key).isSome :=
  (ready.answer?_succeeds regular).bind fun a _ _ same => .done (by rw [same])

end Value.Ready
end TraitDispatch
