import Mathlib.Logic.Relation
import TraitDispatch.Proofs.Rendering

/- How values look that are made of constants, whatever instances they have and in whatever order.
   Each rule for renderings asks for one form, so that the first form decides that a value has. What
   a list or a quote looks like depends on what it holds, and a value never holds itself. -/
namespace TraitDispatch
variable {H : Host} {B : Behaviour H} {w mid after : World H} {v : Value} {n : Node H}
  {shown other : Value → String}

def Node.parts (n : Node H) : List Value :=
  ((n.answer? Key.block).elim [] fun b => b.statements.flatten) ++
    ((n.answer? Key.list).elim [] fun l => l.items) ++
      (n.answer? Key.quoted).elim [] fun q => [q.inner]

/-- What a rule for renderings makes of a node, given how the values look that it holds. -/
def StandardRule.shows (n : Node H) (shown : Value → String) : StandardRule → Option Text
  | .blockText => (n.answer? Key.block).map fun _ => ⟨"<block>", none⟩
  | .listText => (n.answer? Key.list).map fun l =>
    ⟨"(" ++ " ".intercalate (l.items.map shown) ++ ")", none⟩
  | .nameText => (n.answer? Key.name).map fun m => ⟨m.name, n.location⟩
  | .numberText => (n.answer? Key.number).map fun x => ⟨x.text, none⟩
  | .quotedText => (n.answer? Key.quoted).map fun q => ⟨"'" ++ shown q.inner, none⟩
  | .definitionText => (n.answer? Key.definition).map fun _ => ⟨"<macro>", none⟩
  | .functionText => (n.answer? Key.function).map fun _ => ⟨"<function>", none⟩
  | .blockEvaluate | .blockExpand | .listEvaluate | .listExpand | .nameEvaluate | .nameAssign
  | .nameExpand | .quotedEvaluate | .quotedExpand | .definitionFunction => none

def StandardRule.states (n : Node H) (shown : Value → String) (rule : StandardRule) :
    Option (Payload H) :=
  (rule.reads n).or ((rule.shows n shown).map (⟨.text, ·⟩))

/-- What a value with the node answers under the standard rules, renderings included. -/
def Node.states (n : Node H) (shown : Value → String) (key : KeyId) : Option (Payload H) :=
  (n.own? key).or ((StandardRule.forKey key).findSome? (·.states n shown))

def Node.look (n : Node H) (shown : Value → String) : String := shownBy (n.states shown Key.text.id)

theorem StandardRule.shows_other {rule : StandardRule} (other : rule.kind ≠ .text) :
    rule.shows n shown = none := by
  cases rule <;> first
    | rfl
    | exact absurd rfl other

theorem StandardRule.states_other {rule : StandardRule} (other : rule.kind ≠ .text) :
    rule.states n shown = rule.reads n := by
  rw [states, shows_other other, Option.map_none, Option.or_none]

theorem StandardRule.states_text {rule : StandardRule} (text : rule.kind = .text) :
    rule.states n shown = (rule.shows n shown).map (⟨.text, ·⟩) := by
  cases rule <;> first
    | rfl
    | cases text

theorem Node.states_congr {key other : KeyId} (same : other.index = key.index) :
    n.states shown other = n.states shown key := by
  simp only [states, own?, find?, StandardRule.forKey, KeyId.beq_congr same]

theorem states_regular {key : KeyId} (regular : key.Regular) :
    n.states shown key = n.standard? key := by
  have each : ∀ rule ∈ StandardRule.forKey key, rule.states n shown = rule.reads n := by
    intro rule member
    apply StandardRule.states_other
    intro text
    apply regular.1
    rw [← rule.text_of_kind text]
    exact (KeyId.beq_iff_index_eq.mp (List.mem_filter.mp member).2).symm
  rw [Node.states, Node.standard?]
  generalize StandardRule.forKey key = rules at each ⊢
  congr 1
  induction rules with
  | nil => rfl
  | cons rule rest ih =>
    rw [List.findSome?_cons, List.findSome?_cons, each rule (List.mem_cons_self ..),
      ih fun r member => each r (List.mem_cons_of_mem _ member)]

theorem Node.mem_parts {u : Value} :
    u ∈ n.parts ↔ (∃ b row, n.answer? Key.block = some b ∧ row ∈ b.statements ∧ u ∈ row) ∨
      (∃ l, n.answer? Key.list = some l ∧ u ∈ l.items) ∨
      ∃ q, n.answer? Key.quoted = some q ∧ u = q.inner := by
  rw [parts]
  cases n.answer? Key.block <;> cases n.answer? Key.list <;> cases n.answer? Key.quoted <;>
    simp [List.mem_flatten]

theorem states_of_parts (same : ∀ u ∈ n.parts, shown u = other u) (key : KeyId) :
    n.states shown key = n.states other key := by
  have each : ∀ rule : StandardRule, rule.states n shown = rule.states n other := by
    intro rule
    simp only [StandardRule.states]
    congr 2
    cases rule with
    | listText =>
      simp only [StandardRule.shows]
      cases found : n.answer? Key.list with
      | none => rfl
      | some l =>
        have items : l.items.map shown = l.items.map other := List.map_congr_left fun u member =>
          same u (Node.mem_parts.mpr (.inr (.inl ⟨l, found, member⟩)))
        rw [Option.map_some, Option.map_some, items]
    | quotedText =>
      simp only [StandardRule.shows]
      cases found : n.answer? Key.quoted with
      | none => rfl
      | some q =>
        rw [Option.map_some, Option.map_some,
          same q.inner (Node.mem_parts.mpr (.inr (.inr ⟨q, found, rfl⟩)))]
    | _ => rfl
  simp only [Node.states, each]

theorem answer?_base {k : Kind} (key : Key k) (base : StandardRule.forKey key.id = []) :
    n.answer? key = n.form? key := by
  rw [Node.answer?, Node.standard?, base, List.findSome?_nil, Option.or_none]
  rfl

theorem standard?_function (plain : n.form? Key.definition = none) :
    n.standard? Key.function.id = n.own? Key.function.id := by
  have rules : StandardRule.forKey Key.function.id = [.definitionFunction] := rfl
  rw [Node.standard?, rules, List.findSome?_singleton, StandardRule.reads, plain, Option.map_none,
    Option.or_none]

namespace World

/-- The value and all that it holds are made of constants and remember nothing but what the standard
    rules say. What the value looks like is determined by them. -/
inductive Appears (w : World H) : Value → String → Prop where
  | intro {v : Value} (shown : Value → String) (made : w.Made v)
      (fixed : ∀ i ∈ (w.node v).instances, i.Fixed)
      (recalls : ∀ key answer, w.remembered v key = some answer →
        (w.node v).states shown key = some answer)
      (each : ∀ u ∈ (w.node v).parts, Appears w u (shown u)) :
      Appears w v ((w.node v).look shown)

def Part (w : World H) (u v : Value) : Prop := u ∈ (w.node v).parts

theorem Appears.settled {s : String} (appears : w.Appears v s) : w.Settled v := by
  cases appears with
  | intro shown made fixed recalls each =>
    refine ⟨made, fixed, fun key regular answer found => ?_⟩
    rw [← states_regular regular]
    exact recalls key answer found

theorem Appears.unique {s t : String} (first : w.Appears v s) (second : w.Appears v t) : s = t := by
  induction first generalizing t with
  | intro shown _ _ _ _ ih =>
    cases second with
    | intro other _ _ _ each =>
      rw [Node.look, Node.look, states_of_parts fun u member => ih u member (each u member)]

theorem Appears.recalls {s : String} (appears : w.Appears v s)
    (each : ∀ u ∈ (w.node v).parts, w.Appears u (shown u)) (key : KeyId) (answer : Payload H)
    (found : w.remembered v key = some answer) : (w.node v).states shown key = some answer := by
  cases appears with
  | intro other _ _ right others =>
    rw [states_of_parts (fun u part => (each u part).unique (others u part)) key]
    exact right key answer found

theorem Appears.acyclic {s : String} (appears : w.Appears v s) :
    ¬ Relation.TransGen w.Part v v := by
  induction appears with
  | @intro v _ _ _ _ _ ih =>
    intro cycle
    obtain ⟨u, above, part⟩ := Relation.TransGen.tail'_iff.mp cycle
    exact ih u part (Relation.TransGen.head' part above)

structure KeepsLooks (w after : World H) : Prop
    extends KeepsNodes w after, KeepsAllButValues w after where
  recalls : ∀ v key, w.Made v → key.Regular → w.Recalls v key → after.Recalls v key
  appears : ∀ v s, w.Appears v s → after.Appears v s

theorem appears_of_recalls (nodes : w.KeepsNodes after)
    (right : ∀ v shown, w.Made v → (∀ u ∈ (w.node v).parts, w.Appears u (shown u)) →
      ∀ key answer, after.remembered v key = some answer →
        w.remembered v key = some answer ∨ (w.node v).states shown key = some answer)
    (s : String) (appears : w.Appears v s) : after.Appears v s := by
  induction appears with
  | @intro v shown here fixed recalls each ih =>
    have same := nodes.node v here
    rw [← same]
    refine .intro shown (nodes.made v here) ?_ (fun key answer found => ?_) ?_
    · rw [same]
      exact fixed
    · rw [same]
      rcases right v shown here each key answer found with old | new
      · exact recalls key answer old
      · exact new
    · rw [same]
      exact ih

theorem KeepsLooks.same (w : World H) : KeepsLooks w w :=
  ⟨.same w, .same w, fun _ _ _ _ recalls => recalls, fun _ _ appears => appears⟩

theorem KeepsLooks.trans (first : KeepsLooks w mid) (second : KeepsLooks mid after) :
    KeepsLooks w after where
  toKeepsNodes := first.toKeepsNodes.trans second.toKeepsNodes
  toKeepsAllButValues := first.toKeepsAllButValues.trans second.toKeepsAllButValues
  recalls v key made regular recalls :=
    second.recalls v key (first.made v made) regular (first.recalls v key made regular recalls)
  appears v s appears := second.appears v s (first.appears v s appears)

theorem KeepsLooks.create (w : World H) (node : Node H) : KeepsLooks w (w.create node).2 := by
  have grown : World.AddsValues False w (w.create node).2 := .create w node
  refine ⟨grown.toKeepsNodes, .create w node, grown.recalls, fun v s => ?_⟩
  refine appears_of_recalls grown.toKeepsNodes (fun u shown _ _ key answer found => .inl ?_) s
  rw [← found, World.remembered_create]

theorem KeepsLooks.remember {key : KeyId} {answer : Payload H}
    (regular : key.Regular → (w.node v).standard? key = some answer)
    (right : ∀ shown, (∀ u ∈ (w.node v).parts, w.Appears u (shown u)) →
      (w.node v).states shown key = some answer) : KeepsLooks w (w.remember v key answer) := by
  have grown : World.AddsValues False w (w.remember v key answer) :=
    .remember regular fun _ never => never.elim
  refine ⟨grown.toKeepsNodes, .remember w v key answer, grown.recalls, fun u s => ?_⟩
  refine appears_of_recalls grown.toKeepsNodes (fun u shown _ each other found recalled => ?_) s
  rcases World.remembered_of_remember recalled with ⟨rfl, index, rfl⟩ | old
  · rw [Node.states_congr index]
    exact .inr (right shown each)
  · exact .inl old

instance : World.Growth (KeepsLooks (H := H)) where
  same := .same
  trans first second := first.trans second
  made grown made := grown.made _ made
  node grown made := grown.node _ made
  recalls grown made regular recalls := grown.recalls _ _ made regular recalls
  environments grown := grown.environments
  create := .create
  remember _ regular right := by
    refine .remember (fun _ => right) fun shown _ => ?_
    rw [states_regular regular, right]

end World

section Composing
variable {R : World H → World H → Prop} [World.Growth R] {ctx : Context} {k : Kind}

theorem format_items_succeeds {items : List Value}
    (each : ∀ u ∈ items, ∀ w', R w w' → (u.format ctx).Succeeds B R w' fun s _ => s = shown u) :
    (items.mapM fun u : Value => u.format ctx).Succeeds B R w fun texts _ =>
      texts = items.map shown := by
  induction items generalizing w with
  | nil => exact .done rfl
  | cons u rest ih =>
    rw [List.mapM_cons]
    refine (each u (List.mem_cons_self ..) w (World.Growth.same w)).bind fun s w' grown here => ?_
    have others := ih (w := w') fun x member w'' grown' =>
      each x (List.mem_cons_of_mem _ member) w'' (World.Growth.trans grown grown')
    refine others.bind fun texts w'' _ there => .done ?_
    rw [here, there, List.map_cons]

theorem composed_succeeds {key : Key k} {source : Option (k.Carrier H)}
    {m : k.Carrier H → Context → Act H String} {f : k.Carrier H → String}
    (asked : (v.answer? key ctx).Succeeds B R w fun a _ => a = source)
    (rendered : ∀ x w', source = some x → R w w' →
      (m x ctx).Succeeds B R w' fun s _ => s = f x) :
    ((⟨_, .conforms key, fun x ctx => do return ⟨← (m x ctx).lift, none⟩⟩ :
      Inference H .text).apply v ctx).Succeeds B R w fun a _ =>
        a = source.map fun x => ⟨.text, ⟨f x, none⟩⟩ := by
  refine asked.bind fun a w' grown same => ?_
  subst same
  cases a with
  | none => exact .done rfl
  | some x =>
    have derived : (do return ⟨← (m x ctx).lift, none⟩ : Program H Text).Succeeds B R w'
        fun text _ => text = ⟨f x, none⟩ :=
      (Program.Succeeds.lift (rendered x w' rfl grown)).bind fun s _ _ right =>
        .done (by rw [right])
    refine derived.bind fun text _ _ right => .done ?_
    rw [right]
    rfl

theorem text_rule_succeeds {rule : StandardRule} (text : rule.kind = .text) (made : w.Made v)
    (node : w.node v = n)
    (asked : (v.answer? rule.source ctx).Succeeds B R w fun a _ => a = n.answer? rule.source)
    (formats : ∀ u ∈ n.parts, ∀ w', R w w' →
      (u.format ctx).Succeeds B R w' fun s _ => s = shown u) :
    (rule.inference.apply v ctx).Succeeds B R w fun a _ =>
      a = (rule.shows n shown).map (⟨.text, ·⟩) := by
  have location : (w.node v).location = n.location := by rw [node]
  cases rule with
  | blockText | numberText | definitionText | functionText =>
    refine (direct_succeeds asked).weaken fun a _ _ same => ?_
    rw [same, StandardRule.shows, Option.map_map]
    rfl
  | nameText =>
    refine (directAt_succeeds made asked).weaken fun a _ _ same => ?_
    rw [same, StandardRule.shows, Option.map_map, location]
    rfl
  | listText =>
    refine (composed_succeeds asked (f := fun l : ListForm =>
      "(" ++ " ".intercalate (l.items.map shown) ++ ")") fun l w' found grown => ?_).weaken
      fun a _ _ same => ?_
    · have items := format_items_succeeds fun u member w'' grown' =>
        formats u (Node.mem_parts.mpr (.inr (.inl ⟨l, found, member⟩))) w''
          (World.Growth.trans grown grown')
      exact items.bind fun texts _ _ here => .done (by rw [here])
    · rw [same, StandardRule.shows, Option.map_map]
      rfl
  | quotedText =>
    refine (composed_succeeds asked (f := fun q : Quoted => "'" ++ shown q.inner)
      fun q w' found grown => ?_).weaken fun a _ _ same => ?_
    · have inner := formats q.inner (Node.mem_parts.mpr (.inr (.inr ⟨q, found, rfl⟩))) w' grown
      exact inner.bind fun text _ _ here => .done (by rw [here])
    · rw [same, StandardRule.shows, Option.map_map]
      rfl
  | _ => cases text

end Composing

theorem World.KeepsLooks.remember_stated {key : KeyId} {answer : Payload H}
    (grown : w.KeepsLooks after) (made : w.Made v)
    (each : ∀ u ∈ (w.node v).parts, w.Appears u (shown u))
    (stated : (w.node v).states shown key = some answer) :
    after.KeepsLooks (after.remember v key answer) := by
  refine .remember (fun regular => ?_) fun other others => ?_
  · rw [grown.node v made, ← states_regular regular, stated]
  · rw [grown.node v made] at others ⊢
    rw [← stated]
    exact states_of_parts (fun u part =>
      (others u part).unique (grown.appears u _ (each u part))) key

end TraitDispatch
