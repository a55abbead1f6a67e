import TraitDispatch.Proofs.Memory
import TraitDispatch.Proofs.Term

/- Which values stand for terms. A value does so with its node, with the values its node holds, and
   with what it remembers: that must be what the standard rules say, since an answer given before
   is given again without a look at the rules. -/
namespace TraitDispatch
variable {H : Host}

def Instance.content? (i : Instance H) : Option (Payload H) :=
  match i.body with
  | .constant content => some ⟨i.kind, content⟩
  | .lazy _ => none

theorem Instance.content?_eq_some_iff {i : Instance H} {p : Payload H} :
    i.content? = some p ↔ ∃ x, i.body = .constant x ∧ p = ⟨i.kind, x⟩ := by
  unfold content?
  cases i.body <;> simp [eq_comm]

/-- Computed at once, and of the kind that its key has. -/
structure Instance.Fixed (i : Instance H) : Prop where
  constant : i.content?.isSome
  typed : ∀ k, standardKinds[i.key.id.index]? = some k → i.kind = k

namespace Node

def own? (n : Node H) (key : KeyId) : Option (Payload H) := (n.find? key).bind (·.content?)

def form? {k : Kind} (n : Node H) (key : Key k) : Option (k.Carrier H) :=
  (n.own? key.id).bind (·.as? k)

theorem lacks_of_own {n : Node H} {key : KeyId} (fixed : ∀ i ∈ n.instances, i.Fixed)
    (own : n.own? key = none) : n.find? key = none := by
  cases found : n.find? key with
  | none => rfl
  | some i =>
    have constant := (fixed i (List.mem_of_find?_eq_some found)).constant
    rw [own?, found, Option.bind_some] at own
    rw [own] at constant
    cases constant

end Node

theorem deriveAnswer_own {B : Behaviour H} {w : World H} {v : Value} {key : KeyId} {p : Payload H}
    (own : (w.node v).own? key = some p) (ctx : Context) :
    deriveAnswer B w v key ctx = pure (some p) := by
  obtain ⟨i, found, content⟩ := Option.bind_eq_some_iff.mp own
  obtain ⟨x, body, rfl⟩ := Instance.content?_eq_some_iff.mp content
  unfold deriveAnswer Instance.realize
  rw [found]
  dsimp only
  rw [body]
  rfl

/-- What the rule makes of a node. Renderings are not among these answers, since they depend on
    other values. -/
def StandardRule.reads (n : Node H) : StandardRule → Option (Payload H)
  | .blockEvaluate => (n.form? Key.block).map fun b => ⟨.evaluator, .block b⟩
  | .blockExpand => (n.form? Key.block).map fun b => ⟨.expander, .block b n.location⟩
  | .listEvaluate => (n.form? Key.list).map fun l => ⟨.evaluator, .list l⟩
  | .listExpand => (n.form? Key.list).map fun l => ⟨.expander, .list l n.location⟩
  | .nameEvaluate => (n.form? Key.name).map fun m => ⟨.evaluator, .name m⟩
  | .nameAssign => (n.form? Key.name).map fun m => ⟨.assigner, .name m⟩
  | .nameExpand => (n.form? Key.name).map fun m => ⟨.expander, .name m n.location⟩
  | .quotedEvaluate => (n.form? Key.quoted).map fun q => ⟨.evaluator, .quoted q.inner⟩
  | .quotedExpand => (n.form? Key.quoted).map fun q => ⟨.expander, .quoted q.inner n.location⟩
  | .definitionFunction => (n.form? Key.definition).map fun m => ⟨.function, .application m⟩
  | .blockText | .listText | .nameText | .numberText | .quotedText | .definitionText
  | .functionText => none

def StandardRule.forKey (key : KeyId) : List StandardRule :=
  inOrder.filter fun rule => rule.key.id == key

def Node.standard? (n : Node H) (key : KeyId) : Option (Payload H) :=
  (n.own? key).or ((StandardRule.forKey key).findSome? (·.reads n))

def KeyId.Regular (key : KeyId) : Prop :=
  key.index ≠ Key.text.id.index ∧ key.index < standardKinds.length

instance (key : KeyId) : Decidable key.Regular :=
  inferInstanceAs (Decidable (_ ∧ _))

theorem KeyId.beq_congr {key other : KeyId} (same : other.index = key.index) (k : KeyId) :
    (k == other) = (k == key) := by
  change (k.index == other.index) = (k.index == key.index)
  rw [same]

theorem Node.find?_congr (n : Node H) {key other : KeyId} (same : other.index = key.index) :
    n.find? other = n.find? key := by
  simp only [find?, KeyId.beq_congr same]

theorem Node.standard?_congr (n : Node H) {key other : KeyId} (same : other.index = key.index) :
    n.standard? other = n.standard? key := by
  simp only [standard?, own?, find?, StandardRule.forKey, KeyId.beq_congr same]

namespace World

/-- What is remembered under the key is what the standard rules say. -/
def Recalls (w : World H) (v : Value) (key : KeyId) : Prop :=
  ∀ answer, w.remembered v key = some answer → (w.node v).standard? key = some answer

/-- An answer under the key can only be what the standard rules say. -/
structure Certain (w : World H) (v : Value) (key : KeyId) : Prop where
  made : w.Made v
  fixed : ∀ i ∈ (w.node v).instances, i.Fixed
  recalls : w.Recalls v key

/-- So it is for every standard key, renderings apart. -/
structure Settled (w : World H) (v : Value) : Prop where
  made : w.Made v
  fixed : ∀ i ∈ (w.node v).instances, i.Fixed
  recalls : ∀ key : KeyId, key.Regular → w.Recalls v key

/-- A rendering that is remembered has just this text. -/
def Shows (w : World H) (v : Value) (shown : String) : Prop :=
  ∀ key answer, key.index = Key.text.id.index → w.remembered v key = some answer →
    ∃ text : Text, answer = ⟨.text, text⟩ ∧ text.text = shown

/-- Whether remembered renderings matter is left open. -/
inductive Represents (exact : Prop) (w : World H) : Value → Term → Prop where
  | intro {v : Value} {t : Term} {parts : List (Value × Term)} (settled : w.Settled v)
      (shows : exact → w.Shows v t.render) (layer : Term.Layer (w.node v) t parts)
      (each : ∀ p ∈ parts, Represents exact w p.1 p.2) : Represents exact w v t

variable {exact : Prop} {w mid after : World H}

theorem Represents.settled {v : Value} {t : Term} (represents : w.Represents exact v t) :
    w.Settled v := by
  cases represents with
  | intro settled => exact settled

theorem Represents.shows {v : Value} {t : Term} (represents : w.Represents exact v t) :
    exact → w.Shows v t.render := by
  cases represents with
  | intro _ shows => exact shows

theorem Represents.layered {v : Value} {t : Term} (represents : w.Represents exact v t) :
    ∃ parts, Term.Layer (w.node v) t parts := by
  cases represents with
  | intro _ _ layer => exact ⟨_, layer⟩

theorem Represents.same_look {v : Value} {t u : Term} (first : w.Represents exact v t)
    (second : w.Represents exact v u) : t.render = u.render ∧ t.depth = u.depth := by
  induction first generalizing u with
  | intro _ _ layer _ ih =>
    cases second with
    | intro _ _ other each =>
      refine layer.same_look other fun p member q member' same => ih p member ?_
      rw [same]
      exact each q member'

/-- A later world where values still stand for what they stood for. -/
structure KeepsTerms (exact : Prop) (w after : World H) : Prop extends KeepsNodes w after where
  recalls : ∀ v key, w.Made v → key.Regular → w.Recalls v key → after.Recalls v key
  represents : ∀ v t, w.Represents exact v t → after.Represents exact v t

/-- A later world that differs in its values only. -/
structure AddsValues (exact : Prop) (w after : World H) : Prop
    extends KeepsTerms exact w after, KeepsAllButValues w after

theorem KeepsTerms.same (w : World H) : KeepsTerms exact w w :=
  ⟨.same w, fun _ _ _ _ recalls => recalls, fun _ _ holds => holds⟩

theorem KeepsTerms.trans (first : KeepsTerms exact w mid) (second : KeepsTerms exact mid after) :
    KeepsTerms exact w after where
  toKeepsNodes := first.toKeepsNodes.trans second.toKeepsNodes
  recalls v key made regular recalls :=
    second.recalls v key (first.made v made) regular (first.recalls v key made regular recalls)
  represents v t holds := second.represents v t (first.represents v t holds)

theorem Settled.certain {v : Value} {key : KeyId} (settled : w.Settled v) (regular : key.Regular) :
    w.Certain v key := ⟨settled.made, settled.fixed, settled.recalls key regular⟩

theorem KeepsTerms.certain {v : Value} {key : KeyId} (keeps : KeepsTerms exact w after)
    (certain : w.Certain v key) (regular : key.Regular) : after.Certain v key where
  made := keeps.made v certain.made
  fixed := by
    rw [keeps.node v certain.made]
    exact certain.fixed
  recalls := keeps.recalls v key certain.made regular certain.recalls

theorem AddsValues.same (w : World H) : AddsValues exact w w := ⟨.same w, .same w⟩

theorem AddsValues.trans (first : AddsValues exact w mid) (second : AddsValues exact mid after) :
    AddsValues exact w after where
  toKeepsTerms := first.toKeepsTerms.trans second.toKeepsTerms
  toKeepsAllButValues := first.toKeepsAllButValues.trans second.toKeepsAllButValues

theorem KeepsTerms.of_recalls (nodes : w.KeepsNodes after)
    (recalls : ∀ v key, w.Made v → key.Regular → w.Recalls v key → after.Recalls v key)
    (shows : ∀ v t, w.Represents exact v t → exact → after.Shows v t.render) :
    KeepsTerms exact w after := by
  refine ⟨nodes, recalls, fun v t holds => ?_⟩
  induction holds with
  | @intro v t parts here shown layer each ih =>
    have again := shows v t (.intro here shown layer each)
    have settled : after.Settled v := by
      refine ⟨nodes.made v here.made, ?_, fun key regular =>
        recalls v key here.made regular (here.recalls key regular)⟩
      rw [nodes.node v here.made]
      exact here.fixed
    rw [← nodes.node v here.made] at layer
    exact .intro settled again layer ih

theorem KeepsTerms.of_memo_eq (nodes : w.KeepsNodes after)
    (memo : ∀ v key, after.remembered v key = w.remembered v key) : KeepsTerms exact w after := by
  refine .of_recalls nodes (fun v key here _ recalls answer found => ?_)
    fun v t holds e key answer text found => ?_
  · rw [memo] at found
    rw [nodes.node v here]
    exact recalls answer found
  · rw [memo] at found
    exact holds.shows e key answer text found

theorem KeepsTerms.of_cells_eq (same : after.cells = w.cells) : KeepsTerms exact w after :=
  .of_memo_eq (.of_cells_eq same) fun v key => by simp only [World.remembered, same]

theorem unmade_new (w : World H) (node : Node H) : ¬ w.Made (w.create node).1 :=
  Nat.lt_irrefl w.cells.size

theorem made_new (w : World H) (node : Node H) : (w.create node).2.Made (w.create node).1 := by
  simp only [World.Made, World.create, Array.size_push]
  omega

theorem remembered_unmade {v : Value} (unmade : ¬ w.Made v) (key : KeyId) :
    w.remembered v key = none := by
  have missing : w.cells[v.id]? = none := Array.getElem?_eq_none_iff.mpr (Nat.le_of_not_lt unmade)
  simp [World.remembered, missing]

theorem node_unmade {v : Value} (unmade : ¬ w.Made v) : w.node v = .bare none := by
  have missing : w.cells[v.id]? = none := Array.getElem?_eq_none_iff.mpr (Nat.le_of_not_lt unmade)
  simp [World.node, missing]

theorem made_of_instances {v : Value} (some : (w.node v).instances ≠ []) : w.Made v := by
  apply Classical.byContradiction
  intro unmade
  exact some (by rw [node_unmade unmade, Node.bare])

theorem remembered_new (w : World H) (node : Node H) (key : KeyId) :
    (w.create node).2.remembered (w.create node).1 key = none := by
  rw [World.remembered_create, remembered_unmade (unmade_new w node)]

theorem node_new (w : World H) (node : Node H) :
    (w.create node).2.node (w.create node).1 = node := by
  rw [World.node_create, if_pos rfl]

theorem AddsValues.create (w : World H) (node : Node H) : AddsValues exact w (w.create node).2 :=
  ⟨.of_memo_eq (.create w node) (World.remembered_create w node), .create w node⟩

theorem settled_new {node : Node H} (w : World H) (fixed : ∀ i ∈ node.instances, i.Fixed) :
    (w.create node).2.Settled (w.create node).1 where
  made := made_new w node
  fixed := by
    rw [node_new]
    exact fixed
  recalls key _ answer found := by
    rw [remembered_new] at found
    cases found

end World

theorem Instance.fixed_constant {k : Kind} {key : Key k}
    (standard : standardKinds[key.id.index]? = some k) (content : k.Carrier H) :
    (Instance.constant key content).Fixed where
  constant := rfl
  typed j declared := by
    change standardKinds[key.id.index]? = some j at declared
    rw [standard] at declared
    exact Option.some.inj declared

theorem Node.fixed_single {k : Kind} {key : Key k}
    (standard : standardKinds[key.id.index]? = some k) (content : k.Carrier H)
    (l : Option Location) : ∀ i ∈ (Node.single key content l).instances, i.Fixed := by
  intro i member
  rw [List.mem_singleton.mp member]
  exact Instance.fixed_constant standard content

theorem Term.Layer.fixed {n : Node H} {t : Term} {parts : List (Value × Term)}
    (layer : Layer n t parts) : ∀ i ∈ n.instances, i.Fixed := by
  cases layer with
  | empty => exact fun i member => nomatch member
  | _ => exact Node.fixed_single rfl _ _

theorem Term.Layer.find?_text {n : Node H} {t : Term} {parts : List (Value × Term)}
    (layer : Layer n t parts) : n.find? Key.text.id = none := by
  cases layer <;> rfl

theorem Term.Layer.location_eq {n : Node H} {t : Term} {parts : List (Value × Term)}
    (layer : Layer n t parts) : n.location = t.location := by
  cases layer <;> rfl

namespace World
variable {exact : Prop} {w mid after : World H}

theorem Represents.of_blank {v : Value} {t : Term} {parts : List (Value × Term)}
    (made : w.Made v) (blank : ∀ key, w.remembered v key = none)
    (layer : Term.Layer (w.node v) t parts) (each : ∀ p ∈ parts, w.Represents exact p.1 p.2) :
    w.Represents exact v t := by
  refine .intro ⟨made, layer.fixed, fun key _ answer found => ?_⟩ (fun _ key answer _ found => ?_)
    layer each
  · rw [blank] at found
    cases found
  · rw [blank] at found
    cases found

theorem Represents.create {node : Node H} {t : Term} {parts : List (Value × Term)}
    (layer : Term.Layer node t parts) (each : ∀ p ∈ parts, w.Represents exact p.1 p.2) :
    (w.create node).2.Represents exact (w.create node).1 t := by
  rw [← node_new w node] at layer
  exact .of_blank (made_new w node) (remembered_new w node) layer fun p member =>
    (AddsValues.create w node).represents p.1 p.2 (each p member)

theorem Represents.create_list {items : List Value} {ts : List Term} (l : Option Location)
    (each : List.Forall₂ (w.Represents exact) items ts) :
    (w.create (.single Key.list ⟨items⟩ l)).2.Represents exact
      (w.create (.single Key.list ⟨items⟩ l)).1 (.list ts l) := by
  obtain ⟨even, each⟩ := forall₂_iff_pairs.mp each
  exact .create (.list l even) each

theorem Represents.create_block {statements : List (List Value)} {rows : List (List Term)}
    (l : Option Location)
    (each : List.Forall₂ (List.Forall₂ (w.Represents exact)) statements rows) :
    (w.create (.single Key.block ⟨statements⟩ l)).2.Represents exact
      (w.create (.single Key.block ⟨statements⟩ l)).1 (.block rows l) := by
  obtain ⟨even, each⟩ := forall₂_iff_rows.mp each
  exact .create (.block l even) each

theorem Represents.location_eq {v : Value} {t : Term} (holds : w.Represents exact v t) :
    (w.node v).location = t.location := by
  cases holds with
  | intro _ _ layer _ => exact layer.location_eq

theorem Recalls.remember {v u : Value} {key other : KeyId} {answer : Payload H}
    (standard : key.Regular → (w.node v).standard? key = some answer) (regular : other.Regular)
    (recalls : w.Recalls u other) : (w.remember v key answer).Recalls u other := by
  intro found recalled
  rw [node_remember]
  rcases remembered_of_remember recalled with ⟨rfl, index, rfl⟩ | old
  · rw [Node.standard?_congr _ index]
    rw [KeyId.Regular, index] at regular
    exact standard regular
  · exact recalls found old

theorem AddsValues.remember {v : Value} {key : KeyId} {answer : Payload H}
    (standard : key.Regular → (w.node v).standard? key = some answer)
    (rendering : key.index = Key.text.id.index → exact → ∀ t, w.Represents exact v t →
      ∃ text : Text, answer = ⟨.text, text⟩ ∧ text.text = t.render) :
    AddsValues exact w (w.remember v key answer) := by
  refine ⟨.of_recalls (.remember w v key answer)
    (fun u other _ regular recalls => recalls.remember standard regular)
    fun u t holds e other found text recalled => ?_, .remember w v key answer⟩
  rcases remembered_of_remember recalled with ⟨rfl, index, rfl⟩ | old
  · exact rendering (index ▸ text) e t holds
  · exact holds.shows e other found text old

end World
end TraitDispatch
