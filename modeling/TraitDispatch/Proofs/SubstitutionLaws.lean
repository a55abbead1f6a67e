import Mathlib.Logic.Relation
import TraitDispatch.Proofs.Structure
import TraitDispatch.Proofs.Substitution

/- What expansions make of one another. A replacement that is put into a tree is walked again by the
   next expansion. So two expansions in a row come to the same as the two in the other order, if the
   replacement that is put in last is expanded itself. -/
namespace TraitDispatch
variable {H : Host} {B : Behaviour H} {w after : World H} {v u x r s : Value} {p q : Name}

inductive Node.Congruent (R : Value → Value → Prop) : Node H → Node H → Prop where
  | list {items others : List Value} (l : Option Location) (each : List.Forall₂ R items others) :
      Congruent R (.single Key.list ⟨items⟩ l) (.single Key.list ⟨others⟩ l)
  | block {rows others : List (List Value)} (l : Option Location)
      (each : List.Forall₂ (List.Forall₂ R) rows others) :
      Congruent R (.single Key.block ⟨rows⟩ l) (.single Key.block ⟨others⟩ l)
  | quoted {inner other : Value} (l : Option Location) (within : R inner other) :
      Congruent R (.single Key.quoted ⟨inner⟩ l) (.single Key.quoted ⟨other⟩ l)

/-- A list, a block or a quote of the value. -/
inductive Node.Holds (x : Value) : Node H → Prop where
  | item {items : List Value} {l : Option Location} (member : x ∈ items) :
      Holds x (.single Key.list ⟨items⟩ l)
  | statement {rows : List (List Value)} {row : List Value} {l : Option Location}
      (listed : row ∈ rows) (member : x ∈ row) : Holds x (.single Key.block ⟨rows⟩ l)
  | quoted {l : Option Location} : Holds x (.single Key.quoted ⟨x⟩ l)

namespace World

/-- The same structure and locations throughout, down to leaves that are the very same values. -/
inductive Matches (w : World H) : Value → Value → Prop where
  | same (v : Value) : Matches w v v
  | name {v u : Value} {n : Name} {l : Option Location} (node : w.node v = .single Key.name n l)
      (other : w.node u = .single Key.name n l) : Matches w v u
  | list {v u : Value} {items others : List Value} {l : Option Location}
      (node : w.node v = .single Key.list ⟨items⟩ l)
      (other : w.node u = .single Key.list ⟨others⟩ l) (even : items.length = others.length)
      (each : ∀ p ∈ items.zip others, Matches w p.1 p.2) : Matches w v u
  | block {v u : Value} {rows others : List (List Value)} {l : Option Location}
      (node : w.node v = .single Key.block ⟨rows⟩ l)
      (other : w.node u = .single Key.block ⟨others⟩ l)
      (even : rows.map List.length = others.map List.length)
      (each : ∀ p ∈ (List.zipWith List.zip rows others).flatten, Matches w p.1 p.2) :
      Matches w v u
  | quoted {v u inner other' : Value} {l : Option Location}
      (node : w.node v = .single Key.quoted ⟨inner⟩ l)
      (other : w.node u = .single Key.quoted ⟨other'⟩ l) (within : Matches w inner other') :
      Matches w v u

/-- The name is somewhere in the value, where expansion looks. -/
inductive Occurs (w : World H) (n : Name) : Value → Prop where
  | name {v : Value} {l : Option Location} (node : w.node v = .single Key.name n l) : Occurs w n v
  | part {v x : Value} (held : (w.node v).Holds x) (within : Occurs w n x) : Occurs w n v

end World

theorem Node.single_inj {k : Kind} {key : Key k} {a b : k.Carrier H} {l l' : Option Location}
    (same : Node.single key a l = Node.single key b l') : a = b ∧ l = l' := by
  unfold Node.single Node.add Node.bare Instance.constant at same
  cases same
  exact ⟨rfl, rfl⟩

theorem Node.Leaf.holds_none {n : Node H} (leaf : n.Leaf) : ¬ n.Holds x := by
  intro held
  cases leaf <;> cases held

namespace Node.Congruent
variable {R S T : Value → Value → Prop} {n m o : Node H}

theorem not_name {a : Name} {l : Option Location} :
    ¬ n.Congruent R (.single Key.name a l) := nofun

theorem imp (congruent : n.Congruent R m) (step : ∀ a b, R a b → S a b) : n.Congruent S m := by
  cases congruent with
  | list l each => exact .list l (each.imp step)
  | block l each => exact .block l (each.imp fun _ _ row => row.imp step)
  | quoted l within => exact .quoted l (step _ _ within)

theorem imp_held (congruent : n.Congruent R m) (step : ∀ a b, n.Holds a → R a b → S a b) :
    n.Congruent S m := by
  cases congruent with
  | list l each =>
    obtain ⟨even, pairs⟩ := forall₂_iff_pairs.mp each
    exact .list l (forall₂_iff_pairs.mpr ⟨even, fun q member =>
      step _ _ (.item (List.of_mem_zip member).1) (pairs q member)⟩)
  | block l each =>
    obtain ⟨even, pairs⟩ := forall₂_iff_pairs.mp each
    refine .block l (forall₂_iff_pairs.mpr ⟨even, fun q member => ?_⟩)
    obtain ⟨even', pairs'⟩ := forall₂_iff_pairs.mp (pairs q member)
    exact forall₂_iff_pairs.mpr ⟨even', fun q' member' =>
      step _ _ (.statement (List.of_mem_zip member).1 (List.of_mem_zip member').1)
        (pairs' q' member')⟩
  | quoted l within => exact .quoted l (step _ _ .quoted within)

theorem comp (first : n.Congruent R m) (second : m.Congruent S o) :
    n.Congruent (Relation.Comp R S) o := by
  have rows : ∀ xs ys zs, List.Forall₂ R xs ys → List.Forall₂ S ys zs →
      List.Forall₂ (Relation.Comp R S) xs zs :=
    fun _ _ _ => forall₂_trans fun _ b _ here there => ⟨b, here, there⟩
  cases first with
  | list l each =>
    cases second with
    | list _ each' => exact .list l (rows _ _ _ each each')
  | block l each =>
    cases second with
    | block _ each' => exact .block l (forall₂_trans rows each each')
  | quoted l within =>
    cases second with
    | quoted _ within' => exact .quoted l ⟨_, within, within'⟩

theorem held {P : Value → Prop} (congruent : n.Congruent (fun a _ => P a) m) :
    ∀ x, n.Holds x → P x := by
  intro x holds
  cases congruent with
  | list l each =>
    cases holds with
    | item member => exact left_of_forall₂ each x member
  | block l each =>
    cases holds with
    | statement listed member =>
      exact left_of_forall₂ (each.imp fun _ _ row => left_of_forall₂ row) _ listed x member
  | quoted l within =>
    cases holds
    exact within

theorem flip (congruent : n.Congruent R m) : m.Congruent (fun a b => R b a) n := by
  cases congruent with
  | list l each => exact .list l each.flip
  | block l each => exact .block l (each.flip.imp fun _ _ row => row.flip)
  | quoted l within => exact .quoted l within

end Node.Congruent

namespace World.Matches

theorem composite (parts : (w.node v).Congruent w.Matches (w.node u)) : w.Matches v u := by
  generalize node : w.node v = n at parts
  generalize other : w.node u = m at parts
  cases parts with
  | list l each =>
    obtain ⟨even, each⟩ := forall₂_iff_pairs.mp each
    exact .list node other even each
  | block l each =>
    obtain ⟨even, each⟩ := forall₂_iff_rows.mp each
    exact .block node other even each
  | quoted l within => exact .quoted node other within

theorem symm (same : w.Matches v u) : w.Matches u v := by
  induction same with
  | same v => exact .same v
  | name node other => exact .name other node
  | list node other even _ ih =>
    obtain ⟨even', each⟩ := forall₂_iff_pairs.mp (forall₂_iff_pairs.mpr ⟨even, ih⟩).flip
    exact .list other node even' each
  | block node other even _ ih =>
    have rows := (forall₂_iff_rows.mpr ⟨even, ih⟩).flip.imp fun _ _ row => row.flip
    obtain ⟨even', each⟩ := forall₂_iff_rows.mp rows
    exact .block other node even' each
  | quoted node other _ ih => exact .quoted other node ih

end World.Matches

namespace World.Substituted
variable {named : Option Name} {n : Name} {l : Option Location} {R : Value → Value → Prop}
  {m : Node H}

theorem of_name (holds : w.Substituted named r v u) (node : w.node v = .single Key.name n l) :
    (named = some n ∧ u = r) ∨ named ≠ some n ∧ w.node u = .single Key.name n l := by
  cases holds with
  | replaced other hit =>
    obtain ⟨rfl, -⟩ := Node.single_inj (node.symm.trans other)
    exact .inl ⟨hit, rfl⟩
  | name other miss rebuilt =>
    obtain ⟨rfl, rfl⟩ := Node.single_inj (node.symm.trans other)
    exact .inr ⟨miss, rebuilt⟩
  | list other => cases congrArg (·.form? Key.list) (node.symm.trans other)
  | block other => cases congrArg (·.form? Key.block) (node.symm.trans other)
  | quoted other => cases congrArg (·.form? Key.quoted) (node.symm.trans other)
  | leaf made leaf =>
    rw [node] at leaf
    cases leaf

theorem of_leaf (holds : w.Substituted named r v u) (leaf : (w.node v).Leaf) : u = v := by
  cases holds with
  | leaf => rfl
  | replaced node | name node | list node | block node | quoted node =>
    rw [node] at leaf
    cases leaf

theorem of_composite (holds : w.Substituted named r v u) (composite : (w.node v).Congruent R m) :
    (w.node v).Congruent (w.Substituted named r) (w.node u) := by
  cases holds with
  | replaced node | name node =>
    rw [node] at composite
    cases composite
  | list node rebuilt even each =>
    rw [node, rebuilt]
    exact .list _ (forall₂_iff_pairs.mpr ⟨even, each⟩)
  | block node rebuilt even each =>
    rw [node, rebuilt]
    exact .block _ (forall₂_iff_rows.mpr ⟨even, each⟩)
  | quoted node rebuilt within =>
    rw [node, rebuilt]
    exact .quoted _ within
  | leaf made leaf =>
    generalize w.node v = o at leaf composite
    cases leaf <;> cases composite

theorem sorts {motive : Value → Value → Prop}
    (name : ∀ {v u : Value} {n : Name} {l : Option Location}, w.node v = .single Key.name n l →
      w.Substituted named r v u → motive v u)
    (composite : ∀ {v u : Value}, (w.node v).Congruent motive (w.node u) → motive v u)
    (leaf : ∀ {v : Value}, (w.node v).Leaf → motive v v) (holds : w.Substituted named r v u) :
    motive v u := by
  induction holds with
  | replaced node hit => exact name node (.replaced node hit)
  | name node miss rebuilt => exact name node (.name node miss rebuilt)
  | list node rebuilt even _ ih =>
    refine composite ?_
    rw [node, rebuilt]
    exact .list _ (forall₂_iff_pairs.mpr ⟨even, ih⟩)
  | block node rebuilt even _ ih =>
    refine composite ?_
    rw [node, rebuilt]
    exact .block _ (forall₂_iff_rows.mpr ⟨even, ih⟩)
  | quoted node rebuilt _ ih =>
    refine composite ?_
    rw [node, rebuilt]
    exact .quoted _ ih
  | leaf _ leaf' => exact leaf leaf'

theorem unique (first : w.Substituted named r v u) (second : w.Substituted named r v x) :
    w.Matches u x := by
  refine sorts (motive := fun v u => ∀ x, w.Substituted named r v x → w.Matches u x)
    (fun node first x second => ?_) (fun parts x second => ?_) (fun leaf x second => ?_)
    first x second
  · rcases first.of_name node with ⟨hit, rfl⟩ | ⟨miss, rebuilt⟩ <;>
      rcases second.of_name node with ⟨hit', rfl⟩ | ⟨miss', rebuilt'⟩
    · exact .same _
    · exact absurd hit miss'
    · exact absurd hit' miss
    · exact .name rebuilt rebuilt'
  · refine .composite ((parts.flip.comp (second.of_composite parts)).imp ?_)
    rintro a c ⟨b, here, there⟩
    exact here c there
  · rw [second.of_leaf leaf]
    exact .same _

theorem untouched (holds : w.Substituted (some p) r v u) (absent : ¬ w.Occurs p v) :
    w.Matches v u := by
  refine sorts (motive := fun v u => ¬ w.Occurs p v → w.Matches v u)
    (fun node holds absent => ?_) (fun parts absent => ?_) (fun leaf absent => .same _) holds absent
  · rcases holds.of_name node with ⟨hit, -⟩ | ⟨-, rebuilt⟩
    · cases hit
      exact absurd (.name node) absent
    · exact .name node rebuilt
  · exact .composite (parts.imp_held fun a b held here =>
      here fun within => absent (.part held within))

theorem gone (holds : w.Substituted (some p) r v u) (absent : ¬ w.Occurs p r) :
    ¬ w.Occurs p u := by
  refine sorts (motive := fun _ u => ¬ w.Occurs p u) (fun node holds occurs => ?_)
    (fun parts occurs => ?_) (fun leaf occurs => ?_) holds
  · rcases holds.of_name node with ⟨-, rfl⟩ | ⟨miss, rebuilt⟩
    · exact absent occurs
    · cases occurs with
      | name other =>
        obtain ⟨rfl, -⟩ := Node.single_inj (rebuilt.symm.trans other)
        exact miss rfl
      | part held =>
        rw [rebuilt] at held
        cases held
  · cases occurs with
    | name other =>
      rw [other] at parts
      exact parts.not_name
    | part held within => exact parts.flip.held _ held within
  · cases occurs with
    | name other =>
      rw [other] at leaf
      cases leaf
    | part held => exact leaf.holds_none held

/-- The substitution lemma. What was put in for the one name is walked for the other, and so are the
    places where it is put in later. -/
theorem commute {x' u' r' : Value} (distinct : p ≠ q) (absent : ¬ w.Occurs p s)
    (inner : ∀ y, w.Substituted (some q) s r y → w.Matches y r')
    (first : w.Substituted (some p) r v u) (second : w.Substituted (some q) s u u')
    (other : w.Substituted (some q) s v x) (last : w.Substituted (some p) r' x x') :
    w.Matches u' x' := by
  refine sorts (motive := fun v u => ∀ u' x x', w.Substituted (some q) s u u' →
      w.Substituted (some q) s v x → w.Substituted (some p) r' x x' → w.Matches u' x')
    (fun node first u' x x' second other last => ?_) (fun parts u' x x' second other last => ?_)
    (fun leaf u' x x' second other last => ?_) first u' x x' second other last
  · rcases first.of_name node with ⟨hit, rfl⟩ | ⟨miss, rebuilt⟩
    · cases hit
      rcases other.of_name node with ⟨hit, -⟩ | ⟨-, kept⟩
      · cases hit
        exact absurd rfl distinct
      · rcases last.of_name kept with ⟨-, rfl⟩ | ⟨miss, -⟩
        · exact inner _ second
        · exact absurd rfl miss
    · rcases second.of_name rebuilt with ⟨hit, rfl⟩ | ⟨miss', again⟩ <;>
        rcases other.of_name node with ⟨hit', rfl⟩ | ⟨miss'', kept⟩
      · exact last.untouched absent
      · exact absurd hit miss''
      · exact absurd hit' miss'
      · rcases last.of_name kept with ⟨hit, -⟩ | ⟨-, final⟩
        · exact absurd hit miss
        · exact .name again final
  · have expanded := other.of_composite parts
    have left := (second.of_composite parts.flip).flip.comp parts.flip
    have right := expanded.comp (last.of_composite expanded.flip)
    refine .composite ((left.comp right).imp ?_)
    rintro a c ⟨b, ⟨y, here, step⟩, z, there, after⟩
    exact step a z c here there after
  · rw [second.of_leaf leaf]
    rw [other.of_leaf leaf] at last
    rw [last.of_leaf leaf]
    exact .same _

end World.Substituted

theorem Term.Layer.each_held {n : Node H} {t : Term} {parts : List (Value × Term)}
    {P : Value → Prop} (layer : Layer n t parts) (each : ∀ q ∈ parts, P q.1) :
    ∀ x, n.Holds x → P x := by
  intro x holds
  cases layer with
  | list l even =>
    cases holds with
    | item member => exact each_item even each x member
  | block l even =>
    cases holds with
    | statement listed member => exact each_statement even each _ listed x member
  | quoted inner t l =>
    cases holds
    exact each _ (List.mem_singleton_self _)
  | _ => cases holds

theorem World.Represents.occurs {exact : Prop} {t : Term} {n : Name}
    (holds : w.Represents exact v t) (node : ∀ u, w.Made u → after.node u = w.node u)
    (later : after.Occurs n v) : w.Occurs n v := by
  induction holds with
  | @intro v t parts settled _ layer _ ih =>
    have same := node v settled.made
    cases later with
    | name other => exact .name (same.symm.trans other)
    | part held within =>
      rw [same] at held
      have each := layer.each_held (P := fun x => after.Occurs n x → w.Occurs n x) ih
      exact .part held (each _ held within)

/-- The value answers that it is the name. -/
structure World.Named (w : World H) (v : Value) (n : Name) : Prop where
  certain : w.Certain v Key.name.id
  carries : (w.node v).form? Key.name = some n

theorem World.Named.grown {exact : Prop} {n : Name} (named : w.Named v n)
    (grown : World.AddsValues exact w after) : after.Named v n where
  certain := grown.certain named.certain (by decide)
  carries := by rw [grown.node v named.certain.made, named.carries]

/-- Forms that are rebuilt around what they hold. -/
def Term.isComposite : Term → Bool
  | .list _ _ | .block _ _ | .quoted _ _ => true
  | _ => false

theorem Term.isSyntax_of_isComposite {t : Term} (composite : t.isComposite = true) :
    t.isSyntax = true := by
  cases t <;> first
    | rfl
    | cases composite

theorem Term.isComposite_substitute {t : Term} (named : Option Name) (replacement : Term)
    (composite : t.isComposite = true) : (t.substitute named replacement).isComposite = true := by
  cases t <;> first
    | rfl
    | cases composite

namespace Value

/-- The value expanded for one parameter, and what comes of it for another. -/
def expandTwice (v first r second s : Value) (ctx : Context) : Program H Value := do
  (← v.expand first r ctx).expand second s ctx

variable {a b : Value} {t tr ts : Term} {ctx : Context}

theorem expand_composite (standard : w.Standard ctx.environment) (opened : ctx.stack.Open)
    (value : w.Represents False v t) (composite : t.isComposite = true) (named : w.Named a p)
    (x : Value) :
    (v.expand a x ctx).Succeeds B (World.AddsValues False) w fun u after =>
      after.Substituted (some p) x v u ∧
        ∀ t', w.Represents False x t' → ∃ t'', t''.isComposite = true ∧
          after.Represents False u t'' := by
  have expanded : (v.expand a x ctx).Succeeds B (World.AddsValues False) w
    (World.Expanded False w (some p) x v t) :=
    expand_replaces value named.certain named.carries (t.isSyntax_of_isComposite composite)
      (.same w) standard opened
  exact expanded.weaken fun u after _ ⟨substituted, stands⟩ => ⟨substituted, fun t' holds =>
    ⟨_, Term.isComposite_substitute _ t' composite, stands t' holds⟩⟩

theorem expandTwice_substitutes (standard : w.Standard ctx.environment) (opened : ctx.stack.Open)
    (value : w.Represents False v t) (composite : t.isComposite = true)
    (first : w.Represents False r tr) (named : w.Named a p) (named' : w.Named b q) :
    (v.expandTwice a r b s ctx).Succeeds B (World.AddsValues False) w fun u' after =>
      ∃ u, after.Substituted (some p) r v u ∧ after.Substituted (some q) s u u' := by
  refine (expand_composite standard opened value composite named r).bind
    fun u w₁ grown₁ ⟨substituted, stands⟩ => ?_
  obtain ⟨t', composite', holds⟩ := stands tr first
  refine (expand_composite (grown₁.standard standard) opened holds composite'
    (named'.grown grown₁) s).weaken fun u' w₂ grown₂ ⟨substituted', _⟩ => ?_
  exact ⟨u, substituted.grown grown₂, substituted'⟩

theorem expandOrSelf_substitutes (standard : w.Standard ctx.environment) (opened : ctx.stack.Open)
    (value : w.Represents False v t) (named : w.Named a p) (x : Value) :
    (v.expandOrSelf a x ctx).Succeeds B (World.AddsValues False) w fun u after =>
      after.Substituted (some p) x v u := by
  have expanded : (v.expandOrSelf a x ctx).Succeeds B (World.AddsValues False) w
      (World.Expanded False w (some p) x v t) :=
    expandOrSelf_replaces value (.same w) standard opened fun syntactic w' grown =>
      expand_replaces value named.certain named.carries syntactic grown (grown.standard standard)
        opened
  exact expanded.weaken fun u after _ holds => holds.1

end Value

/-- Of values that remember nothing foreign, two expansions in a row make the same in either order,
    if the replacement that is put in last is expanded itself. So expansions commute whose
    replacements do not hold the name of the other, and a name that was replaced by something
    without it is not replaced again. -/
theorem expansions_compose {a b : Value} {t tr ts : Term} {ctx : Context}
    (standard : w.Standard ctx.environment) (opened : ctx.stack.Open)
    (value : w.Represents False v t) (composite : t.isComposite = true)
    (first : w.Represents False r tr) (second : w.Represents False s ts) (named : w.Named a p)
    (named' : w.Named b q) (distinct : p ≠ q) :
    (¬ w.Occurs p s →
      (do
        let u ← v.expandTwice a r b s ctx
        let r' ← r.expandOrSelf b s ctx
        return (u, ← v.expandTwice b s a r' ctx) : Program H (Value × Value)).Succeeds B
          (World.AddsValues False) w
        fun both after => after.Matches both.1 both.2) ∧
    (¬ w.Occurs p s → ¬ w.Occurs q r →
      (do return (← v.expandTwice a r b s ctx, ← v.expandTwice b s a r ctx) :
        Program H (Value × Value)).Succeeds B (World.AddsValues False) w
        fun both after => after.Matches both.1 both.2) ∧
    (¬ w.Occurs p r → ∀ x : Value,
      (do
        let u ← v.expand a r ctx
        return (u, ← u.expand a x ctx) : Program H (Value × Value)).Succeeds B
          (World.AddsValues False) w
        fun both after => after.Matches both.1 both.2) := by
  -- All three laws are laws of substitution, read in the world where the last expansion ends.
  refine ⟨fun absent => ?_, fun absent absent' => ?_, fun absent x => ?_⟩
  · refine (Value.expandTwice_substitutes standard opened value composite first named named').bind
      fun u₂ w₁ grown₁ ⟨u₁, here, there⟩ => ?_
    refine (Value.expandOrSelf_substitutes (grown₁.standard standard) opened
      (grown₁.represents _ _ first) (named'.grown grown₁) s).bind fun r' w₂ grown₂ inner => ?_
    have grown := grown₁.trans grown₂
    refine (Value.expandTwice_substitutes (grown.standard standard) opened
      (grown.represents _ _ value) composite (grown.represents _ _ second) (named'.grown grown)
      (named.grown grown)).bind fun x₂ w₃ grown₃ ⟨x₁, other, last⟩ => .done ?_
    have lacks : ¬ w₃.Occurs p s := fun occurs =>
      absent (second.occurs (grown.trans grown₃).node occurs)
    have later := grown₂.trans grown₃
    have inner' := inner.grown grown₃
    exact (here.grown later).commute distinct lacks (fun _ found => found.unique inner')
      (there.grown later) other last
  · refine (Value.expandTwice_substitutes standard opened value composite first named named').bind
      fun u₂ w₁ grown₁ ⟨u₁, here, there⟩ => ?_
    refine (Value.expandTwice_substitutes (grown₁.standard standard) opened
      (grown₁.represents _ _ value) composite (grown₁.represents _ _ second) (named'.grown grown₁)
      (named.grown grown₁)).bind fun x₂ w₂ grown₂ ⟨x₁, other, last⟩ => .done ?_
    have kept := (grown₁.trans grown₂).node
    have lacks : ¬ w₂.Occurs p s := fun occurs => absent (second.occurs kept occurs)
    have lacks' : ¬ w₂.Occurs q r := fun occurs => absent' (first.occurs kept occurs)
    exact (here.grown grown₂).commute distinct lacks
      (fun _ inner => (inner.untouched lacks').symm) (there.grown grown₂) other last
  · refine (Value.expand_composite standard opened value composite named r).bind
      fun u w₁ grown₁ ⟨here, stands⟩ => ?_
    obtain ⟨t', composite', holds⟩ := stands tr first
    refine (Value.expand_composite (grown₁.standard standard) opened holds composite'
      (named.grown grown₁) x).bind fun u' w₂ grown₂ ⟨there, _⟩ => .done ?_
    have lacks : ¬ w₂.Occurs p r := fun occurs =>
      absent (first.occurs (grown₁.trans grown₂).node occurs)
    exact there.untouched ((here.grown grown₂).gone lacks)

def exchangingWorld : World Host.unit :=
  { World.initial () with
    cells := #[⟨.single Key.name ⟨"p"⟩ none, []⟩, ⟨.single Key.name ⟨"q"⟩ none, []⟩,
      ⟨.single Key.quoted ⟨⟨1⟩⟩ none, []⟩, ⟨.single Key.number ⟨0⟩ none, []⟩,
      ⟨.single Key.list ⟨[⟨0⟩, ⟨1⟩]⟩ none, []⟩]
    environments := #[{ rules := StandardRule.inOrder.map .standard }] }

theorem exchanged_names_compose :
    ¬ exchangingWorld.Occurs ⟨"p"⟩ ⟨3⟩ ∧ ¬ exchangingWorld.Occurs ⟨"p"⟩ ⟨2⟩ ∧
    (do
      let u ← (⟨4⟩ : Value).expandTwice ⟨0⟩ ⟨2⟩ ⟨1⟩ ⟨3⟩ ⟨⟨0⟩, .fresh⟩
      let r' ← (⟨2⟩ : Value).expandOrSelf ⟨1⟩ ⟨3⟩ ⟨⟨0⟩, .fresh⟩
      return (u, ← (⟨4⟩ : Value).expandTwice ⟨1⟩ ⟨3⟩ ⟨0⟩ r' ⟨⟨0⟩, .fresh⟩) :
      Program Host.unit (Value × Value)).Succeeds inert (World.AddsValues False) exchangingWorld
      fun both after => after.Matches both.1 both.2 := by
  have first : exchangingWorld.Represents False ⟨0⟩ (.name ⟨"p"⟩ none) := .of_read 4 rfl
  have second : exchangingWorld.Represents False ⟨1⟩ (.name ⟨"q"⟩ none) := .of_read 4 rfl
  have quote : exchangingWorld.Represents False ⟨2⟩ (.quoted (.name ⟨"q"⟩ none) none) :=
    .of_read 4 rfl
  have number : exchangingWorld.Represents False ⟨3⟩ (.number ⟨0⟩ none) := .of_read 4 rfl
  have list : exchangingWorld.Represents False ⟨4⟩
      (.list [.name ⟨"p"⟩ none, .name ⟨"q"⟩ none] none) := .of_read 4 rfl
  have lacks : ¬ exchangingWorld.Occurs ⟨"p"⟩ ⟨3⟩ := by
    intro occurs
    cases occurs with
    | name node => cases node
    | part held => cases held
  have misses : ¬ exchangingWorld.Occurs ⟨"p"⟩ ⟨2⟩ := by
    intro occurs
    cases occurs with
    | name node => cases node
    | part held within =>
      cases held
      cases within with
      | name node =>
        have node : (Node.single Key.name ⟨"q"⟩ none : Node Host.unit) = .single Key.name ⟨"p"⟩ _ :=
          node
        obtain ⟨same, -⟩ := Node.single_inj node
        exact absurd same (by decide)
      | part held => cases held
  have standard : exchangingWorld.Standard (Context.mk ⟨0⟩ .fresh).environment := rfl
  have laws := expansions_compose (w := exchangingWorld) (B := inert) (p := ⟨"p"⟩) (q := ⟨"q"⟩)
    standard ⟨rfl, rfl⟩ list rfl quote
    number ⟨first.settled.certain (by decide), rfl⟩ ⟨second.settled.certain (by decide), rfl⟩
    (by decide)
  exact ⟨lacks, misses, laws.1 lacks⟩

end TraitDispatch
