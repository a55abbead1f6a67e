import TraitDispatch.Proofs.Reading
import TraitDispatch.Proofs.Rendering

/- Expansion under the standard rules is substitution. The walk goes from rule to rule through
   dispatch, wraps every statement in a list of its own and rebuilds each form at its place; what
   comes out differs from what went in by the names replaced, and by nothing else. -/
namespace TraitDispatch
variable {H : Host} {B : Behaviour H} {exact : Prop} {w : World H} {R : World H → World H → Prop}

/-- Forms that expansion does not look into. -/
inductive Node.Leaf : Node H → Prop where
  | empty (l : Option Location) : Leaf (.bare l)
  | number (n : Number) (l : Option Location) : Leaf (.single Key.number n l)
  | definition (m : Macro) (l : Option Location) : Leaf (.single Key.definition m l)
  | function (f : Function H.Code) (l : Option Location) : Leaf (.single Key.function f l)

/-- The second value is the first with the replacement at each occurrence of the name. It has the
    same forms in the same places, and the very same values for leaves. -/
inductive World.Substituted (w : World H) (named : Option Name) (replacement : Value) :
    Value → Value → Prop where
  | replaced {v : Value} {n : Name} {l : Option Location}
      (node : w.node v = .single Key.name n l) (hit : named = some n) :
      Substituted w named replacement v replacement
  | name {v u : Value} {n : Name} {l : Option Location}
      (node : w.node v = .single Key.name n l) (miss : named ≠ some n)
      (rebuilt : w.node u = .single Key.name n l) : Substituted w named replacement v u
  | list {v u : Value} {items others : List Value} {l : Option Location}
      (node : w.node v = .single Key.list ⟨items⟩ l)
      (rebuilt : w.node u = .single Key.list ⟨others⟩ l) (even : items.length = others.length)
      (each : ∀ p ∈ items.zip others, Substituted w named replacement p.1 p.2) :
      Substituted w named replacement v u
  | block {v u : Value} {statements others : List (List Value)} {l : Option Location}
      (node : w.node v = .single Key.block ⟨statements⟩ l)
      (rebuilt : w.node u = .single Key.block ⟨others⟩ l)
      (even : statements.map List.length = others.map List.length)
      (each : ∀ p ∈ (List.zipWith List.zip statements others).flatten,
        Substituted w named replacement p.1 p.2) :
      Substituted w named replacement v u
  | quoted {v u inner other : Value} {l : Option Location}
      (node : w.node v = .single Key.quoted ⟨inner⟩ l)
      (rebuilt : w.node u = .single Key.quoted ⟨other⟩ l)
      (within : Substituted w named replacement inner other) :
      Substituted w named replacement v u
  | leaf {v : Value} (made : w.Made v) (leaf : (w.node v).Leaf) :
      Substituted w named replacement v v

theorem World.AddsValues.single {after : World H} {k : Kind} {key : Key k} {x : k.Carrier H}
    {l : Option Location} {v : Value} (grown : World.AddsValues exact w after)
    (node : w.node v = .single key x l) : after.node v = .single key x l := by
  have made : w.Made v := World.made_of_instances (by simp [node, Node.single, Node.add])
  rw [grown.node v made, node]

theorem World.Substituted.grown {after : World H} {named : Option Name} {replacement v u : Value}
    (grown : World.AddsValues exact w after) (holds : w.Substituted named replacement v u) :
    after.Substituted named replacement v u := by
  induction holds with
  | replaced node hit => exact .replaced (grown.single node) hit
  | name node miss rebuilt => exact .name (grown.single node) miss (grown.single rebuilt)
  | list node rebuilt even _ ih =>
    exact .list (grown.single node) (grown.single rebuilt) even ih
  | block node rebuilt even _ ih =>
    exact .block (grown.single node) (grown.single rebuilt) even ih
  | quoted node rebuilt _ ih => exact .quoted (grown.single node) (grown.single rebuilt) ih
  | leaf made leaf =>
    rw [← grown.node _ made] at leaf
    exact .leaf (grown.made _ made) leaf

def World.Stands (exact : Prop) (start : World H) (named : Option Name) (replacement : Value)
    (w : World H) (t : Term) (u : Value) : Prop :=
  ∀ r, start.Represents exact replacement r → w.Represents exact u (t.substitute named r)

theorem World.Stands.grown {start after : World H} {named : Option Name} {replacement u : Value}
    {t : Term} (grown : World.AddsValues exact w after)
    (stands : World.Stands exact start named replacement w t u) :
    World.Stands exact start named replacement after t u := fun r holds =>
  grown.represents u _ (stands r holds)

section Expansion
variable {start : World H} {parameter replacement : Value} {named : Option Name} {ctx : Context}
  {p : Value → World H → Prop}

theorem expand_succeeds [World.Growth R] {v : Value} {f : Expander H.Code}
    (settled : w.Settled v) (standard : w.Standard ctx.environment) (opened : ctx.stack.Open)
    (labelled : ∀ w', R w w' → (v.format ctx).Succeeds B R w' fun _ _ => True)
    (found : (w.node v).answer? Key.expand = some f)
    (applied : ∀ w' inner, R w w' → inner.environment = ctx.environment →
      inner.stack.Open → (f.apply B parameter replacement inner).Succeeds B R w' p) :
    (v.expand parameter replacement ctx).Succeeds B R w p := by
  refine (Program.succeeds_location v).bind fun l w₁ grown₁ _ => ?_
  have label : (do return s!"expanding {← v.format ctx}" : Act H String).Succeeds B R w₁
      fun _ _ => True := (labelled w₁ grown₁).bind fun _ _ _ _ => .done trivial
  refine (enter_succeeds opened label l).bind
    fun inner w₂ grown₂ ⟨same, opened', _⟩ => ?_
  have grown := World.Growth.trans grown₁ grown₂
  have standard₂ : w₂.Standard inner.environment := by
    rw [same]
    exact World.Growth.standard grown standard
  have ready : v.Ready w₂ (w.node v) inner :=
    ⟨World.Growth.settled grown settled, World.Growth.node grown settled.made, standard₂,
      opened'.clear v⟩
  refine (ready.answer_succeeds ⟨rfl, by decide⟩ found).bind fun a w₃ grown₃ here => ?_
  subst here
  exact Program.succeeds_expand (applied w₃ inner (World.Growth.trans grown grown₃) same opened')

theorem expand_of_apply {v : Value} {t : Term} {f : Expander H.Code}
    (holds : w.Represents exact v t) (standard : w.Standard ctx.environment)
    (opened : ctx.stack.Open) (found : (w.node v).answer? Key.expand = some f)
    (applied : ∀ w' inner, World.AddsValues exact w w' → inner.environment = ctx.environment →
      inner.stack.Open → (f.apply B parameter replacement inner).Succeeds B
        (World.AddsValues exact) w' p) :
    (v.expand parameter replacement ctx).Succeeds B (World.AddsValues exact) w p := by
  refine expand_succeeds holds.settled standard opened (fun w' grown => ?_) found
    applied
  have formatted := format_renders (B := B) (grown.represents v t holds) (.same w')
    (grown.standard standard) (opened.above _)
  exact Act.Succeeds.weaken formatted fun _ _ _ _ => trivial

theorem expander_of_layer {n : Node H} {t : Term} {parts : List (Value × Term)}
    (layer : Term.Layer n t parts) : (n.answer? Key.expand).isSome = t.isSyntax := by
  cases layer <;> rfl

theorem leaf_of_layer {n : Node H} {t : Term} {parts : List (Value × Term)}
    (layer : Term.Layer n t parts) (leaf : t.isSyntax = false) : n.Leaf := by
  cases layer with
  | empty l => exact .empty l
  | number n l => exact .number n l
  | definition _ _ _ _ l => exact .definition _ l
  | display l => exact .function .display l
  | definer l => exact .function .definer l
  | definerOf v _ l => exact .function (.definerOf v) l
  | function f l => exact .function f l
  | _ => cases leaf

def World.Expanded (exact : Prop) (start : World H) (named : Option Name) (replacement v : Value)
    (t : Term) (u : Value) (after : World H) : Prop :=
  after.Substituted named replacement v u ∧ World.Stands exact start named replacement after t u

theorem expandOrSelf_replaces {v : Value} {t : Term} (holds : start.Represents exact v t)
    (grown : World.AddsValues exact start w) (standard : w.Standard ctx.environment)
    (opened : ctx.stack.Open)
    (expand : t.isSyntax = true → ∀ w', World.AddsValues exact w w' →
      (v.expand parameter replacement ctx).Succeeds B (World.AddsValues exact) w'
        (World.Expanded exact start named replacement v t)) :
    (v.expandOrSelf parameter replacement ctx).Succeeds B (World.AddsValues exact) w
      (World.Expanded exact start named replacement v t) := by
  have here := grown.represents v t holds
  have ready := here.ready standard opened
  refine (ready.answers_succeeds ⟨rfl, by decide⟩).bind fun answers w' grown' same => ?_
  subst same
  obtain ⟨parts, layer⟩ := here.layered
  rw [expander_of_layer layer]
  cases syntactic : t.isSyntax with
  | true => exact expand syntactic w' grown'
  | false =>
    have made := here.settled.made
    refine .done ⟨.leaf (grown'.made v made) ?_, fun r _ => ?_⟩
    · rw [grown'.node v made]
      exact leaf_of_layer layer syntactic
    · rw [Term.substitute_of_not_syntax _ _ syntactic]
      exact (grown.trans grown').represents v t holds

theorem represents_of_stands {ts : List Term} {others : List Value} {r : Term}
    (stands : List.Forall₂ (World.Stands exact start named replacement w) ts others)
    (holds : start.Represents exact replacement r) :
    List.Forall₂ (w.Represents exact) others (ts.map (·.substitute named r)) := by
  rw [List.forall₂_map_right_iff]
  exact (stands.imp fun _ _ h => h r holds).flip

theorem createList_represents {items : List Value} {ts : List Term}
    (holds : List.Forall₂ (w.Represents exact) items ts) :
    (createList items).Succeeds B (World.AddsValues exact) w fun u after =>
      after.Represents exact u (.listed ts) ∧
      after.node u = .single Key.list ⟨items⟩ (ts.head?.bind (·.location)) := by
  cases holds with
  | nil =>
    refine (Program.succeeds_create _).weaken fun u after _ ⟨new, made⟩ => ?_
    subst new made
    exact ⟨.create_list none .nil, World.node_new _ _⟩
  | @cons item t items ts first rest =>
    refine (Program.succeeds_location item).bind fun l w₁ grown₁ here => ?_
    refine (Program.succeeds_create _).weaken fun u after _ ⟨new, made⟩ => ?_
    subst new made
    rw [first.location_eq] at here
    subst here
    have all := List.Forall₂.cons first rest
    exact ⟨.create_list _ (all.imp fun _ _ h => grown₁.represents _ _ h), World.node_new _ _⟩

def ExpandAll (B : Behaviour H) (exact : Prop) (start : World H) (named : Option Name)
    (parameter replacement : Value) (ctx : Context) : List Value → List Term → Prop :=
  List.Forall₂ fun item t => ∀ w', World.AddsValues exact start w' →
    w'.Standard ctx.environment →
    (item.expandOrSelf parameter replacement ctx).Succeeds B (World.AddsValues exact) w'
      (World.Expanded exact start named replacement item t)

theorem items_give {items : List Value} {ts : List Term} (grown : World.AddsValues exact start w)
    (standard : w.Standard ctx.environment)
    (each : ExpandAll B exact start named parameter replacement ctx items ts) :
    (items.mapM fun item : Value => item.expandOrSelf parameter replacement ctx).Succeeds B
      (World.AddsValues exact) w fun others after =>
      List.Forall₂ (after.Substituted named replacement) items others ∧
      List.Forall₂ (World.Stands exact start named replacement after) ts others := by
  have again : List.Forall₂ (fun item t => ∀ w', World.AddsValues exact w w' →
      (item.expandOrSelf parameter replacement ctx).Succeeds B (World.AddsValues exact) w'
        (World.Expanded exact start named replacement item t)) items ts :=
    each.imp fun item t succeeds w' grown' =>
      succeeds w' (grown.trans grown') (grown'.standard standard)
  exact Program.mapM_succeeds (fun after => after.Substituted named replacement)
    (World.Stands exact start named replacement)
    (fun _ _ _ _ grown => World.Substituted.grown grown)
    (fun _ _ _ _ grown => World.Stands.grown grown) again (.same w)

theorem substituted_list {v u : Value} {items others : List Value} {l : Option Location}
    (node : w.node v = .single Key.list ⟨items⟩ l)
    (rebuilt : w.node u = .single Key.list ⟨others⟩ l)
    (each : List.Forall₂ (w.Substituted named replacement) items others) :
    w.Substituted named replacement v u := by
  obtain ⟨even, each⟩ := forall₂_iff_pairs.mp each
  exact .list node rebuilt even each

theorem expand_list_replaces {v : Value} {items : List Value} {ts : List Term}
    {l : Option Location} (holds : w.Represents exact v (.list ts l))
    (node : w.node v = .single Key.list ⟨items⟩ l) (standard : w.Standard ctx.environment)
    (opened : ctx.stack.Open) (grown : World.AddsValues exact start w)
    (each : ∀ inner : Context, inner.environment = ctx.environment → inner.stack.Open →
      ExpandAll B exact start named parameter replacement inner items ts) :
    (v.expand parameter replacement ctx).Succeeds B (World.AddsValues exact) w fun u after =>
      after.Settled u ∧ World.Stands exact start named replacement after (.list ts l) u ∧
      ∃ others, after.node u = .single Key.list ⟨others⟩ l ∧
        List.Forall₂ (after.Substituted named replacement) items others ∧
        List.Forall₂ (World.Stands exact start named replacement after) ts others := by
  have found : (w.node v).answer? Key.expand = some (.list ⟨items⟩ l) := by
    rw [node]
    rfl
  refine expand_of_apply holds standard opened found fun w₁ inner grown₁ same opened' => ?_
  have standard₁ : w₁.Standard inner.environment := by
    rw [same]
    exact grown₁.standard standard
  have expanded : (ListForm.expand ⟨items⟩ parameter replacement inner).Succeeds B
      (World.AddsValues exact) w₁ fun form after =>
      List.Forall₂ (after.Substituted named replacement) items form.items ∧
        List.Forall₂ (World.Stands exact start named replacement after) ts form.items :=
    (items_give (grown.trans grown₁) standard₁ (each inner same opened')).bind
      fun others _ _ result => .done result
  refine expanded.create fun form w₂ grown₂ ⟨substituted, stands⟩ grown₃ => ?_
  refine ⟨World.settled_new w₂ (Node.fixed_single rfl _ l), fun r holds' => ?_,
    form.items, World.node_new _ _, substituted.imp fun _ _ h => h.grown grown₃,
    stands.imp fun _ _ h => h.grown grown₃⟩
  rw [Term.substitute, Term.substituteAll_eq_map]
  exact .create_list l (represents_of_stands stands holds')

theorem expandStatement_replaces {statement : List Value} {ts : List Term}
    (holds : List.Forall₂ (w.Represents exact) statement ts)
    (standard : w.Standard ctx.environment) (opened : ctx.stack.Open)
    (grown : World.AddsValues exact start w)
    (each : ∀ inner : Context, inner.environment = ctx.environment → inner.stack.Open →
      ExpandAll B exact start named parameter replacement inner statement ts) :
    (expandStatement parameter replacement ctx statement).Succeeds B (World.AddsValues exact)
      w fun others after =>
      List.Forall₂ (after.Substituted named replacement) statement others ∧
      List.Forall₂ (World.Stands exact start named replacement after) ts others := by
  refine (createList_represents holds).bind fun u w₁ grown₁ ⟨list, node⟩ => ?_
  have standard₁ := grown₁.standard standard
  refine (expand_list_replaces list node standard₁ opened (grown.trans grown₁) each).bind
    fun expanded w₂ grown₂ ⟨settled, _, others, rebuilt, substituted, stands⟩ => ?_
  have ready : expanded.Ready w₂ (.single Key.list ⟨others⟩ _) ctx :=
    ⟨settled, rebuilt, grown₂.standard standard₁, opened.clear expanded⟩
  refine (ready.answer_succeeds ⟨rfl, by decide⟩ rfl).bind fun form w₃ grown₃ same => ?_
  subst same
  exact .done ⟨substituted.imp fun _ _ h => h.grown grown₃, stands.imp fun _ _ h => h.grown grown₃⟩

theorem expand_name_replaces {v : Value} {n : Name} {l : Option Location}
    (holds : w.Represents exact v (.name n l)) (node : w.node v = .single Key.name n l)
    (standard : w.Standard ctx.environment) (opened : ctx.stack.Open)
    (grown : World.AddsValues exact start w) (certain : start.Certain parameter Key.name.id)
    (carries : (start.node parameter).form? Key.name = named) :
    (v.expand parameter replacement ctx).Succeeds B (World.AddsValues exact) w
      (World.Expanded exact start named replacement v (.name n l)) := by
  have found : (w.node v).answer? Key.expand = some (.name n l) := by
    rw [node]
    rfl
  refine expand_of_apply holds standard opened found fun w₁ inner grown₁ same opened' => ?_
  have grown' := grown.trans grown₁
  have standard₁ : w₁.Standard inner.environment := by
    rw [same]
    exact grown₁.standard standard
  have asked : (parameter.answer? Key.name inner).Succeeds B (World.AddsValues exact) w₁ fun a _ =>
      a = (w₁.node parameter).form? Key.name :=
    base_succeeds (grown'.certain certain (by decide)) standard₁ ⟨rfl, by decide⟩ rfl
      opened'.unlimited ((opened'.clear parameter).idle (by decide))
  refine asked.bind fun found w₂ grown₂ here => ?_
  rw [grown'.node _ certain.made, carries] at here
  subst here
  have node₂ := (grown₁.trans grown₂).single node
  by_cases hit : found = some n
  · rw [if_pos hit]
    refine .done ⟨.replaced node₂ hit, fun r holds' => ?_⟩
    rw [Term.substitute, if_pos hit]
    exact (grown'.trans grown₂).represents _ _ holds'
  · rw [if_neg hit]
    refine (Program.succeeds_create _).weaken fun u after grown₃ made => ?_
    obtain ⟨rfl, rfl⟩ := made
    refine ⟨.name (grown₃.single node₂) hit (World.node_new _ _), fun r _ => ?_⟩
    rw [Term.substitute, if_neg hit]
    exact .create (.name n l) (by simp)

theorem expand_quoted_replaces {v item : Value} {t : Term} {l : Option Location}
    (holds : w.Represents exact v (.quoted t l)) (node : w.node v = .single Key.quoted ⟨item⟩ l)
    (standard : w.Standard ctx.environment) (opened : ctx.stack.Open)
    (grown : World.AddsValues exact start w)
    (each : ∀ inner : Context, inner.environment = ctx.environment → inner.stack.Open →
      ∀ w', World.AddsValues exact start w' → w'.Standard inner.environment →
        (item.expandOrSelf parameter replacement inner).Succeeds B (World.AddsValues exact) w'
          (World.Expanded exact start named replacement item t)) :
    (v.expand parameter replacement ctx).Succeeds B (World.AddsValues exact) w
      (World.Expanded exact start named replacement v (.quoted t l)) := by
  have found : (w.node v).answer? Key.expand = some (.quoted item l) := by
    rw [node]
    rfl
  refine expand_of_apply holds standard opened found fun w₁ inner grown₁ same opened' => ?_
  have standard₁ : w₁.Standard inner.environment := by
    rw [same]
    exact grown₁.standard standard
  have expanded : (Quoted.expand ⟨item⟩ parameter replacement inner).Succeeds B
      (World.AddsValues exact) w₁ fun form after =>
      World.Expanded exact start named replacement item t form.inner after :=
    (each inner same opened' w₁ (grown.trans grown₁) standard₁).bind fun _ _ _ result =>
      .done result
  refine expanded.create fun form w₂ grown₂ ⟨substituted, stands⟩ grown₃ => ?_
  refine ⟨.quoted (((grown₁.trans grown₂).trans grown₃).single node) (World.node_new _ _)
    (substituted.grown grown₃), fun r holds' => ?_⟩
  rw [Term.substitute]
  refine .create (.quoted _ _ l) fun p member => ?_
  rw [List.mem_singleton.mp member]
  exact stands r holds'

theorem expandStatements_replace {statements : List (List Value)} {rows : List (List Term)}
    (represents : List.Forall₂ (List.Forall₂ (start.Represents exact)) statements rows)
    (standard : w.Standard ctx.environment) (opened : ctx.stack.Open)
    (grown : World.AddsValues exact start w)
    (each : ∀ inner : Context, inner.environment = ctx.environment → inner.stack.Open →
      List.Forall₂ (ExpandAll B exact start named parameter replacement inner) statements rows) :
    (Block.expand ⟨statements⟩ parameter replacement ctx).Succeeds B (World.AddsValues exact)
      w fun form after =>
      List.Forall₂ (List.Forall₂ (after.Substituted named replacement)) statements
        form.statements ∧
      List.Forall₂ (List.Forall₂ (World.Stands exact start named replacement after)) rows
        form.statements := by
  have rowwise : List.Forall₂ (fun statement ts => ∀ w', World.AddsValues exact w w' →
      (expandStatement parameter replacement ctx statement).Succeeds B (World.AddsValues exact)
        w' fun others after =>
        List.Forall₂ (after.Substituted named replacement) statement others ∧
        List.Forall₂ (World.Stands exact start named replacement after) ts others)
      statements rows := by
    obtain ⟨even, stand⟩ := forall₂_iff_pairs.mp represents
    refine forall₂_iff_pairs.mpr ⟨even, fun q member w' grown' => ?_⟩
    have here := (stand q member).imp fun _ _ h => (grown.trans grown').represents _ _ h
    refine expandStatement_replaces here (grown'.standard standard) opened (grown.trans grown')
      fun inner same opened' => ?_
    exact (forall₂_iff_pairs.mp (each inner same opened')).2 q member
  exact (Program.mapM_succeeds (fun after => List.Forall₂ (after.Substituted named replacement))
    (fun after => List.Forall₂ (World.Stands exact start named replacement after))
    (fun _ _ _ _ grown each => each.imp fun _ _ h => h.grown grown)
    (fun _ _ _ _ grown each => each.imp fun _ _ h => h.grown grown) rowwise (.same w)).bind
      fun _ _ _ result => .done result

theorem expand_block_replaces {v : Value} {statements : List (List Value)} {rows : List (List Term)}
    {l : Option Location} (holds : start.Represents exact v (.block rows l))
    (node : start.node v = .single Key.block ⟨statements⟩ l)
    (represents : List.Forall₂ (List.Forall₂ (start.Represents exact)) statements rows)
    (standard : w.Standard ctx.environment) (opened : ctx.stack.Open)
    (grown : World.AddsValues exact start w)
    (each : ∀ inner : Context, inner.environment = ctx.environment → inner.stack.Open →
      List.Forall₂ (ExpandAll B exact start named parameter replacement inner) statements rows) :
    (v.expand parameter replacement ctx).Succeeds B (World.AddsValues exact) w
      (World.Expanded exact start named replacement v (.block rows l)) := by
  have found : (w.node v).answer? Key.expand = some (.block ⟨statements⟩ l) := by
    rw [grown.single node]
    rfl
  refine expand_of_apply (grown.represents _ _ holds) standard opened found
    fun w₁ inner grown₁ same opened' => ?_
  have standard₁ : w₁.Standard inner.environment := by
    rw [same]
    exact grown₁.standard standard
  have grown' := grown.trans grown₁
  refine (expandStatements_replace represents standard₁ opened' grown' fun inner' same' =>
    each inner' (same'.trans same)).create fun form w₂ grown₂ ⟨substituted, stands⟩ grown₃ => ?_
  have node₃ := (((grown'.trans grown₂).trans grown₃).single node)
  have substituted₃ := substituted.imp fun _ _ row => row.imp fun _ _ h =>
    World.Substituted.grown grown₃ h
  obtain ⟨even, parts⟩ := forall₂_iff_rows.mp substituted₃
  refine ⟨.block node₃ (World.node_new _ _) even parts, fun r holds' => ?_⟩
  rw [Term.substitute, Term.substituteRows_eq_map]
  refine .create_block l ?_
  rw [List.forall₂_map_right_iff]
  exact (stands.imp fun _ _ row => represents_of_stands row holds').flip

/-- The induction is on how the value stands for the term: what it holds is expanded in later
    worlds, where it still stands for what it stood for at the start. -/
theorem expand_replaces {v : Value} {t : Term} (holds : start.Represents exact v t)
    (certain : start.Certain parameter Key.name.id)
    (carries : (start.node parameter).form? Key.name = named) (syntactic : t.isSyntax = true)
    (grown : World.AddsValues exact start w) (standard : w.Standard ctx.environment)
    (opened : ctx.stack.Open) :
    (v.expand parameter replacement ctx).Succeeds B (World.AddsValues exact) w
      (World.Expanded exact start named replacement v t) := by
  induction holds generalizing w ctx with
  | @intro v t parts here shows layer each ih =>
    have holds : start.Represents exact v t := .intro here shows layer each
    have holds' := grown.represents v t holds
    have inside : ∀ q ∈ parts, ∀ inner : Context, inner.stack.Open → ∀ w',
        World.AddsValues exact start w' → w'.Standard inner.environment →
        (q.1.expandOrSelf parameter replacement inner).Succeeds B (World.AddsValues exact) w'
          (World.Expanded exact start named replacement q.1 q.2) :=
      fun q member inner opened' w' grown' standard' =>
        expandOrSelf_replaces (each q member) grown' standard' opened' fun syntactic' w'' grown'' =>
          ih q member syntactic' (grown'.trans grown'') (grown''.standard standard') opened'
    generalize node : start.node v = n at layer
    cases layer with
    | name n l =>
      exact expand_name_replaces holds' (grown.single node) standard opened grown certain carries
    | @list items ts l even =>
      have node' := grown.single node
      have each' : ∀ inner : Context, inner.environment = ctx.environment → inner.stack.Open →
          ExpandAll B exact start named parameter replacement inner items ts :=
        fun inner _ opened' => forall₂_iff_pairs.mpr ⟨even, fun q member =>
          inside q member inner opened'⟩
      refine (expand_list_replaces holds' node' standard opened grown each').weaken
        fun u after grown' ⟨_, stands, others, rebuilt, substituted, _⟩ => ⟨?_, stands⟩
      exact substituted_list (grown'.single node') rebuilt substituted
    | @block statements rows l even =>
      have rowwise := forall₂_iff_rows.mpr ⟨even, each⟩
      exact expand_block_replaces holds node rowwise standard opened grown fun inner _ opened' =>
        forall₂_iff_rows.mpr ⟨even, fun q member => inside q member inner opened'⟩
    | quoted item t l =>
      exact expand_quoted_replaces holds' (grown.single node) standard opened grown
        fun inner _ opened' => inside (item, t) (List.mem_singleton_self _) inner opened'
    | _ => cases syntactic

end Expansion

/-- Expansion of a name, a list, a block or a quote succeeds, and substitutes. The name to replace
    is that of the parameter, if it has one. Values aside the world stays as it was. -/
theorem expansion_substitutes {e : EnvironmentId} {s : CallStack} {v parameter : Value} {t : Term}
    (standard : w.Standard e) (opened : s.Open) (plain : w.Represents False v t)
    (syntactic : t.isSyntax = true) (certain : w.Certain parameter Key.name.id)
    (replacement : Value) :
    ∃ u after, (v.expand parameter replacement ⟨e, s⟩).Ends B w (.ok u) after ∧
      after.Substituted ((w.node parameter).form? Key.name) replacement v u ∧
      (∀ x, w.Made x → after.node x = w.node x) ∧ after.environments = w.environments ∧
      after.buffers = w.buffers ∧ after.console = w.console ∧ after.memory = w.memory := by
  have succeeds : (v.expand parameter replacement ⟨e, s⟩).Succeeds B (World.AddsValues False) w
      (World.Expanded False w _ replacement v t) :=
    expand_replaces plain certain rfl syntactic (.same w) standard opened
  obtain ⟨u, after, ends, grown, substituted, -⟩ := succeeds
  exact ⟨u, after, ends, substituted, grown.node, grown.environments, grown.buffers, grown.console,
    grown.memory⟩

def quotingWorld : World Host.unit :=
  { World.initial () with
    cells := #[⟨.single Key.name ⟨"x"⟩ none, []⟩, ⟨.single Key.quoted ⟨⟨0⟩⟩ none, []⟩,
      ⟨.single Key.block ⟨[[⟨0⟩, ⟨1⟩]]⟩ none, []⟩, ⟨.single Key.number ⟨0⟩ none, []⟩]
    environments := #[{ rules := StandardRule.inOrder.map .standard }] }

theorem quoting_block_substitutes :
    quotingWorld.Standard ⟨0⟩ ∧
    quotingWorld.Represents False ⟨2⟩
      (.block [[.name ⟨"x"⟩ none, .quoted (.name ⟨"x"⟩ none) none]] none) ∧
    quotingWorld.Certain ⟨0⟩ Key.name.id ∧
    ∃ u after, ((⟨2⟩ : Value).expand ⟨0⟩ ⟨3⟩ ⟨⟨0⟩, .fresh⟩).Ends inert quotingWorld (.ok u) after ∧
      after.Substituted (some ⟨"x"⟩) ⟨3⟩ ⟨2⟩ u := by
  have standard : quotingWorld.Standard ⟨0⟩ := rfl
  have name : quotingWorld.Represents False ⟨0⟩ (.name ⟨"x"⟩ none) := .of_read 4 rfl
  have block : quotingWorld.Represents False ⟨2⟩
      (.block [[.name ⟨"x"⟩ none, .quoted (.name ⟨"x"⟩ none) none]] none) := .of_read 4 rfl
  have certain := name.settled.certain (by decide : Key.name.id.Regular)
  obtain ⟨u, after, ends, substituted, -⟩ := expansion_substitutes (B := inert) (s := .fresh)
    standard ⟨rfl, rfl⟩ block rfl certain ⟨3⟩
  exact ⟨standard, block, certain, u, after, ends, substituted⟩

def grafting : Behaviour Host.unit :=
  { inert with
    infer := fun
      | .expander, _ => ⟨Unit, ⟨fun _ _ => return some ()⟩, fun _ _ => return .own ()⟩
      | _, _ => ⟨Unit, ⟨fun _ _ => return none⟩, fun _ _ => throw (.of (.custom ""))⟩ }

def graftingWorld : World Host.unit :=
  { World.initial () with
    cells := #[⟨.single Key.name ⟨"y"⟩ none, []⟩, ⟨.single Key.name ⟨"x"⟩ none, []⟩,
      ⟨.bare none, []⟩]
    environments := #[{ rules := StandardRule.inOrder.map .standard },
      { rules := [.own .expander Key.expand ()] }] }

def graftedWorld : World Host.unit :=
  graftingWorld.remember ⟨0⟩ Key.expand.id ⟨.expander, .own ()⟩

/-- An answer is kept wherever it was found. So a name goes on as the other environment has it, and
    is replaced though it is not the parameter. -/
theorem remembered_expander_grafts :
    (Request.resolve ⟨0⟩ Key.expand.id ⟨⟨1⟩, .fresh⟩).Ends grafting graftingWorld
        (.ok (some ⟨.expander, .own ()⟩)) graftedWorld ∧
      graftedWorld.Standard ⟨0⟩ ∧ graftedWorld.node ⟨0⟩ = .single Key.name ⟨"y"⟩ none ∧
      graftedWorld.node ⟨1⟩ = .single Key.name ⟨"x"⟩ none ∧
      ¬ ∃ u after, ((⟨0⟩ : Value).expand ⟨1⟩ ⟨2⟩ ⟨⟨0⟩, .fresh⟩).Ends grafting graftedWorld (.ok u)
        after ∧ after.Substituted (some ⟨"x"⟩) ⟨2⟩ ⟨0⟩ u := by
  refine ⟨⟨3, rfl⟩, rfl, rfl, rfl, ?_⟩
  rintro ⟨u, after, ends, substituted⟩
  obtain ⟨final, actual, source, result⟩ : ∃ final : World Host.unit,
      ((⟨0⟩ : Value).expand ⟨1⟩ ⟨2⟩ ⟨⟨0⟩, .fresh⟩).Ends grafting graftedWorld (.ok ⟨2⟩) final ∧
        final.node ⟨0⟩ = .single Key.name ⟨"y"⟩ none ∧ final.node ⟨2⟩ = .bare none :=
    ⟨_, ⟨9, rfl⟩, rfl, rfl⟩
  obtain ⟨same, rfl⟩ := Program.ends_unique ends actual
  cases same
  cases substituted with
  | replaced node hit =>
    cases hit
    have other : some (⟨"y"⟩ : Name) = some ⟨"x"⟩ :=
      congrArg (·.form? Key.name) (source.symm.trans node)
    revert other
    decide
  | name node miss rebuilt => cases congrArg (·.form? Key.name) (result.symm.trans rebuilt)
  | list node => cases congrArg (·.form? Key.list) (source.symm.trans node)
  | block node => cases congrArg (·.form? Key.block) (source.symm.trans node)
  | quoted node => cases congrArg (·.form? Key.quoted) (source.symm.trans node)

end TraitDispatch
