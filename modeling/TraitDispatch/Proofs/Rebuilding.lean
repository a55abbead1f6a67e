import TraitDispatch.Proofs.Amidst
import TraitDispatch.Proofs.Substitution

/- Expansion of values with any number of constant instances. A form is rebuilt from what its rule
   was given, so a list, a block, a quote or a name comes out with that one instance, at its place.
   What else the value had is lost; a value without an expander is kept with all it has. -/
namespace TraitDispatch
variable {H : Host} {B : Behaviour H} {start w after : World H} {v u parameter replacement : Value}
  {named : Option Name} {n : Node H} {k : Kind} {ctx : Context}

open World (KeepsLooks)

/-- Neither the value nor any that it holds says itself how it is expanded. -/
def World.Conventional (w : World H) (v : Value) : Prop :=
  ∀ u, Relation.ReflTransGen w.Part u v → (w.node u).find? Key.expand.id = none

theorem World.Conventional.part (conventional : w.Conventional v) (part : w.Part u v) :
    w.Conventional u := fun x inside => conventional x (inside.tail part)

/-- The second value is what expansion makes of the first. -/
inductive World.Rebuilt (w : World H) (named : Option Name) (replacement : Value) :
    Value → Value → Prop where
  | replaced {v : Value} {m : Name}
      (found : (w.node v).answer? Key.expand = some (.name m (w.node v).location))
      (hit : named = some m) : Rebuilt w named replacement v replacement
  | name {v u : Value} {m : Name}
      (found : (w.node v).answer? Key.expand = some (.name m (w.node v).location))
      (miss : named ≠ some m) (rebuilt : w.node u = .single Key.name m (w.node v).location)
      (appears : w.Appears u m.name) : Rebuilt w named replacement v u
  | list {v u : Value} {items others : List Value}
      (found : (w.node v).answer? Key.expand = some (.list ⟨items⟩ (w.node v).location))
      (rebuilt : w.node u = .single Key.list ⟨others⟩ (w.node v).location)
      (even : items.length = others.length)
      (each : ∀ p ∈ items.zip others, Rebuilt w named replacement p.1 p.2) :
      Rebuilt w named replacement v u
  | block {v u : Value} {statements others : List (List Value)}
      (found : (w.node v).answer? Key.expand = some (.block ⟨statements⟩ (w.node v).location))
      (rebuilt : w.node u = .single Key.block ⟨others⟩ (w.node v).location)
      (even : statements.map List.length = others.map List.length)
      (each : ∀ p ∈ (List.zipWith List.zip statements others).flatten,
        Rebuilt w named replacement p.1 p.2) : Rebuilt w named replacement v u
  | quoted {v u inner other : Value}
      (found : (w.node v).answer? Key.expand = some (.quoted inner (w.node v).location))
      (rebuilt : w.node u = .single Key.quoted ⟨other⟩ (w.node v).location)
      (within : Rebuilt w named replacement inner other) : Rebuilt w named replacement v u
  | kept {v : Value} (made : w.Made v) (lacking : (w.node v).answer? Key.expand = none) :
      Rebuilt w named replacement v v

theorem expander_of_forms (plain : n.find? Key.expand.id = none) :
    n.answer? Key.expand =
      ((n.answer? Key.block).map (.block · n.location)).or
        (((n.answer? Key.list).map (.list · n.location)).or
          (((n.answer? Key.name).map (.name · n.location)).or
            ((n.answer? Key.quoted).map fun q => .quoted q.inner n.location))) := by
  have rules : StandardRule.forKey Key.expand.id =
      [.blockExpand, .listExpand, .nameExpand, .quotedExpand] := rfl
  rw [answer?_base Key.block rfl, answer?_base Key.list rfl,
    answer?_base Key.name rfl, answer?_base Key.quoted rfl, Node.answer?,
    Node.standard?, Node.own?, plain, rules]
  simp only [Option.bind_none, Option.none_or, List.findSome?_cons, List.findSome?_nil,
    StandardRule.reads]
  cases n.form? Key.block <;> cases n.form? Key.list <;> cases n.form? Key.name <;>
    cases n.form? Key.quoted <;> simp

theorem expander_cases {f : Expander H.Code} (plain : n.find? Key.expand.id = none)
    (found : n.answer? Key.expand = some f) :
    (∃ b, f = .block b n.location ∧ n.answer? Key.block = some b) ∨
      (∃ l, f = .list l n.location ∧ n.answer? Key.list = some l) ∨
      (∃ m, f = .name m n.location ∧ n.answer? Key.name = some m) ∨
      ∃ q, f = .quoted q.inner n.location ∧ n.answer? Key.quoted = some q := by
  rw [expander_of_forms plain] at found
  rcases Option.or_eq_some_iff.mp found with block | ⟨-, found⟩
  · obtain ⟨b, has, rfl⟩ := Option.map_eq_some_iff.mp block
    exact .inl ⟨b, rfl, has⟩
  rcases Option.or_eq_some_iff.mp found with list | ⟨-, found⟩
  · obtain ⟨l, has, rfl⟩ := Option.map_eq_some_iff.mp list
    exact .inr (.inl ⟨l, rfl, has⟩)
  rcases Option.or_eq_some_iff.mp found with name | ⟨-, quoted⟩
  · obtain ⟨m, has, rfl⟩ := Option.map_eq_some_iff.mp name
    exact .inr (.inr (.inl ⟨m, rfl, has⟩))
  · obtain ⟨q, has, rfl⟩ := Option.map_eq_some_iff.mp quoted
    exact .inr (.inr (.inr ⟨q, rfl, has⟩))

theorem made_of_expander {f : Expander H.Code}
    (found : (w.node v).answer? Key.expand = some f) : w.Made v := by
  apply Classical.byContradiction
  intro unmade
  rw [World.node_unmade unmade] at found
  cases found

theorem World.KeepsLooks.single {key : Key k} {x : k.Carrier H} {l : Option Location}
    (grown : KeepsLooks w after) (node : w.node v = .single key x l) :
    after.node v = .single key x l := by
  have made : w.Made v := made_of_instances (by simp [node, Node.single, Node.add])
  rw [grown.node v made, node]

theorem World.Rebuilt.grown (grown : KeepsLooks w after)
    (rebuilt : w.Rebuilt named replacement v u) : after.Rebuilt named replacement v u := by
  induction rebuilt with
  | replaced found hit =>
    rw [← grown.node _ (made_of_expander found)] at found
    exact .replaced found hit
  | name found miss rebuilt appears =>
    have node := grown.node _ (made_of_expander found)
    rw [← node] at found rebuilt
    exact .name found miss (grown.single rebuilt) (grown.appears _ _ appears)
  | list found rebuilt even _ ih =>
    have node := grown.node _ (made_of_expander found)
    rw [← node] at found rebuilt
    exact .list found (grown.single rebuilt) even ih
  | block found rebuilt even _ ih =>
    have node := grown.node _ (made_of_expander found)
    rw [← node] at found rebuilt
    exact .block found (grown.single rebuilt) even ih
  | quoted found rebuilt _ ih =>
    have node := grown.node _ (made_of_expander found)
    rw [← node] at found rebuilt
    exact .quoted found (grown.single rebuilt) ih
  | kept made lacking =>
    rw [← grown.node _ made] at lacking
    exact .kept (grown.made _ made) lacking

theorem World.Appears.of_blank (shown : Value → String) (made : w.Made v)
    (blank : ∀ key, w.remembered v key = none) (node : w.node v = n)
    (fixed : ∀ i ∈ n.instances, i.Fixed) (each : ∀ x ∈ n.parts, w.Appears x (shown x)) :
    w.Appears v (n.look shown) := by
  subst node
  refine .intro shown made fixed (fun key answer found => ?_) each
  rw [blank] at found
  cases found

theorem World.Appears.create (shown : Value → String) (fixed : ∀ i ∈ n.instances, i.Fixed)
    (each : ∀ x ∈ n.parts, w.Appears x (shown x)) :
    (w.create n).2.Appears (w.create n).1 (n.look shown) :=
  .of_blank shown (made_new w n) (remembered_new w n) (node_new w n) fixed fun x part =>
    (KeepsLooks.create w n).appears x _ (each x part)

theorem expandOrSelf_rebuilds {s : String} (appears : w.Appears v s)
    (standard : w.Standard ctx.environment) (opened : ctx.stack.Open)
    (expand : ∀ f, (w.node v).answer? Key.expand = some f → ∀ w', KeepsLooks w w' →
      (v.expand parameter replacement ctx).Succeeds B KeepsLooks w' fun u after =>
        after.Rebuilt named replacement v u) :
    (v.expandOrSelf parameter replacement ctx).Succeeds B KeepsLooks w fun u after =>
      after.Rebuilt named replacement v u := by
  have ready : v.Ready w (w.node v) ctx := ⟨appears.settled, rfl, standard, opened.clear v⟩
  refine (ready.answers_succeeds ⟨rfl, by decide⟩).bind fun answers w' grown same => ?_
  subst same
  cases found : (w.node v).answer? Key.expand with
  | some f => exact expand f found w' grown
  | none =>
    have made := appears.settled.made
    rw [← grown.node v made] at found
    exact .done (.kept (grown.made v made) found)

def World.Rebuilds (B : Behaviour H) (start : World H) (named : Option Name)
    (parameter replacement : Value) (e : EnvironmentId) (v : Value) : Prop :=
  ∀ (ctx : Context) w, ctx.environment = e → ctx.stack.Open → KeepsLooks start w →
    w.Standard ctx.environment →
    (v.expandOrSelf parameter replacement ctx).Succeeds B KeepsLooks w fun u after =>
      after.Rebuilt named replacement v u

theorem items_rebuild {items : List Value} (grown : KeepsLooks start w)
    (standard : w.Standard ctx.environment) (opened : ctx.stack.Open)
    (each : ∀ x ∈ items, start.Rebuilds B named parameter replacement ctx.environment x) :
    (ListForm.expand ⟨items⟩ parameter replacement ctx).Succeeds B KeepsLooks w fun form after =>
      List.Forall₂ (after.Rebuilt named replacement) items form.items := by
  have itemwise := Program.each_succeeds (R := KeepsLooks)
    (fun after => after.Rebuilt named replacement)
    (fun _ _ _ _ grown => World.Rebuilt.grown grown) fun x member w' grown' =>
      each x member ctx w' rfl opened (grown.trans grown') (World.Growth.standard grown' standard)
  exact itemwise.bind fun others w' _ rebuilt => .done rebuilt

theorem expand_appearing {s : String} {f : Expander H.Code} {P : Value → World H → Prop}
    (appears : w.Appears v s) (standard : w.Standard ctx.environment) (opened : ctx.stack.Open)
    (found : (w.node v).answer? Key.expand = some f)
    (applied : ∀ w' inner, KeepsLooks w w' → inner.environment = ctx.environment →
      inner.stack.Open → (f.apply B parameter replacement inner).Succeeds B KeepsLooks w' P) :
    (v.expand parameter replacement ctx).Succeeds B KeepsLooks w P := by
  have formatted : ∀ w', KeepsLooks w w' →
    (v.format ctx).Succeeds B KeepsLooks w' fun _ _ => True :=
    fun w' grown => (format_amidst appears grown
      (World.Growth.standard grown standard) (opened.eased v)).weaken fun _ _ _ _ => trivial
  exact expand_succeeds appears.settled standard opened formatted found applied

theorem expand_list_rebuilds {s : String} {items : List Value} {l : Option Location}
    (appears : w.Appears v s) (grown : KeepsLooks start w)
    (standard : w.Standard ctx.environment) (opened : ctx.stack.Open)
    (found : (w.node v).answer? Key.expand = some (.list ⟨items⟩ l))
    (each : ∀ x ∈ items, start.Rebuilds B named parameter replacement ctx.environment x) :
    (v.expand parameter replacement ctx).Succeeds B KeepsLooks w fun u after =>
      ∃ others, after.node u = .single Key.list ⟨others⟩ l ∧ after.Settled u ∧
        List.Forall₂ (after.Rebuilt named replacement) items others := by
  refine expand_appearing appears standard opened found fun w₁ inner grown₁ same opened' => ?_
  rw [← same] at each standard
  have row := items_rebuild (B := B) (grown.trans grown₁)
    (World.Growth.standard grown₁ standard) opened' each
  refine row.create fun form mid _ rebuilt grown₂ => ?_
  exact ⟨form.items, World.node_new _ _, World.settled_new mid (Node.fixed_single rfl _ l),
    rebuilt.imp fun _ _ h => h.grown grown₂⟩

theorem World.exists_shown {xs : List Value} (each : ∀ x ∈ xs, ∃ s, w.Appears x s) :
    ∃ shown : Value → String, ∀ x ∈ xs, w.Appears x (shown x) := by
  have chosen : ∀ x, ∃ s, x ∈ xs → w.Appears x s := by
    intro x
    by_cases member : x ∈ xs
    · obtain ⟨s, appears⟩ := each x member
      exact ⟨s, fun _ => appears⟩
    · exact ⟨"", fun there => absurd there member⟩
  obtain ⟨shown, appears⟩ := Classical.skolem.mp chosen
  exact ⟨shown, appears⟩

theorem parts_list (items : List Value) (l : Option Location) :
    (Node.single Key.list ⟨items⟩ l : Node H).parts = items := by
  change [] ++ items ++ [] = items
  simp

theorem createList_succeeds {items : List Value} (each : ∀ x ∈ items, ∃ s, w.Appears x s) :
    (createList items).Succeeds B KeepsLooks w fun u after =>
      ∃ l s, after.node u = .single Key.list ⟨items⟩ l ∧ after.Appears u s := by
  obtain ⟨shown, appears⟩ := World.exists_shown each
  have created : ∀ l w', KeepsLooks w w' →
      (Program.create (.single Key.list ⟨items⟩ l)).Succeeds B KeepsLooks w' fun u after =>
        ∃ l s, after.node u = .single Key.list ⟨items⟩ l ∧ after.Appears u s := by
    intro l w' grown
    refine (Program.succeeds_create _).weaken fun u after _ ⟨new, made⟩ => ?_
    subst new made
    refine ⟨l, _, World.node_new _ _, .create shown (Node.fixed_single rfl _ l) ?_⟩
    rw [parts_list]
    exact fun x member => grown.appears x _ (appears x member)
  cases items with
  | nil => exact created none w (World.Growth.same w)
  | cons first rest =>
    exact (Program.succeeds_location first).bind fun l w' grown _ => created l w' grown

theorem expandStatement_rebuilds {statement : List Value} (grown : KeepsLooks start w)
    (standard : w.Standard ctx.environment) (opened : ctx.stack.Open)
    (appear : ∀ x ∈ statement, ∃ s, start.Appears x s)
    (each : ∀ x ∈ statement, start.Rebuilds B named parameter replacement ctx.environment x) :
    (expandStatement parameter replacement ctx statement).Succeeds B KeepsLooks
      w fun others after =>
      List.Forall₂ (after.Rebuilt named replacement) statement others := by
  have appear' : ∀ x ∈ statement, ∃ s, w.Appears x s := by
    intro x member
    obtain ⟨s, appears⟩ := appear x member
    exact ⟨s, grown.appears x s appears⟩
  refine (createList_succeeds appear').bind fun u w₁ grown₁ ⟨l, s, node, appears⟩ => ?_
  have found : (w₁.node u).answer? Key.expand = some (.list ⟨statement⟩ l) := by
    rw [node]
    rfl
  have standard₁ := World.Growth.standard grown₁ standard
  refine (expand_list_rebuilds appears (grown.trans grown₁) standard₁ opened found each).bind
    fun x w₂ grown₂ ⟨others, rebuilt, settled, itemwise⟩ => ?_
  have ready : x.Ready w₂ (.single Key.list ⟨others⟩ l) ctx :=
    ⟨settled, rebuilt, World.Growth.standard grown₂ standard₁, opened.clear x⟩
  refine (ready.answer_succeeds ⟨rfl, by decide⟩ rfl).bind fun form w₃ grown₃ same => ?_
  subst same
  exact .done (itemwise.imp fun _ _ h => h.grown grown₃)

theorem expandStatements_rebuild {statements : List (List Value)} (grown : KeepsLooks start w)
    (standard : w.Standard ctx.environment) (opened : ctx.stack.Open)
    (appear : ∀ row ∈ statements, ∀ x ∈ row, ∃ s, start.Appears x s)
    (each : ∀ row ∈ statements, ∀ x ∈ row,
      start.Rebuilds B named parameter replacement ctx.environment x) :
    (Block.expand ⟨statements⟩ parameter replacement ctx).Succeeds B KeepsLooks w fun form after =>
      List.Forall₂ (List.Forall₂ (after.Rebuilt named replacement)) statements form.statements := by
  have rowwise := Program.each_succeeds (R := KeepsLooks)
    (fun after => List.Forall₂ (after.Rebuilt named replacement))
    (fun _ _ _ _ grown row => row.imp fun _ _ h => World.Rebuilt.grown grown h)
    fun row member w' grown' => expandStatement_rebuilds
      (grown.trans grown') (World.Growth.standard grown' standard) opened (appear row member)
      (each row member)
  exact rowwise.bind fun others w' _ rebuilt => .done rebuilt

theorem name_expand_rebuilds {m : Name} (grown : KeepsLooks start w)
    (standard : w.Standard ctx.environment) (opened : ctx.stack.Open)
    (found : (w.node v).answer? Key.expand = some (.name m (w.node v).location))
    (certain : start.Certain parameter Key.name.id)
    (carries : (start.node parameter).form? Key.name = named) :
    (Name.expand m (w.node v).location parameter replacement ctx).Succeeds B KeepsLooks w
      fun u after => after.Rebuilt named replacement v u := by
  have made := made_of_expander found
  have asked : (parameter.answer? Key.name ctx).Succeeds B KeepsLooks w fun a _ =>
      a = (w.node parameter).form? Key.name :=
    base_succeeds (World.Growth.certain grown certain (by decide)) standard ⟨rfl, by decide⟩ rfl
      opened.unlimited ((opened.clear parameter).idle (by decide))
  refine asked.bind fun name w₁ grown₁ here => ?_
  rw [grown.node _ certain.made, carries] at here
  subst here
  have node₁ := grown₁.node v made
  rw [← node₁] at found ⊢
  by_cases hit : name = some m
  · rw [if_pos hit]
    exact .done (.replaced found hit)
  · rw [if_neg hit]
    refine (Program.succeeds_create _).weaken fun u after grown₂ ⟨new, same⟩ => ?_
    have node₂ := grown₂.node v (grown₁.made v made)
    have rebuilt : after.node u = .single Key.name m (w₁.node v).location := by
      rw [new, same, World.node_new]
    have fixed : ∀ i ∈ (Node.single Key.name m (w₁.node v).location : Node H).instances, i.Fixed :=
      Node.fixed_single rfl _ _
    have appears : after.Appears u m.name := by
      rw [new, same]
      exact .create (fun _ => "") fixed fun x part => by cases part
    rw [← node₂] at found rebuilt
    exact .name found hit rebuilt appears

theorem apply_rebuilds {f : Expander H.Code} (plain : (w.node v).find? Key.expand.id = none)
    (found : (w.node v).answer? Key.expand = some f) (grown : KeepsLooks start w)
    (standard : w.Standard ctx.environment) (opened : ctx.stack.Open)
    (certain : start.Certain parameter Key.name.id)
    (carries : (start.node parameter).form? Key.name = named)
    (appear : ∀ x ∈ (w.node v).parts, ∃ s, start.Appears x s)
    (inside : ∀ x ∈ (w.node v).parts,
      start.Rebuilds B named parameter replacement ctx.environment x) :
    (f.apply B parameter replacement ctx).Succeeds B KeepsLooks w fun u after =>
      after.Rebuilt named replacement v u := by
  have stands : ∀ {mid after : World H}, KeepsLooks w mid → KeepsLooks mid after →
      after.node v = w.node v :=
    fun grown₁ grown₂ => (grown₁.trans grown₂).node v (made_of_expander found)
  rcases expander_cases plain found with
    ⟨⟨statements⟩, rfl, has⟩ | ⟨⟨items⟩, rfl, has⟩ | ⟨m, rfl, -⟩ | ⟨q, rfl, has⟩
  · have member : ∀ row ∈ statements, ∀ x ∈ row, x ∈ (w.node v).parts := fun row inRow x inX =>
      Node.mem_parts.mpr (.inl ⟨⟨statements⟩, row, has, inRow, inX⟩)
    have rows := expandStatements_rebuild (B := B) grown standard opened
      (fun row inRow x inX => appear x (member row inRow x inX))
      fun row inRow x inX => inside x (member row inRow x inX)
    refine rows.create fun form mid grown₁ rebuilt grown₂ => ?_
    have node := stands grown₁ grown₂
    obtain ⟨even, parts⟩ := forall₂_iff_rows.mp
      (rebuilt.imp fun _ _ row => row.imp fun _ _ h => World.Rebuilt.grown grown₂ h)
    rw [← node] at found
    exact .block found (by rw [node, World.node_new]) even parts
  · have row := items_rebuild (B := B) grown standard opened fun x member =>
      inside x (Node.mem_parts.mpr (.inr (.inl ⟨⟨items⟩, has, member⟩)))
    refine row.create fun form mid grown₁ rebuilt grown₂ => ?_
    have node := stands grown₁ grown₂
    obtain ⟨even, parts⟩ := forall₂_iff_pairs.mp
      (rebuilt.imp fun _ _ h => World.Rebuilt.grown grown₂ h)
    rw [← node] at found
    exact .list found (by rw [node, World.node_new]) even parts
  · exact name_expand_rebuilds grown standard opened found certain carries
  · have part : q.inner ∈ (w.node v).parts := Node.mem_parts.mpr (.inr (.inr ⟨q, has, rfl⟩))
    have expanded : (Quoted.expand ⟨q.inner⟩ parameter replacement ctx).Succeeds B KeepsLooks w
        fun form after => after.Rebuilt named replacement q.inner form.inner :=
      (inside q.inner part ctx w rfl opened grown standard).bind
        fun _ _ _ rebuilt => .done rebuilt
    refine expanded.create fun form mid grown₁ rebuilt grown₂ => ?_
    have node := stands grown₁ grown₂
    rw [← node] at found
    exact .quoted found (by rw [node, World.node_new]) (rebuilt.grown grown₂)

/-- The induction is on how the value looks: what it holds is expanded in later worlds, where it
    still looks the same. -/
theorem expand_rebuilds {s : String} {f : Expander H.Code} (appears : start.Appears v s)
    (conventional : start.Conventional v) (certain : start.Certain parameter Key.name.id)
    (carries : (start.node parameter).form? Key.name = named)
    (found : (start.node v).answer? Key.expand = some f) (grown : KeepsLooks start w)
    (standard : w.Standard ctx.environment) (opened : ctx.stack.Open) :
    (v.expand parameter replacement ctx).Succeeds B KeepsLooks w fun u after =>
      after.Rebuilt named replacement v u := by
  induction appears generalizing f w ctx with
  | @intro v shown made fixed recalls each ih =>
    have later := grown.appears v _ (.intro shown made fixed recalls each)
    have inside : ∀ x ∈ (start.node v).parts, ∀ e,
        start.Rebuilds B named parameter replacement e x := by
      intro x part e inner w' _ opened' grown' standard'
      refine expandOrSelf_rebuilds (grown'.appears x _ (each x part)) standard' opened'
        fun g answered w'' grown'' => ?_
      rw [grown'.node x (each x part).settled.made] at answered
      exact ih x part (conventional.part part) answered (grown'.trans grown'')
        (World.Growth.standard grown'' standard') opened'
    have plain := conventional v .refl
    refine expand_appearing later standard opened (by rwa [grown.node v made])
      fun w₁ inner grown₁ same opened' => ?_
    have grown' := grown.trans grown₁
    have standard₁ : w₁.Standard inner.environment := by
      rw [same]
      exact World.Growth.standard grown₁ standard
    rw [← grown'.node v made] at plain found inside each
    exact apply_rebuilds plain found grown' standard₁ opened' certain carries
      (fun x part => ⟨_, each x part⟩) fun x part => inside x part inner.environment

theorem World.Appears.held {s : String} (appears : w.Appears v s)
    (held : Relation.ReflTransGen w.Part u v) : ∃ t, w.Appears u t := by
  induction held using Relation.ReflTransGen.head_induction_on with
  | refl => exact ⟨s, appears⟩
  | head part _ ih =>
    obtain ⟨t, above⟩ := ih
    cases above with
    | intro shown _ _ _ each => exact ⟨_, each _ part⟩

theorem expander_of_name {m : Name} (plain : n.find? Key.expand.id = none)
    (block : n.form? Key.block = none) (list : n.form? Key.list = none)
    (name : n.form? Key.name = some m) : n.answer? Key.expand = some (.name m n.location) := by
  rw [expander_of_forms plain, answer?_base Key.block rfl,
    answer?_base Key.list rfl, answer?_base Key.name rfl, block, list, name]
  rfl

theorem names_answer_alike {x y : Value} {m : Name} {l : Option Location} {s t : String}
    {e : EnvironmentId} (first : w.Appears x s) (second : after.Appears y t)
    (node : w.node x = .single Key.name m l) (node' : after.node y = .single Key.name m l)
    (standard : w.Standard e) (standard' : after.Standard e) (key : KeyId)
    (here : ctx.environment = e) (opened : ctx.stack.Open) :
    ∃ a mid mid', (Request.resolve x key ctx).Ends B w (.ok a) mid ∧
      (Request.resolve y key ctx).Ends B after (.ok a) mid' := by
  rw [← here] at standard standard'
  obtain ⟨shown, -, a, mid, ⟨fuel, ends⟩, -, rfl⟩ :=
    resolve_appears (B := B) first key standard opened
  obtain ⟨other, -, a, mid', ⟨fuel', ends'⟩, -, rfl⟩ :=
    resolve_appears (B := B) second key standard' opened
  have same : (after.node y).states other key = (w.node x).states shown key := by
    rw [node, node']
    exact states_of_parts (fun u part => by cases part) key
  rw [same] at ends'
  exact ⟨_, mid, mid', ⟨fuel, (Act.run_request _ _ _).symm.trans ends⟩,
    ⟨fuel', (Act.run_request _ _ _).symm.trans ends'⟩⟩

/-- Expansion of a value that is made of constants succeeds. In place of a name that is not to be
    replaced stands a new value, at the same location, with the name and with nothing else. If the
    name was all that the old value had then nobody can tell them apart. -/
theorem expansion_rebuilds_names {e : EnvironmentId} {s : CallStack} {look : String}
    (standard : w.Standard e) (opened : s.Open) (appears : w.Appears v look)
    (conventional : w.Conventional v) (certain : w.Certain parameter Key.name.id)
    (expandable : ((w.node v).answer? Key.expand).isSome) (replacement : Value) :
    ∃ u after, (v.expand parameter replacement ⟨e, s⟩).Ends B w (.ok u) after ∧
      after.Rebuilt ((w.node parameter).form? Key.name) replacement v u ∧
      (∀ x y m, Relation.ReflTransGen w.Part x v → (w.node x).form? Key.name = some m →
        (w.node x).form? Key.block = none → (w.node x).form? Key.list = none →
        (w.node parameter).form? Key.name ≠ some m →
        after.Rebuilt ((w.node parameter).form? Key.name) replacement x y →
          after.node y = .single Key.name m (w.node x).location ∧
          (w.node x = .single Key.name m (w.node x).location → ∀ key (ctx : Context),
            ctx.environment = e → ctx.stack.Open →
            ∃ a mid mid', (Request.resolve x key ctx).Ends B w (.ok a) mid ∧
              (Request.resolve y key ctx).Ends B after (.ok a) mid')) ∧
      (∀ x, w.Made x → after.node x = w.node x) ∧ after.environments = w.environments ∧
      after.buffers = w.buffers ∧ after.console = w.console ∧ after.memory = w.memory := by
  obtain ⟨f, found⟩ := Option.isSome_iff_exists.mp expandable
  obtain ⟨u, after, ends, grown, rebuilt⟩ :
    (v.expand parameter replacement ⟨e, s⟩).Succeeds B KeepsLooks w
      fun u after => after.Rebuilt ((w.node parameter).form? Key.name) replacement v u :=
    expand_rebuilds appears conventional certain rfl found (.same w) standard opened
  refine ⟨u, after, ends, rebuilt, ?_, grown.node, grown.environments, grown.buffers,
    grown.console, grown.memory⟩
  intro x y m held name block list miss rebuilt'
  obtain ⟨t, looks⟩ := appears.held held
  have node := grown.node x looks.settled.made
  have expander := expander_of_name (conventional x held) block list name
  have stays : ∃ t, after.Appears y t ∧ after.node y = .single Key.name m (w.node x).location := by
    rw [← node] at expander ⊢
    cases rebuilt' with
    | name found' _ fresh looks' =>
      cases Option.some.inj (expander.symm.trans found')
      exact ⟨_, looks', fresh⟩
    | replaced found' hit =>
      cases Option.some.inj (expander.symm.trans found')
      exact absurd hit miss
    | list found' | block found' | quoted found' =>
      cases Option.some.inj (expander.symm.trans found')
    | kept _ lacking => cases expander.symm.trans lacking
  obtain ⟨t', looks', fresh⟩ := stays
  refine ⟨fresh, fun bare key ctx here opened' => ?_⟩
  exact names_answer_alike looks looks' bare fresh standard (World.Growth.standard grown standard)
    key here opened'

/-- A quoted name is rebuilt where another one is to be replaced. -/
theorem quoted_name_rebuilt :
    quotingWorld.Standard ⟨0⟩ ∧ CallStack.fresh.Open ∧ quotingWorld.Appears ⟨1⟩ "'x" ∧
    quotingWorld.Conventional ⟨1⟩ ∧ quotingWorld.Certain ⟨3⟩ Key.name.id ∧
    ((quotingWorld.node ⟨1⟩).answer? Key.expand).isSome ∧
    ∃ u after y, ((⟨1⟩ : Value).expand ⟨3⟩ ⟨3⟩ ⟨⟨0⟩, .fresh⟩).Ends inert quotingWorld (.ok u)
      after ∧ after.node u = .single Key.quoted ⟨y⟩ none ∧
      after.node y = .single Key.name ⟨"x"⟩ none := by
  have standard : quotingWorld.Standard ⟨0⟩ := rfl
  have name : quotingWorld.Appears ⟨0⟩ "x" := .of_blank (fun _ => "") (by decide)
    (fun _ => rfl) rfl (Node.fixed_single rfl _ _) fun x part => by cases part
  have quote : quotingWorld.Appears ⟨1⟩ "'x" := .of_blank (fun _ => "x") (by decide)
    (fun _ => rfl) rfl (Node.fixed_single rfl _ _) fun x part => by
      obtain rfl := List.mem_singleton.mp part
      exact name
  have inside : ∀ u, Relation.ReflTransGen quotingWorld.Part u ⟨1⟩ → u = ⟨1⟩ ∨ u = ⟨0⟩ := by
    intro u held
    induction held using Relation.ReflTransGen.head_induction_on with
    | refl => exact .inl rfl
    | head part _ ih =>
      rcases ih with rfl | rfl
      · exact .inr (List.mem_singleton.mp part)
      · cases part
  have conventional : quotingWorld.Conventional ⟨1⟩ := by
    intro u held
    rcases inside u held with rfl | rfl <;> rfl
  have number : quotingWorld.Appears ⟨3⟩ _ := .of_blank (fun _ => "") (by decide)
    (fun _ => rfl) rfl (Node.fixed_single
      (by rfl : standardKinds[Key.number.id.index]? = _) ⟨0⟩ none)
    fun x part => by cases part
  have certain := number.settled.certain (by decide : Key.name.id.Regular)
  obtain ⟨u, after, ends, rebuilt, leaves, nodes, -⟩ := expansion_rebuilds_names (B := inert)
    (s := .fresh) standard ⟨rfl, rfl⟩ quote conventional certain rfl ⟨3⟩
  refine ⟨standard, ⟨rfl, rfl⟩, quote, conventional, certain, rfl, u, after, ?_⟩
  have node : after.node ⟨1⟩ = quotingWorld.node ⟨1⟩ := nodes ⟨1⟩ (by decide)
  have location : (after.node ⟨1⟩).location = none := by rw [node]; rfl
  have expander : (after.node ⟨1⟩).answer? Key.expand =
      some (.quoted ⟨0⟩ (after.node ⟨1⟩).location) := by
    rw [node]
    rfl
  cases rebuilt with
  | @quoted _ _ _ other found fresh within =>
    cases Option.some.inj (expander.symm.trans found)
    rw [location] at fresh
    have held : Relation.ReflTransGen quotingWorld.Part ⟨0⟩ ⟨1⟩ :=
      .single (List.mem_singleton_self _)
    exact ⟨other, ends, fresh, (leaves ⟨0⟩ other ⟨"x"⟩ held rfl rfl rfl nofun within).1⟩
  | replaced found' | name found' | list found' | block found' =>
    cases Option.some.inj (expander.symm.trans found')
  | kept _ lacking => cases expander.symm.trans lacking

def labelledWorld : World Host.unit :=
  { World.initial () with
    cells := #[⟨(Node.single Key.name ⟨"y"⟩ none).add (.constant Key.text ⟨"label", none⟩), []⟩,
      ⟨.single Key.name ⟨"x"⟩ none, []⟩, ⟨.single Key.number ⟨0⟩ none, []⟩]
    environments := #[{ rules := StandardRule.inOrder.map .standard }] }

/-- The text of a name is lost though the name is not the parameter. -/
theorem labelled_name_stripped :
    labelledWorld.Standard ⟨0⟩ ∧ (∀ v key, labelledWorld.remembered v key = none) ∧
    labelledWorld.node ⟨0⟩ = (Node.single Key.name ⟨"y"⟩ none).add
      (.constant Key.text ⟨"label", none⟩) ∧
    labelledWorld.node ⟨1⟩ = .single Key.name ⟨"x"⟩ none ∧
    ¬ ∃ u after, ((⟨0⟩ : Value).expand ⟨1⟩ ⟨2⟩ ⟨⟨0⟩, .fresh⟩).Ends inert labelledWorld (.ok u)
      after ∧ (after.node u).keys = (labelledWorld.node ⟨0⟩).keys := by
  have blank : ∀ v key, labelledWorld.remembered v key = none := by
    rintro ⟨_ | _ | _ | id⟩ key <;> rfl
  refine ⟨rfl, blank, rfl, rfl, ?_⟩
  rintro ⟨u, after, ends, same⟩
  obtain ⟨v, final, actual, keys⟩ : ∃ v, ∃ final : World Host.unit,
      ((⟨0⟩ : Value).expand ⟨1⟩ ⟨2⟩ ⟨⟨0⟩, .fresh⟩).Ends inert labelledWorld (.ok v) final ∧
        (final.node v).keys.length = 1 := ⟨_, _, ⟨9, rfl⟩, rfl⟩
  obtain ⟨result, rfl⟩ := Program.ends_unique ends actual
  cases result
  rw [same] at keys
  cases keys

end TraitDispatch
