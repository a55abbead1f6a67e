import TraitDispatch.Proofs.Uniformity

/- Values that are paired afresh. What stands for a term in one world stands for it in the other. If
   other values have been made on either side since, the pairing can be given up for those that hold
   no built-in values, and what is made from then on is paired in its order. -/
namespace TraitDispatch
variable {H : Host} {P Q R : Value → Value → Prop} {e : EnvironmentId} {w w' : World H}
  {v v' : Value} {k : Kind}

theorem rel_found {α β : Type} {R T : α → β → Prop} {x : Option α} {y : Option β}
    (related : Option.Rel R x y) (found : ∀ a b, x = some a → R a b → T a b) :
    Option.Rel T x y := by
  cases related with
  | none => exact .none
  | some here => exact .some (found _ _ rfl here)

section Composition
-- One pairing after the other.
variable (step : ∀ a b c, R a b → P b c → Q a c)
include step

theorem Kind.Along.trans {x y z : k.Carrier H} (first : k.Along R x y) (second : k.Along P y z) :
    k.Along Q x z := by
  have rows : ∀ xs ys zs, List.Forall₂ R xs ys → List.Forall₂ P ys zs → List.Forall₂ Q xs zs :=
    fun _ _ _ => forall₂_trans step
  cases k with
  | text | name | number => exact Eq.trans first second
  | list => exact forall₂_trans step first second
  | block => exact forall₂_trans rows first second
  | quoted => exact step _ _ _ first second
  | definition => exact ⟨step _ _ _ first.1 second.1, step _ _ _ first.2 second.2⟩
  | function =>
    cases first with
    | display =>
      cases second
      exact .display
    | definer =>
      cases second
      exact .definer
    | definerOf parameter =>
      cases second with
      | definerOf parameter' => exact .definerOf (step _ _ _ parameter parameter')
    | application parameter body =>
      cases second with
      | application parameter' body' =>
        exact .application (step _ _ _ parameter parameter') (step _ _ _ body body')
  | evaluator =>
    cases first with
    | block statements =>
      cases second with
      | block statements' => exact .block (forall₂_trans rows statements statements')
    | list items =>
      cases second with
      | list items' => exact .list (forall₂_trans step items items')
    | name n =>
      cases second
      exact .name n
    | quoted inner =>
      cases second with
      | quoted inner' => exact .quoted (step _ _ _ inner inner')
  | expander =>
    cases first with
    | block l statements =>
      cases second with
      | block _ statements' =>
        exact .block l (forall₂_trans rows statements statements')
    | list l items =>
      cases second with
      | list _ items' => exact .list l (forall₂_trans step items items')
    | name n l =>
      cases second
      exact .name n l
    | quoted l inner =>
      cases second with
      | quoted _ inner' => exact .quoted l (step _ _ _ inner inner')
  | assigner =>
    cases first with
    | name n =>
      cases second
      exact .name n
  | own => exact first.elim

theorem Payload.Along.trans {p q r : Payload H} (first : p.Along R q) (second : q.Along P r) :
    p.Along Q r := by
  cases first with
  | intro content =>
    cases second with
    | intro content' => exact .intro (content.trans step content')

theorem Node.Along.trans {n m o : Node H} (first : n.Along R m) (second : m.Along P o) :
    n.Along Q o where
  instances := by
    refine forall₂_trans (fun _ _ _ here there => ?_) first.instances second.instances
    cases here with
    | constant key content =>
      cases there with
      | constant _ content' => exact .constant key (content.trans step content')
  location := second.location.trans first.location

end Composition

namespace Node.Along
variable {n n' : Node H} (along : n.Along P n')
include along

theorem own? (key : KeyId) : Option.Rel (Payload.Along P) (n.own? key) (n'.own? key) := by
  have found := along.find? key
  unfold Node.own?
  generalize n.find? key = x at found ⊢
  generalize n'.find? key = y at found ⊢
  cases found with
  | none => exact .none
  | some found =>
    cases found with
    | constant _ content => exact .some (.intro content)

theorem form? (key : Key k) : Option.Rel (k.Along P) (n.form? key) (n'.form? key) := by
  have own := along.own? key.id
  unfold Node.form?
  generalize n.own? key.id = x at own ⊢
  generalize n'.own? key.id = y at own ⊢
  cases own with
  | none => exact .none
  | some answer =>
    cases answer with
    | @intro j x y content =>
      by_cases kind : j = k
      · subst kind
        simpa only [Option.bind_some, Payload.as?_self] using .some content
      · simp only [Option.bind_some, Payload.as?, kind, dite_false]
        exact .none

theorem read {j : Kind} (key : Key k) {f : k.Carrier H → j.Carrier H}
    {f' : k.Carrier H → j.Carrier H} (same : ∀ x y, k.Along P x y → j.Along P (f x) (f' y)) :
    Option.Rel (Payload.Along P) ((n.form? key).map fun x => ⟨j, f x⟩)
      ((n'.form? key).map fun x => ⟨j, f' x⟩) := by
  have form := along.form? key
  generalize n.form? key = x at form ⊢
  generalize n'.form? key = y at form ⊢
  cases form with
  | none => exact .none
  | some content => exact .some (.intro (same _ _ content))

theorem reads (rule : StandardRule) :
    Option.Rel (Payload.Along P) (rule.reads n) (rule.reads n') := by
  have location := along.location
  cases rule with
  | blockText | listText | nameText | numberText | quotedText | definitionText | functionText =>
    exact .none
  | blockEvaluate => exact along.read Key.block fun _ _ => .block
  | listEvaluate => exact along.read Key.list fun _ _ => .list
  | quotedEvaluate => exact along.read Key.quoted fun _ _ => .quoted
  | nameEvaluate =>
    exact along.read Key.name fun x y same => by
      obtain rfl : x = y := same
      exact .name x
  | nameAssign =>
    exact along.read Key.name fun x y same => by
      obtain rfl : x = y := same
      exact .name x
  | definitionFunction => exact along.read Key.definition fun _ _ same => .application same.1 same.2
  | blockExpand =>
    exact along.read Key.block fun _ _ same => by
      rw [location]
      exact .block _ same
  | listExpand =>
    exact along.read Key.list fun _ _ same => by
      rw [location]
      exact .list _ same
  | quotedExpand =>
    exact along.read Key.quoted fun _ _ same => by
      rw [location]
      exact .quoted _ same
  | nameExpand =>
    exact along.read Key.name fun x y same => by
      obtain rfl : x = y := same
      rw [location]
      exact .name x _

theorem standard? (key : KeyId) :
    Option.Rel (Payload.Along P) (n.standard? key) (n'.standard? key) := by
  have own := along.own? key
  have derived : Option.Rel (Payload.Along P) ((StandardRule.forKey key).findSome? (·.reads n))
      ((StandardRule.forKey key).findSome? (·.reads n')) := by
    induction StandardRule.forKey key with
    | nil => exact .none
    | cons rule rest ih =>
      have here := along.reads rule
      rw [List.findSome?_cons, List.findSome?_cons]
      generalize rule.reads n = x at here ⊢
      generalize rule.reads n' = y at here ⊢
      cases here with
      | none => exact ih
      | some answer => exact .some answer
  unfold Node.standard?
  generalize n.own? key = x at own ⊢
  generalize n'.own? key = y at own ⊢
  cases own with
  | none => exact derived
  | some answer => exact .some answer

end Node.Along

theorem Term.Layer.along {n : Node H} {t : Term} {parts : List (Value × Term)}
    (layer : Term.Layer n t parts) (known : t.known) (each : ∀ q ∈ parts, P q.1 q.1) :
    n.Along P n := by
  cases layer with
  | empty l => exact ⟨.nil, rfl⟩
  | name n l => exact single_along Key.name rfl l
  | number n l => exact single_along Key.number rfl l
  | list l even =>
    have items := each_item (p := fun x => P x x) even each
    exact single_along Key.list (List.forall₂_same.mpr items) l
  | block l even =>
    have statements := each_statement (p := fun x => P x x) even each
    exact single_along Key.block (List.forall₂_same.mpr fun row member =>
      List.forall₂_same.mpr (statements row member)) l
  | quoted inner t l => exact single_along Key.quoted (each (inner, t) (by simp)) l
  | definition parameter body t u l =>
    exact single_along Key.definition ⟨each (parameter, t) (by simp), each (body, u) (by simp)⟩ l
  | display l => exact single_along Key.function .display l
  | definer l => exact single_along Key.function .definer l
  | definerOf parameter t l =>
    exact single_along Key.function (.definerOf (each (parameter, t) (by simp))) l
  | function f l => cases known

namespace World

def Itself (w : World H) (v v' : Value) : Prop := v' = v ∧ w.Holds v

namespace Holds
variable (holds : w.Holds v)
include holds

theorem node_along : (w.node v).Along w.Itself (w.node v) := by
  obtain ⟨t, bears⟩ := holds
  cases bears with
  | intro known _ _ layer each => exact layer.along known fun q member => ⟨rfl, _, each q member⟩

theorem remembered_along {key : KeyId} (standard : key.index < standardKinds.length)
    {p : Payload H} (found : w.remembered v key = some p) : p.Along w.Itself p := by
  have node := holds.node_along
  obtain ⟨t, bears⟩ := holds
  by_cases shown : key.index = Key.text.id.index
  · obtain ⟨text, rfl, -⟩ := bears.recites key p shown found
    exact .intro rfl
  · have answered := node.standard? key
    rw [bears.settled.recalls key ⟨shown, standard⟩ p found] at answered
    cases answered with
    | some answer => exact answer

theorem made : w.Made v := by
  obtain ⟨t, bears⟩ := holds
  exact bears.made

end Holds

/-- A number of values were made, and nothing has happened but that. What they consist of and what
    they remember is left open. -/
structure AddsCells (count : Nat) (w after : World H) : Prop extends KeepsSurroundings w after where
  cells : after.cells.size = w.cells.size + count
  node : ∀ v, w.Made v → after.node v = w.node v
  remembered : ∀ v key, w.Made v → after.remembered v key = w.remembered v key

theorem AddsCells.made {after : World H} {count : Nat} {v : Value} (pads : w.AddsCells count after)
    (here : w.Made v) : after.Made v := by
  have cells := pads.cells
  simp only [Made] at here ⊢
  omega

theorem AddsCells.unmade {after : World H} {count : Nat}
    (pads : w.AddsCells count after) (j : Nat) :
    ¬ after.Made ⟨w.cells.size + count + j⟩ := by
  simp [Made, pads.cells]

theorem AddsCells.trans {mid after : World H} {count more : Nat} (first : w.AddsCells count mid)
    (second : mid.AddsCells more after) : w.AddsCells (count + more) after := by
  refine ⟨first.toKeepsSurroundings.trans second.toKeepsSurroundings, ?_, fun v here => ?_,
    fun v key here => ?_⟩
  · rw [second.cells, first.cells, Nat.add_assoc]
  · rw [second.node v (first.made here), first.node v here]
  · rw [second.remembered v key (first.made here), first.remembered v key here]

theorem AddsCells.same (w : World H) : w.AddsCells 0 w :=
  ⟨.same w, rfl, fun _ _ => rfl, fun _ _ _ => rfl⟩

theorem AddsCells.keepsBearings {after : World H} {count : Nat} (pads : w.AddsCells count after)
    (e : EnvironmentId) :
    w.KeepsBearings e after := by
  refine ⟨⟨fun _ => pads.made, pads.node⟩,
    fun v t bears => bears.of_recalls (fun _ => pads.made) pads.node ?_ ?_,
    fun other _ => pads.environment other,
    Nat.le_of_eq (congrArg Array.size pads.environments.symm)⟩
  · intro v key here _ recalls answer found
    rw [pads.remembered v key here] at found
    rw [pads.node v here]
    exact recalls answer found
  · intro v t bears key answer text found
    rw [pads.remembered v key bears.made] at found
    exact bears.recites key answer text found

theorem AddsCells.houses {after : World H} {count : Nat} (pads : w.AddsCells count after)
    (housed : w.Houses e) : after.Houses e :=
  (pads.keepsBearings e).houses (pads.environment e) housed

/-- Values that remember nothing wrong stay paired, and new values are paired in their order, after
    so many that are not. -/
def Renewed (P : Value → Value → Prop) (w w' : World H) (skipped skipped' : Nat) (v v' : Value) :
    Prop :=
  P v v' ∧ w.Holds v ∨
    ∃ j, v = ⟨w.cells.size + skipped + j⟩ ∧ v' = ⟨w'.cells.size + skipped' + j⟩

theorem Houses.along (housed : w.Houses e) :
    w.Along (fun v v' => v' = v ∧ (w.Holds v ∨ ¬ w.Made v)) e w where
  paired := by
    rintro v v' u u' ⟨rfl, -⟩ ⟨rfl, -⟩
    rfl
  node := by
    rintro v _ ⟨rfl, holds | unmade⟩
    · exact holds.node_along.trans (fun _ _ _ first second =>
        ⟨second.1.trans first.1, .inl first.2⟩) holds.node_along
    · rw [node_unmade unmade]
      exact ⟨.nil, rfl⟩
  made := by
    rintro v _ ⟨rfl, -⟩
    rfl
  remembered := by
    rintro v v' key ⟨rfl, holds | unmade⟩ standard
    · cases found : w.remembered v' key with
      | none => exact .none
      | some p =>
        have same := holds.remembered_along standard found
        exact .some (same.trans (fun _ _ _ first second =>
          ⟨second.1.trans first.1, .inl first.2⟩) same)
    · rw [remembered_unmade unmade]
      exact .none
  fresh j := ⟨rfl, .inr (by simp [Made])⟩
  standard := housed.standard
  standard' := housed.standard
  housed := housed.made
  housed' := housed.made
  environment := by
    refine ⟨fun name => ?_, rfl⟩
    cases found : (w.environment e).lookup name with
    | none => exact .none
    | some v => exact .some ⟨rfl, .inl (housed.bound name v found)⟩
  buffers := rfl
  console := rfl

theorem Along.renew {after after' : World H} {skipped skipped' : Nat} (along : w.Along P e w')
    (housed : w.Houses e) (pads : w.AddsCells skipped after)
    (pads' : w'.AddsCells skipped' after') :
    after.Along (w.Renewed P w' skipped skipped') e after' := by
  have old : ∀ a b c, w.Itself a b → P b c → w.Renewed P w' skipped skipped' a c := by
    rintro a _ c ⟨rfl, holds⟩ pair
    exact .inl ⟨pair, holds⟩
  refine { paired := ?_, node := ?_, made := ?_, remembered := ?_, fresh := fun j => ?_,
           standard := ?_, standard' := ?_, housed := ?_, housed' := ?_, environment := ?_,
           buffers := ?_, console := ?_ }
  -- New values are numbered from where both worlds stand, so they meet no old ones.
  · have apart : ∀ {v v' : Value} j, P v v' → w.Holds v →
        v ≠ ⟨w.cells.size + skipped + j⟩ ∧ v' ≠ ⟨w'.cells.size + skipped' + j⟩ := by
      intro v v' j pair holds
      have there := (along.made pair).mp holds.made
      exact ⟨fun same => pads.unmade j (same ▸ pads.made holds.made),
        fun same => pads'.unmade j (same ▸ pads'.made there)⟩
    rintro v v' u u' (⟨pair, holds⟩ | ⟨j, rfl, rfl⟩) (⟨pair', holds'⟩ | ⟨i, rfl, rfl⟩)
    · exact along.paired pair pair'
    · exact iff_of_false (apart i pair holds).1.symm (apart i pair holds).2.symm
    · exact iff_of_false (apart j pair' holds').1 (apart j pair' holds').2
    · simp only [Value.mk.injEq]
      omega
  · rintro v v' (⟨pair, holds⟩ | ⟨j, rfl, rfl⟩)
    · rw [pads.node v holds.made, pads'.node v' ((along.made pair).mp holds.made)]
      exact holds.node_along.trans old (along.node pair)
    · rw [node_unmade (pads.unmade j), node_unmade (pads'.unmade j)]
      exact ⟨.nil, rfl⟩
  · rintro v v' (⟨pair, holds⟩ | ⟨j, rfl, rfl⟩)
    · exact iff_of_true (pads.made holds.made) (pads'.made ((along.made pair).mp holds.made))
    · exact iff_of_false (pads.unmade j) (pads'.unmade j)
  · rintro v v' key (⟨pair, holds⟩ | ⟨j, rfl, rfl⟩) standard
    · rw [pads.remembered v key holds.made,
        pads'.remembered v' key ((along.made pair).mp holds.made)]
      exact rel_found (along.remembered key pair standard) fun p p' found answer =>
        (holds.remembered_along standard found).trans old answer
    · rw [remembered_unmade (pads.unmade j), remembered_unmade (pads'.unmade j)]
      exact .none
  · exact .inr ⟨j, by rw [pads.cells], by rw [pads'.cells]⟩
  · rw [Standard, pads.environment]
    exact along.standard
  · rw [Standard, pads'.environment]
    exact along.standard'
  · rw [pads.environments]
    exact along.housed
  · rw [pads'.environments]
    exact along.housed'
  · rw [pads.environment, pads'.environment]
    exact ⟨fun name => rel_found (along.environment.lookup name) fun v v' found pair =>
      .inl ⟨pair, housed.bound name v found⟩, along.environment.output⟩
  · rw [pads.buffers, pads'.buffers, along.buffers]
  · rw [pads.console, pads'.console, along.console]

end World

section Structure
variable {n' : Node H}

theorem bare_counterpart {l : Option Location} (along : (Node.bare l).Along P n') :
    n' = .bare l := by
  obtain ⟨instances, location⟩ := along
  obtain ⟨is, l'⟩ := n'
  cases instances
  cases location
  rfl

theorem single_counterpart {key : Key k} {x : k.Carrier H} {l : Option Location}
    (along : (Node.single key x l).Along P n') : ∃ y, n' = .single key y l ∧ k.Along P x y := by
  obtain ⟨instances, location⟩ := along
  obtain ⟨is, l'⟩ := n'
  cases location
  cases instances with
  | cons first rest =>
    cases rest
    cases first with
    | constant _ content => exact ⟨_, rfl, content⟩

theorem Term.Layer.counterpart {n : Node H} {t : Term} {parts : List (Value × Term)}
    (layer : Term.Layer n t parts) (known : t.known) (along : n.Along P n')
    {S : Value → Term → Prop} (each : ∀ q ∈ parts, ∀ v', P q.1 v' → S v' q.2) :
    ∃ parts', Term.Layer n' t parts' ∧ ∀ q ∈ parts', S q.1 q.2 := by
  have items : ∀ {xs xs' ts}, List.Forall₂ P xs xs' →
      List.Forall₂ (fun v t => ∀ v', P v v' → S v' t) xs ts → List.Forall₂ S xs' ts :=
    fun same terms => forall₂_trans (fun _ _ _ pair holds => holds _ pair) same.flip terms
  cases layer with
  | empty l =>
    obtain rfl := bare_counterpart along
    exact ⟨[], .empty l, nofun⟩
  | name n l =>
    obtain ⟨m, rfl, same⟩ := single_counterpart along
    obtain rfl : n = m := same
    exact ⟨[], .name n l, nofun⟩
  | number n l =>
    obtain ⟨m, rfl, same⟩ := single_counterpart along
    obtain rfl : n = m := same
    exact ⟨[], .number n l, nofun⟩
  | list l even =>
    obtain ⟨⟨others⟩, rfl, same⟩ := single_counterpart along
    obtain ⟨even', each'⟩ :=
      forall₂_iff_pairs.mp (items same (forall₂_iff_pairs.mpr ⟨even, each⟩))
    exact ⟨_, .list l even', each'⟩
  | block l even =>
    obtain ⟨⟨others⟩, rfl, same⟩ := single_counterpart along
    obtain ⟨even', each'⟩ := forall₂_iff_rows.mp (forall₂_trans
      (P := List.Forall₂ fun v t => ∀ v', P v v' → S v' t) (fun _ _ _ => items) same.flip
      (forall₂_iff_rows.mpr ⟨even, each⟩))
    exact ⟨_, .block l even', each'⟩
  | quoted inner t l =>
    obtain ⟨⟨other⟩, rfl, same⟩ := single_counterpart along
    exact ⟨[(other, t)], .quoted other t l, by simpa using each (inner, t) (by simp) other same⟩
  | definition parameter body t u l =>
    obtain ⟨⟨parameter', body'⟩, rfl, first, second⟩ := single_counterpart along
    refine ⟨[(parameter', t), (body', u)], .definition parameter' body' t u l, ?_⟩
    simpa using ⟨each (parameter, t) (by simp) parameter' first,
      each (body, u) (by simp) body' second⟩
  | display l =>
    obtain ⟨f, rfl, same⟩ := single_counterpart along
    cases same
    exact ⟨[], .display l, nofun⟩
  | definer l =>
    obtain ⟨f, rfl, same⟩ := single_counterpart along
    cases same
    exact ⟨[], .definer l, nofun⟩
  | definerOf parameter t l =>
    obtain ⟨f, rfl, same⟩ := single_counterpart along
    cases same with
    | @definerOf _ other pair =>
      exact ⟨[(other, t)], .definerOf other t l,
        by simpa using each (parameter, t) (by simp) other pair⟩
  | function f l => cases known

/-- Counterparts stand for the same. -/
theorem World.Along.alike (along : w.Along P e w') (pair : P v v') (holds : w.Holds v) :
    w.Alike False False w' v v' := by
  obtain ⟨t, bears⟩ := holds
  refine ⟨t, bears.known, bears.spells, ?_⟩
  induction bears generalizing v' with
  | intro known settled _ layer _ ih =>
    obtain ⟨parts', layer', each⟩ := layer.counterpart known (along.node pair) ih
    exact .intro ((along.made pair).mp settled.made) False.elim layer' each

end Structure

end TraitDispatch
