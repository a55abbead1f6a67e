import TraitDispatch.Proofs.Lockstep

/- The standard forms, evaluated, called and expanded in two runs. Each program is led back to the
   programs it asks for. -/
namespace TraitDispatch
variable {H : Host} {α β γ δ : Type} {B : Behaviour H} {e : EnvironmentId}
  {w w' after after' : World H} {v : Value} {k : Kind} {fuel : Nat} {enough : Prop}

theorem World.BothKeepBearings.all {values : List Value}
    (advance : w.BothKeepBearings e w' after after')
    (each : ∀ v ∈ values, w.Both w' v) : ∀ v ∈ values, after.Both after' v :=
  fun v member => (each v member).grown advance

theorem mapM_tandem {f f' : γ → Program H δ} {p : World H → World H → δ → Prop} {items : List γ}
    (abreast : w.Abreast e w')
    (kept : ∀ {w w' after after' : World H} {x}, w.BothKeepBearings e w' after after' → p w w' x →
      p after after' x)
    (each : ∀ item ∈ items, ∀ after after', w.BothKeepBearings e w' after after' →
      Program.Tandem B fuel enough e (f item) (f' item) after after' fun a a' x x' =>
        x' = x ∧ p a a' x) :
    Program.Tandem B fuel enough e (items.mapM f) (items.mapM f') w w' fun a a' xs xs' =>
      xs' = xs ∧ ∀ x ∈ xs, p a a' x := by
  induction items generalizing w w' with
  | nil => exact .done abreast ⟨rfl, nofun⟩
  | cons item items ih =>
    rw [List.mapM_cons, List.mapM_cons]
    refine (each item (List.mem_cons_self ..) w w' (.same abreast)).bind
      fun x x' mid mid' advance found => ?_
    obtain ⟨rfl, holds⟩ := found
    have others := ih advance.abreast fun other member last last' later =>
      each other (List.mem_cons_of_mem _ member) last last' (advance.trans later)
    refine others.bind fun xs xs' last last' later rest => ?_
    obtain ⟨rfl, holds'⟩ := rest
    exact .done later.abreast ⟨rfl, List.forall_mem_cons.mpr ⟨kept later holds, holds'⟩⟩

def World.Layered (w w' : World H) (node : Node H) : Prop :=
  ∃ t parts, t.known ∧ Term.Layer node t parts ∧
    ∀ q ∈ parts, w.Bears True q.1 q.2 ∧ w'.Bears True q.1 q.2

namespace World.Abreast
variable (abreast : w.Abreast e w')
include abreast

theorem terms {items : List Value} (each : ∀ x ∈ items, w.Both w' x) :
    ∃ ts, Term.knownAll ts ∧
      List.Forall₂ (fun v t => w.Bears True v t ∧ w'.Bears True v t) items ts := by
  obtain ⟨ts, terms⟩ := forall₂_of_exists (S := fun v t => w.Bears True v t ∧ w'.Bears True v t)
    (List.forall₂_same.mpr fun x member => abreast.term (each x member))
  have known := left_of_forall₂ (terms.flip.imp fun t x here => here.1.known)
  exact ⟨ts, Term.knownAll_iff.mpr known, terms⟩

theorem layered_list {items : List Value} (each : ∀ x ∈ items, w.Both w' x) (l : Option Location) :
    w.Layered w' (.single Key.list ⟨items⟩ l) := by
  obtain ⟨ts, known, terms⟩ := abreast.terms each
  obtain ⟨even, holds⟩ := forall₂_iff_pairs.mp terms
  exact ⟨.list ts l, _, known, .list l even, holds⟩

theorem layered_block {rows : List (List Value)} (each : ∀ row ∈ rows, ∀ x ∈ row, w.Both w' x)
    (l : Option Location) : w.Layered w' (.single Key.block ⟨rows⟩ l) := by
  obtain ⟨tss, terms⟩ := forall₂_of_exists (S := fun row ts => Term.knownAll ts ∧
      List.Forall₂ (fun v t => w.Bears True v t ∧ w'.Bears True v t) row ts)
    (List.forall₂_same.mpr fun row member => abreast.terms (each row member))
  have known := left_of_forall₂ (terms.flip.imp fun ts row here => here.1)
  obtain ⟨even, holds⟩ := forall₂_iff_rows.mp (terms.imp fun _ _ row => row.2)
  exact ⟨.block tss l, _, Term.knownRows_iff.mpr known, .block l even, holds⟩

theorem layered_quoted (held : w.Both w' v) (l : Option Location) :
    w.Layered w' (.single Key.quoted ⟨v⟩ l) := by
  obtain ⟨t, bears⟩ := abreast.term held
  exact ⟨.quoted t l, _, bears.1.known, .quoted v t l, by simpa using bears⟩

theorem layered_definition {parameter body : Value} (named : w.Both w' parameter)
    (held : w.Both w' body) (l : Option Location) :
    w.Layered w' (.single Key.definition ⟨parameter, body⟩ l) := by
  obtain ⟨t, bears⟩ := abreast.term named
  obtain ⟨u, bears'⟩ := abreast.term held
  have known := Bool.and_eq_true_iff.mpr ⟨bears.1.known, bears'.1.known⟩
  exact ⟨.definition t u l, _, known, .definition parameter body t u l, by
    simpa using ⟨bears, bears'⟩⟩

theorem layered_definerOf (held : w.Both w' v) (l : Option Location) :
    w.Layered w' (.single Key.function (.definerOf v) l) := by
  obtain ⟨t, bears⟩ := abreast.term held
  exact ⟨.definerOf t l, _, bears.1.known, .definerOf v t l, by simpa using bears⟩

end World.Abreast

theorem World.layered_bare (w w' : World H) (l : Option Location) : w.Layered w' (.bare l) :=
  ⟨.empty l, [], rfl, .empty l, nofun⟩

theorem World.layered_name (w w' : World H) (n : Name) (l : Option Location) :
    w.Layered w' (.single Key.name n l) :=
  ⟨.name n l, [], rfl, .name n l, nofun⟩

theorem create_tandem {node : Node H} (abreast : w.Abreast e w') (layered : w.Layered w' node) :
    Program.Tandem B fuel enough e (Program.create node) (Program.create node) w w'
      World.Common := by
  obtain ⟨t, parts, known, layer, each⟩ := layered
  have same : (w.create node).1 = (w'.create node).1 := congrArg Value.mk abreast.cells.symm
  refine .create abreast ⟨⟨t, .create known layer fun q member => (each q member).1⟩, t, ?_⟩
  rw [same]
  exact .create known layer fun q member => (each q member).2

theorem createEmpty_tandem (abreast : w.Abreast e w') :
    Program.Tandem B fuel enough e Program.createEmpty Program.createEmpty w w' World.Common :=
  create_tandem abreast (w.layered_bare w' none)

theorem createList_tandem {items : List Value} (abreast : w.Abreast e w')
    (each : ∀ x ∈ items, w.Both w' x) :
    Program.Tandem B fuel enough e (createList items) (createList items) w w' World.Common := by
  cases items with
  | nil => exact create_tandem abreast (abreast.layered_list each none)
  | cons first rest =>
    refine (Program.Tandem.location abreast first).bind fun l l' mid mid' advance found => ?_
    obtain ⟨rfl, rfl⟩ := found
    exact create_tandem advance.abreast (advance.abreast.layered_list (advance.all each) _)

theorem bundle_tandem {items : List Value} (abreast : w.Abreast e w')
    (each : ∀ x ∈ items, w.Both w' x) :
    Program.Tandem B fuel enough e (bundle items) (bundle items) w w' World.Common := by
  match items, each with
  | [single], each => exact .done abreast ⟨rfl, each single (List.mem_singleton_self single)⟩
  | [], each => exact createList_tandem abreast each
  | first :: second :: rest, each => exact createList_tandem abreast each

theorem define_tandem {ctx ctx' : Context} (abreast : w.Abreast e w') (beside : ctx.Beside e ctx')
    (held : w.Both w' v) (name : String) :
    Program.Tandem B fuel enough e (Program.access (.define ctx.environment name v))
      (Program.access (.define ctx'.environment name v)) w w' fun _ _ _ _ => True := by
  rw [beside.environment, beside.environment']
  refine (Program.EndsIf.access _).weaken id fun r after found => ?_
  obtain ⟨rfl, rfl⟩ := found
  exact .ended (.access _ w') (.define abreast held name) trivial

theorem printLine_endsIf (fuel : Nat) (enough : Prop) {ctx : Context}
    (made : ctx.environment.index < w.environments.size) (line : String) :
    (printLine line ctx).EndsIf B fuel enough w fun r after => ∃ u : Unit, r = .ok u ∧ True ∧
      w.KeepsControl ctx.environment after := by
  have prints : ∀ (output : Output) (mid : World H), w.KeepsControl ctx.environment mid →
      (Program.access (.print output line)).EndsIf B fuel enough mid fun r after =>
        ∃ u : Unit, r = .ok u ∧ True ∧ w.KeepsControl ctx.environment after := by
    intro output mid idles
    refine (Program.EndsIf.access _).weaken id fun r after found => ?_
    obtain ⟨rfl, rfl⟩ := found
    exact ⟨_, rfl, trivial, idles.trans (mid.keepsControl_print line output)⟩
  have same := (World.LearnsRenderings.same w).keepsControl ctx.environment
  refine (Program.EndsIf.access _).bind (fun found mid here => ?_) fun failure mid here => ?_
  · obtain ⟨same', rfl⟩ := here
    cases found.output with
    | some output => exact prints output _ same
    | none =>
      refine (Program.EndsIf.access _).bind (fun _ last here => ?_) fun failure last here => ?_
      · obtain ⟨-, rfl⟩ := here
        exact prints .console _ (World.keepsControl_output made .console)
      · cases here.1
  · cases here.1

theorem printLine_tandem {ctx ctx' : Context} (abreast : w.Abreast e w')
    (beside : ctx.Beside e ctx') (line line' : String) :
    Program.Tandem B fuel enough e (printLine line ctx) (printLine line' ctx') w w'
      fun _ _ _ _ => True ∧ True := by
  have made : ctx.environment.index < w.environments.size := by
    rw [beside.environment]
    exact abreast.lower.made
  have made' : ctx'.environment.index < w'.environments.size := by
    rw [beside.environment']
    exact abreast.upper.made
  have lower := printLine_endsIf (B := B) fuel enough made line
  have upper := printLine_endsIf (B := B) 0 True made' line'
  rw [beside.environment] at lower
  rw [beside.environment'] at upper
  obtain ⟨r', after', ends, u, rfl, printed⟩ := upper.ends_with trivial
  exact .keepsControl abreast lower ⟨u, after', ends, printed⟩

section Programs
variable {ctx ctx' : Context} (earlier : ∀ less < fuel, Abides B e less)
  (abreast : w.Abreast e w') (beside : ctx.Beside e ctx')
  (fuelled : enough → ctx.stack.Brief fuel)

section Entering
include abreast beside fuelled

theorem entry_tandem (both : w.Both w' v) (label : String → String)
    {f f' : Context → Program H Value}
    (rest : ∀ inner inner' mid mid', w.BothKeepBearings e w' mid mid' → inner.Beside e inner' →
      inner.Fuelled enough fuel →
      Program.Tandem B fuel enough e (f inner) (f' inner') mid mid' World.Common) :
    Program.Tandem B fuel enough e
      (v.location >>= fun location => ctx.enter (do return label (← v.format ctx)) location >>= f)
      (v.location >>= fun location => ctx'.enter (do return label (← v.format ctx')) location >>=
        f') w w' World.Common := by
  refine (Program.Tandem.location abreast v).bind fun l l' mid mid' advance _ => ?_
  obtain ⟨t, lower, upper⟩ := advance.abreast.term (both.grown advance)
  have labelled : ∀ (more : Nat) {ctx : Context} {w : World H}, w.Bears True v t →
      w.Standard ctx.environment → ctx.stack.Calm →
      (do return label (← v.format ctx) : Act H String).EndsIf B more
        (ctx.stack.Brief more ∨ t.depth + 3 ≤ more) w fun _ after =>
          w.LearnsRenderings True after :=
    fun more _ _ bears standard calm =>
      (format_learnsRenderings more bears standard calm).bind fun text after learnt => .done learnt
  have first := labelled fuel lower (beside.standard advance.abreast) beside.calm
  have second := labelled (t.depth + 3) upper (beside.standard' advance.abreast) beside.calm'
  refine (enter_tandem advance.abreast beside
    (first.fewer fun plenty => .inl (fuelled plenty))
    ⟨_, second.fewer fun _ => .inr (Nat.le_refl _)⟩).bind
      fun inner inner' last last' later found => ?_
  obtain ⟨beside', below, room⟩ := found
  refine rest inner inner' last last' (advance.trans later) beside' fun plenty => ?_
  have brief := fuelled plenty
  obtain ⟨less, rfl⟩ : ∃ less, fuel = less + 1 := ⟨fuel - 1, by have := brief.pos; omega⟩
  exact ⟨less, rfl, brief.below below room⟩

end Entering

include earlier abreast beside fuelled

theorem evaluate_tandem (both : w.Both w' v) :
    Program.Tandem B fuel enough e (v.evaluate ctx) (v.evaluate ctx') w w' World.Common := by
  refine entry_tandem abreast beside fuelled both _
    fun inner inner' mid mid' advance beside' fuelled' => ?_
  obtain ⟨t, parts, known, layer, each⟩ := advance.abreast.parts (both.grown advance)
  refine (answer_tandem advance.abreast beside' (both.grown advance) ⟨rfl, by decide⟩
    fuelled'.brief).bind fun f f' last last' later found => ?_
  obtain ⟨found, rfl⟩ := found
  exact evaluate_request earlier later.abreast beside' fuelled'
    (layer.evaluator_over (fun q member => (each q member).grown later) found)

theorem expand_tandem {parameter replacement : Value} (both : w.Both w' v)
    (named : w.Both w' parameter) (held : w.Both w' replacement) :
    Program.Tandem B fuel enough e (v.expand parameter replacement ctx)
      (v.expand parameter replacement ctx') w w' World.Common := by
  refine entry_tandem abreast beside fuelled both _
    fun inner inner' mid mid' advance beside' fuelled' => ?_
  obtain ⟨t, parts, known, layer, each⟩ := advance.abreast.parts (both.grown advance)
  refine (answer_tandem advance.abreast beside' (both.grown advance) ⟨rfl, by decide⟩
    fuelled'.brief).bind fun f f' last last' later found => ?_
  obtain ⟨found, rfl⟩ := found
  have advanced := advance.trans later
  exact expand_request earlier later.abreast beside' fuelled'
    (layer.expander_over (fun q member => (each q member).grown later) found)
    (named.grown advanced) (held.grown advanced)

theorem call_tandem {argument : Value} (both : w.Both w' v) (held : w.Both w' argument) :
    Program.Tandem B fuel enough e (v.call argument ctx) (v.call argument ctx') w w'
      World.Common := by
  refine entry_tandem abreast beside fuelled both _
    fun inner inner' mid mid' advance beside' fuelled' => ?_
  have both' := both.grown advance
  obtain ⟨t, parts, known, layer, each⟩ := advance.abreast.parts both'
  have regular : Key.function.Regular := ⟨rfl, by decide⟩
  refine (answer?_tandem advance.abreast beside' both' regular fuelled'.brief).bind
    fun f f' last last' later found => ?_
  obtain ⟨found, rfl⟩ := found
  cases f' with
  | some f =>
    exact call_request earlier later.abreast beside' fuelled'
      (layer.function_over known (fun q member => (each q member).grown later) found.symm)
      (held.grown (advance.trans later))
  | none =>
    exact (format_tandem later.abreast beside' (both'.grown later) fuelled'.brief).bind
      fun shown shown' _ _ final _ => .fail final.abreast (.uncallable shown shown')

theorem evaluateOrSelf_tandem (both : w.Both w' v) :
    Program.Tandem B fuel enough e (v.evaluateOrSelf ctx) (v.evaluateOrSelf ctx') w w'
      World.Common := by
  refine (answers_tandem abreast beside both (⟨rfl, by decide⟩ : Key.evaluate.Regular)
    fuelled).bind fun a a' mid mid' advance same => ?_
  subst same
  cases a' with
  | true => exact evaluate_tandem earlier advance.abreast beside fuelled (both.grown advance)
  | false => exact .done advance.abreast ⟨rfl, both.grown advance⟩

theorem expandOrSelf_tandem {parameter replacement : Value} (both : w.Both w' v)
    (named : w.Both w' parameter) (held : w.Both w' replacement) :
    Program.Tandem B fuel enough e (v.expandOrSelf parameter replacement ctx)
      (v.expandOrSelf parameter replacement ctx') w w' World.Common := by
  refine (answers_tandem abreast beside both (⟨rfl, by decide⟩ : Key.expand.Regular)
    fuelled).bind fun a a' mid mid' advance same => ?_
  subst same
  cases a' with
  | true =>
    exact expand_tandem earlier advance.abreast beside fuelled (both.grown advance)
      (named.grown advance) (held.grown advance)
  | false => exact .done advance.abreast ⟨rfl, both.grown advance⟩

omit earlier in
theorem splitAssignment_tandem {passed items : List Value}
    (before : ∀ x ∈ passed, w.Both w' x) (each : ∀ x ∈ items, w.Both w' x) :
    Program.Tandem B fuel enough e (splitAssignment passed items ctx)
      (splitAssignment passed items ctx') w w' fun a a' s s' => s' = s ∧
        ∀ left right, s = some (left, right) →
          (∀ x ∈ left, a.Both a' x) ∧ ∀ x ∈ right, a.Both a' x := by
  induction items generalizing passed w w' with
  | nil => exact .done abreast ⟨rfl, nofun⟩
  | cons item rest ih =>
    obtain ⟨here, there⟩ := List.forall_mem_cons.mp each
    refine (answer?_tandem abreast beside here (⟨rfl, by decide⟩ : Key.name.Regular) fuelled).bind
      fun name name' mid mid' advance found => ?_
    obtain ⟨-, rfl⟩ := found
    have before' := advance.all before
    have there' := advance.all there
    by_cases mark : name' = some assignmentMark
    · rw [if_pos mark, if_pos mark]
      refine .done advance.abreast ⟨rfl, fun left right same => ?_⟩
      cases same
      exact ⟨fun x member => before' x (List.mem_reverse.mp member), there'⟩
    · rw [if_neg mark, if_neg mark]
      exact ih advance.abreast (List.forall_mem_cons.mpr ⟨here.grown advance, before'⟩) there'

omit earlier in
theorem assign_tandem {f : Assigner H.Code} (builtIn : f.BuiltIn) (held : w.Both w' v) :
    Program.Tandem B fuel enough e (Program.assign f v ctx) (Program.assign f v ctx') w w'
      fun _ _ _ _ => True := by
  cases builtIn with
  | name n =>
    refine .request (Act.run_request _ _ _) (fun less => Act.run_request _ _ _)
      (fun _ _ => .assign) (fun plenty => (fuelled plenty).pos) fun less _ => ?_
    exact define_tandem abreast beside held n.name

theorem assignment_tandem {left right : List Value} (targets : ∀ x ∈ left, w.Both w' x)
    (sources : ∀ x ∈ right, w.Both w' x) :
    Program.Tandem B fuel enough e (evaluateAssignment left right ctx)
      (evaluateAssignment left right ctx') w w' World.Common := by
  unfold evaluateAssignment
  split
  · exact .fail abreast (.same _)
  · refine (bundle_tandem abreast targets).bind fun target target' w₁ w₁' first found => ?_
    obtain ⟨rfl, target⟩ := found
    refine (bundle_tandem first.abreast (first.all sources)).bind
      fun source source' w₂ w₂' second found => ?_
    obtain ⟨rfl, source⟩ := found
    refine (evaluateOrSelf_tandem earlier second.abreast beside fuelled source).bind
      fun value value' w₃ w₃' third found => ?_
    obtain ⟨rfl, value⟩ := found
    have target₃ := (target.grown second).grown third
    obtain ⟨t, parts, -, layer, -⟩ := third.abreast.parts target₃
    refine (answer_tandem third.abreast beside target₃ (⟨rfl, by decide⟩ : Key.assign.Regular)
      fuelled).bind fun f f' w₄ w₄' fourth found => ?_
    obtain ⟨found, rfl⟩ := found
    have value₄ := value.grown fourth
    refine (assign_tandem fourth.abreast beside fuelled (layer.assigner_over found) value₄).bind
      fun _ _ w₅ w₅' fifth _ => ?_
    exact createEmpty_tandem fifth.abreast

theorem callAll_tandem {function : Value} {arguments : List Value} (both : w.Both w' function)
    (each : ∀ x ∈ arguments, w.Both w' x) :
    Program.Tandem B fuel enough e (callAll function arguments ctx)
      (callAll function arguments ctx') w w' World.Common := by
  induction arguments generalizing function w w' with
  | nil => exact .done abreast ⟨rfl, both⟩
  | cons argument rest ih =>
    obtain ⟨here, there⟩ := List.forall_mem_cons.mp each
    refine (call_tandem earlier abreast beside fuelled both here).bind
      fun next next' mid mid' advance found => ?_
    obtain ⟨rfl, both'⟩ := found
    exact ih advance.abreast both' (advance.all there)

theorem list_tandem {l : ListForm} (each : ∀ x ∈ l.items, w.Both w' x) :
    Program.Tandem B fuel enough e (l.evaluate ctx) (l.evaluate ctx') w w' World.Common := by
  have passed : ∀ x ∈ ([] : List Value), w.Both w' x := nofun
  refine (splitAssignment_tandem abreast beside fuelled passed each).bind
    fun split split' mid mid' advance found => ?_
  obtain ⟨rfl, sides⟩ := found
  match split', sides with
  | some (left, right), sides =>
    obtain ⟨targets, sources⟩ := sides left right rfl
    exact assignment_tandem earlier advance.abreast beside fuelled targets sources
  | none, _ =>
    have each' := advance.all each
    cases items : l.items with
    | nil => exact createEmpty_tandem advance.abreast
    | cons head arguments =>
      rw [items] at each'
      obtain ⟨here, there⟩ := List.forall_mem_cons.mp each'
      refine (evaluateOrSelf_tandem earlier advance.abreast beside fuelled here).bind
        fun function function' last last' later found => ?_
      obtain ⟨rfl, both⟩ := found
      exact callAll_tandem earlier later.abreast beside fuelled both (later.all there)

theorem statements_tandem {result : Value} {rows : List (List Value)} (both : w.Both w' result)
    (each : ∀ row ∈ rows, ∀ x ∈ row, w.Both w' x) :
    Program.Tandem B fuel enough e (evaluateStatements result rows ctx)
      (evaluateStatements result rows ctx') w w' World.Common := by
  induction rows generalizing result w w' with
  | nil => exact .done abreast ⟨rfl, both⟩
  | cons statement rest ih =>
    obtain ⟨here, there⟩ := List.forall_mem_cons.mp each
    refine (createList_tandem abreast here).bind fun line line' mid mid' advance found => ?_
    obtain ⟨rfl, line⟩ := found
    refine (evaluate_tandem earlier advance.abreast beside fuelled line).bind
      fun next next' last last' later found => ?_
    obtain ⟨rfl, next⟩ := found
    exact ih later.abreast next fun row member => (advance.trans later).all (there row member)

theorem block_tandem {b : Block} (each : ∀ row ∈ b.statements, ∀ x ∈ row, w.Both w' x) :
    Program.Tandem B fuel enough e (b.evaluate ctx) (b.evaluate ctx') w w' World.Common := by
  refine (createEmpty_tandem abreast).bind fun result result' mid mid' advance found => ?_
  obtain ⟨rfl, both⟩ := found
  exact statements_tandem earlier advance.abreast beside fuelled both fun row member =>
    advance.all (each row member)

omit earlier fuelled in
theorem name_tandem (n : Name) :
    Program.Tandem B fuel enough e (n.evaluate ctx) (n.evaluate ctx') w w' World.Common := by
  refine (enter_tandem abreast beside (.done (.same w)) ⟨0, .done (.same w')⟩).bind
    fun inner inner' mid mid' advance found => ?_
  have lower : (Program.access (.environment ctx.environment)).EndsIf B fuel enough mid
      fun r after => ∃ found, r = .ok found ∧ found = mid.environment e ∧
        mid.KeepsControl e after := by
    rw [beside.environment]
    refine (Program.EndsIf.access _).weaken id fun r after found => ?_
    obtain ⟨rfl, rfl⟩ := found
    exact ⟨_, rfl, rfl, (World.LearnsRenderings.same _).keepsControl e⟩
  have upper : ∃ found after', (Program.access (.environment ctx'.environment)).Ends B mid'
      (.ok found) after' ∧ found = mid'.environment e ∧ mid'.KeepsControl e after' := by
    rw [beside.environment']
    exact ⟨_, mid', .access _ mid', rfl, (World.LearnsRenderings.same mid').keepsControl e⟩
  refine (Program.Tandem.keepsControl advance.abreast lower upper).bind
    fun found found' last last' later same => ?_
  obtain ⟨rfl, rfl⟩ := same
  rw [advance.abreast.lookup]
  cases bound : (mid.environment e).lookup n.name with
  | some value => exact .done later.abreast ⟨rfl, (advance.abreast.bound bound).grown later⟩
  | none => exact .fail later.abreast (.same _)

theorem display_tandem {argument : Value} (held : w.Both w' argument) :
    Program.Tandem B fuel enough e (display argument ctx) (display argument ctx') w w'
      World.Common := by
  refine (evaluateOrSelf_tandem earlier abreast beside fuelled held).bind
    fun value value' w₁ w₁' first found => ?_
  obtain ⟨rfl, both⟩ := found
  refine (format_tandem first.abreast beside both fuelled).bind
    fun shown shown' w₂ w₂' second _ => ?_
  refine (printLine_tandem second.abreast beside shown shown').bind fun _ _ w₃ w₃' third _ => ?_
  exact createEmpty_tandem third.abreast

theorem macro_tandem {m : Macro} {argument : Value} (named : w.Both w' m.parameter)
    (within : w.Both w' m.body) (held : w.Both w' argument) :
    Program.Tandem B fuel enough e (m.apply argument ctx) (m.apply argument ctx') w w'
      World.Common := by
  refine (evaluateOrSelf_tandem earlier abreast beside fuelled held).bind
    fun replacement replacement' w₁ w₁' first found => ?_
  obtain ⟨rfl, replacement⟩ := found
  refine (expand_tandem earlier first.abreast beside fuelled (within.grown first)
    (named.grown first) replacement).bind fun expanded expanded' w₂ w₂' second found => ?_
  obtain ⟨rfl, expanded⟩ := found
  exact evaluateOrSelf_tandem earlier second.abreast beside fuelled expanded

section Expanding
variable {parameter replacement : Value} (named : w.Both w' parameter)
  (held : w.Both w' replacement)
include named held

theorem expandList_tandem {l : ListForm} (each : ∀ x ∈ l.items, w.Both w' x) :
    Program.Tandem B fuel enough e (l.expand parameter replacement ctx)
      (l.expand parameter replacement ctx') w w' fun a a' l l' =>
        l' = l ∧ ∀ x ∈ l.items, a.Both a' x := by
  refine (mapM_tandem (p := World.Both) abreast (fun advance both => both.grown advance)
    fun item member mid mid' advance => ?_).bind fun items items' mid mid' advance found => ?_
  · exact expandOrSelf_tandem earlier advance.abreast beside fuelled
      ((each item member).grown advance) (named.grown advance) (held.grown advance)
  · obtain ⟨rfl, each'⟩ := found
    exact .done advance.abreast ⟨rfl, each'⟩

theorem expandStatement_tandem {statement : List Value} (each : ∀ x ∈ statement, w.Both w' x) :
    Program.Tandem B fuel enough e (expandStatement parameter replacement ctx statement)
      (expandStatement parameter replacement ctx' statement) w w' fun a a' xs xs' =>
        xs' = xs ∧ ∀ x ∈ xs, a.Both a' x := by
  refine (createList_tandem abreast each).bind fun line line' w₁ w₁' first found => ?_
  obtain ⟨rfl, line⟩ := found
  refine (expand_tandem earlier first.abreast beside fuelled line (named.grown first)
    (held.grown first)).bind fun expanded expanded' w₂ w₂' second found => ?_
  obtain ⟨rfl, expanded⟩ := found
  obtain ⟨t, parts, -, layer, each'⟩ := second.abreast.parts expanded
  refine (answer_tandem second.abreast beside expanded (⟨rfl, by decide⟩ : Key.list.Regular)
    fuelled).bind fun items items' w₃ w₃' third found => ?_
  obtain ⟨found, rfl⟩ := found
  exact .done third.abreast ⟨rfl, third.all (layer.items_over each' found)⟩

theorem expandBlock_tandem {b : Block} (each : ∀ row ∈ b.statements, ∀ x ∈ row, w.Both w' x) :
    Program.Tandem B fuel enough e (b.expand parameter replacement ctx)
      (b.expand parameter replacement ctx') w w' fun a a' b b' =>
        b' = b ∧ ∀ row ∈ b.statements, ∀ x ∈ row, a.Both a' x := by
  refine (mapM_tandem (p := fun a a' row => ∀ x ∈ row, a.Both a' x) abreast
    (fun advance each => advance.all each) fun row member mid mid' advance => ?_).bind
      fun rows rows' mid mid' advance found => ?_
  · exact expandStatement_tandem earlier advance.abreast beside fuelled (named.grown advance)
      (held.grown advance) (advance.all (each row member))
  · obtain ⟨rfl, each'⟩ := found
    exact .done advance.abreast ⟨rfl, each'⟩

theorem expandQuoted_tandem {q : Quoted} (within : w.Both w' q.inner) :
    Program.Tandem B fuel enough e (q.expand parameter replacement ctx)
      (q.expand parameter replacement ctx') w w' fun a a' q q' => q' = q ∧ a.Both a' q.inner := by
  refine (expandOrSelf_tandem earlier abreast beside fuelled within named held).bind
    fun inner inner' mid mid' advance found => ?_
  obtain ⟨rfl, both⟩ := found
  exact .done advance.abreast ⟨rfl, both⟩

omit earlier in
theorem expandName_tandem (n : Name) (l : Option Location) :
    Program.Tandem B fuel enough e (n.expand l parameter replacement ctx)
      (n.expand l parameter replacement ctx') w w' World.Common := by
  refine (answer?_tandem abreast beside named (⟨rfl, by decide⟩ : Key.name.Regular) fuelled).bind
    fun name name' mid mid' advance found => ?_
  obtain ⟨-, rfl⟩ := found
  by_cases same : name' = some n
  · rw [if_pos same]
    exact .done advance.abreast ⟨rfl, held.grown advance⟩
  · rw [if_neg same]
    exact create_tandem advance.abreast (mid.layered_name mid' n l)

end Expanding

end Programs

theorem abides (fuel : Nat) : Abides B e fuel (H := H) := by
  induction fuel using Nat.strongRecOn with
  | ind fuel earlier =>
  refine ⟨fun {w w' ctx ctx' f argument} abreast beside among held => ?_,
    fun {w w' ctx ctx' f} abreast beside among => ?_,
    fun {w w' ctx ctx' f parameter replacement} abreast beside among named held => ?_⟩
  · cases among with
    | display => exact display_tandem earlier abreast beside id held
    | definer => exact create_tandem abreast (abreast.layered_definerOf held none)
    | @definerOf parameter named =>
      refine (Program.Tandem.location abreast parameter).bind fun l l' mid mid' advance found => ?_
      obtain ⟨rfl, rfl⟩ := found
      exact create_tandem advance.abreast
        (advance.abreast.layered_definition (named.grown advance) (held.grown advance) _)
    | application named within =>
      exact macro_tandem earlier abreast beside id named within held
  · cases among with
    | block each => exact block_tandem earlier abreast beside id each
    | list each => exact list_tandem earlier abreast beside id each
    | name n => exact name_tandem abreast beside n
    | quoted inner => exact .done abreast ⟨rfl, inner⟩
  · cases among with
    | block l each =>
      refine (expandBlock_tandem earlier abreast beside id named held each).bind
        fun b b' mid mid' advance found => ?_
      obtain ⟨rfl, each'⟩ := found
      exact create_tandem advance.abreast (advance.abreast.layered_block each' l)
    | list l each =>
      refine (expandList_tandem earlier abreast beside id named held each).bind
        fun items items' mid mid' advance found => ?_
      obtain ⟨rfl, each'⟩ := found
      exact create_tandem advance.abreast (advance.abreast.layered_list each' l)
    | name n l => exact expandName_tandem abreast beside id named held n l
    | quoted l within =>
      refine (expandQuoted_tandem earlier abreast beside id named held within).bind
        fun q q' mid mid' advance found => ?_
      obtain ⟨rfl, both⟩ := found
      exact create_tandem advance.abreast (advance.abreast.layered_quoted both l)

end TraitDispatch
