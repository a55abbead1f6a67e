import TraitDispatch.Proofs.Registration
import TraitDispatch.Proofs.Shape

/- A block is expanded by the rule for blocks, as long as nobody has made it remember anything else.
   What its expansion comes to is then settled but for its items: it keeps the shape of the block,
   or it fails with the first item that does. -/
namespace TraitDispatch
variable {H : Host} {B : Behaviour H} {G : Holdings H} {fuel : Nat} {e : EnvironmentId}
  {w after : World H} {v parameter replacement : Value} {b : Block} {ctx : Context}

/-- It is enough that no rules for blocks are registered in the environment and that it stays in its
    place. -/
theorem World.Blockless.history {α : Type} {m : Act H α} (blockless : w.Blockless e)
    (still : ∀ n ∈ m.history B fuel w, n.seat e = e)
    (others : ∀ rule ∈ registered e (m.history B fuel w), rule.key.index ≠ Key.block.id.index) :
    ∀ n ∈ m.history B fuel w, n.Blockless e := by
  intro n member
  obtain ⟨before, rest, listed⟩ := List.append_of_mem member
  obtain ⟨last, trail, -⟩ := run_trails (respond_trails fuel) m w e
  rw [listed] at still others trail
  have led := trail.divide.1
  rw [seat_of_still fun n' earlier => still n' (List.mem_append_left _ earlier)] at led
  rw [registered_append, List.forall_mem_append] at others
  obtain ⟨further, rules, apart⟩ := blockless
  have housed : e.index < w.environments.size := by
    by_contra outside
    have missing : w.environments[e.index]? = none :=
      Array.getElem?_eq_none_iff.mpr (Nat.le_of_not_lt outside)
    simp [World.environment, missing, StandardRule.inOrder] at rules
  refine ⟨further ++ registered e before, ?_, List.forall_mem_append.mpr ⟨apart, others.1⟩⟩
  rw [led.rules housed, rules, List.append_assoc]

/-- The value holds the block, and nothing of its own says how it is expanded. -/
structure World.Unfolds (v : Value) (b : Block) (w : World H) : Prop where
  own : (w.node v).own? Key.block.id = some ⟨.block, b⟩
  unexpanded : (w.node v).find? Key.expand.id = none
  recalls : w.Recalls v Key.block.id

namespace World.Unfolds
variable (unfolds : w.Unfolds v b)
include unfolds

theorem made : w.Made v := made_of_own unfolds.own

theorem run {α : Type} {m : Act H α} {a : α} (ran : m.run (respond B fuel) w = some (a, after)) :
    after.Unfolds v b := by
  have continues : w.KeepsOwnAnswers after := keepsOwnAnswers_enduring.run ran
  have node := continues.node v unfolds.made
  exact
    { own := node.symm ▸ unfolds.own
      unexpanded := node.symm ▸ unfolds.unexpanded
      recalls := continues.recalls v _ _ unfolds.own unfolds.recalls }

theorem standard_expander :
    (w.node v).standard? Key.expand.id = some ⟨.expander, .block b (w.node v).location⟩ := by
  have lacking : (w.node v).own? Key.expand.id = none := by
    rw [Node.own?, unfolds.unexpanded, Option.bind_none]
  have held : (w.node v).form? Key.block = some b := by
    rw [Node.form?, unfolds.own]
    exact Payload.as?_self _ _
  rw [Node.standard?, lacking, Option.none_or]
  change List.findSome? _ (StandardRule.blockExpand :: _) = _
  rw [List.findSome?_cons, StandardRule.reads, held]
  rfl

theorem ask_expander (placed : ctx.environment = e) (recalls : w.Recalls v Key.expand.id) :
    (v.answer Key.expand ctx : Program H _).EndsIfAllowed B fuel (Moment.Blockless e) w
      fun r _ => ∀ f, r = .ok f → f = .block b (w.node v).location := by
  have resolved : (Program.resolve v Key.expand.id ctx : Program H _).EndsIfAllowed B fuel
      (Moment.Blockless e) w fun r _ => ∀ found, r = .ok found →
        found = some ⟨.expander, .block b (w.node v).location⟩ := by
    refine .resolve (fun answer memo found same => ?_) (fun failure _ _ => nofun)
      fun stack less blockless _ _ => ?_
    · cases same
      rw [← unfolds.standard_expander, recalls answer memo]
    · obtain ⟨others, searches⟩ := blockless.searches B Key.expand.id
        (ctx.withStack stack) unfolds.unexpanded placed
      have first : ((Rule.standard .blockExpand).check B v (ctx.withStack stack)).EndsIfAllowed B
          less (Moment.Blockless e) w _ := conformsAt_own unfolds.own unfolds.recalls
      rw [searches]
      change (applyFirst B v _ (.standard .blockExpand :: _)).EndsIfAllowed ..
      rw [applyFirst_cons]
      refine first.bind (fun source mid found => ?_) fun failure mid _ => nofun
      cases found
      refine .done fun found same => ?_
      cases same
      rfl
  have asked : (v.answer? Key.expand ctx : Program H _).EndsIfAllowed B fuel (Moment.Blockless e) w
      fun r _ => ∀ found, r = .ok found → found = some (.block b (w.node v).location) := by
    refine resolved.bind (fun found mid ended => ?_) fun failure mid _ => nofun
    cases ended found rfl
    refine .done fun found same => ?_
    cases same
    rfl
  refine asked.bind (fun found mid ended => ?_) fun failure mid _ => nofun
  cases ended found rfl
  refine .done fun f same => ?_
  cases same
  rfl

theorem opening_endsIfAllowed (placed : ctx.environment = e)
    (recalls : ∀ inner mid, (v.enterExpansion ctx).Ends B w (.ok inner) mid →
      mid.Recalls v Key.expand.id) :
    (v.opening ctx : Program H _).EndsIfAllowed B fuel (Moment.Blockless e) w fun r _ =>
      ∀ q, r = .ok q → (∃ l, q.1 = .block b l) ∧ ctx.Enters q.2 := by
  have entered : (v.enterExpansion ctx : Program H _).EndsIfAllowed B fuel (Moment.Blockless e) w
      fun r after => after.Unfolds v b ∧ ctx.stack.Affords 1 ctx.Enters r :=
    enterExpansion_endsIfAllowed unfolds fun _ _ _ ran => unfolds.run ran
  refine entered.and_ends.bind (fun inner mid ended => ?_)
    fun failure mid _ q same => by cases same
  obtain ⟨⟨unfolds, enters, -⟩, ends⟩ := ended
  have asked : (v.answer Key.expand inner : Program H _).EndsIfAllowed B fuel
    (Moment.Blockless e) mid _ :=
    unfolds.ask_expander (enters.environment.trans placed) (recalls inner mid ends)
  refine asked.bind (fun f after ended => ?_) fun failure after _ q same => by cases same
  refine .done fun q same => ?_
  cases same
  exact ⟨⟨_, ended f rfl⟩, enters⟩

end World.Unfolds

section Course
variable {rows : List (List Value)} {moments : List (Moment H)} {l : Option Location}

theorem ExpandsBlock.of_statements {inner : Context} {mid : World H} {now : List (Moment H)}
    {outcome : Option (Except Failure (List (List Value)) × World H)}
    (opened : (v.opening ctx).RunsTo B (fuel + 2) w (some (.ok (.block b l, inner), mid)) now)
    (statements : InOrder (ExpandsStatement B fuel parameter replacement inner) b.statements mid
      outcome moments)
    (comes : (b.statements.mapM (expandStatement parameter replacement inner)).RunsTo B (fuel + 1)
      mid outcome moments) :
    ∃ outcome moments, ExpandsBlock B fuel parameter replacement v b ctx w outcome moments ∧
      (v.opening ctx >>= fun q => Program.expand q.1 parameter replacement q.2).RunsTo B (fuel + 2)
        w outcome moments := by
  have expanded := expand_block_runsTo (l := l) comes
  match outcome with
  | none =>
    rw [making, List.append_nil] at expanded
    exact ⟨_, _, .unfinished opened statements, opened.bind_ok expanded⟩
  | some (.error failure, after) =>
    rw [making, List.append_nil] at expanded
    exact ⟨_, _, .failed opened statements, opened.bind_ok expanded⟩
  | some (.ok rows, last) => exact ⟨_, _, .rebuilt opened statements, opened.bind_ok expanded⟩

theorem ExpandsBlock.course (discreet : B.Discreet G) (unfolds : w.Unfolds v b)
    (prepared : w.Prepared G parameter replacement ctx b.statements)
    (recalls : ∀ inner mid, (v.enterExpansion ctx).Ends B w (.ok inner) mid →
      mid.Recalls v Key.expand.id)
    (blockless : ∀ n ∈ (v.expand parameter replacement ctx).run.history B (fuel + 2) w,
      n.Blockless ctx.environment) :
    ∃ outcome moments, ExpandsBlock B fuel parameter replacement v b ctx w outcome moments ∧
      (v.expand parameter replacement ctx).RunsTo B (fuel + 2) w outcome moments := by
  rw [Value.expand_eq] at blockless ⊢
  have opens := unfolds.opening_endsIfAllowed rfl recalls
    fun n member => blockless n (Program.mem_history_bind member)
  have opened := Program.RunsTo.of B (fuel + 2) (v.opening ctx) w
  generalize (v.opening ctx).perform (respond B (fuel + 2)) w = outcome at opened
  match outcome with
  | none => exact ⟨_, _, .unopened opened, .bind_none opened⟩
  | some (.error failure, mid) => exact ⟨_, _, .refused opened, .bind_error opened⟩
  | some (.ok (f, inner), mid) =>
    obtain ⟨⟨l, rfl⟩, enters⟩ := opens _ mid opened.outcome _ rfl
    rw [Program.history_bind_ok opened.outcome, List.forall_mem_append] at blockless
    have prepared : mid.Prepared G parameter replacement inner b.statements :=
      (prepared.perform discreet opened.outcome
        fun K reached => Value.opening_confined (World.equipped_known reached _)
          (reached (World.value_known.mpr unfolds.made))).enter enters
    have watched :
      ∀ n ∈ (b.statements.mapM (expandStatement parameter replacement inner)).run.history
        B (fuel + 1) mid, n.Blockless inner.environment := fun n member => by
      have whole := expand_block_runsTo (l := l) (.of B (fuel + 1)
        (b.statements.mapM (expandStatement parameter replacement inner)) mid)
      rw [enters.environment]
      refine blockless.2 n ?_
      rw [whole.moments]
      exact List.mem_cons_of_mem _ (List.mem_append_left _ member)
    -- Without room to open the list made for a statement, the first is as far as it gets.
    by_cases room : inner.stack.Room 3
    · obtain ⟨outcome, moments, statements, comes⟩ :=
        expand_statements_course discreet room prepared watched
      exact ExpandsBlock.of_statements opened statements comes
    · obtain ⟨outcome, moments, statements, comes⟩ |
        ⟨row, rest, failure, after, moments, filled, fails, comes⟩ :=
          expand_statements_cramped discreet room prepared watched
      · exact ExpandsBlock.of_statements opened statements comes
      · have expanded := expand_block_runsTo (l := l) comes
        rw [making, List.append_nil] at expanded
        exact ⟨_, _, .cramped opened filled fails, opened.bind_ok expanded⟩

/-- What the expansion of a block comes to, whatever its items do, as long as no rule for blocks is
    registered meanwhile and the block remembers no other expander when it is asked for one. It
    keeps the shape of the block, and for each item there is what its expansion has come to, or the
    item itself if it cannot be expanded. Or else it fails with the first item that does, and comes
    to no later one. The block is not changed. -/
theorem expansion_keeps_shape (discreet : B.Discreet G) (closed : w.Closed G)
    (unfolds : w.Unfolds v b) (parameter_made : w.Made parameter)
    (replacement_made : w.Made replacement) (active : ∀ d ∈ ctx.stack.active, w.Made d.value)
    (recalls : ∀ inner mid, (v.enterExpansion ctx).Ends B w (.ok inner) mid →
      mid.Recalls v Key.expand.id)
    (blockless : ∀ n ∈ (v.expand parameter replacement ctx).run.history B (fuel + 2) w,
      n.Blockless ctx.environment) :
    ∃ outcome moments, (v.expand parameter replacement ctx).RunsTo B (fuel + 2) w outcome moments ∧
      ExpandsBlock B fuel parameter replacement v b ctx w outcome moments ∧
      ∀ result after, outcome = some (result, after) →
        after.node v = w.node v ∧ after.Recalls v Key.block.id ∧
        ∀ u, result = .ok u → ∃ rows l, after.node u = .single Key.block ⟨rows⟩ l ∧
          List.Forall₂ (List.Forall₂ fun item other => ∃ inner start mid now,
            ExpandsItem B fuel parameter replacement inner item start (some (.ok other, mid)) now)
            b.statements rows := by
  have known : ∀ row ∈ b.statements, ∀ item ∈ row, w.Made item := by
    intro row listed item inside
    have held : Token.values b.statements.flatten ⊆ w.known :=
      (Holdings.own_held unfolds.own).trans (closed.node v (World.value_known.mpr unfolds.made))
    exact held ⟨item, List.mem_flatten.mpr ⟨row, listed, inside⟩, rfl⟩ item rfl
  have prepared : w.Prepared G parameter replacement ctx b.statements :=
    ⟨closed, parameter_made, replacement_made, active, known⟩
  obtain ⟨outcome, moments, course, comes⟩ :=
    ExpandsBlock.course discreet unfolds prepared recalls blockless
  refine ⟨outcome, moments, comes, course, fun result after ended => ?_⟩
  have continues : w.KeepsOwnAnswers after :=
    Program.perform_keepsOwnAnswers (comes.outcome.trans ended)
  refine ⟨continues.node v unfolds.made, continues.recalls v _ _ unfolds.own unfolds.recalls,
    fun u same => ?_⟩
  subst same
  cases course with
  | refused | unopened | cramped | failed | unfinished => cases ended
  | @rebuilt l inner rows mid last now later opens expanded =>
    cases ended
    refine ⟨rows, l, World.node_new .., (expanded.forall₂ rfl).imp fun row others statement => ?_⟩
    obtain ⟨start, mid, now, statement⟩ := statement
    cases statement with
    | expanded _ items _ =>
      refine (items.forall₂ rfl).imp fun item other course => ?_
      obtain ⟨start, mid, now, course⟩ := course
      exact ⟨_, start, mid, now, course⟩

end Course

def printing : Behaviour Host.unit :=
  { inert with
    expand := fun _ _ replacement _ => do
      Program.access (.print .console "expanded")
      return replacement }

def unheld : Holdings Host.unit := ⟨fun _ => ∅, fun _ _ => ∅, fun _ => ∅, fun _ => ∅⟩

theorem printing_discreet : printing.Discreet unheld := fun _ _ => {
  realize := fun _ _ _ _ _ _ _ => trivial
  infer := fun _ _ _ _ _ _ _ => nofun
  call := fun _ _ _ _ known _ => known
  evaluate := fun _ _ _ _ => trivial
  expand := fun _ _ _ _ _ _ known _ => ⟨Set.empty_subset _, fun _ _ => known⟩
  assign := fun _ _ _ _ _ _ => trivial }

def printingWorld : World Host.unit :=
  { World.initial () with
    cells := #[⟨.single Key.expand (.own ()) none, []⟩, ⟨.bare none, []⟩,
      ⟨.single Key.block ⟨[[⟨0⟩, ⟨1⟩], [⟨1⟩]]⟩ none, []⟩, ⟨.single Key.number ⟨0⟩ none, []⟩]
    environments := #[{ rules := StandardRule.inOrder.map .standard }] }

theorem printing_closed : printingWorld.Closed unheld where
  node v _ := by
    obtain ⟨_ | _ | _ | _ | id⟩ := v
    · exact single_held Key.expand (Set.empty_subset _) none
    · rintro u ⟨i, member, _⟩
      exact absurd member List.not_mem_nil
    · refine single_held Key.block (Token.values_subset_iff.mpr fun u inside => ?_) none
      have each : ∀ u ∈ [[⟨0⟩, ⟨1⟩], [⟨1⟩]].flatten, printingWorld.Made u := by decide
      exact World.value_known.mpr (each u inside)
    · exact single_held Key.number (Set.empty_subset _) none
    · rintro u ⟨i, member, _⟩
      exact absurd member List.not_mem_nil
  remembered v _ key p memo := by
    obtain ⟨_ | _ | _ | _ | id⟩ := v <;> cases memo
  environment e := by
    rintro t (⟨rule, member, inside⟩ | ⟨name, v, found, -⟩ | ⟨slot, found, -⟩)
    · cases rule <;> cases inside
    · obtain ⟨_ | index⟩ := e <;> cases found
    · obtain ⟨_ | index⟩ := e <;> cases found
  memory := Set.empty_subset _

theorem printing_unfolds : printingWorld.Unfolds ⟨2⟩ ⟨[[⟨0⟩, ⟨1⟩], [⟨1⟩]]⟩ where
  own := rfl
  unexpanded := rfl
  recalls := fun _ memo => nomatch memo

/-- The first item prints a line when it is expanded, and the shape of the block is kept. -/
theorem printing_block_keeps_shape :
    printing.Discreet unheld ∧ printingWorld.Closed unheld ∧
    printingWorld.Unfolds ⟨2⟩ ⟨[[⟨0⟩, ⟨1⟩], [⟨1⟩]]⟩ ∧ printingWorld.Made ⟨3⟩ ∧
    (∀ inner mid, ((⟨2⟩ : Value).enterExpansion ⟨⟨0⟩, .fresh⟩).Ends printing printingWorld
      (.ok inner) mid → mid.Recalls ⟨2⟩ Key.expand.id) ∧
    (∀ n ∈ ((⟨2⟩ : Value).expand ⟨3⟩ ⟨3⟩ ⟨⟨0⟩, .fresh⟩).run.history printing 6 printingWorld,
      n.Blockless ⟨0⟩) ∧
    ∃ u after rows l, ((⟨2⟩ : Value).expand ⟨3⟩ ⟨3⟩ ⟨⟨0⟩, .fresh⟩).Ends printing printingWorld
      (.ok u) after ∧ after.console = "expanded\n" ∧ after.node u = .single Key.block ⟨rows⟩ l ∧
      rows.map List.length = [2, 1] := by
  have recalls : ∀ inner mid, ((⟨2⟩ : Value).enterExpansion ⟨⟨0⟩, .fresh⟩).Ends printing
      printingWorld (.ok inner) mid → mid.Recalls ⟨2⟩ Key.expand.id := by
    intro inner mid ends answer memo
    obtain ⟨_, other, ran, blank⟩ := Program.perform_ok_of_any 4 (B := printing)
      (m := (⟨2⟩ : Value).enterExpansion ⟨⟨0⟩, .fresh⟩) (w := printingWorld)
      (p := fun _ after => (after.remembered ⟨2⟩ Key.expand.id).isNone) (by decide +kernel)
    obtain ⟨-, rfl⟩ := Program.ends_unique ends ⟨4, ran⟩
    rw [Option.isNone_iff_eq_none.mp blank] at memo
    cases memo
  have start : printingWorld.Blockless ⟨0⟩ := ⟨[], rfl, List.forall_mem_nil _⟩
  have blockless : ∀ n ∈ ((⟨2⟩ : Value).expand ⟨3⟩ ⟨3⟩ ⟨⟨0⟩, .fresh⟩).run.history printing 6
      printingWorld, n.Blockless ⟨0⟩ := start.history (by decide +kernel) (by decide +kernel)
  obtain ⟨outcome, moments, comes, -, kept⟩ := expansion_keeps_shape printing_discreet
    printing_closed printing_unfolds (by decide) (by decide) (List.forall_mem_nil _)
      recalls blockless
  obtain ⟨u, after, ran, printed⟩ := Program.perform_ok_of_any 6 (B := printing)
    (m := (⟨2⟩ : Value).expand ⟨3⟩ ⟨3⟩ ⟨⟨0⟩, .fresh⟩) (w := printingWorld)
    (p := fun _ after => after.console = "expanded\n") (by decide +kernel)
  obtain ⟨-, -, rebuilt⟩ := kept _ after (comes.outcome.symm.trans ran)
  obtain ⟨rows, l, node, shape⟩ := rebuilt u rfl
  refine ⟨printing_discreet, printing_closed, printing_unfolds, by decide, recalls, blockless, u,
    after, rows, l, ⟨6, ran⟩, of_decide_eq_true printed, node, ?_⟩
  obtain - | ⟨first, - | ⟨second, ⟨⟩⟩⟩ := shape
  rw [List.map_cons, List.map_cons, ← first.length_eq, ← second.length_eq]
  rfl

/-- Expanding codes register a rule by which lists are blocks without statements, and give the
    replacement. There is a rule by which such a code is what blocks are expanded with. -/
def meddling : Behaviour Host.unit :=
  { inert with
    infer := fun
      | .block, _ => ⟨ListForm, .conforms Key.list, fun _ _ => return ⟨[]⟩⟩
      | .expander, _ => ⟨Block, .conforms Key.block, fun _ _ => return .own ()⟩
      | k, code => inert.infer k code
    expand := fun _ _ replacement ctx => do
      Program.access (.register ctx.environment (.own .block Key.block ()))
      return replacement }

def emptying : Behaviour Host.unit :=
  { inert with
    expand := fun _ _ replacement ctx => do
      Program.access (.exchange ctx.environment (← Program.access .addEnvironment))
      return replacement }

def meddlingWorld : World Host.unit :=
  { World.initial () with
    cells := #[⟨.single Key.expand (.own ()) none, []⟩, ⟨.single Key.number ⟨0⟩ none, []⟩,
      ⟨.single Key.block ⟨[[⟨0⟩], [⟨1⟩]]⟩ none, []⟩, ⟨.single Key.number ⟨1⟩ none, []⟩,
      ⟨.single Key.block ⟨[]⟩ none, []⟩,
      ⟨(Node.single Key.block ⟨[]⟩ none).add (.constant Key.expand (.own ())), []⟩]
    environments := #[{ rules := StandardRule.inOrder.map .standard },
      { rules := [.own .expander Key.expand ()] }] }

/-- A block cannot be expanded though its items can, one after the other: the first has the list for
    the second taken for a block, or leaves no rules by which a list could be expanded. And what
    comes of a block is no block if the block remembers another expander, or has one of its own. -/
theorem meddled_block_fails :
    (meddlingWorld.environment ⟨0⟩).rules = StandardRule.inOrder.map .standard ∧
    (∀ v key, meddlingWorld.remembered v key = none) ∧
    (∃ after, ([⟨0⟩, ⟨1⟩].mapM fun item : Value =>
      item.expandOrSelf ⟨3⟩ ⟨3⟩ ⟨⟨0⟩, .fresh⟩).Ends meddling meddlingWorld (.ok [⟨3⟩, ⟨1⟩]) after) ∧
    (∃ f after, ((⟨2⟩ : Value).expand ⟨3⟩ ⟨3⟩ ⟨⟨0⟩, .fresh⟩).Ends meddling meddlingWorld (.error f)
      after ∧ f.cause = .missingTrait "List" ∧ (after.environment ⟨0⟩).ruleCount Key.block.id = 1) ∧
    (∃ f after, ((⟨2⟩ : Value).expand ⟨3⟩ ⟨3⟩ ⟨⟨0⟩, .fresh⟩).Ends emptying meddlingWorld (.error f)
      after ∧ f.cause = .missingTrait "Macro-Expand" ∧ (after.environment ⟨0⟩).rules = []) ∧
    (∃ u after, (do
        let _ ← (⟨4⟩ : Value).answers Key.expand ⟨⟨1⟩, .fresh⟩
        (⟨4⟩ : Value).expand ⟨3⟩ ⟨3⟩ ⟨⟨0⟩, .fresh⟩).Ends meddling meddlingWorld (.ok u) after ∧
      ((after.node u).find? Key.block.id).isNone) ∧
    ∃ u after, ((⟨5⟩ : Value).expand ⟨3⟩ ⟨3⟩ ⟨⟨0⟩, .fresh⟩).Ends meddling meddlingWorld (.ok u)
      after ∧ ((after.node u).find? Key.block.id).isNone := by
  refine ⟨rfl, ?_, ?_, ?_, ?_, ?_, ?_⟩
  · rintro ⟨_ | _ | _ | _ | _ | _ | id⟩ key <;> rfl
  · obtain ⟨items, after, ran, same⟩ := Program.perform_ok_of_any 9 (B := meddling)
      (m := [⟨0⟩, ⟨1⟩].mapM fun item : Value => item.expandOrSelf ⟨3⟩ ⟨3⟩ ⟨⟨0⟩, .fresh⟩)
      (w := meddlingWorld) (p := fun items _ => items = [⟨3⟩, ⟨1⟩]) (by decide +kernel)
    obtain rfl := of_decide_eq_true same
    exact ⟨after, 9, ran⟩
  · obtain ⟨f, after, ran, failed⟩ := Program.perform_error_of_any 9 (B := meddling)
      (m := (⟨2⟩ : Value).expand ⟨3⟩ ⟨3⟩ ⟨⟨0⟩, .fresh⟩) (w := meddlingWorld)
      (p := fun f after => f.cause = .missingTrait "List" ∧
        (after.environment ⟨0⟩).ruleCount Key.block.id = 1) (by decide +kernel)
    exact ⟨f, after, ⟨9, ran⟩, of_decide_eq_true failed⟩
  · obtain ⟨f, after, ran, failed⟩ := Program.perform_error_of_any 9 (B := emptying)
      (m := (⟨2⟩ : Value).expand ⟨3⟩ ⟨3⟩ ⟨⟨0⟩, .fresh⟩) (w := meddlingWorld)
      (p := fun f after => f.cause = .missingTrait "Macro-Expand" ∧
        (after.environment ⟨0⟩).rules.length = 0) (by decide +kernel)
    obtain ⟨missing, empty⟩ := of_decide_eq_true failed
    exact ⟨f, after, ⟨9, ran⟩, missing, List.eq_nil_of_length_eq_zero empty⟩
  · obtain ⟨u, after, ran, unformed⟩ := Program.perform_ok_of_any 9 (B := meddling)
      (m := do
        let _ ← (⟨4⟩ : Value).answers Key.expand ⟨⟨1⟩, .fresh⟩
        (⟨4⟩ : Value).expand ⟨3⟩ ⟨3⟩ ⟨⟨0⟩, .fresh⟩)
      (w := meddlingWorld) (p := fun u after => ((after.node u).find? Key.block.id).isNone)
      (by decide +kernel)
    exact ⟨u, after, ⟨9, ran⟩, unformed⟩
  · obtain ⟨u, after, ran, unformed⟩ := Program.perform_ok_of_any 9 (B := meddling)
      (m := (⟨5⟩ : Value).expand ⟨3⟩ ⟨3⟩ ⟨⟨0⟩, .fresh⟩)
      (w := meddlingWorld) (p := fun u after => ((after.node u).find? Key.block.id).isNone)
      (by decide +kernel)
    exact ⟨u, after, ⟨9, ran⟩, unformed⟩

end TraitDispatch
