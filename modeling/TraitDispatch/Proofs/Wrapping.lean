import TraitDispatch.Proofs.Opening
import TraitDispatch.Proofs.Safekeeping
import TraitDispatch.Proofs.Watching

/- The list that is made for a statement. It is expanded like any other value, so the rules of the
   environment have to take it for a list and for nothing else. They do so as long as the standard
   rules come first and none makes a block of it, and as long as nobody else asks it for anything:
   until it is expanded, no one can. -/
namespace TraitDispatch
variable {H : Host} {α : Type} {B : Behaviour H} {G : Holdings H} {fuel : Nat} {e : EnvironmentId}
  {w after : World H} {v u : Value} {row : List Value} {l : Option Location} {ctx : Context}

def World.Blockless (w : World H) (e : EnvironmentId) : Prop :=
  ∃ further, (w.environment e).rules = StandardRule.inOrder.map .standard ++ further ∧
    ∀ rule ∈ further, rule.key.index ≠ Key.block.id.index

/-- So it is in the environment when the request is put. -/
def Moment.Blockless (e : EnvironmentId) (n : Moment H) : Prop := n.world.Blockless e

namespace World.Blockless
variable (blockless : w.Blockless e)
include blockless

theorem rulesFor (key : KeyId) : ∃ later,
    (w.environment e).rulesFor key = (StandardRule.forKey key).map .standard ++ later := by
  obtain ⟨further, rules, -⟩ := blockless
  refine ⟨further.filter (·.key == key), ?_⟩
  rw [Environment.rulesFor, rules, List.filter_append, List.filter_map]
  rfl

theorem searches (B : Behaviour H) (key : KeyId) (ctx : Context)
    (lacks : (w.node v).find? key = none) (placed : ctx.environment = e) :
    ∃ later, deriveAnswer B w v key ctx =
      applyFirst B v ctx ((StandardRule.forKey key).map .standard ++ later) := by
  obtain ⟨later, rules⟩ := blockless.rulesFor key
  refine ⟨later, ?_⟩
  unfold deriveAnswer
  rw [lacks, placed, rules]

theorem rulesFor_block : (w.environment e).rulesFor Key.block.id = [] := by
  obtain ⟨further, rules, others⟩ := blockless
  rw [Environment.rulesFor, rules, List.filter_append, List.append_eq_nil_iff]
  constructor
  · rfl
  · exact List.filter_eq_nil_iff.mpr fun rule member same =>
      others rule member (KeyId.beq_iff_index_eq.mp same)

end World.Blockless

namespace Value

def enterExpansion (v : Value) (ctx : Context) : Program H Context := do
  ctx.enter (return s!"expanding {← v.format ctx}") (← v.location)

def opening (v : Value) (ctx : Context) : Program H (Expander H.Code × Context) := do
  let inner ← v.enterExpansion ctx
  return (← v.answer Key.expand inner, inner)

theorem expand_eq (v parameter replacement : Value) (ctx : Context) :
    (v.expand parameter replacement ctx : Program H Value) =
      v.opening ctx >>= fun q => Program.expand q.1 parameter replacement q.2 := by
  simp only [expand, opening, enterExpansion, bind_assoc, pure_bind]

theorem opening_confined {K : Set Token} (equipped : Equipped K ctx.stack)
    (known : .value v ∈ K) :
    (v.opening ctx : Program H _).Confined G K fun q => G.expander q.1 ⊆ K :=
  (entry_confined equipped known _).bind fun _ within =>
    (answer_confined within known Key.expand).bind fun _ held => .done held

end Value

structure Context.Enters (ctx inner : Context) : Prop where
  environment : inner.environment = ctx.environment
  below : ctx.stack.Below inner.stack
  active : inner.stack.active = ctx.stack.active

def CallStack.Affords (s : CallStack) (entries : Nat) (p : α → Prop) : Except Failure α → Prop
  | .ok a => p a ∧ s.Room entries
  | .error _ => ¬ s.Room entries

namespace CallStack.Affords
variable {s inner : CallStack} {entries : Nat} {p q : α → Prop} {r : Except Failure α}

theorem weaken (affords : s.Affords entries p r) (wide : ∀ a, p a → q a) :
    s.Affords entries q r := by
  cases r with
  | ok a => exact ⟨wide a affords.1, affords.2⟩
  | error failure => exact affords

theorem below (affords : inner.Affords entries p r) (below : s.Below inner) :
    s.Affords (entries + 1) p r := by
  cases r with
  | ok a => exact ⟨affords.1, below.room_iff.mp affords.2⟩
  | error failure => exact fun room => affords (below.room_iff.mpr room)

end CallStack.Affords

theorem enter_endsIfAllowed {allowed : Moment H → Prop} {label : Act H String}
    {kept : World H → Prop} (start : kept w)
    (labelled : label.EndsIfAllowed B fuel allowed w fun _ after => kept after)
    (l : Option Location) :
    (ctx.enter label l).EndsIfAllowed B fuel allowed w fun r after =>
      kept after ∧ ctx.stack.Affords 1 ctx.Enters r := by
  have entered : ∀ text, ctx.Enters (ctx.withStack (ctx.stack.enter text l)) := fun text =>
    ⟨rfl, CallStack.below_enter .., active_enter ..⟩
  unfold Context.enter
  split
  · rename_i full
    exact .failed ⟨start, CallStack.full_iff.mp full⟩
  · rename_i free
    have room : ctx.stack.Room 1 := CallStack.atLimit_iff.mp (Bool.eq_false_iff.mpr free)
    split
    · refine (Program.EndsIfAllowed.lift labelled).bind
        (fun text mid shown => ?_) fun _ _ shown => ?_
      · obtain ⟨_, -, holds⟩ := shown
        exact .done ⟨holds, entered text, room⟩
      · obtain ⟨_, same, -⟩ := shown
        cases same
    · exact .done ⟨start, entered "", room⟩

theorem enterExpansion_endsIfAllowed {allowed : Moment H → Prop} {kept : World H → Prop}
    (start : kept w) (shown : (v.format ctx : Act H String).EndsIfAllowed B fuel allowed
    w fun _ after => kept after) :
    (v.enterExpansion ctx : Program H Context).EndsIfAllowed B fuel allowed w fun r after =>
      kept after ∧ ctx.stack.Affords 1 ctx.Enters r := by
  have labelled : (do return s!"expanding {← v.format ctx}" : Act H String).EndsIfAllowed B fuel
      allowed w fun _ after => kept after := shown.bind fun _ _ kept => .done kept
  have located : (v.location : Program H _).EndsIfAllowed B fuel allowed w _ := .location v
  refine located.bind (fun l mid found => ?_) fun failure mid found => by cases found.1
  obtain ⟨-, rfl⟩ := found
  exact enter_endsIfAllowed start labelled l

def wrap (row : List Value) (ctx : Context) : Program H (Expander H.Code × Context) := do
  (← createList row).opening ctx

theorem expandStatement_eq (parameter replacement : Value) (ctx : Context) (row : List Value) :
    (expandStatement parameter replacement ctx row : Program H _) =
      wrap row ctx >>= fun q => Program.expand q.1 parameter replacement q.2 >>= fun expanded =>
        expanded.answer Key.list ctx >>= fun l => return l.items := by
  simp only [expandStatement, wrap, Value.expand_eq, bind_assoc]

/-- The value is a list of the items that was made for a statement. Nobody else holds it, and it
    remembers no expander. -/
structure World.Wraps (G : Holdings H) (u : Value) (row : List Value) (l : Option Location)
    (w : World H) : Prop where
  node : w.node u = .single Key.list ⟨row⟩ l
  unformed : w.remembered u Key.block.id = none
  unexpanded : w.remembered u Key.expand.id = none
  recalls : w.Recalls u Key.list.id
  encloses : w.Encloses G (Token.allBut u)
  known : ∀ item ∈ row, item ≠ u

namespace World.Wraps
variable (wraps : w.Wraps G u row l)
include wraps

theorem own : (w.node u).own? Key.list.id = some ⟨.list, ⟨row⟩⟩ := by
  rw [wraps.node]
  rfl

theorem made : w.Made u := made_of_own wraps.own

theorem confined (discreet : B.Discreet G) {m : Act H α} {good : α → Prop}
    (confined : m.Confined G (Token.allBut u) good) :
    m.EndsIfAllowed B fuel (Moment.Blockless e) w fun _ after => after.Wraps G u row l := by
  intro _ a after ran
  have continues : w.KeepsOwnAnswers after := keepsOwnAnswers_enduring.run ran
  have all := Token.stack_allBut u
  have makes : w.Makes (Token.allBut u) after := fun v _ unmade =>
    Token.value_allBut.mpr fun same => unmade (same ▸ wraps.made)
  obtain ⟨-, encloses, spares⟩ := run_confined (discreet _ all) (Token.workable_of_stacks all)
    confined wraps.encloses ran makes
  have hidden : .value u ∉ Token.allBut u := fun apart => apart rfl
  exact
    { node := (continues.node u wraps.made).trans wraps.node
      unformed := (spares u hidden _).trans wraps.unformed
      unexpanded := (spares u hidden _).trans wraps.unexpanded
      recalls := continues.recalls u _ _ wraps.own wraps.recalls
      encloses := encloses
      known := wraps.known }

theorem remember {key : KeyId} {p : Payload H} (block : key.index ≠ Key.block.id.index)
    (expand : key.index ≠ Key.expand.id.index)
    (list : key.index = Key.list.id.index → p = ⟨.list, ⟨row⟩⟩) :
    (w.remember u key p).Wraps G u row l := by
  have continues : w.KeepsOwnAnswers (w.remember u key p) := by
    refine (World.KeepsOwnAnswers.same w).remember fun q own => ?_
    rw [wraps.node] at own
    by_cases same : key.index = Key.list.id.index
    · rw [Node.own?, Node.find?_congr _ same] at own
      cases own
      exact list same
    · have lacking : (Node.single Key.list (⟨row⟩ : ListForm) l : Node H).find? key = none := by
        refine Node.find?_eq_none_iff.mpr fun i member index => same ?_
        cases List.mem_singleton.mp member
        exact index.symm
      rw [Node.own?, lacking] at own
      cases own
  have kept : ∀ other : KeyId, other.index ≠ key.index →
      (w.remember u key p).remembered u other = w.remembered u other := fun other apart =>
    w.remembered_remember_other p fun same => apart same.2
  exact
    { node := (node_remember ..).trans wraps.node
      unformed := (kept _ block.symm).trans wraps.unformed
      unexpanded := (kept _ expand.symm).trans wraps.unexpanded
      recalls := continues.recalls u _ _ wraps.own wraps.recalls
      encloses := wraps.encloses.remember_apart (fun apart => apart rfl) key p
      known := wraps.known }

theorem ask_list : (u.answer? Key.list ctx : Program H _).EndsIfAllowed B fuel (Moment.Blockless e)
    w fun r after => after.Wraps G u row l ∧
      ctx.stack.Grants u Key.list.id (some (⟨row⟩ : ListForm)) r := by
  refine (answer?_own wraps.own wraps.recalls).weaken fun r after ⟨later, ended⟩ => ⟨?_, ended⟩
  rcases later with rfl | rfl
  · exact wraps
  · exact wraps.remember (by decide) (by decide) fun _ => rfl

theorem ask_block (placed : ctx.environment = e) :
    (u.answer? Key.block ctx : Program H _).EndsIfAllowed B fuel (Moment.Blockless e) w
      fun r after => after = w ∧ match r with
        | .ok found => found = none ∧ ctx.stack.Room 1
        | .error failure => ctx.stack.derive u Key.block.id = .error failure := by
  have resolved : (Program.resolve u Key.block.id ctx : Program H _).EndsIfAllowed B fuel
      (Moment.Blockless e) w fun r after => after = w ∧ match r with
        | .ok found => found = none ∧ ctx.stack.Room 1
        | .error failure => ctx.stack.derive u Key.block.id = .error failure := by
    refine .resolve (fun answer memo => ?_) (fun failure _ refused => ⟨rfl, refused⟩)
      fun stack less blockless _ admitted => ?_
    · rw [wraps.unformed] at memo
      cases memo
    · have lacking : (w.node u).find? Key.block.id = none := by
        rw [wraps.node]
        rfl
      unfold deriveAnswer
      rw [lacking]
      dsimp only [Context.withStack]
      rw [placed, blockless.rulesFor_block]
      exact .done ⟨rfl, rfl, (CallStack.admitted admitted).1⟩
  refine resolved.bind (fun found mid ended => ?_) fun failure mid ended => ended
  obtain ⟨rfl, rfl, room⟩ := ended
  exact .done ⟨rfl, rfl, room⟩

theorem check_block (placed : ctx.environment = e) :
    ((Validation.conformsAt Key.block).check u ctx : Program H _).EndsIfAllowed B fuel
      (Moment.Blockless e) w fun r after => after = w ∧ match r with
        | .ok found => found = none ∧ ctx.stack.Room 1
        | .error failure => ctx.stack.derive u Key.block.id = .error failure := by
  refine (wraps.ask_block placed).bind (fun found mid ended => ?_) fun failure mid ended => ended
  obtain ⟨rfl, rfl, room⟩ := ended
  exact .done ⟨rfl, rfl, room⟩

theorem check_list :
    ((Validation.conformsAt Key.list).check u ctx : Program H _).EndsIfAllowed B fuel
      (Moment.Blockless e) w fun r _ =>
      ctx.stack.Grants u Key.list.id (some ((⟨row⟩ : ListForm), l)) r := by
  have located : (w.node u).location = l := by
    rw [wraps.node]
    rfl
  rw [← located]
  exact conformsAt_own wraps.own wraps.recalls

theorem lacks {key : KeyId} (other : key.index ≠ Key.list.id.index) :
    (w.node u).find? key = none := by
  rw [wraps.node]
  refine Node.find?_eq_none_iff.mpr fun i member same => other ?_
  cases List.mem_singleton.mp member
  exact same.symm

theorem resolve_text (discreet : B.Discreet G) (placed : ctx.environment = e) :
    (Program.resolve u Key.text.id ctx : Program H _).EndsIfAllowed B fuel (Moment.Blockless e) w
      fun _ after => after.Wraps G u row l := by
  refine .resolve (fun _ _ => wraps) (fun _ _ _ => wraps) fun stack less blockless _ _ => ?_
  have searched : (deriveAnswer B w u Key.text.id (ctx.withStack stack)).EndsIfAllowed B less
      (Moment.Blockless e) w fun _ after => after.Wraps G u row l := by
    obtain ⟨others, searches⟩ := blockless.searches B Key.text.id (ctx.withStack stack)
      (wraps.lacks (by decide)) placed
    have first : ((Rule.standard .blockText).check B u (ctx.withStack stack)).EndsIfAllowed B less
        (Moment.Blockless e) w _ := wraps.ask_block placed
    rw [searches]
    change (applyFirst B u _ (.standard .blockText :: .standard .listText :: _)).EndsIfAllowed ..
    rw [applyFirst_cons]
    refine first.bind (fun found mid ended => ?_) fun failure mid ended => ended.1 ▸ wraps
    obtain ⟨rfl, rfl, -⟩ := ended
    have second : ((Rule.standard .listText).check B u (ctx.withStack stack)).EndsIfAllowed B less
        (Moment.Blockless e) mid _ := wraps.ask_list
    dsimp only
    rw [applyFirst_cons]
    refine second.bind (fun found mid ended => ?_) fun failure mid ended => ended.1
    obtain ⟨wraps, rfl⟩ := ended
    have rendered : (Rule.derive B (.standard .listText) (⟨row⟩ : ListForm)
        (ctx.withStack stack)).Confined G (Token.allBut u) fun _ => True := by
      have equipped : Equipped (Token.allBut u) (ctx.withStack stack).stack :=
        ⟨Token.workable_of_stacks (Token.stack_allBut u), Token.stack_allBut u _⟩
      have shown : (do return ⟨← (ListForm.render ⟨row⟩ (ctx.withStack stack)).lift, none⟩ :
          Program H Text).Confined G (Token.allBut u) fun _ => True :=
        (Program.Confined.lift (ListForm.render_confined equipped fun v member =>
          Token.value_allBut.mpr (wraps.known v member))).bind fun _ _ => .done trivial
      unfold Rule.derive
      rw [map_eq_pure_bind]
      exact shown.bind fun _ _ => .done trivial
    exact wraps.confined discreet rendered
  refine searched.weaken fun r mid wraps => ?_
  match r with
  | .ok (some answer) => exact wraps.remember (by decide) (by decide) fun same => by cases same
  | .ok none | .error _ => exact wraps

theorem format (discreet : B.Discreet G) (placed : ctx.environment = e) :
    (u.format ctx : Act H _).EndsIfAllowed B fuel (Moment.Blockless e) w
      fun _ after => after.Wraps G u row l := by
  have asked : (u.answer? Key.text ctx.withoutRecording : Program H _).EndsIfAllowed B fuel
      (Moment.Blockless e) w fun _ after => after.Wraps G u row l := by
    have resolved : (Program.resolve u Key.text.id ctx.withoutRecording : Program H _).EndsIfAllowed
        B fuel (Moment.Blockless e) w _ := wraps.resolve_text discreet placed
    refine resolved.bind (fun found mid wraps => ?_) fun failure mid wraps => wraps
    cases found with
    | none => exact .done wraps
    | some p =>
      dsimp only
      cases p.as? Kind.text with
      | none => exact .failed wraps
      | some text => exact .done wraps
  refine Act.EndsIfAllowed.bind asked fun r mid wraps => ?_
  match r with
  | .ok (some text) => exact .done wraps
  | .ok none | .error _ => exact .done wraps

theorem resolve_expander (placed : ctx.environment = e)
    (idle : ∀ key, ⟨u, key⟩ ∉ ctx.stack.active) :
    (Program.resolve u Key.expand.id ctx : Program H _).EndsIfAllowed B fuel (Moment.Blockless e) w
      fun r _ => ctx.stack.Affords 2 (· = some ⟨.expander, .list ⟨row⟩ l⟩) r := by
  refine .resolve (fun answer memo => ?_) (fun failure _ refused room => ?_)
    fun stack less blockless _ admitted => ?_
  · rw [wraps.unexpanded] at memo
    cases memo
  · obtain ⟨inner, entered, -⟩ := ctx.stack.derive_roomy u Key.expand.id (idle _)
      (room.fewer (by decide))
    rw [entered] at refused
    cases refused
  · obtain ⟨-, below, active⟩ := CallStack.admitted admitted
    have clear : ∀ key : KeyId, key.index ≠ Key.expand.id.index →
        ⟨u, key.index⟩ ∉ stack.active := fun key other => by
      rw [active, List.mem_cons, not_or]
      exact ⟨fun same => other (congrArg Derivation.key same), idle _⟩
    -- Who is refused one entry below has no room for two.
    have refusal : ∀ (key : KeyId) (failure : Failure), key.index ≠ Key.expand.id.index →
        stack.derive u key = .error failure → ¬ stack.Room 1 := fun key failure other refused =>
      (CallStack.refused (clear key other) refused).1
    have searched : (deriveAnswer B w u Key.expand.id (ctx.withStack stack)).EndsIfAllowed B less
        (Moment.Blockless e) w fun r _ =>
          stack.Affords 1 (· = some ⟨.expander, .list ⟨row⟩ l⟩) r := by
      obtain ⟨others, searches⟩ := blockless.searches B Key.expand.id (ctx.withStack stack)
        (wraps.lacks (by decide)) placed
      have first : ((Rule.standard .blockExpand).check B u (ctx.withStack stack)).EndsIfAllowed B
          less (Moment.Blockless e) w _ := wraps.check_block placed
      rw [searches]
      change (applyFirst B u _
        (.standard .blockExpand :: .standard .listExpand :: _)).EndsIfAllowed ..
      rw [applyFirst_cons]
      refine first.bind (fun source mid ended => ?_) fun failure mid ended =>
        refusal Key.block.id failure (by decide) ended.2
      obtain ⟨rfl, rfl, room⟩ := ended
      have second : ((Rule.standard .listExpand).check B u (ctx.withStack stack)).EndsIfAllowed B
          less (Moment.Blockless e) mid _ := wraps.check_list
      dsimp only
      rw [applyFirst_cons]
      refine second.bind (fun source mid found => ?_) fun failure mid refused =>
        refusal Key.list.id failure (by decide) refused
      cases found
      exact .done ⟨rfl, room⟩
    exact searched.weaken fun _ _ affords => affords.below below

theorem ask_expander (placed : ctx.environment = e)
    (idle : ∀ key, ⟨u, key⟩ ∉ ctx.stack.active) :
    (u.answer Key.expand ctx : Program H _).EndsIfAllowed B fuel (Moment.Blockless e) w
      fun r _ => ctx.stack.Affords 2 (· = .list ⟨row⟩ l) r := by
  have asked : (u.answer? Key.expand ctx : Program H _).EndsIfAllowed B fuel (Moment.Blockless e) w
      fun r _ => ctx.stack.Affords 2 (· = some (.list ⟨row⟩ l)) r := by
    refine (wraps.resolve_expander placed idle).bind (fun found mid ended => ?_)
      fun failure mid ended => ended
    obtain ⟨rfl, room⟩ := ended
    exact .done ⟨rfl, room⟩
  refine asked.bind (fun found mid ended => ?_) fun failure mid ended => ended
  obtain ⟨rfl, room⟩ := ended
  exact .done ⟨rfl, room⟩

theorem opening_endsIfAllowed (discreet : B.Discreet G) (placed : ctx.environment = e)
    (idle : ∀ key, ⟨u, key⟩ ∉ ctx.stack.active) :
    (u.opening ctx : Program H _).EndsIfAllowed B fuel (Moment.Blockless e) w fun r _ =>
      ctx.stack.Affords 3 (fun q => q.1 = .list ⟨row⟩ l ∧ ctx.Enters q.2) r := by
  have entered : (u.enterExpansion ctx : Program H _).EndsIfAllowed B fuel (Moment.Blockless e) w
      fun r after => after.Wraps G u row l ∧ ctx.stack.Affords 1 ctx.Enters r :=
    enterExpansion_endsIfAllowed wraps (wraps.format discreet placed)
  refine entered.bind (fun inner mid ended => ?_) fun failure mid ended room =>
    ended.2 (room.fewer (by decide))
  obtain ⟨wraps, enters, -⟩ := ended
  have deeper : ∀ key, ⟨u, key⟩ ∉ inner.stack.active := fun key => enters.active ▸ idle key
  have asked : (u.answer Key.expand inner : Program H _).EndsIfAllowed B fuel
    (Moment.Blockless e) mid _ :=
    wraps.ask_expander (enters.environment.trans placed) deeper
  refine asked.bind (fun f after ended => ?_) fun failure after cramped room =>
    cramped (enters.below.room_iff.mpr room)
  exact .done ⟨⟨ended.1, enters⟩, enters.below.room_iff.mp ended.2⟩

end World.Wraps

section Statement
variable (closed : w.Closed G) (known : ∀ item ∈ row, w.Made item)

include closed known in
theorem wraps_new (l : Option Location) :
    (w.create (.single Key.list ⟨row⟩ l)).2.Wraps G
      (w.create (.single Key.list ⟨row⟩ l)).1 row l := by
  have unmade := World.unmade_new w (.single Key.list (⟨row⟩ : ListForm) l)
  have apart : ∀ item ∈ row, item ≠ (w.create (.single Key.list (⟨row⟩ : ListForm) l)).1 :=
    fun item member same => unmade (same ▸ known item member)
  have blank := World.blank_new w (.single Key.list (⟨row⟩ : ListForm) l)
  exact
    { node := World.node_new w _
      unformed := blank _
      unexpanded := blank _
      recalls := fun answer memo => by rw [blank] at memo; cases memo
      encloses := (closed.encloses unmade).create (single_held Key.list
        (Token.values_subset_iff.mpr fun v member => Token.value_allBut.mpr (apart v member)) l)
      known := apart }

theorem createList_endsIfAllowed {allowed : Moment H → Prop} :
    (createList row : Program H _).EndsIfAllowed B fuel allowed w fun r after =>
      ∃ l, r = .ok (w.create (.single Key.list ⟨row⟩ l)).1 ∧
        after = (w.create (.single Key.list ⟨row⟩ l)).2 := by
  have created : ∀ l, (Program.create (.single Key.list ⟨row⟩ l) : Program H _).EndsIfAllowed B fuel
      allowed w fun r after => ∃ l, r = .ok (w.create (.single Key.list ⟨row⟩ l)).1 ∧
        after = (w.create (.single Key.list ⟨row⟩ l)).2 := fun l =>
    (Program.EndsIfAllowed.access (.create (.single Key.list ⟨row⟩ l))).weaken
      fun _ _ ended => ⟨l, ended⟩
  cases row with
  | nil => exact created none
  | cons first rest =>
    have located : (first.location : Program H _).EndsIfAllowed B fuel allowed w _ :=
      .location first
    refine located.bind (fun l mid found => ?_) fun failure mid found => nomatch found.1
    obtain ⟨-, rfl⟩ := found
    exact created l

include closed known in
/-- If nobody else could come by it, the list that is made for a statement can be opened where there
    is room for it, and what is found is how to expand a list of the items. -/
theorem wrap_endsIfAllowed (discreet : B.Discreet G) (placed : ctx.environment = e)
    (active : ∀ d ∈ ctx.stack.active, w.Made d.value) :
    (wrap row ctx : Program H _).EndsIfAllowed B fuel (Moment.Blockless e) w fun r _ =>
      ctx.stack.Affords 3 (fun q => (∃ l, q.1 = .list ⟨row⟩ l) ∧ ctx.Enters q.2) r := by
  refine createList_endsIfAllowed.bind (fun u mid created => ?_) fun failure mid created => ?_
  · obtain ⟨l, same, rfl⟩ := created
    cases same
    refine ((wraps_new closed known l).opening_endsIfAllowed discreet placed
      fun key member => ?_).weaken fun r after affords => ?_
    · exact World.unmade_new w (.single Key.list ⟨row⟩ l) (active _ member)
    · exact affords.weaken fun q opened => ⟨⟨l, opened.1⟩, opened.2⟩
  · obtain ⟨_, same, -⟩ := created
    cases same

end Statement

end TraitDispatch
