import TraitDispatch.Proofs.Wrapping

/- The expansion of a block. Its statements are expanded one after the other, and in each the items
   one after the other, whatever their expanders do. What comes of it has the same shape, or else it
   is the failure of the first item that fails, and no later item is asked for anything. -/
namespace TraitDispatch
variable {H : Host} {α β : Type} {B : Behaviour H} {G : Holdings H} {fuel : Nat} {e : EnvironmentId}
  {w mid after : World H} {v item parameter replacement : Value} {b : Block} {row : List Value}
  {l : Option Location} {ctx : Context} {now later moments : List (Moment H)}

/-- With so much fuel the program has this outcome, if it comes to one, and puts these requests. -/
structure Program.RunsTo (B : Behaviour H) (fuel : Nat) (m : Program H α) (w : World H)
    (outcome : Option (Except Failure α × World H)) (moments : List (Moment H)) : Prop where
  outcome : m.perform (respond B fuel) w = outcome
  moments : m.run.history B fuel w = moments

namespace Program.RunsTo
variable {m : Program H α} {f : α → Program H β} {a : α}

theorem of (B : Behaviour H) (fuel : Nat) (m : Program H α) (w : World H) :
    m.RunsTo B fuel w (m.perform (respond B fuel) w) (m.run.history B fuel w) := ⟨rfl, rfl⟩

theorem done (a : α) (w : World H) : (pure a : Program H α).RunsTo B fuel w (some (.ok a, w)) [] :=
  ⟨rfl, rfl⟩

theorem bind_ok {outcome : Option (Except Failure β × World H)}
    (first : m.RunsTo B fuel w (some (.ok a, mid)) now)
    (rest : (f a).RunsTo B fuel mid outcome later) :
    (m >>= f).RunsTo B fuel w outcome (now ++ later) where
  outcome := by
    rw [perform_bind, first.outcome]
    exact rest.outcome
  moments := by rw [history_bind_ok first.outcome, first.moments, rest.moments]

theorem bind_pure {x : β} (first : m.RunsTo B fuel w (some (.ok a, mid)) now)
    (rest : f a = pure x) :
    (m >>= f).RunsTo B fuel w (some (.ok x, mid)) now := by
  have both := first.bind_ok (rest ▸ done x mid)
  rwa [List.append_nil] at both

theorem bind_error {failure : Failure}
    (first : m.RunsTo B fuel w (some (.error failure, mid)) now) :
    (m >>= f).RunsTo B fuel w (some (.error failure, mid)) now where
  outcome := by
    rw [perform_bind, first.outcome]
    rfl
  moments := by rw [history_bind_error first.outcome, first.moments]

theorem bind_none (first : m.RunsTo B fuel w none now) : (m >>= f).RunsTo B fuel w none now where
  outcome := by
    rw [perform_bind, first.outcome]
    rfl
  moments := by rw [history_bind_none first.outcome, first.moments]

theorem map {outcome : Option (Except Failure α × World H)}
    (comes : m.RunsTo B fuel w outcome moments) (g : α → β) :
    (g <$> m).RunsTo B fuel w (outcome.map fun q => (q.1.map g, q.2)) moments where
  outcome := by rw [perform_map, comes.outcome]
  moments := by rw [history_map, comes.moments]

theorem create (n : Node H) (w : World H) :
    (Program.create n).RunsTo B fuel w (some (.ok (w.create n).1, (w.create n).2))
      [⟨.access (.create n), w⟩] where
  outcome := by
    rw [Program.create, perform_access, respond_access]
    rfl
  moments := by
    change (Act.ask (.access (.create n)) fun x => .done (Except.ok x)).history B fuel w = _
    rw [history_ask, respond_access, nested_at_once rfl]
    rfl

theorem expand {f : Expander H.Code} {outcome : Option (Except Failure Value × World H)}
    (body : (f.apply B parameter replacement ctx).RunsTo B fuel w outcome moments) :
    (Program.expand f parameter replacement ctx).RunsTo B (fuel + 1) w outcome
      (⟨.expand f parameter replacement ctx, w⟩ :: moments) where
  outcome := (Act.run_request _ (.expand f parameter replacement ctx) w).trans body.outcome
  moments := by
    change (Act.request (.expand f parameter replacement ctx)).history B (fuel + 1) w = _
    rw [history_request, nested_body rfl]
    exact congrArg _ body.moments

end Program.RunsTo

section Item
variable (B : Behaviour H) (fuel : Nat) (parameter replacement : Value)

/-- How the expansion of one item goes: it is asked whether it can be expanded, and is expanded if
    it can, and kept if it cannot. -/
inductive ExpandsItem (ctx : Context) (item : Value) (w : World H) :
    Option (Except Failure Value × World H) → List (Moment H) → Prop
  | kept {mid : World H} {now : List (Moment H)}
      (lacks : (item.answers Key.expand ctx).RunsTo B fuel w (some (.ok false, mid)) now) :
      ExpandsItem ctx item w (some (.ok item, mid)) now
  | expanded {mid : World H} {now later : List (Moment H)}
      {outcome : Option (Except Failure Value × World H)}
      (able : (item.answers Key.expand ctx).RunsTo B fuel w (some (.ok true, mid)) now)
      (comes : (item.expand parameter replacement ctx).RunsTo B fuel mid outcome later) :
      ExpandsItem ctx item w outcome (now ++ later)
  | failed {failure : Failure} {mid : World H} {now : List (Moment H)}
      (fails : (item.answers Key.expand ctx).RunsTo B fuel w (some (.error failure, mid)) now) :
      ExpandsItem ctx item w (some (.error failure, mid)) now
  | unfinished {now : List (Moment H)}
      (given_up : (item.answers Key.expand ctx).RunsTo B fuel w none now) :
      ExpandsItem ctx item w none now

end Item

/-- How things are gone through one after the other. The first that fails ends it, and nothing is
    asked for those behind it. -/
inductive InOrder (step : α → World H → Option (Except Failure β × World H) →
    List (Moment H) → Prop) :
    List α → World H → Option (Except Failure (List β) × World H) → List (Moment H) → Prop
  | done (w : World H) : InOrder step [] w (some (.ok [], w)) []
  | next {a : α} {b : β} {rest : List α} {w mid : World H} {now later : List (Moment H)}
      {outcome : Option (Except Failure (List β) × World H)}
      (first : step a w (some (.ok b, mid)) now) (others : InOrder step rest mid outcome later) :
      InOrder step (a :: rest) w (outcome.map fun q => (q.1.map (b :: ·), q.2)) (now ++ later)
  | failed {a : α} {untouched : List α} {failure : Failure} {w mid : World H}
      {now : List (Moment H)} (first : step a w (some (.error failure, mid)) now) :
      InOrder step (a :: untouched) w (some (.error failure, mid)) now
  | unfinished {a : α} {untouched : List α} {w : World H} {now : List (Moment H)}
      (first : step a w none now) : InOrder step (a :: untouched) w none now

def unwrap (items : List Value) (l : Option Location) (ctx : Context) : Program H (List Value) := do
  return (← (← Program.create (.single Key.list ⟨items⟩ l)).answer Key.list ctx).items

section Block
variable (B : Behaviour H) (fuel : Nat) (parameter replacement : Value)

/-- How the expansion of a statement goes: a list is made of it, in which the items are expanded one
    after the other, and what comes of them is taken out of it again. -/
inductive ExpandsStatement (ctx : Context) (row : List Value) (w : World H) :
    Option (Except Failure (List Value) × World H) → List (Moment H) → Prop
  | expanded {items : List Value} {l : Option Location} {inner : Context} {mid last after : World H}
      {opening now closing : List (Moment H)}
      (wrapped : (wrap row ctx).RunsTo B (fuel + 1) w
        (some (.ok (.list ⟨row⟩ l, inner), mid)) opening)
      (expanded : InOrder (ExpandsItem B fuel parameter replacement inner) row mid
        (some (.ok items, last)) now)
      (unwrapped : (unwrap items l ctx).RunsTo B (fuel + 1) last
        (some (.ok items, after)) closing) :
      ExpandsStatement ctx row w (some (.ok items, after))
        (opening ++ ⟨.expand (.list ⟨row⟩ l) parameter replacement inner, mid⟩ :: (now ++ closing))
  | failed {l : Option Location} {inner : Context} {failure : Failure} {mid after : World H}
      {opening now : List (Moment H)}
      (wrapped : (wrap row ctx).RunsTo B (fuel + 1) w
        (some (.ok (.list ⟨row⟩ l, inner), mid)) opening)
      (fails : InOrder (ExpandsItem B fuel parameter replacement inner) row mid
        (some (.error failure, after)) now) :
      ExpandsStatement ctx row w (some (.error failure, after))
        (opening ++ ⟨.expand (.list ⟨row⟩ l) parameter replacement inner, mid⟩ :: now)
  | unfinished {l : Option Location} {inner : Context} {mid : World H}
      {opening now : List (Moment H)}
      (wrapped : (wrap row ctx).RunsTo B (fuel + 1) w
        (some (.ok (.list ⟨row⟩ l, inner), mid)) opening)
      (given_up : InOrder (ExpandsItem B fuel parameter replacement inner) row mid none now) :
      ExpandsStatement ctx row w none
        (opening ++ ⟨.expand (.list ⟨row⟩ l) parameter replacement inner, mid⟩ :: now)
  | unopened {opening : List (Moment H)}
      (given_up : (wrap row ctx).RunsTo B (fuel + 1) w none opening) :
      ExpandsStatement ctx row w none opening

/-- How the expansion of a block goes. Where it cannot be entered, or the list for its first
    statement cannot, it fails before it comes to any item. -/
inductive ExpandsBlock (v : Value) (b : Block) (ctx : Context) (w : World H) :
    Option (Except Failure Value × World H) → List (Moment H) → Prop
  | refused {failure : Failure} {mid : World H} {now : List (Moment H)}
      (fails : (v.opening ctx).RunsTo B (fuel + 2) w (some (.error failure, mid)) now) :
      ExpandsBlock v b ctx w (some (.error failure, mid)) now
  | unopened {now : List (Moment H)} (given_up : (v.opening ctx).RunsTo B (fuel + 2) w none now) :
      ExpandsBlock v b ctx w none now
  | cramped {l : Option Location} {inner : Context} {row : List Value} {rest : List (List Value)}
      {failure : Failure} {mid after : World H} {now later : List (Moment H)}
      (opens : (v.opening ctx).RunsTo B (fuel + 2) w (some (.ok (.block b l, inner), mid)) now)
      (filled : b.statements = row :: rest)
      (fails : (wrap row inner).RunsTo B (fuel + 1) mid (some (.error failure, after)) later) :
      ExpandsBlock v b ctx w (some (.error failure, after))
        (now ++ ⟨.expand (.block b l) parameter replacement inner, mid⟩ :: later)
  | failed {l : Option Location} {inner : Context} {failure : Failure} {mid after : World H}
      {now later : List (Moment H)}
      (opens : (v.opening ctx).RunsTo B (fuel + 2) w (some (.ok (.block b l, inner), mid)) now)
      (fails : InOrder (ExpandsStatement B fuel parameter replacement inner) b.statements mid
        (some (.error failure, after)) later) :
      ExpandsBlock v b ctx w (some (.error failure, after))
        (now ++ ⟨.expand (.block b l) parameter replacement inner, mid⟩ :: later)
  | unfinished {l : Option Location} {inner : Context} {mid : World H} {now later : List (Moment H)}
      (opens : (v.opening ctx).RunsTo B (fuel + 2) w (some (.ok (.block b l, inner), mid)) now)
      (given_up : InOrder (ExpandsStatement B fuel parameter replacement inner) b.statements
        mid none later) :
      ExpandsBlock v b ctx w none
        (now ++ ⟨.expand (.block b l) parameter replacement inner, mid⟩ :: later)
  | rebuilt {l : Option Location} {inner : Context} {rows : List (List Value)} {mid last : World H}
      {now later : List (Moment H)}
      (opens : (v.opening ctx).RunsTo B (fuel + 2) w (some (.ok (.block b l, inner), mid)) now)
      (expanded : InOrder (ExpandsStatement B fuel parameter replacement inner) b.statements mid
        (some (.ok rows, last)) later) :
      ExpandsBlock v b ctx w
        (some (.ok (last.create (.single Key.block ⟨rows⟩ l)).1,
          (last.create (.single Key.block ⟨rows⟩ l)).2))
        (now ++ ⟨.expand (.block b l) parameter replacement inner, mid⟩ ::
          (later ++ [⟨.access (.create (.single Key.block ⟨rows⟩ l)), last⟩]))

end Block

theorem ExpandsItem.course (B : Behaviour H) (fuel : Nat) (parameter replacement : Value)
    (ctx : Context) (item : Value) (w : World H) :
    ∃ outcome moments, ExpandsItem B fuel parameter replacement ctx item w outcome moments ∧
      (item.expandOrSelf parameter replacement ctx).RunsTo B fuel w outcome moments := by
  have asked := Program.RunsTo.of B fuel (item.answers Key.expand ctx) w
  generalize (item.answers Key.expand ctx).perform (respond B fuel) w = outcome at asked
  match outcome with
  | none => exact ⟨_, _, .unfinished asked, .bind_none asked⟩
  | some (.error failure, mid) => exact ⟨_, _, .failed asked, .bind_error asked⟩
  | some (.ok false, mid) =>
    exact ⟨_, _, .kept asked, asked.bind_pure rfl⟩
  | some (.ok true, mid) =>
    have comes := Program.RunsTo.of B fuel (item.expand parameter replacement ctx) mid
    exact ⟨_, _, .expanded asked comes, asked.bind_ok comes⟩

namespace InOrder
variable {step : α → World H → Option (Except Failure β × World H) → List (Moment H) → Prop}

/-- If it is known how each goes, and what has to hold for that holds on from one to the next, then
    it is known how all of them go. -/
theorem course {f : α → Program H β} {allowed : Moment H → Prop} (holds : World H → Prop)
    {as : List α}
    (each : ∀ a ∈ as, ∀ w, holds w → (∀ n ∈ (f a).run.history B fuel w, allowed n) →
      ∃ outcome moments, step a w outcome moments ∧ (f a).RunsTo B fuel w outcome moments ∧
        ∀ r after, outcome = some (r, after) → holds after)
    (start : holds w) (watched : ∀ n ∈ (as.mapM f).run.history B fuel w, allowed n) :
    ∃ outcome moments, InOrder step as w outcome moments ∧
      (as.mapM f).RunsTo B fuel w outcome moments := by
  induction as generalizing w with
  | nil => exact ⟨_, _, .done w, .done [] w⟩
  | cons a rest ih =>
    rw [List.mapM_cons] at watched ⊢
    obtain ⟨outcome, now, first, comes, later⟩ := each a (List.mem_cons_self ..) w start
      fun n member => watched n (Program.mem_history_bind member)
    match outcome with
    | none => exact ⟨_, _, .unfinished first, .bind_none comes⟩
    | some (.error failure, mid) => exact ⟨_, _, .failed first, .bind_error comes⟩
    | some (.ok b, mid) =>
      rw [Program.history_bind_ok comes.outcome, List.forall_mem_append] at watched
      obtain ⟨outcome, moments, others, comes'⟩ :=
        ih (fun a' member => each a' (List.mem_cons_of_mem a member)) (later _ mid rfl)
          fun n member => watched.2 n (Program.mem_history_bind member)
      refine ⟨_, _, .next first others, comes.bind_ok ?_⟩
      rw [← map_eq_pure_bind]
      exact comes'.map (b :: ·)

theorem forall₂ {as : List α} {outcome : Option (Except Failure (List β) × World H)} {bs : List β}
    (course : InOrder step as w outcome moments) (ended : outcome = some (.ok bs, after)) :
    List.Forall₂ (fun a b => ∃ w mid now, step a w (some (.ok b, mid)) now) as bs := by
  induction course generalizing bs with
  | done w =>
    cases ended
    exact .nil
  | next first others ih =>
    obtain ⟨⟨r, last⟩, rfl, same⟩ := Option.map_eq_some_iff.mp ended
    cases r with
    | error failure => cases same
    | ok rest =>
      cases same
      exact .cons ⟨_, _, _, first⟩ (ih rfl)
  | failed first => cases ended
  | unfinished first => cases ended

end InOrder

structure World.Prepared (G : Holdings H) (parameter replacement : Value) (ctx : Context)
    (rows : List (List Value)) (w : World H) : Prop where
  closed : w.Closed G
  parameter : w.Made parameter
  replacement : w.Made replacement
  active : ∀ d ∈ ctx.stack.active, w.Made d.value
  known : ∀ row ∈ rows, ∀ item ∈ row, w.Made item

theorem World.Prepared.perform {rows : List (List Value)}
    (prepared : w.Prepared G parameter replacement ctx rows) (discreet : B.Discreet G)
    {m : Program H α} {good : Set Token → α → Prop} {r : Except Failure α}
    (ran : m.perform (respond B fuel) w = some (r, after))
    (confined : ∀ K, w.known ⊆ K → m.Confined G K (good K)) :
    after.Prepared G parameter replacement ctx rows := by
  have made := (Program.perform_keepsOwnAnswers ran).made
  exact
    { closed := prepared.closed.perform discreet ran confined
      parameter := made _ prepared.parameter
      replacement := made _ prepared.replacement
      active := fun d member => made _ (prepared.active d member)
      known := fun row member item inside => made _ (prepared.known row member item inside) }

theorem World.Prepared.enter (prepared : w.Prepared G parameter replacement ctx rows)
    {inner : Context} (enters : ctx.Enters inner) :
    w.Prepared G parameter replacement inner rows :=
  { prepared with
    active := enters.active ▸ prepared.active }

theorem unwrap_runsTo (B : Behaviour H) (fuel : Nat) (items : List Value) (room : ctx.stack.Room 1)
    (active : ∀ d ∈ ctx.stack.active, w.Made d.value) :
    ∃ after taking,
      ((w.create (.single Key.list ⟨items⟩ l)).1.answer Key.list ctx >>= fun list =>
        return list.items).RunsTo B (fuel + 1) (w.create (.single Key.list ⟨items⟩ l)).2
          (some (.ok items, after)) taking ∧
      (unwrap items l ctx).RunsTo B (fuel + 1) w (some (.ok items, after))
        ([⟨.access (.create (.single Key.list ⟨items⟩ l)), w⟩] ++ taking) := by
  have idle : ⟨(w.create (.single Key.list (⟨items⟩ : ListForm) l)).1, Key.list.id.index⟩ ∉
      ctx.stack.active := fun member =>
    World.unmade_new w (.single Key.list ⟨items⟩ l) (active _ member)
  obtain ⟨stack, admitted, -⟩ := ctx.stack.derive_roomy _ Key.list.id idle room
  have own : ((w.create (.single Key.list (⟨items⟩ : ListForm) l)).2.node
      (w.create (.single Key.list ⟨items⟩ l)).1).own? Key.list.id = some ⟨.list, ⟨items⟩⟩ := by
    rw [World.node_new]
    rfl
  have answered := answer_admitted (B := B) own (World.blank_new w _ _) admitted fuel
  have taken := Program.RunsTo.bind_pure (f := fun list : ListForm => pure list.items)
    ⟨answered, rfl⟩ rfl
  exact ⟨_, _, taken, (Program.RunsTo.create _ w).bind_ok taken⟩

def remade (form : α → Node H) :
    Option (Except Failure α × World H) → Option (Except Failure Value × World H)
  | some (.ok a, last) => some (.ok (last.create (form a)).1, (last.create (form a)).2)
  | some (.error failure, last) => some (.error failure, last)
  | none => none

def making (form : α → Node H) : Option (Except Failure α × World H) → List (Moment H)
  | some (.ok a, last) => [⟨.access (.create (form a)), last⟩]
  | some (.error _, _) => []
  | none => []

theorem Program.RunsTo.remake {m : Program H α} {outcome : Option (Except Failure α × World H)}
    (comes : m.RunsTo B fuel w outcome moments) (form : α → Node H) :
    (m >>= fun a => Program.create (form a)).RunsTo B fuel w (remade form outcome)
      (moments ++ making form outcome) :=
  match outcome with
  | none => (List.append_nil moments).symm ▸ .bind_none comes
  | some (.error _, _) => (List.append_nil moments).symm ▸ .bind_error comes
  | some (.ok a, last) => comes.bind_ok (.create (form a) last)

theorem expand_list_runsTo {outcome : Option (Except Failure (List Value) × World H)}
    (items : (row.mapM fun item : Value => item.expandOrSelf parameter replacement ctx).RunsTo B
      fuel w outcome moments) :
    (Program.expand (.list ⟨row⟩ l) parameter replacement ctx).RunsTo B (fuel + 1) w
      (remade (fun items => .single Key.list ⟨items⟩ l) outcome)
      (⟨.expand (.list ⟨row⟩ l) parameter replacement ctx, w⟩ ::
        (moments ++ making (fun items => .single Key.list ⟨items⟩ l) outcome)) := by
  refine .expand ?_
  have made := items.remake fun items => .single Key.list ⟨items⟩ l
  simpa only [Expander.apply, ListForm.expand, bind_assoc, pure_bind] using made

theorem expand_block_runsTo {outcome : Option (Except Failure (List (List Value)) × World H)}
    (rows : (b.statements.mapM (expandStatement parameter replacement ctx)).RunsTo B fuel w outcome
      moments) :
    (Program.expand (.block b l) parameter replacement ctx).RunsTo B (fuel + 1) w
      (remade (fun rows => .single Key.block ⟨rows⟩ l) outcome)
      (⟨.expand (.block b l) parameter replacement ctx, w⟩ ::
        (moments ++ making (fun rows => .single Key.block ⟨rows⟩ l) outcome)) := by
  refine .expand ?_
  have made := rows.remake fun rows => .single Key.block ⟨rows⟩ l
  simpa only [Expander.apply, Block.expand, bind_assoc, pure_bind] using made

theorem expand_items_course (B : Behaviour H) (fuel : Nat) (parameter replacement : Value)
    (ctx : Context) (row : List Value) (w : World H) :
    ∃ outcome moments,
      InOrder (ExpandsItem B fuel parameter replacement ctx) row w outcome moments ∧
      (row.mapM fun item : Value => item.expandOrSelf parameter replacement ctx).RunsTo B fuel w
        outcome moments := by
  have watched : ∀ n ∈ (row.mapM fun item : Value =>
      item.expandOrSelf parameter replacement ctx).run.history B fuel w, True := fun _ _ => trivial
  refine InOrder.course (fun _ => True) (fun item _ w _ _ => ?_) trivial watched
  obtain ⟨outcome, moments, course, comes⟩ :=
    ExpandsItem.course B fuel parameter replacement ctx item w
  exact ⟨outcome, moments, course, comes, fun _ _ _ => trivial⟩

theorem ExpandsStatement.course (discreet : B.Discreet G) (room : ctx.stack.Room 3)
    {rows : List (List Value)} (prepared : w.Prepared G parameter replacement ctx rows)
    (listed : row ∈ rows)
    (blockless : ∀ n ∈ (expandStatement parameter replacement ctx row).run.history B (fuel + 1) w,
      n.Blockless ctx.environment) :
    ∃ outcome moments, ExpandsStatement B fuel parameter replacement ctx row w outcome moments ∧
      (expandStatement parameter replacement ctx row).RunsTo B (fuel + 1) w outcome moments := by
  rw [expandStatement_eq] at blockless ⊢
  have opens := wrap_endsIfAllowed prepared.closed (prepared.known row listed)
    discreet rfl prepared.active
    fun n member => blockless n (Program.mem_history_bind member)
  have wrapped := Program.RunsTo.of B (fuel + 1) (wrap row ctx) w
  generalize (wrap row ctx).perform (respond B (fuel + 1)) w = outcome at wrapped
  match outcome with
  | none => exact ⟨_, _, .unopened wrapped, .bind_none wrapped⟩
  | some (.error failure, mid) => exact absurd room (opens _ mid wrapped.outcome)
  | some (.ok (f, inner), mid) =>
    obtain ⟨⟨⟨l, rfl⟩, -⟩, -⟩ := opens _ mid wrapped.outcome
    obtain ⟨outcome, now, items, comes⟩ :=
      expand_items_course B fuel parameter replacement inner row mid
    have expanded := expand_list_runsTo (l := l) comes
    match outcome with
    | none =>
      rw [making, List.append_nil] at expanded
      exact ⟨_, _, .unfinished wrapped items, wrapped.bind_ok (.bind_none expanded)⟩
    | some (.error failure, after) =>
      rw [making, List.append_nil] at expanded
      exact ⟨_, _, .failed wrapped items, wrapped.bind_ok (.bind_error expanded)⟩
    | some (.ok others, last) =>
      have active : ∀ d ∈ ctx.stack.active, last.Made d.value := fun d member =>
        (Program.perform_keepsOwnAnswers comes.outcome).made _
          ((Program.perform_keepsOwnAnswers wrapped.outcome).made _
            (prepared.active d member))
      obtain ⟨after, taking, taken, unwrapped⟩ := unwrap_runsTo B fuel others
        (l := l) (room.fewer (by decide)) active
      refine ⟨_, _, .expanded wrapped items unwrapped, wrapped.bind_ok ?_⟩
      have both := expanded.bind_ok
        (f := fun u => u.answer Key.list ctx >>= fun list : ListForm => pure list.items) taken
      rwa [making, List.cons_append, List.append_assoc] at both

theorem expand_statements_course (discreet : B.Discreet G) (room : ctx.stack.Room 3)
    {rows : List (List Value)} (prepared : w.Prepared G parameter replacement ctx rows)
    (blockless :
      ∀ n ∈ (rows.mapM (expandStatement parameter replacement ctx)).run.history B (fuel + 1) w,
      n.Blockless ctx.environment) :
    ∃ outcome moments,
      InOrder (ExpandsStatement B fuel parameter replacement ctx) rows w outcome moments ∧
      (rows.mapM (expandStatement parameter replacement ctx)).RunsTo B (fuel + 1) w outcome
        moments := by
  refine InOrder.course (fun w => w.Prepared G parameter replacement ctx rows)
    (fun row listed w prepared blockless => ?_) prepared blockless
  obtain ⟨outcome, moments, course, comes⟩ :=
    ExpandsStatement.course discreet room prepared listed blockless
  have confined : ∀ K, w.known ⊆ K →
      (expandStatement parameter replacement ctx row).Confined G K fun others =>
        ∀ item ∈ others, .value item ∈ K := by
    intro K reached
    have held : ∀ {v}, w.Made v → .value v ∈ K := fun made => reached (World.value_known.mpr made)
    exact expandStatement_confined (World.equipped_known reached _) (held prepared.parameter)
      (held prepared.replacement) fun item inside => held (prepared.known row listed item inside)
  exact ⟨outcome, moments, course, comes, fun r after ended =>
    prepared.perform discreet (comes.outcome.trans ended) confined⟩

/-- Where there is no room to open the list that is made for a statement, the first is as far as the
    expansion gets. -/
theorem expand_statements_cramped (discreet : B.Discreet G) (cramped : ¬ ctx.stack.Room 3)
    (prepared : w.Prepared G parameter replacement ctx rows)
    (blockless :
      ∀ n ∈ (rows.mapM (expandStatement parameter replacement ctx)).run.history B (fuel + 1) w,
      n.Blockless ctx.environment) :
    (∃ outcome moments,
      InOrder (ExpandsStatement B fuel parameter replacement ctx) rows w outcome moments ∧
      (rows.mapM (expandStatement parameter replacement ctx)).RunsTo B (fuel + 1) w outcome
        moments) ∨
    ∃ row rest failure after moments, rows = row :: rest ∧
      (wrap row ctx).RunsTo B (fuel + 1) w (some (.error failure, after)) moments ∧
      (rows.mapM (expandStatement parameter replacement ctx)).RunsTo B (fuel + 1) w
        (some (.error failure, after)) moments := by
  cases rows with
  | nil => exact .inl ⟨_, _, .done w, .done [] w⟩
  | cons row rest =>
    rw [List.mapM_cons, expandStatement_eq] at blockless
    have opens := wrap_endsIfAllowed prepared.closed
      (prepared.known row (List.mem_cons_self ..)) discreet rfl prepared.active
      fun n member => blockless n (Program.mem_history_bind (Program.mem_history_bind member))
    have wrapped := Program.RunsTo.of B (fuel + 1) (wrap row ctx) w
    rw [List.mapM_cons, expandStatement_eq]
    generalize (wrap row ctx).perform (respond B (fuel + 1)) w = outcome at wrapped
    match outcome with
    | none =>
      exact .inl ⟨_, _, .unfinished (.unopened wrapped), .bind_none (.bind_none wrapped)⟩
    | some (.error failure, after) =>
      exact .inr ⟨row, rest, failure, after, _, rfl, wrapped, .bind_error (.bind_error wrapped)⟩
    | some (.ok q, after) => exact absurd (opens _ after wrapped.outcome).2 cramped

end TraitDispatch
