import TraitDispatch.Proofs.Conduct
import TraitDispatch.Proofs.Session

/- The room that programs take in which nothing is applied to anything. To evaluate a value an entry
   is made, and then it is asked for its evaluator, which takes two more unless the answer is known.
   An item is asked before the entry is made, so that its evaluator is known by then. A statement is
   evaluated as a list that is made for it, and about which nothing is known. -/
namespace TraitDispatch
variable {H : Host} {α β : Type} {B : Behaviour H} {e : EnvironmentId} {w mid after : World H}
  {v : Value} {t : Term} {k : Kind} {entries : Nat}

namespace Term

mutual

/-- How many entries are made around a name or a quote at most. -/
def cost : Term → Nat
  | .list items _ => costAll items + 1
  | .block statements _ => costRows statements + 2
  | _ => 0

def costAll : List Term → Nat
  | [] => 0
  | t :: rest => max t.cost (costAll rest)

def costRows : List (List Term) → Nat
  | [] => 0
  | row :: rest => max (costAll row) (costRows rest)

end

theorem cost_le_all {ts : List Term} (member : t ∈ ts) : t.cost ≤ costAll ts := by
  induction ts with
  | nil => cases member
  | cons u rest ih =>
    rw [costAll]
    rcases List.mem_cons.mp member with here | there
    · subst u
      exact Nat.le_max_left _ _
    · have below := ih there
      omega

def isDirect : List Term → Bool
  | [] | [_] => true
  | [.name _ _, .name mark _, _] => mark = assignmentMark
  | _ => false

mutual

def callFree : Term → Bool
  | .list items _ => isDirect items && callFreeAll items
  | .block statements _ => callFreeRows statements
  | _ => true

def callFreeAll : List Term → Bool
  | [] => true
  | t :: rest => t.callFree && callFreeAll rest

def callFreeRows : List (List Term) → Bool
  | [] => true
  | row :: rest => isDirect row && callFreeAll row && callFreeRows rest

end

theorem callFreeAll_iff {ts : List Term} : callFreeAll ts ↔ ∀ t ∈ ts, t.callFree := by
  induction ts with
  | nil => simp [callFreeAll]
  | cons t rest ih => simp [callFreeAll, ih]

theorem callFreeRows_iff {rows : List (List Term)} :
    callFreeRows rows ↔ ∀ row ∈ rows, isDirect row ∧ callFreeAll row := by
  induction rows with
  | nil => simp [callFreeRows]
  | cons row rest ih => simp [callFreeRows, ih]

theorem splitMark_direct {ts : List Term} (direct : isDirect ts) :
    splitMark ts = none ∧ ts.length ≤ 1 ∨
      ∃ left right, splitMark ts = some (left, right) ∧
        (left = [] ∨ right = [] ∨ ∃ n l t, left = [.name n l] ∧ right = [t]) := by
  match ts, direct with
  | [], _ => exact .inl ⟨rfl, Nat.zero_le 1⟩
  | [t], _ =>
    by_cases mark : t.name? = some ⟨":"⟩
    · exact .inr ⟨[], [], by rw [splitMark, if_pos mark], .inl rfl⟩
    · refine .inl ⟨?_, Nat.le_refl 1⟩
      rw [splitMark, if_neg mark]
      rfl
  | [.name n l, .name mark m, t], direct =>
    obtain rfl : mark = assignmentMark := of_decide_eq_true direct
    by_cases mark : n = assignmentMark
    · subst mark
      exact .inr ⟨[], _, rfl, .inl rfl⟩
    · refine .inr ⟨[.name n l], [t], ?_, .inr (.inr ⟨n, l, t, rfl, rfl⟩)⟩
      have other : ¬ (Term.name n l).name? = some ⟨":"⟩ := fun same => mark (Option.some.inj same)
      rw [splitMark, if_neg other]
      rfl

end Term

structure Context.Allows (e : EnvironmentId) (entries : Nat) (ctx : Context) : Prop where
  environment : ctx.environment = e
  idle : ctx.stack.active = []
  room : ctx.stack.Room entries

namespace Context.Allows
variable {ctx inner : Context}

theorem fewer {less : Nat} (allows : ctx.Allows e entries) (le : less ≤ entries) :
    ctx.Allows e less :=
  ⟨allows.environment, allows.idle, allows.room.fewer le⟩

theorem calm (allows : ctx.Allows e entries) : ctx.stack.Calm := by
  intro p member
  rw [allows.idle] at member
  cases member

theorem standard (allows : ctx.Allows e entries) (housed : w.Houses e) :
    w.Standard ctx.environment := by
  rw [allows.environment]
  exact housed.standard

theorem enter (allows : ctx.Allows e (entries + 1)) (same : inner.environment = ctx.environment)
    (below : ctx.stack.Below inner.stack) (active : inner.stack.active = ctx.stack.active) :
    inner.Allows e entries :=
  ⟨same.trans allows.environment, active.trans allows.idle, below.room_iff.mpr allows.room⟩

end Context.Allows

/-- What becomes of a program for which there is room: it goes well, or fails for another reason. -/
inductive Fitting (e : EnvironmentId) (w : World H) (good : α → World H → Prop) :
    Except Failure α → World H → Prop where
  | ended {a : α} {after : World H} (moves : w.KeepsBearings e after) (housed : after.Houses e)
      (holds : good a after) : Fitting e w good (.ok a) after
  | failed {failure : Failure} {after : World H} (other : ¬ failure.Spent) :
      Fitting e w good (.error failure) after

namespace Program
variable {m : Program H α} {good : α → World H → Prop}

def EndsFitting (B : Behaviour H) (e : EnvironmentId) (m : Program H α) (w : World H)
    (good : α → World H → Prop) : Prop :=
  ∀ r after, m.Ends B w r after → Fitting e w good r after

abbrev EndsHolding (B : Behaviour H) (e : EnvironmentId) (m : Program H Value)
    (w : World H) : Prop :=
  m.EndsFitting B e w fun v after => after.Holds v

namespace EndsFitting

theorem of_endsIf (runs : ∀ fuel, m.EndsIf B fuel False w (Fitting e w good)) :
    m.EndsFitting B e w good := by
  rintro r after ⟨fuel, ran⟩
  exact (runs fuel).finds r after ran

theorem done {a : α} (housed : w.Houses e) (holds : good a w) :
    (pure a : Program H α).EndsFitting B e w good :=
  .of_endsIf fun _ => .done (.ended (.same e w) housed holds)

theorem fail {cause : Cause} {s : CallStack} (other : ∀ limit, cause ≠ .depthLimit limit) :
    (Program.fail cause s : Program H α).EndsFitting B e w good :=
  .of_endsIf fun _ => .failed (.failed fun ⟨limit, same⟩ => other limit same)

theorem bind {f : α → Program H β} {next : β → World H → Prop} (first : m.EndsFitting B e w good)
    (rest : ∀ a mid, w.KeepsBearings e mid → mid.Houses e → good a mid →
      (f a).EndsFitting B e mid next) :
    (m >>= f).EndsFitting B e w next := by
  intro r after ends
  rcases ends.through with ⟨failure, rfl, failed⟩ | ⟨a, mid, begun, goes_on⟩
  · cases first _ _ failed with
    | failed other => exact .failed other
  · cases first _ _ begun with
    | ended moves housed holds =>
      cases rest a mid moves housed holds r after goes_on with
      | ended moves' housed' holds' => exact .ended (moves.trans moves') housed' holds'
      | failed other => exact .failed other

theorem evaluate {f : Evaluator H.Code} {ctx : Context} {good : Value → World H → Prop}
    (applied : (f.apply B ctx).EndsFitting B e w good) :
    (Program.evaluate f ctx).EndsFitting B e w good :=
  fun r after ends => applied r after (ends_evaluate_iff.mp ends)

theorem assign {f : Assigner H.Code} {value : Value} {ctx : Context} {good : Unit → World H → Prop}
    (applied : (f.apply B value ctx).EndsFitting B e w good) :
    (Program.assign f value ctx).EndsFitting B e w good := by
  rintro r after ⟨fuel, ran⟩
  have responded : respond B fuel (.assign f value ctx) w = some (r, after) :=
    (Act.run_request _ _ _).symm.trans ran
  cases fuel with
  | zero => cases responded
  | succ less => exact applied r after ⟨less, responded⟩

theorem access {a : Access H} {good : a.Answer → World H → Prop}
    (moves : w.KeepsBearings e (a.perform w).2) (housed : (a.perform w).2.Houses e)
    (holds : good (a.perform w).1 (a.perform w).2) : (Program.access a).EndsFitting B e w good := by
  refine .of_endsIf fun fuel => (EndsIf.access a).weaken id fun r after found => ?_
  obtain ⟨rfl, rfl⟩ := found
  exact .ended moves housed holds

theorem create {node : Node H} {parts : List (Value × Term)} (housed : w.Houses e)
    (known : t.known) (layer : Term.Layer node t parts)
    (each : ∀ p ∈ parts, w.Bears True p.1 p.2) :
    (Program.create node).EndsFitting B e w fun v after => after.node v = node ∧
      after.Bears True v t := by
  have moves := w.keepsBearings_create (e := e) node
  exact .access moves (moves.houses rfl housed) ⟨w.node_new node, .create known layer each⟩

theorem location (housed : w.Houses e) (v : Value) :
    (v.location : Program H _).EndsFitting B e w fun l after =>
      l = (w.node v).location ∧ after = w := by
  have inspected : (Program.access (.inspect v)).EndsFitting B e w fun n after =>
      n = w.node v ∧ after = w := .access (.same e w) housed ⟨rfl, rfl⟩
  refine inspected.bind fun n mid _ housed' found => ?_
  obtain ⟨rfl, rfl⟩ := found
  exact .done housed' ⟨rfl, rfl⟩

end EndsFitting
end Program

theorem World.Bears.layered (bears : w.Bears True v t) :
    ∃ parts, Term.Layer (w.node v) t parts ∧ ∀ p ∈ parts, w.Bears True p.1 p.2 := by
  cases bears with
  | intro _ _ _ layer each => exact ⟨_, layer, each⟩

def World.Knows (w : World H) (v : Value) : Prop := w.derived v Key.evaluate.id ≠ none

theorem World.Knows.remembered (knows : w.Knows v) : w.remembered v Key.evaluate.id ≠ none := by
  rw [Knows, derived] at knows
  split at knows
  · exact absurd rfl knows
  · exact knows

theorem Term.Layer.evaluator_derived {n : Node H} {parts : List (Value × Term)}
    (layer : Term.Layer n t parts) : n.find? Key.evaluate.id = none := by
  cases layer <;> rfl

section Asking
variable {ctx : Context}

theorem answer?_endsFitting {key : Key k} (bears : w.Bears True v t) (housed : w.Houses e)
    (allows : ctx.Allows e 0) (regular : key.Regular)
    (room : ctx.stack.Room 2 ∨ (w.node v).Simple key.id ∧ ctx.stack.Room 1 ∨
      w.remembered v key.id ≠ none) :
    (v.answer? key ctx).EndsFitting B e w fun a after =>
      a = (w.node v).answer? key ∧ w.Consults v key.id after := by
  refine .of_endsIf fun fuel => ?_
  have resolved : (Program.resolve v key.id ctx).EndsIf B fuel False w _ :=
    regular_endsIf bears (allows.standard housed) regular.id allows.calm False.elim
  refine (asked_answer? bears regular resolved).weaken id fun r after asked => ?_
  cases asked with
  | answered consults _ =>
    have learns := consults.learns True
    exact .ended (learns.keepsBearings e)
      ((learns.keepsBearings e).houses (learns.environment e) housed)
      ⟨rfl, consults⟩
  | exhausted _ _ unknown cramped simple =>
    rcases room with two | ⟨own, one⟩ | known
    · exact absurd two cramped
    · exact absurd one (simple own)
    · exact absurd unknown known

theorem answer_endsFitting {key : Key k} (bears : w.Bears True v t) (housed : w.Houses e)
    (allows : ctx.Allows e 0) (regular : key.Regular)
    (room : ctx.stack.Room 2 ∨ w.remembered v key.id ≠ none) :
    (v.answer key ctx).EndsFitting B e w fun a _ => (w.node v).answer? key = some a := by
  refine (answer?_endsFitting bears housed allows regular (room.imp id .inr)).bind
    fun a mid _ housed' found => ?_
  obtain ⟨found, -⟩ := found
  cases a with
  | some x => exact .done housed' found.symm
  | none => exact .fail nofun

theorem evaluateOrSelf_endsFitting (bears : w.Bears True v t) (housed : w.Houses e)
    (allows : ctx.Allows e 2)
    (evaluates : ∀ mid, w.KeepsBearings e mid → mid.Houses e → mid.Knows v →
      (v.evaluate ctx).EndsHolding B e mid) : (v.evaluateOrSelf ctx).EndsHolding B e w := by
  have asked : (v.answer? Key.evaluate ctx).EndsFitting B e w _ := answer?_endsFitting bears housed
    (allows.fewer (Nat.zero_le 2)) ⟨rfl, by decide⟩ (.inl allows.room)
  have answered : (v.answers Key.evaluate ctx).EndsFitting B e w fun a mid => a → mid.Knows v := by
    refine asked.bind fun a mid _ housed' found => .done housed' fun able => ?_
    obtain ⟨rfl, consults⟩ := found
    obtain ⟨parts, layer, -⟩ := bears.layered
    rw [World.Knows, consults.derived v Key.evaluate.id (by decide),
      if_pos ⟨rfl, rfl, layer.evaluator_derived⟩]
    intro none
    rw [Node.answer?, none] at able
    cases able
  refine answered.bind fun a mid moves housed' knows => ?_
  cases a with
  | true => exact evaluates mid moves housed' (knows rfl)
  | false => exact .done housed' (moves.holds ⟨t, bears⟩)

theorem enter_endsFitting {label : Act H String} (housed : w.Houses e)
    (allows : ctx.Allows e (entries + 1))
    (labelled : ∀ fuel, label.EndsIf B fuel False w fun _ after => w.LearnsRenderings True after)
    (l : Option Location) :
    (ctx.enter label l).EndsFitting B e w fun inner after =>
      inner.Allows e entries ∧ ctx.stack.Below inner.stack ∧ w.KeepsControl e after := by
  refine .of_endsIf fun fuel => ?_
  have entered := enter_endsIf (e := e) l (allows.room.fewer (by omega)) (labelled fuel)
  refine entered.weaken id fun r after found => ?_
  obtain ⟨inner, rfl, ⟨same, below, active⟩, idles⟩ := found
  exact .ended idles.toKeepsBearings (idles.houses housed)
    ⟨allows.enter same below active, below, idles⟩

theorem evaluate_enters (bears : w.Bears True v t) (housed : w.Houses e)
    (allows : ctx.Allows e (entries + 1)) (ready : ctx.stack.Room 3 ∨ w.Knows v)
    (rest : ∀ f inner mid, w.KeepsBearings e mid → mid.Houses e → inner.Allows e entries →
      (w.node v).answer? Key.evaluate = some f →
      (f.apply B inner).EndsHolding B e mid) : (v.evaluate ctx).EndsHolding B e w := by
  refine (Program.EndsFitting.location housed v).bind fun l start _ _ found => ?_
  obtain ⟨-, rfl⟩ := found
  have shown : ∀ fuel, (do return s!"evaluating {← v.format ctx}" : Act H String).EndsIf B fuel
      False start fun _ after => start.LearnsRenderings True after := fun fuel =>
    ((format_learnsRenderings fuel bears (allows.standard housed) allows.calm).fewer
      False.elim).bind fun _ _ recollects => .done recollects
  refine (enter_endsFitting housed allows shown l).bind fun inner mid moves housed' found => ?_
  obtain ⟨inside, below, idles⟩ := found
  have room : inner.stack.Room 2 ∨ mid.remembered v Key.evaluate.id ≠ none := by
    refine ready.imp below.room_iff.mpr fun knows => World.Knows.remembered ?_
    rw [World.Knows, idles.derived v _ (by decide)]
    exact knows
  refine (answer_endsFitting (moves.bears v t bears) housed' (inside.fewer (Nat.zero_le _))
    ⟨rfl, by decide⟩ room).bind fun f last moves' housed'' found => ?_
  rw [idles.still] at found
  exact .evaluate (rest f inner last (moves.trans moves') housed'' inside found)

end Asking

def Context.Affords (B : Behaviour H) (e : EnvironmentId) (ctx : Context) (w : World H)
    (v : Value) : Prop :=
  ∀ mid, w.KeepsBearings e mid → mid.Houses e → (v.evaluateOrSelf ctx).EndsHolding B e mid

section Forms
variable {ctx : Context}

theorem createEmpty_endsFitting (housed : w.Houses e) :
    (Program.createEmpty : Program H Value).EndsHolding B e w :=
  (Program.EndsFitting.create housed rfl (.empty none) nofun).bind fun _ _ _ housed' made =>
    .done housed' ⟨_, made.2⟩

theorem name_endsFitting (housed : w.Houses e) (allows : ctx.Allows e 1) (n : Name) :
    (n.evaluate ctx : Program H Value).EndsHolding B e w := by
  refine (enter_endsFitting housed allows (fun _ => .done (.same w)) none).bind
    fun inner mid _ housed' _ => ?_
  have looked : (Program.access (.environment ctx.environment)).EndsFitting B e mid
      fun found after => found = mid.environment e ∧ after = mid :=
    .access (.same e mid) housed' ⟨congrArg mid.environment allows.environment, rfl⟩
  refine looked.bind fun found last _ housed'' same => ?_
  obtain ⟨rfl, rfl⟩ := same
  cases bound : (last.environment e).lookup n.name with
  | some value => exact .done housed'' (housed''.bound _ _ bound)
  | none => exact .fail nofun

theorem split_endsFitting {R : Value → Term → Prop} {items passed : List Value}
    {ts before : List Term} (bears : ∀ x t, R x t → w.Bears True x t)
    (each : List.Forall₂ R items ts)
    (earlier : List.Forall₂ R passed before) (housed : w.Houses e) (allows : ctx.Allows e 1) :
    (splitAssignment passed items ctx).EndsFitting B e w fun found _ =>
      Option.Rel (fun p q => List.Forall₂ R p.1 q.1 ∧ List.Forall₂ R p.2 q.2) found
        ((Term.splitMark ts).map fun sides => (before.reverse ++ sides.1, sides.2)) := by
  induction items generalizing w ts passed before with
  | nil =>
    cases each
    exact .done housed .none
  | cons item items ih =>
    obtain ⟨t, ts, here, there, rfl⟩ := List.forall₂_cons_left_iff.mp each
    have simple : (w.node item).Simple Key.name.id := .inr rfl
    refine (answer?_endsFitting (bears item t here) housed (allows.fewer (Nat.zero_le 1))
      ⟨rfl, by decide⟩ (.inr (.inl ⟨simple, allows.room⟩))).bind
      fun name mid moves housed' found => ?_
    obtain ⟨same, -⟩ := found
    obtain ⟨parts, layer, -⟩ := (bears item t here).layered
    rw [name_of_layer layer] at same
    subst same
    rw [Term.splitMark, ← assignmentMark]
    by_cases mark : t.name? = some assignmentMark
    · rw [if_pos mark, if_pos mark]
      refine .done housed' (.some ⟨?_, there⟩)
      simpa only [List.append_nil] using List.rel_reverse earlier
    · rw [if_neg mark, if_neg mark, Option.map_map]
      have later := ih (fun x u held => moves.bears x u (bears x u held)) there
        (.cons here earlier) housed'
      simpa only [Function.comp_def, List.reverse_cons, List.append_assoc,
        List.singleton_append] using later

theorem assign_endsFitting {f : Assigner H.Code} (builtIn : f.BuiltIn) (holds : w.Holds v)
    (housed : w.Houses e) (same : ctx.environment = e) :
    (Program.assign f v ctx).EndsFitting B e w fun _ _ => True := by
  cases builtIn with
  | name n =>
    refine .assign ?_
    change (Program.access (.define ctx.environment n.name v)).EndsFitting B e w _
    rw [same]
    exact .access (World.keepsBearings_change w _ housed.made)
      (World.houses_define housed holds n.name)
      trivial

theorem assignment_endsFitting {x y : Value} {n : Name} {l : Option Location}
    (named : w.Bears True x (.name n l)) (affords : ctx.Affords B e w y) (housed : w.Houses e)
    (allows : ctx.Allows e 2) :
    (evaluateAssignment [x] [y] ctx : Program H Value).EndsHolding B e w := by
  refine (affords w (.same e w) housed).bind fun value mid moves housed' holds => ?_
  have named' := moves.bears _ _ named
  refine (answer_endsFitting named' housed' (allows.fewer (Nat.zero_le 2)) (⟨rfl, by decide⟩ :
    Key.assign.Regular) (.inl allows.room)).bind fun f last moves' housed'' found => ?_
  obtain ⟨parts, layer, -⟩ := named'.layered
  refine (assign_endsFitting (layer.assigner_over found) (moves'.holds holds) housed''
    allows.environment).bind fun _ _ _ defined _ => ?_
  exact createEmpty_endsFitting defined

theorem list_endsFitting {items : List Value} {ts : List Term} (direct : Term.isDirect ts)
    (each : List.Forall₂ (fun x t => w.Bears True x t ∧ ctx.Affords B e w x) items ts)
    (housed : w.Houses e) (allows : ctx.Allows e 2) :
    ((⟨items⟩ : ListForm).evaluate ctx : Program H Value).EndsHolding B e w := by
  refine (split_endsFitting (fun x t held => held.1) each .nil housed
    (allows.fewer (by omega))).bind fun found mid moves housed' sides => ?_
  rcases Term.splitMark_direct direct with ⟨unmarked, short⟩ | ⟨left, right, marked, shape⟩
  · rw [unmarked] at sides
    cases sides
    cases each with
    | nil => exact createEmpty_endsFitting housed'
    | cons here there =>
      cases there with
      | nil =>
        exact (here.2 mid moves housed').bind fun u last _ housed'' holds => .done housed'' holds
      | cons _ _ => simp at short
  · rw [marked] at sides
    cases sides with
    | @some p _ both =>
      obtain ⟨xs, ys⟩ := p
      obtain ⟨targets, sources⟩ := both
      dsimp only [List.reverse_nil, List.nil_append] at targets sources
      rcases shape with rfl | rfl | ⟨n, l, t, rfl, rfl⟩
      · cases targets
        exact .fail nofun
      · cases sources
        simp only [evaluateAssignment, List.isEmpty_nil, Bool.or_true, if_true]
        exact .fail nofun
      · obtain ⟨x, _, target, alone, rfl⟩ := List.forall₂_cons_right_iff.mp targets
        obtain ⟨y, _, source, alone', rfl⟩ := List.forall₂_cons_right_iff.mp sources
        cases alone
        cases alone'
        refine assignment_endsFitting (moves.bears _ _ target.1) (fun last later => ?_)
          housed' allows
        exact source.2 last (moves.trans later)

end Forms

namespace World

def Affordable (B : Behaviour H) (e : EnvironmentId) (w : World H) (v : Value) (t : Term) : Prop :=
  ∀ mid ctx, w.KeepsBearings e mid → mid.Houses e → ctx.Allows e (t.cost + 2) →
    ctx.stack.Room 3 ∨ mid.Knows v → (v.evaluate ctx).EndsHolding B e mid

structure Budgeted (B : Behaviour H) (e : EnvironmentId) (w : World H) (v : Value) (t : Term) :
    Prop where
  bears : w.Bears True v t
  affordable : t.callFree → w.Affordable B e v t

theorem Budgeted.grown (budgeted : w.Budgeted B e v t) (moves : w.KeepsBearings e mid) :
    mid.Budgeted B e v t :=
  ⟨moves.bears v t budgeted.bears, fun free last ctx later =>
    budgeted.affordable free last ctx (moves.trans later)⟩

theorem budgeted_rows {rows : List (List Value)} {tss : List (List Term)}
    (each : List.Forall₂ (List.Forall₂ (w.Budgeted B e)) rows tss) (moves : w.KeepsBearings e mid) :
    List.Forall₂ (List.Forall₂ (mid.Budgeted B e)) rows tss :=
  each.imp fun _ _ row => row.imp fun _ _ budgeted => budgeted.grown moves

end World

section Terms
variable {ctx : Context}

theorem budgeted_affords (budgeted : w.Budgeted B e v t) (free : t.callFree)
    (allows : ctx.Allows e (t.cost + 2)) : ctx.Affords B e w v := by
  intro mid moves housed
  refine evaluateOrSelf_endsFitting (moves.bears v t budgeted.bears) housed
    (allows.fewer (by omega)) fun last later housed' knows => ?_
  exact budgeted.affordable free last ctx (moves.trans later) housed' allows (.inr knows)

theorem items_afford {items : List Value} {ts : List Term}
    (each : List.Forall₂ (w.Budgeted B e) items ts) (free : Term.callFreeAll ts)
    (allows : ctx.Allows e (Term.costAll ts + 2)) :
    List.Forall₂ (fun x t => w.Bears True x t ∧ ctx.Affords B e w x) items ts := by
  obtain ⟨even, budgeted⟩ := forall₂_iff_pairs.mp each
  refine forall₂_iff_pairs.mpr ⟨even, fun p member => ⟨(budgeted p member).bears, ?_⟩⟩
  have among : p.2 ∈ ts := (List.of_mem_zip member).2
  have cheaper := Term.cost_le_all among
  exact budgeted_affords (budgeted p member) (Term.callFreeAll_iff.mp free p.2 among)
    (allows.fewer (by omega))

theorem createList_endsFitting {items : List Value} {ts : List Term}
    (each : List.Forall₂ (w.Bears True) items ts) (housed : w.Houses e) :
    (createList items : Program H Value).EndsFitting B e w fun u after => ∃ l,
      after.node u = .single Key.list ⟨items⟩ l ∧ after.Bears True u (.list ts l) := by
  have known : Term.knownAll ts :=
    Term.knownAll_iff.mpr (left_of_forall₂ (each.flip.imp fun t x here => here.known))
  obtain ⟨even, holds⟩ := forall₂_iff_pairs.mp each
  have made : ∀ l, (Program.create (.single Key.list ⟨items⟩ l)).EndsFitting B e w fun u after =>
      ∃ l, after.node u = .single Key.list ⟨items⟩ l ∧ after.Bears True u (.list ts l) := fun l =>
    (Program.EndsFitting.create (t := .list ts l) housed known (.list l even) holds).bind
      fun _ _ _ housed' made => .done housed' ⟨l, made⟩
  cases items with
  | nil => exact made none
  | cons first rest =>
    refine (Program.EndsFitting.location housed first).bind fun l mid _ _ found => ?_
    obtain ⟨-, rfl⟩ := found
    exact made l

theorem statement_endsFitting {row : List Value} {ts : List Term} (direct : Term.isDirect ts)
    (free : Term.callFreeAll ts) (each : List.Forall₂ (w.Budgeted B e) row ts) (housed : w.Houses e)
    (allows : ctx.Allows e (Term.costAll ts + 3)) :
    (createList row >>= fun line => line.evaluate ctx : Program H Value).EndsHolding B e w := by
  refine (createList_endsFitting (each.imp fun _ _ budgeted => budgeted.bears) housed).bind
    fun line mid moves housed' made => ?_
  obtain ⟨l, node, bears⟩ := made
  refine evaluate_enters bears housed' allows (.inl (allows.room.fewer (by omega)))
    fun f inner last moves' housed'' inside found => ?_
  rw [node] at found
  cases found
  have grown := each.imp fun x t budgeted => budgeted.grown (moves.trans moves')
  exact list_endsFitting direct (items_afford grown free inside) housed'' (inside.fewer (by omega))

theorem statements_fit {result : Value} {rows : List (List Value)} {tss : List (List Term)}
    (free : ∀ ts ∈ tss, Term.isDirect ts ∧ Term.callFreeAll ts)
    (each : List.Forall₂ (List.Forall₂ (w.Budgeted B e)) rows tss) (holds : w.Holds result)
    (housed : w.Houses e) (allows : ctx.Allows e (Term.costRows tss + 3)) :
    (evaluateStatements result rows ctx).EndsHolding B e w := by
  induction rows generalizing w result tss with
  | nil => exact .done housed holds
  | cons row rows ih =>
    obtain ⟨ts, tss, here, there, rfl⟩ := List.forall₂_cons_left_iff.mp each
    obtain ⟨⟨direct, within⟩, later⟩ := List.forall_mem_cons.mp free
    have first := statement_endsFitting direct within here housed
      (allows.fewer (Nat.add_le_add_right (Nat.le_max_left _ _) 3))
    rw [evaluateStatements, ← bind_assoc]
    refine first.bind fun next mid moves housed' holds' => ?_
    exact ih later (World.budgeted_rows there moves) holds' housed'
      (allows.fewer (Nat.add_le_add_right (Nat.le_max_right _ _) 3))

theorem apply_endsFitting {n : Node H} {parts : List (Value × Term)} (layer : Term.Layer n t parts)
    (free : t.callFree) (each : ∀ p ∈ parts, w.Budgeted B e p.1 p.2) (housed : w.Houses e)
    (allows : ctx.Allows e (t.cost + 1)) {f : Evaluator H.Code}
    (found : n.answer? Key.evaluate = some f) :
    (f.apply B ctx).EndsHolding B e w := by
  cases layer with
  | name n l =>
    cases found
    exact name_endsFitting housed allows n
  | @list items ts l even =>
    cases found
    obtain ⟨direct, within⟩ := Bool.and_eq_true_iff.mp free
    exact list_endsFitting direct (items_afford (forall₂_iff_pairs.mpr ⟨even, each⟩) within allows)
      housed (allows.fewer (by simp only [Term.cost]; omega))
  | @block statements tss l even =>
    cases found
    have rows := forall₂_iff_rows.mpr ⟨even, each⟩
    refine (createEmpty_endsFitting housed).bind fun empty mid moves housed' holds => ?_
    exact statements_fit (Term.callFreeRows_iff.mp free) (World.budgeted_rows rows moves) holds
      housed' allows
  | quoted inner t l =>
    cases found
    exact .done housed ⟨t, (each (inner, t) (List.mem_singleton_self _)).bears⟩
  | _ => cases found

/-- By induction on what the value is made of. -/
theorem bears_affordable (bears : w.Bears True v t) (free : t.callFree) :
    w.Affordable B e v t := by
  induction bears with
  | @intro v t parts known settled recites layer each ih =>
    intro mid ctx moves housed allows ready
    have here := moves.bears v t (.intro known settled recites layer each)
    refine evaluate_enters here housed allows ready
      fun f inner last moves' housed' inside found => ?_
    rw [moves.node v settled.made] at found
    have parted : ∀ p ∈ parts, last.Budgeted B e p.1 p.2 := fun p member =>
      World.Budgeted.grown ⟨each p member, ih p member⟩ (moves.trans moves')
    exact apply_endsFitting layer free parted housed' inside found

end Terms

namespace Session
variable {hand : List Value} {served : List Interpreter}

/-- Where nothing is applied to anything, the cost of a program and two entries more are room enough
    to run it, if there are three: whatever has been called for before, the run ends, and not for
    want of room. -/
theorem budget_suffices (session : Session B w hand served) {i : Interpreter} (member : i ∈ served)
    {limit : Nat} (limited : i.config.limit = some limit) (held : v ∈ hand) (known : t.known)
    (spells : w.Spells False v t) (free : t.callFree) (three : 3 ≤ limit)
    (room : t.cost + 2 ≤ limit) :
    ∃ r after, (i.run v).Ends B w r after ∧ ∀ failure, r = .error failure → ¬ failure.Spent := by
  have safe := session.safe
  have housed := safe.housed i member
  obtain ⟨idle, nesting, same⟩ := i.context_stack
  have roomy : ∀ {entries}, entries ≤ limit → i.context.stack.Room entries := by
    intro entries le bound chosen
    rw [same, limited] at chosen
    cases chosen
    omega
  have allows : i.context.Allows i.environment (t.cost + 2) := ⟨rfl, idle, roomy room⟩
  have bears := (safe.held v held).bears known spells
  have fits := bears_affordable (B := B) bears free w i.context (.same _ w) housed allows
    (.inl (roomy three))
  obtain ⟨r, after, ends⟩ : ∃ r after, (i.run v).Ends B w r after := by
    have runs : (i.answer (.run v)).EndsIf B (limit + 1) _ w _ :=
      answer_endsIf housed fun u within =>
      List.mem_singleton.mp within ▸ safe.held v held
    obtain ⟨_, after, ends, -⟩ := runs.ends_with (Interpreter.brief limited)
    rcases ends.through with ⟨failure, -, failed⟩ | ⟨u, mid, returned, -⟩
    · exact ⟨_, _, failed⟩
    · exact ⟨_, _, returned⟩
  refine ⟨r, after, ends, fun failure failed => ?_⟩
  subst failed
  cases fits _ after ends with
  | failed other => exact other

def budgetedWorld : World Host.unit :=
  { World.initial () with
    cells := #[⟨.single Key.name ⟨"x"⟩ none, []⟩, ⟨.single Key.name ⟨":"⟩ none, []⟩,
      ⟨.single Key.name ⟨"y"⟩ none, []⟩, ⟨.single Key.quoted ⟨⟨2⟩⟩ none, []⟩,
      ⟨.single Key.list ⟨[⟨3⟩]⟩ none, []⟩, ⟨.single Key.list ⟨[⟨4⟩]⟩ none, []⟩,
      ⟨.single Key.block ⟨[[⟨0⟩, ⟨1⟩, ⟨5⟩], [⟨0⟩]]⟩ none, []⟩] }

def budgetedTerm : Term :=
  .block [[.name ⟨"x"⟩ none, .name ⟨":"⟩ none,
    .list [.list [.quoted (.name ⟨"y"⟩ none) none] none] none], [.name ⟨"x"⟩ none]] none

theorem budgetedWorld_spells : budgetedWorld.Spells True ⟨6⟩ budgetedTerm :=
  .of_read 5 rfl

theorem assignment_in_budget :
    ∃ (w : World Host.unit) (i : Interpreter), Session inert w [⟨6⟩] [i] ∧
      i.config.limit = some 6 ∧ w.Spells False ⟨6⟩ budgetedTerm ∧ budgetedTerm.callFree ∧
      budgetedTerm.cost + 2 = 6 ∧
      ∃ r after, (i.run ⟨6⟩).Ends inert w r after ∧
        ∀ failure, r = .error failure → ¬ failure.Spent := by
  have start : Session inert budgetedWorld [⟨6⟩] [] := .start fun v member =>
    ⟨_, rfl, List.mem_singleton.mp member ▸ budgetedWorld_spells⟩
  obtain ⟨w, builds, moves, -⟩ := build_houses (B := inert) (w := budgetedWorld) []
    (by simp) none
  have session := start.interpreter (by simp) (builds ⟨some 6, true⟩)
  have spells := (moves.bears _ _ (.of_fresh budgetedWorld_spells rfl)).spells
  exact ⟨w, _, session, rfl, spells, rfl, rfl, session.budget_suffices
    (List.mem_singleton_self _) rfl (List.mem_singleton_self _) rfl spells rfl (by decide)
    (by decide)⟩

/-- One entry fewer is not enough. -/
example : ∃ failure after, (do
    let i ← Interpreter.build ⟨some 5, true⟩ none []
    i.run ⟨6⟩).Ends inert budgetedWorld (.error failure) after ∧ failure.Spent :=
  ⟨_, _, ⟨6, rfl⟩, 5, rfl⟩

end Session
end TraitDispatch
