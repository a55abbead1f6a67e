import Mathlib.Logic.Relation
import TraitDispatch.Proofs.Handover
import TraitDispatch.Proofs.Permanence

/- Values grown from others. An extended value has the instances of the old one and another in front
   of them, and starts without any answers; the old one stays as it was. So what a value answers for
   the keys that were added on the way to it is settled by that way alone, whatever is asked of its
   relatives before and after. -/
namespace TraitDispatch
variable {H : Host} {α : Type} {B : Behaviour H} {w mid after : World H} {v : Value}
  {s t : CallStack}

def Value.extend (v : Value) (i : Instance H) : Program H Value := do
  Program.create ((← Program.access (.inspect v)).add i)

def Value.relocate (v : Value) (location : Option Location) : Program H Value := do
  Program.create ((← Program.access (.inspect v)).moved location)

/-- The way to a value: the instances in the order in which they were added, and the location that
    was given last. -/
structure Lineage (H : Host) where
  added : List (Instance H)
  location : Option Location

namespace Lineage

def extend (path : Lineage H) (i : Instance H) : Lineage H :=
  { path with added := path.added ++ [i] }

def last? (path : Lineage H) (key : KeyId) : Option (Instance H) :=
  (path.added.filter fun i => i.key.id == key).getLast?

def node (path : Lineage H) : Node H := ⟨path.added.reverse, path.location⟩

theorem keys_node (path : Lineage H) : path.node.keys = path.added.map (·.key.id) := by
  rw [Node.keys, node, List.reverse_reverse]

theorem node_extend (path : Lineage H) (i : Instance H) :
    (path.extend i).node = path.node.add i := by
  simp [node, extend, Node.add]

theorem find?_node (path : Lineage H) (key : KeyId) : path.node.find? key = path.last? key := by
  rw [Node.find?, node, last?, ← List.head?_filter, List.filter_reverse, List.head?_reverse]

theorem exists_last {path : Lineage H} {i : Instance H} (member : i ∈ path.added) :
    ∃ j, path.last? i.key.id = some j := by
  have listed : i ∈ path.added.filter fun j => j.key.id == i.key.id :=
    List.mem_filter.mpr ⟨member, KeyId.beq_iff_index_eq.mpr rfl⟩
  exact ⟨_, List.getLast?_eq_some_getLast (List.ne_nil_of_mem listed)⟩

theorem mem_of_last? {path : Lineage H} {key : KeyId} {i : Instance H}
    (last : path.last? key = some i) : i ∈ path.added :=
  (List.mem_filter.mp (List.mem_of_getLast? last)).1

end Lineage

def Moment.Sane (n : Moment H) : Prop :=
  ∀ v key ctx, n.request = .resolve v key ctx → n.world.Made v

/-- A world, and values that grew in it with the ways that they came. -/
structure Family (H : Host) where
  world : World H
  members : List (Value × Lineage H)

/-- A family grows by bare values and by values made from its members. In between any programs run,
    in any environment, and whatever they ask or change. Code may make it grow in the course of a
    run as well, and when the code ends, its answer is remembered. -/
inductive Family.Step (B : Behaviour H) : Family H → Family H → Prop where
  | root {f : Family H} {u : Value} {after : World H} (location : Option Location)
      (made : (Program.create (.bare location)).Ends B f.world (.ok u) after) :
      Step B f ⟨after, (u, ⟨[], location⟩) :: f.members⟩
  | extended {f : Family H} {v u : Value} {path : Lineage H} {after : World H} {k : Kind}
      (key : Key k) (content : k.Carrier H) (member : (v, path) ∈ f.members)
      (made : (v.extend (.constant key content)).Ends B f.world (.ok u) after) :
      Step B f ⟨after, (u, path.extend (.constant key content)) :: f.members⟩
  | relocated {f : Family H} {v u : Value} {path : Lineage H} {after : World H}
      (location : Option Location) (member : (v, path) ∈ f.members)
      (made : (v.relocate location).Ends B f.world (.ok u) after) :
      Step B f ⟨after, (u, { path with location }) :: f.members⟩
  | ran {f : Family H} {α : Type} {m : Act H α} {a : α} {after : World H}
      (ends : m.Ends B f.world a after) : Step B f ⟨after, f.members⟩
  | during {f : Family H} {α : Type} {m : Act H α} {fuel : Nat} {n : Moment H}
      (put : n ∈ m.history B fuel f.world) : Step B f ⟨n.world, f.members⟩
  | settled {f : Family H} {w : World H} {r : Request H} {body : Act H r.Answer} {a : r.Answer}
      (sane : (⟨r, w⟩ : Moment H).Sane) (runs : r.body? B w = some body)
      (ends : body.Ends B w a f.world) : Step B f ⟨r.settle a f.world, f.members⟩

structure World.Inherits (w : World H) (v : Value) (path : Lineage H) : Prop where
  made : w.Made v
  node : w.node v = path.node
  constant : ∀ i ∈ path.added, i.content?.isSome
  recalls : ∀ key p, (w.node v).own? key = some p → w.Recalls v key

namespace World.Inherits
variable {path : Lineage H}

theorem later (inherits : w.Inherits v path) (continues : w.KeepsOwnAnswers after) :
    after.Inherits v path := by
  have node := continues.node v inherits.made
  refine ⟨continues.made v inherits.made, node.trans inherits.node, inherits.constant,
    fun key p own => ?_⟩
  rw [node] at own
  exact continues.recalls v key p own (inherits.recalls key p own)

theorem create (w : World H) (constant : ∀ i ∈ path.added, i.content?.isSome) :
    (w.create path.node).2.Inherits (w.create path.node).1 path where
  made := made_new w path.node
  node := node_new w path.node
  constant := constant
  recalls key _ _ answer memo := by
    rw [remembered_new] at memo
    cases memo

theorem own {key : KeyId} {i : Instance H} (inherits : w.Inherits v path)
    (last : path.last? key = some i) : ∃ p, i.content? = some p ∧ (w.node v).own? key = some p := by
  obtain ⟨p, content⟩ :=
    Option.isSome_iff_exists.mp (inherits.constant i (Lineage.mem_of_last? last))
  refine ⟨p, content, ?_⟩
  rw [inherits.node, Node.own?, Lineage.find?_node, last, Option.bind_some, content]

end World.Inherits

/-- Stacks as code is given them. A derivation is listed for the code that runs in it, and none runs
    where a value has the answer at hand. -/
inductive CallStack.Given (w : World H) : CallStack → Prop where
  | start (limit : Option Nat) : Given w (.withLimit limit)
  | descends {s t : CallStack} (given : Given w s) (from_s : s.Descends t) : Given w t
  | derives {s t : CallStack} {v : Value} {key : KeyId} (given : Given w s) (made : w.Made v)
      (lacks : (w.node v).own? key = none) (admitted : s.derive v key = .ok t) : Given w t

namespace CallStack.Given

theorem later (given : s.Given w) (made : ∀ v, w.Made v → after.Made v)
    (node : ∀ v, w.Made v → after.node v = w.node v) : s.Given after := by
  induction given with
  | start limit => exact .start limit
  | descends _ from_s ih => exact ih.descends from_s
  | derives _ here lacks admitted ih =>
    rw [← node _ here] at lacks
    exact ih.derives (made _ here) lacks admitted

theorem lacks {d : Derivation} (given : s.Given w) (member : d ∈ s.active) :
    ∃ key : KeyId, key.index = d.key ∧ (w.node d.value).own? key = none := by
  induction given with
  | start limit => cases member
  | descends _ from_s ih =>
    rw [active_of_descends from_s] at member
    exact ih member
  | derives _ _ lacks admitted ih =>
    obtain ⟨-, -, rfl⟩ := CallStack.derive_eq_ok_iff.mp admitted
    rcases List.mem_cons.mp member with rfl | above
    · exact ⟨_, rfl, lacks⟩
    · exact ih above

theorem idle {key : KeyId} {p : Payload H} (given : s.Given w)
    (own : (w.node v).own? key = some p) : ⟨v, key.index⟩ ∉ s.active := by
  intro busy
  obtain ⟨other, same, none⟩ := given.lacks busy
  rw [Node.own?, Node.find?_congr _ same, ← Node.own?, own] at none
  cases none

end CallStack.Given

theorem own_resolves {key : KeyId} {p : Payload H} {ctx : Context}
    (own : (w.node v).own? key = some p) (recalls : w.Recalls v key)
    (unlimited : ctx.stack.limit = none) (given : ctx.stack.Given w) :
    ∃ after, (Program.resolve v key ctx).Ends B w (.ok (some p)) after := by
  cases memo : w.remembered v key with
  | some answer =>
    have right := recalls answer memo
    rw [Node.standard?, own] at right
    cases right
    exact ⟨w, .resolve (.remembered memo ctx)⟩
  | none =>
    obtain ⟨inner, admitted, -, -⟩ := derive_unlimited unlimited (given.idle own)
    have derived : (deriveAnswer B w v key (ctx.withStack inner)).Ends B w (.ok (some p)) w := by
      rw [deriveAnswer_own own]
      exact .done _ w
    exact ⟨_, .resolve (.derived memo admitted derived)⟩

theorem own_answers {p : Payload H} {key : Key p.kind} {ctx : Context}
    (resolved : (Program.resolve v key.id ctx).Ends B w (.ok (some p)) after) :
    (v.answer? key ctx).Ends B w (.ok (some p.content)) after := by
  obtain ⟨k, x⟩ := p
  refine .bind resolved ?_
  simp only [Payload.as?_self]
  exact .done (some x) after

theorem handsOn_given {r : Request H} {body : Act H r.Answer} (hands : B.HandsOn)
    (runs : r.body? B w = some body) (given : ∀ s, r.stack? = some s → s.Given w)
    (sane : (⟨r, w⟩ : Moment H).Sane) : body.HandsOn (·.Given w) := by
  cases r with
  | resolve v key ctx =>
    obtain ⟨-, stack, admitted, rfl⟩ := Request.body?_resolve_iff.mp runs
    cases own : (w.node v).own? key with
    | some p =>
      rw [deriveAnswer_own own]
      exact Program.handsOn_pure _
    | none =>
      have inner := (given ctx.stack rfl).derives (sane v key ctx rfl) own admitted
      exact (handsOn_deriveAnswer hands w v key).weaken fun s from_s => inner.descends from_s
  | call f argument ctx =>
    cases runs
    exact (f.handsOn_apply hands argument).weaken fun s => (given ctx.stack rfl).descends
  | evaluate f ctx =>
    cases runs
    exact (f.handsOn_apply hands).weaken fun s => (given ctx.stack rfl).descends
  | expand f parameter replacement ctx =>
    cases runs
    exact (f.handsOn_apply hands parameter replacement).weaken fun s =>
      (given ctx.stack rfl).descends
  | assign f value ctx =>
    cases runs
    exact (f.handsOn_apply hands value).weaken fun s => (given ctx.stack rfl).descends
  | access a => cases runs

section Handing
variable {G : World H → CallStack → Prop} {P : Moment H → Prop}
  (kept : ∀ (w after : World H) (s : CallStack), G w s → (∀ v, w.Made v → after.Made v) →
    (∀ v, w.Made v → after.node v = w.node v) → G after s)
include kept

theorem moments_handed {fuel : Nat}
    (inner : ∀ (r : Request H) (w : World H), (∀ s, r.stack? = some s → G w s) →
      (∀ n ∈ ⟨r, w⟩ :: nested B fuel r w, P n) →
      ∀ n ∈ nested B fuel r w, ∀ s, n.request.stack? = some s → G n.world s)
    (m : Act H α) (given : m.HandsOn (G w)) (holds : ∀ n ∈ m.history B fuel w, P n) :
    ∀ n ∈ m.history B fuel w, ∀ s, n.request.stack? = some s → G n.world s := by
  -- Along the program. What is known of its stacks is kept while its requests are answered.
  induction m generalizing w with
  | done a => exact List.forall_mem_nil _
  | ask r next ih =>
    intro n member
    rcases mem_history_ask.mp member with rfl | deeper | ⟨q, answered, later⟩
    · exact given.1
    · refine inner r w given.1 (fun k within => holds k ?_) n deeper
      rw [history_ask]
      exact List.mem_append_left _ within
    · have continues : w.KeepsOwnAnswers q.2 := keepsOwnAnswers_enduring.request answered
      have still := (given.2 q.1).weaken fun s old =>
        kept w q.2 s old continues.made continues.node
      exact ih q.1 still
        (fun k within => holds k (mem_history_ask.mpr (.inr (.inr ⟨q, answered, within⟩)))) n later

variable (hands : ∀ {r : Request H} {w : World H} {body : Act H r.Answer}, r.body? B w = some body →
    (∀ s, r.stack? = some s → G w s) → P ⟨r, w⟩ → body.HandsOn (G w))
include hands

theorem nested_handed (fuel : Nat) (r : Request H) (w : World H)
    (given : ∀ s, r.stack? = some s → G w s) (holds : ∀ n ∈ ⟨r, w⟩ :: nested B fuel r w, P n) :
    ∀ n ∈ nested B fuel r w, ∀ s, n.request.stack? = some s → G n.world s := by
  induction fuel generalizing r w with
  | zero => exact List.forall_mem_nil _
  | succ fuel ih =>
    cases runs : r.body? B w with
    | none =>
      rw [nested_at_once runs]
      exact List.forall_mem_nil _
    | some body =>
      rw [nested_body runs] at holds ⊢
      exact moments_handed kept ih body (hands runs given (holds _ (List.mem_cons_self ..)))
        fun n member => holds n (List.mem_cons_of_mem _ member)

/-- What is known of stacks carries over to those that are handed on in a run, if the code that
    answers a request is handed such stacks. -/
theorem history_handed (fuel : Nat) (m : Act H α) (given : m.HandsOn (G w))
    (holds : ∀ n ∈ m.history B fuel w, P n) :
    ∀ n ∈ m.history B fuel w, ∀ s, n.request.stack? = some s → G n.world s :=
  moments_handed kept (nested_handed kept hands fuel) m given holds

end Handing

/-- Whatever a run asks of values that were made, it asks on stacks that code is given. -/
theorem history_given (hands : B.HandsOn) (fuel : Nat) (m : Act H α) (given : m.HandsOn (·.Given w))
    (sane : ∀ n ∈ m.history B fuel w, n.Sane) :
    ∀ n ∈ m.history B fuel w, ∀ s, n.request.stack? = some s → s.Given n.world :=
  history_handed (G := fun w s => s.Given w) (fun _ _ _ => CallStack.Given.later)
    (handsOn_given hands) fuel m given sane

theorem settle_goes_on {r : Request H} {body : Act H r.Answer} {a : r.Answer}
    (sane : (⟨r, w⟩ : Moment H).Sane) (runs : r.body? B w = some body)
    (ends : body.Ends B w a mid) : mid.KeepsOwnAnswers (r.settle a mid) := by
  obtain ⟨fuel, ran⟩ := ends
  have continues : w.KeepsOwnAnswers mid := keepsOwnAnswers_enduring.run ran
  have answered : respond B (fuel + 1) r w = some (a, r.settle a mid) := by
    rw [respond_body runs, ran]
    rfl
  cases r with
  | resolve v key ctx =>
    match a with
    | .error failure => exact .same mid
    | .ok none => exact .same mid
    | .ok (some answer) =>
      refine (World.KeepsOwnAnswers.same mid).remember fun p own => ?_
      rw [continues.node v (sane v key ctx rfl)] at own
      exact answer_of_own (by simp [runs]) ⟨_, answered⟩ own
  | _ => exact .same mid

namespace Family
variable {f g : Family H} {path : Lineage H}

def Sound (f : Family H) : Prop := ∀ v path, (v, path) ∈ f.members → f.world.Inherits v path

theorem sound_step (sound : f.Sound) (step : Step B f g) :
    g.Sound ∧ ∀ m ∈ f.members, m ∈ g.members := by
  -- A new member is added with what it was made of, and the others are as they were.
  have grows : ∀ {path : Lineage H} {u : Value} {after : World H},
      (∀ i ∈ path.added, i.content?.isSome) →
      (Program.create path.node).Ends B f.world (.ok u) after →
      Sound ⟨after, (u, path) :: f.members⟩ := by
    intro path u after constant made v other member
    obtain ⟨same, rfl⟩ := Program.ends_unique made (.access (.create _) f.world)
    cases same
    rcases List.mem_cons.mp member with here | there
    · cases here
      exact .create f.world constant
    · exact (sound v other there).later
        (keepsOwnAnswers_enduring.perform (B := B) (.create path.node) f.world)
  have goes_on : ∀ {after : World H}, f.world.KeepsOwnAnswers after →
      Sound ⟨after, f.members⟩ ∧ ∀ m ∈ f.members, m ∈ f.members := fun continues =>
    ⟨fun v other member => (sound v other member).later continues, fun m member => member⟩
  cases step with
  | root location made => exact ⟨grows nofun made, fun m member => List.mem_cons_of_mem _ member⟩
  | @extended v u path after k key content member made =>
    have here := sound v path member
    refine ⟨grows (fun i within => ?_) ?_, fun m member => List.mem_cons_of_mem _ member⟩
    · rcases List.mem_append.mp within with old | new
      · exact here.constant i old
      · rw [List.mem_singleton.mp new]
        rfl
    · rw [Lineage.node_extend, ← here.node]
      exact (Program.ends_bind_iff (.access (.inspect v) f.world)).mp made
  | @relocated v u path after location member made =>
    have here := sound v path member
    refine ⟨grows here.constant ?_, fun m member => List.mem_cons_of_mem _ member⟩
    change (Program.create (path.node.moved location)).Ends B f.world (.ok u) after
    rw [← here.node]
    exact (Program.ends_bind_iff (.access (.inspect v) f.world)).mp made
  | ran ends =>
    obtain ⟨fuel, ran⟩ := ends
    exact goes_on (keepsOwnAnswers_enduring.run ran)
  | during put => exact goes_on (keepsOwnAnswers_enduring.history put)
  | settled sane runs ends => exact goes_on (settle_goes_on sane runs ends)

theorem sound_run (sound : f.Sound) (run : Relation.ReflTransGen (Step B) f g) :
    g.Sound ∧ ∀ m ∈ f.members, m ∈ g.members := by
  induction run with
  | refl => exact ⟨sound, fun m member => member⟩
  | tail _ step ih =>
    obtain ⟨sound', kept⟩ := sound_step ih.1 step
    exact ⟨sound', fun m member => kept m (ih.2 m member)⟩

/-- However a family has grown and goes on, a member has the keys that were added on the way to it,
    in their order, and the location given last; and for each of these keys it answers what was
    added last. -/
theorem extension_persists (grown : Relation.ReflTransGen (Step B) ⟨w, []⟩ f)
    (later : Relation.ReflTransGen (Step B) f g) (member : (v, path) ∈ f.members) :
    (g.world.node v).keys = path.added.map (·.key.id) ∧
      (g.world.node v).location = path.location ∧
      ∀ i ∈ path.added, ∃ last p, path.last? i.key.id = some last ∧ last.content? = some p ∧
        ∀ ctx : Context, ctx.stack.limit = none → ctx.stack.Given g.world →
          ∃ after, (Program.resolve v i.key.id ctx).Ends B g.world (.ok (some p)) after ∧
            ∀ key : Key p.kind, key.id = i.key.id →
              (v.answer? key ctx).Ends B g.world (.ok (some p.content)) after := by
  have empty : Sound (⟨w, []⟩ : Family H) := nofun
  obtain ⟨sound, kept⟩ := sound_run (sound_run empty grown).1 later
  have inherits := sound v path (kept _ member)
  refine ⟨?_, ?_, fun i added => ?_⟩
  · rw [inherits.node, Lineage.keys_node]
  · rw [inherits.node]
    rfl
  · obtain ⟨last, found⟩ := Lineage.exists_last added
    obtain ⟨p, content, own⟩ := inherits.own found
    refine ⟨last, p, found, content, fun ctx unlimited given => ?_⟩
    obtain ⟨after, resolved⟩ := own_resolves (B := B) own (inherits.recalls _ p own) unlimited given
    refine ⟨after, resolved, fun key same => own_answers ?_⟩
    rw [same]
    exact resolved

def namingWorld : World Host.unit :=
  { World.initial () with environments := #[{ rules := StandardRule.inOrder.map .standard }] }

def namingFamily : Family Host.unit where
  world :=
    { namingWorld with
      cells := #[⟨.bare none, []⟩, ⟨.single Key.name ⟨"x"⟩ none, [(5, ⟨.name, ⟨"x"⟩⟩)]⟩,
        ⟨(Node.single Key.name ⟨"x"⟩ none).add (.constant Key.name ⟨"y"⟩), []⟩] }
  members :=
    [(⟨2⟩, ⟨[.constant Key.name ⟨"x"⟩, .constant Key.name ⟨"y"⟩], none⟩),
      (⟨1⟩, ⟨[.constant Key.name ⟨"x"⟩], none⟩), (⟨0⟩, ⟨[], none⟩)]

def askedFamily : Family Host.unit :=
  { namingFamily with
    world := namingFamily.world.remember ⟨2⟩ Key.name.id ⟨.name, ⟨"y"⟩⟩ }

theorem renamed_value_answers :
    Relation.ReflTransGen (Step inert) ⟨namingWorld, []⟩ namingFamily ∧
      Relation.ReflTransGen (Step inert) namingFamily askedFamily ∧
      (askedFamily.world.node ⟨2⟩).keys = [Key.name.id, Key.name.id] ∧
      CallStack.fresh.Given askedFamily.world ∧
      ∃ after, ((⟨2⟩ : Value).answer? Key.name ⟨⟨0⟩, .fresh⟩).Ends inert askedFamily.world
        (.ok (some ⟨"y"⟩)) after := by
  have born : Relation.ReflTransGen (Step inert) ⟨namingWorld, []⟩ _ :=
    .tail .refl (.root none (.access (.create _) _))
  have named := born.tail (.extended Key.name ⟨"x"⟩ (List.mem_cons_self ..)
    (.bind (.access (.inspect ⟨0⟩) _) (.access (.create _) _)))
  have asked := named.tail
    (.ran (m := (Program.resolve ⟨1⟩ Key.name.id ⟨⟨0⟩, .fresh⟩).run) ⟨1, rfl⟩)
  have renamed := asked.tail (.extended Key.name ⟨"y"⟩ (List.mem_cons_self ..)
    (.bind (.access (.inspect ⟨1⟩) _) (.access (.create _) _)))
  have grown : Relation.ReflTransGen (Step inert) ⟨namingWorld, []⟩ namingFamily := renamed
  have goes : Relation.ReflTransGen (Step inert) namingFamily askedFamily :=
    .single (.ran (m := (Program.resolve ⟨2⟩ Key.name.id ⟨⟨0⟩, .fresh⟩).run) ⟨1, rfl⟩)
  obtain ⟨keys, -, answers⟩ := extension_persists grown goes (List.mem_cons_self ..)
  obtain ⟨last, p, found, content, answer⟩ :=
    answers (.constant Key.name ⟨"x"⟩) (List.mem_cons_self ..)
  cases found
  cases content
  obtain ⟨after, -, typed⟩ := answer ⟨⟨0⟩, .fresh⟩ rfl (.start none)
  exact ⟨grown, goes, keys, .start none, after, typed Key.name rfl⟩

end Family

end TraitDispatch
