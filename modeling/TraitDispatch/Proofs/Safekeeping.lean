import TraitDispatch.Proofs.Custody
import TraitDispatch.Proofs.Permanence

/- Worlds in which tokens are kept. As long as programs are confined to a set of tokens, they are
   answered with none outside it, leave the memo tables of all other values alone, and come to no
   other tokens on their way. In particular, a world in which only values are held that have been
   made goes on to such worlds, and a value that has just been made is out of reach until it is
   handed to someone. -/
namespace TraitDispatch
variable {H : Host} {α : Type} {B : Behaviour H} {G : Holdings H} {K : Set Token} {fuel : Nat}
  {start w mid after : World H} {v u : Value}

theorem Token.workable_of_stacks (all : ∀ s, .stack s ∈ K) : Token.Workable K :=
  ⟨fun _ => all _, fun _ _ => all _⟩

theorem Holdings.own_held {n : Node H} {key : KeyId} {p : Payload H} (own : n.own? key = some p) :
    G.payload p ⊆ G.node n := by
  obtain ⟨i, found, content⟩ := Option.bind_eq_some_iff.mp own
  obtain ⟨x, body, rfl⟩ := Instance.content?_eq_some_iff.mp content
  intro u held
  refine ⟨i, List.mem_of_find?_eq_some found, ?_⟩
  rw [body]
  exact held

namespace World

/-- Values of the set hold and remember only tokens of the set, and others are not held by the
    environments and the memory either. -/
structure Encloses (G : Holdings H) (K : Set Token) (w : World H) : Prop where
  node : ∀ v, .value v ∈ K → G.node (w.node v) ⊆ K
  remembered : ∀ v, .value v ∈ K → ∀ key p, w.remembered v key = some p → G.payload p ⊆ K
  environment : ∀ e, G.environment (w.environment e) ⊆ K
  memory : G.memory w.memory ⊆ K

def Spares (K : Set Token) (w after : World H) : Prop :=
  ∀ v, .value v ∉ K → ∀ key, after.remembered v key = w.remembered v key

def Makes (K : Set Token) (w after : World H) : Prop :=
  ∀ v, after.Made v → ¬ w.Made v → .value v ∈ K

theorem Makes.earlier (makes : start.Makes K after) (nodes : w.KeepsNodes after) :
    start.Makes K w :=
  fun v made unmade => makes v (nodes.made v made) unmade

namespace Encloses
variable (encloses : w.Encloses G K)
include encloses

theorem of_cells_eq (cells : after.cells = w.cells)
    (environment : ∀ e, G.environment (after.environment e) ⊆ K)
    (memory : G.memory after.memory ⊆ K) : after.Encloses G K where
  node v known := by
    simpa only [World.node, cells] using encloses.node v known
  remembered v known key p memo := by
    refine encloses.remembered v known key p ?_
    simpa only [World.remembered, cells] using memo
  environment := environment
  memory := memory

theorem change {f : Environment H → Environment H} (e : EnvironmentId)
    (kept : ∀ E, G.environment E ⊆ K → G.environment (f E) ⊆ K) :
    (w.change e f).Encloses G K := by
  refine encloses.of_cells_eq rfl (fun other => ?_) encloses.memory
  rcases w.environment_change_cases e other f with same | changed
  · rw [same]
    exact encloses.environment other
  · rw [changed]
    exact kept _ (encloses.environment other)

theorem create {n : Node H} (held : G.node n ⊆ K) : (w.create n).2.Encloses G K where
  node v known := by
    rw [node_create]
    split
    · exact held
    · exact encloses.node v known
  remembered v known key p memo := by
    rw [remembered_create] at memo
    exact encloses.remembered v known key p memo
  environment := encloses.environment
  memory := encloses.memory

theorem register {rule : Rule H} (e : EnvironmentId) (held : G.rule rule ⊆ K) :
    (w.change e (·.register rule)).Encloses G K := by
  refine encloses.change e fun E given t inside => ?_
  obtain ⟨other, member, inside⟩ | elsewhere := inside
  · rcases List.mem_append.mp member with old | new
    · exact given (.inl ⟨other, old, inside⟩)
    · exact held (List.mem_singleton.mp new ▸ inside)
  · exact given (.inr elsewhere)

theorem define (e : EnvironmentId) (name : String) (known : .value u ∈ K) :
    (w.change e (·.define name u)).Encloses G K := by
  refine encloses.change e fun E given t inside => ?_
  obtain ruled | ⟨other, x, bound, rfl⟩ | slot := inside
  · exact given (.inl ruled)
  · rw [lookup_define] at bound
    split at bound
    · cases bound
      exact known
    · exact given (.inr (.inl ⟨other, x, bound, rfl⟩))
  · exact given (.inr (.inr slot))

theorem setSlot {slot : H.Slot} (e : EnvironmentId) (held : G.slot slot ⊆ K) :
    (w.change e ({ · with slot := some slot })).Encloses G K := by
  refine encloses.change e fun E given t inside => ?_
  obtain ruled | bound | ⟨s, same, inside⟩ := inside
  · exact given (.inl ruled)
  · exact given (.inr (.inl bound))
  · cases same
    exact held inside

theorem perform {a : Access H} (given : G.access a ⊆ K) (made : w.Makes K (a.perform w).2) :
    G.accessed a (a.perform w).1 ⊆ K ∧ (a.perform w).2.Encloses G K := by
  cases a with
  | create n =>
    exact ⟨Set.singleton_subset_iff.mpr (made _ (made_new w n) (unmade_new w n)),
      encloses.create given⟩
  | inspect v => exact ⟨encloses.node v (Set.singleton_subset_iff.mp given), encloses⟩
  | environment e => exact ⟨encloses.environment e, encloses⟩
  | memory => exact ⟨encloses.memory, encloses⟩
  | isRemembered v key => exact ⟨Set.empty_subset _, encloses⟩
  | captured output => exact ⟨Set.empty_subset _, encloses⟩
  | declare k label | openBuffer =>
    exact ⟨Set.empty_subset _, encloses.of_cells_eq rfl encloses.environment encloses.memory⟩
  | addEnvironment =>
    refine ⟨Set.empty_subset _, encloses.of_cells_eq rfl (fun e => ?_) encloses.memory⟩
    exact (environment_add w e).symm ▸ encloses.environment e
  | exchange e e' =>
    refine ⟨Set.empty_subset _, encloses.of_cells_eq rfl (fun other => ?_) encloses.memory⟩
    obtain ⟨source, same⟩ := w.environment_exchange_cases e e' other
    exact same.symm ▸ encloses.environment source
  | register e rule => exact ⟨Set.empty_subset _, encloses.register e given⟩
  | define e name u =>
    exact ⟨Set.empty_subset _, encloses.define e name (Set.singleton_subset_iff.mp given)⟩
  | setOutput e output =>
    exact ⟨Set.empty_subset _, encloses.change e fun E held => held⟩
  | setSlot e slot => exact ⟨Set.empty_subset _, encloses.setSlot e given⟩
  | print output line =>
    refine ⟨Set.empty_subset _, ?_⟩
    cases output <;> exact encloses.of_cells_eq rfl encloses.environment encloses.memory
  | setMemory contents =>
    exact ⟨Set.empty_subset _, encloses.of_cells_eq rfl encloses.environment given⟩

theorem remember {key : KeyId} {p : Payload H} (held : G.payload p ⊆ K) :
    (w.remember v key p).Encloses G K where
  node u known := by
    rw [node_remember]
    exact encloses.node u known
  remembered u known other q memo := by
    rcases remembered_of_remember memo with ⟨-, -, rfl⟩ | old
    · exact held
    · exact encloses.remembered u known other q old
  environment := encloses.environment
  memory := encloses.memory

theorem remember_apart (hidden : .value v ∉ K) (key : KeyId) (p : Payload H) :
    (w.remember v key p).Encloses G K where
  node u known := by
    rw [node_remember]
    exact encloses.node u known
  remembered u known other q memo := by
    have apart : ¬ (u = v ∧ other.index = key.index) := fun same => hidden (same.1 ▸ known)
    rw [w.remembered_remember_other p apart] at memo
    exact encloses.remembered u known other q memo
  environment := encloses.environment
  memory := encloses.memory

end Encloses

namespace Spares

theorem same (w : World H) : w.Spares K w := fun _ _ _ => rfl

theorem trans (first : w.Spares K mid) (second : mid.Spares K after) : w.Spares K after :=
  fun v hidden key => (second v hidden key).trans (first v hidden key)

theorem perform (a : Access H) (w : World H) : w.Spares K (a.perform w).2 := by
  intro v _ key
  cases a with
  | create n => exact remembered_create ..
  | print output line => cases output <;> rfl
  | _ => rfl

theorem remember (known : .value v ∈ K) (key : KeyId) (p : Payload H) :
    w.Spares K (w.remember v key p) := by
  intro u hidden other
  refine w.remembered_remember_other p ?_
  rintro ⟨rfl, -⟩
  exact hidden known

end Spares
end World

theorem body_confined (codes : B.Confined G K) (workable : Token.Workable K) {r : Request H}
    {body : Act H r.Answer} (runs : r.body? B w = some body) (given : G.request r ⊆ K)
    (encloses : w.Encloses G K) : body.Confined G K fun a => G.answer r a ⊆ K := by
  cases r with
  | resolve v key ctx =>
    obtain ⟨-, stack, admitted, rfl⟩ := Request.body?_resolve_iff.mp runs
    obtain ⟨known, own⟩ := Set.pair_subset_iff.mp given
    have inner : Equipped K (ctx.withStack stack).stack :=
      Equipped.derive ⟨workable, own⟩ admitted
    refine Act.Confined.weaken (deriveAnswer_confined codes inner known (encloses.node v known)
      (encloses.environment _) key) fun r found => ?_
    rcases r with failure | _ | p
    · exact Set.empty_subset _
    · exact Set.empty_subset _
    · exact found p rfl
  | call f argument ctx =>
    cases runs
    obtain ⟨known, rest⟩ := Set.insert_subset_iff.mp given
    obtain ⟨own, held⟩ := Set.insert_subset_iff.mp rest
    exact (Function.apply_confined codes ⟨workable, own⟩ f held known).result
  | evaluate f ctx =>
    cases runs
    obtain ⟨own, held⟩ := Set.insert_subset_iff.mp given
    exact (Evaluator.apply_confined codes ⟨workable, own⟩ f held).result
  | expand f parameter replacement ctx =>
    cases runs
    obtain ⟨first, others⟩ := Set.insert_subset_iff.mp given
    obtain ⟨second, rest⟩ := Set.insert_subset_iff.mp others
    obtain ⟨own, held⟩ := Set.insert_subset_iff.mp rest
    exact (Expander.apply_confined codes ⟨workable, own⟩ f held first second).result
  | assign f value ctx =>
    cases runs
    obtain ⟨known, rest⟩ := Set.insert_subset_iff.mp given
    obtain ⟨own, held⟩ := Set.insert_subset_iff.mp rest
    exact Act.Confined.weaken (Assigner.apply_confined codes ⟨workable, own⟩ f held known)
      fun _ _ => Set.empty_subset _
  | access a => cases runs

theorem confined_at_once {r : Request H} {a : r.Answer} (at_once : r.AtOnce w a after)
    (given : G.request r ⊆ K) (encloses : w.Encloses G K) (made : w.Makes K after) :
    G.answer r a ⊆ K ∧ after.Encloses G K ∧ w.Spares K after := by
  cases at_once with
  | access access =>
    obtain ⟨held, later⟩ := encloses.perform given made
    exact ⟨held, later, .perform access w⟩
  | remembered memo ctx =>
    have known := (Set.pair_subset_iff.mp given).1
    exact ⟨encloses.remembered _ known _ _ memo, encloses, .same w⟩
  | refused => exact ⟨Set.empty_subset _, encloses, .same w⟩

theorem settle_confined {r : Request H} {a : r.Answer} (given : G.request r ⊆ K)
    (held : G.answer r a ⊆ K) (encloses : w.Encloses G K) :
    (r.settle a w).Encloses G K ∧ w.Spares K (r.settle a w) := by
  cases r with
  | resolve v key ctx =>
    match a with
    | .ok (some p) =>
      exact ⟨encloses.remember held, .remember (Set.pair_subset_iff.mp given).1 key p⟩
    | .ok none | .error _ => exact ⟨encloses, .same w⟩
  | _ => exact ⟨encloses, .same w⟩

theorem keepsNodes_settle (r : Request H) (a : r.Answer) (w : World H) :
    w.KeepsNodes (r.settle a w) := by
  cases r with
  | resolve v key ctx =>
    match a with
    | .ok (some p) => exact .remember w v key p
    | .ok none | .error _ => exact .same w
  | _ => exact .same w

/-- Tokens of the set are all that is handed on and answered, if values that are made after the
    start are in it. -/
def custodial (G : Holdings H) (K : Set Token) (start : World H) : Contract H where
  pre r w := start.KeepsNodes w ∧ (start.Makes K w → G.request r ⊆ K ∧ w.Encloses G K)
  post r w a after := w.KeepsNodes after ∧
    (start.Makes K after → G.answer r a ⊆ K ∧ after.Encloses G K ∧ w.Spares K after)

theorem Act.Confined.satisfies {m : Act H α} {good : α → Prop} (since : start.KeepsNodes w)
    (given : start.Makes K w → m.Confined G K good ∧ w.Encloses G K) :
    m.Satisfies (custodial G K start) w fun a after => w.KeepsNodes after ∧
      (start.Makes K after → good a ∧ after.Encloses G K ∧ w.Spares K after) := by
  induction m generalizing w with
  | done a =>
    refine ⟨.same w, fun makes => ?_⟩
    obtain ⟨holds, encloses⟩ := given makes
    exact ⟨holds, encloses, .same w⟩
  | ask request next ih =>
    refine ⟨⟨since, fun makes => ?_⟩, ?_⟩
    · obtain ⟨confined, encloses⟩ := given makes
      exact ⟨confined.1, encloses⟩
    rintro answer mid ⟨nodes, answered⟩
    have later : start.Makes K mid → (next answer).Confined G K good ∧ mid.Encloses G K := by
      intro makes
      obtain ⟨held, encloses, -⟩ := answered makes
      exact ⟨(given (makes.earlier nodes)).1.2 answer held, encloses⟩
    refine (ih answer (since.trans nodes) later).weaken ?_
    rintro a after ⟨nodes', rest⟩
    refine ⟨nodes.trans nodes', fun makes => ?_⟩
    obtain ⟨holds, encloses, spares⟩ := rest makes
    exact ⟨holds, encloses, (answered (makes.earlier nodes')).2.2.trans spares⟩

/-- In any run everything goes as agreed, if codes are confined to the set. -/
theorem custodial_kept (codes : B.Confined G K) (workable : Token.Workable K) :
    (custodial G K start).Kept B fun _ => True where
  at_once := by
    rintro r w a after ⟨since, due⟩ quick ends
    obtain ⟨fuel, answered⟩ := ends
    have nodes := (keepsOwnAnswers_enduring.request answered).toKeepsNodes
    refine ⟨nodes, fun makes => ?_⟩
    obtain ⟨given, encloses⟩ := due (makes.earlier nodes)
    exact confined_at_once (Request.Ends.at_once ⟨fuel, answered⟩ quick) given encloses
      fun v new unmade => makes v new fun old => unmade (since.made v old)
  runs := by
    rintro r w body ⟨since, due⟩ _ runs
    have body_held : start.Makes K w →
        body.Confined G K (fun a => G.answer r a ⊆ K) ∧ w.Encloses G K := by
      intro makes
      obtain ⟨given, encloses⟩ := due makes
      exact ⟨body_confined codes workable runs given encloses, encloses⟩
    refine (Act.Confined.satisfies since body_held).weaken ?_
    rintro a mid ⟨nodes, held⟩ -
    have settled := keepsNodes_settle r a mid
    refine ⟨nodes.trans settled, fun makes => ?_⟩
    obtain ⟨inside, encloses, spares⟩ := held (makes.earlier settled)
    obtain ⟨given, -⟩ := due (makes.earlier (nodes.trans settled))
    obtain ⟨later, spares'⟩ := settle_confined given inside encloses
    exact ⟨inside, later, spares.trans spares'⟩

section Running
variable (codes : B.Confined G K) (workable : Token.Workable K) {m : Act H α} {good : α → Prop}
  (confined : m.Confined G K good) (encloses : w.Encloses G K)
include codes workable confined encloses

/-- A run that makes only values of the set comes to a result as described and to such a world, and
    the memo tables of all other values are as they were. -/
theorem run_confined {a : α} (ran : m.run (respond B fuel) w = some (a, after))
    (made : w.Makes K after) : good a ∧ after.Encloses G K ∧ w.Spares K after := by
  have heeds := Act.Confined.satisfies (.same w) fun _ => ⟨confined, encloses⟩
  have ends := (custodial_kept codes workable).sound heeds fuel fun _ _ => trivial
  exact (ends.2 a after ran).2 made

/-- If all values are in the set, then so are the tokens of all requests of a run. -/
theorem history_confined (values : ∀ v, .value v ∈ K) {n : Moment H}
    (put : n ∈ m.history B fuel w) : G.request n.request ⊆ K := by
  have heeds := Act.Confined.satisfies (.same w) fun _ => ⟨confined, encloses⟩
  have ends := (custodial_kept codes workable).sound heeds fuel fun _ _ => trivial
  exact ((ends.1 n put).2 fun v _ _ => values v).1

end Running

/-- Codes name only values that they hold, are given or are answered with. Any stack will do for
    them. -/
def Behaviour.Discreet (B : Behaviour H) (G : Holdings H) : Prop :=
  ∀ K, (∀ s, .stack s ∈ K) → B.Confined G K

def Token.allBut (u : Value) : Set Token := {t | t ≠ .value u}

theorem Token.value_allBut : .value v ∈ Token.allBut u ↔ v ≠ u := by
  simp [Token.allBut]

theorem Token.stack_allBut (u : Value) (s : CallStack) : .stack s ∈ Token.allBut u := nofun

namespace World

def known (w : World H) : Set Token := {t | ∀ v, t = .value v → w.Made v}

theorem value_known : .value v ∈ w.known ↔ w.Made v := by
  simp [known]

theorem stack_known (w : World H) (s : CallStack) : .stack s ∈ w.known := nofun

theorem equipped_known (reached : w.known ⊆ K) (s : CallStack) : Equipped K s where
  workable := Token.workable_of_stacks fun s => reached (stack_known w s)
  stack := reached (stack_known w s)

theorem known_allBut (unmade : ¬ w.Made u) : w.known ⊆ Token.allBut u := by
  rintro t inside rfl
  exact unmade (inside u rfl)

def Closed (G : Holdings H) (w : World H) : Prop := w.Encloses G w.known

namespace Closed

/-- What has not been made is out of reach. -/
theorem encloses (closed : w.Closed G) (unmade : ¬ w.Made u) : w.Encloses G (Token.allBut u) := by
  have reached := known_allBut unmade
  refine ⟨fun v _ => ?_, fun v _ key p memo => ?_, fun e => (closed.environment e).trans reached,
    closed.memory.trans reached⟩
  · by_cases made : w.Made v
    · exact (closed.node v (value_known.mpr made)).trans reached
    · rw [node_unmade made]
      rintro x ⟨i, member, -⟩
      exact absurd member List.not_mem_nil
  · by_cases made : w.Made v
    · exact (closed.remembered v (value_known.mpr made) key p memo).trans reached
    · rw [remembered_unmade made] at memo
      cases memo

theorem of_encloses (each : ∀ u, ¬ w.Made u → w.Encloses G (Token.allBut u)) : w.Closed G := by
  have reached : ∀ S : Set Token, (∀ u, ¬ w.Made u → S ⊆ Token.allBut u) → S ⊆ w.known := by
    rintro S apart t inside v rfl
    by_contra unmade
    exact apart v unmade inside rfl
  have other : ∀ {v u}, .value v ∈ w.known → ¬ w.Made u → .value v ∈ Token.allBut u :=
    fun inside unmade => known_allBut unmade inside
  constructor
  · intro v made
    exact reached _ fun u unmade => (each u unmade).node v (other made unmade)
  · intro v made key p memo
    exact reached _ fun u unmade => (each u unmade).remembered v (other made unmade) key p memo
  · intro e
    exact reached _ fun u unmade => (each u unmade).environment e
  · exact reached _ fun u unmade => (each u unmade).memory

theorem perform (closed : w.Closed G) (discreet : B.Discreet G) {m : Program H α}
    {good : Set Token → α → Prop} {r : Except Failure α}
    (ran : m.perform (respond B fuel) w = some (r, after))
    (confined : ∀ K, w.known ⊆ K → m.Confined G K (good K)) : after.Closed G := by
  refine of_encloses fun u unmade => ?_
  have before : ¬ w.Made u := fun old => unmade ((Program.perform_keepsOwnAnswers ran).made u old)
  have all := Token.stack_allBut u
  have makes : w.Makes (Token.allBut u) after := fun v made _ =>
    Token.value_allBut.mpr fun same => unmade (same ▸ made)
  exact (run_confined (discreet _ all) (Token.workable_of_stacks all)
    (confined _ (known_allBut before)) (closed.encloses before) ran makes).2.1

end Closed
end World
end TraitDispatch
